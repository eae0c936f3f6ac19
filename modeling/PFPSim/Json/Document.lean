import Mathlib.Data.List.Pairwise
import Mathlib.Data.String.Basic

/-!
# JSON documents

Values over an arbitrary type of floating-point numbers. The members of an object are a
list in the order of its keys, as an ordered map enumerates them; a `Document` keeps that
order in all its objects. A value is described by what it has at each of its paths: a
primitive, the length of an array, or the keys of an object (`labelAt`), and documents
with the same labels are equal (`ext_labels`).
-/

namespace Json

inductive Primitive (F : Type) where
  | null
  | string (s : String)
  | boolean (b : Bool)
  | number_integer (n : Int64)
  | number_unsigned (n : UInt64)
  | number_float (x : F)
  deriving DecidableEq

/-- The types of primitives. -/
inductive PrimitiveType where
  | null
  | string
  | boolean
  | number_integer
  | number_unsigned
  | number_float
  deriving DecidableEq

def Primitive.type {F : Type} : Primitive F → PrimitiveType
  | .null => .null
  | .string _ => .string
  | .boolean _ => .boolean
  | .number_integer _ => .number_integer
  | .number_unsigned _ => .number_unsigned
  | .number_float _ => .number_float

inductive Value (F : Type) where
  | primitive (p : Primitive F)
  | array (elements : List (Value F))
  | object (members : List (String × Value F))

variable {F : Type}

/-- The members of an object. -/
abbrev Members (F : Type) := List (String × Value F)

namespace Value

/-- Induction over the elements of arrays and the members of objects. -/
@[elab_as_elim, induction_eliminator]
theorem induct {motive : Value F → Prop} (primitive : ∀ p, motive (.primitive p))
    (array : ∀ elements, (∀ e ∈ elements, motive e) → motive (.array elements))
    (object : ∀ members, (∀ m ∈ members, motive m.2) → motive (.object members))
    (v : Value F) : motive v :=
  @Value.rec F motive (fun l => ∀ e ∈ l, motive e) (fun l => ∀ m ∈ l, motive m.2)
    (fun m => motive m.2) primitive array object
    (fun _ h => absurd h List.not_mem_nil) (fun _ _ hd tl => List.forall_mem_cons.mpr ⟨hd, tl⟩)
    (fun _ h => absurd h List.not_mem_nil) (fun _ _ hd tl => List.forall_mem_cons.mpr ⟨hd, tl⟩)
    (fun _ _ h => h) v

/-- The keys of every object are in order. -/
inductive WellFormed : Value F → Prop
  | primitive (p : Primitive F) : WellFormed (.primitive p)
  | array {elements : List (Value F)} (h : ∀ e ∈ elements, WellFormed e) :
      WellFormed (.array elements)
  | object {members : Members F} (hkeys : members.Pairwise fun m m' => m.1 < m'.1)
      (h : ∀ m ∈ members, WellFormed m.2) : WellFormed (.object members)

end Value

/-- A value as a parser yields it. -/
def Document (F : Type) := { v : Value F // v.WellFormed }

/-! ## Members -/

namespace Members

variable {ms : Members F} {k j : String} {v w : Value F}

/-- The keys are in order. -/
def Ordered (ms : Members F) : Prop := ms.Pairwise fun m m' => m.1 < m'.1

def keys (ms : Members F) : List String := ms.map Prod.fst

def find (k : String) : Members F → Option (Value F)
  | [] => none
  | m :: ms => if m.1 = k then some m.2 else find k ms

/-- The assignment to a subscript of an ordered map. -/
def assign (k : String) (v : Value F) : Members F → Members F
  | [] => [(k, v)]
  | m :: ms =>
    if m.1 = k then (k, v) :: ms
    else if k < m.1 then (k, v) :: m :: ms
    else m :: assign k v ms

theorem mem_of_find (h : ms.find k = some v) : (k, v) ∈ ms := by
  induction ms with
  | nil => cases h
  | cons m ms ih =>
    rw [find] at h
    split at h
    · rename_i hk
      cases h
      rw [← hk]
      exact List.mem_cons_self
    · exact List.mem_cons_of_mem _ (ih h)

theorem mem_keys_of_find (h : ms.find k = some v) : k ∈ ms.keys :=
  List.mem_map.mpr ⟨(k, v), mem_of_find h, rfl⟩

theorem find_of_mem (hms : ms.Ordered) (h : (k, v) ∈ ms) : ms.find k = some v := by
  induction ms with
  | nil => cases h
  | cons m ms ih =>
    obtain ⟨hm, hms⟩ := List.pairwise_cons.mp hms
    rw [find]
    rcases List.mem_cons.mp h with rfl | h
    · exact if_pos rfl
    · have hne : m.1 ≠ k := ne_of_lt (hm _ h)
      rw [if_neg hne]
      exact ih hms h

theorem find_eq_none (h : k ∉ ms.keys) : ms.find k = none := by
  cases hfind : ms.find k with
  | none => rfl
  | some v => exact absurd (mem_keys_of_find hfind) h

theorem exists_find (h : k ∈ ms.keys) : ∃ v, ms.find k = some v := by
  induction ms with
  | nil => cases h
  | cons m ms ih =>
    rw [find]
    split
    · exact ⟨_, rfl⟩
    · rename_i hne
      rcases List.mem_cons.mp h with heq | h
      · exact absurd heq.symm hne
      · exact ih h

theorem mem_assign {m : String × Value F} (h : m ∈ ms.assign k v) : m = (k, v) ∨ m ∈ ms := by
  induction ms with
  | nil => exact .inl (List.mem_singleton.mp h)
  | cons x ms ih =>
    rw [assign] at h
    split at h
    · rcases List.mem_cons.mp h with h | h
      · exact .inl h
      · exact .inr (List.mem_cons_of_mem _ h)
    · split at h
      · exact List.mem_cons.mp h
      · rcases List.mem_cons.mp h with rfl | h
        · exact .inr List.mem_cons_self
        · exact (ih h).imp_right (List.mem_cons_of_mem _)

/-- Assigning to a key that is there keeps the keys. -/
theorem keys_assign (hms : ms.Ordered) (h : ms.find k = some w) :
    (ms.assign k v).keys = ms.keys := by
  induction ms with
  | nil => cases h
  | cons m ms ih =>
    obtain ⟨hm, hms⟩ := List.pairwise_cons.mp hms
    rw [find] at h
    rw [assign]
    split at h
    · rename_i hk
      rw [if_pos hk, ← hk]
      rfl
    · rename_i hk
      have hlt : ¬ k < m.1 := fun hlt => absurd hlt (lt_asymm (hm _ (mem_of_find h)))
      rw [if_neg hk, if_neg hlt]
      exact congrArg (m.1 :: ·) (ih hms h)

theorem ordered_iff_keys : ms.Ordered ↔ ms.keys.Pairwise (· < ·) := List.pairwise_map.symm

theorem Ordered.assign (hms : ms.Ordered) (h : ms.find k = some w) :
    (Members.assign k v ms).Ordered := by
  rw [ordered_iff_keys, keys_assign hms h, ← ordered_iff_keys]
  exact hms

theorem Ordered.nodup_keys (hms : ms.Ordered) : ms.keys.Nodup :=
  (ordered_iff_keys.mp hms).imp fun hlt => ne_of_lt hlt

theorem wellFormed_assign (hms : ∀ m ∈ ms, m.2.WellFormed) (hv : v.WellFormed) :
    ∀ m ∈ ms.assign k v, m.2.WellFormed := by
  intro m hm
  rcases mem_assign hm with rfl | hm
  · exact hv
  · exact hms m hm

theorem find_assign (hms : ms.Ordered) (h : ms.find k = some w) (j : String) :
    (ms.assign k v).find j = if k = j then some v else ms.find j := by
  induction ms with
  | nil => cases h
  | cons m ms ih =>
    obtain ⟨hm, hms⟩ := List.pairwise_cons.mp hms
    rw [find] at h
    rw [assign, find]
    split at h
    · rename_i hk
      rw [if_pos hk, find, hk]
      split
      · rfl
      · rfl
    · rename_i hk
      have hlt : ¬ k < m.1 := fun hlt => absurd hlt (lt_asymm (hm _ (mem_of_find h)))
      rw [if_neg hk, if_neg hlt, find, ih hms h]
      by_cases hj : m.1 = j
      · rw [if_pos hj, if_pos hj, if_neg fun heq => hk (hj.trans heq.symm)]
      · rw [if_neg hj, if_neg hj]

/-- Ordered members are determined by their keys and what they find there. -/
theorem ext_find {ms' : Members F} (hms : ms.Ordered) (hkeys : ms.keys = ms'.keys)
    (h : ∀ k, ms.find k = ms'.find k) : ms = ms' := by
  have hms' : ms'.Ordered := by
    rw [ordered_iff_keys, ← hkeys, ← ordered_iff_keys]
    exact hms
  induction ms generalizing ms' with
  | nil =>
    cases ms' with
    | nil => rfl
    | cons m' ms' => cases hkeys
  | cons m ms ih =>
    cases ms' with
    | nil => cases hkeys
    | cons m' ms' =>
      obtain ⟨hkey, hkeys⟩ := List.cons.inj hkeys
      have hvalue : m.2 = m'.2 := by
        have hm := h m.1
        rw [find, find, if_pos rfl, if_pos hkey.symm] at hm
        exact Option.some.inj hm
      obtain ⟨hm, hrest⟩ := List.pairwise_cons.mp hms
      obtain ⟨hm', hrest'⟩ := List.pairwise_cons.mp hms'
      rw [Prod.ext hkey hvalue, ih hrest hkeys (fun k => ?_) hrest']
      by_cases hk : m.1 = k
      · have hnot : k ∉ keys ms := by
          intro hmem
          obtain ⟨x, hx, heq⟩ := List.mem_map.mp hmem
          exact absurd (hm x hx) (hk ▸ heq ▸ lt_irrefl _)
        have hnot' : k ∉ keys ms' := fun hmem => hnot (show k ∈ keys ms from
          (show keys ms = keys ms' from hkeys) ▸ hmem)
        rw [find_eq_none hnot, find_eq_none hnot']
      · have hrestk := h k
        rw [find, find, if_neg hk, if_neg (hkey ▸ hk)] at hrestk
        exact hrestk

end Members

/-! ## Paths -/

inductive PathStep where
  | key (k : String)
  | index (i : Nat)
  deriving DecidableEq

/-- What a value has at a path, without what is below. -/
inductive Label (F : Type) where
  | primitive (p : Primitive F)
  | array (length : Nat)
  | object (keys : List String)
  deriving DecidableEq

namespace Value

variable {v w : Value F}

def child : Value F → PathStep → Option (Value F)
  | .object members, .key k => Members.find k members
  | .array elements, .index i => elements[i]?
  | _, _ => none

def at? : Value F → List PathStep → Option (Value F)
  | v, [] => some v
  | v, s :: p => (v.child s).bind fun w => at? w p

def label : Value F → Label F
  | .primitive p => .primitive p
  | .array elements => .array elements.length
  | .object members => .object (Members.keys members)

def labelAt (v : Value F) (p : List PathStep) : Option (Label F) := (v.at? p).map label

theorem labelAt_nil (v : Value F) : v.labelAt [] = some v.label := rfl

theorem labelAt_cons (v : Value F) (s : PathStep) (p : List PathStep) :
    v.labelAt (s :: p) = (v.child s).bind fun w => w.labelAt p := by
  rw [labelAt, at?, Option.map_bind]
  rfl

theorem at?_append (v : Value F) (p q : List PathStep) :
    v.at? (p ++ q) = (v.at? p).bind fun w => w.at? q := by
  induction p generalizing v with
  | nil => rfl
  | cons s p ih =>
    simp only [List.cons_append, at?, Option.bind_assoc]
    exact congrArg _ (funext ih)

theorem labelAt_append (v : Value F) (p q : List PathStep) :
    v.labelAt (p ++ q) = (v.at? p).bind fun w => w.labelAt q := by
  rw [labelAt, at?_append, Option.map_bind]
  rfl

theorem WellFormed.child (h : v.WellFormed) {s : PathStep} (hw : v.child s = some w) :
    w.WellFormed := by
  cases h with
  | primitive p => cases hw
  | array helements =>
    cases s with
    | key k => cases hw
    | index i => exact helements w (List.mem_of_getElem? hw)
  | object hkeys hmembers =>
    cases s with
    | key k => exact hmembers _ (Members.mem_of_find hw)
    | index i => cases hw

theorem WellFormed.at? (h : v.WellFormed) {p : List PathStep} (hw : v.at? p = some w) :
    w.WellFormed := by
  induction p generalizing v with
  | nil =>
    cases hw
    exact h
  | cons s p ih =>
    obtain ⟨x, hx, hw⟩ := Option.bind_eq_some_iff.mp hw
    exact ih (h.child hx) hw

/-- Values in order with the same labels are equal. -/
theorem ext_labels (hv : v.WellFormed) (hw : w.WellFormed)
    (h : ∀ p, v.labelAt p = w.labelAt p) : v = w := by
  have hroot := h []
  rw [labelAt_nil, labelAt_nil, Option.some.injEq] at hroot
  induction v generalizing w with
  | primitive x =>
    cases w with
    | primitive y =>
      cases hroot
      rfl
    | array => cases hroot
    | object => cases hroot
  | array es ih =>
    cases w with
    | primitive => cases hroot
    | object => cases hroot
    | array es' =>
      have hlength : es.length = es'.length := Label.array.inj hroot
      refine congrArg _ (List.ext_getElem hlength ?_)
      intro i hi hi'
      have hbelow : ∀ p, es[i].labelAt p = es'[i].labelAt p := by
        intro p
        have hp := h (.index i :: p)
        rw [labelAt_cons, labelAt_cons, child, child, List.getElem?_eq_getElem hi,
          List.getElem?_eq_getElem hi'] at hp
        exact hp
      have hwf : es[i].WellFormed := hv.child (s := .index i) (List.getElem?_eq_getElem hi)
      have hwf' : es'[i].WellFormed := hw.child (s := .index i) (List.getElem?_eq_getElem hi')
      exact ih _ (List.getElem_mem hi) hwf hwf' hbelow (Option.some.inj (hbelow []))
  | object ms ih =>
    cases w with
    | primitive => cases hroot
    | array => cases hroot
    | object ms' =>
      have hkeys : Members.keys ms = Members.keys ms' := Label.object.inj hroot
      have hordered : Members.Ordered ms := by
        cases hv with
        | object hordered => exact hordered
      refine congrArg _ (Members.ext_find hordered hkeys ?_)
      intro k
      by_cases hk : k ∈ Members.keys ms
      · obtain ⟨x, hx⟩ := Members.exists_find hk
        obtain ⟨y, hy⟩ := Members.exists_find (hkeys ▸ hk)
        have hbelow : ∀ p, x.labelAt p = y.labelAt p := by
          intro p
          have hp := h (.key k :: p)
          rw [labelAt_cons, labelAt_cons, child, child, hx, hy] at hp
          exact hp
        have heq : x = y := ih (k, x) (Members.mem_of_find hx) (hv.child (s := .key k) hx)
          (hw.child (s := .key k) hy) hbelow (Option.some.inj (hbelow []))
        rw [hx, hy, heq]
      · rw [Members.find_eq_none hk, Members.find_eq_none (hkeys ▸ hk)]

end Value

end Json
