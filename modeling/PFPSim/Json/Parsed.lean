import PFPSim.Json.Accepted

/-!
# What is parsed is a document

Every object that is parsed has its keys in order and each of them once. Where the text has
a key more than once, the last member counts (`parse_wellFormed`).
-/

namespace Json

open Lexer

variable {F : Type} {floats : Floats F}

namespace Members

variable {ms : Members F} {k : String} {v : Value F}

theorem Ordered.assign_any (hms : ms.Ordered) (k : String) (v : Value F) :
    (ms.assign k v).Ordered := by
  induction ms with
  | nil => exact List.pairwise_singleton _ _
  | cons m ms ih =>
    obtain ⟨hm, hrest⟩ := List.pairwise_cons.mp hms
    rw [Members.assign]
    split
    · rename_i hk
      exact List.pairwise_cons.mpr ⟨fun m' hm' => hk ▸ hm m' hm', hrest⟩
    · split
      · rename_i hlt
        refine List.pairwise_cons.mpr ⟨fun m' hm' => ?_, hms⟩
        obtain rfl | hm' := List.mem_cons.mp hm'
        · exact hlt
        · exact hlt.trans (hm m' hm')
      · rename_i hne hnlt
        have hlt : m.1 < k := lt_of_le_of_ne (not_lt.mp hnlt) hne
        refine List.pairwise_cons.mpr ⟨fun m' hm' => ?_, ih hrest⟩
        obtain rfl | hm' := mem_assign hm'
        · exact hlt
        · exact hm m' hm'

theorem find_assign_any (hms : ms.Ordered) (k : String) (v : Value F) (j : String) :
    (ms.assign k v).find j = if k = j then some v else ms.find j := by
  by_cases hfind : ∃ w, ms.find k = some w
  · obtain ⟨w, hw⟩ := hfind
    exact find_assign hms hw j
  · induction ms with
    | nil => rfl
    | cons m ms ih =>
      obtain ⟨-, hrest⟩ := List.pairwise_cons.mp hms
      rw [find] at hfind
      split at hfind
      · exact absurd ⟨m.2, rfl⟩ hfind
      · rename_i hne
        rw [assign, if_neg hne]
        split
        · rfl
        · rw [find, find, ih hrest hfind]
          by_cases hj : m.1 = j
          · rw [if_pos hj, if_pos hj, if_neg fun h => hne (hj.trans h.symm)]
          · rw [if_neg hj, if_neg hj]

end Members

/-- The value of the last member with the key `k`. -/
def lastMember (floats : Floats F) (k : String) : List (List Char × Tree) → Option (Value F)
  | [] => none
  | (key, t) :: ms =>
    match lastMember floats k ms with
    | some v => some v
    | none => if Lexer.get_string key = .ok k.toList then (t.value floats).toOption else none

theorem find_of_memberValues {ms : List (List Char × Tree)} {result vs : Members F}
    (hresult : result.Ordered) (h : Tree.memberValues floats ms result = .ok vs) :
    vs.Ordered ∧ ∀ k, vs.find k = (lastMember floats k ms).or (result.find k) := by
  induction ms generalizing result with
  | nil =>
    cases h
    exact ⟨hresult, fun k => rfl⟩
  | cons m ms ih =>
    obtain ⟨key, t⟩ := m
    rw [Tree.memberValues] at h
    obtain ⟨name, hname, h⟩ := bind_eq_ok.mp h
    obtain ⟨v, hv, h⟩ := bind_eq_ok.mp h
    obtain ⟨hordered, hfind⟩ := ih (hresult.assign_any _ v) h
    refine ⟨hordered, fun k => ?_⟩
    rw [hfind, lastMember]
    cases lastMember floats k ms with
    | some w => rfl
    | none =>
      rw [Option.none_or, Members.find_assign_any hresult, hname, hv]
      by_cases hk : String.ofList name = k
      · have hlist : name = k.toList := by rw [← hk, String.toList_ofList]
        rw [if_pos hk, if_pos (by rw [hlist])]
        rfl
      · have hlist : (.ok name : Except Exception (List Char)) ≠ .ok k.toList := by
          intro heq
          cases heq
          exact hk String.ofList_toList
        rw [if_neg hk, if_neg hlist]
        rfl

/-- The elements of an array are the values of its trees. -/
theorem mem_elementValues {es : List Tree} {vs : List (Value F)}
    (h : Tree.elementValues floats es = .ok vs) {v : Value F} (hv : v ∈ vs) :
    ∃ t ∈ es, t.value floats = .ok v := by
  induction es generalizing vs with
  | nil =>
    cases h
    exact absurd hv List.not_mem_nil
  | cons t es ih =>
    rw [Tree.elementValues] at h
    obtain ⟨w, hw, h⟩ := bind_eq_ok.mp h
    obtain ⟨ws, hws, h⟩ := bind_eq_ok.mp h
    cases h
    obtain rfl | hv := List.mem_cons.mp hv
    · exact ⟨t, List.mem_cons_self, hw⟩
    · obtain ⟨t', ht', hvalue⟩ := ih hws hv
      exact ⟨t', List.mem_cons_of_mem _ ht', hvalue⟩

/-- The members of an object are values of its trees, or those that were there. -/
theorem mem_memberValues {ms : List (List Char × Tree)} {result vs : Members F}
    (h : Tree.memberValues floats ms result = .ok vs) {m : String × Value F} (hm : m ∈ vs) :
    m ∈ result ∨ ∃ x ∈ ms, x.2.value floats = .ok m.2 := by
  induction ms generalizing result with
  | nil =>
    cases h
    exact .inl hm
  | cons x ms ih =>
    obtain ⟨key, t⟩ := x
    rw [Tree.memberValues] at h
    obtain ⟨name, hname, h⟩ := bind_eq_ok.mp h
    obtain ⟨v, hv, h⟩ := bind_eq_ok.mp h
    obtain hm | ⟨x, hx, hvalue⟩ := ih h
    · obtain rfl | hm := Members.mem_assign hm
      · exact .inr ⟨(key, t), List.mem_cons_self, hv⟩
      · exact .inl hm
    · exact .inr ⟨x, List.mem_cons_of_mem _ hx, hvalue⟩

theorem wellFormed_value {t : Tree} {v : Value F} (h : t.value floats = .ok v) :
    v.WellFormed := by
  induction t generalizing v with
  | null | boolean b | number token =>
    cases h
    exact .primitive _
  | string token =>
    obtain ⟨s, -, h⟩ := bind_eq_ok.mp h
    cases h
    exact .primitive _
  | array es ih =>
    obtain ⟨vs, hvs, h⟩ := bind_eq_ok.mp h
    cases h
    refine .array fun v hv => ?_
    obtain ⟨t, ht, hvalue⟩ := mem_elementValues hvs hv
    exact ih t ht hvalue
  | object ms ih =>
    obtain ⟨vs, hvs, h⟩ := bind_eq_ok.mp h
    cases h
    refine .object (find_of_memberValues .nil hvs).1 fun m hm => ?_
    obtain hm | ⟨x, hx, hvalue⟩ := mem_memberValues hvs hm
    · exact absurd hm List.not_mem_nil
    · exact ih x hx hvalue

/-- What is parsed is a document, and an object has the last member with each key. -/
theorem parse_wellFormed (floats : Floats F) {s : List Char} {v : Value F}
    (h : parse floats s = .ok v) :
    v.WellFormed ∧ ∀ ms, Layout s (.object ms) →
      ∃ vs : Members F, v = .object vs ∧ ∀ k, vs.find k = lastMember floats k ms := by
  obtain ⟨t, hlayout, ht⟩ := (parse_eq_ok_iff floats s v).mp h
  refine ⟨wellFormed_value ht, fun ms hms => ?_⟩
  rw [parse_of_layout floats hms] at h
  obtain ⟨vs, hvs, h⟩ := bind_eq_ok.mp h
  cases h
  have hfind := (find_of_memberValues .nil hvs).2
  exact ⟨vs, rfl, fun k => (hfind k).trans (Option.or_none)⟩

theorem parse_wellFormed_twice : ∃ v, parse (F := Unit) ⟨fun _ => (), fun _ => []⟩
    "\x7b\"b\": 1, \"a\": 2, \"b\": null\x7d".toList = .ok v ∧ v.WellFormed := by
  have hok : (parse (F := Unit) ⟨fun _ => (), fun _ => []⟩
      "\x7b\"b\": 1, \"a\": 2, \"b\": null\x7d".toList).isOk = true := by decide +kernel
  generalize hparse : parse (F := Unit) _ _ = result at hok ⊢
  cases result with
  | error e => cases hok
  | ok v => exact ⟨v, rfl, (parse_wellFormed _ hparse).1⟩

end Json
