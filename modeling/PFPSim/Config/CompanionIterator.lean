import PFPSim.Config.Overlay
import Mathlib.Data.List.Perm.Subperm

/-!
# The companion iterator

The loop of `CompareStructure` over the members of an object moves an iterator of the golden
object along, and ends with the members of the other object. Each turn has found a key of the
golden object that no turn before has found, and assigns to keys that are there, so the
iterator does not go beyond the end (`never_past_end`).
-/

namespace Pfp.Core

open Json

variable {F : Type}

/-! ## Iterators -/

/-- An iterator of an object: the key of its member, or `none` at the end. -/
abbrev Iterator := Option String

inductive Crash (F : Type) where
  | failure (f : Failure F)
  /-- An iterator at the end is moved on, or read. -/
  | past_end

def begin (members : Members F) : Iterator := members.keys.head?

/-- `++it` -/
def increment (members : Members F) : Iterator → Except (Crash F) Iterator
  | some key => .ok (members.keys.dropWhile (· ≠ key))[1]?
  | none => .error .past_end

/-! ## Positions -/

/-- The key behind one of different keys. -/
theorem getElem?_dropWhile {keys : List String} (hkeys : keys.Nodup) {i : Nat} {key : String}
    (h : keys[i]? = some key) : (keys.dropWhile (· ≠ key))[1]? = keys[i + 1]? := by
  induction keys generalizing i with
  | nil => cases h
  | cons k keys ih =>
    obtain ⟨hk, hkeys⟩ := List.nodup_cons.mp hkeys
    cases i with
    | zero =>
      cases h
      simp
    | succ i =>
      rw [List.getElem?_cons_succ] at h ⊢
      have hne : k ≠ key := fun heq => hk (heq ▸ List.mem_of_getElem? h)
      rw [List.dropWhile_cons_of_pos (by simpa using hne)]
      exact ih hkeys h

theorem increment_at {members : Members F} (hmembers : members.Ordered) {i : Nat}
    (hi : i < members.keys.length) :
    increment members members.keys[i]? = .ok members.keys[i + 1]? := by
  have hkey := List.getElem?_eq_getElem hi
  rw [hkey, increment, getElem?_dropWhile hmembers.nodup_keys hkey]

/-- The keys that have been found leave room for one more. -/
theorem length_lt_of_found {done keys : List String} {key : String} (hdone : (done ++ [key]).Nodup)
    (hsub : done ⊆ keys) (hkey : key ∈ keys) : done.length < keys.length := by
  have hsub' : done ++ [key] ⊆ keys := by
    intro k hk
    rcases List.mem_append.mp hk with hk | hk
    · exact hsub hk
    · exact List.mem_singleton.mp hk ▸ hkey
  have hle := (List.subperm_of_subset hdone hsub').length_le
  rw [List.length_append, List.length_singleton] at hle
  omega

/-! ## The comparison with its iterators -/

/-- The outcome without iterators. -/
def lift {α : Type} : Except (Failure F) α → Except (Crash F) α := Except.mapError .failure

variable [DecidableEq F]

mutual

/-- `CompareStructure` with both iterators. -/
def walkStructure :
    (compare golden : Value F) → Except (Crash F) (CompareResult F)
  | .object compare, .object golden => do
    let golden ← walkMembers (.object compare) compare (begin golden) golden
    return ⟨true, .object golden⟩
  | .array compare, .array golden =>
    if golden.length = compare.length then do
      let golden ← walkElements compare golden
      return ⟨true, .array golden⟩
    else lift (raiseError "Length not same [List]" (.array compare) (.array golden))
  | compare, golden => lift (CompareStructure compare golden)
termination_by structural compare => compare

def walkMembers (compare : Value F) :
    (rest : List (String × Value F)) → Iterator → Members F → Except (Crash F) (Members F)
  | [], _, golden => .ok golden
  | (key, value) :: rest, goldenit, golden =>
    match golden.find key with
    | none => lift (raiseError ("Key Not found [KVP] for key " ++ key ++ " in [test]") compare
        (.object golden))
    | some goldenValue => do
      let result ← walkStructure value goldenValue
      let golden := golden.assign key result.resultobject
      let goldenit ← increment golden goldenit
      walkMembers compare rest goldenit golden
termination_by structural rest => rest

def walkElements :
    List (Value F) → List (Value F) → Except (Crash F) (List (Value F))
  | compare :: compares, golden :: goldens => do
    let result ← walkStructure compare golden
    let goldens ← walkElements compares goldens
    return result.resultobject :: goldens
  | [], goldens => .ok goldens
  | _ :: _, [] => .error .past_end
termination_by structural compares => compares

end

/-! ## The loops -/

theorem walkMembers_eq (compare : Value F) {rest golden : Members F} {done : List String}
    (hrest : (done ++ rest.keys).Nodup) (hgolden : golden.Ordered)
    (hwf : ∀ m ∈ golden, m.2.WellFormed) (hdone : done ⊆ golden.keys)
    (hvalues : ∀ m ∈ rest, m.2.WellFormed)
    (ih : ∀ m ∈ rest, ∀ g : Value F, g.WellFormed →
      walkStructure m.2 g = lift (CompareStructure m.2 g)) :
    walkMembers compare rest golden.keys[done.length]? golden =
      lift (compareMembers compare rest golden) := by
  induction rest generalizing golden done with
  | nil => rfl
  | cons m rest ihrest =>
    obtain ⟨key, value⟩ := m
    obtain ⟨ihfirst, ih⟩ := List.forall_mem_cons.mp ih
    obtain ⟨hvalue, hvalues⟩ := List.forall_mem_cons.mp hvalues
    rw [walkMembers, compareMembers]
    cases hfind : golden.find key with
    | none => rfl
    | some goldenValue =>
      have hg : goldenValue.WellFormed := hwf _ (Members.mem_of_find hfind)
      have houtcome := CompareStructure_outcome hvalue hg
      simp only [ihfirst goldenValue hg]
      cases hresult : CompareStructure value goldenValue with
      | error e => rfl
      | ok result =>
        rw [hresult] at houtcome
        obtain ⟨-, -, hfilled⟩ := houtcome
        have hkeys := Members.keys_assign (v := result.resultobject) hgolden hfind
        have hordered := hgolden.assign (v := result.resultobject) hfind
        have hwf' := Members.wellFormed_assign (k := key) hwf hfilled.wellFormed
        have hkey : key ∈ golden.keys := Members.mem_keys_of_find hfind
        have hsplit : done ++ Members.keys ((key, value) :: rest) =
            (done ++ [key]) ++ Members.keys rest := by
          rw [List.append_assoc]
          rfl
        rw [hsplit] at hrest
        -- a turn that comes to its end has found a new key
        have hroom := length_lt_of_found (List.nodup_append.mp hrest).1 hdone hkey
        have hnext := increment_at hordered (hkeys ▸ hroom)
        have hdone' : done ++ [key] ⊆ (golden.assign key result.resultobject).keys := by
          rw [hkeys]
          exact List.append_subset.mpr ⟨hdone, List.cons_subset.mpr ⟨hkey, List.nil_subset _⟩⟩
        have hloop := ihrest hrest hordered hwf' hdone' hvalues ih
        rw [List.length_append, List.length_singleton] at hloop
        show (increment (golden.assign key result.resultobject) golden.keys[done.length]?).bind
          (fun goldenit => walkMembers compare rest goldenit
            (golden.assign key result.resultobject)) = _
        rw [← hkeys, hnext]
        exact hloop

theorem walkElements_eq {compares goldens : List (Value F)}
    (hlength : compares.length = goldens.length) (hwf : ∀ g ∈ goldens, g.WellFormed)
    (ih : ∀ c ∈ compares, ∀ g : Value F, g.WellFormed →
      walkStructure c g = lift (CompareStructure c g)) :
    walkElements compares goldens = lift (compareElements compares goldens) := by
  induction compares generalizing goldens with
  | nil => rfl
  | cons c compares ihrest =>
    cases goldens with
    | nil => cases hlength
    | cons g goldens =>
      obtain ⟨ihfirst, ih⟩ := List.forall_mem_cons.mp ih
      obtain ⟨hg, hwf⟩ := List.forall_mem_cons.mp hwf
      rw [walkElements, compareElements, ihfirst g hg, ihrest (Nat.succ.inj hlength) hwf ih]
      cases CompareStructure c g with
      | error e => rfl
      | ok result =>
        cases compareElements compares goldens with
        | error e => rfl
        | ok goldens' => rfl

/-- The iterators do not change what the comparison does. -/
theorem walkStructure_eq {compare golden : Value F} (hc : compare.WellFormed)
    (hg : golden.WellFormed) :
    walkStructure compare golden = lift (CompareStructure compare golden) := by
  induction compare generalizing golden with
  | primitive x =>
    cases golden with
    | _ => rfl
  | array cs ih =>
    cases golden with
    | primitive y => rfl
    | object gs => rfl
    | array gs =>
      cases hc with
      | array hc =>
      cases hg with
      | array hg =>
      rw [walkStructure, CompareStructure]
      split
      next hlength =>
        rw [walkElements_eq hlength.symm hg fun c hcs g => ih c hcs (hc c hcs)]
        cases compareElements cs gs with
        | error e => rfl
        | ok gs' => rfl
      next hlength => rfl
  | object cs ih =>
    cases golden with
    | primitive y => rfl
    | array gs => rfl
    | object gs =>
      cases hc with
      | object hcs hc =>
      cases hg with
      | object hgs hg =>
      have hkeys : (([] : List String) ++ Members.keys cs).Nodup := Members.Ordered.nodup_keys hcs
      have hloop := walkMembers_eq (.object cs) hkeys hgs hg (List.nil_subset _) hc
        fun m hm g => ih m hm (hc m hm)
      rw [walkStructure, CompareStructure]
      have hbegin : begin gs = (Members.keys gs)[([] : List String).length]? :=
        List.head?_eq_getElem?
      rw [hbegin, hloop]
      cases compareMembers (.object cs) cs gs with
      | error e => rfl
      | ok gs' => rfl

/-- The iterators of the golden objects are never moved on from the end, in the comparison of
two documents and in those of the values below. -/
theorem never_past_end (compare golden : Document F) :
    walkStructure compare.1 golden.1 = lift (CompareStructure compare.1 golden.1) ∧
      walkStructure compare.1 golden.1 ≠ .error .past_end := by
  have heq := walkStructure_eq compare.2 golden.2
  refine ⟨heq, ?_⟩
  rw [heq]
  cases CompareStructure compare.1 golden.1 with
  | error e =>
    intro h
    cases h
  | ok result =>
    intro h
    cases h

end Pfp.Core
