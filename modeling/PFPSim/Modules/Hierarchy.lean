import PFPSim.Config.ConfigurationParameters
import PFPSim.Lists.First

/-!
# The hierarchy of modules

The objects of a model, each constructed after its parent, below one that is named `top`.
An object is known by its address; a null pointer is `none`, and following it a failure.
The lookups of a parameter and the qualified names walk the parents as the source does,
with its different tests for the top of the hierarchy.
-/

namespace Pfp.Core

open Json

/-- The objects at the addresses `A`. -/
structure Hierarchy (A F : Type) where
  module_name : A → String
  SimulationParameters : A → Value F
  parent : A → Option A
  /-- The order of construction. -/
  built : A → Nat
  parent_built : ∀ {a p}, parent a = some p → built p < built a
  top : A
  parent_eq_none : ∀ {a}, parent a = none ↔ a = top
  top_name : module_name top = "top"

/-- `std::string::find`, from position `i` on; `none` is `npos`. -/
def findFrom (text : List Char) (i : Nat) : List Char → Option Nat
  | [] => if text.isPrefixOf [] then some i else none
  | c :: s => if text.isPrefixOf (c :: s) then some i else findFrom text (i + 1) s

def find (s text : String) : Option Nat := findFrom text.toList 0 s.toList

theorem findFrom_eq_none {text s : List Char} {i : Nat} :
    findFrom text i s = none ↔ ¬ text <:+: s := by
  induction s generalizing i with
  | nil =>
    rw [findFrom]
    cases text <;> simp [List.isPrefixOf]
  | cons c s ih =>
    rw [findFrom, List.infix_cons_iff, ← List.isPrefixOf_iff_prefix]
    split
    · rename_i hpre
      simp [hpre]
    · rename_i hpre
      simp [hpre, ih]

/-- The test of three functions for the top of the hierarchy. -/
def ContainsTop (name : String) : Prop := "top".toList <:+: name.toList

theorem find_top {name : String} : find name "top" = none ↔ ¬ ContainsTop name :=
  findFrom_eq_none

instance (name : String) : Decidable (ContainsTop name) :=
  decidable_of_iff (find name "top" ≠ none) (by rw [Ne, find_top, not_not])

def is_null {F : Type} : Value F → Bool
  | .primitive .null => true
  | _ => false

def USER_ERROR_FATAL : Int := -10

namespace Hierarchy

variable {A F : Type} (h : Hierarchy A F)

def GetParameterfromParent (param : String) (parent : A) : Except (Failure F) (Value F) := do
  let result ← LocalSearch (h.SimulationParameters parent) param
  if h.module_name parent ≠ "top" then
    if is_null result then
      match _hp : h.parent parent with
      | none => .error .null_pointer
      | some p => GetParameterfromParent param p
    else return result
  else
    if is_null result then
      .error (.exit ⟨0, "Parameter Heirarchy Search Failed: " ++ h.module_name parent ++ " for: " ++
        param, none⟩)
    else return result
termination_by h.built parent
decreasing_by exact h.parent_built _hp

def GetParameter (param : String) (a : A) : Except (Failure F) (Value F) := do
  let result ← LocalSearch (h.SimulationParameters a) param
  if is_null result ∧ h.module_name a ≠ "top" then
    match h.parent a with
    | none => .error .null_pointer
    | some p => h.GetParameterfromParent param p
  else return result

def Searchinparent (param : String) (CurrentModule : A) : Except (Failure F) (Value F) := do
  if find (h.module_name CurrentModule) "top" = none then
    let result ← LocalSearch (h.SimulationParameters CurrentModule) param
    if is_null result then
      match _hp : h.parent CurrentModule with
      | none => .error .null_pointer
      | some p => Searchinparent param p
    else return result
  else
    let result ← LocalSearch (h.SimulationParameters CurrentModule) param
    if is_null result then
      .error (.exit ⟨USER_ERROR_FATAL, "Parameter: " ++ param ++
        " not found in Hierarchal Search. Please check configuration files", none⟩)
    else return result
termination_by h.built CurrentModule
decreasing_by exact h.parent_built _hp

/-- `none` when a null pointer is followed. -/
def ModuleHierarchy (a : A) : Option (List String) :=
  if find (h.module_name a) "top" = none then
    match _hp : h.parent a with
    | none => none
    | some p => (ModuleHierarchy p).map fun result_p => [h.module_name a] ++ result_p
  else some [h.module_name a]
termination_by h.built a
decreasing_by exact h.parent_built _hp

/-- The loop over the names behind `top`. -/
def joinNames (first : Bool) (ss : String) : List String → String
  | [] => ss
  | name :: rest => joinNames false ((if first then ss else ss ++ ".") ++ name) rest

/-- The qualified name, when `cached` is the name that the object keeps. -/
def fully_qualified_module_name (a : A) (cached : String) : Option String :=
  if cached = "" then
    (h.ModuleHierarchy a).map fun hierarchy => joinNames true "" (hierarchy.reverse.drop 1)
  else some cached

/-! ## Paths to the top -/

/-- The modules from `a` up to the top. -/
def path (a : A) : List A :=
  match _hp : h.parent a with
  | none => [a]
  | some p => a :: path p
termination_by h.built a
decreasing_by exact h.parent_built _hp

theorem path_top : h.path h.top = [h.top] := by
  rw [path]
  split
  · rfl
  · rename_i hp
    cases (h.parent_eq_none.mpr rfl).symm.trans hp

theorem path_of_parent {a p : A} (hp : h.parent a = some p) : h.path a = a :: h.path p := by
  rw [path]
  split
  · rename_i hnone
    cases hnone.symm.trans hp
  · rename_i hp'
    cases hp.symm.trans hp'
    rfl

/-- Induction from the top down. -/
theorem induct {motive : A → Prop} (top : motive h.top)
    (below : ∀ a p, h.parent a = some p → a ≠ h.top → motive p → motive a) (a : A) : motive a := by
  induction hn : h.built a using Nat.strong_induction_on generalizing a with
  | _ n ih =>
    cases hp : h.parent a with
    | none =>
      rw [h.parent_eq_none.mp hp]
      exact top
    | some p =>
      have hne : a ≠ h.top := fun heq => by cases (h.parent_eq_none.mpr heq).symm.trans hp
      exact below a p hp hne (ih _ (hn ▸ h.parent_built hp) p rfl)

theorem self_mem_path (a : A) : a ∈ h.path a := by
  cases hp : h.parent a with
  | none =>
    rw [h.parent_eq_none.mp hp, path_top]
    exact List.mem_singleton_self _
  | some p =>
    rw [h.path_of_parent hp]
    exact List.mem_cons_self

theorem path_ne_nil (a : A) : h.path a ≠ [] := List.ne_nil_of_mem (h.self_mem_path a)

/-- The path without the top. -/
def below (a : A) : List A := (h.path a).dropLast

theorem below_top : h.below h.top = [] := by
  rw [below, path_top]
  rfl

theorem below_of_parent {a p : A} (hp : h.parent a = some p) : h.below a = a :: h.below p := by
  rw [below, h.path_of_parent hp, List.dropLast_cons_of_ne_nil (h.path_ne_nil p)]
  rfl

theorem path_eq (a : A) : h.path a = h.below a ++ [h.top] := by
  induction a using h.induct with
  | top => rw [path_top, below_top, List.nil_append]
  | below a p hp _ ih => rw [h.path_of_parent hp, h.below_of_parent hp, ih, List.cons_append]

theorem ne_top_of_mem_below {a b : A} (hb : b ∈ h.below a) : b ≠ h.top := by
  induction a using h.induct with
  | top =>
    rw [below_top] at hb
    cases hb
  | below a p hp hne ih =>
    rw [h.below_of_parent hp] at hb
    rcases List.mem_cons.mp hb with rfl | hb
    · exact hne
    · exact ih hb

/-- Modules that are each the parent of the next, below the top. -/
def chain (top : Value F) (modules : List (String × Value F)) :
    Hierarchy (Fin (modules.length + 1)) F where
  module_name a := (("top", top) :: modules)[a].1
  SimulationParameters a := (("top", top) :: modules)[a].2
  parent := Fin.cases none fun i => some i.castSucc
  built a := a.val
  parent_built := by
    intro a p hp
    cases a using Fin.cases with
    | zero => cases hp
    | succ i =>
      cases hp
      exact Nat.lt_succ_self _
  top := 0
  parent_eq_none := by
    intro a
    cases a using Fin.cases with
    | zero => simp
    | succ i => simp [Fin.succ_ne_zero i]
  top_name := rfl

example : (chain (F := Unit) nullptr [("a", nullptr), ("b", nullptr)]).path 2 = [2, 1, 0] := by
  decide +kernel

end Hierarchy

end Pfp.Core
