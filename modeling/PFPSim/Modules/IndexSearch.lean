import PFPSim.Modules.Lookup

/-!
# The search of a position

`n[position]` for a node in a process of a module: the element of the node, or else the
search of the position from the module up. The configurations of modules are objects, so
that this search has no result (`HeirarchalSearchAt_eq`): it throws where a module has more
keys than the position counts, and otherwise ends the program.
-/

namespace Json

variable {F : Type}

def Value.size : Value F → Nat
  | .primitive .null => 0
  | .primitive _ => 1
  | .array elements => elements.length
  | .object members => members.length

end Json

namespace Pfp.Core

open Json Lists

variable {A F : Type}

/-- A position where a `size_t` is expected. -/
def size_t (position : Int32) : Nat := position.toInt64.toUInt64.toNat

/-- `json::at` at a position below the size. -/
def atIndex (i : Nat) : (v : Value F) → i < v.size → Except (Failure F) (Value F)
  | .array elements, hi => .ok (elements.get ⟨i, hi⟩)
  | _, _ => .error .domain_error

def LocalSearchAt (ConfigurationParameters : Value F) (position : Int32) :
    Except (Failure F) (Value F) :=
  if hi : size_t position < ConfigurationParameters.size then
    atIndex (size_t position) ConfigurationParameters hi
  else .ok nullptr

def notFoundAt (F : Type) (position : Int32) : Failure F :=
  .exit ⟨USER_ERROR_FATAL, "Array Lookup: " ++ toString position.toInt ++
    " not found in HierarchalSearch. Please check configuration files", none⟩

namespace Hierarchy

variable (h : Hierarchy A F)

def SearchinparentAt (position : Int32) (CurrentModule : A) : Except (Failure F) (Value F) := do
  if find (h.module_name CurrentModule) "top" = none then
    let result ← LocalSearchAt (h.SimulationParameters CurrentModule) position
    if is_null result then
      match _hp : h.parent CurrentModule with
      | none => .error .null_pointer
      | some p => SearchinparentAt position p
    else return result
  else
    let result ← LocalSearchAt (h.SimulationParameters CurrentModule) position
    if is_null result then .error (notFoundAt F position)
    else return result
termination_by h.built CurrentModule
decreasing_by exact h.parent_built _hp

/-- The search goes on at the module itself, and not at its parent. -/
def HeirarchalSearchAt (position : Int32) (ConfigurationParameters : Value F)
    (current_scmodule : A) : Except (Failure F) (Value F) :=
  if hi : size_t position < ConfigurationParameters.size then
    atIndex (size_t position) ConfigurationParameters hi
  else h.SearchinparentAt position current_scmodule

variable {h}

/-- The module has more keys than the position counts. -/
abbrev Exceeds (h : Hierarchy A F) (position : Int32) (a : A) : Prop :=
  size_t position < (h.SimulationParameters a).size

/-- The end of a search of a position on a list of modules. -/
def indexWalk (h : Hierarchy A F) (position : Int32) (l : List A) : Except (Failure F) (Value F) :=
  if ∃ b ∈ l, h.Exceeds position b then .error .domain_error else .error (notFoundAt F position)

theorem localSearchAt_eq (hconf : h.Configured) (position : Int32) (a : A) :
    LocalSearchAt (h.SimulationParameters a) position =
      if h.Exceeds position a then .error .domain_error else .ok nullptr := by
  rw [LocalSearchAt]
  split
  · rename_i hi
    rcases hconf a with hnull | ⟨ms, hms⟩
    · rw [hnull] at hi
      exact absurd hi (Nat.not_lt_zero _)
    · revert hi
      rw [hms]
      exact fun _ => rfl
  · rfl

theorem indexWalk_cons (position : Int32) (a : A) (l : List A) :
    h.indexWalk position (a :: l) =
      if h.Exceeds position a then .error .domain_error else h.indexWalk position l := by
  simp only [indexWalk, List.exists_mem_cons_iff]
  by_cases ha : h.Exceeds position a
  · rw [if_pos ha, if_pos (.inl ha)]
  · simp only [ha, false_or, if_false]

theorem SearchinparentAt_eq (hconf : h.Configured) (position : Int32) (a : A) :
    h.SearchinparentAt position a =
      h.indexWalk position (upTo h.containsTop (h.path a)) := by
  induction a using h.induct with
  | top =>
    have htop : h.containsTop h.top = true := containsTop_of_isNamedTop isNamedTop_top
    rw [SearchinparentAt, path_top, upTo, if_pos htop, localSearchAt_eq hconf, indexWalk_cons]
    rw [containsTop, decide_eq_true_eq] at htop
    rw [if_neg fun hnone => find_top.mp hnone htop]
    split
    · rfl
    · rfl
  | below a p hp _ ih =>
    rw [SearchinparentAt, h.path_of_parent hp, upTo, localSearchAt_eq hconf]
    by_cases hname : h.containsTop a = true
    · rw [if_pos hname, indexWalk_cons]
      rw [containsTop, decide_eq_true_eq] at hname
      rw [if_neg fun hnone => find_top.mp hnone hname]
      split
      · rfl
      · rfl
    · rw [if_neg hname, indexWalk_cons, ← ih]
      rw [containsTop, decide_eq_true_eq] at hname
      rw [if_pos (find_top.mpr hname)]
      split
      · rfl
      · simp only [Bind.bind, Except.bind, is_null, nullptr, if_true]
        split
        · rename_i hnone
          cases hnone.symm.trans hp
        · rename_i hp'
          cases hp.symm.trans hp'
          rfl

/-- **The search of a position.** Nothing is found but an element of the node itself. A node
that is too short sends the search up the modules, to an exception if one of them has more keys
than the position counts, and else to the end of the program. -/
theorem HeirarchalSearchAt_eq (hconf : h.Configured) (position : Int32) (v : Value F) (a : A) :
    (∀ w, h.HeirarchalSearchAt position v a = .ok w ↔
      ∃ elements, v = .array elements ∧ elements[size_t position]? = some w) ∧
    (v.size ≤ size_t position → h.HeirarchalSearchAt position v a =
      if ∃ b ∈ upTo h.containsTop (h.path a),
          size_t position < (h.SimulationParameters b).size
      then .error .domain_error else .error (notFoundAt F position)) := by
  have hup : v.size ≤ size_t position → h.HeirarchalSearchAt position v a =
      h.indexWalk position (upTo h.containsTop (h.path a)) := by
    intro hle
    rw [HeirarchalSearchAt, dif_neg (Nat.not_lt.mpr hle), SearchinparentAt_eq hconf]
  refine ⟨fun w => ?_, hup⟩
  by_cases hi : size_t position < v.size
  · rw [HeirarchalSearchAt, dif_pos hi]
    cases v with
    | array elements =>
      have hget : elements[size_t position]? = some (elements.get ⟨size_t position, hi⟩) :=
        List.getElem?_eq_getElem hi
      simp only [atIndex, Except.ok.injEq, Value.array.injEq, exists_eq_left', hget,
        Option.some.injEq]
    | object ms => exact iff_of_false nofun (by simp)
    | primitive x => exact iff_of_false nofun (by simp)
  · rw [hup (Nat.le_of_not_lt hi), indexWalk]
    refine iff_of_false (by split <;> nofun) ?_
    rintro ⟨elements, rfl, hw⟩
    exact hi (List.getElem?_eq_some_iff.mp hw).1

/-- A position in a list, one behind it and a negative one, in a module without keys. -/
theorem HeirarchalSearchAt_plain :
    plain.HeirarchalSearchAt 0 (.array [one]) 2 = .ok one ∧
    plain.HeirarchalSearchAt 0 (.array []) 2 = .error .domain_error ∧
    plain.HeirarchalSearchAt (-1) (.array [one]) 2 = .error (notFoundAt Unit (-1)) := by
  have hfound := HeirarchalSearchAt_eq configured_plain 0 (.array [one]) 2
  have hshort := HeirarchalSearchAt_eq configured_plain 0 (.array []) 2
  have hnegative := HeirarchalSearchAt_eq configured_plain (-1) (.array [one]) 2
  refine ⟨(hfound.1 one).mpr ⟨[one], rfl, by with_unfolding_all rfl⟩, ?_, ?_⟩
  · rw [hshort.2 (by decide +kernel)]
    exact if_pos ⟨1, by decide +kernel, by decide +kernel⟩
  · rw [hnegative.2 (by decide +kernel)]
    exact if_neg (by decide +kernel)

end Hierarchy

end Pfp.Core
