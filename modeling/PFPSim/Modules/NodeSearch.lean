import PFPSim.Modules.Lookup

/-!
# The search from a node

`n["param"]` for a node in a process of a module: the node itself, and then the modules from
the parent of the module up, where the search of a position begins at the module. It goes no
further than the first module whose name contains `top`. What it finds is the nearest
definition exactly where the modules bind the key as `Visible` says.
-/

namespace Pfp.Core

open Json Lists

/-- An iteration over the value meets keys only. -/
def Keyed {F : Type} (v : Value F) : Prop := v = nullptr ∨ v = .array [] ∨ ∃ ms, v = .object ms

namespace Hierarchy

variable {A F : Type} (h : Hierarchy A F)

/-- The loop over the values of a node. -/
def findKey (param : String) : Value F → Except (Failure F) (Option (Value F))
  | .object members => .ok (Members.find param members)
  | .array [] | .primitive .null => .ok none
  | _ => .error .domain_error

/-- `current_scmodule` is the parent of the process in which the search runs. -/
def HeirarchalSearch (param : String) (ConfigurationParameters : Value F) (current_scmodule : A) :
    Except (Failure F) (Value F) := do
  match ← findKey param ConfigurationParameters with
  | some value => return value
  | none =>
    match h.parent current_scmodule with
    | none => .error .null_pointer
    | some p => h.Searchinparent param p

/-! ## Walks over any values -/

/-- The modules that a search passes without a result. -/
def passed (param : String) (l : List A) : List A := l.takeWhile fun b => !h.bound param b

/-- The modules that `Searchinparent` goes through from `a` on, if it finds nothing. -/
def searched (a : A) : List A := upTo h.containsTop (h.path a)

variable {h} {param : String}

theorem localSearch_of_keyed {a : A} (hkeyed : Keyed (h.SimulationParameters a)) :
    LocalSearch (h.SimulationParameters a) param = .ok (h.value param a) := by
  rw [value, binding]
  rcases hkeyed with hnull | hempty | ⟨ms, hms⟩
  · rw [hnull]
    rfl
  · rw [hempty]
    rfl
  · rw [hms]
    rfl

theorem localSearch_of_not_keyed {a : A} (hkeyed : ¬ Keyed (h.SimulationParameters a)) :
    LocalSearch (h.SimulationParameters a) param = .error .domain_error := by
  cases hv : h.SimulationParameters a with
  | object ms => exact absurd (.inr (.inr ⟨ms, hv⟩)) hkeyed
  | array l =>
    cases l with
    | nil => exact absurd (.inr (.inl hv)) hkeyed
    | cons v l => rfl
  | primitive x =>
    cases x with
    | null => exact absurd (.inl hv) hkeyed
    | _ => rfl

theorem keyed_of_bound {a : A} (hbound : h.bound param a = true) :
    Keyed (h.SimulationParameters a) := by
  rw [bound, value, binding] at hbound
  cases hv : h.SimulationParameters a with
  | object ms => exact .inr (.inr ⟨ms, rfl⟩)
  | array l =>
    rw [hv] at hbound
    cases hbound
  | primitive x =>
    rw [hv] at hbound
    cases hbound

theorem passed_cons_of_bound {a : A} (hbound : h.bound param a = true) (l : List A) :
    h.passed param (a :: l) = [] := by
  rw [passed, List.takeWhile_cons_of_neg]
  rw [hbound]
  exact Bool.false_ne_true

theorem passed_cons {a : A} (hbound : h.bound param a = false) (l : List A) :
    h.passed param (a :: l) = a :: h.passed param l := by
  rw [passed, List.takeWhile_cons_of_pos]
  · rfl
  · rw [hbound]
    rfl

theorem is_null_value_iff {a : A} : is_null (h.value param a) = true ↔ h.bound param a = false := by
  rw [← Bool.not_eq_true, bound_iff, Bool.not_eq_false]

theorem walk_cons_of_keyed {a : A} (hkeyed : Keyed (h.SimulationParameters a)) (e : Failure F)
    (l : List A) : h.walk param e (a :: l) =
      if is_null (h.value param a) = true then h.walk param e l else .ok (h.value param a) := by
  rw [walk, localSearch_of_keyed hkeyed]
  rfl

/-- A walk that passes no value without keys finds the first value. -/
theorem walk_of_keyed (e : Failure F) {l : List A}
    (hl : ∀ b ∈ h.passed param l, Keyed (h.SimulationParameters b)) :
    h.walk param e l = h.firstBound param e l := by
  induction l with
  | nil => rfl
  | cons a l ih =>
    cases hbound : h.bound param a with
    | true =>
      have hnull : ¬ is_null (h.value param a) = true := by
        rw [is_null_value_iff, hbound]
        exact Bool.noConfusion
      rw [walk_cons_of_keyed (keyed_of_bound hbound), firstBound_cons, if_neg hnull, if_neg hnull]
    | false =>
      rw [passed_cons hbound, List.forall_mem_cons] at hl
      have hnull := is_null_value_iff.mpr hbound
      rw [walk_cons_of_keyed hl.1, firstBound_cons, if_pos hnull, if_pos hnull, ih hl.2]

theorem walk_of_not_keyed (e : Failure F) {l : List A}
    (hl : ¬ ∀ b ∈ h.passed param l, Keyed (h.SimulationParameters b)) :
    h.walk param e l = .error .domain_error := by
  induction l with
  | nil => exact absurd (fun b hb => absurd hb List.not_mem_nil) hl
  | cons a l ih =>
    cases hbound : h.bound param a with
    | true =>
      rw [passed_cons_of_bound hbound] at hl
      exact absurd (fun b hb => absurd hb List.not_mem_nil) hl
    | false =>
      rw [passed_cons hbound, List.forall_mem_cons] at hl
      by_cases hkeyed : Keyed (h.SimulationParameters a)
      · rw [walk_cons_of_keyed hkeyed, if_pos (is_null_value_iff.mpr hbound)]
        exact ih fun hrest => hl ⟨hkeyed, hrest⟩
      · rw [walk, localSearch_of_not_keyed hkeyed]
        rfl

/-! ## The nearest definition -/

/-- The result is the binding of the node, or else the nearest one from the module up, or
the end of the program by an error of the search. -/
def StartsAt (h : Hierarchy A F) (param : String) (members : Members F) (a : A)
    (result : Except (Failure F) (Value F)) : Prop :=
  match Members.find param members, h.nearest param a with
  | some v, _ => result = .ok v
  | none, some v => result = .ok v
  | none, none => NotFound param result

theorem firstBound_eq_ok_iff {e : Failure F} {l : List A} {v : Value F} :
    h.firstBound param e l = .ok v ↔ (l.find? (h.bound param)).map (h.value param) = some v := by
  rw [firstBound]
  cases l.find? (h.bound param) with
  | none => simp
  | some b => simp

theorem searched_subset {a p : A} (hp : h.parent a = some p) :
    ∀ b ∈ h.searched p, b ∈ h.path a := by
  intro b hb
  rw [h.path_of_parent hp]
  exact List.mem_cons_of_mem _ ((upTo_initial _ _).subset hb)

/-- The first module from `a` up that binds the parameter. -/
def definer (h : Hierarchy A F) (param : String) (a : A) : Option A :=
  (h.path a).find? fun b => (h.binding param b).isSome

/-- How the module `a` and those above it, from its parent `p` up, bind a parameter that the
search finds as it is seen from `a`. -/
structure Visible (h : Hierarchy A F) (param : String) (a p : A) : Prop where
  keyed : ∀ b ∈ h.passed param (h.searched p), Keyed (h.SimulationParameters b)
  unbound : h.binding param a = none → ∀ b, h.definer param p = some b →
    b ∈ h.searched p ∧ h.bound param b = true
  shadowed : ∀ v, h.binding param a = some v →
    ∃ b, (h.searched p).find? (h.bound param) = some b ∧ h.binding param b = some v

theorem nearest_of_parent {a p : A} (hp : h.parent a = some p) :
    h.nearest param a = (h.binding param a).or (h.nearest param p) := by
  rw [nearest, h.path_of_parent hp, List.findSome?_cons]
  cases h.binding param a with
  | some v => rfl
  | none => rfl

theorem nearest_eq_some_iff {a : A} {v : Value F} :
    h.nearest param a = some v ↔ ∃ b, h.definer param a = some b ∧ h.binding param b = some v := by
  rw [nearest, definer, List.findSome?_eq_some_iff]
  constructor
  · rintro ⟨front, b, back, hpath, hb, hfront⟩
    refine ⟨b, List.find?_eq_some_iff_append.mpr ⟨?_, front, back, hpath, ?_⟩, hb⟩
    · rw [hb, Option.isSome_some]
    · intro c hc
      rw [hfront c hc]
      rfl
  · rintro ⟨b, hdefiner, hb⟩
    obtain ⟨-, front, back, hpath, hfront⟩ := List.find?_eq_some_iff_append.mp hdefiner
    refine ⟨front, b, back, hpath, hb, ?_⟩
    intro c hc
    simpa using hfront c hc

theorem bound_iff_binding {b : A} :
    h.bound param b = true ↔ ∃ v, h.binding param b = some v ∧ is_null v = false := by
  rw [bound, value]
  cases h.binding param b with
  | some v => simp
  | none => simp [is_null, nullptr]

theorem value_of_binding {b : A} {v : Value F} (hb : h.binding param b = some v) :
    h.value param b = v := by
  rw [value, hb, Option.getD_some]

theorem binding_of_bound {b : A} (hbound : h.bound param b = true) :
    h.binding param b = some (h.value param b) := by
  obtain ⟨v, hv, -⟩ := bound_iff_binding.mp hbound
  rw [hv, value_of_binding hv]

/-- The search meets the nearest module that binds the parameter, or one above it. -/
theorem definer_mem_searched {b c p : A}
    (hfound : (h.searched p).find? (h.bound param) = some c)
    (hdefiner : h.definer param p = some b) : b ∈ h.searched p := by
  have hsome : ((h.searched p).find? fun b => (h.binding param b).isSome).isSome = true := by
    rw [List.find?_isSome]
    refine ⟨c, List.mem_of_find?_eq_some hfound, ?_⟩
    rw [binding_of_bound (List.find?_some hfound), Option.isSome_some]
  obtain ⟨d, hd⟩ := Option.isSome_iff_exists.mp hsome
  have hpath := (upTo_initial _ _).find?_eq_some hd
  rw [definer] at hdefiner
  cases hdefiner.symm.trans hpath
  exact List.mem_of_find?_eq_some hd

/-- The nearest module that binds the parameter is found, if the search gets to it and the
value is not null. -/
theorem find_definer {b p : A} (hdefiner : h.definer param p = some b)
    (hb : b ∈ h.searched p) (hbound : h.bound param b = true) :
    (h.searched p).find? (h.bound param) = some b := by
  obtain ⟨-, front, back, hpath, hfront⟩ := List.find?_eq_some_iff_append.mp hdefiner
  cases hfind : (h.searched p).find? (h.bound param) with
  | none => exact absurd hbound (List.find?_eq_none.mp hfind b hb)
  | some c =>
    have hc := (upTo_initial h.containsTop (h.path p)).find?_eq_some hfind
    have hfirst : (h.path p).find? (h.bound param) = some b := by
      refine List.find?_eq_some_iff_append.mpr ⟨hbound, front, back, hpath, ?_⟩
      intro d hd
      rw [Bool.not_eq_true', Bool.eq_false_iff]
      intro hbound
      have hnone := hfront d hd
      rw [binding_of_bound hbound] at hnone
      cases hnone
    exact hc.symm.trans hfirst

/-- What the search finds is what is seen from the module, exactly if the modules bind the
parameter so. -/
theorem visible_iff {a p : A} (hp : h.parent a = some p)
    (hkeyed : ∀ b ∈ h.passed param (h.searched p), Keyed (h.SimulationParameters b)) :
    h.Visible param a p ↔ ∀ v, h.nearest param a = some v →
      ((h.searched p).find? (h.bound param)).map (h.value param) = some v := by
  rw [nearest_of_parent hp]
  constructor
  · rintro ⟨-, hunbound, hshadowed⟩ v hv
    cases hbinding : h.binding param a with
    | some w =>
      rw [hbinding, Option.some_or, Option.some.injEq] at hv
      obtain ⟨b, hfind, hb⟩ := hshadowed w hbinding
      rw [hfind, Option.map_some, value_of_binding hb, hv]
    | none =>
      rw [hbinding, Option.none_or] at hv
      obtain ⟨b, hdefiner, hb⟩ := nearest_eq_some_iff.mp hv
      obtain ⟨hmem, hbound⟩ := hunbound hbinding b hdefiner
      rw [find_definer hdefiner hmem hbound, Option.map_some, value_of_binding hb]
  · intro hfound
    refine ⟨hkeyed, ?_, ?_⟩
    · intro hbinding b hdefiner
      have hsome : (h.binding param b).isSome = true :=
        List.find?_some (p := fun b => (h.binding param b).isSome) hdefiner
      obtain ⟨v, hb⟩ := Option.isSome_iff_exists.mp hsome
      have hnearest : h.nearest param p = some v := nearest_eq_some_iff.mpr ⟨b, hdefiner, hb⟩
      obtain ⟨c, hfind, hc⟩ := Option.map_eq_some_iff.mp
        (hfound v (by rw [hbinding, Option.none_or, hnearest]))
      refine ⟨definer_mem_searched hfind hdefiner, bound_iff_binding.mpr ⟨v, hb, ?_⟩⟩
      obtain ⟨w, hw, hnull⟩ := bound_iff_binding.mp (List.find?_some hfind)
      rw [← hc, value_of_binding hw]
      exact hnull
    · intro v hbinding
      obtain ⟨b, hfind, hb⟩ := Option.map_eq_some_iff.mp
        (hfound v (by rw [hbinding, Option.some_or]))
      refine ⟨b, hfind, ?_⟩
      rw [binding_of_bound (List.find?_some hfind), hb]

/-- **The search from a node.** It begins at the module exactly if the node binds the key, or
the module has a parent and the modules from the parent up bind the key so that it is
visible. -/
theorem HeirarchalSearch_starts_iff (param : String) (members : Members F) (a : A) :
    StartsAt h param members a (h.HeirarchalSearch param (.object members) a) ↔
      (Members.find param members).isSome = true ∨
        ∃ p, h.parent a = some p ∧ h.Visible param a p := by
  have hsearch : h.HeirarchalSearch param (.object members) a =
      match Members.find param members, h.parent a with
      | some v, _ => .ok v
      | none, none => .error .null_pointer
      | none, some p => h.walk param (notFound F param) (h.searched p) := by
    rw [HeirarchalSearch, findKey]
    cases Members.find param members with
    | some v => rfl
    | none =>
      cases h.parent a with
      | none => rfl
      | some p => exact Searchinparent_eq_walk param p
  rw [hsearch, StartsAt]
  cases Members.find param members with
  | some v => simp
  | none =>
    cases hp : h.parent a with
    | none =>
      refine iff_of_false ?_ (by simp)
      cases h.nearest param a with
      | none =>
        rintro (hfound | hfound)
        · cases hfound
        · cases hfound
      | some v =>
        intro hfound
        cases hfound
    | some p =>
      simp only [Option.isSome_none, Bool.false_eq_true, false_or, Option.some.injEq,
        exists_eq_left']
      by_cases hkeyed : ∀ b ∈ h.passed param (h.searched p), Keyed (h.SimulationParameters b)
      · rw [walk_of_keyed _ hkeyed, visible_iff hp hkeyed]
        cases hnearest : h.nearest param a with
        | some v => simp only [Option.some.injEq, forall_eq', firstBound_eq_ok_iff]
        | none =>
          refine iff_of_true (.inr (firstBound_none ?_ _)) fun v hv => by cases hv
          rintro ⟨b, hb, hbound⟩
          have hnone := List.findSome?_eq_none_iff.mp hnearest b (searched_subset hp b hb)
          rw [bound, value, hnone] at hbound
          cases hbound
      · rw [walk_of_not_keyed _ hkeyed]
        refine iff_of_false ?_ fun hvisible => hkeyed hvisible.keyed
        cases h.nearest param a with
        | none =>
          rintro (hfound | hfound)
          · cases hfound
          · cases hfound
        | some v =>
          intro hfound
          cases hfound

/-- A module that binds `p`, below a top that does not. -/
def binder : Hierarchy (Fin 2) Unit := chain (.object []) [("m", .object [("p", one)])]

/-- The search does not begin at the module, and follows the null parent of the top. -/
theorem search_skips_module :
    binder.HeirarchalSearch "p" (.object []) 1 = .error (notFound Unit "p") ∧
      binder.HeirarchalSearch "p" (.object []) 0 = .error .null_pointer ∧
      ¬ ∀ (A F : Type) (h : Hierarchy A F) (param : String) (members : Members F) (a : A),
        StartsAt h param members a (h.HeirarchalSearch param (.object members) a) := by
  have hskips : binder.HeirarchalSearch "p" (.object []) 1 = .error (notFound Unit "p") := by
    with_unfolding_all rfl
  refine ⟨hskips, rfl, ?_⟩
  intro h
  have hstarts := h _ _ binder "p" [] 1
  have hnearest : binder.nearest "p" 1 = some one := by with_unfolding_all rfl
  rw [hskips, StartsAt, hnearest] at hstarts
  cases hstarts

end Hierarchy

end Pfp.Core
