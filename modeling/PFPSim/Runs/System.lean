import Mathlib.Data.List.Basic

/-!
# Runs of a transition system

A system has an initial state and a step function that is undefined on the steps that a
state does not enable. `Reaches P` are the states of the runs whose steps all meet `P`;
an invariant of a run is proved from what one step preserves (`Reaches.invariant`).
-/

namespace Runs

structure System (S E : Type*) where
  init : S
  step : S → E → Option S

namespace System

variable {S E : Type*} {sys : System S E} {P : S → E → Prop} {s s' : S}

/-- The states reached by steps that meet `P`. -/
inductive Reaches (sys : System S E) (P : S → E → Prop) : S → Prop
  | init : Reaches sys P sys.init
  | step {s s' : S} {e : E} (h : Reaches sys P s) (he : P s e) (hs : sys.step s e = some s') :
      Reaches sys P s'

/-- The states reached by any steps. -/
abbrev Reachable (sys : System S E) : S → Prop := Reaches sys fun _ _ => True

/-- What holds at first and is preserved by every step from a reached state holds in
every reached state. -/
theorem Reaches.invariant {I : S → Prop} (hinit : I sys.init)
    (hstep : ∀ s e s', Reaches sys P s → I s → P s e → sys.step s e = some s' → I s')
    (h : Reaches sys P s) : I s := by
  induction h with
  | init => exact hinit
  | step h he hs ih => exact hstep _ _ _ h ih he hs

/-- Steps that meet a condition also meet one that follows from it in the reached states. -/
theorem Reaches.mono {Q : S → E → Prop} (hPQ : ∀ s e, Reaches sys P s → P s e → Q s e)
    (h : Reaches sys P s) : Reaches sys Q s :=
  h.invariant .init fun s e _ hs hQ he hstep => .step hQ (hPQ s e hs he) hstep

/-- The state behind a step that is possible. -/
theorem Reaches.get (h : Reaches sys P s) (e : E) (he : P s e) (hs : (sys.step s e).isSome) :
    Reaches sys P ((sys.step s e).get hs) :=
  .step h he (Option.some_get hs).symm

/-- The steps of a list, one after the other. -/
def replay (sys : System S E) : S → List E → Option S
  | s, [] => some s
  | s, e :: es => (sys.step s e).bind fun s' => replay sys s' es

theorem Reaches.replay (h : Reaches sys P s) {es : List E} (hP : ∀ t, ∀ e ∈ es, P t e)
    (he : sys.replay s es = some s') : Reaches sys P s' := by
  induction es generalizing s with
  | nil =>
    cases he
    exact h
  | cons e es ih =>
    obtain ⟨t, ht, he⟩ := Option.bind_eq_some_iff.mp he
    obtain ⟨hPe, hPes⟩ := forall_and.mp fun t => List.forall_mem_cons.mp (hP t)
    exact ih (.step h (hPe s) ht) hPes he

theorem Reachable.replay (h : Reachable sys s) {es : List E} (he : sys.replay s es = some s') :
    Reachable sys s' :=
  Reaches.replay h (fun _ _ _ => trivial) he

theorem reachable_of_replay {es : List E} (h : sys.replay sys.init es = some s) :
    Reachable sys s :=
  Reachable.replay .init h

/-- The steps of a list, if each meets `P`. -/
def replayIf (sys : System S E) (P : S → E → Prop) [∀ s e, Decidable (P s e)] :
    S → List E → Option S
  | s, [] => some s
  | s, e :: es => if P s e then (sys.step s e).bind fun s' => replayIf sys P s' es else none

theorem Reaches.replayIf [∀ s e, Decidable (P s e)] (h : Reaches sys P s) {es : List E}
    (he : sys.replayIf P s es = some s') : Reaches sys P s' := by
  induction es generalizing s with
  | nil =>
    cases he
    exact h
  | cons e es ih =>
    obtain ⟨hP, he⟩ := Option.ite_none_right_eq_some.mp he
    obtain ⟨t, ht, he⟩ := Option.bind_eq_some_iff.mp he
    exact ih (.step h hP ht) he

theorem replay_append (s : S) (es es' : List E) :
    sys.replay s (es ++ es') = (sys.replay s es).bind fun t => sys.replay t es' := by
  induction es generalizing s with
  | nil => rfl
  | cons e es ih =>
    simp only [List.cons_append, replay, Option.bind_assoc]
    exact congrArg _ (funext ih)

/-- A preorder that every step respects holds between the ends of a run. -/
theorem rel_of_replay {R : S → S → Prop} (hrefl : ∀ s, R s s)
    (htrans : ∀ s t u, R s t → R t u → R s u)
    (hstep : ∀ s e s', sys.step s e = some s' → R s s') {es : List E}
    (h : sys.replay s es = some s') : R s s' := by
  induction es generalizing s with
  | nil =>
    cases h
    exact hrefl _
  | cons e es ih =>
    obtain ⟨t, ht, h⟩ := Option.bind_eq_some_iff.mp h
    exact htrans s t s' (hstep s e t ht) (ih h)

/-- The runs whose steps meet `P`, with their steps. -/
inductive Run (sys : System S E) (P : S → E → Prop) : S → List E → S → Prop
  | nil (s : S) : Run sys P s [] s
  | cons {s t s' : S} {e : E} {es : List E} (he : P s e) (hs : sys.step s e = some t)
      (h : Run sys P t es s') : Run sys P s (e :: es) s'

theorem Run.get (e : E) {es : List E} (he : P s e) (hs : (sys.step s e).isSome)
    (h : Run sys P ((sys.step s e).get hs) es s') : Run sys P s (e :: es) s' :=
  .cons he (Option.some_get hs).symm h

theorem Run.of_replay {es : List E} (hP : ∀ t, ∀ e ∈ es, P t e) (h : sys.replay s es = some s') :
    Run sys P s es s' := by
  induction es generalizing s with
  | nil =>
    cases h
    exact .nil _
  | cons e es ih =>
    obtain ⟨t, ht, h⟩ := Option.bind_eq_some_iff.mp h
    obtain ⟨hPe, hPes⟩ := forall_and.mp fun t => List.forall_mem_cons.mp (hP t)
    exact .cons (hPe s) ht (ih hPes h)

theorem Run.append {t : S} {es es' : List E} (h : Run sys P s es t) (h' : Run sys P t es' s') :
    Run sys P s (es ++ es') s' := by
  induction h with
  | nil => exact h'
  | cons he hs _ ih => exact .cons he hs (ih h')

/-- What every step preserves holds at the end of a run. -/
theorem Run.invariant {I : S → Prop} {es : List E}
    (hstep : ∀ s e s', I s → P s e → sys.step s e = some s' → I s') (h : Run sys P s es s')
    (hI : I s) : I s' := by
  induction h with
  | nil => exact hI
  | cons he hs _ ih => exact ih (hstep _ _ _ hI he hs)

/-- A run without some of its steps. The steps that are kept can be done from every related
state, and those that are left out do not show. -/
theorem Run.filter {R : S → S → Prop} {keep : E → Bool}
    (hkeep : ∀ s r e s', R s r → P s e → keep e = true → sys.step s e = some s' →
      ∃ r', sys.step r e = some r' ∧ R s' r')
    (hdrop : ∀ s r e s', R s r → P s e → keep e = false → sys.step s e = some s' → R s' r)
    {es : List E} {r : S} (h : Run sys P s es s') (hR : R s r) :
    ∃ r', sys.replay r (es.filter keep) = some r' ∧ R s' r' := by
  induction h generalizing r with
  | nil s => exact ⟨r, rfl, hR⟩
  | @cons s t s' e es he hs _ ih =>
    cases hk : keep e with
    | true =>
      obtain ⟨r', hr', hR⟩ := hkeep s r e t hR he hk hs
      obtain ⟨r'', hrun, hR⟩ := ih hR
      refine ⟨r'', ?_, hR⟩
      rw [List.filter_cons_of_pos hk, replay, hr', Option.bind_some]
      exact hrun
    | false =>
      obtain ⟨r', hrun, hR⟩ := ih (hdrop s r e t hR he hk hs)
      refine ⟨r', ?_, hR⟩
      rw [List.filter_cons_of_neg (by rw [hk]; exact Bool.false_ne_true)]
      exact hrun

end System

end Runs
