import PFPSim.Runs.System

/-!
# Recorded runs

A system that writes down what its steps show. What every step of a kind shows is then a
property of one reached state, whose record holds the whole run (`reaches_record_iff`).
-/

namespace Runs

structure Recorded (S A : Type*) where
  state : S
  record : List A := []

namespace System

variable {S E A : Type*}

/-- The system with a record of what its steps show. -/
def recorded (sys : System S E) (shows : S → E → S → Option A) : System (Recorded S A) E where
  init := { state := sys.init }
  step r e := (sys.step r.state e).map fun s' => ⟨s', r.record ++ (shows r.state e s').toList⟩

variable {sys : System S E} {shows : S → E → S → Option A} {P : S → E → Prop} {r r' : Recorded S A}

theorem recorded_step {e : E} : (sys.recorded shows).step r e = some r' ↔
    sys.step r.state e = some r'.state ∧
      r'.record = r.record ++ (shows r.state e r'.state).toList := by
  constructor
  · intro h
    obtain ⟨s', hs', rfl⟩ := Option.map_eq_some_iff.mp h
    exact ⟨hs', rfl⟩
  · rintro ⟨hs', hrecord⟩
    refine Option.map_eq_some_iff.mpr ⟨r'.state, hs', ?_⟩
    rw [← hrecord]

/-- The state of a recorded run is reached without the record. -/
theorem Reaches.unrecorded {Q : Recorded S A → E → Prop} (h : Reaches (sys.recorded shows) Q r) :
    Reachable sys r.state := by
  induction h with
  | init => exact .init
  | step _ _ hs ih => exact .step ih trivial (recorded_step.mp hs).1

/-- When the steps that meet `P` are those that show nothing but `Q`, the runs of such steps
are those with nothing but `Q` in their record. -/
theorem reaches_record_iff {Q : A → Prop}
    (h : ∀ s e s', Reachable sys s → sys.step s e = some s' →
      (P s e ↔ ∀ a, shows s e s' = some a → Q a)) :
    Reaches (sys.recorded shows) (fun r e => P r.state e) r ↔
      Reachable (sys.recorded shows) r ∧ ∀ a ∈ r.record, Q a := by
  constructor
  · intro hr
    refine ⟨hr.mono fun _ _ _ _ => trivial, ?_⟩
    refine hr.invariant (I := fun r => ∀ a ∈ r.record, Q a) (fun a ha => by cases ha) ?_
    intro r e r' hr hrecord he hstep a ha
    obtain ⟨hs, heq⟩ := recorded_step.mp hstep
    rw [heq, List.mem_append, Option.mem_toList] at ha
    rcases ha with ha | ha
    · exact hrecord a ha
    · exact (h _ _ _ hr.unrecorded hs).mp he a ha
  · rintro ⟨hr, hQ⟩
    induction hr with
    | init => exact .init
    | @step r r' e hr _ hstep ih =>
      obtain ⟨hs, heq⟩ := recorded_step.mp hstep
      rw [heq] at hQ
      refine .step (ih fun a ha => hQ a (List.mem_append_left _ ha)) ?_ hstep
      apply (h _ _ _ hr.unrecorded hs).mpr
      intro a ha
      exact hQ a (List.mem_append_right _ (Option.mem_toList.mpr ha))

end System

end Runs
