import PFPSim.Runs.System
import Mathlib.Data.List.Basic

/-!
# Runs that match

Two systems, with what an observer sees of their steps. If every step of the one is matched
by steps of the other that look the same, so is every run.
-/

namespace Runs.System

variable {S E T X O : Type*} {sys : System S E} {other : System T X}

/-- A run of one system is a run of another, as far as the observer can tell. -/
theorem matched_of_replay (R : S → T → Prop) (seen : E → Option O) (shown : X → Option O)
    (hstep : ∀ s t e s', R s t → sys.step s e = some s' → ∃ xs t', other.replay t xs = some t' ∧
      R s' t' ∧ xs.filterMap shown = (seen e).toList)
    {es : List E} {s s' : S} {t : T} (hR : R s t) (h : sys.replay s es = some s') :
    ∃ xs t', other.replay t xs = some t' ∧ R s' t' ∧
      xs.filterMap shown = es.filterMap seen := by
  induction es generalizing s t with
  | nil =>
    cases h
    exact ⟨[], t, rfl, hR, rfl⟩
  | cons e es ih =>
    obtain ⟨u, hu, h⟩ := Option.bind_eq_some_iff.mp h
    obtain ⟨xs, t₁, hxs, hR₁, hseen⟩ := hstep s t e u hR hu
    obtain ⟨ys, t', hys, hR', hseen'⟩ := ih hR₁ h
    refine ⟨xs ++ ys, t', ?_, hR', ?_⟩
    · rw [replay_append, hxs]
      exact hys
    · rw [List.filterMap_append, hseen, hseen', List.filterMap_cons]
      cases seen e <;> rfl

end Runs.System
