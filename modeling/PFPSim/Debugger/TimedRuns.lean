import PFPSim.Debugger.FollowedPacket
import PFPSim.Debugger.Turns

/-!
# Runs of a given time

`Run` and `Continue` with a time add an internal breakpoint at the time that the simulation
is to reach. The time is printed by `to_string` and read back by `stof`, and the breakpoint
may be dropped as a duplicate, or hidden by one that was listed before. What stops the
simulation on its way is said by the breakpoints that were there and by the time that is read
back (`timed_stops_iff`).
-/

namespace Pfp.Db

open Runs Lists

variable {cv : Conversions} {cp : Option CPDebuggerInterface} {a : Access} {l : List Breakpoint}
  {s s' : Session}

/-! ## The breakpoint of the request -/

theorem mem_insertNew {br b : Breakpoint} (hb : b ∈ insertNew l br) : b ∈ l ∨ b = br := by
  unfold insertNew at hb
  split at hb
  · exact .inl hb
  · exact (List.mem_append.mp hb).imp_right List.mem_singleton.mp

/-- The hit with one more breakpoint is at one that was there before, or at the new one behind
all others. -/
theorem hitAt_insertNew {br : Breakpoint} (hen : br.disabled = false) :
    (∃ front b back, HitAt cv a (insertNew l br) front b back) ↔
      (∃ front b back, HitAt cv a l front b back) ∨
        Satisfied cv a br ∧ ∀ b ∈ l, Passed cv a b := by
  by_cases hbr : Satisfied cv a br
  · rw [hitAt_insertNew_iff hbr hen, and_iff_right hbr]
  · rw [or_iff_left fun h => hbr h.1]
    by_cases hall : ∀ b ∈ l, Passed cv a b
    · refine iff_of_false ?_ ?_
      · rintro ⟨front, b, back, hit⟩
        have hmem : b ∈ insertNew l br := hit.split ▸ List.mem_append_right _ List.mem_cons_self
        rcases mem_insertNew hmem with hb | rfl
        · exact (hall b hb).1 hit.satisfied
        · exact hbr hit.satisfied
      · rintro ⟨front, b, back, hit⟩
        have hmem : b ∈ l := hit.split ▸ List.mem_append_right _ List.mem_cons_self
        exact (hall b hmem).1 hit.satisfied
    · obtain ⟨front, x, back, hsplit, hfront, hx⟩ := exists_first hall
      obtain ⟨back', hsplit'⟩ : ∃ back', insertNew l br = front ++ x :: back' := by
        unfold insertNew
        split
        · exact ⟨back, hsplit⟩
        · exact ⟨back ++ [br], by rw [hsplit, List.append_assoc, List.cons_append]⟩
      rw [hitAt_iff_of_first hsplit hfront hx, hitAt_iff_of_first hsplit' hfront hx]

/-- The breakpoint of the request is satisfied from its time on. -/
theorem satisfied_time_iff {value : String} {t : ℚ} (ht : cv.stof value = some t) :
    Satisfied cv a (stealthBreakpoint .BREAK_AT_TIME value) ↔ t ≤ a.sim_time := by
  constructor
  · intro h
    obtain ⟨t', ht', hle⟩ := h .BREAK_AT_TIME value rfl
    rw [ht] at ht'
    exact Option.some.inj ht' ▸ hle
  · intro h c v hv
    cases c with
    | BREAK_AT_TIME =>
      cases Option.some.inj hv
      exact ⟨t, ht, h⟩
    | _ => cases hv

/-! ## The requests -/

theorem breakAfter_breakpoints {t : ℚ} (ht : t ≠ -1) (s : Session) :
    (breakAfter cv t s).shared.breakpoints = insertNew s.shared.breakpoints
      (stealthBreakpoint .BREAK_AT_TIME (cv.to_string (s.data_manager.simulation_time + t))) := by
  rw [breakAfter, if_pos ht]
  exact addBreakpoint_list ..

theorem breakAfter_threads (t : ℚ) (s : Session) :
    (breakAfter cv t s).shared.threads = s.shared.threads := by
  unfold breakAfter
  split
  · rfl
  · rfl

/-- The client lets the simulation go on for a time, or run for it at first. -/
inductive Goes (cv : Conversions) (cp : Option CPDebuggerInterface) (s : Session) (text : String)
    (s₁ : Session) : Prop
  | on (hstopped : ∃ loop, s.shared.simulation = .paused loop)
      (hstep : (session cv cp).step s (.request (.Continue (some text))) = some s₁)
  | first (hrun : s.run_called = false)
      (hstep : (session cv cp).replay s [.request (.Run (some text)), .start] = some s₁)

theorem continue_command_of_serving (hr : (session cv cp).Reachable s)
    (hwaiting : s.waiting = false) : s.shared.continue_command = false := by
  obtain ⟨ss, rs, hphase⟩ := reachable_phase hr
  refine hphase.not_go_of_serving ?_
  simp only [Session.view, Threads.view, hwaiting]
  rfl

theorem Goes.underway {text : String} {s₁ : Session} {t : ℚ} (h : Goes cv cp s text s₁)
    (hr : (session cv cp).Reachable s) (ht : cv.stod text = some t) (hne : t ≠ -1) :
    Underway (insertNew s.shared.breakpoints (stealthBreakpoint .BREAK_AT_TIME
      (cv.to_string (s.data_manager.simulation_time + t)))) s₁ := by
  have htime : requestTime cv (some text) = .ok t := ofOption_eq_ok.mpr ht
  cases h with
  | on hstopped hstep =>
    obtain ⟨-, hexec⟩ := step_eq_some.mp hstep
    obtain ⟨t', ht', hexec⟩ := bind_eq_ok.mp hexec
    rw [htime] at ht'
    cases ht'
    cases hexec
    refine .inl ⟨?_, fun _ => breakAfter_breakpoints hne s⟩
    obtain ⟨loop, hloop⟩ := hstopped
    exact ⟨loop, (congrArg Threads.simulation (breakAfter_threads t s)).trans hloop⟩
  | first hrun hstep =>
    obtain ⟨s', hstep, hstart⟩ := Option.bind_eq_some_iff.mp hstep
    obtain ⟨s'', hstart, heq⟩ := Option.bind_eq_some_iff.mp hstart
    cases heq
    obtain ⟨hen, hexec⟩ := step_eq_some.mp hstep
    have hwaiting : s.waiting = false := by simpa [enabled] using hen
    obtain ⟨-, hstart⟩ := step_eq_some.mp hstart
    cases hstart
    simp only [exec, parseRequest, hrun, if_true] at hexec
    obtain ⟨t', ht', hexec⟩ := bind_eq_ok.mp hexec
    rw [htime] at ht'
    cases ht'
    cases hexec
    have hgo := continue_command_of_serving hr hwaiting
    have hthreads : (breakAfter cv t { s with run_called := true }).shared.threads =
        s.shared.threads := breakAfter_threads t _
    refine .inr ⟨rfl, ?_, breakAfter_breakpoints hne { s with run_called := true }⟩
    exact (congrArg Threads.continue_command hthreads).trans hgo

/-- **Timed runs.** Where nothing has stopped the simulation before, a read or write of a packet
in a module that is not ignored stops it exactly if the first breakpoint of the old list that
it does not pass is satisfied and enabled, or it passes them all and has reached the time. -/
theorem timed_stops_iff {text : String} {t t' : ℚ} {s₁ s₂ : Session} {es : List Step}
    (hr : (session cv cp).Reachable s) (hgoes : Goes cv cp s text s₁)
    (ht : cv.stod text = some t) (hne : t ≠ -1)
    (ht' : cv.stof (cv.to_string (s.data_manager.simulation_time + t)) = some t')
    (hes : ∀ x ∈ es, x.Own) (hrun : (session cv cp).replay s₁ es = some s₂)
    (hrunning : s₂.shared.simulation = .running) {read : Bool} {mod : String} {data : TrType}
    {time : ℚ} (hdebug : data.debuggable = true)
    (hmod : s₂.data_manager.checkIgnoreModules mod = false) :
    (∃ s₃, (session cv cp).step s₂ (.event (accessEvent read mod data time)) = some s₃ ∧
        s₃.shared.Announced) ↔
      (∃ front b back, HitAt cv ⟨mod, int32 data.id.toNat, time, read⟩
        s.data_manager.breakpoint_list front b back) ∨
      t' ≤ time ∧ ∀ b ∈ s.data_manager.breakpoint_list,
        Passed cv ⟨mod, int32 data.id.toNat, time, read⟩ b := by
  have hlist := ((hgoes.underway hr ht hne).replay hes hrun).running hrunning
  rw [event_stops_iff hrunning hdebug hmod, hlist, hitAt_insertNew rfl, satisfied_time_iff ht']

/-- A first run for a time and a half. -/
theorem timed_stops_first : ∃ s₁ s₃,
    Goes decimal none (session decimal none).init "1.5" s₁ ∧
    (session decimal none).step s₁ (.event (accessEvent true "m" ⟨7, true, none⟩ 2)) = some s₃ ∧
    s₃.shared.Announced ∧
    ¬ ∃ s₃, (session decimal none).step s₁ (.event (accessEvent true "m" ⟨7, true, none⟩ 1)) =
      some s₃ ∧ s₃.shared.Announced := by
  have hrun : ((session decimal none).replay (session decimal none).init
      [.request (.Run (some "1.5")), .start]).map
      (fun s => (s.shared.simulation, s.data_manager.ignore_module_list)) =
      some (.running, []) := by decide +kernel
  obtain ⟨s₁, hs₁, hfacts⟩ := Option.map_eq_some_iff.mp hrun
  obtain ⟨hrunning, hignored⟩ := Prod.mk.inj hfacts
  have hgoes : Goes decimal none (session decimal none).init "1.5" s₁ := .first rfl hs₁
  have htime : decimal.stod "1.5" = some (3 / 2) := by decide +kernel
  have hback : decimal.stof (decimal.to_string
      ((session decimal none).init.data_manager.simulation_time + 3 / 2)) = some (3 / 2) := by
    decide +kernel
  have hmod : s₁.data_manager.checkIgnoreModules "m" = false := by
    simp [DebugDataManager.checkIgnoreModules, hignored]
  have hstops : ∀ time, (∃ s₃, (session decimal none).step s₁
      (.event (accessEvent true "m" ⟨7, true, none⟩ time)) = some s₃ ∧ s₃.shared.Announced) ↔
        3 / 2 ≤ time := by
    intro time
    refine (timed_stops_iff .init hgoes htime (by decide +kernel) hback
      (List.forall_mem_nil _) rfl hrunning rfl hmod).trans ?_
    refine ⟨fun h => ?_, fun hle => .inr ⟨hle, List.forall_mem_nil _⟩⟩
    rcases h with ⟨front, b, back, hit⟩ | ⟨hle, -⟩
    · exact absurd hit.split (by simp [session])
    · exact hle
  obtain ⟨s₃, hs₃, hannounced⟩ := (hstops 2).mpr (by decide +kernel)
  exact ⟨s₁, s₃, hgoes, hs₃, hannounced, fun h => absurd ((hstops 1).mp h) (by decide +kernel)⟩

end Pfp.Db
