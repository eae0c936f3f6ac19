import PFPSim.Debugger.Turns
import PFPSim.Lists.Numbered

/-!
# Internal breakpoints

The breakpoints that the debugger adds for a run of a given time and for `Next`. A stop at
a breakpoint removes one of them, and there is one at most while the simulation runs, unless
an earlier stop has left one behind (`Tidy`). Only a stop at a watchpoint or at a dropped
packet does that, so without such stops, while an internal breakpoint is listed (`Orderly`),
none is there when the server takes requests.
-/

namespace Pfp.Db

open Runs Lists

variable {cv : Conversions} {cp : Option CPDebuggerInterface} {l front back : List Breakpoint}
  {b : Breakpoint} {s s' : Session}

def NoInternal (l : List Breakpoint) : Prop := ∀ b ∈ l, ¬ b.stealth

/-! ## Lists -/

theorem NoInternal.subset {l' : List Breakpoint} (h : NoInternal l) (hl : l' ⊆ l) :
    NoInternal l' := fun b hb => h b (hl hb)

theorem NoInternal.single_insertNew (h : NoInternal l) (br : Breakpoint) :
    Single (fun b => decide b.stealth) (insertNew l br) := by
  have hl : ∀ b ∈ l, decide b.stealth = false := fun b hb => decide_eq_false (h b hb)
  unfold insertNew
  split
  · exact .of_forall hl
  · exact .concat hl br

theorem NoInternal.insertNew (h : NoInternal l) (hb : ¬ b.stealth) :
    NoInternal (insertNew l b) := by
  unfold Db.insertNew
  split
  · exact h
  · intro c hc
    rcases List.mem_append.mp hc with hc | hc
    · exact h c hc
    · rw [List.mem_singleton.mp hc]
      exact hb

theorem noInternal_removeFirst (h : Single (fun b => decide b.stealth) l) :
    NoInternal (removeFirst Breakpoint.id (-1) l) := by
  have heq : removeFirst Breakpoint.id (-1) l = l.filter fun b => !decide b.stealth :=
    h.eraseP_eq_filter
  rw [heq]
  intro b hb
  simpa using (List.mem_filter.mp hb).2

/-- A stop at a breakpoint leaves no internal one, if there was one at most. -/
theorem noInternal_listAfter {n : Int} (hv : Table.Valid ⟨l, n⟩)
    (h : Single (fun b => decide b.stealth) l) (hl : l = front ++ b :: back) :
    NoInternal (listAfter b (slot (listAtHit b l) front.length b) l) := by
  have hmem : b ∈ l := by
    rw [hl]
    exact List.mem_append_right _ List.mem_cons_self
  by_cases hb : b.stealth
  · have hslot : slot (listAtHit b l) front.length b = b := by
      rw [listAtHit_stealth hb, hl]
      simp [slot]
    have hid : b.id = -1 := hb
    rw [hslot, listAfter, if_pos (hv.temp b hmem hb), listAtHit_stealth hb, hid]
    exact noInternal_removeFirst h
  · have hnone : NoInternal (listAtHit b l) := by
      rw [listAtHit_user hb]
      exact noInternal_removeFirst h
    unfold listAfter
    split
    · exact hnone.subset removeFirst_sublist.subset
    · exact hnone

/-- Edits that add nothing. -/
theorem NoInternal.edits {P : Conditions → Prop} (hP : ∀ m, ¬ P m) {t t' : Table}
    (h : NoInternal t.list) (he : Edits P t t') : NoInternal t'.list := by
  induction he with
  | refl => exact h
  | tail _ he ih =>
    cases he with
    | user br hid hbr => exact absurd hbr (hP _)
    | stealth br hid htemp hbr => exact absurd hbr (hP _)
    | remove id => exact ih.subset removeFirst_sublist.subset
    | disable id disabled =>
      intro b hb
      rcases mem_updateFirst hb with hb | ⟨c, hc, rfl⟩
      · exact ih b hb
      · exact ih c hc

/-! ## Steps -/

/-- The steps of a run that leaves no internal breakpoint behind: the simulation stops at a
watchpoint or at a dropped packet only while none is listed. Behind its end, the simulation
has no other events. -/
def Orderly (s : Session) : Step → Prop
  | .event e =>
    (Interrupts s.shared e → e ≠ .simulation_end → NoInternal s.shared.breakpoints) ∧
      (s.shared.reply_message = some .SimulationEnd → e = .simulation_end)
  | .resume => ∀ loop, s.shared.simulation = .paused (some loop) →
      Watched (s.data_manager.watchpoint_list.drop (loop.cursor + 1)) loop.counter_name →
      NoInternal s.shared.breakpoints
  | _ => True

/-- One internal breakpoint at most, and none behind a stop. -/
structure Tidy (s : Session) : Prop where
  single : Single (fun b => decide b.stealth) s.shared.breakpoints
  stopped : s.shared.stopped = true → NoInternal s.shared.breakpoints
  idle : s.waiting = false → s.shared.stopped = false ∧ NoInternal s.shared.breakpoints

/-- The simulation has come to its end. -/
structure Ended (s : Session) : Prop where
  reply_message : s.shared.reply_message = some .SimulationEnd
  simulation : ∀ loop, s.shared.simulation ≠ .paused (some loop)

theorem NoInternal.single (h : NoInternal l) : Single (fun b => decide b.stealth) l :=
  .of_forall fun b hb => decide_eq_false (h b hb)

theorem breakAfter_single (h : NoInternal s.shared.breakpoints) (time : ℚ) :
    Single (fun b => decide b.stealth) (breakAfter cv time s).shared.breakpoints := by
  unfold breakAfter
  split
  · have hsingle := h.single_insertNew
      (stealthBreakpoint .BREAK_AT_TIME (cv.to_string (s.data_manager.simulation_time + time)))
    rw [← addBreakpoint_list] at hsingle
    exact hsingle
  · exact h.single

/-- A request adds one internal breakpoint at most, and the server waits then. -/
theorem parseRequest_internal {r : Request} (hnext : 0 ≤ s.data_manager.breakpoint_next_id)
    (h : NoInternal s.shared.breakpoints) (hr : parseRequest cv r s = .ok s') :
    NoInternal s'.shared.breakpoints ∨
      s'.waiting = true ∧ Single (fun b => decide b.stealth) s'.shared.breakpoints := by
  have hedits := (parseRequest_changes hr).edits
  cases r with
  | Run time_ns =>
    simp only [parseRequest] at hr
    split at hr
    · obtain ⟨t, -, hr⟩ := bind_eq_ok.mp hr
      cases hr
      exact .inr ⟨rfl, breakAfter_single (s := { s with run_called := true }) h t⟩
    · cases hr
      exact .inl h
  | Continue time_ns =>
    obtain ⟨t, -, hr⟩ := bind_eq_ok.mp hr
    cases hr
    exact .inr ⟨rfl, breakAfter_single h t⟩
  | Next =>
    cases hr
    have hsingle := h.single_insertNew
      (stealthBreakpoint .BREAK_ON_PACKET_ID (toString s.data_manager.whoami))
    rw [← addBreakpoint_list] at hsingle
    exact .inr ⟨rfl, hsingle⟩
  | SetBreakpoint msg =>
    obtain ⟨br, hbr, hr⟩ := bind_eq_ok.mp hr
    cases hr
    have hid : br.id = s.data_manager.breakpoint_next_id := setConditions_id hbr
    have hnone := h.insertNew (b := br) fun hs => by rw [Breakpoint.stealth] at hs; omega
    have hlist := addBreakpoint_list s.data_manager.newBreakpoint.2 br
    refine .inl ?_
    show NoInternal (s.data_manager.newBreakpoint.2.addBreakpoint br).breakpoint_list
    rw [hlist]
    exact hnone
  | _ => exact .inl (h.edits (fun _ hP => hP) hedits)

/-- What a request leaves as it is. -/
theorem parseRequest_stands {r : Request} (h : parseRequest cv r s = .ok s') :
    s'.shared.stopped = s.shared.stopped ∧ s'.shared.reply_message = s.shared.reply_message ∧
      s'.shared.simulation = s.shared.simulation := by
  rcases parseRequest_threads h with ⟨-, -, -, ht⟩ | ⟨-, -, ht⟩ | ⟨ht, -, -⟩
  all_goals
    exact ⟨congrArg Threads.stopped ht, congrArg Threads.reply_message ht,
      congrArg Threads.simulation ht⟩

/-- A simulation that runs, or is permitted to, has a server that waits. -/
theorem waiting_of_moving {P : Session → Step → Prop} (h : (session cv cp).Reaches P s)
    (hs : s.shared.simulation = .running ∨ s.shared.simulation ≠ .held ∧
      s.shared.continue_command = true) : s.waiting = true := by
  by_contra hidle
  rcases standing_of_idle h (by simpa using hidle) with ⟨hheld, -⟩ | ⟨⟨loop, hpaused⟩, hgo⟩
  · rcases hs with hs | ⟨hs, -⟩
    · rw [hs] at hheld
      cases hheld
    · exact hs hheld
  · rcases hs with hs | ⟨-, hs⟩
    · rw [hs] at hpaused
      cases hpaused
    · rw [hs] at hgo
      cases hgo

theorem Ended.step {x : Step} (h : Ended s) (ho : Orderly s x)
    (hstep : (session cv cp).step s x = some s') : Ended s' := by
  obtain ⟨-, hexec⟩ := step_eq_some.mp hstep
  cases x with
  | request r =>
    obtain ⟨-, hreply, hsim⟩ := parseRequest_stands hexec
    exact ⟨hreply.trans h.reply_message, fun loop => hsim ▸ h.simulation loop⟩
  | start =>
    cases hexec
    exact ⟨h.reply_message, fun loop hpaused => by cases hpaused⟩
  | event e =>
    rw [ho.2 h.reply_message] at hexec
    cases hexec
    exact ⟨rfl, fun loop hpaused => by cases hpaused⟩
  | resume =>
    simp only [exec] at hexec
    split at hexec
    · rename_i loop hpaused
      cases hexec
      cases loop with
      | none => exact ⟨h.reply_message, fun loop hrunning => by cases hrunning⟩
      | some w => exact absurd hpaused (h.simulation w)
    · cases hexec
      exact h
  | reply =>
    cases hexec
    exact ⟨h.reply_message, h.simulation⟩

theorem Tidy.event {e : Event} {sh : Shared} (hs : (session cv cp).Reaches Orderly s)
    (h : Tidy s) (ho : Orderly s (.event e)) (hrunning : s.shared.simulation = .running)
    (hsh : observe cv e s.shared = .ok sh) :
    Ended { s with shared := sh } ∨ Tidy { s with shared := sh } := by
  have hwaiting := waiting_of_moving hs (.inl hrunning)
  have hnotIdle : s.waiting ≠ false := by
    rw [hwaiting]
    decide
  have htidy (hnone : NoInternal sh.breakpoints) : Tidy { s with shared := sh } :=
    ⟨hnone.single, fun _ => hnone, fun hidle => absurd hidle hnotIdle⟩
  cases observe_outcome hsh with
  | runs quiet threads list =>
    refine .inr ⟨?_, ?_, fun hidle => absurd hidle hnotIdle⟩
    · rw [list]
      exact h.single
    · intro hstopped
      rw [list]
      exact h.stopped ((congrArg Threads.stopped threads).symm.trans hstopped)
  | breakpoint a front b back m quiet hit threads list =>
    refine .inr (htidy ?_)
    rw [list]
    exact noInternal_listAfter (reachable_valid hs) h.single hit.split
  | interrupt m loop why threads list ends message =>
    by_cases he : e = .simulation_end
    · obtain ⟨rfl, rfl⟩ := ends he
      refine .inl ⟨congrArg Threads.reply_message threads, ?_⟩
      intro w hw
      rw [show sh.simulation = .paused none from congrArg Threads.simulation threads] at hw
      cases hw
    · refine .inr (htidy ?_)
      rw [list]
      exact ho.1 why he

theorem Tidy.step {x : Step} (hs : (session cv cp).Reaches Orderly s) (h : Tidy s)
    (ho : Orderly s x) (hstep : (session cv cp).step s x = some s') : Ended s' ∨ Tidy s' := by
  obtain ⟨hen, hexec⟩ := step_eq_some.mp hstep
  cases x with
  | request r =>
    have hidle : s.waiting = false := by simpa [enabled] using hen
    obtain ⟨hstopped, hnone⟩ := h.idle hidle
    have hstopped' : s'.shared.stopped = false := (parseRequest_stands hexec).1.trans hstopped
    refine .inr ?_
    rcases parseRequest_internal (reachable_valid hs).next_nonneg hnone hexec with
      hnone' | ⟨hwaiting, hsingle⟩
    · exact ⟨hnone'.single, fun _ => hnone', fun _ => ⟨hstopped', hnone'⟩⟩
    · refine ⟨hsingle, ?_, ?_⟩
      · intro hstop
        rw [hstopped'] at hstop
        cases hstop
      · intro hidle'
        rw [hwaiting] at hidle'
        cases hidle'
  | start =>
    cases hexec
    exact .inr ⟨h.single, h.stopped, h.idle⟩
  | event e =>
    obtain ⟨sh, hsh, hexec⟩ := bind_eq_ok.mp hexec
    cases hexec
    exact h.event hs ho (by simpa [enabled] using hen) hsh
  | resume =>
    simp only [enabled, decide_eq_true_eq] at hen
    obtain ⟨hheld, -, hgo⟩ := hen
    have hwaiting := waiting_of_moving hs (.inr ⟨hheld, hgo⟩)
    simp only [exec] at hexec
    split at hexec
    · rename_i loop hpaused
      cases hexec
      have hlist : (resume loop s.shared).breakpoints = s.shared.breakpoints :=
        congrArg DebugDataManager.breakpoint_list (resume_data_manager loop s.shared)
      have hstopped : (resume loop s.shared).stopped = true → NoInternal s.shared.breakpoints := by
        intro hstop
        rcases resume_cases loop s.shared with
          ⟨-, hthreads⟩ | ⟨w, -, -, rfl, -, hwatched, -⟩
        · exact h.stopped ((congrArg Threads.stopped hthreads).symm.trans hstop)
        · exact ho w hpaused hwatched
      refine .inr ⟨?_, ?_, ?_⟩
      · rw [hlist]
        exact h.single
      · intro hstop
        rw [hlist]
        exact hstopped hstop
      · intro hidle
        replace hidle : s.waiting = false := hidle
        rw [hwaiting] at hidle
        cases hidle
    · cases hexec
      exact .inr h
  | reply =>
    cases hexec
    simp only [enabled, decide_eq_true_eq] at hen
    have hnone := h.stopped hen.2
    exact .inr ⟨h.single, fun hstop => (by cases hstop), fun _ => ⟨rfl, hnone⟩⟩

theorem reaches_tidy (h : (session cv cp).Reaches Orderly s) : Ended s ∨ Tidy s := by
  refine System.Reaches.invariant (I := fun s => Ended s ∨ Tidy s) ?_
    ?_ h
  · exact .inr ⟨.nil, nofun, fun _ => ⟨rfl, nofun⟩⟩
  · intro s x s' hs ih ho hstep
    rcases ih with hended | htidy
    · exact .inl (hended.step ho hstep)
    · exact htidy.step hs ho hstep

/-- **No internal breakpoint is left.** In a run whose steps are orderly, none is listed when
the server takes requests, unless the simulation has come to its end. -/
theorem no_internal_at_stop (h : (session cv cp).Reaches Orderly s) (hidle : s.waiting = false)
    (hend : s.shared.reply_message ≠ some .SimulationEnd) :
    ∀ b ∈ s.data_manager.breakpoint_list, ¬ b.stealth := by
  rcases reaches_tidy h with hended | htidy
  · exact absurd hended.reply_message hend
  · exact (htidy.idle hidle).2

/-! ## The other stops -/

/-- The server replies, and takes requests with an internal breakpoint in the list. -/
theorem reply_with_internal {t : Threads} {m : DebuggerMessage} {loop : Option WatchLoop}
    (hwaiting : s.waiting = true) (hhalt : s.shared.threads = t.halt m loop)
    (hm : m ≠ .SimulationEnd) (hleft : ¬ NoInternal s.shared.breakpoints) :
    ∃ s', (session cv cp).step s .reply = some s' ∧ s'.waiting = false ∧
      s'.shared.reply_message ≠ some .SimulationEnd ∧
      ∃ b ∈ s'.data_manager.breakpoint_list, b.stealth := by
  have hstopped : s.shared.stopped = true := congrArg Threads.stopped hhalt
  have hreply : s.shared.reply_message = some m := congrArg Threads.reply_message hhalt
  refine ⟨s.replyStop, step_eq_some.mpr ⟨?_, rfl⟩, rfl, ?_, ?_⟩
  · simp [enabled, hwaiting, hstopped]
  · intro h
    exact hm (Option.some.inj (hreply.symm.trans h))
  · by_contra hnone
    exact hleft fun b hb hs => hnone ⟨b, hb, hs⟩

/-- A step that is not orderly leaves an internal breakpoint behind. -/
theorem internal_left {x : Step} (hs : (session cv cp).Reachable s)
    (hend : s.shared.reply_message ≠ some .SimulationEnd) (hx : ¬ Orderly s x)
    (hstep : (session cv cp).step s x = some s') :
    ∃ s'', (session cv cp).step s' .reply = some s'' ∧ s''.waiting = false ∧
      s''.shared.reply_message ≠ some .SimulationEnd ∧
      ∃ b ∈ s''.data_manager.breakpoint_list, b.stealth := by
  obtain ⟨hen, hexec⟩ := step_eq_some.mp hstep
  cases x with
  | request r => exact absurd trivial hx
  | start => exact absurd trivial hx
  | reply => exact absurd trivial hx
  | event e =>
    have hinterrupt : ¬ (Interrupts s.shared e → e ≠ .simulation_end →
        NoInternal s.shared.breakpoints) := fun h => hx ⟨h, fun hr => absurd hr hend⟩
    simp only [Classical.not_imp] at hinterrupt
    obtain ⟨hwhy, he, hleft⟩ := hinterrupt
    have hwaiting := waiting_of_moving hs (.inl (by simpa [enabled] using hen))
    obtain ⟨sh, hsh, hexec⟩ := bind_eq_ok.mp hexec
    cases hexec
    cases observe_outcome hsh with
    | runs quiet threads list => exact absurd hwhy quiet
    | breakpoint a front b back m quiet hit threads list => exact absurd hwhy quiet
    | interrupt m loop why threads list ends message =>
      refine reply_with_internal (s := { s with shared := sh }) hwaiting threads
        (fun hm => he (message hm)) ?_
      rw [list]
      exact hleft
  | resume =>
    simp only [Orderly, not_forall] at hx
    obtain ⟨loop, hpaused, hwatched, hleft⟩ := hx
    simp only [enabled, decide_eq_true_eq] at hen
    have hwaiting := waiting_of_moving hs (.inr ⟨hen.1, hen.2.2⟩)
    simp only [exec, hpaused] at hexec
    cases hexec
    rcases resume_cases (some loop) s.shared with ⟨hnone, -⟩ | ⟨w, m, loop', -, hm, -, hstop⟩
    · exact absurd hwatched (hnone loop rfl)
    · refine reply_with_internal (s := { s with shared := resume (some loop) s.shared }) hwaiting
        hstop hm ?_
      rw [Shared.breakpoints, resume_data_manager]
      exact hleft

/-- A read of packet `7`. -/
def readOf7 (mod : String) (time : ℚ) : Step := .event (.data_read mod ⟨7, true, none⟩ time)

/-- A stop at a breakpoint on `m`, with a watchpoint on `c`. -/
def stopWatching : List Step :=
  [setTemporary "m", .request (.SetWatchpoint "c" ""), .request (.Run none), .start,
    .event (.counter_added "c" 0), readOf7 "m" 1, .reply]

/-- `Next` ends at the watchpoint, and its internal breakpoint is still listed. -/
theorem internal_left_at_watchpoint : ∃ s, (session decimal none).Reachable s ∧
    s.waiting = false ∧ (∃ loop, s.shared.simulation = .paused (some loop)) ∧
    s.shared.reply_message ≠ some .SimulationEnd ∧
      ∃ b ∈ s.data_manager.breakpoint_list, b.stealth := by
  have hstop : (session decimal none).Reachable _ :=
    @System.reachable_of_replay _ _ _ _ stopWatching rfl
  have hnext : (session decimal none).Reachable _ :=
    @System.Reachable.replay _ _ _ _ _ hstop [.request .Next, .resume] rfl
  have hwatch : (session decimal none).Reachable _ :=
    .step (e := .event (.counter_updated "c" 1 2)) hnext trivial rfl
  have hloose : ∀ s, Orderly s (.event (.counter_updated "c" 1 2)) →
      Watched s.data_manager.watchpoint_list "c" → NoInternal s.shared.breakpoints :=
    fun s h hwatched => h.1 hwatched nofun
  obtain ⟨s, hreply, hidle, hend, hleft⟩ := internal_left (x := .event (.counter_updated "c" 1 2))
    hnext nofun (fun h => hloose _ h ⟨_, List.mem_cons_self, rfl, rfl⟩ _ List.mem_cons_self rfl) rfl
  cases hreply
  exact ⟨_, .step (e := .reply) hwatch trivial rfl, hidle, ⟨_, rfl⟩, hend, hleft⟩

/-- `Next` ends at packet `7`. -/
theorem no_internal_at_breakpoint : ∃ s, (session decimal none).Reaches Orderly s ∧
    s.waiting = false ∧ s.shared.simulation = .paused none ∧ s.sent.length = 3 ∧
      ∀ b ∈ s.data_manager.breakpoint_list, ¬ b.stealth := by
  have hset : (session decimal none).Reaches Orderly _ :=
    .step (e := setTemporary "m") .init trivial rfl
  have hrun : (session decimal none).Reaches Orderly _ :=
    .step (e := .start) (.step (e := .request (.Run none)) hset trivial rfl) trivial rfl
  have hstop : (session decimal none).Reaches Orderly _ :=
    .step (e := .reply) (.step (e := readOf7 "m" 1) hrun ⟨nofun, nofun⟩ rfl) trivial rfl
  have hnext : (session decimal none).Reaches Orderly _ :=
    .step (e := .resume) (.step (e := .request .Next) hstop trivial rfl) nofun rfl
  have hstop' : (session decimal none).Reaches Orderly _ :=
    .step (e := .reply) (.step (e := readOf7 "n" 2) hnext ⟨nofun, nofun⟩ rfl) trivial rfl
  exact ⟨_, hstop', rfl, rfl, rfl, no_internal_at_stop hstop' rfl nofun⟩

end Pfp.Db
