import PFPSim.Debugger.Frames
import PFPSim.Debugger.Turns

/-!
# The packet of the last stop

`WhoAmI` is answered with the packet of the last stop at a breakpoint. A client knows it
already: it is the packet of the last message about such a stop that it has been sent
(`whoami_is_last_stop`), whatever has happened since.
-/

namespace Pfp.Db

open Runs

/-- The packet of a stop at a breakpoint. -/
def DebuggerMessage.stopPacket : DebuggerMessage → Option Int
  | .BreakpointHit _ _ packet_id _ _ => some packet_id
  | .SimulationStopped _ packet_id _ _ => some packet_id
  | _ => none

/-- The packet of the last stop at a breakpoint that the messages are about. -/
def lastStop (l : List DebuggerMessage) : Int :=
  ((l.filterMap DebuggerMessage.stopPacket).getLast?).getD (-1)

theorem lastStop_append (l : List DebuggerMessage) (m : DebuggerMessage) :
    lastStop (l ++ [m]) = m.stopPacket.getD (lastStop l) := by
  unfold lastStop
  rw [List.filterMap_append]
  cases hm : m.stopPacket with
  | none => rw [List.filterMap_cons_none hm, List.filterMap_nil, List.append_nil, Option.getD_none]
  | some packet_id =>
    rw [List.filterMap_cons_some hm, List.filterMap_nil, List.getLast?_concat]
    rfl

theorem lastStop_skip {ms : List DebuggerMessage} (hms : ∀ m ∈ ms, m.stopPacket = none)
    (l l' : List DebuggerMessage) : lastStop (l ++ ms ++ l') = lastStop (l ++ l') := by
  have hnil : ms.filterMap DebuggerMessage.stopPacket = [] := List.filterMap_eq_nil_iff.mpr hms
  unfold lastStop
  rw [List.filterMap_append, List.filterMap_append, hnil, List.append_nil, List.filterMap_append]

variable {cv : Conversions} {s s' s'' : Session} {sh sh' : Shared}

/-! ## Requests -/

/-- The request answers with no message about a stop. -/
def Answers (s s' : Session) : Prop :=
  ∃ ms, s'.sent = s.sent ++ ms ∧ ∀ m ∈ ms, m.stopPacket = none

namespace Answers

theorem silent (h : s'.sent = s.sent) : Answers s s' :=
  ⟨[], h.trans (List.append_nil _).symm, nofun⟩

theorem sends {m : DebuggerMessage} (hm : m.stopPacket = none) (h : s'.sent = s.sent ++ [m]) :
    Answers s s' := ⟨[m], h, List.forall_mem_singleton.mpr hm⟩

theorem trans (h : Answers s s') (h' : Answers s' s'') : Answers s s'' := by
  obtain ⟨ms, hms, hnone⟩ := h
  obtain ⟨ms', hms', hnone'⟩ := h'
  refine ⟨ms ++ ms', by rw [hms', hms, List.append_assoc], ?_⟩
  exact fun m hm => (List.mem_append.mp hm).elim (hnone m) (hnone' m)

end Answers

theorem handleId_answers {id : String} {f : Int → DebugDataManager}
    (h : handleId id f s = .ok s') : Answers s s' := by
  obtain ⟨x, -, h⟩ := bind_eq_ok.mp h
  cases h
  exact .sends rfl rfl

theorem handlePacketValue_answers (id : Int) {value : DebugInfo → DebuggerMessage}
    (hvalue : ∀ di, (value di).stopPacket = none) (s : Session) :
    Answers s (handlePacketValue id value s) := by
  have hfailed : ∀ s : Session, Answers s s.sendRequestFailed := fun s => .sends rfl rfl
  have hfound : ∀ di, Answers s (s.send (value di)) := fun di => .sends (hvalue di) rfl
  simp only [handlePacketValue]
  split
  · split
    · exact (hfound _).trans (hfailed _)
    · exact hfailed s
  · exact hfailed s

theorem handleStartTracing_answers (msg : StartTracingMsg) (s : Session) :
    Answers s (handleStartTracing msg s).sendRequestFailed := by
  obtain ⟨id, -, heq⟩ := handleStartTracing_eq msg s
  have hanswer : Answers s (handleStartTracing msg s) := by
    rw [heq]
    split
    · exact .sends (m := .GenericAcknowledge .FAILED) rfl rfl
    · exact .sends (m := .StartTracingStatus id) rfl rfl
  exact hanswer.trans (.sends (m := .GenericAcknowledge .FAILED) rfl rfl)

theorem parseRequest_answers {r : Request} (h : parseRequest cv r s = .ok s') :
    Answers s s' := by
  cases r with
  | Run time_ns =>
    simp only [parseRequest] at h
    split at h
    · obtain ⟨t, -, h⟩ := bind_eq_ok.mp h
      cases h
      exact .silent (breakAfter_sent cv t _)
    · cases h
      exact .sends rfl rfl
  | Continue time_ns =>
    obtain ⟨t, -, h⟩ := bind_eq_ok.mp h
    cases h
    exact .silent (breakAfter_sent cv t s)
  | Next =>
    cases h
    exact .silent (breakAfter_sent cv (-1) _)
  | SetBreakpoint msg =>
    obtain ⟨br, -, h⟩ := bind_eq_ok.mp h
    cases h
    exact .sends rfl rfl
  | RemoveBreakpoint id => exact handleId_answers (f := s.data_manager.removeBreakpoint) h
  | EnableDisableBreakpoint id enable =>
    exact handleId_answers (show handleId id _ s = .ok s' from h)
  | RemoveWatchpoint id => exact handleId_answers (f := s.data_manager.removeWatchpoint) h
  | EnableDisableWatchpoint id enable =>
    exact handleId_answers (show handleId id _ s = .ok s' from h)
  | Backtrace packet_id =>
    obtain ⟨id, -, h⟩ := bind_eq_ok.mp h
    split at h <;> cases h <;> exact .sends rfl rfl
  | CPCommand command =>
    obtain ⟨cp, -, h⟩ := bind_eq_ok.mp h
    cases h
    exact .sends rfl rfl
  | GetTableEntries =>
    obtain ⟨cp, -, h⟩ := bind_eq_ok.mp h
    cases h
    exact .sends rfl rfl
  | GetPacketField id field_name =>
    cases h
    exact handlePacketValue_answers id (fun _ => rfl) s
  | GetRawPacket id =>
    cases h
    exact handlePacketValue_answers id (fun _ => rfl) s
  | GetParsedPacket id =>
    cases h
    exact handlePacketValue_answers id (fun _ => rfl) s
  | StartTracing msg =>
    cases h
    exact handleStartTracing_answers msg s
  | _ =>
    cases h
    exact .sends rfl rfl

/-! ## Callbacks -/

/-- The callback runs through and keeps the packet, or stops with a message, which has the
packet from then on if it is about a stop at a breakpoint. -/
def Tells (sh sh' : Shared) : Prop :=
  (sh'.threads = sh.threads ∧ sh'.data_manager.whoami = sh.data_manager.whoami) ∨
  ∃ m loop, sh'.threads = sh.threads.halt m loop ∧
    sh'.data_manager.whoami = m.stopPacket.getD sh.data_manager.whoami

theorem updateSimulationTime_tells (sh : Shared) (time : ℚ) :
    Tells sh (sh.updateSimulationTime time) :=
  .inl ⟨updateSimulationTime_threads sh time, updateSimulationTime_whoami sh time⟩

theorem watchLoop_tells (name : String) (old_value new_value : Int) (sh : Shared) (cursor : Nat)
    (ws : List Watchpoint) : Tells sh (watchLoop name old_value new_value sh cursor ws) := by
  induction ws generalizing cursor with
  | nil => exact .inl ⟨rfl, rfl⟩
  | cons w ws ih =>
    unfold watchLoop
    split
    · exact .inr ⟨.WatchpointHit w.id name old_value new_value, _, rfl, rfl⟩
    · exact ih _

theorem replyHit_tells (a : Access) (b : Breakpoint) (sh : Shared) :
    ∃ m, (replyHit a b sh).threads = { sh.threads with reply_message := some m } ∧
      (replyHit a b sh).data_manager.whoami = a.packet_id ∧ m.stopPacket = some a.packet_id := by
  unfold replyHit
  split
  · exact ⟨_, rfl, rfl, rfl⟩
  · exact ⟨_, rfl, rfl, rfl⟩

theorem breakpointStop_tells (a : Access) (i : Nat) (b : Breakpoint) (sh : Shared) :
    Tells sh (breakpointStop a i b sh) := by
  obtain ⟨m, hthreads, hwhoami, hm⟩ := replyHit_tells a b sh
  have hhalt : ((replyHit a b sh).notifyServer.pause none).threads = sh.threads.halt m none :=
    congrArg (fun t : Threads => { t with stopped := true, simulation := .paused none }) hthreads
  refine .inr ⟨m, none, ?_, ?_⟩
  · rw [← hhalt]
    simp only [breakpointStop]
    split <;> rfl
  · rw [hm, Option.getD_some, ← hwhoami]
    simp only [breakpointStop]
    split <;> rfl

theorem checkBreakpointHit_tells {a : Access} (h : checkBreakpointHit cv a sh = .ok sh') :
    Tells sh sh' := by
  obtain ⟨hit, -, h⟩ := bind_eq_ok.mp h
  cases hit with
  | none =>
    cases h
    exact .inl ⟨rfl, rfl⟩
  | some p =>
    simp only at h
    split at h
    · cases h
      exact breakpointStop_tells ..
    · cases h
      exact .inl ⟨rfl, rfl⟩

/-- Behind a step that neither stops nor changes the packet. -/
theorem Tells.after {t : Shared} (hthreads : t.threads = sh.threads)
    (hwhoami : t.data_manager.whoami = sh.data_manager.whoami) (h : Tells t sh') :
    Tells sh sh' := by
  unfold Tells at h ⊢
  rw [hthreads, hwhoami] at h
  exact h

theorem data_access_tells {read : Bool} {mod : String} {data : TrType} {time : ℚ}
    (h : data_access cv read mod data time sh = .ok sh') : Tells sh sh' := by
  rw [data_access_eq] at h
  split at h
  · cases h
    exact .inl ⟨rfl, rfl⟩
  · have hthreads := sh.access_threads read mod data time
    have hwhoami := access_whoami sh read mod data time
    split at h
    · exact .after hthreads hwhoami (checkBreakpointHit_tells h)
    · cases h
      exact .inl ⟨hthreads, hwhoami⟩

theorem observe_tells {e : Event} (h : observe cv e sh = .ok sh') : Tells sh sh' := by
  cases e with
  | counter_added name time =>
    cases h
    exact .after rfl rfl (updateSimulationTime_tells _ time)
  | counter_removed name time =>
    cases h
    exact .after rfl rfl (updateSimulationTime_tells _ time)
  | counter_updated name value time =>
    obtain ⟨published, old_value, rfl⟩ := counter_updated_eq h
    refine .after ?_ ?_ (watchLoop_tells ..)
    · exact updateSimulationTime_threads _ time
    · rw [updateSimulationTime_whoami, perform_whoami]
  | data_written mod data time =>
    exact data_access_tells (show data_access cv false mod data time sh = .ok sh' from h)
  | data_read mod data time =>
    exact data_access_tells (show data_access cv true mod data time sh = .ok sh' from h)
  | data_dropped mod data reason time =>
    cases h
    unfold data_dropped
    have hthreads := updateSimulationTime_threads sh time
    have hwhoami := updateSimulationTime_whoami sh time
    split
    · exact .inl ⟨rfl, rfl⟩
    · simp only
      split
      · exact .inr ⟨.PacketDropped (int32 data.id.toNat) mod reason, none,
          congrArg (Threads.halt · _ none) hthreads, hwhoami⟩
      · exact .inl ⟨hthreads, hwhoami⟩
  | activity kind time =>
    cases h
    exact updateSimulationTime_tells sh time
  | simulation_end =>
    cases h
    exact .inr ⟨.SimulationEnd, none, rfl, rfl⟩

theorem resume_tells (loop : Option WatchLoop) (sh : Shared) :
    Tells { sh with continue_command := false, simulation := .running } (resume loop sh) := by
  cases loop with
  | none => exact .inl ⟨rfl, rfl⟩
  | some w => exact watchLoop_tells ..

/-! ## Sessions -/

/-- The message of a stop that has no reply yet. -/
def Session.pending (s : Session) : List DebuggerMessage :=
  if s.shared.stopped then s.shared.reply_message.toList else []

/-- The packet is that of the last stop, whether it has a reply or not. -/
def Heard (s : Session) : Prop := s.data_manager.whoami = lastStop (s.sent ++ s.pending)

variable {cp : Option CPDebuggerInterface}

/-- A simulation that runs, or may go on, has no stop without a reply. -/
theorem not_stopped_of_going (h : (session cv cp).Reachable s)
    (hgoing : s.shared.simulation = .running ∨ s.shared.continue_command = true) :
    s.shared.stopped = false := by
  obtain ⟨ss, rs, hphase⟩ := reachable_phase h
  cases hstopped : s.shared.stopped with
  | false => rfl
  | true =>
    obtain ⟨hworker, hgo⟩ := hphase.waiting_of_stopped hstopped
    rcases hgoing with hrunning | hcommand
    · replace hworker : s.shared.simulation.worker = .waiting := hworker
      rw [hrunning] at hworker
      cases hworker
    · replace hgo : s.shared.continue_command = false := hgo
      rw [hcommand] at hgo
      cases hgo

theorem Heard.tells {sh : Shared} (h : Heard s) (hstopped : s.shared.stopped = false)
    (hthreads : sh.stopped = false) (hwhoami : sh.data_manager.whoami = s.data_manager.whoami)
    (ht : Tells sh sh') : Heard { s with shared := sh' } := by
  have hpending : s.pending = [] := by
    rw [Session.pending, hstopped]
    rfl
  rw [Heard, hpending, List.append_nil] at h
  rcases ht with ⟨hsame, hkept⟩ | ⟨m, loop, hhalt, hm⟩
  · have hstill : sh'.stopped = false := (congrArg Threads.stopped hsame).trans hthreads
    rw [Heard, Session.pending]
    simp only [hstill, Bool.false_eq_true, if_false, List.append_nil]
    exact (hkept.trans hwhoami).trans h
  · have hset : sh'.stopped = true := congrArg Threads.stopped hhalt
    have hmessage : sh'.reply_message = some m := congrArg Threads.reply_message hhalt
    rw [Heard, Session.pending]
    simp only [hset, if_true, hmessage, Option.toList_some]
    rw [lastStop_append, ← h, ← hwhoami]
    exact hm

theorem step_heard {x : Step} (hr : (session cv cp).Reachable s) (h : Heard s)
    (hstep : (session cv cp).step s x = some s') : Heard s' := by
  obtain ⟨hen, hx⟩ := step_eq_some.mp hstep
  cases x with
  | request r =>
    obtain ⟨ms, hms, hnone⟩ := parseRequest_answers hx
    have hwhoami : s'.data_manager.whoami = s.data_manager.whoami :=
      congrArg (fun x => x.1.2.1) (parseRequest_reported hx)
    have hpending : s'.pending = s.pending := by
      have hthreads : s'.shared.threads.stopped = s.shared.threads.stopped ∧
          s'.shared.threads.reply_message = s.shared.threads.reply_message := by
        rcases parseRequest_threads hx with ⟨-, -, -, heq⟩ | ⟨-, -, heq⟩ | ⟨heq, -, -⟩ <;>
          rw [heq] <;> exact ⟨rfl, rfl⟩
      rw [Session.pending, Session.pending]
      exact congrArg₂ (fun b (m : Option DebuggerMessage) => if b = true then m.toList else [])
        hthreads.1 hthreads.2
    rw [Heard, hwhoami, hms, hpending, lastStop_skip hnone]
    exact h
  | start =>
    cases hx
    exact h
  | event e =>
    obtain ⟨sh, hsh, hx⟩ := bind_eq_ok.mp hx
    cases hx
    simp only [enabled, decide_eq_true_eq] at hen
    have hstopped := not_stopped_of_going hr (.inl hen)
    exact h.tells hstopped hstopped rfl (observe_tells hsh)
  | resume =>
    simp only [enabled, decide_eq_true_eq] at hen
    have hstopped := not_stopped_of_going hr (.inr hen.2.2)
    simp only [exec] at hx
    split at hx
    · rename_i loop hloop
      cases hx
      exact h.tells hstopped (show Shared.stopped { s.shared with
        continue_command := false, simulation := .running } = false from hstopped) rfl
        (resume_tells loop s.shared)
    · cases hx
      exact h
  | reply =>
    cases hx
    simp only [enabled, decide_eq_true_eq] at hen
    obtain ⟨m, hm⟩ := reply_of_stopped hr hen.2
    have hpending : s.pending = [m] := by
      rw [Session.pending, hen.2, hm]
      rfl
    have hnone : s.replyStop.pending = [] := rfl
    have hsent : s.replyStop.sent = s.sent ++ [m] := by
      show s.sent ++ [s.shared.reply_message.getD _] = _
      rw [hm]
      rfl
    rw [Heard, hnone, List.append_nil, hsent, ← hpending]
    exact h

theorem heard_of_reachable (h : (session cv cp).Reachable s) : Heard s :=
  System.Reaches.invariant (show Heard (session cv cp).init from rfl)
    (fun _ _ _ hr hs _ hstep => step_heard hr hs hstep) h

/-- **Who am I.** While the server takes requests the answer is the packet of the last message
about a stop at a breakpoint that the client has been sent. -/
theorem whoami_is_last_stop (h : (session cv cp).Reachable s) (hwaiting : s.waiting = false) :
    (session cv cp).step s (.request .WhoAmI) =
      some (s.send (.WhoAmIReply (lastStop s.sent))) := by
  have hstopped : s.shared.stopped = false := by
    obtain ⟨ss, rs, hphase⟩ := reachable_phase h
    refine hphase.not_stopped_of_serving ?_
    simp only [Session.view, Threads.view, hwaiting]
    rfl
  have hpending : s.pending = [] := by
    rw [Session.pending, hstopped]
    rfl
  have hheard := heard_of_reachable h
  rw [Heard, hpending, List.append_nil] at hheard
  refine step_eq_some.mpr ⟨by rw [enabled, hwaiting]; rfl, ?_⟩
  rw [← hheard]
  rfl

/-- A stop at a breakpoint, and then a drop of another packet. -/
def stopThenDrop : List Step :=
  [.request (.SetBreakpoint ⟨[.BREAK_ON_MODULE_WRITE], ["m"], "", ""⟩),
    .request (.BreakOnPacketDrop true), .request (.Run none), .start,
    .event (.data_written "m" ⟨7, true, none⟩ 5), .reply, .request (.Continue none), .resume,
    .event (.data_dropped "n" ⟨8, true, none⟩ "full" 6), .reply]

theorem whoami_is_last_stop_dropped : ∃ s, (session decimal none).replay {} stopThenDrop = some s ∧
    (session decimal none).step s (.request .WhoAmI) = some (s.send (.WhoAmIReply 7)) := by
  have hrun : ((session decimal none).replay {} stopThenDrop).map
      (fun s => (s.waiting, lastStop s.sent)) = some (false, 7) := by decide +kernel
  obtain ⟨s, hs, hfacts⟩ := Option.map_eq_some_iff.mp hrun
  obtain ⟨hwaiting, hlast⟩ := Prod.mk.inj hfacts
  have hwhoami := whoami_is_last_stop (System.reachable_of_replay hs) hwaiting
  rw [hlast] at hwhoami
  exact ⟨s, hs, hwhoami⟩

end Pfp.Db
