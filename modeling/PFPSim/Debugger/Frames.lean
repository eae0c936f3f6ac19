import PFPSim.Debugger.Queries
import PFPSim.Debugger.Stops

/-!
# What a step leaves alone

The fields that requests and callbacks change, said once for each of them. `Past` is what
depends on the steps alone (`step_past`), and `Records` what only the calls of the data manager
change (`parseRequest_reported`).
-/

namespace Pfp.Db

open Runs

/-- What the steps of a session leave behind. -/
structure Past where
  time : ℚ := 0
  dropped : List (Int × String × String) := []
  ignored : List String := []
  break_on_drop : Bool := false

namespace Past

def ignore (p : Past) (mod : String) (delete : Bool) : Past :=
  { p with ignored := if delete then p.ignored.erase mod
      else if mod ∈ p.ignored then p.ignored else p.ignored ++ [mod] }

def request (p : Past) : Request → Past
  | .IgnoreModule mod delete => p.ignore mod delete
  | .BreakOnPacketDrop on => { p with break_on_drop := on }
  | _ => p

def advance (p : Past) (time : ℚ) : Past := { p with time := max p.time time }

def addDrop (p : Past) (d : Int × String × String) : Past := { p with dropped := p.dropped ++ [d] }

def event (p : Past) : Event → Past
  | .counter_added _ time | .counter_removed _ time | .counter_updated _ _ time
  | .activity _ time => p.advance time
  | .data_written _ data time | .data_read _ data time =>
    if data.debuggable then p.advance time else p
  | .data_dropped mod data reason time =>
    if data.debuggable then (p.advance time).addDrop (int32 data.id.toNat, mod, reason) else p
  | .simulation_end => p

def after (p : Past) : Step → Past
  | .request r => p.request r
  | .event e => p.event e
  | _ => p

end Past

def DebugDataManager.past (dm : DebugDataManager) : Past where
  time := dm.simulation_time
  dropped := dm.dropped_packet_list
  ignored := dm.ignore_module_list
  break_on_drop := dm.break_packet_dropped

/-- What the calls of the data manager work on. -/
structure Records where
  counters : Map String Int
  trace_id : Int
  counter_traces : Map String Int
  latency_read_triggers : Map String (List LatencyReadTrigger)
  latency_write_triggers : Map String (Map Int (List LatencyWriteTrigger))
  throughput_triggers : Map String ThroughputTrigger
  packet_list : Map Int DebuggerPacket

def DebugDataManager.records (dm : DebugDataManager) : Records :=
  ⟨dm.counters, dm.trace_id, dm.counter_traces, dm.latency_read_triggers,
    dm.latency_write_triggers, dm.throughput_triggers, dm.packet_list⟩

variable {cv : Conversions} {s s' : Session} {sh sh' : Shared}

/-! ## Callbacks -/

theorem updateSimulationTime_past (sh : Shared) (time : ℚ) :
    (sh.updateSimulationTime time).data_manager.past = sh.data_manager.past.advance time := by
  unfold Shared.updateSimulationTime
  split
  · rename_i hlt
    have hmax : max sh.data_manager.past.time time = time := max_eq_right (le_of_lt hlt)
    rw [Past.advance, hmax]
    rfl
  · rename_i hle
    have hmax : max sh.data_manager.past.time time = sh.data_manager.past.time :=
      max_eq_left (not_lt.mp hle)
    rw [Past.advance, hmax]

theorem updateSimulationTime_records (sh : Shared) (time : ℚ) :
    (sh.updateSimulationTime time).data_manager.records = sh.data_manager.records := by
  rw [Shared.updateSimulationTime_data_manager]
  rfl

theorem updateSimulationTime_published (sh : Shared) (time : ℚ) :
    (sh.updateSimulationTime time).published = sh.published := by
  unfold Shared.updateSimulationTime
  split <;> rfl

theorem updateSimulationTime_whoami (sh : Shared) (time : ℚ) :
    (sh.updateSimulationTime time).data_manager.whoami = sh.data_manager.whoami := by
  rw [Shared.updateSimulationTime_data_manager]
  rfl

theorem perform_past (c : Call) (dm : DebugDataManager) : (perform c dm).2.past = dm.past := by
  rw [perform_frame]
  rfl

theorem perform_whoami (c : Call) (dm : DebugDataManager) :
    (perform c dm).2.whoami = dm.whoami := by
  rw [perform_frame]
  rfl

/-- What a stop at a breakpoint leaves alone. -/
def Shared.beside (sh : Shared) : Past × Records × List TracingUpdate :=
  (sh.data_manager.past, sh.data_manager.records, sh.published)

theorem breakpointStop_beside (a : Access) (i : Nat) (b : Breakpoint) (sh : Shared) :
    (breakpointStop a i b sh).beside = sh.beside := by
  have hreply : (replyHit a b sh).beside = sh.beside := by
    unfold replyHit
    split <;> rfl
  rw [← hreply]
  simp only [breakpointStop]
  split <;> rfl

theorem checkBreakpointHit_beside {a : Access} (h : checkBreakpointHit cv a sh = .ok sh') :
    sh'.beside = sh.beside := by
  obtain ⟨hit, -, h⟩ := bind_eq_ok.mp h
  cases hit with
  | none =>
    cases h
    rfl
  | some p =>
    simp only at h
    split at h
    · cases h
      exact breakpointStop_beside ..
    · cases h
      rfl

theorem watchLoop_published (name : String) (old_value new_value : Int) (sh : Shared)
    (cursor : Nat) (ws : List Watchpoint) :
    (watchLoop name old_value new_value sh cursor ws).published = sh.published := by
  induction ws generalizing cursor with
  | nil => rfl
  | cons w ws ih =>
    unfold watchLoop
    split
    · rfl
    · exact ih _

/-- A call with the time of its event. -/
theorem Shared.access_data_manager (sh : Shared) (read : Bool) (mod : String) (data : TrType)
    (time : ℚ) : (sh.access read mod data time).data_manager =
      (perform (.updatePacket (int32 data.id.toNat) data.debug_info mod time read)
        (sh.updateSimulationTime time).data_manager).2 := by
  rw [Shared.access, Shared.updateTrace_foldl_data_manager]
  rfl

theorem updateTrace_foldl_published (ts : List TraceData) (sh : Shared) :
    (ts.foldl (fun s t => s.updateTrace t.id t.value) sh).published = sh.published ++
      ts.map fun t => ⟨t.id, sh.data_manager.simulation_time.floor.toNat, t.value⟩ := by
  induction ts generalizing sh with
  | nil => exact (List.append_nil _).symm
  | cons t ts ih =>
    rw [List.foldl_cons, ih, List.map_cons, List.append_cons]
    rfl

/-- The updates of a call are published with the time of its event, or a later one. -/
theorem access_published (sh : Shared) (read : Bool) (mod : String) (data : TrType) (time : ℚ) :
    (sh.access read mod data time).published = sh.published ++
      ((sh.updateSimulationTime time).data_manager.updatePacket (int32 data.id.toNat)
        data.debug_info mod time read).1.map
          fun t => ⟨t.id, (max sh.data_manager.simulation_time time).floor.toNat, t.value⟩ := by
  have htime : (perform (.updatePacket (int32 data.id.toNat) data.debug_info mod time read)
      (sh.updateSimulationTime time).data_manager).2.simulation_time =
        max sh.data_manager.simulation_time time :=
    congrArg Past.time ((perform_past ..).trans (updateSimulationTime_past sh time))
  refine (updateTrace_foldl_published ..).trans ?_
  rw [← htime, updateSimulationTime_published]
  rfl

theorem access_past (sh : Shared) (read : Bool) (mod : String) (data : TrType) (time : ℚ) :
    (sh.access read mod data time).data_manager.past = sh.data_manager.past.advance time := by
  rw [Shared.access_data_manager, perform_past, updateSimulationTime_past]

theorem access_whoami (sh : Shared) (read : Bool) (mod : String) (data : TrType) (time : ℚ) :
    (sh.access read mod data time).data_manager.whoami = sh.data_manager.whoami := by
  rw [Shared.access_data_manager, perform_whoami, updateSimulationTime_whoami]

theorem data_access_past {read : Bool} {mod : String} {data : TrType} {time : ℚ}
    (h : data_access cv read mod data time sh = .ok sh') : sh'.data_manager.past =
      if data.debuggable then sh.data_manager.past.advance time else sh.data_manager.past := by
  rw [data_access_eq] at h
  split at h
  · rename_i hdata
    cases h
    rw [hdata]
    rfl
  · rename_i hdata
    rw [if_pos (by simpa using hdata), ← access_past sh read mod data time]
    split at h
    · exact congrArg Prod.fst (checkBreakpointHit_beside h)
    · cases h
      rfl

theorem counter_updated_past {name : String} {value : UInt64} {time : ℚ}
    (h : counter_updated name value time sh = .ok sh') :
    sh'.data_manager.past = sh.data_manager.past.advance time := by
  obtain ⟨published, old_value, rfl⟩ := counter_updated_eq h
  rw [watchLoop_data_manager, updateSimulationTime_past, perform_past]

theorem data_dropped_data_manager {data : TrType} (hdata : data.debuggable = true) (mod : String)
    (reason : String) (time : ℚ) (sh : Shared) :
    (data_dropped mod data reason time sh).data_manager =
      (sh.updateSimulationTime time).data_manager.addDroppedPacket (int32 data.id.toNat) mod
        reason := by
  unfold data_dropped
  rw [hdata]
  simp only [Bool.true_eq_false, if_false]
  split <;> rfl

theorem data_dropped_of_not_debuggable {data : TrType} (hdata : data.debuggable = false)
    (mod reason : String) (time : ℚ) (sh : Shared) : data_dropped mod data reason time sh = sh :=
  if_pos hdata

theorem data_dropped_past (mod : String) (data : TrType) (reason : String) (time : ℚ)
    (sh : Shared) : (data_dropped mod data reason time sh).data_manager.past =
      sh.data_manager.past.event (.data_dropped mod data reason time) := by
  rw [Past.event]
  cases hdata : data.debuggable with
  | false =>
    rw [data_dropped_of_not_debuggable hdata]
    rfl
  | true =>
    rw [data_dropped_data_manager hdata, if_pos rfl, ← updateSimulationTime_past]
    rfl

theorem data_dropped_records (mod : String) (data : TrType) (reason : String) (time : ℚ)
    (sh : Shared) :
    (data_dropped mod data reason time sh).data_manager.records = sh.data_manager.records := by
  cases hdata : data.debuggable with
  | false => rw [data_dropped_of_not_debuggable hdata]
  | true =>
    rw [data_dropped_data_manager hdata, ← updateSimulationTime_records sh time]
    rfl

theorem data_dropped_published (mod : String) (data : TrType) (reason : String) (time : ℚ)
    (sh : Shared) : (data_dropped mod data reason time sh).published = sh.published := by
  rw [← updateSimulationTime_published sh time]
  unfold data_dropped
  split
  · exact (updateSimulationTime_published sh time).symm
  · simp only
    split <;> rfl

/-- A callback keeps the latest time and adds its drop. -/
theorem observe_past {e : Event} (h : observe cv e sh = .ok sh') :
    sh'.data_manager.past = sh.data_manager.past.event e := by
  cases e with
  | counter_added name time =>
    cases h
    exact updateSimulationTime_past _ time
  | counter_removed name time =>
    cases h
    exact updateSimulationTime_past _ time
  | counter_updated name value time => exact counter_updated_past h
  | data_written mod data time =>
    exact data_access_past (show data_access cv false mod data time sh = .ok sh' from h)
  | data_read mod data time =>
    exact data_access_past (show data_access cv true mod data time sh = .ok sh' from h)
  | data_dropped mod data reason time =>
    cases h
    exact data_dropped_past mod data reason time sh
  | activity kind time =>
    cases h
    exact updateSimulationTime_past _ time
  | simulation_end =>
    cases h
    rfl

/-! ## Requests -/

/-- The call that starts a trace. -/
def StartTracingMsg.call (msg : StartTracingMsg) : Call :=
  match msg.getType with
  | .COUNTER => .addCounterTrace msg.name
  | .LATENCY => .addLatencyTrace msg.name msg.end_name
  | .THROUGHPUT => .addThroughputTrace msg.name

/-- The data manager behind the call of a request, if it makes one. -/
def DebugDataManager.requested (dm : DebugDataManager) : Request → DebugDataManager
  | .StartTracing msg => (perform msg.call dm).2
  | _ => dm

theorem handleStartTracing_eq (msg : StartTracingMsg) (s : Session) :
    ∃ id, (perform msg.call s.data_manager).1 = .id id ∧ handleStartTracing msg s =
      if id < 0 then (s.manage (s.data_manager.requested (.StartTracing msg))).sendRequestFailed
      else (s.manage (s.data_manager.requested (.StartTracing msg))).send
        (.StartTracingStatus id) := by
  rw [handleStartTracing, DebugDataManager.requested, StartTracingMsg.call]
  cases msg.getType <;> exact ⟨_, rfl, rfl⟩

/-- What is reported beside the answers. -/
def DebugDataManager.reported (dm : DebugDataManager) : Past × Int × Records :=
  (dm.past, dm.whoami, dm.records)

def Session.reported (s : Session) : (Past × Int × Records) × List TracingUpdate :=
  (s.data_manager.reported, s.shared.published)

theorem addBreakpoint_reported (dm : DebugDataManager) (br : Breakpoint) :
    (dm.addBreakpoint br).reported = dm.reported := by
  unfold DebugDataManager.addBreakpoint
  split <;> rfl

theorem manage_reported {dm : DebugDataManager} (h : dm.reported = s.data_manager.reported) :
    (s.manage dm).reported = s.reported := congrArg (·, s.shared.published) h

theorem breakAfter_reported (cv : Conversions) (time : ℚ) (s : Session) :
    (breakAfter cv time s).reported = s.reported := by
  unfold breakAfter
  split
  · exact manage_reported (addBreakpoint_reported _ _)
  · rfl

theorem handleId_reported {id : String} {f : Int → DebugDataManager}
    (hf : ∀ x, (f x).reported = s.data_manager.reported) (h : handleId id f s = .ok s') :
    s'.reported = s.reported := by
  obtain ⟨x, -, h⟩ := bind_eq_ok.mp h
  cases h
  exact manage_reported (hf x)

/-- What requests change: two of them the past, and one the traces. -/
theorem parseRequest_reported {r : Request} (h : parseRequest cv r s = .ok s') :
    s'.reported = ((s.data_manager.past.request r, s.data_manager.whoami,
      (s.data_manager.requested r).records), s.shared.published) := by
  cases hr : asks r with
  | true =>
    rw [parseRequest_of_asks hr h]
    cases r <;> first | rfl | cases hr
  | false =>
    cases r with
    | Run time_ns =>
      simp only [parseRequest] at h
      split at h
      · obtain ⟨t, -, h⟩ := bind_eq_ok.mp h
        cases h
        exact breakAfter_reported cv t { s with run_called := true }
      · cases h
        rfl
    | Continue time_ns =>
      obtain ⟨t, -, h⟩ := bind_eq_ok.mp h
      cases h
      exact breakAfter_reported cv t s
    | Next =>
      cases h
      exact (breakAfter_reported cv (-1) _).trans (manage_reported (addBreakpoint_reported _ _))
    | SetBreakpoint msg =>
      obtain ⟨br, -, h⟩ := bind_eq_ok.mp h
      cases h
      exact manage_reported (addBreakpoint_reported _ _)
    | RemoveBreakpoint id =>
      exact handleId_reported (f := s.data_manager.removeBreakpoint) (fun _ => rfl) h
    | EnableDisableBreakpoint id enable =>
      refine handleId_reported (fun x => ?_) (show handleId id _ s = .ok s' from h)
      split <;> rfl
    | SetWatchpoint name disabled =>
      cases h
      refine manage_reported ?_
      unfold DebugDataManager.addWatchpoint
      split <;> rfl
    | RemoveWatchpoint id =>
      exact handleId_reported (f := s.data_manager.removeWatchpoint) (fun _ => rfl) h
    | EnableDisableWatchpoint id enable =>
      refine handleId_reported (fun x => ?_) (show handleId id _ s = .ok s' from h)
      split <;> rfl
    | IgnoreModule mod delete =>
      cases h
      cases delete with
      | true => rfl
      | false =>
        have hignore : (s.data_manager.addIgnoreModule mod).reported =
            (s.data_manager.past.ignore mod false, s.data_manager.whoami,
              s.data_manager.records) := by
          unfold DebugDataManager.addIgnoreModule Past.ignore
          by_cases hmem : mod ∈ s.data_manager.past.ignored
          · rw [if_pos (show mod ∈ s.data_manager.ignore_module_list from hmem), if_pos hmem]
            rfl
          · rw [if_neg (show mod ∉ s.data_manager.ignore_module_list from hmem), if_neg hmem]
            rfl
        exact congrArg (·, s.shared.published) hignore
    | BreakOnPacketDrop on =>
      cases h
      rfl
    | CPCommand command =>
      obtain ⟨cp, -, h⟩ := bind_eq_ok.mp h
      cases h
      rfl
    | StartTracing msg =>
      cases h
      obtain ⟨id, -, heq⟩ := handleStartTracing_eq msg s
      have hreported : (s.data_manager.requested (.StartTracing msg)).reported =
          (s.data_manager.past, s.data_manager.whoami,
            (s.data_manager.requested (.StartTracing msg)).records) :=
        Prod.ext (perform_past ..) (Prod.ext (perform_whoami ..) rfl)
      rw [heq]
      split <;> exact congrArg (·, s.shared.published) hreported
    | _ => cases hr

/-! ## Steps -/

variable {cp : Option CPDebuggerInterface}

theorem request_past {r : Request} (h : parseRequest cv r s = .ok s') :
    s'.data_manager.past = s.data_manager.past.request r :=
  congrArg (fun x => x.1.1) (parseRequest_reported h)

theorem step_past {x : Step} (h : (session cv cp).step s x = some s') :
    s'.data_manager.past = s.data_manager.past.after x := by
  obtain ⟨-, h⟩ := step_eq_some.mp h
  cases x with
  | request r => exact request_past h
  | start =>
    cases h
    rfl
  | event e =>
    obtain ⟨sh, hsh, h⟩ := bind_eq_ok.mp h
    cases h
    exact observe_past hsh
  | resume =>
    simp only [exec] at h
    split at h
    · cases h
      exact congrArg DebugDataManager.past (resume_data_manager _ _)
    · cases h
      rfl
  | reply =>
    cases h
    rfl

end Pfp.Db
