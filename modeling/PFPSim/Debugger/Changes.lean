import PFPSim.Debugger.Server
import PFPSim.Debugger.Calls
import Mathlib.Logic.Relation

/-!
# Changes of the data

The operations of the data manager that a session uses, as one relation (`Change`). Every
step of a session is a sequence of them (`exec_changes`), so a part of the data is followed
through a session by what the single operations do to it.
-/

namespace Pfp.Db

open Relation

/-- One operation. A breakpoint that is added has conditions in `P`. -/
inductive Change (P : Conditions → Prop) : DebugDataManager → DebugDataManager → Prop
  | call (dm : DebugDataManager) (c : Call) : Change P dm (perform c dm).2
  | setBreakpoint (dm : DebugDataManager) (br : Breakpoint) (hid : br.id = dm.breakpoint_next_id)
      (hP : P br.conditions) : Change P dm (dm.newBreakpoint.2.addBreakpoint br)
  | addStealth (dm : DebugDataManager) (br : Breakpoint) (hid : br.id = -1)
      (htemp : br.temp = true) (hP : P br.conditions) : Change P dm (dm.addBreakpoint br)
  | removeBreakpoint (dm : DebugDataManager) (id : Int) : Change P dm (dm.removeBreakpoint id)
  | setBreakpointDisabled (dm : DebugDataManager) (id : Int) (disabled : Bool) :
      Change P dm (dm.setBreakpointDisabled id disabled)
  | setWatchpoint (dm : DebugDataManager) (name : String) (disabled : Bool) :
      Change P dm ((dm.newWatchpoint name disabled).2.addWatchpoint
        (dm.newWatchpoint name disabled).1)
  | removeWatchpoint (dm : DebugDataManager) (id : Int) : Change P dm (dm.removeWatchpoint id)
  | setWatchpointDisabled (dm : DebugDataManager) (id : Int) (disabled : Bool) :
      Change P dm (dm.setWatchpointDisabled id disabled)
  | set_whoami (dm : DebugDataManager) (id : Int) : Change P dm (dm.set_whoami id)
  | addIgnoreModule (dm : DebugDataManager) (mod : String) : Change P dm (dm.addIgnoreModule mod)
  | removeIgnoreModule (dm : DebugDataManager) (mod : String) :
      Change P dm (dm.removeIgnoreModule mod)
  | addDroppedPacket (dm : DebugDataManager) (id : Int) (mod reason : String) :
      Change P dm (dm.addDroppedPacket id mod reason)
  | setBreakOnPacketDrop (dm : DebugDataManager) (on : Bool) :
      Change P dm (dm.setBreakOnPacketDrop on)
  | setSimulationTime (dm : DebugDataManager) (time : ℚ) : Change P dm (dm.setSimulationTime time)

abbrev Changes (P : Conditions → Prop) : DebugDataManager → DebugDataManager → Prop :=
  ReflTransGen (Change P)

variable {cv : Conversions} {P : Conditions → Prop}

theorem Changes.of_eq {dm dm' : DebugDataManager} (h : dm' = dm) : Changes P dm dm' :=
  h ▸ ReflTransGen.refl

/-! ## Callbacks -/

namespace Shared

variable (s : Shared)

theorem updateSimulationTime_data_manager (time : ℚ) :
    (s.updateSimulationTime time).data_manager = { s.data_manager with
      simulation_time := (s.updateSimulationTime time).data_manager.simulation_time } := by
  unfold updateSimulationTime
  split <;> rfl

theorem updateSimulationTime_changes (time : ℚ) :
    Changes P s.data_manager (s.updateSimulationTime time).data_manager := by
  unfold updateSimulationTime
  split
  · exact .single (.setSimulationTime _ time)
  · exact .refl

theorem updateTrace_foldl_data_manager (ts : List TraceData) :
    (ts.foldl (fun s t => s.updateTrace t.id t.value) s).data_manager = s.data_manager := by
  induction ts generalizing s with
  | nil => rfl
  | cons t ts ih => exact ih _

end Shared

theorem watchLoop_data_manager (name : String) (old_value new_value : Int) (s : Shared)
    (cursor : Nat) (ws : List Watchpoint) :
    (watchLoop name old_value new_value s cursor ws).data_manager = s.data_manager := by
  induction ws generalizing cursor with
  | nil => rfl
  | cons w ws ih =>
    unfold watchLoop
    split
    · rfl
    · exact ih _

theorem replyHit_changes (a : Access) (b : Breakpoint) (s : Shared) :
    Changes P s.data_manager (replyHit a b s).data_manager := by
  have hwhoami : Changes P s.data_manager (s.data_manager.set_whoami a.packet_id) :=
    .single (.set_whoami _ _)
  unfold replyHit
  split
  · exact hwhoami.tail (.removeBreakpoint _ (-1))
  · exact hwhoami

theorem breakpointStop_changes (a : Access) (i : Nat) (b : Breakpoint) (s : Shared) :
    Changes P s.data_manager (breakpointStop a i b s).data_manager := by
  apply (replyHit_changes a b s).trans
  simp only [breakpointStop]
  split
  · exact .single (.removeBreakpoint _ _)
  · exact .refl

theorem checkBreakpointHit_changes {a : Access} {s s' : Shared}
    (h : checkBreakpointHit cv a s = .ok s') : Changes P s.data_manager s'.data_manager := by
  obtain ⟨hit, -, h⟩ := bind_eq_ok.mp h
  cases hit with
  | none =>
    cases h
    exact .refl
  | some p =>
    simp only at h
    split at h
    · cases h
      exact breakpointStop_changes _ _ _ _
    · cases h
      exact .refl

/-- What a read or write event does before the breakpoints are tested. -/
def Shared.access (s : Shared) (read : Bool) (mod : String) (data : TrType) (time : ℚ) : Shared :=
  let s := s.updateSimulationTime time
  let id := int32 data.id.toNat
  (s.data_manager.updatePacket id data.debug_info mod time read).1.foldl
    (fun s t => s.updateTrace t.id t.value)
    { s with data_manager := (s.data_manager.updatePacket id data.debug_info mod time read).2 }

/-- A read or write event in three cases. -/
theorem data_access_eq (read : Bool) (mod : String) (data : TrType) (time : ℚ) (s : Shared) :
    data_access cv read mod data time s =
      if data.debuggable = false then .ok s
      else if (s.access read mod data time).data_manager.checkIgnoreModules mod = false then
        checkBreakpointHit cv ⟨mod, int32 data.id.toNat, time, read⟩ (s.access read mod data time)
      else .ok (s.access read mod data time) := rfl

theorem Shared.access_changes (s : Shared) (read : Bool) (mod : String) (data : TrType)
    (time : ℚ) : Changes P s.data_manager (s.access read mod data time).data_manager := by
  rw [access, updateTrace_foldl_data_manager]
  exact (s.updateSimulationTime_changes time).tail (.call _ (.updatePacket ..))

theorem data_access_changes {read : Bool} {mod : String} {data : TrType} {time : ℚ}
    {s s' : Shared} (h : data_access cv read mod data time s = .ok s') :
    Changes P s.data_manager s'.data_manager := by
  rw [data_access_eq] at h
  split at h
  · cases h
    exact .refl
  · split at h
    · exact (s.access_changes ..).trans (checkBreakpointHit_changes h)
    · cases h
      exact s.access_changes ..

/-- An update of a counter is the loop over the watchpoints, behind the update of the data. -/
theorem counter_updated_eq {name : String} {value : UInt64} {time : ℚ} {s s' : Shared}
    (h : counter_updated name value time s = .ok s') : ∃ published old_value,
      let t := Shared.updateSimulationTime { s with
        data_manager := (perform (.updateCounter name (int32 value.toNat)) s.data_manager).2
        published } time
      s' = watchLoop name old_value (int32 value.toNat) t 0 t.data_manager.watchpoint_list := by
  obtain ⟨dm, hdm, h⟩ := bind_eq_ok.mp h
  cases h
  -- publishing an update of a trace changes nothing else
  have htrace : ∃ published, (if s.data_manager.getCounterTraceId name ≥ 0 then
      s.updateTrace (s.data_manager.getCounterTraceId name) value.toNat else s) =
      { s with published } := by
    split
    · exact ⟨_, rfl⟩
    · exact ⟨_, rfl⟩
  obtain ⟨published, htrace⟩ := htrace
  rw [htrace, ofOption_eq_ok] at hdm
  have hcall : (perform (.updateCounter name (int32 value.toNat)) s.data_manager).2 = dm := by
    simp only [perform, hdm]
  refine ⟨published, if s.data_manager.getCounterValue name = -1 then 0
    else s.data_manager.getCounterValue name, ?_⟩
  rw [htrace, hcall]

theorem counter_updated_changes {name : String} {value : UInt64} {time : ℚ} {s s' : Shared}
    (h : counter_updated name value time s = .ok s') :
    Changes P s.data_manager s'.data_manager := by
  obtain ⟨published, old_value, rfl⟩ := counter_updated_eq h
  rw [watchLoop_data_manager]
  refine .head (.call _ (.updateCounter name (int32 value.toNat))) ?_
  exact Shared.updateSimulationTime_changes { s with
    data_manager := (perform (.updateCounter name (int32 value.toNat)) s.data_manager).2
    published } time

theorem data_dropped_changes (mod : String) (data : TrType) (reason : String) (time : ℚ)
    (s : Shared) : Changes P s.data_manager (data_dropped mod data reason time s).data_manager := by
  unfold data_dropped
  split
  · exact .refl
  · have hdropped := (s.updateSimulationTime_changes (P := P) time).tail
      (.addDroppedPacket _ (int32 data.id.toNat) mod reason)
    simp only
    split
    · exact hdropped
    · exact hdropped

theorem observe_changes {e : Event} {s s' : Shared} (h : observe cv e s = .ok s') :
    Changes P s.data_manager s'.data_manager := by
  cases e with
  | counter_added name time =>
    cases h
    exact .head (.call _ (.addCounter name)) (Shared.updateSimulationTime_changes
      { s with data_manager := s.data_manager.addCounter name } time)
  | counter_removed name time =>
    cases h
    exact .head (.call _ (.removeCounter name)) (Shared.updateSimulationTime_changes
      { s with data_manager := s.data_manager.removeCounter name } time)
  | counter_updated name value time => exact counter_updated_changes h
  | data_written mod data time =>
    exact data_access_changes (show data_access cv false mod data time s = .ok s' from h)
  | data_read mod data time =>
    exact data_access_changes (show data_access cv true mod data time s = .ok s' from h)
  | data_dropped mod data reason time =>
    cases h
    exact data_dropped_changes ..
  | activity kind time =>
    cases h
    exact s.updateSimulationTime_changes time
  | simulation_end =>
    cases h
    exact .refl

theorem resume_data_manager (loop : Option WatchLoop) (s : Shared) :
    (resume loop s).data_manager = s.data_manager := by
  cases loop with
  | none => rfl
  | some w => exact watchLoop_data_manager ..

/-! ## Requests -/

/-- The conditions of the breakpoints that a request adds. -/
def Adds (cv : Conversions) (s : Session) : Request → Conditions → Prop
  | .SetBreakpoint msg, m => ∃ br br' : Breakpoint,
      setConditions msg.condition_list msg.value_list br = .ok br' ∧
        br.conditions = (fun _ => none) ∧ m = br'.conditions
  | .Run time_ns, m => s.run_called = false ∧ ∃ t, requestTime cv time_ns = .ok t ∧ t ≠ -1 ∧
      m = (stealthBreakpoint .BREAK_AT_TIME
        (cv.to_string (s.data_manager.simulation_time + t))).conditions
  | .Continue time_ns, m => ∃ t, requestTime cv time_ns = .ok t ∧ t ≠ -1 ∧
      m = (stealthBreakpoint .BREAK_AT_TIME
        (cv.to_string (s.data_manager.simulation_time + t))).conditions
  | .Next, m =>
      m = (stealthBreakpoint .BREAK_ON_PACKET_ID (toString s.data_manager.whoami)).conditions
  | _, _ => False

theorem setConditions_id {cs : List BreakpointCondition} {vs : List String} {br br' : Breakpoint}
    (h : setConditions cs vs br = .ok br') : br'.id = br.id := by
  induction cs generalizing vs br with
  | nil =>
    cases h
    rfl
  | cons c cs ih =>
    cases vs with
    | nil => cases h
    | cons v vs =>
      rw [setConditions] at h
      rw [ih h]
      split <;> rfl

theorem breakAfter_changes {s : Session} {time : ℚ}
    (hP : time ≠ -1 → P (stealthBreakpoint .BREAK_AT_TIME
      (cv.to_string (s.data_manager.simulation_time + time))).conditions) :
    Changes P s.data_manager (breakAfter cv time s).data_manager := by
  unfold breakAfter
  split
  · exact .single (.addStealth _ _ rfl rfl (hP ‹_›))
  · exact .refl

theorem handleId_changes {id : String} {f : Int → DebugDataManager} {s s' : Session}
    (hf : ∀ x, Changes P s.data_manager (f x)) (h : handleId id f s = .ok s') :
    Changes P s.data_manager s'.data_manager := by
  obtain ⟨x, -, h⟩ := bind_eq_ok.mp h
  cases h
  exact hf x

theorem handleSetBreakpoint_changes {msg : SetBreakpointMsg} {s s' : Session}
    (h : handleSetBreakpoint msg s = .ok s') :
    Changes (Adds cv s (.SetBreakpoint msg)) s.data_manager s'.data_manager := by
  obtain ⟨br, hbr, h⟩ := bind_eq_ok.mp h
  cases h
  exact .single (.setBreakpoint _ br (setConditions_id hbr) ⟨_, br, hbr, rfl, rfl⟩)

theorem handleStartTracing_changes (msg : StartTracingMsg) (s : Session) :
    Changes P s.data_manager (handleStartTracing msg s).sendRequestFailed.data_manager := by
  have hmanage : ∀ (id : Int) (dm : DebugDataManager), Changes P s.data_manager dm →
      Changes P s.data_manager ((if id < 0 then (s.manage dm).sendRequestFailed
        else (s.manage dm).send (.StartTracingStatus id)).sendRequestFailed).data_manager := by
    intro id dm hdm
    split <;> exact hdm
  simp only [handleStartTracing]
  split
  · exact hmanage _ _ (.single (.call _ (.addCounterTrace msg.name)))
  · exact hmanage _ _ (.single (.call _ (.addLatencyTrace msg.name msg.end_name)))
  · exact hmanage _ _ (.single (.call _ (.addThroughputTrace msg.name)))

theorem handleBacktrace_data_manager {packet_id : Option String} {s s' : Session}
    (h : handleBacktrace packet_id s = .ok s') : s'.data_manager = s.data_manager := by
  obtain ⟨id, -, h⟩ := bind_eq_ok.mp h
  split at h <;> cases h <;> rfl

theorem handlePacketValue_data_manager (id : Int) (value : DebugInfo → DebuggerMessage)
    (s : Session) : (handlePacketValue id value s).data_manager = s.data_manager := by
  simp only [handlePacketValue]
  split
  · split <;> rfl
  · rfl

/-- What a request does to the data, with the breakpoints that it adds. -/
theorem parseRequest_changes {r : Request} {s s' : Session} (h : parseRequest cv r s = .ok s') :
    Changes (Adds cv s r) s.data_manager s'.data_manager := by
  cases r with
  | Run time_ns =>
    simp only [parseRequest] at h
    split at h
    · rename_i hrun
      obtain ⟨t, ht, h⟩ := bind_eq_ok.mp h
      cases h
      exact breakAfter_changes (s := { s with run_called := true })
        fun hne => ⟨hrun, t, ht, hne, rfl⟩
    · cases h
      exact .refl
  | Continue time_ns =>
    obtain ⟨t, ht, h⟩ := bind_eq_ok.mp h
    cases h
    exact breakAfter_changes fun hne => ⟨t, ht, hne, rfl⟩
  | Next =>
    cases h
    exact .single (.addStealth _ _ rfl rfl rfl)
  | SetBreakpoint msg => exact handleSetBreakpoint_changes h
  | RemoveBreakpoint id =>
    exact handleId_changes (f := s.data_manager.removeBreakpoint)
      (fun x => .single (.removeBreakpoint _ x)) h
  | EnableDisableBreakpoint id enable =>
    refine handleId_changes (fun x => ?_) (show handleId id _ s = .ok s' from h)
    split
    · exact .single (.setBreakpointDisabled _ x true)
    · exact .single (.setBreakpointDisabled _ x false)
  | SetWatchpoint name disabled =>
    cases h
    exact .single (.setWatchpoint _ name _)
  | RemoveWatchpoint id =>
    exact handleId_changes (f := s.data_manager.removeWatchpoint)
      (fun x => .single (.removeWatchpoint _ x)) h
  | EnableDisableWatchpoint id enable =>
    refine handleId_changes (fun x => ?_) (show handleId id _ s = .ok s' from h)
    split
    · exact .single (.setWatchpointDisabled _ x true)
    · exact .single (.setWatchpointDisabled _ x false)
  | IgnoreModule mod delete =>
    cases h
    show Changes _ s.data_manager (if delete then s.data_manager.removeIgnoreModule mod
      else s.data_manager.addIgnoreModule mod)
    split
    · exact .single (.removeIgnoreModule _ mod)
    · exact .single (.addIgnoreModule _ mod)
  | BreakOnPacketDrop on =>
    cases h
    exact .single (.setBreakOnPacketDrop _ on)
  | StartTracing msg =>
    cases h
    exact handleStartTracing_changes msg s
  | Backtrace packet_id => exact Changes.of_eq (handleBacktrace_data_manager h)
  | CPCommand command =>
    obtain ⟨cp, -, h⟩ := bind_eq_ok.mp h
    cases h
    exact .refl
  | GetTableEntries =>
    obtain ⟨cp, -, h⟩ := bind_eq_ok.mp h
    cases h
    exact .refl
  | GetPacketField id field_name =>
    cases h
    exact Changes.of_eq (handlePacketValue_data_manager ..)
  | GetRawPacket id =>
    cases h
    exact Changes.of_eq (handlePacketValue_data_manager ..)
  | GetParsedPacket id =>
    cases h
    exact Changes.of_eq (handlePacketValue_data_manager ..)
  | _ =>
    cases h
    exact .refl

/-- **Changes.** A step of a session is a sequence of operations on the data. -/
theorem exec_changes {x : Step} {s s' : Session} (h : exec cv s x = .ok s') :
    Changes (fun m => ∃ r, x = .request r ∧ Adds cv s r m) s.data_manager s'.data_manager := by
  cases x with
  | request r =>
    refine ReflTransGen.mono ?_ _ _ (parseRequest_changes h)
    intro dm dm' hchange
    cases hchange with
    | setBreakpoint br hid hP => exact .setBreakpoint _ br hid ⟨r, rfl, hP⟩
    | addStealth br hid htemp hP => exact .addStealth _ br hid htemp ⟨r, rfl, hP⟩
    | _ => constructor
  | start =>
    cases h
    exact .refl
  | event e =>
    obtain ⟨t, ht, h⟩ := bind_eq_ok.mp h
    cases h
    exact observe_changes ht
  | resume =>
    simp only [exec] at h
    split at h
    · cases h
      exact Changes.of_eq (resume_data_manager _ _)
    · cases h
      exact .refl
  | reply =>
    cases h
    exact .refl

theorem step_eq_some {cp : Option CPDebuggerInterface} {x : Step} {s s' : Session} :
    (session cv cp).step s x = some s' ↔ enabled s x = true ∧ exec cv s x = .ok s' := by
  simp only [session]
  split
  · rename_i hen
    cases hx : exec cv s x <;> simp [hen, Except.toOption]
  · rename_i hen
    simp [hen]

end Pfp.Db
