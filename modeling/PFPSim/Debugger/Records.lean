import PFPSim.Debugger.Frames

/-!
# The records of a session

The counters, traces and packets of a session against the machine of
`PFPSim.Debugger.Calls`. A step makes one call at most (`Step.call`), and the calls work on
the records alone (`perform_on`). So the records behind a session are those behind its calls,
and what it answers and publishes next is what the machine answers (`session_refines`).
-/

namespace Pfp.Db

open Runs

/-! ## Calls -/

namespace DebugDataManager

variable (dm rest : DebugDataManager)

/-- The records of a data manager, with all else from `rest`. -/
def on : DebugDataManager :=
  { rest with
    counters := dm.counters
    trace_id := dm.trace_id
    counter_traces := dm.counter_traces
    latency_read_triggers := dm.latency_read_triggers
    latency_write_triggers := dm.latency_write_triggers
    throughput_triggers := dm.throughput_triggers
    packet_list := dm.packet_list }

variable {dm rest} in
theorem on_of_records (h : rest.records = dm.records) : dm.on rest = rest := by
  cases dm
  cases rest
  simp only [records, Records.mk.injEq] at h
  obtain ⟨rfl, rfl, rfl, rfl, rfl, rfl, rfl⟩ := h
  rfl

theorem armLatency_foldl_on (id : Int) (time : ℚ) (ts : List LatencyReadTrigger) :
    ts.foldl (fun dm t => dm.armLatency id time t) (dm.on rest) =
      (ts.foldl (fun dm t => dm.armLatency id time t) dm).on rest := by
  induction ts generalizing dm with
  | nil => rfl
  | cons t ts ih => exact ih (dm.armLatency id time t)

theorem latencyUpdates_on (id : Int) (mod : String) (time : ℚ) :
    (dm.on rest).latencyUpdates id mod time =
      ((dm.latencyUpdates id mod time).1, (dm.latencyUpdates id mod time).2.on rest) := by
  simp only [latencyUpdates, on]
  cases dm.latency_write_triggers[mod]? with
  | none => rfl
  | some packets =>
    cases hid : packets[id]? with
    | none => simp only [hid]
    | some triggers => simp only [hid]

theorem throughputUpdates_on (mod : String) (time : ℚ) :
    (dm.on rest).throughputUpdates mod time =
      ((dm.throughputUpdates mod time).1, (dm.throughputUpdates mod time).2.on rest) := by
  simp only [throughputUpdates, on]
  cases dm.throughput_triggers[mod]? with
  | none => rfl
  | some t => rfl

theorem updatePacket_on (id : Int) (di : Option DebugInfo) (mod : String) (time : ℚ)
    (read : Bool) : (dm.on rest).updatePacket id di mod time read =
      ((dm.updatePacket id di mod time read).1,
        (dm.updatePacket id di mod time read).2.on rest) := by
  have hstore : (dm.on rest).store id di mod time read = (dm.store id di mod time read).on rest :=
    rfl
  cases read with
  | true =>
    rw [updatePacket_read, updatePacket_read, hstore, armLatency_foldl_on]
    rfl
  | false =>
    rw [updatePacket_write, updatePacket_write]
    simp only [hstore, latencyUpdates_on, throughputUpdates_on]

theorem updateCounter_on (name : String) (val : Int) :
    (dm.on rest).updateCounter name val = (dm.updateCounter name val).map (·.on rest) := by
  unfold updateCounter
  by_cases hcounter : dm.counters[name]?.isSome = true
  · rw [if_pos (show (dm.on rest).counters[name]?.isSome = true from hcounter), if_pos hcounter]
    rfl
  · rw [if_neg (show ¬ (dm.on rest).counters[name]?.isSome = true from hcounter), if_neg hcounter]
    rfl

theorem addCounterTrace_on (name : String) : (dm.on rest).addCounterTrace name =
    ((dm.addCounterTrace name).1, (dm.addCounterTrace name).2.on rest) := by
  unfold addCounterTrace
  by_cases hcounter : dm.counters[name]?.isNone = true
  · rw [if_pos (show (dm.on rest).counters[name]?.isNone = true from hcounter), if_pos hcounter]
  · rw [if_neg (show ¬ (dm.on rest).counters[name]?.isNone = true from hcounter), if_neg hcounter]
    by_cases htrace : dm.counter_traces[name]?.isSome = true
    · rw [if_pos (show (dm.on rest).counter_traces[name]?.isSome = true from htrace),
        if_pos htrace]
    · rw [if_neg (show ¬ (dm.on rest).counter_traces[name]?.isSome = true from htrace),
        if_neg htrace]
      rfl

end DebugDataManager

/-- A call works on the records alone. -/
theorem perform_on (c : Call) (dm rest : DebugDataManager) :
    perform c (dm.on rest) = ((perform c dm).1, (perform c dm).2.on rest) := by
  cases c with
  | updateCounter name val =>
    simp only [perform, DebugDataManager.updateCounter_on]
    cases dm.updateCounter name val with
    | none => rfl
    | some updated => rfl
  | addCounterTrace name => simp only [perform, DebugDataManager.addCounterTrace_on]
  | updatePacket id di mod time read => simp only [perform, DebugDataManager.updatePacket_on]
  | addCounter name | removeCounter name | addLatencyTrace from_module_name to_module_name
  | addThroughputTrace module_name => rfl

/-- Calls on the same records have the same answer, and lead to the same records. -/
theorem perform_congr {dm dm' : DebugDataManager} (h : dm'.records = dm.records) (c : Call) :
    (perform c dm').1 = (perform c dm).1 ∧
      (perform c dm').2.records = (perform c dm).2.records := by
  have hperform := perform_on c dm dm'
  rw [DebugDataManager.on_of_records h] at hperform
  rw [hperform]
  exact ⟨rfl, rfl⟩

/-! ## Steps -/

/-- The call that a callback makes. -/
def Event.call : Event → Option Call
  | .counter_added name _ => some (.addCounter name)
  | .counter_removed name _ => some (.removeCounter name)
  | .counter_updated name value _ => some (.updateCounter name (int32 value.toNat))
  | .data_written mod data time =>
    if data.debuggable then
      some (.updatePacket (int32 data.id.toNat) data.debug_info mod time false) else none
  | .data_read mod data time =>
    if data.debuggable then
      some (.updatePacket (int32 data.id.toNat) data.debug_info mod time true) else none
  | _ => none

def Step.call : Step → Option Call
  | .request (.StartTracing msg) => some msg.call
  | .event e => e.call
  | _ => none

/-- The data manager behind a call, if there is one. -/
def DebugDataManager.called (dm : DebugDataManager) (c : Option Call) : DebugDataManager :=
  (c.map fun c => (perform c dm).2).getD dm

variable {cv : Conversions} {cp : Option CPDebuggerInterface} {s s' : Session} {sh sh' : Shared}

theorem called_congr {dm dm' : DebugDataManager} (h : dm'.records = dm.records)
    (c : Option Call) : (dm'.called c).records = (dm.called c).records := by
  cases c with
  | none => exact h
  | some c => exact (perform_congr h c).2

theorem data_access_records {read : Bool} {mod : String} {data : TrType} {time : ℚ}
    (h : data_access cv read mod data time sh = .ok sh') :
    sh'.data_manager.records = (sh.data_manager.called (if data.debuggable then
      some (.updatePacket (int32 data.id.toNat) data.debug_info mod time read)
      else none)).records := by
  rw [data_access_eq] at h
  split at h
  · rename_i hdata
    cases h
    rw [hdata]
    rfl
  · rename_i hdata
    rw [if_pos (by simpa using hdata)]
    have haccess : (sh.access read mod data time).data_manager.records =
        (sh.data_manager.called (some (.updatePacket (int32 data.id.toNat) data.debug_info mod
          time read))).records := by
      rw [Shared.access_data_manager]
      exact called_congr (updateSimulationTime_records sh time) (some _)
    rw [← haccess]
    split at h
    · exact congrArg (fun x => x.2.1) (checkBreakpointHit_beside h)
    · cases h
      rfl

/-- A callback changes the records by its call. -/
theorem observe_records {e : Event} (h : observe cv e sh = .ok sh') :
    sh'.data_manager.records = (sh.data_manager.called e.call).records := by
  cases e with
  | counter_added name time | counter_removed name time =>
    cases h
    exact updateSimulationTime_records _ time
  | counter_updated name value time =>
    obtain ⟨published, old_value, rfl⟩ := counter_updated_eq h
    rw [watchLoop_data_manager]
    exact updateSimulationTime_records _ time
  | data_written mod data time =>
    exact data_access_records (show data_access cv false mod data time sh = .ok sh' from h)
  | data_read mod data time =>
    exact data_access_records (show data_access cv true mod data time sh = .ok sh' from h)
  | data_dropped mod data reason time =>
    cases h
    exact data_dropped_records mod data reason time sh
  | activity kind time =>
    cases h
    exact updateSimulationTime_records _ time
  | simulation_end =>
    cases h
    rfl

/-- A step changes the records by its call. -/
theorem step_records {x : Step} (h : (session cv cp).step s x = some s') :
    s'.data_manager.records = (s.data_manager.called x.call).records := by
  obtain ⟨-, h⟩ := step_eq_some.mp h
  cases x with
  | request r =>
    have hrecords : s'.data_manager.records = (s.data_manager.requested r).records :=
      congrArg (fun x => x.1.2.2) (parseRequest_reported h)
    rw [hrecords]
    cases r <;> rfl
  | start =>
    cases h
    rfl
  | event e =>
    obtain ⟨sh, hsh, h⟩ := bind_eq_ok.mp h
    cases h
    exact observe_records hsh
  | resume =>
    simp only [exec] at h
    split at h
    · cases h
      exact congrArg DebugDataManager.records (resume_data_manager _ _)
    · cases h
      rfl
  | reply =>
    cases h
    rfl

theorem records_of_replay_from {es : List Step} {dm : DebugDataManager}
    (hs : s.data_manager.records = dm.records) (h : (session cv cp).replay s es = some s') :
    s'.data_manager.records =
      ((es.filterMap Step.call).foldl (fun dm c => (perform c dm).2) dm).records := by
  induction es generalizing s dm with
  | nil =>
    cases h
    exact hs
  | cons x es ih =>
    obtain ⟨t, ht, h⟩ := Option.bind_eq_some_iff.mp h
    have hstep := (step_records ht).trans (called_congr hs x.call)
    cases hx : x.call with
    | none =>
      rw [hx] at hstep
      rw [List.filterMap_cons_none hx]
      exact ih hstep h
    | some c =>
      rw [hx] at hstep
      rw [List.filterMap_cons_some hx, List.foldl_cons]
      exact ih hstep h

/-- The calls of a session. -/
def calls (es : List Step) : List Call := es.filterMap Step.call

/-- The records behind a session are those behind its calls. -/
theorem records_of_replay {es : List Step}
    (h : (session cv cp).replay { control_plane := cp } es = some s) :
    s.data_manager.records = (dataManager.after (calls es)).records :=
  records_of_replay_from rfl h

/-! ## Answers -/

theorem answer_eq {es : List Step} {dm : DebugDataManager}
    (h : (session cv cp).replay { control_plane := cp } es = some s)
    (hdm : dm.records = s.data_manager.records) (c : Call) :
    dataManager.answer (calls es) c = (perform c dm).1 :=
  (perform_congr (hdm.trans (records_of_replay h)) c).1.symm

theorem data_access_published {read : Bool} {mod : String} {data : TrType} {time : ℚ}
    (hdata : data.debuggable = true) (h : data_access cv read mod data time sh = .ok sh') :
    sh'.published = (sh.access read mod data time).published := by
  rw [data_access_eq, if_neg (by simp [hdata])] at h
  split at h
  · exact congrArg (fun x => x.2.2) (checkBreakpointHit_beside h)
  · cases h
    rfl

/-- The updates of a read or write are published. -/
theorem event_published {e : Event} {id : Int} {di : Option DebugInfo} {mod : String} {time : ℚ}
    {read : Bool} (he : e.call = some (.updatePacket id di mod time read))
    (h : observe cv e sh = .ok sh') : sh'.published = sh.published ++
      ((sh.updateSimulationTime time).data_manager.updatePacket id di mod time read).1.map
        fun t => ⟨t.id, (max sh.data_manager.simulation_time time).floor.toNat, t.value⟩ := by
  cases e with
  | data_written m data t =>
    simp only [Event.call, Option.ite_none_right_eq_some, Option.some.injEq,
      Call.updatePacket.injEq] at he
    obtain ⟨hdata, rfl, rfl, rfl, rfl, rfl⟩ := he
    have hsh : data_access cv false m data t sh = .ok sh' := h
    exact (data_access_published hdata hsh).trans (access_published sh false m data t)
  | data_read m data t =>
    simp only [Event.call, Option.ite_none_right_eq_some, Option.some.injEq,
      Call.updatePacket.injEq] at he
    obtain ⟨hdata, rfl, rfl, rfl, rfl, rfl⟩ := he
    have hsh : data_access cv true m data t sh = .ok sh' := h
    exact (data_access_published hdata hsh).trans (access_published sh true m data t)
  | _ => cases he

/-- **Refinement.** The counters, traces and packets behind a session are those behind its
calls, and its next steps have the answers of the machine: a request for a trace is answered
with the identifier, and the updates of a read or write are published. -/
theorem session_refines {es : List Step}
    (h : (session cv cp).replay { control_plane := cp } es = some s) :
    s.data_manager.records = (dataManager.after (calls es)).records ∧
    (∀ msg s', (session cv cp).step s (.request (.StartTracing msg)) = some s' →
      ∃ id, dataManager.answer (calls es) msg.call = .id id ∧
        s'.sent = s.sent ++ [if id < 0 then .GenericAcknowledge .FAILED
          else .StartTracingStatus id, .GenericAcknowledge .FAILED]) ∧
    ∀ e id di mod time read s', e.call = some (.updatePacket id di mod time read) →
      (session cv cp).step s (.event e) = some s' →
      ∃ updates, dataManager.answer (calls es) (.updatePacket id di mod time read) =
          .updates updates ∧
        s'.shared.published = s.shared.published ++ updates.map fun t =>
          ⟨t.id, (max s.data_manager.simulation_time time).floor.toNat, t.value⟩ := by
  refine ⟨records_of_replay h, fun msg s' hstep => ?_, fun e id di mod time read s' he hstep => ?_⟩
  · obtain ⟨id, hid, heq⟩ := handleStartTracing_eq msg s
    refine ⟨id, (answer_eq h rfl msg.call).trans hid, ?_⟩
    obtain ⟨-, hstep⟩ := step_eq_some.mp hstep
    cases hstep
    rw [heq]
    split
    · exact List.append_assoc ..
    · exact List.append_assoc ..
  · obtain ⟨-, hstep⟩ := step_eq_some.mp hstep
    obtain ⟨sh, hsh, hstep⟩ := bind_eq_ok.mp hstep
    cases hstep
    exact ⟨_, answer_eq h (updateSimulationTime_records s.shared time) _,
      event_published he hsh⟩

/-- A trace for the throughput of a module, and a first write. -/
def paced : List Step :=
  [.request (.StartTracing ⟨some 2, "m", ""⟩), .request (.Run none), .start,
    .event (.data_written "m" ⟨7, true, none⟩ 2)]

theorem session_refines_paced : ∃ s s' updates,
    (session decimal none).replay {} paced = some s ∧
    (session decimal none).step s (.event (.data_written "m" ⟨8, true, none⟩ 4)) = some s' ∧
    s'.shared.published = [⟨0, 4, 500000000⟩] ∧
    dataManager.answer (calls paced)
      (.updatePacket (int32 (8 : UInt64).toNat) none "m" 4 false) = .updates updates ∧
    updates.map TraceData.id = [0] := by
  have hrun : ((session decimal none).replay {} paced).bind (fun s =>
      ((session decimal none).step s (.event (.data_written "m" ⟨8, true, none⟩ 4))).map
        fun s' => (s.shared.published, s'.shared.published)) =
      some ([], [⟨0, 4, 500000000⟩]) := by decide +kernel
  obtain ⟨s, hs, hrun⟩ := Option.bind_eq_some_iff.mp hrun
  obtain ⟨s', hs', hpublished⟩ := Option.map_eq_some_iff.mp hrun
  obtain ⟨hbefore, hafter⟩ := Prod.mk.inj hpublished
  obtain ⟨updates, hanswer, hupdates⟩ :=
    (session_refines hs).2.2 _ _ _ _ _ _ _ rfl hs'
  rw [hbefore, hafter, List.nil_append] at hupdates
  have hids := congrArg (List.map TracingUpdate.id) hupdates
  rw [List.map_map] at hids
  exact ⟨s, s', updates, hs, hs', hafter, hanswer, hids.symm⟩

end Pfp.Db
