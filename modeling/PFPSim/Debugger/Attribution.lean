import PFPSim.Debugger.Frames
import PFPSim.Debugger.TraceIdentifiers

/-!
# The updates of a session and its traces

A client knows the traces that it has started: `StartTracing` was answered with their
identifiers (`acknowledged`). Every update that is published later has the identifier of such
a trace, and the event behind it is one that the trace is about (`updates_attributed`).
-/

namespace Pfp.Db

open Runs

def StartTracingMsg.trace (msg : StartTracingMsg) : Trace :=
  match msg.getType with
  | .COUNTER => .counter msg.name
  | .LATENCY => .latency msg.name msg.end_name
  | .THROUGHPUT => .throughput msg.name

/-- The trace that a step starts, with the identifier in its answer. -/
def acknowledge : Step × List DebuggerMessage → Option (Int × Trace)
  | (.request (.StartTracing msg), .StartTracingStatus id :: _) => some (id, msg.trace)
  | _ => none

/-- The traces that the client knows of, by the steps of a session and their answers. -/
def acknowledged (log : List (Step × List DebuggerMessage)) : List (Int × Trace) :=
  log.filterMap acknowledge

/-- The events that a trace has updates for. -/
def Trace.Concerns : Trace → Event → Prop
  | .counter name, .counter_updated counter_name _ _ => counter_name = name
  | .latency _ to_module_name, .data_written mod _ _ => mod = to_module_name
  | .throughput module_name, .data_written mod _ _ => mod = module_name
  | _, _ => False

variable {cv : Conversions} {cp : Option CPDebuggerInterface} {s s' t : Session} {sh sh' : Shared}
  {l : List (Int × Trace)}

/-- The register is about the fields for the traces. -/
theorem Register.congr {dm dm' : DebugDataManager} (h : Register l dm)
    (heq : dm'.records = dm.records) : Register l dm' := by
  have hbegun : dm'.begun = dm.begun :=
    congrArg (fun x : Records => fun mod => (x.latency_read_triggers[mod]?).getD []) heq
  have hpending : dm'.pending = dm.pending :=
    congrArg (fun x : Records => fun mod id =>
      (((x.latency_write_triggers[mod]?).getD ∅)[id]?).getD []) heq
  refine ⟨(congrArg Records.trace_id heq).trans h.next, h.ids, ?_, ?_, ?_, ?_⟩
  · rw [show dm'.counter_traces = dm.counter_traces from congrArg Records.counter_traces heq]
    exact h.counters
  · rw [hbegun]
    exact h.begun
  · rw [hpending]
    exact h.pending
  · rw [show dm'.throughput_triggers = dm.throughput_triggers from
      congrArg Records.throughput_triggers heq]
    exact h.throughput

theorem issue_of_trace_eq_none {c : Call} (hc : c.trace = none) (r : Answer) :
    issue c r = none := by
  unfold issue
  rw [hc]

theorem issue_id {c : Call} {t : Trace} (hc : c.trace = some t) (id : Int) :
    issue c (.id id) = if 0 ≤ id then some (id, t) else none := by
  unfold issue
  rw [hc]

/-- A call that creates no trace. -/
theorem Register.performs {dm : DebugDataManager} (h : Register l dm) {c : Call}
    (hc : c.trace = none) : Register l (Db.perform c dm).2 := by
  have hperform := h.perform c
  rwa [issue_of_trace_eq_none hc, Option.toList_none, List.append_nil] at hperform

/-! ## Callbacks -/

/-- The callback publishes updates of traces on the list that are about the event. -/
def Attributed (l : List (Int × Trace)) (e : Event) (sh sh' : Shared) : Prop :=
  ∃ updates, sh'.published = sh.published ++ updates ∧
    ∀ u ∈ updates, ∃ t : Trace, (u.id, t) ∈ l ∧ t.Concerns e

theorem Attributed.quiet {e : Event} (h : sh'.published = sh.published) : Attributed l e sh sh' :=
  ⟨[], h.trans (List.append_nil _).symm, nofun⟩

theorem counter_updated_attributed (h : Register l sh.data_manager) {name : String}
    {value : UInt64} {time : ℚ} (hsh : counter_updated name value time sh = .ok sh') :
    Register l sh'.data_manager ∧ Attributed l (.counter_updated name value time) sh sh' := by
  constructor
  · obtain ⟨published, old_value, rfl⟩ := counter_updated_eq hsh
    rw [watchLoop_data_manager]
    refine Register.congr (h.performs (c := .updateCounter name (int32 value.toNat)) rfl) ?_
    exact updateSimulationTime_records _ time
  · obtain ⟨dm, -, hsh⟩ := bind_eq_ok.mp hsh
    cases hsh
    rw [Attributed, watchLoop_published, updateSimulationTime_published]
    by_cases hid : sh.data_manager.getCounterTraceId name ≥ 0
    · rw [if_pos hid]
      refine ⟨_, rfl, List.forall_mem_singleton.mpr ⟨.counter name, ?_, rfl⟩⟩
      cases htrace : sh.data_manager.counter_traces[name]? with
      | none =>
        rw [DebugDataManager.getCounterTraceId, htrace] at hid
        exact absurd hid (by decide)
      | some id =>
        have hmem := (h.counters name id).mp htrace
        rwa [show id = sh.data_manager.getCounterTraceId name by
          rw [DebugDataManager.getCounterTraceId, htrace, Option.getD_some]] at hmem
    · rw [if_neg hid]
      exact ⟨[], (List.append_nil _).symm, nofun⟩

theorem access_attributed (h : Register l sh.data_manager) (read : Bool) (mod : String)
    (data : TrType) (time : ℚ) {e : Event}
    (he : read = false → e = .data_written mod data time) :
    Register l (sh.access read mod data time).data_manager ∧
      Attributed l e sh (sh.access read mod data time) := by
  have hlater := h.congr (updateSimulationTime_records sh time)
  constructor
  · rw [Shared.access_data_manager]
    exact hlater.performs (c := .updatePacket ..) rfl
  · refine ⟨_, access_published sh read mod data time, fun u hu => ?_⟩
    obtain ⟨t, ht, rfl⟩ := List.mem_map.mp hu
    cases read with
    | true => cases ht
    | false =>
      rw [he rfl]
      rcases hlater.update_mem ht with ⟨f, hf⟩ | hthroughput
      · exact ⟨_, hf, rfl⟩
      · exact ⟨_, hthroughput, rfl⟩

theorem data_access_attributed (h : Register l sh.data_manager) {read : Bool} {mod : String}
    {data : TrType} {time : ℚ} {e : Event} (he : read = false → e = .data_written mod data time)
    (hsh : data_access cv read mod data time sh = .ok sh') :
    Register l sh'.data_manager ∧ Attributed l e sh sh' := by
  rw [data_access_eq] at hsh
  split at hsh
  · cases hsh
    exact ⟨h, .quiet rfl⟩
  · obtain ⟨hregister, hattributed⟩ := access_attributed h read mod data time he
    split at hsh
    · have hbeside := checkBreakpointHit_beside hsh
      refine ⟨hregister.congr (congrArg (fun x => x.2.1) hbeside), ?_⟩
      have hpublished : sh'.published = _ := congrArg (fun x => x.2.2) hbeside
      rw [Attributed, hpublished]
      exact hattributed
    · cases hsh
      exact ⟨hregister, hattributed⟩

/-- A callback keeps the register, and publishes what the register has traces for. -/
theorem observe_attributed {e : Event} (h : Register l sh.data_manager)
    (hsh : observe cv e sh = .ok sh') : Register l sh'.data_manager ∧ Attributed l e sh sh' := by
  cases e with
  | counter_added name time =>
    cases hsh
    exact ⟨Register.congr (h.performs (c := .addCounter name) rfl)
      (updateSimulationTime_records _ time), .quiet (updateSimulationTime_published _ time)⟩
  | counter_removed name time =>
    cases hsh
    exact ⟨Register.congr (h.performs (c := .removeCounter name) rfl)
      (updateSimulationTime_records _ time), .quiet (updateSimulationTime_published _ time)⟩
  | counter_updated name value time => exact counter_updated_attributed h hsh
  | data_written mod data time =>
    exact data_access_attributed h (fun _ => rfl)
      (show data_access cv false mod data time sh = .ok sh' from hsh)
  | data_read mod data time =>
    exact data_access_attributed h Bool.noConfusion
      (show data_access cv true mod data time sh = .ok sh' from hsh)
  | data_dropped mod data reason time =>
    cases hsh
    exact ⟨h.congr (data_dropped_records mod data reason time sh),
      .quiet (data_dropped_published mod data reason time sh)⟩
  | activity kind time =>
    cases hsh
    exact ⟨h.congr (updateSimulationTime_records _ time),
      .quiet (updateSimulationTime_published _ time)⟩
  | simulation_end =>
    cases hsh
    exact ⟨h, .quiet rfl⟩

/-! ## Sessions -/

theorem call_trace (msg : StartTracingMsg) : msg.call.trace = some msg.trace := by
  rw [StartTracingMsg.call, StartTracingMsg.trace]
  cases msg.getType <;> rfl

/-- A request for a trace is answered with the identifier that is issued, or refused. -/
theorem startTracing_register (h : Register l s.data_manager) (msg : StartTracingMsg) :
    Register (l ++ (acknowledge (.request (.StartTracing msg),
      (handleStartTracing msg s).sendRequestFailed.sent.drop s.sent.length)).toList)
      (handleStartTracing msg s).sendRequestFailed.data_manager := by
  obtain ⟨id, hanswer, heq⟩ := handleStartTracing_eq msg s
  have hperform := h.perform msg.call
  rw [hanswer, issue_id (call_trace msg)] at hperform
  rw [heq]
  by_cases hid : id < 0
  · have hdrop : ((s.manage (s.data_manager.requested (.StartTracing msg))).sendRequestFailed
        |>.sendRequestFailed).sent.drop s.sent.length =
        [.GenericAcknowledge .FAILED, .GenericAcknowledge .FAILED] := by
      show ((s.sent ++ [_]) ++ [_]).drop s.sent.length = _
      rw [List.append_assoc, List.drop_left]
      rfl
    rw [if_pos hid, hdrop]
    rw [if_neg (not_le.mpr hid)] at hperform
    exact hperform
  · have hdrop : ((s.manage (s.data_manager.requested (.StartTracing msg))).send
        (.StartTracingStatus id)).sendRequestFailed.sent.drop s.sent.length =
        [.StartTracingStatus id, .GenericAcknowledge .FAILED] := by
      show ((s.sent ++ [_]) ++ [_]).drop s.sent.length = _
      rw [List.append_assoc, List.drop_left]
      rfl
    rw [if_neg hid, hdrop]
    rw [if_pos (not_lt.mp hid)] at hperform
    exact hperform

theorem step_register {x : Step} (h : Register l s.data_manager)
    (hstep : (session cv cp).step s x = some t) :
    Register (l ++ (acknowledge (x, t.sent.drop s.sent.length)).toList) t.data_manager := by
  obtain ⟨-, hx⟩ := step_eq_some.mp hstep
  have hnone : ∀ {dm : DebugDataManager}, Register l dm → Register (l ++ (none).toList) dm :=
    fun h => (List.append_nil l).symm ▸ h
  cases x with
  | request r =>
    have hrecords : t.data_manager.records = (s.data_manager.requested r).records :=
      congrArg (fun x => x.1.2.2) (parseRequest_reported hx)
    cases r with
    | StartTracing msg =>
      cases hx
      exact startTracing_register h msg
    | _ => exact hnone (h.congr hrecords)
  | start =>
    cases hx
    exact hnone h
  | event e =>
    obtain ⟨sh, hsh, hx⟩ := bind_eq_ok.mp hx
    cases hx
    exact hnone (observe_attributed h hsh).1
  | resume =>
    simp only [exec] at hx
    split at hx
    · rename_i loop hloop
      cases hx
      exact hnone (h.congr (congrArg DebugDataManager.records (resume_data_manager loop s.shared)))
    · cases hx
      exact hnone h
  | reply =>
    cases hx
    exact hnone h

theorem transcript_register {es : List Step} {log : List (Step × List DebuggerMessage)}
    (h : Register l s.data_manager) (hlog : transcript (session cv cp) s es = some (log, s')) :
    Register (l ++ acknowledged log) s'.data_manager := by
  induction es generalizing s l log with
  | nil =>
    cases hlog
    rw [acknowledged, List.filterMap_nil, List.append_nil]
    exact h
  | cons x es ih =>
    obtain ⟨t, rest, ht, hrest, rfl⟩ := transcript_cons.mp hlog
    have hregister := ih (step_register h ht) hrest
    rw [List.append_assoc] at hregister
    rw [acknowledged, List.filterMap_cons]
    cases hx : acknowledge (x, t.sent.drop s.sent.length) with
    | none =>
      rw [hx] at hregister
      exact hregister
    | some a =>
      rw [hx] at hregister
      exact hregister

/-- **Attribution.** The client is told the identifiers 0, 1, 2 and so on for the traces that it
starts, and every update that an event publishes is for one of them that is about the event. -/
theorem updates_attributed {es : List Step} {log : List (Step × List DebuggerMessage)}
    (h : transcript (session cv cp) (session cv cp).init es = some (log, s)) :
    (acknowledged log).map Prod.fst =
      (List.range (acknowledged log).length).map (fun n : Nat => (n : Int)) ∧
    ∀ e s', (session cv cp).step s (.event e) = some s' →
      ∃ updates, s'.shared.published = s.shared.published ++ updates ∧
        ∀ u ∈ updates, ∃ t : Trace, (u.id, t) ∈ acknowledged log ∧ t.Concerns e := by
  have hinit : Register [] (session cv cp).init.data_manager := register []
  have hregister := transcript_register hinit h
  rw [List.nil_append] at hregister
  refine ⟨hregister.ids, fun e s' hstep => ?_⟩
  obtain ⟨-, hx⟩ := step_eq_some.mp hstep
  obtain ⟨sh, hsh, hx⟩ := bind_eq_ok.mp hx
  cases hx
  exact (observe_attributed hregister hsh).2

/-- A counter that is traced, in a simulation that goes on. -/
def counted : List Step :=
  [.request (.Run none), .start, .event (.counter_added "c" 1), .event .simulation_end, .reply,
    .request (.StartTracing ⟨some 3, "c", ""⟩), .request (.Continue none), .resume]

theorem updates_attributed_counted : ∃ log s s',
    transcript (session decimal none) (session decimal none).init counted = some (log, s) ∧
    (session decimal none).step s (.event (.counter_updated "c" 5 2)) = some s' ∧
    s'.shared.published = [⟨0, 1, 5⟩] ∧
    ∃ t : Trace, ((0 : Int), t) ∈ acknowledged log ∧ t.Concerns (.counter_updated "c" 5 2) := by
  have hrun : ((transcript (session decimal none) (session decimal none).init counted).bind
      fun p => ((session decimal none).step p.2 (.event (.counter_updated "c" 5 2))).map
        fun s' => (p.2.shared.published, s'.shared.published)) =
      some ([], [⟨0, 1, 5⟩]) := by decide +kernel
  obtain ⟨⟨log, s⟩, hlog, hrun⟩ := Option.bind_eq_some_iff.mp hrun
  obtain ⟨s', hs', hpublished⟩ := Option.map_eq_some_iff.mp hrun
  obtain ⟨hbefore, hafter⟩ := Prod.mk.inj hpublished
  obtain ⟨updates, hupdates, htraces⟩ := (updates_attributed hlog).2 _ s' hs'
  rw [hbefore, List.nil_append, hafter] at hupdates
  exact ⟨log, s, s', hlog, hs', hafter,
    htraces ⟨0, 1, 5⟩ (hupdates ▸ List.mem_singleton_self _)⟩

end Pfp.Db
