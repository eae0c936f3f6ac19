import PFPSim.Debugger.Replies
import PFPSim.Debugger.StopDecision
import PFPSim.Debugger.BreakpointList

/-!
# Malformed requests

Which requests are handled cleanly: without an exception, and answered `FAILED` with the
shared data unchanged when they cannot be honoured. The handlers look up packets and
counters to trace, and refuse what they do not find (`Refused`); they look up nothing else
and trust every number, so any other request that cannot be honoured is not clean
(`clean_iff`). While all requests are clean, no callback throws.
-/

namespace Pfp.Db

variable {cv : Conversions} {s s' : Session} {r : Request}

/-! ## Requests that can be honoured -/

/-- The time is a number, and so is the text of the breakpoint that ends the run. -/
def TimeOk (cv : Conversions) (s : Session) (time_ns : Option String) : Prop :=
  ∀ t ∈ time_ns, ∃ x, cv.stod t = some x ∧
    (x ≠ -1 → (cv.stof (cv.to_string (s.data_manager.simulation_time + x))).isSome)

/-- A condition with a value that it can be compared to. -/
def ValueOk (cv : Conversions) : BreakpointCondition → String → Prop
  | .BREAK_AT_TIME, v => (cv.stof v).isSome
  | .BREAK_ON_PACKET_ID, v => (stoi v).isSome
  | _, _ => True

/-- The text is a number, and one of the identifiers. -/
def Names (ids : List Int) (id : String) : Prop := ∃ x ∈ ids, stoi id = some x

/-- The packet that a backtrace is asked for. -/
def askedPacket (s : Session) (packet_id : Option String) : Option Int :=
  packet_id.elim (some s.data_manager.whoami) stoi

/-- There is such a counter, and it is not traced yet. -/
def Traceable (dm : DebugDataManager) (name : String) : Prop :=
  (dm.counters[name]?).isSome ∧ dm.counter_traces[name]? = none

/-- The numbers are numbers, and what the request names is there. A repeated run is
answered by the end of the simulation, whatever its time is. -/
def CanHonour (cv : Conversions) (s : Session) : Request → Prop
  | .Run time_ns => s.run_called = false → TimeOk cv s time_ns
  | .Continue time_ns => TimeOk cv s time_ns
  | .GetCounter name => (s.data_manager.counters[name]?).isSome
  | .SetBreakpoint msg => msg.condition_list.length ≤ msg.value_list.length ∧
      ∀ p ∈ msg.condition_list.zip msg.value_list, ValueOk cv p.1 p.2
  | .RemoveBreakpoint id => Names (s.data_manager.breakpoint_list.map Breakpoint.id) id
  | .EnableDisableBreakpoint id _ => Names (s.data_manager.breakpoint_list.map Breakpoint.id) id
  | .RemoveWatchpoint id => Names (s.data_manager.watchpoint_list.map Watchpoint.id) id
  | .EnableDisableWatchpoint id _ => Names (s.data_manager.watchpoint_list.map Watchpoint.id) id
  | .Backtrace packet_id => ∃ id, askedPacket s packet_id = some id ∧
      (s.data_manager.getPacket id).isSome
  | .CPCommand _ => s.control_plane.isSome
  | .GetTableEntries => s.control_plane.isSome
  | .GetPacketField id _ => HasInfo s.data_manager id
  | .GetRawPacket id => HasInfo s.data_manager id
  | .GetParsedPacket id => HasInfo s.data_manager id
  | .StartTracing msg => (∀ n ∈ msg.type, n = 1 ∨ n = 2 ∨ n = 3) ∧
      (msg.getType = .COUNTER → Traceable s.data_manager msg.name)
  | .other _ => False
  | _ => True

/-- What the handlers look up and do not find. -/
def Refused (s : Session) : Request → Prop
  | .Backtrace packet_id => ∃ id, askedPacket s packet_id = some id ∧
      s.data_manager.getPacket id = none
  | .GetPacketField id _ => ¬ HasInfo s.data_manager id
  | .GetRawPacket id => ¬ HasInfo s.data_manager id
  | .GetParsedPacket id => ¬ HasInfo s.data_manager id
  | .StartTracing msg => msg.getType = .COUNTER ∧ ¬ Traceable s.data_manager msg.name
  | .other _ => True
  | _ => False

/-- The shared data are the same, and the only replies are failures. -/
def Failed (s s' : Session) : Prop :=
  s'.shared = s.shared ∧
    ∃ n, s'.sent = s.sent ++ List.replicate (n + 1) (.GenericAcknowledge .FAILED)

/-- The request raises no exception, and fails if it cannot be honoured. -/
def Clean (cv : Conversions) (s : Session) (r : Request) : Prop :=
  ∃ s', parseRequest cv r s = .ok s' ∧ (¬ CanHonour cv s r → Failed s s')

theorem failed_sendRequestFailed (s : Session) : Failed s s.sendRequestFailed := ⟨rfl, 0, rfl⟩

/-- A request that is answered by something else has not failed. -/
theorem not_failed_of_sent {m : DebuggerMessage} {l : List DebuggerMessage}
    (h : s'.sent = s.sent ++ m :: l) (hm : m ≠ .GenericAcknowledge .FAILED) : ¬ Failed s s' := by
  rintro ⟨-, n, hn⟩
  rw [h, List.append_cancel_left_eq, List.replicate_succ] at hn
  exact hm (List.cons.inj hn).1

theorem not_failed_of_waiting (h : s'.sent = s.sent) : ¬ Failed s s' := by
  rintro ⟨-, n, hn⟩
  rw [h, List.self_eq_append_right] at hn
  cases hn

/-- A request that is answered in another way is clean if and only if it is honoured. -/
theorem clean_iff_of_ok (h : parseRequest cv r s = .ok s') (hs' : ¬ Failed s s') :
    Clean cv s r ↔ CanHonour cv s r := by
  constructor
  · rintro ⟨t, ht, hfail⟩
    rw [h] at ht
    cases ht
    by_contra hno
    exact hs' (hfail hno)
  · exact fun hcan => ⟨s', h, fun hno => absurd hcan hno⟩

theorem not_clean_of_error {f : Fault} (h : parseRequest cv r s = .error f) :
    ¬ Clean cv s r := by
  rintro ⟨t, ht, -⟩
  rw [h] at ht
  cases ht

theorem clean_of_failed (h : parseRequest cv r s = .ok s') (hs' : Failed s s') :
    Clean cv s r :=
  ⟨s', h, fun _ => hs'⟩

/-! ## Handlers -/

/-- The requests that wait for a stop after a time that is a number. -/
theorem requestTime_clean {time_ns : Option String} {f : ℚ → Session}
    (hparse : parseRequest cv r s = (requestTime cv time_ns).map f)
    (hsent : ∀ t, (f t).sent = s.sent) (hcan : CanHonour cv s r ↔ TimeOk cv s time_ns) :
    Clean cv s r ↔ TimeOk cv s time_ns := by
  by_cases hnum : ∀ t ∈ time_ns, (cv.stod t).isSome
  · obtain ⟨t, ht⟩ := requestTime_ok hnum
    rw [ht] at hparse
    exact (clean_iff_of_ok hparse (not_failed_of_waiting (hsent t))).trans hcan
  · cases time_ns with
    | none => exact absurd (fun t ht => by cases ht) hnum
    | some t =>
      have hnone : cv.stod t = none := by
        by_contra hne
        apply hnum
        intro t' ht'
        cases ht'
        exact Option.isSome_iff_ne_none.mpr hne
      have herr : requestTime cv (some t) = .error .conversion := by
        rw [requestTime, hnone]
        rfl
      rw [herr] at hparse
      apply iff_of_false (not_clean_of_error hparse)
      intro hok
      obtain ⟨x, hx, -⟩ := hok t rfl
      rw [hnone] at hx
      cases hx

/-- The requests with an identifier. -/
theorem handleId_clean {id : String} {f : Int → DebugDataManager} {ids : List Int}
    (hparse : parseRequest cv r s = handleId id f s) (hcan : CanHonour cv s r ↔ Names ids id) :
    Clean cv s r ↔ Names ids id := by
  cases hid : stoi id with
  | none =>
    have herr : parseRequest cv r s = .error .conversion := by
      rw [hparse, handleId, hid]
      rfl
    apply iff_of_false (not_clean_of_error herr)
    rintro ⟨x, -, hx⟩
    rw [hid] at hx
    cases hx
  | some x =>
    have hok : parseRequest cv r s = .ok (s.manage (f x)).sendGenericReply := by
      rw [hparse, handleId, hid]
      rfl
    refine (clean_iff_of_ok hok (not_failed_of_sent rfl ?_)).trans hcan
    exact fun h => by cases h

theorem setConditions_error {cs : List BreakpointCondition} {vs : List String}
    (h : vs.length < cs.length) (br : Breakpoint) :
    setConditions cs vs br = .error .out_of_range := by
  induction cs generalizing vs br with
  | nil => simp at h
  | cons c cs ih =>
    cases vs with
    | nil => rfl
    | cons v vs =>
      rw [setConditions]
      exact ih (Nat.lt_of_succ_lt_succ h) _

theorem setBreakpoint_clean (msg : SetBreakpointMsg) :
    Clean cv s (.SetBreakpoint msg) ↔ CanHonour cv s (.SetBreakpoint msg) := by
  by_cases hlen : msg.condition_list.length ≤ msg.value_list.length
  · obtain ⟨br, hbr, -⟩ := setConditions_ok hlen { s.data_manager.newBreakpoint.1 with
      temp := msg.temporary = "1", disabled := msg.disabled = "1" }
    have hok : parseRequest cv (.SetBreakpoint msg) s =
        .ok (s.manage (s.data_manager.newBreakpoint.2.addBreakpoint br)).sendGenericReply := by
      simp only [parseRequest, handleSetBreakpoint, hbr, bind, Except.bind, pure, Except.pure]
    refine clean_iff_of_ok hok (not_failed_of_sent rfl ?_)
    exact fun h => by cases h
  · have herr : parseRequest cv (.SetBreakpoint msg) s = .error .out_of_range := by
      simp only [parseRequest, handleSetBreakpoint, setConditions_error (Nat.lt_of_not_le hlen),
        bind, Except.bind]
    exact iff_of_false (not_clean_of_error herr) fun h => hlen h.1

theorem backtraceId_eq (packet_id : Option String) (s : Session) :
    backtraceId packet_id s = ofOption .uninitialised (askedPacket s packet_id) := by
  cases packet_id <;> rfl

theorem backtrace_clean (packet_id : Option String) :
    Clean cv s (.Backtrace packet_id) ↔
      CanHonour cv s (.Backtrace packet_id) ∨ Refused s (.Backtrace packet_id) := by
  cases hid : askedPacket s packet_id with
  | none =>
    have herr : parseRequest cv (.Backtrace packet_id) s = .error .uninitialised := by
      rw [parseRequest, handleBacktrace, backtraceId_eq, hid]
      rfl
    apply iff_of_false (not_clean_of_error herr)
    rintro (⟨id, hid', -⟩ | ⟨id, hid', -⟩) <;>
    · rw [hid] at hid'
      cases hid'
  | some id =>
    cases hpk : s.data_manager.getPacket id with
    | none =>
      have hok : parseRequest cv (.Backtrace packet_id) s = .ok s.sendRequestFailed := by
        simp only [parseRequest, handleBacktrace, backtraceId_eq, hid, ofOption, bind,
          Except.bind, hpk, pure, Except.pure]
      exact iff_of_true (clean_of_failed hok (failed_sendRequestFailed s))
        (.inr ⟨id, hid, hpk⟩)
    | some pk =>
      have hok : parseRequest cv (.Backtrace packet_id) s =
          .ok (s.send (.BacktraceReply id pk.trace)) := by
        simp only [parseRequest, handleBacktrace, backtraceId_eq, hid, ofOption, bind,
          Except.bind, hpk, pure, Except.pure]
      have hcan : CanHonour cv s (.Backtrace packet_id) := ⟨id, hid, by rw [hpk]; rfl⟩
      exact iff_of_true ⟨_, hok, fun hno => absurd hcan hno⟩ (.inl hcan)

/-- Without a packet to show, the handlers for its parts only fail. -/
theorem handlePacketValue_failed {id : Int} (h : ¬ HasInfo s.data_manager id)
    (value : DebugInfo → DebuggerMessage) : Failed s (handlePacketValue id value s) := by
  rw [handlePacketValue]
  cases hpk : s.data_manager.getPacket id with
  | none => exact failed_sendRequestFailed s
  | some pk =>
    cases hinfo : pk.debug_info with
    | none =>
      simp only [hinfo]
      exact failed_sendRequestFailed s
    | some di => exact absurd ⟨pk, hpk, by rw [hinfo]; rfl⟩ h

theorem handlePacketValue_clean {id : Int} {value : DebugInfo → DebuggerMessage}
    (hparse : parseRequest cv r s = .ok (handlePacketValue id value s))
    (hcan : CanHonour cv s r ↔ HasInfo s.data_manager id) : Clean cv s r := by
  by_cases hinfo : HasInfo s.data_manager id
  · exact ⟨_, hparse, fun hno => absurd (hcan.mpr hinfo) hno⟩
  · exact clean_of_failed hparse (handlePacketValue_failed hinfo value)

/-- A counter that cannot be traced gives a negative id, and changes nothing. -/
theorem addCounterTrace_refused {dm : DebugDataManager} {name : String}
    (h : ¬ Traceable dm name) :
    (dm.addCounterTrace name).1 < 0 ∧ (dm.addCounterTrace name).2 = dm := by
  unfold DebugDataManager.addCounterTrace
  split
  · exact ⟨show (-1 : Int) < 0 by decide, rfl⟩
  · rename_i hcounter
    split
    · exact ⟨show (-2 : Int) < 0 by decide, rfl⟩
    · rename_i htrace
      refine absurd ⟨?_, ?_⟩ h
      · simpa using hcounter
      · simpa using htrace

theorem getType_unknown {msg : StartTracingMsg} {n : Nat} (hn : msg.type = some n)
    (h : ¬ (n = 1 ∨ n = 2 ∨ n = 3)) : msg.getType = .LATENCY := by
  unfold StartTracingMsg.getType
  rw [hn]
  split
  · rename_i heq
    cases heq
    exact absurd (.inr (.inl rfl)) h
  · rename_i heq
    cases heq
    exact absurd (.inr (.inr rfl)) h
  · rfl

theorem startTracing_clean (msg : StartTracingMsg) :
    Clean cv s (.StartTracing msg) ↔
      CanHonour cv s (.StartTracing msg) ∨ Refused s (.StartTracing msg) := by
  have hok : parseRequest cv (.StartTracing msg) s =
      .ok (handleStartTracing msg s).sendRequestFailed := rfl
  by_cases hcounter : msg.getType = .COUNTER ∧ ¬ Traceable s.data_manager msg.name
  · obtain ⟨htype, htrace⟩ := hcounter
    obtain ⟨hneg, hdm⟩ := addCounterTrace_refused htrace
    refine iff_of_true (clean_of_failed hok ?_) (.inr ⟨htype, htrace⟩)
    simp only [handleStartTracing, htype, hdm, if_pos hneg]
    refine ⟨rfl, 1, ?_⟩
    exact List.append_assoc ..
  · by_cases hunknown : ∀ n ∈ msg.type, n = 1 ∨ n = 2 ∨ n = 3
    · have hcan : CanHonour cv s (.StartTracing msg) := by
        refine ⟨hunknown, ?_⟩
        intro htype
        by_contra htrace
        exact hcounter ⟨htype, htrace⟩
      exact iff_of_true ⟨_, hok, fun hno => absurd hcan hno⟩ (.inl hcan)
    · refine iff_of_false ?_ fun h => h.elim (fun hcan => hunknown hcan.1) hcounter
      rintro ⟨t, ht, hfail⟩
      rw [hok] at ht
      cases ht
      obtain ⟨hshared, -⟩ := hfail fun hcan => hunknown hcan.1
      push Not at hunknown
      obtain ⟨n, hn, hne⟩ := hunknown
      -- the number of traces has gone up
      have hid := congrArg (fun sh : Shared => sh.data_manager.trace_id) hshared
      have htype := getType_unknown (Option.mem_def.mp hn) (by simpa using hne)
      simp only [handleStartTracing, htype] at hid
      have hup : s.data_manager.trace_id + 1 = s.data_manager.trace_id := by
        split at hid <;> exact hid
      omega

/-! ## Requests -/

/-- **Clean requests.** In every state, a request is handled cleanly if and only if it can
be honoured or is one of those that are refused. -/
theorem clean_iff (cv : Conversions) (s : Session) (r : Request) :
    Clean cv s r ↔ CanHonour cv s r ∨ Refused s r := by
  have plain {r : Request} (hok : ∃ s', parseRequest cv r s = .ok s')
      (hcan : CanHonour cv s r) : Clean cv s r ↔ CanHonour cv s r ∨ Refused s r := by
    obtain ⟨s', hok⟩ := hok
    exact iff_of_true ⟨s', hok, fun hno => absurd hcan hno⟩ (.inl hcan)
  have unrefused {r : Request} (h : Clean cv s r ↔ CanHonour cv s r) (hno : ¬ Refused s r) :
      Clean cv s r ↔ CanHonour cv s r ∨ Refused s r := by
    rw [h]
    exact ⟨.inl, fun hor => hor.resolve_right hno⟩
  cases r with
  | Run time_ns =>
    refine unrefused ?_ id
    by_cases hrun : s.run_called = false
    · have hcan : CanHonour cv s (.Run time_ns) ↔ TimeOk cv s time_ns :=
        ⟨fun h => h hrun, fun h _ => h⟩
      have hparse : parseRequest cv (.Run time_ns) s = (requestTime cv time_ns).map
          fun t => handleRun cv t { s with run_called := true } := by
        simp only [parseRequest, if_pos hrun]
        cases requestTime cv time_ns <;> rfl
      exact (requestTime_clean hparse
        (fun t => (handleRun_frame cv t { s with run_called := true }).1) hcan).trans hcan.symm
    · have hcan : CanHonour cv s (.Run time_ns) := fun h => absurd h hrun
      refine iff_of_true ⟨s.send .SimulationEnd, ?_, fun hno => absurd hcan hno⟩ hcan
      simp only [parseRequest, if_neg hrun]
  | Continue time_ns =>
    refine unrefused (requestTime_clean (f := fun t => handleContinue cv t s) ?_
      (fun t => (handleContinue_frame cv t s).1) Iff.rfl) id
    simp only [parseRequest]
    cases requestTime cv time_ns <;> rfl
  | GetCounter name =>
    refine unrefused (clean_iff_of_ok rfl (not_failed_of_sent rfl ?_)) id
    exact fun h => by cases h
  | SetBreakpoint msg => exact unrefused (setBreakpoint_clean msg) id
  | RemoveBreakpoint i => exact unrefused (handleId_clean rfl Iff.rfl) id
  | EnableDisableBreakpoint i enable => exact unrefused (handleId_clean rfl Iff.rfl) id
  | RemoveWatchpoint i => exact unrefused (handleId_clean rfl Iff.rfl) id
  | EnableDisableWatchpoint i enable => exact unrefused (handleId_clean rfl Iff.rfl) id
  | Backtrace packet_id => exact backtrace_clean packet_id
  | CPCommand command =>
    cases hcp : s.control_plane with
    | none =>
      refine unrefused (iff_of_false (not_clean_of_error (f := .uninitialised) ?_) ?_) id
      · simp only [parseRequest, handleCPCommand, hcp, ofOption, bind, Except.bind]
      · simp [CanHonour, hcp]
    | some cp =>
      refine plain ?_ (by simp [CanHonour, hcp])
      simp only [parseRequest, handleCPCommand, hcp, ofOption, bind, Except.bind, pure,
        Except.pure]
      exact ⟨_, rfl⟩
  | GetTableEntries =>
    cases hcp : s.control_plane with
    | none =>
      refine unrefused (iff_of_false (not_clean_of_error (f := .uninitialised) ?_) ?_) id
      · simp only [parseRequest, handleGetTableEntries, hcp, ofOption, bind, Except.bind]
      · simp [CanHonour, hcp]
    | some cp =>
      refine plain ?_ (by simp [CanHonour, hcp])
      simp only [parseRequest, handleGetTableEntries, hcp, ofOption, bind, Except.bind, pure,
        Except.pure]
      exact ⟨_, rfl⟩
  | GetPacketField i field_name =>
    exact iff_of_true (handlePacketValue_clean rfl Iff.rfl) (Classical.em _)
  | GetRawPacket i => exact iff_of_true (handlePacketValue_clean rfl Iff.rfl) (Classical.em _)
  | GetParsedPacket i => exact iff_of_true (handlePacketValue_clean rfl Iff.rfl) (Classical.em _)
  | StartTracing msg => exact startTracing_clean msg
  | other type =>
    exact iff_of_true (clean_of_failed rfl (failed_sendRequestFailed s)) (.inr trivial)
  | _ => exact plain ⟨_, rfl⟩ trivial

/-! ## Callbacks -/

/-- The time among the conditions is a number. -/
def Convertible (cv : Conversions) (m : Conditions) : Prop :=
  ∀ v, m .BREAK_AT_TIME = some v → (cv.stof v).isSome

theorem not_raises_of_convertible {a : Access} {b : Breakpoint} (h : Convertible cv b.conditions) :
    ¬ Raises cv a b := by
  rintro ⟨front, v, back, hsplit, -, hv⟩
  have hmem : (.BREAK_AT_TIME, v) ∈ b.conditions.entries := by
    rw [hsplit]
    exact List.mem_append_right _ List.mem_cons_self
  have hsome := h v (Conditions.mem_entries.mp hmem)
  rw [hv] at hsome
  cases hsome

theorem checkBreakpointHit_ok {sh : Shared} (a : Access)
    (h : ∀ b ∈ sh.table.list, Convertible cv b.conditions) :
    ∃ sh', checkBreakpointHit cv a sh = .ok sh' := by
  rcases checkBreakpointHit_cases cv a sh with ⟨front, b, back, hit⟩ | hno | ⟨⟨b, hb, hraise⟩, -⟩
  · exact ⟨_, checkBreakpointHit_hit hit⟩
  · exact ⟨sh, hno⟩
  · exact absurd hraise (not_raises_of_convertible (h b hb))

theorem data_access_ok {sh : Shared} (read : Bool) (mod : String) (data : TrType) (time : ℚ)
    (h : ∀ b ∈ sh.table.list, Convertible cv b.conditions) :
    ∃ sh', data_access cv read mod data time sh = .ok sh' := by
  rw [data_access_eq]
  split
  · exact ⟨sh, rfl⟩
  · split
    · apply checkBreakpointHit_ok _
      rw [sh.access_table]
      exact h
    · exact ⟨_, rfl⟩

/-- What an event may expect: an update is one of a counter that has been added. -/
def Expected (s : Shared) : Event → Prop
  | .counter_updated name _ _ => (s.data_manager.counters[name]?).isSome
  | _ => True

theorem counter_updated_ok {sh : Shared} {name : String} (value : UInt64) (time : ℚ)
    (h : (sh.data_manager.counters[name]?).isSome) :
    ∃ sh', counter_updated name value time sh = .ok sh' := by
  have hupdate (t : Shared) (ht : t.data_manager = sh.data_manager) :
      ∃ dm, t.data_manager.updateCounter name (int32 value.toNat) = some dm := by
    rw [ht, DebugDataManager.updateCounter, if_pos h]
    exact ⟨_, rfl⟩
  obtain ⟨dm, hdm⟩ := hupdate (if sh.data_manager.getCounterTraceId name ≥ 0 then
    sh.updateTrace (sh.data_manager.getCounterTraceId name) value.toNat else sh) (by split <;> rfl)
  simp only [counter_updated, hdm, ofOption, bind, Except.bind]
  exact ⟨_, rfl⟩

/-- No callback throws while the stored times are numbers. -/
theorem observe_ok {sh : Shared} {e : Event} (he : Expected sh e)
    (h : ∀ b ∈ sh.table.list, Convertible cv b.conditions) : ∃ sh', observe cv e sh = .ok sh' := by
  cases e with
  | counter_updated name value time => exact counter_updated_ok value time he
  | data_written mod data time => exact data_access_ok false mod data time h
  | data_read mod data time => exact data_access_ok true mod data time h
  | _ => exact ⟨_, rfl⟩

/-! ## Runs -/

/-- The condition on a step: a request that is handled cleanly, an event that is expected. -/
def Proper (cv : Conversions) (s : Session) : Step → Prop
  | .request r => CanHonour cv s r ∨ Refused s r
  | .event e => Expected s.shared e
  | _ => True

/-- The conditions of the breakpoint that `handleSetBreakpoint` adds come from the lists. -/
theorem mem_of_setConditions {cs : List BreakpointCondition} {vs : List String}
    {br br' : Breakpoint} (h : setConditions cs vs br = .ok br') {c : BreakpointCondition}
    {v : String} (hv : br'.conditions c = some v) :
    br.conditions c = some v ∨ (c, v) ∈ cs.zip vs := by
  induction cs generalizing vs br with
  | nil =>
    cases h
    exact .inl hv
  | cons c' cs ih =>
    cases vs with
    | nil => cases h
    | cons v' vs =>
      rw [setConditions] at h
      rcases ih h with hold | hmem
      · have hins : br.conditions.insert c' v' c = some v := by
          split at hold <;> exact hold
        rw [Conditions.insert] at hins
        split at hins
        · rename_i heq
          subst heq
          cases hc : br.conditions c with
          | none =>
            rw [hc] at hins
            cases hins
            exact .inr List.mem_cons_self
          | some w =>
            rw [hc] at hins
            cases hins
            exact .inl rfl
        · exact .inl hins
      · exact .inr (List.mem_cons_of_mem _ hmem)

theorem convertible_stealth {c : BreakpointCondition} {value : String}
    (h : c = .BREAK_AT_TIME → (cv.stof value).isSome) :
    Convertible cv (stealthBreakpoint c value).conditions := by
  intro v hv
  replace hv : (if BreakpointCondition.BREAK_AT_TIME = c then some value else none) = some v := hv
  split at hv
  · rename_i hc
    cases hv
    exact h hc.symm
  · cases hv

theorem convertible_breakAfter {time_ns : Option String} {t : ℚ} (h : TimeOk cv s time_ns)
    (ht : requestTime cv time_ns = .ok t) (hne : t ≠ -1) :
    Convertible cv (stealthBreakpoint .BREAK_AT_TIME
      (cv.to_string (s.data_manager.simulation_time + t))).conditions := by
  apply convertible_stealth
  intro _
  cases time_ns with
  | none =>
    cases ht
    exact absurd rfl hne
  | some text =>
    obtain ⟨x, hx, hok⟩ := h text rfl
    rw [requestTime, hx] at ht
    cases ht
    exact hok hne

/-- A proper request adds no time that is no number. -/
theorem adds_convertible {m : Conditions} (hr : CanHonour cv s r ∨ Refused s r)
    (hm : Adds cv s r m) : Convertible cv m := by
  cases r with
  | Run time_ns =>
    obtain ⟨hrun, t, ht, hne, rfl⟩ := hm
    exact convertible_breakAfter (hr.resolve_right id hrun) ht hne
  | Continue time_ns =>
    obtain ⟨t, ht, hne, rfl⟩ := hm
    exact convertible_breakAfter (hr.resolve_right id) ht hne
  | Next =>
    obtain rfl := hm
    apply convertible_stealth
    intro h
    cases h
  | SetBreakpoint msg =>
    obtain ⟨br, br', hbr, hempty, rfl⟩ := hm
    intro v hv
    rcases mem_of_setConditions hbr hv with hold | hmem
    · rw [hempty] at hold
      cases hold
    · exact (hr.resolve_right id).2 _ hmem
  | _ => exact hm.elim

theorem reaches_convertible {cp : Option CPDebuggerInterface}
    (h : (session cv cp).Reaches (Proper cv) s) :
    ∀ b ∈ s.table.list, Convertible cv b.conditions := by
  refine Runs.System.Reaches.invariant
    (I := fun s => ∀ b ∈ s.table.list, Convertible cv b.conditions) ?_
    ?_ h
  · intro b hb
    cases hb
  · intro s x s' _ hs hx hstep
    have hedits := exec_edits (step_eq_some.mp hstep).2
    refine (hedits.mono ?_).forall_conditions hs
    rintro m ⟨r, rfl, hm⟩
    exact adds_convertible hx hm

/-- **Clean runs.** In every state of a run of proper steps, the requests that are handled
cleanly are the proper ones, and no expected event throws. -/
theorem proper_run {cp : Option CPDebuggerInterface}
    (h : (session cv cp).Reaches (Proper cv) s) :
    (∀ r, Clean cv s r ↔ Proper cv s (.request r)) ∧
      ∀ e, Proper cv s (.event e) → ∃ s', exec cv s (.event e) = .ok s' := by
  refine ⟨clean_iff cv s, ?_⟩
  intro e he
  obtain ⟨sh, hsh⟩ := observe_ok he (reaches_convertible h)
  refine ⟨{ s with shared := sh }, ?_⟩
  simp only [exec, hsh, bind, Except.bind, pure, Except.pure]

/-- A breakpoint at a time. -/
def setTime (time : String) : SetBreakpointMsg :=
  { condition_list := [.BREAK_AT_TIME], value_list := [time] }

/-- A read of packet `7` in `m`. -/
def readPacket (time : ℚ) : Event := .data_read "m" ⟨7, true, none⟩ time

/-- A removal throws, and a breakpoint is accepted that makes the next event throw. -/
theorem malformed_raises :
    parseRequest decimal (.RemoveBreakpoint "abc") (session decimal none).init =
      .error .conversion ∧
    ∃ s s', parseRequest decimal (.SetBreakpoint (setTime "abc")) (session decimal none).init =
      .ok s ∧ s.sent = [.GenericAcknowledge .SUCCESS] ∧
      (session decimal none).replay s [.request (.Run none), .start] = some s' ∧
      enabled s' (.event (readPacket 1)) = true ∧
      exec decimal s' (.event (readPacket 1)) = .error .conversion :=
  ⟨rfl, _, _, rfl, rfl, rfl, rfl, rfl⟩

/-- A run with a breakpoint at time `5`. -/
theorem proper_run_setTime : ∃ s, (session decimal none).Reaches (Proper decimal) s ∧
    (∀ r, Clean decimal s r ↔ Proper decimal s (.request r)) ∧
      ∃ s', exec decimal s (.event (readPacket 1)) = .ok s' := by
  have hproper : Proper decimal (session decimal none).init (.request (.SetBreakpoint
      (setTime "5"))) := by
    refine .inl ⟨Nat.le_refl 1, ?_⟩
    intro p hp
    rw [List.mem_singleton.mp hp]
    show (parseDecimal "5").isSome = true
    decide +kernel
  obtain ⟨s, hs⟩ : ∃ s, (session decimal none).step (session decimal none).init
    (.request (.SetBreakpoint (setTime "5"))) = some s := ⟨_, rfl⟩
  have hreach : (session decimal none).Reaches (Proper decimal) s := .step .init hproper hs
  obtain ⟨hclean, hevents⟩ := proper_run hreach
  exact ⟨s, hreach, hclean, hevents (readPacket 1) trivial⟩

end Pfp.Db
