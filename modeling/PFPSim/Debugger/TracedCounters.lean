import PFPSim.Debugger.TraceIdentifiers

/-!
# The counters that are traced

A trace is created for a counter that exists. Nothing but `addCounterTrace` changes
`counter_traces` (`traced_perform`), and `removeCounter` takes the counter away and leaves
the trace. So every traced counter exists, and every new counter can be traced, exactly in
the histories that remove no counter under a trace (`traced_counters_exist_iff`).
-/

namespace Pfp.Db

open Runs

/-- The calls, with the reader of the identifiers. -/
inductive TraceCall where
  | call (c : Call)
  | getCounterTraceId (name : String)

def TraceCall.perform : TraceCall → DebugDataManager → Answer × DebugDataManager
  | .call c, dm => Db.perform c dm
  | .getCounterTraceId name, dm => (.id (dm.getCounterTraceId name), dm)

def traceManager : Machine DebugDataManager TraceCall Answer := ⟨{}, TraceCall.perform⟩

def Counted (dm : DebugDataManager) (name : String) : Prop := (dm.counters[name]?).isSome

def Traced (dm : DebugDataManager) (name : String) : Prop := (dm.counter_traces[name]?).isSome

instance (dm : DebugDataManager) (name : String) : Decidable (Counted dm name) :=
  inferInstanceAs (Decidable (_ = true))

namespace TraceCall

abbrev addCounter (name : String) : TraceCall := .call (.addCounter name)

abbrev removeCounter (name : String) : TraceCall := .call (.removeCounter name)

abbrev addCounterTrace (name : String) : TraceCall := .call (.addCounterTrace name)

end TraceCall

/-! ## One call -/

variable {dm : DebugDataManager} {name : String}

theorem counted_addCounter (other : String) :
    Counted (dm.addCounter other) name ↔ other = name ∨ Counted dm name := by
  simp only [Counted, DebugDataManager.addCounter, Maps.get_insertIfNew]
  by_cases hname : other = name
  · simp [hname]
  · simp [hname]

theorem counted_removeCounter (other : String) :
    Counted (dm.removeCounter other) name ↔ other ≠ name ∧ Counted dm name := by
  simp only [Counted, DebugDataManager.removeCounter, Maps.get_erase]
  split
  · simp_all
  · simp_all

theorem counted_updateCounter (other : String) (val : Int) :
    Counted (perform (.updateCounter other val) dm).2 name ↔ Counted dm name := by
  simp only [perform, DebugDataManager.updateCounter]
  cases hother : dm.counters[other]?.isSome with
  | false => exact Iff.rfl
  | true =>
    simp only [Counted, if_true, Maps.get_insert]
    split
    · simp_all
    · rfl

theorem updatePacket_counters (id : Int) (di : Option DebugInfo) (mod : String) (time : ℚ)
    (read : Bool) : (dm.updatePacket id di mod time read).2.counters = dm.counters := by
  rw [DebugDataManager.updatePacket_eq]
  rfl

theorem updatePacket_counter_traces (id : Int) (di : Option DebugInfo) (mod : String) (time : ℚ)
    (read : Bool) : (dm.updatePacket id di mod time read).2.counter_traces = dm.counter_traces := by
  rw [DebugDataManager.updatePacket_eq]
  rfl

/-- What a call does to the counters. -/
theorem counted_perform (c : TraceCall) : Counted (c.perform dm).2 name ↔
    c = .addCounter name ∨ Counted dm name ∧ c ≠ .removeCounter name := by
  cases c with
  | getCounterTraceId other => simp [TraceCall.perform]
  | call c =>
    cases c with
    | addCounter other =>
      refine (counted_addCounter other).trans ?_
      simp
    | removeCounter other =>
      refine (counted_removeCounter other).trans ?_
      simp [and_comm]
    | updateCounter other val =>
      refine (counted_updateCounter other val).trans ?_
      simp
    | addCounterTrace other =>
      rw [TraceCall.perform, perform_addCounterTrace]
      simp [Counted]
    | updatePacket id di mod time read =>
      simp [TraceCall.perform, perform, Counted, updatePacket_counters]
    | addLatencyTrace f e =>
      simp [TraceCall.perform, perform, Counted, DebugDataManager.addLatencyTrace]
    | addThroughputTrace mod =>
      simp [TraceCall.perform, perform, Counted, DebugDataManager.addThroughputTrace]

theorem traced_addCounterTrace (other : String) :
    Traced (dm.addCounterTrace other).2 name ↔ Traced dm name ∨ other = name ∧ Counted dm name := by
  unfold DebugDataManager.addCounterTrace
  split
  next hnone =>
    have hcounted : ¬ (other = name ∧ Counted dm name) := by
      rintro ⟨rfl, hcounted⟩
      rw [Counted, ← Option.not_isNone, hnone] at hcounted
      cases hcounted
    rw [or_iff_left hcounted]
  next hsome =>
    split
    next htraced =>
      have hname : other = name ∧ Counted dm name → Traced dm name := fun h => h.1 ▸ htraced
      rw [or_iff_left_of_imp hname]
    next htraced =>
      have hcounted : Counted dm other := by simpa [Counted] using hsome
      simp only [Traced, Maps.get_insert]
      split
      next hname => simp [← hname, hcounted]
      next hname => simp [hname]

/-- What a call does to the traces of counters. -/
theorem traced_perform (c : TraceCall) : Traced (c.perform dm).2 name ↔
    Traced dm name ∨ c = .addCounterTrace name ∧ Counted dm name := by
  cases c with
  | getCounterTraceId other => simp [TraceCall.perform]
  | call c =>
    cases c with
    | addCounterTrace other =>
      refine (traced_addCounterTrace other).trans ?_
      simp
    | updateCounter other val =>
      rw [TraceCall.perform, perform_updateCounter]
      simp [Traced]
    | updatePacket id di mod time read =>
      simp [TraceCall.perform, perform, Traced, updatePacket_counter_traces]
    | addCounter other => simp [TraceCall.perform, perform, Traced, DebugDataManager.addCounter]
    | removeCounter other =>
      simp [TraceCall.perform, perform, Traced, DebugDataManager.removeCounter]
    | addLatencyTrace f e =>
      simp [TraceCall.perform, perform, Traced, DebugDataManager.addLatencyTrace]
    | addThroughputTrace mod =>
      simp [TraceCall.perform, perform, Traced, DebugDataManager.addThroughputTrace]

/-! ## Histories -/

/-- The calls that `dataManager` answers. -/
def TraceCall.manager : TraceCall → Option Call
  | .call c => some c
  | .getCounterTraceId _ => none

theorem traceManager_after (h : List TraceCall) :
    traceManager.after h = dataManager.after (h.filterMap TraceCall.manager) := by
  induction h using List.reverseRecOn with
  | nil => rfl
  | append_singleton h c ih =>
    rw [Machine.after_concat, filterMap_concat, ih]
    cases c with
    | call c => exact (dataManager.after_concat _ c).symm
    | getCounterTraceId other =>
      rw [TraceCall.manager, Option.toList_none, List.append_nil]
      rfl

theorem traceManager_next_nonneg (h : List TraceCall) : 0 ≤ (traceManager.after h).trace_id := by
  rw [traceManager_after]
  exact (register _).next_nonneg

/-- Every counter of `counter_traces` exists, all along a history, and the first trace of a
counter that has just been added is not refused. -/
structure TracesExist (h : List TraceCall) : Prop where
  counted : ∀ before after name, h = before ++ after →
    Traced (traceManager.after before) name → Counted (traceManager.after before) name
  read : ∀ before name after id, h = before ++ .getCounterTraceId name :: after →
    traceManager.answer before (.getCounterTraceId name) = .id id → 0 ≤ id →
      Counted (traceManager.after before) name
  first : ∀ before name between after,
    h = before ++ .addCounter name :: (between ++ .addCounterTrace name :: after) →
    ¬ Counted (traceManager.after before) name →
    .removeCounter name ∉ between → .addCounterTrace name ∉ between →
      ∃ id, 0 ≤ id ∧ traceManager.answer (before ++ .addCounter name :: between)
        (.addCounterTrace name) = .id id

/-- No counter is removed that has a trace. -/
def TracesOutlived (h : List TraceCall) : Prop := ∀ before name after,
  h = before ++ .removeCounter name :: after → ¬ Traced (traceManager.after before) name

theorem TracesOutlived.of_append {before after : List TraceCall}
    (h : TracesOutlived (before ++ after)) : TracesOutlived before := by
  intro before' name after' heq
  apply h before' name (after' ++ after)
  rw [heq, List.append_assoc, List.cons_append]

/-- The invariant: a trace is created for a counter, and the counter stays. -/
theorem counted_of_traced {h : List TraceCall} (hout : TracesOutlived h) :
    Traced (traceManager.after h) name → Counted (traceManager.after h) name := by
  induction h using List.reverseRecOn with
  | nil =>
    intro htraced
    simp [Traced, traceManager] at htraced
  | append_singleton h c ih =>
    intro htraced
    rw [Machine.after_concat] at htraced ⊢
    have htraced' := traced_perform c |>.mp htraced
    refine (counted_perform c).mpr (.inr ?_)
    rcases htraced' with htraced' | ⟨rfl, hcounted⟩
    · refine ⟨ih hout.of_append htraced', ?_⟩
      rintro rfl
      exact hout h name [] rfl htraced'
    · exact ⟨hcounted, by simp⟩

/-- Between the addition of a counter and its first trace or removal. -/
theorem untraced_after {before between : List TraceCall}
    (htraced : ¬ Traced (traceManager.after before) name)
    (hremove : .removeCounter name ∉ between) (htrace : .addCounterTrace name ∉ between) :
    Counted (traceManager.after (before ++ .addCounter name :: between)) name ∧
      ¬ Traced (traceManager.after (before ++ .addCounter name :: between)) name := by
  induction between using List.reverseRecOn with
  | nil =>
    rw [Machine.after_concat]
    refine ⟨(counted_perform _).mpr (.inl rfl), ?_⟩
    intro h
    rcases (traced_perform _).mp h with h | ⟨h, -⟩
    · exact htraced h
    · simp at h
  | append_singleton between c ih =>
    rw [List.mem_append, List.mem_singleton, not_or] at hremove htrace
    obtain ⟨hcounted, huntraced⟩ := ih hremove.1 htrace.1
    rw [← List.cons_append, ← List.append_assoc, Machine.after_concat]
    refine ⟨(counted_perform c).mpr (.inr ⟨hcounted, Ne.symm hremove.2⟩), ?_⟩
    intro h
    rcases (traced_perform c).mp h with h | ⟨h, -⟩
    · exact huntraced h
    · exact htrace.2 h.symm

/-- A counter without a trace gets one. -/
theorem addCounterTrace_new {h : List TraceCall} (hcounted : Counted (traceManager.after h) name)
    (htraced : ¬ Traced (traceManager.after h) name) :
    traceManager.answer h (.addCounterTrace name) = .id (traceManager.after h).trace_id := by
  show Answer.id ((traceManager.after h).addCounterTrace name).1 = _
  rw [Counted, Option.isSome_iff_ne_none] at hcounted
  rw [Traced] at htraced
  rw [DebugDataManager.addCounterTrace, if_neg (by simpa using hcounted), if_neg htraced]

/-- Traced counters exist, in every history, exactly if no traced counter is removed. -/
theorem traced_counters_exist_iff (h : List TraceCall) : TracesExist h ↔ TracesOutlived h := by
  constructor
  · intro hexist before name after heq htraced
    have hsplit : h = (before ++ [.removeCounter name]) ++ after := by
      rw [heq, List.append_assoc, List.singleton_append]
    have hcounted := hexist.counted _ after name hsplit
    rw [Machine.after_concat] at hcounted
    rcases (counted_perform _).mp (hcounted ((traced_perform _).mpr (.inl htraced))) with
      h | ⟨-, h⟩
    · simp at h
    · exact h rfl
  · intro hout
    have hcounted : ∀ before after name, h = before ++ after →
        Traced (traceManager.after before) name → Counted (traceManager.after before) name := by
      intro before after name heq
      rw [heq] at hout
      exact counted_of_traced hout.of_append
    refine ⟨hcounted, ?_, ?_⟩
    · intro before name after id heq hanswer hid
      apply hcounted before _ name heq
      by_contra htraced
      rw [Traced, Option.not_isSome_iff_eq_none] at htraced
      have hread : (traceManager.after before).getCounterTraceId name = id := Answer.id.inj hanswer
      rw [DebugDataManager.getCounterTraceId, htraced, Option.getD_none] at hread
      omega
    · intro before name between after heq hnew hremove htrace
      have huntraced := mt (hcounted before _ name heq) hnew
      obtain ⟨hadded, hfree⟩ := untraced_after huntraced hremove htrace
      exact ⟨_, traceManager_next_nonneg _, addCounterTrace_new hadded hfree⟩

/-- A counter that is traced, removed and added again cannot be traced again. -/
theorem trace_outlives_counter : ¬ TracesExist
    [.addCounter "queue", .addCounterTrace "queue", .removeCounter "queue",
      .addCounter "queue", .addCounterTrace "queue"] := by
  intro h
  obtain ⟨id, hid, hanswer⟩ := h.first
    [.addCounter "queue", .addCounterTrace "queue", .removeCounter "queue"] "queue" [] [] rfl
    (by decide +kernel) (by simp) (by simp)
  have hrefused : traceManager.answer [.addCounter "queue", .addCounterTrace "queue",
      .removeCounter "queue", .addCounter "queue"] (.addCounterTrace "queue") = .id (-2) := by
    decide +kernel
  cases hanswer.symm.trans hrefused
  omega

end Pfp.Db
