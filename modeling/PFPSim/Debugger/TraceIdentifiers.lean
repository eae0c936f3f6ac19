import PFPSim.Debugger.Calls
import Mathlib.Data.List.Nodup

/-!
# The identifiers of traces

`issued h` are the identifiers that the calls of a history have returned, each with the
trace that it stands for. The data manager keeps this register (`Register`): its counter is
the length, and what it stores under an identifier is the trace of the register.
-/

namespace Pfp.Db

open Runs

/-- What an identifier stands for. -/
inductive Trace where
  | counter (name : String)
  | latency (from_module_name to_module_name : String)
  | throughput (module_name : String)
  deriving DecidableEq

/-- The trace that a call is to create. -/
def Call.trace : Call → Option Trace
  | .addCounterTrace name => some (.counter name)
  | .addLatencyTrace from_module_name to_module_name =>
    some (.latency from_module_name to_module_name)
  | .addThroughputTrace module_name => some (.throughput module_name)
  | _ => none

/-- The identifier that an answer gives to the trace of the call; a refusal is negative. -/
def issue (c : Call) (r : Answer) : Option (Int × Trace) :=
  match c.trace, r with
  | some t, .id id => if 0 ≤ id then some (id, t) else none
  | _, _ => none

def issued (h : List Call) : List (Int × Trace) :=
  (dataManager.answers h).filterMap fun x => issue x.1 x.2

theorem issued_concat (h : List Call) (c : Call) :
    issued (h ++ [c]) = issued h ++ (issue c (dataManager.answer h c)).toList := by
  rw [issued, dataManager.answers_concat]
  exact filterMap_concat ..

/-- The trigger of a latency trace from `mod`. -/
def latencyFrom (mod : String) : Int × Trace → Option LatencyReadTrigger
  | (id, .latency from_module_name to_module_name) =>
    if from_module_name = mod then some ⟨id, to_module_name⟩ else none
  | _ => none

theorem latencyFrom_eq_some {mod : String} {x : Int × Trace} {t : LatencyReadTrigger} :
    latencyFrom mod x = some t ↔ x = (t.trace_id, .latency mod t.write_module_name) := by
  obtain ⟨id, trace⟩ := x
  obtain ⟨trace_id, write_module_name⟩ := t
  cases trace with
  | latency f e =>
    simp only [latencyFrom, Option.ite_none_right_eq_some, Option.some.injEq,
      LatencyReadTrigger.mk.injEq, Prod.mk.injEq, Trace.latency.injEq]
    constructor
    · rintro ⟨rfl, rfl, rfl⟩
      exact ⟨rfl, rfl, rfl⟩
    · rintro ⟨rfl, rfl, rfl⟩
      exact ⟨rfl, rfl, rfl⟩
  | counter name => simp [latencyFrom]
  | throughput mod => simp [latencyFrom]

/-- The identifier of the last throughput trace on `mod`. -/
def lastThroughput (mod : String) (l : List (Int × Trace)) : Option Int :=
  ((l.filter fun x => x.2 = .throughput mod).getLast?).map Prod.fst

/-- The data manager has issued the identifiers `l`, and stores what they stand for. -/
structure Register (l : List (Int × Trace)) (dm : DebugDataManager) : Prop where
  next : dm.trace_id = l.length
  ids : l.map Prod.fst = (List.range l.length).map fun n : Nat => (n : Int)
  counters : ∀ name id, dm.counter_traces[name]? = some id ↔ (id, .counter name) ∈ l
  begun : ∀ mod, dm.begun mod = l.filterMap (latencyFrom mod)
  pending : ∀ mod p, ∀ t ∈ dm.pending mod p, ∃ f, (t.trace_id, .latency f mod) ∈ l
  throughput : ∀ mod, (dm.throughput_triggers[mod]?).map ThroughputTrigger.trace_id =
    lastThroughput mod l

namespace Register

variable {l : List (Int × Trace)} {dm : DebugDataManager}

theorem nodup (h : Register l dm) : (l.map Prod.fst).Nodup := by
  rw [h.ids]
  exact List.nodup_range.map fun x y hxy => Int.ofNat_inj.mp hxy

/-- An identifier stands for one trace. -/
theorem trace_unique (h : Register l dm) {id : Int} {t u : Trace} (ht : (id, t) ∈ l)
    (hu : (id, u) ∈ l) : t = u :=
  congrArg Prod.snd (List.inj_on_of_nodup_map h.nodup ht hu rfl)

/-- The register with the next identifier. -/
theorem ids_concat (h : Register l dm) (t : Trace) : (l ++ [(dm.trace_id, t)]).map Prod.fst =
    (List.range (l ++ [(dm.trace_id, t)]).length).map fun n : Nat => (n : Int) := by
  rw [List.map_append, h.ids, List.length_append, List.length_singleton, List.range_succ,
    List.map_append, h.next]
  rfl

theorem next_concat (h : Register l dm) (t : Trace) :
    dm.trace_id + 1 = (l ++ [(dm.trace_id, t)]).length := by
  rw [h.next, List.length_append, List.length_singleton]
  rfl

theorem next_nonneg (h : Register l dm) : 0 ≤ dm.trace_id := by
  rw [h.next]
  exact Int.natCast_nonneg _

theorem pending_concat (h : Register l dm) (x : Int × Trace) {mod : String} {p : Int} :
    ∀ t ∈ dm.pending mod p, ∃ f, (t.trace_id, .latency f mod) ∈ l ++ [x] := by
  intro t ht
  obtain ⟨f, hf⟩ := h.pending mod p t ht
  exact ⟨f, List.mem_append_left _ hf⟩

theorem lastThroughput_concat (mod : String) (x : Int × Trace) :
    lastThroughput mod (l ++ [x]) =
      if x.2 = .throughput mod then some x.1 else lastThroughput mod l := by
  unfold lastThroughput
  rw [List.filter_append]
  split
  · rename_i hx
    simp [hx]
  · rename_i hx
    simp [hx]

/-- A counter trace that is not refused. -/
theorem addCounterTrace (h : Register l dm) {name : String}
    (hnew : dm.counter_traces[name]?.isSome ≠ true) :
    Register (l ++ [(dm.trace_id, .counter name)]) { dm with
      trace_id := dm.trace_id + 1
      counter_traces := dm.counter_traces.insert name dm.trace_id } where
  next := h.next_concat _
  ids := h.ids_concat _
  counters name' id := by
    rw [Maps.get_insert, List.mem_append, List.mem_singleton]
    by_cases hname : name = name'
    · subst hname
      rw [if_pos rfl, ← h.counters name id]
      rw [ne_eq, Option.isSome_iff_ne_none, not_not] at hnew
      simp [hnew, eq_comm]
    · rw [if_neg hname, h.counters]
      simp [Ne.symm hname]
  begun mod := by
    rw [List.filterMap_append, ← h.begun]
    simp [latencyFrom, DebugDataManager.begun]
  pending mod p := h.pending_concat _
  throughput mod := by
    rw [lastThroughput_concat, if_neg (by simp)]
    exact h.throughput mod

theorem addLatencyTrace (h : Register l dm) (from_module_name to_module_name : String) :
    Register (l ++ [(dm.trace_id, .latency from_module_name to_module_name)])
      (dm.addLatencyTrace from_module_name to_module_name).2 where
  next := h.next_concat _
  ids := h.ids_concat _
  counters name id := by
    rw [List.mem_append, List.mem_singleton]
    simp only [Prod.mk.injEq, reduceCtorEq, and_false, or_false]
    exact h.counters name id
  begun mod := by
    have hbegun := h.begun mod
    unfold DebugDataManager.begun at hbegun ⊢
    unfold DebugDataManager.addLatencyTrace
    simp only
    rw [Maps.get_insert, List.filterMap_append]
    by_cases hmod : from_module_name = mod
    · subst hmod
      rw [if_pos rfl, Option.getD_some, hbegun]
      simp [latencyFrom]
    · rw [if_neg hmod, hbegun]
      simp [latencyFrom, hmod]
  pending mod p := h.pending_concat _
  throughput mod := by
    rw [lastThroughput_concat, if_neg (by simp)]
    exact h.throughput mod

theorem addThroughputTrace (h : Register l dm) (module_name : String) :
    Register (l ++ [(dm.trace_id, .throughput module_name)])
      (dm.addThroughputTrace module_name).2 where
  next := h.next_concat _
  ids := h.ids_concat _
  counters name id := by
    rw [List.mem_append, List.mem_singleton]
    simp only [Prod.mk.injEq, reduceCtorEq, and_false, or_false]
    exact h.counters name id
  begun mod := by
    rw [List.filterMap_append, ← h.begun]
    simp [latencyFrom, DebugDataManager.begun, DebugDataManager.addThroughputTrace]
  pending mod p := h.pending_concat _
  throughput mod := by
    rw [lastThroughput_concat]
    simp only [DebugDataManager.addThroughputTrace, Maps.get_insert, Trace.throughput.injEq]
    by_cases hmod : module_name = mod
    · rw [if_pos hmod, if_pos hmod]
      rfl
    · rw [if_neg hmod, if_neg hmod]
      exact h.throughput mod

theorem updatePacket (h : Register l dm) (id : Int) (di : Option DebugInfo) (mod : String)
    (time : ℚ) (read : Bool) : Register l (dm.updatePacket id di mod time read).2 where
  next := by
    rw [DebugDataManager.updatePacket_eq]
    exact h.next
  ids := h.ids
  counters := by
    rw [DebugDataManager.updatePacket_eq]
    exact h.counters
  begun := by
    rw [DebugDataManager.updatePacket_eq]
    exact h.begun
  pending m p t ht := by
    cases read with
    | true =>
      rw [DebugDataManager.updatePacket_read_pending, List.mem_append] at ht
      rcases ht with ht | ht
      · exact h.pending m p t ht
      · split at ht
        · obtain ⟨r, hr, harmed⟩ := List.mem_filterMap.mp ht
          rw [h.begun, List.mem_filterMap] at hr
          obtain ⟨x, hx, hfrom⟩ := hr
          rw [latencyFrom_eq_some] at hfrom
          simp only [DebugDataManager.armed, Option.ite_none_right_eq_some,
            Option.some.injEq] at harmed
          obtain ⟨rfl, rfl⟩ := harmed
          subst hfrom
          exact ⟨mod, hx⟩
        · cases ht
    | false =>
      rw [DebugDataManager.updatePacket_write_pending] at ht
      split at ht
      · cases ht
      · exact h.pending m p t ht
  throughput m := by
    cases read with
    | true =>
      rw [DebugDataManager.updatePacket_read_triggers]
      exact h.throughput m
    | false =>
      rw [DebugDataManager.updatePacket_write_triggers, ← h.throughput m]
      split
      · rw [Option.map_map]
        rfl
      · rfl

/-- One more call. -/
theorem perform (h : Register l dm) (c : Call) :
    Register (l ++ (issue c (perform c dm).1).toList) (perform c dm).2 := by
  cases c with
  | addCounter name | removeCounter name =>
    simp only [Db.perform, issue, Call.trace, Option.toList_none, List.append_nil]
    exact ⟨h.next, h.ids, h.counters, h.begun, h.pending, h.throughput⟩
  | updateCounter name val =>
    rw [perform_updateCounter]
    simp only [issue, Call.trace, Option.toList_none, List.append_nil]
    exact ⟨h.next, h.ids, h.counters, h.begun, h.pending, h.throughput⟩
  | addCounterTrace name =>
    simp only [Db.perform, DebugDataManager.addCounterTrace]
    split
    · simpa [issue, Call.trace] using h
    · split
      · simpa [issue, Call.trace] using h
      · rename_i hnew
        simp only [issue, Call.trace, if_pos h.next_nonneg, Option.toList_some]
        exact h.addCounterTrace hnew
  | addLatencyTrace from_module_name to_module_name =>
    simp only [Db.perform, DebugDataManager.addLatencyTrace, issue, Call.trace,
      if_pos h.next_nonneg, Option.toList_some]
    exact h.addLatencyTrace from_module_name to_module_name
  | addThroughputTrace module_name =>
    simp only [Db.perform, DebugDataManager.addThroughputTrace, issue, Call.trace,
      if_pos h.next_nonneg, Option.toList_some]
    exact h.addThroughputTrace module_name
  | updatePacket id di mod time read =>
    simp only [Db.perform, issue, Call.trace, Option.toList_none, List.append_nil]
    exact h.updatePacket id di mod time read

end Register

/-- The data manager keeps the register of every history. -/
theorem register (h : List Call) : Register (issued h) (dataManager.after h) := by
  refine dataManager.invariant (I := fun h dm => Register (issued h) dm) ?_ ?_ h
  · have hissued : issued [] = [] := rfl
    rw [hissued]
    refine ⟨rfl, rfl, ?_, ?_, ?_, ?_⟩
    · intro name id
      simp [dataManager]
    · intro mod
      simp [dataManager, DebugDataManager.begun]
    · intro mod p t ht
      simp [dataManager, DebugDataManager.pending] at ht
    · intro mod
      simp [dataManager, lastThroughput]
  · intro h c ih
    rw [issued_concat]
    exact ih.perform c

/-! ## What is stored -/

/-- The identifiers that are stored, each with what it is stored for. -/
def stored (dm : DebugDataManager) : List (Int × Trace) :=
  (dm.counter_traces.toList.map fun x => (x.2, .counter x.1)) ++
    (dm.latency_read_triggers.toList.flatMap fun x =>
      x.2.map fun t => (t.trace_id, .latency x.1 t.write_module_name)) ++
    dm.throughput_triggers.toList.map fun x => (x.2.trace_id, .throughput x.1)

namespace Register

variable {l : List (Int × Trace)} {dm : DebugDataManager}

theorem throughput_mem (h : Register l dm) {mod : String} {t : ThroughputTrigger}
    (ht : dm.throughput_triggers[mod]? = some t) : (t.trace_id, .throughput mod) ∈ l := by
  have hlast := h.throughput mod
  rw [ht, Option.map_some, eq_comm, lastThroughput, Option.map_eq_some_iff] at hlast
  obtain ⟨⟨id, trace⟩, hx, rfl⟩ := hlast
  have hmem := List.mem_of_getLast? hx
  rw [List.mem_filter, decide_eq_true_eq] at hmem
  obtain ⟨hmem, rfl⟩ := hmem
  exact hmem

theorem begun_mem (h : Register l dm) {mod : String} {t : LatencyReadTrigger}
    (ht : t ∈ dm.begun mod) : (t.trace_id, .latency mod t.write_module_name) ∈ l := by
  rw [h.begun, List.mem_filterMap] at ht
  obtain ⟨x, hx, hfrom⟩ := ht
  rw [latencyFrom_eq_some] at hfrom
  exact hfrom ▸ hx

theorem begun_of_get {mod : String} {ts : List LatencyReadTrigger}
    (hts : dm.latency_read_triggers[mod]? = some ts) : dm.begun mod = ts := by
  rw [DebugDataManager.begun, hts, Option.getD_some]

/-- The traces that begin at a module have different identifiers. -/
theorem begun_nodup (h : Register l dm) (mod : String) :
    ((dm.begun mod).map fun t => (t.trace_id, Trace.latency mod t.write_module_name)).Nodup := by
  have hl : l.Nodup := List.Nodup.of_map _ h.nodup
  rw [h.begun]
  refine List.Nodup.map ?_ (hl.filterMap ?_)
  · rintro ⟨id, mod⟩ ⟨id', mod'⟩ heq
    cases heq
    rfl
  · intro x y t hx hy
    rw [Option.mem_def, latencyFrom_eq_some] at hx hy
    rw [hx, hy]

theorem mem_of_stored (h : Register l dm) {x : Int × Trace} (hx : x ∈ stored dm) : x ∈ l := by
  rw [stored, List.mem_append, List.mem_append] at hx
  rcases hx with (hx | hx) | hx
  · obtain ⟨y, hy, rfl⟩ := List.mem_map.mp hx
    exact (h.counters _ _).mp (Maps.mem_toList.mp hy)
  · obtain ⟨y, hy, hx⟩ := List.mem_flatMap.mp hx
    obtain ⟨t, ht, rfl⟩ := List.mem_map.mp hx
    apply h.begun_mem
    rw [begun_of_get (Maps.mem_toList.mp hy)]
    exact ht
  · obtain ⟨y, hy, rfl⟩ := List.mem_map.mp hx
    exact h.throughput_mem (Maps.mem_toList.mp hy)

theorem stored_nodup (h : Register l dm) : (stored dm).Nodup := by
  have hcounters : (dm.counter_traces.toList.map fun x => (x.2, Trace.counter x.1)).Nodup := by
    apply List.Pairwise.map _ _ (Maps.distinct_keys _)
    intro x y hne heq
    exact hne (Trace.counter.inj (congrArg Prod.snd heq))
  have hthroughput : (dm.throughput_triggers.toList.map fun x =>
      (x.2.trace_id, Trace.throughput x.1)).Nodup := by
    apply List.Pairwise.map _ _ (Maps.distinct_keys _)
    intro x y hne heq
    exact hne (Trace.throughput.inj (congrArg Prod.snd heq))
  have hlatency : (dm.latency_read_triggers.toList.flatMap fun x =>
      x.2.map fun t => (t.trace_id, Trace.latency x.1 t.write_module_name)).Nodup := by
    refine List.nodup_flatMap.mpr ⟨?_, (Maps.distinct_keys _).imp ?_⟩
    · intro x hx
      have hnodup := h.begun_nodup x.1
      rw [begun_of_get (Maps.mem_toList.mp hx)] at hnodup
      exact hnodup
    · intro x y hne z hzx hzy
      obtain ⟨t, -, rfl⟩ := List.mem_map.mp hzx
      obtain ⟨u, -, heq⟩ := List.mem_map.mp hzy
      exact hne (Trace.latency.inj (congrArg Prod.snd heq)).1.symm
  -- the three sorts of traces are different
  refine List.Nodup.append (hcounters.append hlatency ?_) hthroughput ?_
  · intro z hz hz'
    obtain ⟨x, -, rfl⟩ := List.mem_map.mp hz
    obtain ⟨y, -, hy⟩ := List.mem_flatMap.mp hz'
    obtain ⟨t, -, heq⟩ := List.mem_map.mp hy
    cases congrArg Prod.snd heq
  · intro z hz hz'
    obtain ⟨x, -, rfl⟩ := List.mem_map.mp hz'
    rcases List.mem_append.mp hz with hz | hz
    · obtain ⟨y, -, heq⟩ := List.mem_map.mp hz
      cases congrArg Prod.snd heq
    · obtain ⟨y, -, hy⟩ := List.mem_flatMap.mp hz
      obtain ⟨t, -, heq⟩ := List.mem_map.mp hy
      cases congrArg Prod.snd heq

/-- No identifier is stored for two traces. -/
theorem stored_once (h : Register l dm) : ((stored dm).map Prod.fst).Nodup := by
  apply List.Nodup.map_on _ h.stored_nodup
  intro x hx y hy heq
  exact List.inj_on_of_nodup_map h.nodup (h.mem_of_stored hx) (h.mem_of_stored hy) heq

/-- The updates of a packet belong to traces that end at its module. -/
theorem update_mem (h : Register l dm) {id : Int} {di : Option DebugInfo} {mod : String} {time : ℚ}
    {read : Bool} {u : TraceData} (hu : u ∈ (dm.updatePacket id di mod time read).1) :
    (∃ f, (u.id, .latency f mod) ∈ l) ∨ (u.id, .throughput mod) ∈ l := by
  cases read with
  | true => cases hu
  | false =>
    rw [DebugDataManager.updatePacket_write_fst, List.mem_append] at hu
    rcases hu with hu | hu
    · obtain ⟨t, ht, rfl⟩ := List.mem_map.mp hu
      exact .inl (h.pending mod id t ht)
    · rw [Option.mem_toList, Option.bind_eq_some_iff] at hu
      obtain ⟨t, ht, hthroughput⟩ := hu
      rw [DebugDataManager.throughput, Option.ite_none_right_eq_some] at hthroughput
      cases hthroughput.2
      exact .inr (h.throughput_mem ht)

end Register

/-- The identifiers of a history are accounted for. -/
structure Accounted (h : List Call) : Prop where
  /-- In the order of the calls they are `0`, `1`, `2` and so on. -/
  initial : (issued h).map Prod.fst =
    (List.range (issued h).length).map fun n : Nat => (n : Int)
  distinct : ((issued h).map Prod.fst).Nodup
  stored : ∀ x ∈ stored (dataManager.after h), x ∈ issued h
  once : ((Db.stored (dataManager.after h)).map Prod.fst).Nodup
  pending : ∀ mod p, ∀ t ∈ (dataManager.after h).pending mod p,
    ∃ f, (t.trace_id, .latency f mod) ∈ issued h
  updates : ∀ id di mod time read us,
    dataManager.answer h (.updatePacket id di mod time read) = .updates us → ∀ u ∈ us,
      (∃ f, (u.id, .latency f mod) ∈ issued h) ∨ (u.id, .throughput mod) ∈ issued h

/-- **Identifiers are accounted for** after every history of calls. -/
theorem accounted (h : List Call) : Accounted h where
  initial := (register h).ids
  distinct := (register h).nodup
  stored _ hx := (register h).mem_of_stored hx
  once := (register h).stored_once
  pending := (register h).pending
  updates id di mod time read us hus u hu := by
    cases hus
    exact (register h).update_mem hu

end Pfp.Db
