import PFPSim.Debugger.DataManager
import PFPSim.Runs.History

/-!
# Histories of the data manager

The operations of `DebugDataManager` on counters, traces and packets as calls, and the
machine that answers them. What a call of `updatePacket` returns and changes is said once,
in the terms of the triggers that are pending for a packet (`updatePacket_read`,
`updatePacket_write`).
-/

namespace Pfp.Db

open Runs

inductive Call where
  | addCounter (name : String)
  | removeCounter (name : String)
  | updateCounter (name : String) (val : Int)
  | addCounterTrace (name : String)
  | addLatencyTrace (from_module_name to_module_name : String)
  | addThroughputTrace (module_name : String)
  | updatePacket (id : Int) (di : Option DebugInfo) (mod : String) (time : ℚ) (read : Bool)

inductive Answer where
  | done
  /-- `COUNTER DOES NOT EXIST` -/
  | thrown
  | id (id : Int)
  | updates (trace_updates : List TraceData)
  deriving DecidableEq

def perform (c : Call) (dm : DebugDataManager) : Answer × DebugDataManager :=
  match c with
  | .addCounter name => (.done, dm.addCounter name)
  | .removeCounter name => (.done, dm.removeCounter name)
  | .updateCounter name val =>
    match dm.updateCounter name val with
    | some dm => (.done, dm)
    | none => (.thrown, dm)
  | .addCounterTrace name => (.id (dm.addCounterTrace name).1, (dm.addCounterTrace name).2)
  | .addLatencyTrace from_module_name to_module_name =>
    (.id (dm.addLatencyTrace from_module_name to_module_name).1,
      (dm.addLatencyTrace from_module_name to_module_name).2)
  | .addThroughputTrace module_name =>
    (.id (dm.addThroughputTrace module_name).1, (dm.addThroughputTrace module_name).2)
  | .updatePacket id di mod time read =>
    (.updates (dm.updatePacket id di mod time read).1, (dm.updatePacket id di mod time read).2)

def dataManager : Machine DebugDataManager Call Answer := ⟨{}, perform⟩

/-! ## The triggers of a packet -/

namespace DebugDataManager

variable (dm : DebugDataManager)

/-- The latency traces that a read at a module begins. -/
def begun (mod : String) : List LatencyReadTrigger := (dm.latency_read_triggers[mod]?).getD []

/-- The triggers that a write of a packet at a module drains. -/
def pending (mod : String) (id : Int) : List LatencyWriteTrigger :=
  (((dm.latency_write_triggers[mod]?).getD ∅)[id]?).getD []

/-- The trigger that the start of a trace leaves for a write at `mod`, if the trace ends there. -/
def armed (mod : String) (time : ℚ) (t : LatencyReadTrigger) : Option LatencyWriteTrigger :=
  if t.write_module_name = mod then some ⟨t.trace_id, time⟩ else none

theorem armLatency_pending (id p : Int) (time : ℚ) (t : LatencyReadTrigger) (mod : String) :
    (dm.armLatency id time t).pending mod p =
      dm.pending mod p ++ if p = id then (armed mod time t).toList else [] := by
  unfold pending armLatency armed
  rw [Maps.get_insert]
  by_cases hmod : t.write_module_name = mod
  · subst hmod
    rw [if_pos rfl, if_pos rfl, Option.getD_some, Maps.get_insert]
    by_cases hid : id = p
    · subst hid
      simp
    · simp [hid, Ne.symm hid]
  · simp [hmod]

theorem armLatency_foldl_pending (id p : Int) (time : ℚ) (ts : List LatencyReadTrigger)
    (mod : String) :
    (ts.foldl (fun dm t => dm.armLatency id time t) dm).pending mod p =
      dm.pending mod p ++ if p = id then ts.filterMap (armed mod time) else [] := by
  induction ts generalizing dm with
  | nil => simp
  | cons t ts ih =>
    rw [List.foldl_cons, ih, armLatency_pending, List.append_assoc]
    by_cases hid : p = id
    · simp only [if_pos hid, List.filterMap_cons]
      cases armed mod time t <;> rfl
    · simp only [if_neg hid, List.append_nil]

/-- Nothing else changes. -/
theorem armLatency_foldl_eq (id : Int) (time : ℚ) (ts : List LatencyReadTrigger) :
    ts.foldl (fun dm t => dm.armLatency id time t) dm = { dm with latency_write_triggers :=
      (ts.foldl (fun dm t => dm.armLatency id time t) dm).latency_write_triggers } := by
  induction ts generalizing dm with
  | nil => rfl
  | cons t ts ih => exact ih _

theorem latencyUpdates_fst (id : Int) (mod : String) (time : ℚ) :
    (dm.latencyUpdates id mod time).1 =
      (dm.pending mod id).map fun t => ⟨t.trace_id, time - t.read_time⟩ := by
  unfold latencyUpdates pending
  cases hmod : dm.latency_write_triggers[mod]? with
  | none => simp
  | some packets =>
    rw [Option.getD_some]
    cases hid : packets[id]? <;> simp [hid]

theorem latencyUpdates_pending (id p : Int) (mod m : String) (time : ℚ) :
    (dm.latencyUpdates id mod time).2.pending m p =
      if m = mod ∧ p = id then [] else dm.pending m p := by
  unfold latencyUpdates pending
  cases hmod : dm.latency_write_triggers[mod]? with
  | none =>
    by_cases heq : m = mod ∧ p = id
    · simp [heq.1, hmod]
    · rw [if_neg heq]
  | some packets =>
    cases hid : packets[id]? with
    | none =>
      simp only [hid]
      by_cases heq : m = mod ∧ p = id
      · simp [heq.1, heq.2, hmod, hid]
      · rw [if_neg heq]
    | some triggers =>
      simp only [hid]
      rw [Maps.get_insert]
      by_cases hm : mod = m
      · subst hm
        rw [if_pos rfl, Option.getD_some, Maps.get_erase, hmod, Option.getD_some]
        by_cases hp : id = p
        · simp [hp]
        · simp [hp, Ne.symm hp]
      · rw [if_neg hm, if_neg fun h => hm h.1.symm]

theorem latencyUpdates_eq (id : Int) (mod : String) (time : ℚ) :
    (dm.latencyUpdates id mod time).2 = { dm with latency_write_triggers :=
      (dm.latencyUpdates id mod time).2.latency_write_triggers } := by
  unfold latencyUpdates
  split
  · rfl
  · split <;> rfl

/-- The update that a trigger for throughput gives at a write. -/
def throughput (time : ℚ) (t : ThroughputTrigger) : Option TraceData :=
  if t.last_time ≥ 0 then some ⟨t.trace_id, 1000 * 1000 * 1000 / (time - t.last_time)⟩ else none

theorem throughputUpdates_fst (mod : String) (time : ℚ) :
    (dm.throughputUpdates mod time).1 =
      ((dm.throughput_triggers[mod]?).bind (throughput time)).toList := by
  unfold throughputUpdates throughput
  cases dm.throughput_triggers[mod]? with
  | none => rfl
  | some t => by_cases ht : t.last_time ≥ 0 <;> simp [ht]

theorem throughputUpdates_triggers (mod m : String) (time : ℚ) :
    (dm.throughputUpdates mod time).2.throughput_triggers[m]? =
      if m = mod then (dm.throughput_triggers[m]?).map ({ · with last_time := time })
      else dm.throughput_triggers[m]? := by
  unfold throughputUpdates
  cases hmod : dm.throughput_triggers[mod]? with
  | none =>
    by_cases hm : m = mod
    · simp [hm, hmod]
    · rw [if_neg hm]
  | some t =>
    simp only
    rw [Maps.get_insert]
    by_cases hm : mod = m
    · subst hm
      rw [if_pos rfl, if_pos rfl, hmod]
      rfl
    · rw [if_neg hm, if_neg (Ne.symm hm)]

theorem throughputUpdates_eq (mod : String) (time : ℚ) :
    (dm.throughputUpdates mod time).2 = { dm with throughput_triggers :=
      (dm.throughputUpdates mod time).2.throughput_triggers } := by
  unfold throughputUpdates
  split <;> rfl

/-! ## Packets -/

/-- The packet that a call of `updatePacket` works on. -/
def packet (id : Int) (mod : String) (time : ℚ) : DebuggerPacket :=
  (dm.packet_list[id]?).getD { packet_id := id, current_location := mod, last_notify_time := time }

/-- What an event does to the packet. -/
def touched (di : Option DebugInfo) (mod : String) (time : ℚ) (read : Bool) (pk : DebuggerPacket) :
    DebuggerPacket :=
  if read then
    (((pk.setDebugInfo di).setTime time).setCurrentLocation mod).updateTraceReadTime mod time
  else (pk.setDebugInfo di).updateTraceWriteTime mod time

/-- The event is stored with its packet. -/
def store (id : Int) (di : Option DebugInfo) (mod : String) (time : ℚ) (read : Bool) :
    DebugDataManager :=
  { dm with
    packet_list := dm.packet_list.insert id (touched di mod time read (dm.packet id mod time)) }

variable {dm} {id p : Int} {di : Option DebugInfo} {mod m : String} {time : ℚ}

theorem updatePacket_read : dm.updatePacket id di mod time true = ([],
    (dm.begun mod).foldl (fun dm t => dm.armLatency id time t) (dm.store id di mod time true)) :=
  rfl

theorem updatePacket_write : dm.updatePacket id di mod time false =
    let stored := dm.store id di mod time false
    ((stored.latencyUpdates id mod time).1 ++
        ((stored.latencyUpdates id mod time).2.throughputUpdates mod time).1,
      ((stored.latencyUpdates id mod time).2.throughputUpdates mod time).2) := rfl

/-- The fields that a call changes. -/
theorem updatePacket_eq (read : Bool) :
    (dm.updatePacket id di mod time read).2 = { dm.store id di mod time read with
    latency_write_triggers := (dm.updatePacket id di mod time read).2.latency_write_triggers
    throughput_triggers := (dm.updatePacket id di mod time read).2.throughput_triggers } := by
  cases read with
  | true =>
    rw [updatePacket_read]
    simp only
    rw [armLatency_foldl_eq]
  | false =>
    rw [updatePacket_write]
    simp only
    rw [throughputUpdates_eq, latencyUpdates_eq]

theorem updatePacket_read_pending : (dm.updatePacket id di mod time true).2.pending m p =
    dm.pending m p ++ if p = id then (dm.begun mod).filterMap (armed m time) else [] :=
  armLatency_foldl_pending ..

theorem updatePacket_write_pending : (dm.updatePacket id di mod time false).2.pending m p =
    if m = mod ∧ p = id then [] else dm.pending m p := by
  rw [updatePacket_write]
  simp only
  rw [throughputUpdates_eq]
  exact latencyUpdates_pending ..

theorem updatePacket_read_triggers :
    (dm.updatePacket id di mod time true).2.throughput_triggers = dm.throughput_triggers := by
  rw [updatePacket_read]
  simp only
  rw [armLatency_foldl_eq]
  rfl

theorem updatePacket_write_triggers :
    (dm.updatePacket id di mod time false).2.throughput_triggers[m]? =
      if m = mod then (dm.throughput_triggers[m]?).map ({ · with last_time := time })
      else dm.throughput_triggers[m]? := by
  rw [updatePacket_write]
  simp only
  rw [throughputUpdates_triggers, latencyUpdates_eq]
  rfl

/-- A write returns an update for each pending trigger, and one for the throughput. -/
theorem updatePacket_write_fst : (dm.updatePacket id di mod time false).1 =
    (dm.pending mod id).map (fun t => ⟨t.trace_id, time - t.read_time⟩) ++
      ((dm.throughput_triggers[mod]?).bind (throughput time)).toList := by
  rw [updatePacket_write]
  simp only
  rw [latencyUpdates_fst, throughputUpdates_fst, latencyUpdates_eq]
  rfl

end DebugDataManager

/-! ## What the calls leave alone -/

theorem perform_updateCounter (name : String) (val : Int) (dm : DebugDataManager) :
    (perform (.updateCounter name val) dm).2 =
      { dm with counters := (perform (.updateCounter name val) dm).2.counters } := by
  simp only [perform, DebugDataManager.updateCounter]
  cases dm.counters[name]?.isSome <;> rfl

theorem perform_addCounterTrace (name : String) (dm : DebugDataManager) :
    (perform (.addCounterTrace name) dm).2 = { dm with
      trace_id := (perform (.addCounterTrace name) dm).2.trace_id
      counter_traces := (perform (.addCounterTrace name) dm).2.counter_traces } := by
  simp only [perform, DebugDataManager.addCounterTrace]
  split
  · rfl
  · split <;> rfl

/-- The calls change counters, traces and packets only. -/
theorem perform_frame (c : Call) (dm : DebugDataManager) : (perform c dm).2 = { dm with
    counters := (perform c dm).2.counters
    trace_id := (perform c dm).2.trace_id
    counter_traces := (perform c dm).2.counter_traces
    latency_read_triggers := (perform c dm).2.latency_read_triggers
    latency_write_triggers := (perform c dm).2.latency_write_triggers
    throughput_triggers := (perform c dm).2.throughput_triggers
    packet_list := (perform c dm).2.packet_list } := by
  cases c with
  | updateCounter name val =>
    rw [perform_updateCounter]
  | addCounterTrace name =>
    rw [perform_addCounterTrace]
  | updatePacket id di mod time read =>
    simp only [perform]
    rw [DebugDataManager.updatePacket_eq]
    rfl
  | _ => rfl

end Pfp.Db
