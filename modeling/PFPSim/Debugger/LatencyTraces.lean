import PFPSim.Debugger.TraceIdentifiers

/-!
# Latency traces

What a write reports of latencies, said by the history alone (`due`): one update for each
read of the packet and each latency trace from the module of the read, if the trace was
there before the read and no write of the packet has come since. The triggers that the data
manager keeps for a packet are exactly these (`pending_eq_due`).
-/

namespace Pfp.Db

open Runs

namespace Call

/-- The call is a write of packet `p` at `mod`. -/
def writes (p : Int) (mod : String) : Call → Bool
  | .updatePacket id _ m _ false => id = p ∧ m = mod
  | _ => false

/-- The module and the time of a read of packet `p`. -/
def reads (p : Int) : Call → Option (String × ℚ)
  | .updatePacket id _ m time true => if id = p then some (m, time) else none
  | _ => none

end Call

/-- The identifiers of the latency traces between two modules, in the order of creation. -/
def latencies (from_module_name to_module_name : String) (l : List (Int × Trace)) : List Int :=
  l.filterMap fun x =>
    if x.2 = .latency from_module_name to_module_name then some x.1 else none

/-- The latencies that a read of packet `p` begins towards `mod`: the identifiers of the
traces, with the time of the read. -/
def starts (l : List (Int × Trace)) (p : Int) (mod : String) (c : Call) : List (Int × ℚ) :=
  match c.reads p with
  | some (from_module_name, time) => (latencies from_module_name mod l).map fun id => (id, time)
  | none => []

/-- The latencies that a write of packet `p` at `mod` is to report: those that begin with a
read behind which no such write comes. -/
def due (h : List Call) (p : Int) (mod : String) : List (Int × ℚ) :=
  (splits h).flatMap fun x =>
    if x.after.any (Call.writes p mod) then [] else starts (issued x.before) p mod x.call

theorem due_concat (h : List Call) (c : Call) (p : Int) (mod : String) :
    due (h ++ [c]) p mod =
      (if c.writes p mod then [] else due h p mod) ++ starts (issued h) p mod c := by
  unfold due
  rw [splits_concat, List.flatMap_append, List.flatMap_map, List.flatMap_singleton]
  congr 1
  by_cases hc : c.writes p mod = true
  · rw [if_pos hc, List.flatMap_eq_nil_iff]
    intro x _
    rw [if_pos]
    simp [hc]
  · rw [if_neg hc]
    apply List.flatMap_congr
    intro x _
    simp [hc]

/-- The triggers of a latency. -/
def trigger (x : Int × ℚ) : LatencyWriteTrigger := ⟨x.1, x.2⟩

theorem armed_latencies (l : List (Int × Trace)) (from_module_name mod : String) (time : ℚ) :
    (l.filterMap (latencyFrom from_module_name)).filterMap (DebugDataManager.armed mod time) =
      ((latencies from_module_name mod l).map fun id => (id, time)).map trigger := by
  rw [latencies, List.filterMap_filterMap, List.map_map, List.map_filterMap]
  apply List.filterMap_congr
  intro x _
  obtain ⟨id, trace⟩ := x
  cases trace with
  | latency f e =>
    by_cases hf : f = from_module_name
    · by_cases he : e = mod
      · simp [latencyFrom, DebugDataManager.armed, hf, he, trigger]
      · simp [latencyFrom, DebugDataManager.armed, hf, he]
    · simp [latencyFrom, hf]
  | counter name => simp [latencyFrom]
  | throughput m => simp [latencyFrom]

theorem perform_pending {l : List (Int × Trace)} {dm : DebugDataManager} (h : Register l dm)
    (c : Call) (p : Int) (mod : String) : (perform c dm).2.pending mod p =
      (if c.writes p mod then [] else dm.pending mod p) ++ (starts l p mod c).map trigger := by
  cases c with
  | updatePacket id di m time read =>
    cases read with
    | true =>
      simp only [perform, DebugDataManager.updatePacket_read_pending, Call.writes, starts,
        Call.reads, h.begun, armed_latencies, Bool.false_eq_true, if_false]
      by_cases hid : p = id
      · simp [hid]
      · simp [hid, Ne.symm hid]
    | false =>
      simp only [perform, DebugDataManager.updatePacket_write_pending, Call.writes, starts,
        Call.reads, List.map_nil, List.append_nil, decide_eq_true_eq]
      by_cases hwrite : id = p ∧ m = mod
      · rw [if_pos hwrite, if_pos ⟨hwrite.2.symm, hwrite.1.symm⟩]
      · rw [if_neg hwrite, if_neg fun hw => hwrite ⟨hw.2.symm, hw.1.symm⟩]
  | updateCounter name val =>
    rw [perform_updateCounter]
    simp only [Call.writes, starts, Call.reads, List.map_nil, List.append_nil,
      Bool.false_eq_true, if_false]
    rfl
  | addCounterTrace name =>
    rw [perform_addCounterTrace]
    simp only [Call.writes, starts, Call.reads, List.map_nil, List.append_nil,
      Bool.false_eq_true, if_false]
    rfl
  | _ =>
    simp only [Call.writes, starts, Call.reads, List.map_nil, List.append_nil,
      Bool.false_eq_true, if_false]
    rfl

/-- The pending triggers are the latencies that are due. -/
theorem pending_eq_due (h : List Call) (p : Int) (mod : String) :
    (dataManager.after h).pending mod p = (due h p mod).map trigger := by
  induction h using List.reverseRecOn with
  | nil => simp [dataManager, due, splits, DebugDataManager.pending]
  | append_singleton h c ih =>
    rw [dataManager.after_concat, due_concat, List.map_append]
    refine (perform_pending (register h) c p mod).trans ?_
    rw [ih]
    split <;> rfl

/-! ## Reports -/

def Trace.isLatency : Trace → Bool
  | .latency .. => true
  | _ => false

/-- The identifier belongs to a latency trace. -/
def namesLatency (l : List (Int × Trace)) (id : Int) : Bool :=
  l.any fun x => x.1 = id ∧ x.2.isLatency

/-- The updates of an answer that belong to latency traces. -/
def Answer.latencyUpdates (l : List (Int × Trace)) : Answer → List TraceData
  | .updates us => us.filter fun u => namesLatency l u.id
  | _ => []

/-- The latency updates that a call is to return: a write of packet `p` at `mod` returns
the latencies that are due, and other calls return none. -/
def latencyReports (h : List Call) : Call → List TraceData
  | .updatePacket p _ mod time false =>
    (due h p mod).map fun x => { id := x.1, value := time - x.2 }
  | _ => []

/-- **Latencies** are reported by the writes that end them, each once and in the order of
the reads that begin them. -/
theorem latencies_reported (h : List Call) (c : Call) :
    (dataManager.answer h c).latencyUpdates (issued h) = latencyReports h c := by
  have hregister := register h
  cases c with
  | updatePacket p di mod time read =>
    cases read with
    | true => rfl
    | false =>
      have hanswer : dataManager.answer h (.updatePacket p di mod time false) =
          .updates ((dataManager.after h).updatePacket p di mod time false).1 := rfl
      rw [hanswer, Answer.latencyUpdates, DebugDataManager.updatePacket_write_fst,
        List.filter_append, latencyReports, pending_eq_due, List.map_map]
      -- the updates for latencies stay, that for the throughput does not
      have hlatency : ∀ u ∈ (due h p mod).map
          ((fun t : LatencyWriteTrigger => (⟨t.trace_id, time - t.read_time⟩ : TraceData)) ∘
            trigger),
          namesLatency (issued h) u.id = true := by
        intro u hu
        obtain ⟨x, hx, rfl⟩ := List.mem_map.mp hu
        have hpending : trigger x ∈ (dataManager.after h).pending mod p := by
          rw [pending_eq_due]
          exact List.mem_map_of_mem hx
        obtain ⟨f, hf⟩ := hregister.pending mod p _ hpending
        exact List.any_eq_true.mpr ⟨_, hf, by simp [trigger, Trace.isLatency]⟩
      have hthroughput : ∀ u ∈ (((dataManager.after h).throughput_triggers[mod]?).bind
          (DebugDataManager.throughput time)).toList,
          ¬ namesLatency (issued h) u.id = true := by
        intro u hu hany
        rw [Option.mem_toList, Option.bind_eq_some_iff] at hu
        obtain ⟨t, ht, hthroughput⟩ := hu
        rw [DebugDataManager.throughput, Option.ite_none_right_eq_some] at hthroughput
        cases hthroughput.2
        obtain ⟨⟨id, trace⟩, hx, hid⟩ := List.any_eq_true.mp hany
        rw [decide_eq_true_eq] at hid
        obtain ⟨rfl, hlatency⟩ := hid
        cases hregister.trace_unique hx (hregister.throughput_mem ht)
        cases hlatency
      rw [List.filter_eq_self.mpr hlatency, List.filter_eq_nil_iff.mpr hthroughput,
        List.append_nil]
      rfl
  | updateCounter name val =>
    have hanswer : ∀ us, dataManager.answer h (.updateCounter name val) ≠ .updates us := by
      intro us
      simp only [Machine.answer, dataManager, perform]
      split <;> simp
    cases hr : dataManager.answer h (.updateCounter name val) with
    | updates us => exact absurd hr (hanswer us)
    | _ => rfl
  | _ => rfl

end Pfp.Db
