import PFPSim.Debugger.ThroughputTraces

/-!
# Divisors

The numbers by which a throughput update divides, in a history whose events come in the order
of their times. Each is the time since the last write at the module, so it is positive unless
two writes behind each other have the same time (`divisors_positive_iff`): the data manager
asks only whether there has been a write.
-/

namespace Pfp.Db

open Runs

/-- The divisor of a throughput update, at a write at a module with a trigger. -/
def divisor (dm : DebugDataManager) : Call → Option ℚ
  | .updatePacket _ _ mod time false => (dm.throughput_triggers[mod]?).bind fun t =>
      if t.last_time ≥ 0 then some (time - t.last_time) else none
  | _ => none

/-- The divisors of all throughput updates of a history. -/
def divisors (h : List Call) : List ℚ :=
  (splits h).filterMap fun x => divisor (dataManager.after x.before) x.call

/-! ## Times -/

/-- The time of a read or write event. -/
def Call.time : Call → Option ℚ
  | .updatePacket _ _ _ time _ => some time
  | _ => none

/-- The events of the history have times that do not decrease, from zero on. -/
structure Simulated (h : List Call) : Prop where
  nonneg : ∀ t ∈ h.filterMap Call.time, 0 ≤ t
  ordered : (h.filterMap Call.time).Pairwise (· ≤ ·)

/-- Two writes at a module with a trace have the same time, and between them is no other write
there and no other trace is created. -/
def Coincide (h : List Call) : Prop :=
  ∃ (mod : String) (before : List Call) (c : Call) (between : List Call) (d : Call)
    (after : List Call) (time : ℚ),
    h = before ++ c :: (between ++ d :: after) ∧ .addThroughputTrace mod ∈ before ∧
      c.writeTime mod = some time ∧ d.writeTime mod = some time ∧
      ∀ e ∈ between, e.writeTime mod = none ∧ e ≠ .addThroughputTrace mod

theorem Call.time_of_writeTime {c : Call} {mod : String} {t : ℚ}
    (h : c.writeTime mod = some t) : c.time = some t := by
  cases c with
  | updatePacket id di m time read =>
    cases read with
    | true => cases h
    | false =>
      simp only [writeTime, Option.ite_none_right_eq_some] at h
      exact h.2
  | _ => cases h

theorem lastWrite_eq_some_iff {mod : String} {h : List Call} {t : ℚ} :
    lastWrite mod h = some t ↔ ∃ front c back, h = front ++ c :: back ∧
      c.writeTime mod = some t ∧ ∀ d ∈ back, d.writeTime mod = none := by
  rw [lastWrite, List.getLast?_filterMap, List.findSome?_eq_some_iff]
  constructor
  · rintro ⟨back, c, front, hsplit, hc, hback⟩
    refine ⟨front.reverse, c, back.reverse, ?_, hc, ?_⟩
    · rw [← List.reverse_reverse h, hsplit]
      simp
    · intro d hd
      exact hback d (List.mem_reverse.mp hd)
  · rintro ⟨front, c, back, rfl, hc, hback⟩
    refine ⟨back.reverse, c, front.reverse, by simp, hc, ?_⟩
    intro d hd
    exact hback d (List.mem_reverse.mp hd)

theorem Simulated.le {before between after : List Call} {c d : Call} {t u : ℚ}
    (h : Simulated (before ++ c :: (between ++ d :: after))) (hc : c.time = some t)
    (hd : d.time = some u) : t ≤ u := by
  have hordered := h.ordered
  rw [List.filterMap_append, List.filterMap_cons_some hc, List.filterMap_append,
    List.filterMap_cons_some hd] at hordered
  have hback := (List.pairwise_append.mp hordered).2.1
  exact (List.pairwise_cons.mp hback).1 u (List.mem_append_right _ List.mem_cons_self)

/-! ## Triggers -/

theorem trigger_of_none {mod : String} {h : List Call}
    (hnone : ∀ c ∈ h, c ≠ .addThroughputTrace mod) :
    (dataManager.after h).throughput_triggers[mod]? = none := by
  induction h using List.reverseRecOn with
  | nil => rfl
  | append_singleton h c ih =>
    rw [dataManager.after_concat]
    refine (perform_trigger (hnone c (List.mem_append_right _ List.mem_cons_self)) _).trans ?_
    rw [ih fun d hd => hnone d (List.mem_append_left _ hd)]
    rfl

theorem divisor_eq {c : Call} {mod : String} {time : ℚ} (hc : c.writeTime mod = some time)
    (dm : DebugDataManager) : divisor dm c = (dm.throughput_triggers[mod]?).bind fun t =>
      if t.last_time ≥ 0 then some (time - t.last_time) else none := by
  cases c with
  | updatePacket id di m t read =>
    cases read with
    | true => cases hc
    | false =>
      simp only [Call.writeTime, Option.ite_none_right_eq_some, Option.some.injEq] at hc
      obtain ⟨rfl, rfl⟩ := hc
      rfl
  | _ => cases hc

theorem ne_addThroughputTrace {c : Call} {mod : String} {time : ℚ}
    (hc : c.writeTime mod = some time) : c ≠ .addThroughputTrace mod := by
  intro heq
  rw [heq] at hc
  cases hc

/-- The divisor of a write is the time since the last write at the module, if the trace on the
module was there before that. -/
theorem divisor_eq_some_iff {h : List Call} {c : Call} {mod : String} {time d : ℚ}
    (hc : c.writeTime mod = some time) : divisor (dataManager.after h) c = some d ↔
      ∃ front e back last, h = front ++ e :: back ∧ .addThroughputTrace mod ∈ front ∧
        e.writeTime mod = some last ∧ 0 ≤ last ∧ d = time - last ∧
        ∀ f ∈ back, f.writeTime mod = none ∧ f ≠ .addThroughputTrace mod := by
  rw [divisor_eq hc]
  constructor
  · intro hd
    by_cases hcreated : .addThroughputTrace mod ∈ h
    · obtain ⟨before, after, rfl, hafter⟩ := exists_last_creation hcreated
      rw [trigger_after before after hafter, Option.bind_some] at hd
      cases hlast : lastWrite mod after with
      | none =>
        have hnever : ¬ (-1 : ℚ) ≥ 0 := by decide
        rw [hlast, Option.getD_none, if_neg hnever] at hd
        cases hd
      | some last =>
        rw [hlast, Option.getD_some, Option.ite_none_right_eq_some, Option.some.injEq] at hd
        obtain ⟨front, e, back, rfl, he, hback⟩ := lastWrite_eq_some_iff.mp hlast
        refine ⟨before ++ .addThroughputTrace mod :: front, e, back, last, by simp, by simp, he,
          hd.1, hd.2.symm, ?_⟩
        intro f hf
        exact ⟨hback f hf, hafter f (List.mem_append_right _ (List.mem_cons_of_mem _ hf))⟩
    · rw [trigger_of_none fun f hf heq => hcreated (heq ▸ hf)] at hd
      cases hd
  · rintro ⟨front, e, back, last, rfl, hcreated, he, hpos, rfl, hback⟩
    obtain ⟨before, after, rfl, hafter⟩ := exists_last_creation hcreated
    have hnone : ∀ f ∈ after ++ e :: back, f ≠ .addThroughputTrace mod := by
      intro f hf
      rcases List.mem_append.mp hf with hf | hf
      · exact hafter f hf
      · rcases List.mem_cons.mp hf with rfl | hf
        · exact ne_addThroughputTrace he
        · exact (hback f hf).2
    have hlast : lastWrite mod (after ++ e :: back) = some last :=
      lastWrite_eq_some_iff.mpr ⟨after, e, back, rfl, he, fun f hf => (hback f hf).1⟩
    rw [List.append_assoc, List.cons_append, trigger_after before _ hnone, hlast, Option.bind_some,
      Option.getD_some, if_pos hpos]

/-! ## Runs -/

theorem mem_divisors {h : List Call} {d : ℚ} : d ∈ divisors h ↔ ∃ before c after,
    h = before ++ c :: after ∧ divisor (dataManager.after before) c = some d := by
  simp only [divisors, List.mem_filterMap, mem_splits]
  constructor
  · rintro ⟨⟨before, c, after⟩, hsplit, hd⟩
    exact ⟨before, c, after, hsplit, hd⟩
  · rintro ⟨before, c, after, hsplit, hd⟩
    exact ⟨⟨before, c, after⟩, hsplit, hd⟩

theorem writeTime_of_divisor {dm : DebugDataManager} {c : Call} {d : ℚ}
    (h : divisor dm c = some d) : ∃ mod time, c.writeTime mod = some time := by
  cases c with
  | updatePacket id di mod time read =>
    cases read with
    | true => cases h
    | false => exact ⟨mod, time, if_pos rfl⟩
  | _ => cases h

/-- **Divisors.** In a history of non-negative times that do not decrease, every throughput
update divides by a positive number if and only if no two writes behind each other at a module
with a trace have the same time. -/
theorem divisors_positive_iff {h : List Call} (hs : Simulated h) :
    (∀ d ∈ divisors h, 0 < d) ↔ ¬ Coincide h := by
  constructor
  · rintro hpos ⟨mod, before, c, between, d, after, time, hsplit, hcreated, hc, hd, hbetween⟩
    have htime : 0 ≤ time := by
      apply hs.nonneg
      rw [hsplit]
      exact List.mem_filterMap.mpr ⟨c, by simp, Call.time_of_writeTime hc⟩
    have hzero : divisor (dataManager.after (before ++ c :: between)) d = some 0 :=
      (divisor_eq_some_iff hd).mpr ⟨before, c, between, time, rfl, hcreated, hc, htime,
        (sub_self time).symm, hbetween⟩
    have hmem : (0 : ℚ) ∈ divisors h :=
      mem_divisors.mpr ⟨before ++ c :: between, d, after, by simp [hsplit], hzero⟩
    exact lt_irrefl _ (hpos 0 hmem)
  · intro hnone d hd
    obtain ⟨before, c, after, rfl, hdivisor⟩ := mem_divisors.mp hd
    obtain ⟨mod, time, hc⟩ := writeTime_of_divisor hdivisor
    obtain ⟨front, e, back, last, rfl, hcreated, he, -, rfl, hback⟩ :=
      (divisor_eq_some_iff hc).mp hdivisor
    rw [List.append_assoc, List.cons_append] at hs hnone
    have hle := hs.le (Call.time_of_writeTime he) (Call.time_of_writeTime hc)
    rcases hle.lt_or_eq with hlt | rfl
    · exact sub_pos.mpr hlt
    · exact absurd ⟨mod, front, e, back, c, after, last, rfl, hcreated, he, hc, hback⟩ hnone

/-- Two packets are written at a traced module, at the times `0` and `time`. -/
def twoWrites (time : ℚ) : List Call :=
  [.addThroughputTrace "m", .updatePacket 7 none "m" 0 false, .updatePacket 8 none "m" time false]

theorem simulated_twoWrites {time : ℚ} (h : 0 ≤ time) : Simulated (twoWrites time) where
  nonneg t ht := by
    have ht' : t ∈ [0, time] := ht
    rcases List.mem_cons.mp ht' with rfl | ht'
    · exact le_rfl
    · rwa [List.mem_singleton.mp ht']
  ordered := List.pairwise_pair.mpr h

/-- Two writes at one simulated instant. -/
theorem divides_by_zero : ¬ ∀ h : List Call, Simulated h → ∀ d ∈ divisors h, 0 < d := by
  intro h
  have hzero : (0 : ℚ) ∈ divisors (twoWrites 0) := by decide +kernel
  exact lt_irrefl _ (h _ (simulated_twoWrites le_rfl) 0 hzero)

/-- Two writes at different times. -/
theorem divisors_positive_apart :
    divisors (twoWrites 1) = [1] ∧ ¬ Coincide (twoWrites 1) := by
  have hone : divisors (twoWrites 1) = [1] := by decide +kernel
  refine ⟨hone, (divisors_positive_iff (simulated_twoWrites zero_le_one)).mp ?_⟩
  rw [hone]
  intro d hd
  rw [List.mem_singleton.mp hd]
  exact zero_lt_one

end Pfp.Db
