import PFPSim.Debugger.TraceIdentifiers

/-!
# Throughput traces

The data manager keeps one trigger a module: the one of the last trace that was created
there, with the time of the last write behind its creation (`trigger_after`). An earlier
trace on the module keeps its identifier and gets no updates any more.
-/

namespace Pfp.Db

open Runs

/-- The time of a write at `mod`, of any packet. -/
def Call.writeTime (mod : String) : Call → Option ℚ
  | .updatePacket _ _ m time false => if m = mod then some time else none
  | _ => none

/-- The time of the last write at `mod`. -/
def lastWrite (mod : String) (h : List Call) : Option ℚ := (h.filterMap (Call.writeTime mod)).getLast?

theorem lastWrite_concat (mod : String) (h : List Call) (c : Call) :
    lastWrite mod (h ++ [c]) = (c.writeTime mod).or (lastWrite mod h) := by
  rw [lastWrite, filterMap_concat, List.getLast?_append]
  cases c.writeTime mod with
  | none => rfl
  | some time => rfl

/-- The updates of an answer with an identifier. -/
def Answer.updatesOf (id : Int) : Answer → List TraceData
  | .updates us => us.filter fun u => u.id = id
  | _ => []

theorem issued_extends (h h' : List Call) : issued h <+: issued (h ++ h') := by
  induction h' using List.reverseRecOn with
  | nil => simp only [List.append_nil, List.prefix_rfl]
  | append_singleton h' c ih =>
    rw [← List.append_assoc, issued_concat]
    exact ih.trans (List.prefix_append ..)

/-- What a call does to the trigger of a module, if it creates no trace there. -/
theorem perform_trigger {c : Call} {mod : String} (hc : c ≠ .addThroughputTrace mod)
    (dm : DebugDataManager) : (perform c dm).2.throughput_triggers[mod]? =
      (dm.throughput_triggers[mod]?).map fun t =>
        { t with last_time := (c.writeTime mod).getD t.last_time } := by
  have hid : (fun t : ThroughputTrigger => { t with last_time := t.last_time }) = id := rfl
  cases c with
  | updatePacket p di m time read =>
    cases read with
    | true =>
      simp only [perform, DebugDataManager.updatePacket_read_triggers, Call.writeTime,
        Option.getD_none, hid, Option.map_id, id]
    | false =>
      simp only [perform, DebugDataManager.updatePacket_write_triggers, Call.writeTime]
      by_cases hm : m = mod
      · simp [hm]
      · simp [hm, Ne.symm hm]
  | addThroughputTrace m =>
    have hm : m ≠ mod := by
      rintro rfl
      exact hc rfl
    simp only [perform, DebugDataManager.addThroughputTrace, Maps.get_insert, if_neg hm,
      Call.writeTime, Option.getD_none, hid, Option.map_id, id]
  | addCounterTrace name =>
    rw [perform_addCounterTrace]
    simp only [Call.writeTime, Option.getD_none, hid, Option.map_id, id]
  | updateCounter name val =>
    rw [perform_updateCounter]
    simp only [Call.writeTime, Option.getD_none, hid, Option.map_id, id]
  | _ =>
    simp only [Call.writeTime, Option.getD_none, hid, Option.map_id, id]
    rfl

/-- The trigger of the last trace on `mod`. -/
theorem trigger_after (before after : List Call) {mod : String}
    (hlast : ∀ c ∈ after, c ≠ .addThroughputTrace mod) :
    (dataManager.after (before ++ .addThroughputTrace mod :: after)).throughput_triggers[mod]? =
      some ⟨(dataManager.after before).trace_id, (lastWrite mod after).getD (-1)⟩ := by
  induction after using List.reverseRecOn with
  | nil =>
    rw [dataManager.after_concat]
    show (perform (.addThroughputTrace mod) _).2.throughput_triggers[mod]? = _
    simp [perform, DebugDataManager.addThroughputTrace, lastWrite]
  | append_singleton after c ih =>
    have hc := hlast c (List.mem_append_right _ List.mem_cons_self)
    have ih := ih fun d hd => hlast d (List.mem_append_left _ hd)
    rw [← List.cons_append, ← List.append_assoc, dataManager.after_concat]
    refine (perform_trigger hc _).trans ?_
    rw [ih, Option.map_some, lastWrite_concat]
    cases c.writeTime mod <;> rfl

/-- The last trace on `mod` of a history that has one. -/
theorem exists_last_creation {mod : String} {h : List Call}
    (hmem : .addThroughputTrace mod ∈ h) : ∃ before after,
      h = before ++ .addThroughputTrace mod :: after ∧
        ∀ c ∈ after, c ≠ .addThroughputTrace mod := by
  induction h using List.reverseRecOn with
  | nil => cases hmem
  | append_singleton h c ih =>
    by_cases hc : c = .addThroughputTrace mod
    · exact ⟨h, [], by rw [hc], by simp⟩
    · rcases List.mem_append.mp hmem with hmem | hmem
      · obtain ⟨before, after, rfl, hafter⟩ := ih hmem
        refine ⟨before, after ++ [c], by simp, fun d hd => ?_⟩
        rcases List.mem_append.mp hd with hd | hd
        · exact hafter d hd
        · rwa [List.mem_singleton.mp hd]
      · exact absurd (List.mem_singleton.mp hmem).symm hc

/-- Identifiers grow along a history. -/
theorem trace_id_lt (before after : List Call) (mod : String) :
    (dataManager.after before).trace_id <
      (dataManager.after (before ++ .addThroughputTrace mod :: after)).trace_id := by
  have hlen := (issued_extends (before ++ [.addThroughputTrace mod]) after).length_le
  have hissue : issue (.addThroughputTrace mod)
      (dataManager.answer before (.addThroughputTrace mod)) =
      some ((dataManager.after before).trace_id, .throughput mod) :=
    if_pos (register before).next_nonneg
  rw [issued_concat, hissue, List.append_assoc, List.singleton_append, List.length_append] at hlen
  rw [(register before).next, (register _).next]
  have hone : (some ((dataManager.after before).trace_id, Trace.throughput mod)).toList.length = 1 :=
    rfl
  omega

/-- The updates of a write with the identifier of a throughput trace. -/
theorem updatesOf_write {h : List Call} {id : Int} {mod : String}
    (hid : (id, .throughput mod) ∈ issued h) (p : Int) (di : Option DebugInfo) (time : ℚ) :
    (dataManager.answer h (.updatePacket p di mod time false)).updatesOf id =
      ((((dataManager.after h).throughput_triggers[mod]?).bind
        (DebugDataManager.throughput time)).toList.filter fun u => u.id = id) := by
  have hanswer : dataManager.answer h (.updatePacket p di mod time false) =
      .updates ((dataManager.after h).updatePacket p di mod time false).1 := rfl
  rw [hanswer, Answer.updatesOf, DebugDataManager.updatePacket_write_fst, List.filter_append,
    List.filter_eq_nil_iff.mpr, List.nil_append]
  intro u hu heq
  obtain ⟨t, ht, rfl⟩ := List.mem_map.mp hu
  have htrace : t.trace_id = id := of_decide_eq_true heq
  obtain ⟨f, hf⟩ := (register h).pending mod p t ht
  cases (register h).trace_unique (htrace ▸ hf) hid

/-- **Live traces.** Behind the first write at its module, a throughput trace gets exactly
one update from a write there if and only if no later trace has been created on the module
and the last write had no negative time. -/
theorem throughput_update_iff {before after : List Call} {mod : String} {id : Int} {last : ℚ}
    (hid : dataManager.answer before (.addThroughputTrace mod) = .id id)
    (hlast : lastWrite mod after = some last) (p : Int) (di : Option DebugInfo) (time : ℚ) :
    ((dataManager.answer (before ++ .addThroughputTrace mod :: after)
        (.updatePacket p di mod time false)).updatesOf id).length = 1 ↔
      (∀ c ∈ after, c ≠ .addThroughputTrace mod) ∧ 0 ≤ last := by
  have hnext : id = (dataManager.after before).trace_id := (Answer.id.inj hid).symm
  have hissued : (id, .throughput mod) ∈ issued (before ++ .addThroughputTrace mod :: after) := by
    have hmem : (id, .throughput mod) ∈ issued (before ++ [.addThroughputTrace mod]) := by
      rw [issued_concat, hid, hnext]
      simp [issue, Call.trace, (register before).next_nonneg]
    have hprefix := issued_extends (before ++ [.addThroughputTrace mod]) after
    rw [List.append_assoc, List.singleton_append] at hprefix
    exact hprefix.subset hmem
  rw [updatesOf_write hissued]
  by_cases hafter : ∀ c ∈ after, c ≠ .addThroughputTrace mod
  · rw [trigger_after before after hafter, hlast, Option.getD_some, Option.bind_some, ← hnext]
    by_cases hneg : 0 ≤ last
    · simp only [DebugDataManager.throughput, ge_iff_le, if_pos hneg, Option.toList_some]
      exact iff_of_true (by simp) ⟨hafter, hneg⟩
    · simp [DebugDataManager.throughput, hneg]
  · -- the trigger of the module is that of a later trace
    refine iff_of_false ?_ fun h => hafter h.1
    push Not at hafter
    obtain ⟨c, hc, rfl⟩ := hafter
    obtain ⟨front, back, rfl, hback⟩ := exists_last_creation hc
    have htrigger := trigger_after (before ++ .addThroughputTrace mod :: front) back hback
    have hlt := trace_id_lt before front mod
    rw [List.append_assoc, List.cons_append] at htrigger
    rw [htrigger, Option.bind_some]
    intro hone
    rw [List.filter_eq_nil_iff.mpr] at hone
    · cases hone
    · intro u hu heq
      rw [Option.mem_toList, DebugDataManager.throughput, Option.ite_none_right_eq_some] at hu
      cases hu.2
      rw [decide_eq_true_eq] at heq
      simp only at heq
      omega

/-- A trace on `m`, and a write there. -/
def tracedWrite (time : ℚ) : List Call :=
  [.addThroughputTrace "m", .updatePacket 7 none "m" time false]

/-- A second trace on the module takes the place of the first, which gets no update. -/
theorem superseded_trace : ¬ ∀ (before after : List Call) (mod : String) (id : Int) (p : Int)
    (di : Option DebugInfo) (time : ℚ),
    dataManager.answer before (.addThroughputTrace mod) = .id id →
    (lastWrite mod after).isSome →
    ((dataManager.answer (before ++ .addThroughputTrace mod :: after)
      (.updatePacket p di mod time false)).updatesOf id).length = 1 := by
  intro h
  have hone := h [] (tracedWrite 0) "m" 0 7 none 1 (by decide +kernel) (by decide +kernel)
  have hzero : ((dataManager.answer ([] ++ .addThroughputTrace "m" :: tracedWrite 0)
      (.updatePacket 7 none "m" 1 false)).updatesOf 0).length = 0 := by
    decide +kernel
  rw [hzero] at hone
  cases hone

/-- A trace that is alone on its module. -/
theorem throughput_update_alone :
    ((dataManager.answer (tracedWrite 0) (.updatePacket 7 none "m" 1 false)).updatesOf 0).length =
      1 := by
  have hid : dataManager.answer [] (.addThroughputTrace "m") = .id 0 := by decide +kernel
  have hlast : lastWrite "m" [.updatePacket 7 none "m" 0 false] = some 0 := by decide +kernel
  exact (throughput_update_iff hid hlast 7 none 1).mpr ⟨by simp, le_refl 0⟩

end Pfp.Db
