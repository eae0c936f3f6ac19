import PFPSim.Modules.SeparateCounters

/-!
# What the counter operations return

A call that is carried out as documented returns `true`, changes its one counter and tells
the observers of it. Any other returns `false` and does nothing. The one call that succeeds
without a cause is the removal of a counter that is not there, as long as there is any other
(`contract_iff`).
-/

namespace Pfp.Core

/-- What a call needs of the counters to be carried out as it is documented. -/
def CounterCall.Documented : CounterCall → Counters → Prop
  | .remove_counter name, counters_ => (counters_[name]?).isSome
  | c, counters_ => c.Succeeds counters_

/-- What a call does as it is documented: the counters behind it and the notification. The
values are `std::size_t`, so that the arithmetic wraps. -/
inductive CounterCall.CarriedOut (counters_ : Counters) :
    CounterCall → Counters → Notification → Prop
  | add_counter {name : String} {value : UInt64} (habsent : counters_[name]? = none) :
      CarriedOut counters_ (.add_counter name value) (counters_.insert name value)
        (.counter_added name)
  | set_counter {name : String} {old value : UInt64} (hold : counters_[name]? = some old) :
      CarriedOut counters_ (.set_counter name value) (counters_.insert name value)
        (.counter_changed name value)
  | remove_counter {name : String} {old : UInt64} (hold : counters_[name]? = some old) :
      CarriedOut counters_ (.remove_counter name) (counters_.erase name)
        (.counter_removed name)
  | increment_counter {name : String} {old : UInt64} (hold : counters_[name]? = some old) :
      CarriedOut counters_ (.increment_counter name) (counters_.insert name (old + 1))
        (.counter_changed name (old + 1))
  | increment_counter_by {name : String} {amount : Int32} {old : UInt64}
      (hold : counters_[name]? = some old) :
      CarriedOut counters_ (.increment_counter_by name amount)
        (counters_.insert name (old + amount.toInt64.toUInt64))
        (.counter_changed name (old + amount.toInt64.toUInt64))
  | decrement_counter {name : String} {old : UInt64} (hold : counters_[name]? = some old)
      (hne : old ≠ 0) :
      CarriedOut counters_ (.decrement_counter name) (counters_.insert name (old - 1))
        (.counter_changed name (old - 1))
  | decrement_counter_by {name : String} {amount : Int32} {old : UInt64}
      (hold : counters_[name]? = some old) (hne : old ≠ 0) :
      CarriedOut counters_ (.decrement_counter_by name amount)
        (counters_.insert name (old - amount.toInt64.toUInt64))
        (.counter_changed name (old - amount.toInt64.toUInt64))

/-- A call returns `true` exactly if it can be carried out. It is carried out then, and
otherwise leaves everything as it was. -/
structure CounterCall.Contract (c : CounterCall) (counters_ : Counters) : Prop where
  returned : (c.perform counters_).returned = true ↔ c.Documented counters_
  carried_out : c.Documented counters_ → ∃ n,
    (c.perform counters_).notification = some n ∧
      c.CarriedOut counters_ (c.perform counters_).counters n
  refused : ¬ c.Documented counters_ → (c.perform counters_).counters = counters_ ∧
    (c.perform counters_).notification = none

/-- The removal of a counter that is not there, from others. -/
def CounterCall.Spurious (c : CounterCall) (counters_ : Counters) : Prop :=
  ∃ name, c = .remove_counter name ∧ counters_[name]? = none ∧ counters_.num_counters ≠ 0

variable {counters_ : Counters} {name : String} {c : CounterCall}

theorem Counters.get_of_num_counters (h : counters_.num_counters = 0) (name : String) :
    counters_[name]? = none := by
  have hempty : counters_ = ∅ := Std.ExtTreeMap.eq_empty_iff_size_eq_zero.mpr h
  rw [hempty]
  exact Std.ExtTreeMap.getElem?_empty

theorem Counters.change_counter_none (h : counters_[name]? = none)
    (f : UInt64 → Option UInt64) : counters_.change_counter name f = counters_.refuse := by
  rw [change_counter, h]

theorem Counters.change_counter_some {old : UInt64} (h : counters_[name]? = some old)
    (f : UInt64 → Option UInt64) : counters_.change_counter name f =
      (f old).elim counters_.refuse fun value => counters_.assign name value := by
  rw [change_counter, h]
  cases hvalue : f old with
  | none => simp only [hvalue, Option.elim]
  | some value => simp only [hvalue, Option.elim]

theorem CounterCall.perform_of_not_succeeds (h : ¬ c.Succeeds counters_) :
    c.perform counters_ = counters_.refuse := by
  cases c with
  | add_counter name value =>
    obtain ⟨old, hold⟩ := Option.ne_none_iff_exists'.mp h
    rw [perform, Counters.add_counter, hold]
  | set_counter name value =>
    rw [perform, Counters.set_counter]
    split
    · rfl
    · exact Counters.change_counter_none (by simpa [Succeeds] using h) _
  | remove_counter name =>
    rw [perform, Counters.remove_counter, if_pos (not_not.mp h)]
  | increment_counter name =>
    rw [perform, Counters.increment_counter]
    exact Counters.change_counter_none (by simpa [Succeeds] using h) _
  | increment_counter_by name amount =>
    rw [perform, Counters.increment_counter_by]
    exact Counters.change_counter_none (by simpa [Succeeds] using h) _
  | decrement_counter name =>
    rw [perform, Counters.decrement_counter]
    cases hold : counters_[name]? with
    | none => exact Counters.change_counter_none hold _
    | some old =>
      have hzero : old = 0 := by
        by_contra hne
        exact h ⟨old, hold, hne⟩
      rw [Counters.change_counter_some hold, if_pos hzero]
      rfl
  | decrement_counter_by name amount =>
    rw [perform, Counters.decrement_counter_by]
    cases hold : counters_[name]? with
    | none => exact Counters.change_counter_none hold _
    | some old =>
      have hzero : old = 0 := by
        by_contra hne
        exact h ⟨old, hold, hne⟩
      rw [Counters.change_counter_some hold, if_pos hzero]
      rfl

/-- A call that can be carried out as documented is. -/
theorem CounterCall.perform_of_carriedOut {after : Counters} {n : Notification}
    (h : c.CarriedOut counters_ after n) : c.perform counters_ = ⟨true, after, some n⟩ := by
  have hsize : ∀ {name : String} {old : UInt64}, counters_[name]? = some old →
      counters_.num_counters ≠ 0 := by
    intro name old hold hsize
    rw [Counters.get_of_num_counters hsize] at hold
    cases hold
  cases h with
  | add_counter habsent => exact perform_add habsent _
  | set_counter hold =>
    rw [perform, Counters.set_counter, if_neg (hsize hold), Counters.change_counter_some hold]
    rfl
  | remove_counter hold =>
    rw [perform, Counters.remove_counter, if_neg (hsize hold)]
  | increment_counter hold =>
    rw [perform, Counters.increment_counter, Counters.change_counter_some hold]
    rfl
  | increment_counter_by hold =>
    rw [perform, Counters.increment_counter_by, Counters.change_counter_some hold]
    rfl
  | decrement_counter hold hne =>
    rw [perform, Counters.decrement_counter, Counters.change_counter_some hold, if_neg hne]
    rfl
  | decrement_counter_by hold hne =>
    rw [perform, Counters.decrement_counter_by, Counters.change_counter_some hold, if_neg hne]
    rfl

/-- What is documented of a call can be carried out. -/
theorem CounterCall.Documented.carriedOut (h : c.Documented counters_) :
    ∃ after n, c.CarriedOut counters_ after n := by
  cases c with
  | add_counter name value => exact ⟨_, _, .add_counter h⟩
  | set_counter name value =>
    obtain ⟨old, hold⟩ := Option.isSome_iff_exists.mp h
    exact ⟨_, _, .set_counter hold⟩
  | remove_counter name =>
    obtain ⟨old, hold⟩ := Option.isSome_iff_exists.mp h
    exact ⟨_, _, .remove_counter hold⟩
  | increment_counter name =>
    obtain ⟨old, hold⟩ := Option.isSome_iff_exists.mp h
    exact ⟨_, _, .increment_counter hold⟩
  | increment_counter_by name amount =>
    obtain ⟨old, hold⟩ := Option.isSome_iff_exists.mp h
    exact ⟨_, _, .increment_counter_by hold⟩
  | decrement_counter name =>
    obtain ⟨old, hold, hne⟩ := h
    exact ⟨_, _, .decrement_counter hold hne⟩
  | decrement_counter_by name amount =>
    obtain ⟨old, hold, hne⟩ := h
    exact ⟨_, _, .decrement_counter_by hold hne⟩

/-- What is documented succeeds, and what succeeds is documented or spurious. -/
theorem CounterCall.documented_iff :
    c.Documented counters_ ↔ c.Succeeds counters_ ∧ ¬ c.Spurious counters_ := by
  cases c with
  | remove_counter name =>
    simp only [Documented, Succeeds, Spurious, CounterCall.remove_counter.injEq, exists_eq_left',
      not_and, not_not]
    constructor
    · intro h
      obtain ⟨old, hold⟩ := Option.isSome_iff_exists.mp h
      refine ⟨?_, ?_⟩
      · intro hsize
        rw [Counters.get_of_num_counters hsize] at hold
        cases hold
      · intro hnone
        rw [hold] at hnone
        cases hnone
    · intro h
      rw [Option.isSome_iff_ne_none]
      intro hnone
      exact h.1 (h.2 hnone)
  | _ =>
    simp only [Documented, Spurious]
    exact ⟨fun h => ⟨h, by rintro ⟨name, hname, -⟩; cases hname⟩, fun h => h.1⟩

/-- A call returns whether it succeeds. -/
theorem CounterCall.returned_iff :
    (c.perform counters_).returned = true ↔ c.Succeeds counters_ := by
  by_cases h : c.Succeeds counters_
  · refine iff_of_true ?_ h
    by_cases hspurious : c.Spurious counters_
    · obtain ⟨name, rfl, -, hsize⟩ := hspurious
      rw [perform, Counters.remove_counter, if_neg hsize]
    · obtain ⟨after, n, hcarried⟩ := (documented_iff.mpr ⟨h, hspurious⟩).carriedOut
      rw [perform_of_carriedOut hcarried]
  · refine iff_of_false ?_ h
    rw [perform_of_not_succeeds h]
    exact Bool.noConfusion

/-- **Return values.** A call keeps its contract unless it removes a counter that is not
there from a module that has others. -/
theorem CounterCall.contract_iff (c : CounterCall) (counters_ : Counters) :
    c.Contract counters_ ↔ ¬ c.Spurious counters_ := by
  constructor
  · intro h hspurious
    have hsucceeds : c.Succeeds counters_ := by
      obtain ⟨name, rfl, -, hsize⟩ := hspurious
      exact hsize
    have hdocumented := h.returned.mp (returned_iff.mpr hsucceeds)
    exact (documented_iff.mp hdocumented).2 hspurious
  · intro h
    have hiff : c.Documented counters_ ↔ c.Succeeds counters_ :=
      documented_iff.trans (and_iff_left h)
    refine ⟨returned_iff.trans hiff.symm, ?_, ?_⟩
    · intro hdocumented
      obtain ⟨after, n, hcarried⟩ := hdocumented.carriedOut
      rw [perform_of_carriedOut hcarried]
      exact ⟨n, rfl, hcarried⟩
    · intro hdocumented
      rw [perform_of_not_succeeds fun hsucceeds => hdocumented (hiff.mpr hsucceeds)]
      exact ⟨rfl, rfl⟩

/-- The removal of `b` from a module that has `a` returns `true`. -/
theorem removes_absent : ¬ ∀ (c : CounterCall) (counters_ : Counters), c.Contract counters_ := by
  intro h
  let counters_ : Counters := (∅ : Counters).insert "a" 0
  refine ((CounterCall.remove_counter "b").contract_iff counters_).mp (h _ _) ⟨"b", rfl, ?_, ?_⟩
  · decide +kernel
  · decide +kernel

end Pfp.Core
