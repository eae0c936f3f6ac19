import PFPSim.Modules.CallContracts
import PFPSim.Runs.History

/-!
# Decrements

A decrement subtracts modulo `2 ^ 64` whenever the counter is not zero. It lowers the counter
by its amount exactly if the counter is zero or has at least that amount
(`decrements_exact_iff`), and then the counters have the values that they would have if they
had no bound.
-/

namespace Pfp.Core

open Runs Function

namespace CounterCall

/-- The counter that a decrement lowers, and the amount. -/
def decrement : CounterCall → Option (String × Nat)
  | .decrement_counter name => some (name, 1)
  | .decrement_counter_by name amount =>
    if 0 ≤ amount then some (name, amount.toInt.toNat) else none
  | _ => none

/-- A decrement gives `false` and does nothing, or lowers the counter by its amount. -/
def Lowers (c : CounterCall) (counters_ : Counters) : Prop :=
  ∀ name n, c.decrement = some (name, n) →
    (c.perform counters_).returned = false ∧ (c.perform counters_).counters = counters_ ∨
      (c.perform counters_).returned = true ∧ ∃ old value : UInt64,
        counters_[name]? = some old ∧ (c.perform counters_).counters[name]? = some value ∧
          value.toNat + n = old.toNat

/-- The counter that is decremented is zero or has the amount. -/
def Covered (c : CounterCall) (counters_ : Counters) : Prop :=
  ∀ name n, c.decrement = some (name, n) → ∀ old : UInt64, counters_[name]? = some old →
    old = 0 ∨ n ≤ old.toNat

/-- What a call does to counters without a bound; a decrement by too much refuses. -/
def exact (c : CounterCall) (values : String → Option Nat) : String → Option Nat :=
  match c with
  | .add_counter name value => update values name ((values name).getD value.toNat)
  | .set_counter name value => update values name ((values name).map fun _ => value.toNat)
  | .remove_counter name => update values name none
  | .increment_counter name => update values name ((values name).map (· + 1))
  | .increment_counter_by name amount =>
    update values name ((values name).map (· + amount.toInt.toNat))
  | .decrement_counter name => update values name ((values name).map (· - 1))
  | .decrement_counter_by name amount =>
    update values name ((values name).map (· - amount.toInt.toNat))

/-- The amounts are not negative, and the sums stay below `2 ^ 64`. -/
def Summable (values : String → Option Nat) : CounterCall → Prop
  | .increment_counter name => ∀ v, values name = some v → v + 1 < 2 ^ 64
  | .increment_counter_by name amount =>
    0 ≤ amount ∧ ∀ v, values name = some v → v + amount.toInt.toNat < 2 ^ 64
  | .decrement_counter_by _ amount => 0 ≤ amount
  | _ => True

end CounterCall

namespace Counters

/-- The counters behind calls. -/
def run (counters_ : Counters) (h : List CounterCall) : Counters :=
  h.foldl (fun s c => (c.perform s).counters) counters_

def values (counters_ : Counters) (name : String) : Option Nat :=
  (counters_[name]?).map UInt64.toNat

end Counters

/-- The values behind calls, without a bound. -/
def exactly (values : String → Option Nat) (h : List CounterCall) : String → Option Nat :=
  h.foldl (fun v c => c.exact v) values

variable {counters_ : Counters} {name : String} {c : CounterCall}

/-! ## One decrement -/

theorem toNat_amount {amount : Int32} (h : 0 ≤ amount) :
    amount.toInt64.toUInt64.toNat = amount.toInt.toNat := by
  have hle : (0 : Int64) ≤ amount.toInt64 := by
    rw [Int64.le_iff_toInt_le, Int32.toInt_toInt64]
    exact Int32.le_iff_toInt_le.mp h
  rw [Int64.toNat_toUInt64_of_le hle]
  exact congrArg Int.toNat amount.toInt_toInt64

/-- Both kinds of decrements subtract from a counter that is not zero. -/
theorem CounterCall.perform_decrement (counters_ : Counters) {n : Nat}
    (h : c.decrement = some (name, n)) :
    ∃ amount : UInt64, amount.toNat = n ∧ c.perform counters_ = counters_.change_counter name
      fun value => if value = 0 then none else some (value - amount) := by
  cases c with
  | decrement_counter x =>
    cases h
    exact ⟨1, rfl, rfl⟩
  | decrement_counter_by x amount =>
    rw [decrement, Option.ite_none_right_eq_some] at h
    obtain ⟨hamount, h⟩ := h
    cases h
    exact ⟨amount.toInt64.toUInt64, toNat_amount hamount, rfl⟩
  | _ => cases h

/-- A difference is exact when nothing is borrowed. -/
theorem toNat_sub_add_iff (old amount : UInt64) :
    (old - amount).toNat + amount.toNat = old.toNat ↔ amount.toNat ≤ old.toNat := by
  have hold := old.toNat_lt
  have hamount := amount.toNat_lt
  rw [UInt64.toNat_sub]
  omega

theorem CounterCall.lowers_iff (c : CounterCall) (counters_ : Counters) :
    c.Lowers counters_ ↔ c.Covered counters_ := by
  apply forall_congr'
  intro name
  apply forall_congr'
  intro n
  apply forall_congr'
  intro h
  obtain ⟨amount, rfl, hperform⟩ := perform_decrement counters_ h
  rw [hperform]
  cases hold : counters_[name]? with
  | none =>
    rw [Counters.change_counter_none hold]
    refine iff_of_true (.inl ⟨rfl, rfl⟩) ?_
    intro old hsome
    cases hsome
  | some old =>
    rw [Counters.change_counter_some hold]
    by_cases hzero : old = 0
    · rw [if_pos hzero]
      refine iff_of_true (.inl ⟨rfl, rfl⟩) ?_
      intro x hx
      cases hx
      exact .inl hzero
    · have hvalue : (counters_.assign name (old - amount)).counters[name]? =
          some (old - amount) := (Maps.get_insert ..).trans (if_pos rfl)
      rw [if_neg hzero, Option.elim_some, hvalue]
      simp only [Counters.assign, Bool.true_eq_false, false_and, false_or, true_and,
        Option.some.injEq, forall_eq', hzero, ← toNat_sub_add_iff]
      constructor
      · intro hlowers
        obtain ⟨_, _, rfl, rfl, hsum⟩ := hlowers
        exact hsum
      · intro hsum
        exact ⟨old, old - amount, rfl, rfl, hsum⟩

/-! ## Values without a bound -/

theorem Counters.values_of_get {s : Counters} {v : Option UInt64}
    (h : ∀ j, s[j]? = if name = j then v else counters_[j]?) :
    s.values = update counters_.values name (v.map UInt64.toNat) := by
  funext j
  rw [update_apply, values, h]
  by_cases hj : name = j
  · rw [if_pos hj, if_pos hj.symm]
  · rw [if_neg hj, if_neg (Ne.symm hj)]
    rfl

/-- A change that is exact on the value of the counter. -/
theorem Counters.values_change_counter {f : UInt64 → Option UInt64} {g : Nat → Nat}
    (hf : ∀ old, counters_[name]? = some old → ((f old).getD old).toNat = g old.toNat) :
    (counters_.change_counter name f).counters.values =
      update counters_.values name ((counters_.values name).map g) := by
  cases hold : counters_[name]? with
  | none =>
    have hnone : counters_.values name = none := by rw [values, hold, Option.map_none]
    rw [change_counter_none hold, hnone, Option.map_none, ← hnone, update_eq_self]
    rfl
  | some old =>
    have hvalue : counters_.values name = some old.toNat := by rw [values, hold, Option.map_some]
    rw [change_counter_some hold, hvalue, Option.map_some, ← hf old hold]
    cases hfold : f old with
    | none =>
      rw [Option.elim_none, Option.getD_none, ← hvalue, update_eq_self]
      rfl
    | some value =>
      rw [Option.elim_some, Option.getD_some]
      exact values_of_get (v := some value) fun j => Maps.get_insert ..

theorem Counters.set_counter_eq (counters_ : Counters) (name : String) (value : UInt64) :
    counters_.set_counter name value = counters_.change_counter name fun _ => some value := by
  rw [set_counter]
  split
  · rename_i hsize
    rw [change_counter_none (get_of_num_counters hsize name)]
  · rfl

/-- A call that is covered, and whose sums have room, is exact. -/
theorem CounterCall.values_perform (hcovered : c.Covered counters_)
    (hsums : c.Summable counters_.values) :
    (c.perform counters_).counters.values = c.exact counters_.values := by
  have hvalues : ∀ {name : String} {old : UInt64}, counters_[name]? = some old →
      counters_.values name = some old.toNat := by
    intro name old hold
    rw [Counters.values, hold, Option.map_some]
  have hlowers : ∀ name n, c.decrement = some (name, n) →
      (c.perform counters_).counters.values =
        update counters_.values name ((counters_.values name).map (· - n)) := by
    intro name n h
    obtain ⟨amount, rfl, hperform⟩ := perform_decrement counters_ h
    rw [hperform]
    apply Counters.values_change_counter
    intro old hold
    have hcovered := hcovered name _ h old hold
    by_cases hzero : old = 0
    · rw [if_pos hzero, Option.getD_none, hzero]
      exact (Nat.zero_sub _).symm
    · have hle := hcovered.resolve_left hzero
      have hexact := (toNat_sub_add_iff old amount).mpr hle
      rw [if_neg hzero, Option.getD_some]
      omega
  cases c with
  | add_counter name value =>
    rw [exact]
    cases hold : counters_[name]? with
    | none =>
      rw [perform_add hold, Counters.values, hold, Option.map_none, Option.getD_none]
      exact Counters.values_of_get (v := some value) fun j => Maps.get_insert ..
    | some old =>
      rw [hvalues hold, Option.getD_some, ← hvalues hold, update_eq_self]
      rw [perform, Counters.add_counter, hold]
      rfl
  | set_counter name value =>
    rw [perform, Counters.set_counter_eq]
    exact Counters.values_change_counter fun old _ => rfl
  | remove_counter name =>
    rw [perform, Counters.remove_counter]
    split
    · rename_i hsize
      have hnone : counters_.values name = none := by
        rw [Counters.values, Counters.get_of_num_counters hsize, Option.map_none]
      rw [exact, ← hnone, update_eq_self]
      rfl
    · exact Counters.values_of_get (v := none) fun j => Maps.get_erase ..
  | increment_counter name =>
    apply Counters.values_change_counter
    intro old hold
    have hsum := hsums _ (hvalues hold)
    rw [Option.getD_some, UInt64.toNat_add]
    exact Nat.mod_eq_of_lt hsum
  | increment_counter_by name amount =>
    apply Counters.values_change_counter
    intro old hold
    have hsum := hsums.2 _ (hvalues hold)
    rw [Option.getD_some, UInt64.toNat_add, toNat_amount hsums.1]
    exact Nat.mod_eq_of_lt hsum
  | decrement_counter name => exact hlowers name 1 rfl
  | decrement_counter_by name amount => exact hlowers name _ (if_pos hsums)

theorem values_run (h : List CounterCall)
    (hcovered : ∀ x ∈ splits h, x.call.Covered (counters_.run x.before))
    (hsums : ∀ x ∈ splits h, x.call.Summable (exactly counters_.values x.before)) :
    (counters_.run h).values = exactly counters_.values h := by
  induction h using List.reverseRecOn with
  | nil => rfl
  | append_singleton h c ih =>
    simp only [splits_concat, List.mem_append, List.mem_map, List.mem_singleton] at hcovered hsums
    have hvalues := ih
      (fun x hx => hcovered { x with after := x.after ++ [c] } (.inl ⟨x, hx, rfl⟩))
      fun x hx => hsums { x with after := x.after ++ [c] } (.inl ⟨x, hx, rfl⟩)
    have hcovered := hcovered _ (.inr rfl)
    have hsums := hsums _ (.inr rfl)
    rw [← hvalues] at hsums
    rw [Counters.run, exactly, List.foldl_append, List.foldl_append]
    show (c.perform (counters_.run h)).counters.values = c.exact (exactly counters_.values h)
    rw [CounterCall.values_perform hcovered hsums, hvalues]

/-- **Decrements.** In every run, all decrements give `false` or lower their counters by their
amounts if and only if each finds its counter at zero or at the amount at least. Then, while
the sums stay below `2 ^ 64`, the counters have the values that they have without a bound. -/
theorem decrements_exact_iff (counters_ : Counters) (h : List CounterCall) :
    ((∀ x ∈ splits h, x.call.Lowers (counters_.run x.before)) ↔
      ∀ x ∈ splits h, x.call.Covered (counters_.run x.before)) ∧
    ((∀ x ∈ splits h, x.call.Covered (counters_.run x.before)) →
      (∀ x ∈ splits h, x.call.Summable (exactly counters_.values x.before)) →
      (counters_.run h).values = exactly counters_.values h) := by
  refine ⟨?_, values_run h⟩
  apply forall_congr'
  intro x
  rw [x.call.lowers_iff]

/-- A counter at `1` is `2 ^ 64 - 1` behind a decrement by `2`. -/
theorem decrement_wraps : ¬ ∀ (counters_ : Counters) (h : List CounterCall),
    ∀ x ∈ splits h, x.call.Lowers (counters_.run x.before) := by
  intro hall
  have hlowers := hall ∅ [.add_counter "a" 1, .decrement_counter_by "a" 2]
  have hcovered := (decrements_exact_iff _ _).1.mp hlowers
    ⟨[.add_counter "a" 1], .decrement_counter_by "a" 2, []⟩ (mem_splits.mpr rfl) "a" 2 rfl 1
    (by decide +kernel)
  exact absurd hcovered (by decide)

end Pfp.Core
