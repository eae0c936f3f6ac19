import PFPSim.Debugger.Observer
import PFPSim.Runs.System
import Mathlib.Logic.Function.Basic

/-!
# The counters of modules

The operations of `PFPObject` on its counters, with the notification that each sends to the
one observer. An addition reaches the observer at once; changes and removals wait in
`events_`, which one consumer empties in order. A stop at a watchpoint holds the simulation
until it is resumed.
-/

namespace Pfp.Core

open Db Runs Function

/-- `counters_` -/
abbrev Counters := Map String UInt64

inductive Notification where
  | counter_added (name : String)
  | counter_changed (name : String) (value : UInt64)
  | counter_removed (name : String)
  deriving DecidableEq

def Notification.counter_name : Notification → String
  | .counter_added name => name
  | .counter_changed name _ => name
  | .counter_removed name => name

/-- What a call returns, the counters behind it, and its notification. -/
structure CallResult where
  returned : Bool
  counters : Counters
  notification : Option Notification

namespace Counters

variable (counters_ : Counters)

def num_counters : Nat := counters_.size

/-- The call gives `false` and does nothing. -/
def refuse : CallResult := ⟨false, counters_, none⟩

/-- The value of a counter is assigned, and the observers are told. -/
def assign (name : String) (value : UInt64) : CallResult :=
  ⟨true, counters_.insert name value, some (.counter_changed name value)⟩

def add_counter (name : String) (value : UInt64) : CallResult :=
  match counters_[name]? with
  | none => ⟨true, counters_.insert name value, some (.counter_added name)⟩
  | some _ => counters_.refuse

/-- A counter that is there gets the value that `f` makes of its own, if it makes one. -/
def change_counter (name : String) (f : UInt64 → Option UInt64) : CallResult :=
  match counters_[name]? with
  | none => counters_.refuse
  | some value =>
    match f value with
    | none => counters_.refuse
    | some value => counters_.assign name value

def set_counter (name : String) (value : UInt64) : CallResult :=
  if counters_.num_counters = 0 then counters_.refuse
  else counters_.change_counter name fun _ => some value

def remove_counter (name : String) : CallResult :=
  if counters_.num_counters = 0 then counters_.refuse
  else ⟨true, counters_.erase name, some (.counter_removed name)⟩

def increment_counter (name : String) : CallResult :=
  counters_.change_counter name fun value => some (value + 1)

def increment_counter_by (name : String) (incr_amount : Int32) : CallResult :=
  counters_.change_counter name fun value => some (value + incr_amount.toInt64.toUInt64)

def decrement_counter (name : String) : CallResult :=
  counters_.change_counter name fun value => if value = 0 then none else some (value - 1)

def decrement_counter_by (name : String) (decr_amount : Int32) : CallResult :=
  counters_.change_counter name fun value =>
    if value = 0 then none else some (value - decr_amount.toInt64.toUInt64)

theorem change_counter_cases (name : String) (f : UInt64 → Option UInt64) :
    counters_.change_counter name f = counters_.refuse ∨
      ∃ old value, counters_[name]? = some old ∧ f old = some value ∧
        counters_.change_counter name f = counters_.assign name value := by
  unfold change_counter
  cases hold : counters_[name]? with
  | none => exact .inl rfl
  | some old =>
    cases hvalue : f old with
    | none => exact .inl (by simp only [hvalue])
    | some value => exact .inr ⟨old, value, rfl, hvalue, by simp only [hvalue]⟩

end Counters

/-- The calls of a module on its counters. -/
inductive CounterCall where
  | add_counter (name : String) (value : UInt64)
  | set_counter (name : String) (value : UInt64)
  | remove_counter (name : String)
  | increment_counter (name : String)
  | increment_counter_by (name : String) (incr_amount : Int32)
  | decrement_counter (name : String)
  | decrement_counter_by (name : String) (decr_amount : Int32)
  deriving DecidableEq

def CounterCall.perform : CounterCall → Counters → CallResult
  | .add_counter name value, counters_ => counters_.add_counter name value
  | .set_counter name value, counters_ => counters_.set_counter name value
  | .remove_counter name, counters_ => counters_.remove_counter name
  | .increment_counter name, counters_ => counters_.increment_counter name
  | .increment_counter_by name amount, counters_ => counters_.increment_counter_by name amount
  | .decrement_counter name, counters_ => counters_.decrement_counter name
  | .decrement_counter_by name amount, counters_ => counters_.decrement_counter_by name amount

theorem CounterCall.perform_add {counters_ : Counters} {name : String}
    (h : counters_[name]? = none) (value : UInt64) :
    (CounterCall.add_counter name value).perform counters_ =
      ⟨true, counters_.insert name value, some (.counter_added name)⟩ := by
  rw [perform, Counters.add_counter, h]

theorem Counters.change_counter_outcome (counters_ : Counters) (name : String)
    (f : UInt64 → Option UInt64) :
    (counters_.change_counter name f).counters = counters_ ∧
        (counters_.change_counter name f).notification = none ∨
      ∃ value, (counters_[name]?).isSome = true ∧ counters_.change_counter name f =
        ⟨true, counters_.insert name value, some (.counter_changed name value)⟩ := by
  rcases counters_.change_counter_cases name f with hrefuse | ⟨old, value, hold, -, hassign⟩
  · rw [hrefuse]
    exact .inl ⟨rfl, rfl⟩
  · exact .inr ⟨value, by rw [hold]; rfl, hassign⟩

/-- What a call can do: nothing, or add, change or remove one counter. -/
theorem CounterCall.perform_cases (c : CounterCall) (counters_ : Counters) :
    (c.perform counters_).counters = counters_ ∧ (c.perform counters_).notification = none ∨
    (∃ name value, c = .add_counter name value ∧ counters_[name]? = none ∧
      c.perform counters_ =
        ⟨true, counters_.insert name value, some (.counter_added name)⟩) ∨
    (∃ name value, (counters_[name]?).isSome = true ∧ c.perform counters_ =
      ⟨true, counters_.insert name value, some (.counter_changed name value)⟩) ∨
    ∃ name, c = .remove_counter name ∧
      c.perform counters_ = ⟨true, counters_.erase name, some (.counter_removed name)⟩ := by
  have hchange : ∀ name f, c.perform counters_ = counters_.change_counter name f →
      (c.perform counters_).counters = counters_ ∧ (c.perform counters_).notification = none ∨
      ∃ name value, (counters_[name]?).isSome = true ∧ c.perform counters_ =
        ⟨true, counters_.insert name value, some (.counter_changed name value)⟩ := by
    intro name f hc
    rw [hc]
    rcases counters_.change_counter_outcome name f with hnone | ⟨value, hold, hvalue⟩
    · exact .inl hnone
    · exact .inr ⟨name, value, hold, hvalue⟩
  cases c with
  | add_counter name value =>
    cases hname : counters_[name]? with
    | none => exact .inr (.inl ⟨name, value, rfl, hname, perform_add hname value⟩)
    | some v =>
      rw [perform, Counters.add_counter, hname]
      exact .inl ⟨rfl, rfl⟩
  | set_counter name value =>
    by_cases hsize : counters_.num_counters = 0
    · rw [perform, Counters.set_counter, if_pos hsize]
      exact .inl ⟨rfl, rfl⟩
    · exact (hchange name _ (if_neg hsize)).imp_right fun h => .inr (.inl h)
  | remove_counter name =>
    rw [perform, Counters.remove_counter]
    split
    · exact .inl ⟨rfl, rfl⟩
    · exact .inr (.inr (.inr ⟨name, rfl, rfl⟩))
  | increment_counter name =>
    exact (hchange name (fun value => some (value + 1)) rfl).imp_right fun h => .inr (.inl h)
  | increment_counter_by name amount =>
    exact (hchange name (fun value => some (value + amount.toInt64.toUInt64)) rfl).imp_right
      fun h => .inr (.inl h)
  | decrement_counter name => exact (hchange name _ rfl).imp_right fun h => .inr (.inl h)
  | decrement_counter_by name amount =>
    exact (hchange name _ rfl).imp_right fun h => .inr (.inl h)

/-! ## The modules with their observer -/

/-- A function in `events_`: the module that has bound it, and what it tells the observer. -/
structure QueuedEvent (M : Type) where
  module : M
  notification : Notification
  sim_time : ℚ

def Notification.notify (n : Notification) (time : ℚ) (s : Shared) : Except Fault Shared :=
  match n with
  | .counter_added name => .ok (Db.counter_added name time s)
  | .counter_changed name value => Db.counter_updated name value time s
  | .counter_removed name => .ok (Db.counter_removed name time s)

structure World (M : Type) where
  counters : M → Counters := fun _ => ∅
  events_ : List (QueuedEvent M) := []
  debugger : Shared
  /-- The module of the event that the consumer has taken last. -/
  taken : Option M := none
  /-- The messages of all stops. -/
  stops : List DebuggerMessage := []

inductive WorldStep (M : Type) where
  | call (m : M) (c : CounterCall) (time : ℚ)
  /-- The consumer takes the next event, which `m` has emitted. -/
  | deliver (m : M)
  /-- The client lets the simulation go on, behind a stop in an event of `m`. -/
  | resume (m : M)

def WorldStep.module {M : Type} : WorldStep M → M
  | .call m _ _ => m
  | .deliver m => m
  | .resume m => m

namespace World

variable {M : Type}

/-- The observer tells its state, and a stop its message. -/
def observed (w : World M) (s : Shared) : World M :=
  match s.simulation with
  | .paused _ => { w with debugger := s, stops := w.stops ++ s.reply_message.toList }
  | _ => { w with debugger := s }

@[simp] theorem observed_debugger (w : World M) (s : Shared) : (w.observed s).debugger = s := by
  unfold observed
  split <;> rfl

@[simp] theorem observed_counters (w : World M) (s : Shared) :
    (w.observed s).counters = w.counters := by
  unfold observed
  split <;> rfl

@[simp] theorem observed_events (w : World M) (s : Shared) :
    (w.observed s).events_ = w.events_ := by
  unfold observed
  split <;> rfl

/-- An addition is told at once, and everything else queued. -/
def emit (w : World M) (m : M) (time : ℚ) : Option Notification → World M
  | none => w
  | some (.counter_added name) => { w with debugger := Db.counter_added name time w.debugger }
  | some n => { w with events_ := w.events_ ++ [⟨m, n, time⟩] }

variable [DecidableEq M]

/-- A call of `m` changes the counters of `m`, and sends its notification. -/
def called (w : World M) (m : M) (result : CallResult) (time : ℚ) : World M :=
  { w with counters := update w.counters m result.counters }.emit m time result.notification

@[simp] theorem called_counters (w : World M) (m : M) (result : CallResult) (time : ℚ) :
    (w.called m result time).counters = update w.counters m result.counters := by
  unfold called emit
  split <;> rfl

/-- An event of the queue was there, or has been sent by the call and is no addition. -/
theorem mem_called_events {w : World M} {m : M} {result : CallResult} {time : ℚ}
    {e : QueuedEvent M} (he : e ∈ (w.called m result time).events_) : e ∈ w.events_ ∨
      result.notification = some e.notification ∧
        ∀ name, e.notification ≠ .counter_added name := by
  unfold called emit at he
  split at he
  · exact .inl he
  · exact .inl he
  · rename_i n hadded hn
    rcases List.mem_append.mp he with he | he
    · exact .inl he
    · cases List.mem_singleton.mp he
      exact .inr ⟨hn, fun name hname => hadded name hname⟩

/-- `none` when the step is not possible: while the simulation is stopped nothing but the
resumption is, and an exception of an event ends the program. -/
def step (w : World M) : WorldStep M → Option (World M)
  | .call m c time =>
    if w.debugger.simulation = .running then some (w.called m (c.perform (w.counters m)) time)
    else none
  | .deliver m =>
    match w.events_ with
    | [] => none
    | e :: events_ =>
      if w.debugger.simulation = .running ∧ e.module = m then
        match e.notification.notify e.sim_time w.debugger with
        | .ok s => some ({ w with events_, taken := some m }.observed s)
        | .error _ => none
      else none
  | .resume m =>
    match w.debugger.simulation with
    | .paused loop =>
      if w.taken = some m then some (w.observed (Db.resume loop w.debugger)) else none
    | _ => none

variable {w w' : World M} {m : M}

theorem step_call {c : CounterCall} {time : ℚ} (h : w.step (.call m c time) = some w') :
    w.debugger.simulation = .running ∧
      w' = w.called m (c.perform (w.counters m)) time := by
  simp only [step, Option.ite_none_right_eq_some, Option.some.injEq] at h
  exact ⟨h.1, h.2.symm⟩

theorem step_deliver (h : w.step (.deliver m) = some w') : ∃ e events_ s,
    w.events_ = e :: events_ ∧ w.debugger.simulation = .running ∧ e.module = m ∧
      e.notification.notify e.sim_time w.debugger = .ok s ∧
      w' = { w with events_, taken := some m }.observed s := by
  simp only [step] at h
  split at h
  · cases h
  · rename_i e events_ hevents
    simp only [Option.ite_none_right_eq_some] at h
    obtain ⟨⟨hrun, hm⟩, h⟩ := h
    split at h
    · rename_i s hs
      cases h
      exact ⟨e, events_, s, hevents, hrun, hm, hs, rfl⟩
    · cases h

theorem step_resume (h : w.step (.resume m) = some w') : ∃ loop,
    w.debugger.simulation = .paused loop ∧ w.taken = some m ∧
      w' = w.observed (Db.resume loop w.debugger) := by
  simp only [step] at h
  split at h
  · rename_i loop hpaused
    simp only [Option.ite_none_right_eq_some, Option.some.injEq] at h
    exact ⟨loop, hpaused, h.1, h.2.symm⟩
  · cases h

/-- An event of the queue was there before the step, or the step is a call that has sent it. -/
theorem mem_step_events {x : WorldStep M} {e : QueuedEvent M} (hs : w.step x = some w')
    (he : e ∈ w'.events_) : e ∈ w.events_ ∨ ∃ m c time, x = .call m c time ∧
      (c.perform (w.counters m)).notification = some e.notification ∧
      ∀ name, e.notification ≠ .counter_added name := by
  cases x with
  | call m c time =>
    obtain ⟨-, rfl⟩ := step_call hs
    rcases mem_called_events he with he | ⟨hsent, hadded⟩
    · exact .inl he
    · exact .inr ⟨m, c, time, rfl, hsent, hadded⟩
  | deliver m =>
    obtain ⟨head, events_, s, hevents, -, -, -, rfl⟩ := step_deliver hs
    rw [observed_events] at he
    rw [hevents]
    exact .inl (List.mem_cons_of_mem _ he)
  | resume m =>
    obtain ⟨loop, -, -, rfl⟩ := step_resume hs
    rw [observed_events] at he
    exact .inl he

end World

/-- Modules without counters, observed by a debugger that has been used as it may. -/
def world (M : Type) [DecidableEq M] (s : Shared) : System (World M) (WorldStep M) where
  init := { debugger := s }
  step := World.step

end Pfp.Core
