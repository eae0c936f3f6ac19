import PFPSim.Queues.MTQueue
import PFPSim.Queues.LMTQueue

/-!
# No stranded waiter

In both queues a process that waits for an item waits beside an empty queue, and in the
bounded one a process that waits for a slot waits beside a full queue, from the moment at
which the process that runs has notified what it has done.
-/

namespace Pfp.Core

open Runs Cooperative

namespace LMTQueue

variable {T : Type} {N : UInt64}

/-- The item put in is announced, and so is the slot set free. -/
theorem notified {c : Call T} {a : Statement T} {rest : Code T}
    (h : .act a :: rest <:+ (program N).code c) :
    (∀ item, a = .push item → .notify .cond_not_empty_ ∈ rest) ∧
      (a = .pop → .notify .cond_not_full_ ∈ rest) := by
  cases c <;>
    simp only [program, push, push_move, pop, pop_into, List.suffix_cons_iff, List.cons.injEq,
      List.suffix_nil, reduceCtorEq, false_and, false_or, or_false, Instr.act.injEq] at h <;>
    rcases h with ⟨rfl, rfl⟩ | ⟨rfl, rfl⟩ | ⟨rfl, rfl⟩ | ⟨rfl, rfl⟩ <;> simp

/-- A queue that is empty, or full, stays so, or the processes that wait are told. -/
theorem tells : (contract N).Tells (program (T := T) N) := by
  intro c a rest hsuffix e he q l q' l' hallowed heffect hwaits
  have hallowed : Allowed N q a := hallowed
  have heffect : effect a q l = some (q', l') := heffect
  obtain ⟨hpush, hpop⟩ := notified hsuffix
  cases a with
  | push item =>
    cases e with
    | cond_not_empty_ => exact absurd (hpush item rfl) he
    | cond_not_full_ => exact absurd hwaits (Nat.ne_of_lt hallowed)
  | pop =>
    cases e with
    | cond_not_empty_ => exact absurd hwaits hallowed
    | cond_not_full_ => exact absurd (hpop rfl) he
  | increment =>
    cases heffect
    cases e <;> exact hwaits
  | decrement =>
    cases heffect
    cases e <;> exact hwaits
  | front =>
    obtain ⟨item, -, hq⟩ := Option.map_eq_some_iff.mp heffect
    cases hq
    exact hwaits
  | give =>
    obtain ⟨item, -, hq⟩ := Option.map_eq_some_iff.mp heffect
    cases hq
    cases e <;> exact hwaits

end LMTQueue

/-! ## All schedules -/

/-- **No stranded waiter.** In every state that any processes reach under any schedule, a
process that waits for an item and has not been made runnable waits beside an empty queue,
and one that waits for a slot beside a queue of `N` items, unless the process that runs still
has to notify the event. While no process runs there is no exception. -/
theorem no_stranded_waiter {T P : Type} [DecidableEq P] (N : UInt64) :
    (∀ k, System.Reachable (cooperative P MTQueue.program ({} : MTQueue T) {}) k →
      ∀ p, (k.processes p).status = .waiting .cond_ →
        (k.shared.queue_ = [] ∨ k.Notifies .cond_) ∧
        (k.running = none → k.shared.queue_ = [])) ∧
    (∀ k, System.Reachable (cooperative P (LMTQueue.program N) ({} : LMTQueue T) none) k →
      ∀ p, ((k.processes p).status = .waiting .cond_not_empty_ →
        (k.shared.queue_ = [] ∨ k.Notifies .cond_not_empty_) ∧
        (k.running = none → k.shared.queue_ = [])) ∧
      ((k.processes p).status = .waiting .cond_not_full_ →
        (k.shared.queue_.length = N.toNat ∨ k.Notifies .cond_not_full_) ∧
        (k.running = none → k.shared.queue_.length = N.toNat))) := by
  refine ⟨?_, ?_⟩
  · intro k h p hp
    have hinit : MTQueue.Quiet .free ({} : MTQueue T) := ⟨rfl, trivial⟩
    have horderly := orderly_of_reachable MTQueue.honoured hinit h
    refine ⟨?_, fun hrun => (horderly.quiet hrun).2 p .cond_ hp⟩
    exact stays_of_waiting MTQueue.honoured (MTQueue.tells rfl MTQueue.announces) hinit h hp
  · intro k h p
    have hinit : LMTQueue.Quiet N ({} : LMTQueue T) := ⟨rfl, Nat.zero_le _, rfl⟩
    have horderly := orderly_of_reachable LMTQueue.honoured hinit h
    refine ⟨?_, ?_⟩
    · intro hp
      refine ⟨?_, fun hrun => (horderly.quiet hrun).2 p .cond_not_empty_ hp⟩
      exact stays_of_waiting LMTQueue.honoured LMTQueue.tells hinit h hp
    · intro hp
      refine ⟨?_, fun hrun => (horderly.quiet hrun).2 p .cond_not_full_ hp⟩
      exact stays_of_waiting LMTQueue.honoured LMTQueue.tells hinit h hp

/-- Two consumers wait, two items are pushed before one of them runs, and the first consumer
takes both and waits again. -/
def burst : List (Activity Nat (MTQueue.Call Nat)) :=
  [.dispatch 0, .call .pop, .exec, .dispatch 1, .call .pop, .exec,
    .dispatch 2, .call (.push 7), .exec, .exec, .exec, .exec, .call (.push 8), .exec, .exec, .exec,
    .exec, .leave,
    .dispatch 0, .exec, .exec, .exec, .exec, .exec, .exec, .call .pop, .exec, .exec, .exec, .exec,
    .exec, .exec, .call .pop, .exec]

/-- The queue has one slot, a producer fills it and waits for a slot. -/
def filled : List (Activity Nat (LMTQueue.Call Nat)) :=
  [.dispatch 0, .call (.push 7), .exec, .exec, .exec, .exec, .exec, .exec, .call (.push 8), .exec]

theorem no_stranded_waiter_runs :
    (∃ k, (cooperative Nat MTQueue.program ({} : MTQueue Nat) {}).replay
        (cooperative Nat MTQueue.program ({} : MTQueue Nat) {}).init burst = some k ∧
      (k.processes 0).status = .waiting .cond_ ∧ k.shared.queue_ = []) ∧
    (∃ k, (cooperative Nat (LMTQueue.program 1) ({} : LMTQueue Nat) none).replay
        (cooperative Nat (LMTQueue.program 1) ({} : LMTQueue Nat) none).init filled = some k ∧
      (k.processes 0).status = .waiting .cond_not_full_ ∧ k.shared.queue_.length = 1) := by
  have hburst : ((cooperative Nat MTQueue.program ({} : MTQueue Nat) {}).replay
      (cooperative Nat MTQueue.program ({} : MTQueue Nat) {}).init burst).map (fun k =>
        (k.running, (k.processes 0).status)) = some (none, .waiting .cond_) := by
    decide +kernel
  have hfilled : ((cooperative Nat (LMTQueue.program 1) ({} : LMTQueue Nat) none).replay
      (cooperative Nat (LMTQueue.program 1) ({} : LMTQueue Nat) none).init filled).map
        (fun k => (k.running, (k.processes 0).status)) = some (none, .waiting .cond_not_full_) := by
    decide +kernel
  obtain ⟨k, hreplay, hk⟩ := Option.map_eq_some_iff.mp hburst
  obtain ⟨hnone, hwaits⟩ := Prod.mk.inj hk
  obtain ⟨k', hreplay', hk'⟩ := Option.map_eq_some_iff.mp hfilled
  obtain ⟨hnone', hwaits'⟩ := Prod.mk.inj hk'
  obtain ⟨hmt, hlmt⟩ := no_stranded_waiter (T := Nat) (P := Nat) 1
  refine ⟨⟨k, hreplay, hwaits, ?_⟩, k', hreplay', hwaits', ?_⟩
  · exact (hmt k (System.reachable_of_replay hreplay) 0 hwaits).2 hnone
  · exact ((hlmt k' (System.reachable_of_replay hreplay') 0).2 hwaits').2 hnone'

end Pfp.Core
