import PFPSim.Queues.MTQueue

/-!
# The queue of notifications

`PFPObject::events_`, into which every counter operation puts a function for each observer,
and the loop of `notify_observers`, which executes them. A round of the loop has no wait
between its pop and the call of the function, so while no process runs the functions that
were popped are those that were executed (`executing`).
-/

namespace Pfp.Core

open Runs Cooperative

namespace MTQueue

variable {T : Type} {P : Type} [DecidableEq P]

/-- A client that executes every item that it pops. -/
def Client.executing : Client T where
  settled popped executed := executed = popped
  between popped executed := executed <+: popped
  between_of_settled h := h ▸ List.prefix_rfl

/-- The observers' functions of `notify_counter_changed` or `notify_counter_removed`. -/
def notify_counter (funcs : List T) : Code T := funcs.flatMap push

/-- A round of the loop: `auto func = object->events_.pop(); func();` -/
def notify_observers : Code T := pop ++ [.act .func]

inductive EventCall (T : Type) where
  | notify_counter (funcs : List T)
  | notify_observers

/-- The processes notify observers and execute what has been notified. -/
def notifications : Program Cond (MTQueue T) (Statement T) (Variables T) (EventCall T) where
  code
    | .notify_counter funcs => notify_counter funcs
    | .notify_observers => notify_observers
  effect := effect

theorem notify_counter_kept (funcs : List T) {q : MTQueue T} (h : Quiet .executing q)
    (l : Variables T) {w : Cond → Prop} (hw : ∀ e, w e → q.queue_ = []) :
    Kept notifications (contract .executing) (notify_counter funcs) false q l w := by
  induction funcs generalizing q w with
  | nil => exact ⟨rfl, h, hw⟩
  | cons func funcs ih =>
    rw [notify_counter, List.flatMap_cons]
    apply push_kept rfl h func l
    intro q' h'
    apply ih h'
    intro e he
    exact he.elim

theorem notify_observers_kept {q : MTQueue T} (h : Quiet .executing q) (l : Variables T) :
    Kept notifications (contract .executing) notify_observers false q l
      fun _ => q.queue_ = [] := by
  apply pop_honoured rfl h l
  intro q' item queue_ h' hqueue
  have hfifo : q'.popped ++ item :: queue_ = q'.pushed := hqueue ▸ h'.fifo
  have hsettled : q'.executed = q'.popped := h'.settled
  refine ⟨⟨⟨queue_, ?_⟩, ?_⟩, trivial,
    { q' with
      queue_, popped := q'.popped ++ [item], executed := q'.executed ++ [item] },
    { l with item := some item }, rfl, rfl, ⟨?_, ?_⟩, fun e he => he.elim⟩
  · rw [← hfifo, List.append_assoc]
    rfl
  · show q'.executed <+: q'.popped ++ [item]
    rw [hsettled]
    exact List.prefix_append ..
  · rw [← hfifo, List.append_assoc]
    rfl
  · show q'.executed ++ [item] = q'.popped ++ [item]
    rw [hsettled]

theorem notifications_honoured : (contract .executing).Honoured (notifications (T := T)) := by
  intro c q l h
  cases c with
  | notify_counter funcs => exact notify_counter_kept funcs h l fun e he => he
  | notify_observers => exact notify_observers_kept h l

theorem announces_notifications (c : EventCall T) : Announces (notifications.code c) := by
  cases c with
  | notify_counter funcs =>
    show Announces (notify_counter funcs)
    induction funcs with
    | nil => exact announces_of_not_mem fun item => List.not_mem_nil
    | cons func funcs ih =>
      rw [notify_counter, List.flatMap_cons]
      exact ih.push func
  | notify_observers =>
    have hpop : Announces (notify_observers : Code T) :=
      announces_of_not_mem fun item => by simp [notify_observers, pop]
    exact hpop

/-! ## All schedules -/

/-- **Every item once, in order.** In every state that any processes reach under any
schedule, no statement takes an item out of an empty queue, the items that have been popped
are the first that have been pushed, and while no process runs the others are in the queue.
When the items are notifications and `notify_observers` is what pops them, those that have
been executed are the first that have been pushed, and all of them whenever no process runs
and a process that executes them cannot go on. -/
theorem fifo_executed :
    (∀ k, System.Reachable (cooperative P program ({} : MTQueue T) {}) k →
      (∀ p a rest, k.running = some p → (k.processes p).code = .act a :: rest →
        Allowed k.shared a ∧ (effect a k.shared (k.processes p).locals).isSome) ∧
      k.shared.popped <+: k.shared.pushed ∧
      (k.running = none → k.shared.popped ++ k.shared.queue_ = k.shared.pushed)) ∧
    (∀ k, System.Reachable (cooperative P notifications ({} : MTQueue T) {}) k →
      k.shared.executed <+: k.shared.pushed ∧
      (k.running = none → k.shared.executed ++ k.shared.queue_ = k.shared.pushed) ∧
      (∀ p, k.running = none → (k.processes p).status ≠ .runnable →
        k.shared.executed = k.shared.pushed)) := by
  refine ⟨?_, ?_⟩
  · intro k h
    have horderly := orderly_of_reachable honoured ⟨rfl, trivial⟩ h
    refine ⟨?_, horderly.always.fifo, fun hrun => (horderly.quiet hrun).1.fifo⟩
    intro p a rest hp hcode
    exact horderly.before hp hcode
  · intro k h
    have hinit : Quiet .executing ({} : MTQueue T) := ⟨rfl, rfl⟩
    have horderly := orderly_of_reachable notifications_honoured hinit h
    have hqueue : k.running = none → k.shared.executed ++ k.shared.queue_ = k.shared.pushed := by
      intro hrun
      have hquiet := (horderly.quiet hrun).1
      rw [← hquiet.fifo, show k.shared.executed = k.shared.popped from hquiet.settled]
    have halways := horderly.always
    refine ⟨halways.between.trans halways.fifo, hqueue, ?_⟩
    intro p hrun hstatus
    have hblocked := not_blocked notifications_honoured (tells rfl announces_notifications) hinit h p
    cases hp : (k.processes p).status with
    | runnable => exact absurd hp hstatus
    | blocked => exact absurd hp hblocked
    | waiting e =>
      have hempty : k.shared.queue_ = [] := (horderly.quiet hrun).2 p e hp
      rw [← hqueue hrun, hempty, List.append_nil]

/-- Two consumers wait, a producer pushes an item, and the second consumer takes it. -/
def overtaken : List (Activity (Fin 3) (Call Nat)) :=
  [.dispatch 0, .call .pop, .exec, .dispatch 1, .call .pop_into, .exec,
    .dispatch 2, .call (.push 7), .exec, .exec, .exec, .exec, .leave,
    .dispatch 1, .exec, .exec, .exec, .exec, .exec, .exec, .leave, .dispatch 0, .exec]

/-- Two observers are notified of a change, and the loop executes both functions. -/
def changeObserved : List (Activity (Fin 2) (EventCall Nat)) :=
  [.dispatch 0, .call .notify_observers, .exec,
    .dispatch 1, .call (.notify_counter [7, 8]), .exec, .exec, .exec, .exec, .exec, .exec, .exec,
    .exec, .leave,
    .dispatch 0, .exec, .exec, .exec, .exec, .exec, .exec, .exec, .call .notify_observers, .exec,
    .exec, .exec, .exec, .exec, .exec, .exec, .call .notify_observers, .exec]

theorem fifo_executed_runs :
    (∃ k, (cooperative (Fin 3) program ({} : MTQueue Nat) {}).replay
        (cooperative (Fin 3) program ({} : MTQueue Nat) {}).init overtaken = some k ∧
      k.shared.popped = [7] ∧ k.shared.popped ++ k.shared.queue_ = k.shared.pushed) ∧
    (∃ k, (cooperative (Fin 2) notifications ({} : MTQueue Nat) {}).replay
        (cooperative (Fin 2) notifications ({} : MTQueue Nat) {}).init changeObserved = some k ∧
      k.shared.pushed = [7, 8] ∧ k.shared.executed = k.shared.pushed) := by
  have hrun : ((cooperative (Fin 3) program ({} : MTQueue Nat) {}).replay
      (cooperative (Fin 3) program ({} : MTQueue Nat) {}).init overtaken).map (fun k =>
        (k.running, k.shared.popped)) = some (none, [7]) := by
    decide +kernel
  have hexec : ((cooperative (Fin 2) notifications ({} : MTQueue Nat) {}).replay
      (cooperative (Fin 2) notifications ({} : MTQueue Nat) {}).init changeObserved).map (fun k =>
        (k.running, (k.processes 0).status, k.shared.pushed)) =
          some (none, .waiting .cond_, [7, 8]) := by
    decide +kernel
  obtain ⟨k, hreplay, hk⟩ := Option.map_eq_some_iff.mp hrun
  obtain ⟨hnone, hpopped⟩ := Prod.mk.inj hk
  obtain ⟨k', hreplay', hk'⟩ := Option.map_eq_some_iff.mp hexec
  obtain ⟨hnone', hk'⟩ := Prod.mk.inj hk'
  obtain ⟨hstatus, hpushed⟩ := Prod.mk.inj hk'
  have hfifo := fifo_executed.1 k (System.reachable_of_replay hreplay)
  have hall := fifo_executed.2 k' (System.reachable_of_replay hreplay')
  refine ⟨⟨k, hreplay, hpopped, hfifo.2.2 hnone⟩, k', hreplay', hpushed, ?_⟩
  apply hall.2.2 0 hnone'
  rw [hstatus]
  intro h
  cases h

end MTQueue

end Pfp.Core
