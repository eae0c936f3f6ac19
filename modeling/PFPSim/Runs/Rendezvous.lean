import Mathlib.Data.List.Infix
import Mathlib.Logic.Relation

/-!
# A rendezvous of two parties

A worker that is held at first, then runs, and stops again and again with a message; a
controller that serves requests, lets the worker go and waits until it has stopped. They
share a lock, which holds the worker until it is released, the flags `go` and `stopped`,
and the last message. `Phase` lists the situations that are possible (`Phase.move`).
-/

namespace Runs.Rendezvous

inductive Worker where
  | held
  | running
  /-- It has left its message, and not told the controller yet. -/
  | stopping
  /-- It has told the controller, and waits until it may go on. -/
  | waiting
  /-- It has seen that it may go on. -/
  | resumed
  deriving DecidableEq

inductive Controller (M : Type*) where
  | serving
  /-- It is about to release the lock. -/
  | releasing
  | waiting
  /-- It has seen that the worker has stopped. -/
  | noticed
  /-- It is about to read the message. -/
  | reading
  | replying (m : M)
  deriving DecidableEq

/-- The parties with what they share, and the messages of all stops and all replies. -/
structure View (M : Type*) where
  worker : Worker
  controller : Controller M
  lock : Bool
  go : Bool
  stopped : Bool
  started : Bool
  message : Option M
  stops : List M
  replies : List M

/-- The moves of the worker, then those of the controller. -/
inductive Move {M : Type*} (v : View M) : View M → Prop
  | stay : Move v v
  | start (hw : v.worker = .held) (hl : v.lock = false) : Move v { v with worker := .running }
  | stop (x : M) (hw : v.worker = .running) :
      Move v { v with worker := .stopping, message := some x, stops := v.stops ++ [x] }
  | announce (hw : v.worker = .stopping) : Move v { v with worker := .waiting, stopped := true }
  | resume (hw : v.worker = .waiting) (hg : v.go = true) : Move v { v with worker := .resumed }
  | proceed (hw : v.worker = .resumed) : Move v { v with worker := .running, go := false }
  | run (hc : v.controller = .serving) (hs : v.started = false) :
      Move v { v with controller := .releasing, started := true }
  | release (hc : v.controller = .releasing) :
      Move v { v with controller := .waiting, lock := false }
  | permit (hc : v.controller = .serving) : Move v { v with controller := .waiting, go := true }
  | notice (hc : v.controller = .waiting) (hs : v.stopped = true) :
      Move v { v with controller := .noticed }
  | clear (hc : v.controller = .noticed) :
      Move v { v with controller := .reading, stopped := false }
  | read (x : M) (hc : v.controller = .reading) (hm : v.message = some x) :
      Move v { v with controller := .replying x }
  | substitute (x : M) (hc : v.controller = .reading) (hm : v.message = none) :
      Move v { v with controller := .replying x }
  | reply (x : M) (hc : v.controller = .replying x) :
      Move v { v with controller := .serving, replies := v.replies ++ [x] }

/-- The possible situations. -/
inductive Phase {M : Type*} : View M → Prop
  | held (m : Option M) : Phase ⟨.held, .serving, true, false, false, false, m, [], []⟩
  | releasing (m : Option M) : Phase ⟨.held, .releasing, true, false, false, true, m, [], []⟩
  /-- The controller waits for a worker that it has not released. -/
  | stuck (m : Option M) : Phase ⟨.held, .waiting, true, true, false, false, m, [], []⟩
  | released (m : Option M) (l : List M) :
      Phase ⟨.held, .waiting, false, false, false, true, m, l, l⟩
  | running (m : Option M) (l : List M) :
      Phase ⟨.running, .waiting, false, false, false, true, m, l, l⟩
  | stopping (x : M) (l : List M) :
      Phase ⟨.stopping, .waiting, false, false, false, true, some x, l ++ [x], l⟩
  | announced (x : M) (l : List M) :
      Phase ⟨.waiting, .waiting, false, false, true, true, some x, l ++ [x], l⟩
  | noticed (x : M) (l : List M) :
      Phase ⟨.waiting, .noticed, false, false, true, true, some x, l ++ [x], l⟩
  | reading (x : M) (l : List M) :
      Phase ⟨.waiting, .reading, false, false, false, true, some x, l ++ [x], l⟩
  | replying (x : M) (l : List M) :
      Phase ⟨.waiting, .replying x, false, false, false, true, some x, l ++ [x], l⟩
  | served (m : Option M) (l : List M) :
      Phase ⟨.waiting, .serving, false, false, false, true, m, l, l⟩
  | permitted (m : Option M) (l : List M) :
      Phase ⟨.waiting, .waiting, false, true, false, true, m, l, l⟩
  | resumed (m : Option M) (l : List M) :
      Phase ⟨.resumed, .waiting, false, true, false, true, m, l, l⟩

namespace Phase

variable {M : Type*} {v v' : View M}

/-- Every move leads from a possible situation to a possible one. -/
theorem move (h : Phase v) (hm : Move v v') : Phase v' := by
  cases hm with
  | stay => exact h
  | start hw hl =>
    cases h with
    | released m l => exact .running m l
    | held | releasing | stuck => cases hl
    | _ => cases hw
  | stop x hw =>
    cases h with
    | running m l => exact .stopping x l
    | _ => cases hw
  | announce hw =>
    cases h with
    | stopping x l => exact .announced x l
    | _ => cases hw
  | resume hw hg =>
    cases h with
    | permitted m l => exact .resumed m l
    | announced | noticed | reading | replying | served => cases hg
    | _ => cases hw
  | proceed hw =>
    cases h with
    | resumed m l => exact .running m l
    | _ => cases hw
  | run hc hs =>
    cases h with
    | held m => exact .releasing m
    | served => cases hs
    | _ => cases hc
  | release hc =>
    cases h with
    | releasing m => exact .released m []
    | _ => cases hc
  | permit hc =>
    cases h with
    | held m => exact .stuck m
    | served m l => exact .permitted m l
    | _ => cases hc
  | notice hc hs =>
    cases h with
    | announced x l => exact .noticed x l
    | noticed | held | releasing | reading | replying | served => cases hc
    | _ => cases hs
  | clear hc =>
    cases h with
    | noticed x l => exact .reading x l
    | _ => cases hc
  | read x hc hm =>
    cases h with
    | reading y l =>
      cases hm
      exact .replying x l
    | _ => cases hc
  | substitute x hc hm =>
    cases h with
    | reading => cases hm
    | _ => cases hc
  | reply x hc =>
    cases h with
    | replying y l =>
      cases hc
      exact .served _ (l ++ [x])
    | _ => cases hc

theorem moves (h : Phase v) (hm : Relation.ReflTransGen Move v v') : Phase v' := by
  induction hm with
  | refl => exact h
  | tail _ hmove ih => exact ih.move hmove

/-- While the controller serves, the worker is held or waits. -/
theorem of_serving (h : Phase v) (hc : v.controller = .serving) :
    v.worker = .held ∧ v.lock = true ∨ v.worker = .waiting ∧ v.go = false := by
  cases h with
  | held => exact .inl ⟨rfl, rfl⟩
  | served => exact .inr ⟨rfl, rfl⟩
  | _ => cases hc

theorem not_stopped_of_serving (h : Phase v) (hc : v.controller = .serving) :
    v.stopped = false := by
  cases h with
  | held | served => rfl
  | _ => cases hc

theorem not_go_of_serving (h : Phase v) (hc : v.controller = .serving) : v.go = false := by
  cases h with
  | held | served => rfl
  | _ => cases hc

/-- While the worker runs the controller waits. -/
theorem of_running (h : Phase v) (hw : v.worker = .running) :
    v.controller = .waiting ∧ v.lock = false ∧ v.go = false ∧ v.stopped = false := by
  cases h with
  | running => exact ⟨rfl, rfl, rfl, rfl⟩
  | _ => cases hw

theorem go_of_resumed (h : Phase v) (hw : v.worker = .resumed) : v.go = true := by
  cases h with
  | resumed => rfl
  | _ => cases hw

theorem stopped_of_noticed (h : Phase v) (hc : v.controller = .noticed) : v.stopped = true := by
  cases h with
  | noticed => rfl
  | _ => cases hc

theorem waiting_of_reading (h : Phase v) (hc : v.controller = .reading) :
    v.worker = .waiting ∧ v.stopped = false := by
  cases h with
  | reading => exact ⟨rfl, rfl⟩
  | _ => cases hc

theorem of_stopped (h : Phase v) (hs : v.stopped = true) : ∃ x, v.message = some x := by
  cases h with
  | announced x l => exact ⟨x, rfl⟩
  | noticed x l => exact ⟨x, rfl⟩
  | _ => cases hs

/-- A worker whose stop has not been cleared stands still. -/
theorem waiting_of_stopped (h : Phase v) (hs : v.stopped = true) :
    v.worker = .waiting ∧ v.go = false := by
  cases h with
  | announced | noticed => exact ⟨rfl, rfl⟩
  | _ => cases hs

/-- The parties wait for each other only if the worker has not been released. -/
theorem of_waiting (h : Phase v) (hc : v.controller = .waiting) (hs : v.stopped = false)
    (hw : v.worker = .held ∧ v.lock = true ∨ v.worker = .waiting ∧ v.go = false) :
    v.started = false := by
  cases h with
  | stuck => rfl
  | released => rcases hw with ⟨-, h⟩ | ⟨h, -⟩ <;> cases h
  | running => rcases hw with ⟨h, -⟩ | ⟨h, -⟩ <;> cases h
  | stopping => rcases hw with ⟨h, -⟩ | ⟨h, -⟩ <;> cases h
  | permitted => rcases hw with ⟨h, -⟩ | ⟨-, h⟩ <;> cases h
  | resumed => rcases hw with ⟨h, -⟩ | ⟨h, -⟩ <;> cases h
  | announced => cases hs
  | _ => cases hc

/-- A controller that waits before the worker has been started waits in vain. -/
theorem of_not_started (h : Phase v) (hc : v.controller = .waiting) (hs : v.started = false) :
    v.stopped = false ∧ v.worker = .held ∧ v.lock = true := by
  cases h with
  | stuck => exact ⟨rfl, rfl, rfl⟩
  | held => cases hc
  | _ => cases hs

end Phase

end Runs.Rendezvous
