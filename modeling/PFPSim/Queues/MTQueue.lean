import PFPSim.Runs.Waiters
import PFPSim.Numbers
import Mathlib.Data.List.Infix

/-!
# The queue without a bound

`MTQueue` under the processes of SystemC, any number of which push and pop. A pop tests the
queue before it locks the mutex, and a push wakes all processes that wait for an item. Each
of them tests the queue again, and no process loses control between the test and the end of
the call. So a pop finds the item that its test has seen (`pop_kept`).

The contract has a parameter, what a client that executes the items promises about them
(`Client`).
-/

namespace Pfp.Core

open Runs Cooperative

/-- The queue, with the items that all pushes have put in and all pops have given out, and
those that a client has executed. -/
structure MTQueue (T : Type) where
  queue_ : List T := []
  pushed : List T := []
  popped : List T := []
  executed : List T := []

namespace MTQueue

/-- The event of the queue. -/
inductive Cond where
  | cond_
  deriving DecidableEq

/-- The statements between the instructions of SystemC. -/
inductive Statement (T : Type) where
  /-- `queue_.push(item)` -/
  | push (item : T)
  /-- `item = queue_.front()` -/
  | front
  /-- `queue_.pop()` -/
  | pop
  /-- `qsize = queue_.size()` -/
  | size
  /-- The call returns with the item. -/
  | give
  /-- The client executes the item, `func()`. -/
  | func

/-- The variables of a process. -/
structure Variables (T : Type) where
  item : Option T := none
  qsize : Int := 0

variable {T : Type}

def empty (q : MTQueue T) : Bool := q.queue_.isEmpty

/-- What a statement does; `front` and `pop` are undefined on an empty queue. -/
def effect : Statement T → MTQueue T → Variables T → Option (MTQueue T × Variables T)
  | .push item, q, l =>
    some ({ q with queue_ := q.queue_ ++ [item], pushed := q.pushed ++ [item] }, l)
  | .front, q, l => q.queue_.head?.map fun item => (q, { l with item := some item })
  | .pop, q, l =>
    match q.queue_ with
    | [] => none
    | _ :: queue_ => some ({ q with queue_ }, l)
  | .size, q, l => some (q, { l with qsize := int32 q.queue_.length })
  | .give, q, l => l.item.map fun item => ({ q with popped := q.popped ++ [item] }, l)
  | .func, q, l => l.item.map fun item => ({ q with executed := q.executed ++ [item] }, l)

abbrev Code (T : Type) := List (Instr Cond (MTQueue T) (Statement T))

/-- `T pop()` -/
def pop : Code T :=
  [.wait_while empty .cond_, .lock, .act .front, .act .pop, .unlock, .act .give]

/-- `void pop(T& item)` -/
def pop_into : Code T := pop

/-- `push(const T& item)` -/
def push (item : T) : Code T := [.lock, .act (.push item), .unlock, .notify .cond_]

/-- `push(T&& item)` -/
def push_move (item : T) : Code T := push item

def size : Code T := [.lock, .act .size, .unlock]

inductive Call (T : Type) where
  | pop
  | pop_into
  | push (item : T)
  | push_move (item : T)
  | size

/-- The processes execute the calls of a queue. -/
def program : Program Cond (MTQueue T) (Statement T) (Variables T) (Call T) where
  code
    | .pop => pop
    | .pop_into => pop_into
    | .push item => push item
    | .push_move item => push_move item
    | .size => size
  effect := effect

/-! ## The contract -/

/-- What holds of the items that were popped and those that were executed: while no process
runs, and between any two instructions. -/
structure Client (T : Type) where
  settled : List T → List T → Prop
  between : List T → List T → Prop
  between_of_settled : ∀ {popped executed}, settled popped executed → between popped executed

/-- A client that may pop without executing. -/
def Client.free : Client T where
  settled _ _ := True
  between _ _ := True
  between_of_settled h := h

variable (client : Client T)

/-- While no process runs. -/
structure Quiet (q : MTQueue T) : Prop where
  fifo : q.popped ++ q.queue_ = q.pushed
  settled : client.settled q.popped q.executed

/-- Between any two instructions. -/
structure Always (q : MTQueue T) : Prop where
  fifo : q.popped <+: q.pushed
  between : client.between q.popped q.executed

variable {client} in
theorem Quiet.always {q : MTQueue T} (h : Quiet client q) : Always client q :=
  ⟨⟨q.queue_, h.fifo⟩, client.between_of_settled h.settled⟩

/-- What a statement needs: an item to take out. -/
def Allowed (q : MTQueue T) : Statement T → Prop
  | .front => q.queue_ ≠ []
  | .pop => q.queue_ ≠ []
  | _ => True

def contract : Contract Cond (MTQueue T) (Statement T) where
  quiet := Quiet client
  always _ q := Always client q
  stays _ q := q.queue_ = []
  before a q := Allowed q a
  always_of_quiet _ h := h.always

variable {client} {C : Type} {prog : Program Cond (MTQueue T) (Statement T) (Variables T) C}
  {q : MTQueue T}

/-- Behind a push nobody waits. -/
theorem push_kept (heffect : prog.effect = effect) (h : Quiet client q) (item : T)
    (l : Variables T) {rest : Code T} {w : Cond → Prop}
    (hrest : ∀ q', Quiet client q' → Kept prog (contract client) rest false q' l fun _ => False) :
    Kept prog (contract client) (push item ++ rest) false q l w := by
  have hpushed : Quiet client { q with
      queue_ := q.queue_ ++ [item], pushed := q.pushed ++ [item] } := by
    refine ⟨?_, h.settled⟩
    rw [← h.fifo, List.append_assoc]
  refine ⟨h.always, h.always, trivial, _, l, ?_, hpushed.always, hpushed.always, ?_⟩
  · rw [heffect]
    rfl
  · apply (hrest _ hpushed).mono
    intro e he
    exact he.2 rfl

/-- A pop behind its test gives the first item. -/
theorem pop_kept (heffect : prog.effect = effect) (h : Quiet client q) (hempty : empty q = false)
    (l : Variables T) {rest : Code T}
    (hrest : ∀ item queue_, q.queue_ = item :: queue_ → Kept prog (contract client) rest false
      { q with queue_, popped := q.popped ++ [item] } { l with item := some item }
      fun _ => False) :
    Kept prog (contract client) ([.lock, .act .front, .act .pop, .unlock, .act .give] ++ rest)
      false q l fun _ => q.queue_ = [] := by
  obtain ⟨queue_, pushed, popped, executed⟩ := q
  cases queue_ with
  | nil => cases hempty
  | cons item queue_ =>
    have hnot : item :: queue_ ≠ [] := List.cons_ne_nil _ _
    have hlog : Always client ⟨item :: queue_, pushed, popped, executed⟩ := h.always
    have htaken : Always client ⟨queue_, pushed, popped, executed⟩ := ⟨hlog.fifo, hlog.between⟩
    refine ⟨hlog, hlog, hnot, ⟨item :: queue_, pushed, popped, executed⟩,
      { l with item := some item }, ?_, hlog, hnot, ⟨queue_, pushed, popped, executed⟩,
      { l with item := some item }, ?_, htaken, htaken, trivial,
      ⟨queue_, pushed, popped ++ [item], executed⟩, { l with item := some item }, ?_, ?_⟩
    · rw [heffect]
      rfl
    · rw [heffect]
      rfl
    · rw [heffect]
      rfl
    · apply (hrest item queue_ rfl).mono
      intro e he
      exact hnot he

theorem pop_honoured (heffect : prog.effect = effect) (h : Quiet client q) (l : Variables T)
    {rest : Code T}
    (hrest : ∀ q' item queue_, Quiet client q' → q'.queue_ = item :: queue_ →
      Kept prog (contract client) rest false { q' with queue_, popped := q'.popped ++ [item] }
        { l with item := some item } fun _ => False) :
    Kept prog (contract client) (pop ++ rest) false q l fun _ => q.queue_ = [] := by
  refine ⟨⟨rfl, h, fun e he => he⟩, ?_⟩
  intro q' h'
  refine ⟨?_, ?_⟩
  · intro hempty
    exact List.isEmpty_iff.mp hempty
  · intro hempty
    exact pop_kept heffect h' hempty l fun item queue_ hqueue => hrest q' item queue_ h' hqueue

theorem size_honoured (heffect : prog.effect = effect) (h : Quiet client q) (l : Variables T) :
    Kept prog (contract client) size false q l fun _ => q.queue_ = [] := by
  refine ⟨h.always, h.always, trivial, q, { l with qsize := int32 q.queue_.length }, ?_, h.always,
    rfl, h, fun e he => he⟩
  rw [heffect]
  rfl

/-- Any processes may pop. -/
theorem honoured : (contract .free).Honoured (program (T := T)) := by
  intro c q l h
  have hpop : Kept program (contract .free) (pop ++ []) false q l
      fun _ => q.queue_ = [] := by
    apply pop_honoured rfl h l
    intro q' item queue_ h' hqueue
    refine ⟨rfl, ⟨?_, trivial⟩, fun e he => he.elim⟩
    rw [List.append_assoc, List.singleton_append, ← hqueue]
    exact h'.fifo
  have hpush : ∀ item, Kept program (contract .free) (push item ++ []) false q l
      fun _ => q.queue_ = [] :=
    fun item => push_kept rfl h item l fun q' h' => ⟨rfl, h', fun e he => he.elim⟩
  cases c with
  | pop => exact hpop
  | pop_into => exact hpop
  | push item => exact hpush item
  | push_move item => exact hpush item
  | size => exact size_honoured rfl h l

/-! ## Waiting for an item -/

/-- A statement that puts an item in is followed by the notification. -/
def Announces (code : Code T) : Prop :=
  ∀ item rest, .act (.push item) :: rest <:+ code → .notify .cond_ ∈ rest

theorem announces_of_not_mem {code : Code T} (h : ∀ item, .act (.push item) ∉ code) :
    Announces code := by
  intro item rest hsuffix
  exact absurd (hsuffix.subset List.mem_cons_self) (h item)

/-- Statements that put nothing in do not matter. -/
theorem Announces.append {code front : Code T} (h : Announces code)
    (hfront : ∀ item, .act (.push item) ∉ front) : Announces (front ++ code) := by
  induction front with
  | nil => exact h
  | cons i front ih =>
    intro item rest hsuffix
    rcases List.suffix_cons_iff.mp hsuffix with heq | hsuffix
    · cases heq
      exact absurd List.mem_cons_self (hfront item)
    · exact ih (fun item hmem => hfront item (List.mem_cons_of_mem _ hmem)) item rest hsuffix

theorem Announces.push {code : Code T} (h : Announces code) (item : T) :
    Announces (push item ++ code) := by
  have hbehind : Announces ([.unlock, .notify .cond_] ++ code) := h.append fun item => by simp
  have hlocked : Announces (.act (.push item) :: .unlock :: .notify .cond_ :: code) := by
    intro item' rest hsuffix
    rcases List.suffix_cons_iff.mp hsuffix with heq | hsuffix
    · cases heq
      exact List.mem_cons_of_mem _ List.mem_cons_self
    · exact hbehind item' rest hsuffix
  have hlock : Announces ([.lock] ++ .act (.push item) :: .unlock :: .notify .cond_ :: code) :=
    hlocked.append fun item => by simp
  exact hlock

/-- A queue that is empty stays so, or the processes that wait are told. -/
theorem tells (heffect : prog.effect = effect) (h : ∀ c, Announces (prog.code c)) :
    (contract client).Tells prog := by
  intro c a rest hsuffix e he q l q' l' hallowed ha hempty
  have hempty : q.queue_ = [] := hempty
  rw [heffect] at ha
  cases e
  cases a with
  | push item => exact absurd (h c item rest hsuffix) he
  | front => exact absurd hempty hallowed
  | pop => exact absurd hempty hallowed
  | size =>
    cases ha
    exact hempty
  | give =>
    obtain ⟨item, -, hq⟩ := Option.map_eq_some_iff.mp ha
    cases hq
    exact hempty
  | func =>
    obtain ⟨item, -, hq⟩ := Option.map_eq_some_iff.mp ha
    cases hq
    exact hempty

theorem announces (c : Call T) : Announces (program.code c) := by
  have hnil : Announces ([] : Code T) := announces_of_not_mem fun item => List.not_mem_nil
  have hpop : Announces (pop : Code T) := announces_of_not_mem fun item => by simp [pop]
  have hsize : Announces (size : Code T) := announces_of_not_mem fun item => by simp [size]
  cases c with
  | pop => exact hpop
  | pop_into => exact hpop
  | push item => exact hnil.push item
  | push_move item => exact hnil.push item
  | size => exact hsize

end MTQueue

end Pfp.Core
