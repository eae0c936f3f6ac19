import PFPSim.Runs.Cooperative
import Mathlib.Data.List.Infix

/-!
# The bounded queue

`LMTQueue` under the processes of SystemC, any number of which push and pop. The emptiness and
the fullness of the queue are tested before the mutex is locked. No process can lose control
between the test and the end of the call, so a test that has been passed still holds when
the queue is changed (`honoured`).
-/

namespace Pfp.Core

open Runs Cooperative

/-- The queue, with the items that all pushes have put in and all pops have given out. -/
structure LMTQueue (T : Type) where
  queue_ : List T := []
  slots_ : UInt64 := 0
  pushed : List T := []
  popped : List T := []

namespace LMTQueue

/-- The events of the queue. -/
inductive Cond where
  | cond_not_empty_
  | cond_not_full_
  deriving DecidableEq

/-- The statements between the instructions of SystemC. -/
inductive Statement (T : Type) where
  /-- `queue_.push(item)` -/
  | push (item : T)
  /-- `slots_++` -/
  | increment
  /-- `item = queue_.front()` -/
  | front
  /-- `queue_.pop()` -/
  | pop
  /-- `slots_--` -/
  | decrement
  /-- The call returns with the item. -/
  | give

variable {T : Type} (N : UInt64)

def available (q : LMTQueue T) : UInt64 := N - q.slots_

def full (q : LMTQueue T) : Bool := q.slots_ = N

def empty (q : LMTQueue T) : Bool := q.queue_.isEmpty

/-- What a statement does; `front` and `pop` are undefined on an empty queue. -/
def effect : Statement T → LMTQueue T → Option T → Option (LMTQueue T × Option T)
  | .push item, q, l =>
    some ({ q with queue_ := q.queue_ ++ [item], pushed := q.pushed ++ [item] }, l)
  | .increment, q, l => some ({ q with slots_ := q.slots_ + 1 }, l)
  | .front, q, _ => q.queue_.head?.map fun item => (q, some item)
  | .pop, q, l =>
    match q.queue_ with
    | [] => none
    | _ :: queue_ => some ({ q with queue_ }, l)
  | .decrement, q, l => some ({ q with slots_ := q.slots_ - 1 }, l)
  | .give, q, l => l.map fun item => ({ q with popped := q.popped ++ [item] }, l)

abbrev Code (T : Type) := List (Instr Cond (LMTQueue T) (Statement T))

/-- `push(const T& item)` -/
def push (item : T) : Code T :=
  [.wait_while (full N) .cond_not_full_, .lock, .act (.push item), .act .increment, .unlock,
    .notify .cond_not_empty_]

/-- `push(T&& item)` -/
def push_move (item : T) : Code T := push N item

/-- `T pop()` -/
def pop : Code T :=
  [.wait_while empty .cond_not_empty_, .lock, .act .front, .act .pop, .act .decrement, .unlock,
    .notify .cond_not_full_, .act .give]

/-- `void pop(T& item)` -/
def pop_into : Code T := pop

inductive Call (T : Type) where
  | push (item : T)
  | push_move (item : T)
  | pop
  | pop_into

/-- The processes execute the calls of a queue of capacity `N`. -/
def program : Program Cond (LMTQueue T) (Statement T) (Option T) (Call T) where
  code
    | .push item => push N item
    | .push_move item => push_move N item
    | .pop => pop
    | .pop_into => pop_into
  effect := effect

/-! ## The contract -/

/-- While no process runs. -/
structure Quiet (q : LMTQueue T) : Prop where
  slots : q.slots_.toNat = q.queue_.length
  bounded : q.queue_.length ≤ N.toNat
  fifo : q.popped ++ q.queue_ = q.pushed

/-- Between any two instructions. -/
structure Always (held : Bool) (q : LMTQueue T) : Prop where
  length_le : q.queue_.length ≤ N.toNat
  slots_le : q.slots_.toNat ≤ N.toNat
  fifo : q.popped <+: q.pushed
  slots : held = false → q.slots_.toNat = q.queue_.length

/-- What a statement needs: an item to take out, or a slot that is free. -/
def Allowed (q : LMTQueue T) : Statement T → Prop
  | .push _ => q.queue_.length < N.toNat
  | .increment => q.slots_.toNat < N.toNat
  | .front => q.queue_ ≠ []
  | .pop => q.queue_ ≠ []
  | .decrement => 0 < q.slots_.toNat
  | .give => True

/-- Why a process waits. -/
def Waits (q : LMTQueue T) : Cond → Prop
  | .cond_not_empty_ => q.queue_ = []
  | .cond_not_full_ => q.queue_.length = N.toNat

theorem Quiet.always {N : UInt64} {q : LMTQueue T} (h : Quiet N q) : Always N false q where
  length_le := h.bounded
  slots_le := h.slots.trans_le h.bounded
  fifo := ⟨q.queue_, h.fifo⟩
  slots := fun _ => h.slots

theorem Quiet.locked {N : UInt64} {q : LMTQueue T} (h : Quiet N q) : Always N true q :=
  { h.always with slots := fun hheld => by cases hheld }

def contract : Contract Cond (LMTQueue T) (Statement T) where
  quiet := Quiet N
  always := Always N
  stays e q := Waits N q e
  before a q := Allowed N q a
  always_of_quiet _ h := h.always

variable {N} {q : LMTQueue T}

theorem toNat_increment {n m : UInt64} (h : n.toNat < m.toNat) : (n + 1).toNat = n.toNat + 1 := by
  have hm := m.toNat_lt
  rw [UInt64.toNat_add]
  exact Nat.mod_eq_of_lt (by rw [UInt64.toNat_one]; omega)

theorem toNat_decrement {n : UInt64} (h : 0 < n.toNat) : (n - 1).toNat = n.toNat - 1 :=
  UInt64.toNat_sub_of_le _ _ (UInt64.le_iff_toNat_le.mpr (by rw [UInt64.toNat_one]; omega))

/-- A push behind its test. -/
theorem push_kept (h : Quiet N q) (hfull : full N q = false) (item : T) (l : Option T) :
    Kept (program N) (contract N) [.lock, .act (.push item), .act .increment, .unlock,
      .notify .cond_not_empty_] false q l (Waits N q) := by
  have hslots : q.slots_.toNat < N.toNat := by
    have hne : q.slots_.toNat ≠ N.toNat := by
      intro heq
      rw [full, UInt64.toNat_inj.mp heq] at hfull
      simp at hfull
    exact Nat.lt_of_le_of_ne h.always.slots_le hne
  have hlength : q.queue_.length < N.toNat := h.slots ▸ hslots
  have hlog : q.popped <+: q.pushed ++ [item] := h.always.fifo.trans (List.prefix_append ..)
  -- the item is in the queue, and then counted
  have hpushed : Always N true
      { q with queue_ := q.queue_ ++ [item], pushed := q.pushed ++ [item] } := by
    refine ⟨?_, h.always.slots_le, hlog, fun hheld => by cases hheld⟩
    rw [List.length_append]
    exact hlength
  have hquiet : Quiet N { q with
      queue_ := q.queue_ ++ [item], pushed := q.pushed ++ [item], slots_ := q.slots_ + 1 } := by
    refine ⟨?_, hpushed.length_le, ?_⟩
    · rw [toNat_increment hslots, h.slots, List.length_append]
      rfl
    · rw [← h.fifo, List.append_assoc]
  refine ⟨h.always, h.locked, hlength, _, _, rfl, hpushed, hslots, _, _, rfl, hquiet.locked,
    hquiet.always, rfl, hquiet, ?_⟩
  intro e he
  -- the queue was not full, and those who wait for an item are told
  cases e with
  | cond_not_empty_ => exact absurd rfl he.2
  | cond_not_full_ => exact absurd he.1 (Nat.ne_of_lt hlength)

/-- A pop behind its test. -/
theorem pop_kept (h : Quiet N q) (hempty : empty q = false) (l : Option T) :
    Kept (program N) (contract N) [.lock, .act .front, .act .pop, .act .decrement, .unlock,
      .notify .cond_not_full_, .act .give] false q l (Waits N q) := by
  obtain ⟨queue_, slots_, pushed, popped⟩ := q
  cases queue_ with
  | nil => cases hempty
  | cons item queue_ =>
    have hslots : slots_.toNat = queue_.length + 1 := h.slots
    have hfifo : popped ++ item :: queue_ = pushed := h.fifo
    have hlength : queue_.length ≤ N.toNat := (Nat.le_succ _).trans h.bounded
    have hlog : popped ++ [item] <+: pushed := ⟨queue_, by rw [← hfifo, List.append_assoc]; rfl⟩
    -- the item is taken out, and then no longer counted
    have htaken : Always N true ⟨queue_, slots_, pushed, popped⟩ :=
      ⟨hlength, h.always.slots_le, h.always.fifo, fun hheld => by cases hheld⟩
    have hcount : (slots_ - 1).toNat = queue_.length := by
      rw [toNat_decrement (by omega), hslots, Nat.add_sub_cancel]
    have hcounted : ∀ held, Always N held ⟨queue_, slots_ - 1, pushed, popped⟩ := fun held =>
      ⟨hlength, hcount.trans_le hlength, h.always.fifo, fun _ => hcount⟩
    have hquiet : Quiet N ⟨queue_, slots_ - 1, pushed, popped ++ [item]⟩ :=
      ⟨hcount, hlength, by rw [← hfifo, List.append_assoc]; rfl⟩
    refine ⟨h.always, h.locked, List.cons_ne_nil _ _, _, _, rfl, h.locked, List.cons_ne_nil _ _,
      _, _, rfl, htaken, ?_, _, _, rfl, hcounted true, hcounted false, hcounted false, trivial,
      _, _, rfl, rfl, hquiet, ?_⟩
    · exact (Nat.succ_pos _).trans_eq hslots.symm
    · intro e he
      cases e with
      | cond_not_empty_ => exact absurd he.1 (List.cons_ne_nil _ _)
      | cond_not_full_ => exact absurd rfl he.2

theorem push_honoured (h : Quiet N q) (item : T) (l : Option T) :
    Kept (program N) (contract N) (push N item) false q l (Waits N q) := by
  refine ⟨⟨rfl, h, fun e he => he⟩, fun q' h' => ⟨?_, ?_⟩⟩
  · intro hfull
    have hslots : q'.slots_ = N := of_decide_eq_true hfull
    exact h'.slots.symm.trans (congrArg UInt64.toNat hslots)
  · intro hfull
    exact push_kept h' hfull item l

theorem pop_honoured (h : Quiet N q) (l : Option T) :
    Kept (program N) (contract N) pop false q l (Waits N q) := by
  refine ⟨⟨rfl, h, fun e he => he⟩, fun q' h' => ⟨?_, ?_⟩⟩
  · intro hempty
    exact List.isEmpty_iff.mp hempty
  · intro hempty
    exact pop_kept h' hempty l

theorem honoured : (contract N).Honoured (program (T := T) N) := by
  intro c q l h
  cases c with
  | push item => exact push_honoured h item l
  | push_move item => exact push_honoured h item l
  | pop => exact pop_honoured h l
  | pop_into => exact pop_honoured h l

/-! ## All schedules -/

variable {P : Type} [DecidableEq P] {k : Kernel P Cond (LMTQueue T) (Statement T) (Option T)}

/-- **The bounded queue.** In every state that any processes reach under any schedule, the
queue holds at most `N` items, no statement takes an item out of an empty queue or counts
wrongly, and the items that have been popped are the first that have been pushed. While the
mutex is free, the items are counted, and while no process runs, the others are in the
queue. -/
theorem bounded_fifo
    (h : System.Reachable (cooperative P (program N) ({} : LMTQueue T) none) k) :
    (k.shared.queue_.length ≤ N.toNat ∧ k.shared.slots_.toNat ≤ N.toNat) ∧
    (k.owner = none → k.shared.slots_.toNat = k.shared.queue_.length ∧
      (k.shared.available N).toNat = N.toNat - k.shared.queue_.length) ∧
    (∀ p a rest, k.running = some p → (k.processes p).code = .act a :: rest →
      Allowed N k.shared a ∧ (effect a k.shared (k.processes p).locals).isSome) ∧
    k.shared.popped <+: k.shared.pushed ∧
    (k.running = none → k.shared.popped ++ k.shared.queue_ = k.shared.pushed) := by
  have hinit : Quiet N ({} : LMTQueue T) := ⟨rfl, Nat.zero_le _, rfl⟩
  have horderly := orderly_of_reachable honoured hinit h
  have halways : Always N k.owner.isSome k.shared := horderly.always
  refine ⟨⟨halways.length_le, halways.slots_le⟩, ?_,
    fun p a rest hp hcode => horderly.before hp hcode, halways.fifo,
    fun hrun => (horderly.quiet hrun).1.fifo⟩
  intro howner
  have hslots := halways.slots (by rw [howner]; rfl)
  refine ⟨hslots, ?_⟩
  rw [available, UInt64.toNat_sub_of_le _ _ (UInt64.le_iff_toNat_le.mpr halways.slots_le), hslots]

/-- A consumer waits, a producer pushes an item, and the consumer goes on. -/
def handover : List (Activity Bool (Call Nat)) :=
  [.dispatch false, .call .pop, .exec, .dispatch true, .call (.push 7), .exec, .exec, .exec, .exec,
    .exec, .exec, .leave, .dispatch false, .exec, .exec, .exec, .exec, .exec, .exec, .exec, .exec,
    .leave]

theorem bounded_fifo_handover :
    ∃ k, (cooperative Bool (program 1) ({} : LMTQueue Nat) none).replay
        (cooperative Bool (program 1) ({} : LMTQueue Nat) none).init handover = some k ∧
      k.shared.popped = [7] ∧ k.shared.popped ++ k.shared.queue_ = k.shared.pushed := by
  have hrun : ((cooperative Bool (program 1) ({} : LMTQueue Nat) none).replay
      (cooperative Bool (program 1) ({} : LMTQueue Nat) none).init handover).map (fun k =>
        (k.running, k.shared.popped)) = some (none, [7]) := by
    decide +kernel
  obtain ⟨k, hreplay, hk⟩ := Option.map_eq_some_iff.mp hrun
  obtain ⟨hnone, hpopped⟩ := Prod.mk.inj hk
  have hfifo := bounded_fifo (System.reachable_of_replay hreplay)
  exact ⟨k, hreplay, hpopped, hfifo.2.2.2.2 hnone⟩

end LMTQueue

end Pfp.Core
