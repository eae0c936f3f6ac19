import PFPSim.Runs.System
import Mathlib.Logic.Function.Basic

/-!
# Cooperative processes

Any number of processes that share a state, one mutex and events. One process runs at a
time, and goes on until it waits for an event, or for the mutex when another process holds
it. A notification makes all processes runnable that wait for the event, and is lost on the
others.

A `Contract` says what holds while no process runs, and what a process may assume of it
(`Kept`). When the code of every call keeps the contract, it holds in every reachable state
(`orderly_of_reachable`).
-/

namespace Runs.Cooperative

open Function

/-- What a process executes: plain statements are of a type `A`. -/
inductive Instr (E S A : Type*)
  /-- `while (test) wait(e)` -/
  | wait_while (test : S → Bool) (e : E)
  | lock
  | unlock
  | act (a : A)
  | notify (e : E)

inductive Status (E : Type*)
  | runnable
  | waiting (e : E)
  /-- In `lock`, while another process holds the mutex. -/
  | blocked
  deriving DecidableEq

/-- A process with the rest of its call, and its variables. -/
structure Process (E S A L : Type*) where
  code : List (Instr E S A) := []
  locals : L
  status : Status E := .runnable

structure Kernel (P E S A L : Type*) where
  processes : P → Process E S A L
  running : Option P := none
  /-- The process that holds the mutex. -/
  owner : Option P := none
  shared : S

inductive Activity (P C : Type*)
  /-- A runnable process goes on. -/
  | dispatch (p : P)
  /-- The running process begins a call. -/
  | call (c : C)
  /-- The running process executes one instruction. -/
  | exec
  /-- The running process waits for something else, outside a call. -/
  | leave

/-- The programs of the calls, and what the statements do. -/
structure Program (E S A L C : Type*) where
  code : C → List (Instr E S A)
  /-- `none` where the statement is undefined. -/
  effect : A → S → L → Option (S × L)

/-- A process that waits for the event becomes runnable. -/
def Status.wake {E : Type*} [DecidableEq E] (e : E) (s : Status E) : Status E :=
  if s = .waiting e then .runnable else s

/-- A process that waits for the mutex becomes runnable. -/
def Status.free {E : Type*} : Status E → Status E
  | .blocked => .runnable
  | s => s

theorem Status.free_eq_waiting {E : Type*} {s : Status E} {e : E} :
    s.free = .waiting e ↔ s = .waiting e := by
  cases s <;> simp [free]

theorem Status.wake_eq_waiting {E : Type*} [DecidableEq E] {s : Status E} {e e' : E} :
    s.wake e = .waiting e' ↔ s = .waiting e' ∧ e' ≠ e := by
  unfold wake
  split
  · rename_i hs
    rw [hs]
    simp [eq_comm]
  · rename_i hs
    refine ⟨fun h => ⟨h, ?_⟩, fun h => h.1⟩
    rintro rfl
    exact hs h

variable {P E S A L C : Type*} [DecidableEq P] [DecidableEq E]

namespace Kernel

variable (k : Kernel P E S A L)

def setStatus (p : P) (status : Status E) : Kernel P E S A L :=
  { k with processes := update k.processes p { k.processes p with status } }

def setCode (p : P) (code : List (Instr E S A)) : Kernel P E S A L :=
  { k with processes := update k.processes p { k.processes p with code } }

def mapStatus (f : Status E → Status E) : Kernel P E S A L :=
  { k with processes := fun p => { k.processes p with status := f (k.processes p).status } }

section Processes

variable {k} {p q : P}

omit [DecidableEq E]

theorem setStatus_self (status : Status E) :
    (k.setStatus p status).processes p = { k.processes p with status } := update_self ..

theorem setStatus_of_ne (hq : q ≠ p) (status : Status E) :
    (k.setStatus p status).processes q = k.processes q := update_of_ne hq ..

theorem setStatus_code (q : P) (status : Status E) :
    ((k.setStatus p status).processes q).code = (k.processes q).code := by
  by_cases hq : q = p
  · rw [hq, setStatus_self]
  · rw [setStatus_of_ne hq]

theorem setCode_self (code : List (Instr E S A)) :
    (k.setCode p code).processes p = { k.processes p with code } := update_self ..

theorem setCode_of_ne (hq : q ≠ p) (code : List (Instr E S A)) :
    (k.setCode p code).processes q = k.processes q := update_of_ne hq ..

theorem setCode_status (q : P) (code : List (Instr E S A)) :
    ((k.setCode p code).processes q).status = (k.processes q).status := by
  by_cases hq : q = p
  · rw [hq, setCode_self]
  · rw [setCode_of_ne hq]

theorem setCode_own (code : List (Instr E S A)) :
    ((k.setCode p code).processes p).code = code ∧
      ((k.setCode p code).processes p).locals = (k.processes p).locals := by
  rw [setCode_self]
  exact ⟨rfl, rfl⟩

theorem setCode_others (code : List (Instr E S A)) : ∀ q, q ≠ p →
    ((k.setCode p code).processes q).code = (k.processes q).code ∧
      ((k.setCode p code).processes q).locals = (k.processes q).locals := by
  intro q hq
  rw [setCode_of_ne hq]
  exact ⟨rfl, rfl⟩

/-- A statement changes the code and the variables of its process. -/
theorem update_status (q : P) (code : List (Instr E S A)) (locals : L) :
    (update k.processes p { k.processes p with code, locals } q).status =
      (k.processes q).status := by
  by_cases hq : q = p
  · rw [hq, update_self]
  · rw [update_of_ne hq]

end Processes

/-- One instruction of the process `p`, with `rest` behind it. -/
def execute (prog : Program E S A L C) (p : P) (rest : List (Instr E S A)) :
    Instr E S A → Option (Kernel P E S A L)
  | .wait_while test e =>
    if test k.shared then some { k.setStatus p (.waiting e) with running := none }
    else some (k.setCode p rest)
  | .lock =>
    if k.owner = none ∨ k.owner = some p then some { k.setCode p rest with owner := some p }
    else some { k.setStatus p .blocked with running := none }
  | .unlock =>
    if k.owner = some p then some { (k.setCode p rest).mapStatus Status.free with owner := none }
    else some (k.setCode p rest)
  | .act a =>
    (prog.effect a k.shared (k.processes p).locals).map fun r =>
      { k with
        shared := r.1
        processes := update k.processes p { k.processes p with code := rest, locals := r.2 } }
  | .notify e => some ((k.setCode p rest).mapStatus (Status.wake e))

def step (prog : Program E S A L C) : Activity P C → Option (Kernel P E S A L)
  | .dispatch p =>
    if k.running = none ∧ (k.processes p).status = .runnable then some { k with running := some p }
    else none
  | .call c =>
    match k.running with
    | none => none
    | some p =>
      match (k.processes p).code with
      | [] => some (k.setCode p (prog.code c))
      | _ :: _ => none
  | .exec =>
    match k.running with
    | none => none
    | some p =>
      match (k.processes p).code with
      | [] => none
      | i :: rest => k.execute prog p rest i
  | .leave =>
    match k.running with
    | none => none
    | some p =>
      match (k.processes p).code with
      | [] => some { k with running := none }
      | _ :: _ => none

end Kernel

/-- Processes outside of calls, and none that runs. -/
def cooperative (P : Type*) [DecidableEq P] (prog : Program E S A L C) (s₀ : S) (l₀ : L) :
    System (Kernel P E S A L) (Activity P C) where
  init := { processes := fun _ => { locals := l₀ }, shared := s₀ }
  step k := k.step prog

/-! ## Contracts -/

/-- What the processes keep to. -/
structure Contract (E S A : Type*) where
  /-- Holds while no process runs. -/
  quiet : S → Prop
  /-- Holds between any two instructions; the flag says whether the mutex is held. -/
  always : Bool → S → Prop
  /-- Holds while no process runs and one waits for the event. -/
  stays : E → S → Prop
  /-- Holds before a statement. -/
  before : A → S → Prop
  always_of_quiet : ∀ s, quiet s → always false s

section Contracts

variable {prog : Program E S A L C} {K : Contract E S A}

/-- The rest of a call keeps the contract from the state `s`. Only for events in `w` there
may be processes that wait. Behind a wait the state is any in which no process ran. -/
def Kept (prog : Program E S A L C) (K : Contract E S A) :
    List (Instr E S A) → Bool → S → L → (E → Prop) → Prop
  | [], held, s, _, w => held = false ∧ K.quiet s ∧ ∀ e, w e → K.stays e s
  | .wait_while test e :: rest, held, s, l, w =>
    (held = false ∧ K.quiet s ∧ ∀ e, w e → K.stays e s) ∧
      ∀ s', K.quiet s' → (test s' = true → K.stays e s') ∧
        (test s' = false → Kept prog K rest false s' l fun e => K.stays e s')
  | .lock :: rest, held, s, l, w => K.always held s ∧ Kept prog K rest true s l w
  | .unlock :: rest, held, s, l, w => K.always held s ∧ Kept prog K rest false s l w
  | .act a :: rest, held, s, l, w => K.always held s ∧ K.before a s ∧
      ∃ s' l', prog.effect a s l = some (s', l') ∧ Kept prog K rest held s' l' w
  | .notify e :: rest, held, s, l, w => K.always held s ∧
      Kept prog K rest held s l fun e' => w e' ∧ e' ≠ e

/-- Every call keeps the contract, from any state in which no process runs. -/
def Contract.Honoured (K : Contract E S A) (prog : Program E S A L C) : Prop :=
  ∀ c s l, K.quiet s → Kept prog K (prog.code c) false s l fun e => K.stays e s

omit [DecidableEq E] in
theorem Kept.mono {code : List (Instr E S A)} {held : Bool} {s : S} {l : L} {w w' : E → Prop}
    (h : Kept prog K code held s l w) (hw : ∀ e, w' e → w e) : Kept prog K code held s l w' := by
  induction code generalizing held s l w w' with
  | nil => exact ⟨h.1, h.2.1, fun e he => h.2.2 e (hw e he)⟩
  | cons i rest ih =>
    cases i with
    | wait_while test e => exact ⟨⟨h.1.1, h.1.2.1, fun e he => h.1.2.2 e (hw e he)⟩, h.2⟩
    | lock => exact ⟨h.1, ih h.2 hw⟩
    | unlock => exact ⟨h.1, ih h.2 hw⟩
    | act a =>
      obtain ⟨halways, hbefore, s', l', heffect, h⟩ := h
      exact ⟨halways, hbefore, s', l', heffect, ih h hw⟩
    | notify e => exact ⟨h.1, ih h.2 fun e' he => ⟨hw e' he.1, he.2⟩⟩

omit [DecidableEq E] in
theorem Kept.always {code : List (Instr E S A)} {held : Bool} {s : S} {l : L} {w : E → Prop}
    (h : Kept prog K code held s l w) : K.always held s := by
  have hquiet : held = false ∧ K.quiet s → K.always held s := by
    rintro ⟨rfl, hquiet⟩
    exact K.always_of_quiet s hquiet
  cases code with
  | nil => exact hquiet ⟨h.1, h.2.1⟩
  | cons i rest =>
    cases i with
    | wait_while test e => exact hquiet ⟨h.1.1, h.1.2.1⟩
    | lock => exact h.1
    | unlock => exact h.1
    | act a => exact h.1
    | notify e => exact h.1

/-! ### The invariant -/

/-- A process that does not run keeps the contract when it goes on, and the one that runs
keeps it from now on. -/
structure Orderly (prog : Program E S A L C) (K : Contract E S A) (k : Kernel P E S A L) :
    Prop where
  owner : ∀ p, k.owner = some p → k.running = some p
  suspended : ∀ p, k.running ≠ some p → ∀ s, K.quiet s →
    Kept prog K (k.processes p).code false s (k.processes p).locals fun e => K.stays e s
  quiet : k.running = none → K.quiet k.shared ∧
    ∀ p e, (k.processes p).status = .waiting e → K.stays e k.shared
  active : ∀ p, k.running = some p → ∃ w : E → Prop,
    (∀ q e, (k.processes q).status = .waiting e → w e) ∧
      Kept prog K (k.processes p).code k.owner.isSome k.shared (k.processes p).locals w

namespace Orderly

variable {k k' : Kernel P E S A L} {p : P}

omit [DecidableEq P] [DecidableEq E] in
/-- Only the process that runs holds the mutex. -/
theorem owner_eq (h : Orderly prog K k) (hp : k.running = some p) :
    ∀ q, k.owner = some q → q = p := by
  intro q hq
  have hrun := h.owner q hq
  rw [hp] at hrun
  exact (Option.some.inj hrun).symm

omit [DecidableEq P] [DecidableEq E] in
/-- The process that runs goes on. -/
theorem proceed (h : Orderly prog K k) (hp : k.running = some p) (hp' : k'.running = some p)
    (howner : ∀ q, k'.owner = some q → q = p)
    (hothers : ∀ q, q ≠ p → (k'.processes q).code = (k.processes q).code ∧
      (k'.processes q).locals = (k.processes q).locals)
    {code : List (Instr E S A)} {l : L}
    (hself : (k'.processes p).code = code ∧ (k'.processes p).locals = l)
    (w : E → Prop) (hw : ∀ q e, (k'.processes q).status = .waiting e → w e)
    (hkept : Kept prog K code k'.owner.isSome k'.shared l w) : Orderly prog K k' := by
  refine ⟨?_, ?_, ?_, ?_⟩
  · intro q hq
    rw [howner q hq, hp']
  · intro q hq s hs
    have hne : q ≠ p := by
      rintro rfl
      exact hq hp'
    rw [(hothers q hne).1, (hothers q hne).2]
    refine h.suspended q (fun hq => hne ?_) s hs
    rw [hp] at hq
    exact (Option.some.inj hq).symm
  · intro hnone
    rw [hp'] at hnone
    cases hnone
  · intro q hq
    rw [hp'] at hq
    cases hq
    rw [hself.1, hself.2]
    exact ⟨w, hw, hkept⟩

omit [DecidableEq P] [DecidableEq E] in
/-- The process that runs stops. -/
theorem suspend (h : Orderly prog K k) (hp : k.running = some p) (hnone : k'.running = none)
    (howner : k'.owner = none)
    (hothers : ∀ q, q ≠ p → (k'.processes q).code = (k.processes q).code ∧
      (k'.processes q).locals = (k.processes q).locals)
    (hquiet : K.quiet k'.shared)
    (hstays : ∀ q e, (k'.processes q).status = .waiting e → K.stays e k'.shared)
    (hkept : ∀ s, K.quiet s → Kept prog K (k'.processes p).code false s
      (k'.processes p).locals fun e => K.stays e s) : Orderly prog K k' := by
  refine ⟨?_, ?_, fun _ => ⟨hquiet, hstays⟩, ?_⟩
  · intro q hq
    rw [howner] at hq
    cases hq
  · intro q _ s hs
    by_cases hq : q = p
    · rw [hq]
      exact hkept s hs
    · rw [(hothers q hq).1, (hothers q hq).2]
      refine h.suspended q (fun hrun => hq ?_) s hs
      rw [hp] at hrun
      exact (Option.some.inj hrun).symm
  · intro q hq
    rw [hnone] at hq
    cases hq

theorem execute {i : Instr E S A} {rest : List (Instr E S A)} (h : Orderly prog K k)
    (hp : k.running = some p) (hcode : (k.processes p).code = i :: rest)
    (hs : k.execute prog p rest i = some k') : Orderly prog K k' := by
  obtain ⟨w, hw, hkept⟩ := h.active p hp
  rw [hcode] at hkept
  have hothers := Kernel.setCode_others (k := k) (p := p) rest
  have hself := Kernel.setCode_own (k := k) (p := p) rest
  have howner := h.owner_eq hp
  have hwaits : ∀ q e, ((k.setCode p rest).processes q).status = .waiting e → w e := by
    intro q e he
    rw [Kernel.setCode_status] at he
    exact hw q e he
  cases i with
  | wait_while test e =>
    obtain ⟨⟨hfree, hquiet, hstays⟩, hrest⟩ := hkept
    simp only [Kernel.execute] at hs
    split at hs
    · rename_i htest
      cases hs
      refine h.suspend hp rfl (Option.isNone_iff_eq_none.mp (Option.isSome_eq_false_iff.mp hfree))
        ?_ hquiet ?_ ?_
      · intro q hq
        rw [Kernel.setStatus_of_ne hq]
        exact ⟨rfl, rfl⟩
      · intro q e' he'
        by_cases hq : q = p
        · rw [hq, Kernel.setStatus_self] at he'
          cases he'
          exact (hrest _ hquiet).1 htest
        · rw [Kernel.setStatus_of_ne hq] at he'
          exact hstays e' (hw q e' he')
      · intro s hs
        rw [Kernel.setStatus_self]
        simp only [hcode]
        exact ⟨⟨rfl, hs, fun e he => he⟩, hrest⟩
    · rename_i htest
      cases hs
      refine h.proceed hp hp howner hothers hself w hwaits ?_
      rw [show (k.setCode p rest).owner.isSome = false from hfree]
      exact ((hrest _ hquiet).2 (by simpa using htest)).mono hstays
  | lock =>
    simp only [Kernel.execute] at hs
    split at hs
    · cases hs
      exact h.proceed hp hp (fun q hq => (Option.some.inj hq).symm) hothers hself w hwaits hkept.2
    · rename_i hheld
      cases howned : k.owner with
      | none => exact absurd (.inl howned) hheld
      | some q => exact absurd (.inr (howned.trans (congrArg some (howner q howned)))) hheld
  | unlock =>
    simp only [Kernel.execute] at hs
    split at hs
    · cases hs
      exact h.proceed hp hp (fun q hq => by cases hq) hothers hself w
        (fun q e he => hwaits q e (Status.free_eq_waiting.mp he)) hkept.2
    · rename_i hheld
      cases hs
      have hfree : k.owner.isSome = false := by
        cases howned : k.owner with
        | none => rfl
        | some q => exact absurd (howned.trans (congrArg some (howner q howned))) hheld
      refine h.proceed hp hp howner hothers hself w hwaits ?_
      rw [show (k.setCode p rest).owner.isSome = false from hfree]
      exact hkept.2
  | act a =>
    obtain ⟨-, -, s', l', heffect, hkept⟩ := hkept
    simp only [Kernel.execute, heffect, Option.map_some, Option.some.injEq] at hs
    subst hs
    refine h.proceed hp hp howner ?_ ?_ w ?_ hkept
    · intro q hq
      simp only [update_of_ne hq, and_self]
    · simp only [update_self, and_self]
    · intro q e he
      exact hw q e ((Kernel.update_status q rest l').symm.trans he)
  | notify e =>
    simp only [Kernel.execute, Option.some.injEq] at hs
    subst hs
    refine h.proceed hp hp howner hothers hself (fun e' => w e' ∧ e' ≠ e) ?_ hkept.2
    intro q e' he
    obtain ⟨he, hne⟩ := Status.wake_eq_waiting.mp he
    exact ⟨hwaits q e' he, hne⟩

omit [DecidableEq P] [DecidableEq E] in
/-- While no process runs, the mutex is free. -/
theorem free (h : Orderly prog K k) (hrun : k.running = none) : k.owner = none := by
  cases howned : k.owner with
  | none => rfl
  | some q =>
    rw [h.owner q howned] at hrun
    cases hrun

theorem step {a : Activity P C} (hprog : K.Honoured prog) (h : Orderly prog K k)
    (hs : k.step prog a = some k') : Orderly prog K k' := by
  cases a with
  | dispatch p =>
    simp only [Kernel.step, Option.ite_none_right_eq_some, Option.some.injEq] at hs
    obtain ⟨⟨hnone, -⟩, rfl⟩ := hs
    obtain ⟨hquiet, hstays⟩ := h.quiet hnone
    have hfree := h.free hnone
    refine ⟨?_, ?_, fun hrun => (by cases hrun), ?_⟩
    · intro q hq
      rw [show k.owner = some q from hq] at hfree
      cases hfree
    · intro q _ s hs
      exact h.suspended q (by rw [hnone]; exact fun hq => by cases hq) s hs
    · intro q hq
      cases hq
      have hkept := h.suspended p (by rw [hnone]; exact fun hq => by cases hq) _ hquiet
      refine ⟨_, hstays, ?_⟩
      rw [show k.owner.isSome = false by rw [hfree]; rfl]
      exact hkept
  | call c =>
    simp only [Kernel.step] at hs
    split at hs
    · cases hs
    · rename_i p hp
      split at hs
      · rename_i hcode
        cases hs
        obtain ⟨w, hw, hkept⟩ := h.active p hp
        rw [hcode] at hkept
        obtain ⟨hfree, hquiet, hstays⟩ := hkept
        refine h.proceed hp hp (h.owner_eq hp) (Kernel.setCode_others (prog.code c))
          (Kernel.setCode_own (prog.code c)) w ?_ ?_
        · intro q e he
          rw [Kernel.setCode_status] at he
          exact hw q e he
        · rw [show (k.setCode p (prog.code c)).owner.isSome = false from hfree]
          exact (hprog c _ _ hquiet).mono hstays
      · cases hs
  | exec =>
    simp only [Kernel.step] at hs
    split at hs
    · cases hs
    · rename_i p hp
      split at hs
      · cases hs
      · rename_i i rest hcode
        exact h.execute hp hcode hs
  | leave =>
    simp only [Kernel.step] at hs
    split at hs
    · cases hs
    · rename_i p hp
      split at hs
      · rename_i hcode
        cases hs
        obtain ⟨w, hw, hkept⟩ := h.active p hp
        rw [hcode] at hkept
        obtain ⟨hfree, hquiet, hstays⟩ := hkept
        refine h.suspend hp rfl (Option.isNone_iff_eq_none.mp (Option.isSome_eq_false_iff.mp hfree))
          (fun q _ => ⟨rfl, rfl⟩) hquiet (fun q e he => hstays e (hw q e he)) fun s hs => ?_
        simp only [hcode]
        exact ⟨rfl, hs, fun e he => he⟩
      · cases hs

omit [DecidableEq P] [DecidableEq E] in
/-- Between any two instructions. -/
theorem always (h : Orderly prog K k) : K.always k.owner.isSome k.shared := by
  cases hrun : k.running with
  | none =>
    rw [h.free hrun]
    exact K.always_of_quiet _ (h.quiet hrun).1
  | some p =>
    obtain ⟨w, -, hkept⟩ := h.active p hrun
    exact hkept.always

omit [DecidableEq P] [DecidableEq E] in
/-- A statement that is executed next is defined. -/
theorem before {a : A} {rest : List (Instr E S A)} (h : Orderly prog K k)
    (hp : k.running = some p) (hcode : (k.processes p).code = .act a :: rest) :
    K.before a k.shared ∧ (prog.effect a k.shared (k.processes p).locals).isSome := by
  obtain ⟨w, -, hkept⟩ := h.active p hp
  rw [hcode] at hkept
  obtain ⟨-, hbefore, s', l', heffect, -⟩ := hkept
  exact ⟨hbefore, by rw [heffect]; rfl⟩

end Orderly

/-- When every call keeps the contract, it holds in all reachable states. -/
theorem orderly_of_reachable {s₀ : S} {l₀ : L} {k : Kernel P E S A L} (hprog : K.Honoured prog)
    (hs₀ : K.quiet s₀) (h : System.Reachable (cooperative P prog s₀ l₀) k) :
    Orderly prog K k := by
  have hinit : Orderly prog K (cooperative P prog s₀ l₀).init :=
    { owner := fun p hp => by cases hp
      suspended := fun p _ s hs => ⟨rfl, hs, fun e he => he⟩
      quiet := fun _ => ⟨hs₀, fun p e he => by cases he⟩
      active := fun p hp => by cases hp }
  exact h.invariant hinit fun k a k' _ h _ hs => h.step hprog hs

end Contracts

end Runs.Cooperative
