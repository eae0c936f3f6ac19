import PFPSim.Runs.Cooperative

/-!
# Waiting processes

No process sleeps beside a state that it does not wait for. When a statement ends the
reason to wait for an event, the call notifies the event later (`Contract.Tells`); until
then the process that runs does not lose control. So a process that waits has its reason,
or will be told of the event before another process runs (`stays_of_waiting`). No process
ever waits for the mutex (`not_blocked`).
-/

namespace Runs.Cooperative

variable {P E S A L C : Type*}

/-- The process that runs still has to notify the event. -/
def Kernel.Notifies (k : Kernel P E S A L) (e : E) : Prop :=
  ∃ p, k.running = some p ∧ .notify e ∈ (k.processes p).code

/-- A statement behind which the event is not notified any more keeps the reason to wait
for it. -/
def Contract.Tells (K : Contract E S A) (prog : Program E S A L C) : Prop :=
  ∀ c a rest, .act a :: rest <:+ prog.code c → ∀ e, .notify e ∉ rest → ∀ s l s' l',
    K.before a s → prog.effect a s l = some (s', l') → K.stays e s → K.stays e s'

/-- What the processes still have to do, and what they wait for. -/
structure Attended (prog : Program E S A L C) (K : Contract E S A) (k : Kernel P E S A L) :
    Prop where
  code : ∀ p, (k.processes p).code = [] ∨ ∃ c, (k.processes p).code <:+ prog.code c
  unblocked : ∀ p, (k.processes p).status ≠ .blocked
  told : ∀ p e, (k.processes p).status = .waiting e → K.stays e k.shared ∨ k.Notifies e

variable [DecidableEq P] [DecidableEq E] {prog : Program E S A L C} {K : Contract E S A}

/-! ## One instruction -/

namespace Kernel

variable {k k' : Kernel P E S A L} {p : P} {i : Instr E S A} {rest : List (Instr E S A)}

/-- The process goes on behind the instruction. -/
structure Passes (prog : Program E S A L C) (p : P) (i : Instr E S A) (rest : List (Instr E S A))
    (k k' : Kernel P E S A L) : Prop where
  running : k'.running = k.running
  code : ∀ q, (k'.processes q).code = if q = p then rest else (k.processes q).code
  blocked : ∀ q, (k'.processes q).status = .blocked → (k.processes q).status = .blocked
  waiting : ∀ q e, (k'.processes q).status = .waiting e →
    (k.processes q).status = .waiting e ∧ i ≠ .notify e
  shared : k'.shared = k.shared ∨
    ∃ a l l', i = .act a ∧ prog.effect a k.shared l = some (k'.shared, l')

omit [DecidableEq E] in
theorem setCode_code (q : P) (code : List (Instr E S A)) :
    ((k.setCode p code).processes q).code = if q = p then code else (k.processes q).code := by
  by_cases hq : q = p
  · rw [hq, setCode_self, if_pos rfl]
  · rw [setCode_of_ne hq, if_neg hq]

omit [DecidableEq E] in
theorem passes_setCode (hi : ∀ e, i ≠ .notify e) : Passes prog p i rest k (k.setCode p rest) where
  running := rfl
  code q := setCode_code q rest
  blocked q hq := by
    rw [setCode_status] at hq
    exact hq
  waiting q e he := by
    rw [setCode_status] at he
    exact ⟨he, hi e⟩
  shared := .inl rfl

/-- An instruction stops the process that executes it, or is passed. -/
theorem execute_cases (h : k.execute prog p rest i = some k') :
    (∃ status, k' = { k.setStatus p status with running := none } ∧
      (status = .blocked → k.owner ≠ none ∧ k.owner ≠ some p)) ∨ Passes prog p i rest k k' := by
  cases i with
  | wait_while test e =>
    simp only [execute] at h
    split at h
    · cases h
      refine .inl ⟨.waiting e, rfl, ?_⟩
      intro hblocked
      cases hblocked
    · cases h
      exact .inr (passes_setCode fun e' h => by cases h)
  | lock =>
    have hset : Passes prog p .lock rest k (k.setCode p rest) :=
      passes_setCode fun e h => by cases h
    simp only [execute] at h
    split at h
    · cases h
      exact .inr ⟨hset.running, hset.code, hset.blocked, hset.waiting, hset.shared⟩
    · rename_i hheld
      cases h
      exact .inl ⟨.blocked, rfl, fun _ => not_or.mp hheld⟩
  | unlock =>
    have hset : Passes prog p .unlock rest k (k.setCode p rest) :=
      passes_setCode fun e h => by cases h
    simp only [execute] at h
    split at h
    · cases h
      refine .inr ⟨hset.running, hset.code, ?_, ?_, hset.shared⟩
      · intro q hq
        change Status.free ((k.setCode p rest).processes q).status = .blocked at hq
        generalize ((k.setCode p rest).processes q).status = status at hq
        cases status <;> cases hq
      · intro q e he
        exact hset.waiting q e (Status.free_eq_waiting.mp he)
    · cases h
      exact .inr hset
  | act a =>
    obtain ⟨r, hr, rfl⟩ := Option.map_eq_some_iff.mp h
    refine .inr ⟨rfl, ?_, ?_, ?_, .inr ⟨a, _, _, rfl, hr⟩⟩
    · intro q
      simp only [Function.update_apply]
      split <;> rfl
    · intro q hblocked
      exact (update_status q rest r.2).symm.trans hblocked
    · intro q e he
      exact ⟨(update_status q rest r.2).symm.trans he, fun h => by cases h⟩
  | notify e =>
    cases h
    refine .inr ⟨rfl, fun q => setCode_code q rest, ?_, ?_, .inl rfl⟩
    · intro q hq
      rw [← setCode_status (k := k) (p := p) q rest]
      change Status.wake e ((k.setCode p rest).processes q).status = .blocked at hq
      unfold Status.wake at hq
      split at hq
      · cases hq
      · exact hq
    · intro q e' he
      obtain ⟨he, hne⟩ := Status.wake_eq_waiting.mp he
      rw [setCode_status] at he
      refine ⟨he, ?_⟩
      intro h
      cases h
      exact hne rfl

end Kernel

/-! ## All schedules -/

namespace Attended

variable {k k' : Kernel P E S A L} {p : P}

theorem execute {i : Instr E S A} {rest : List (Instr E S A)} (hprog : K.Tells prog)
    (horderly : Orderly prog K k) (horderly' : Orderly prog K k') (h : Attended prog K k)
    (hp : k.running = some p) (hcode : (k.processes p).code = i :: rest)
    (hs : k.execute prog p rest i = some k') : Attended prog K k' := by
  rcases Kernel.execute_cases hs with ⟨status, rfl, hblocked⟩ | hpass
  · -- the process stops, and no process runs
    refine ⟨?_, ?_, fun q e he => .inl ((horderly'.quiet rfl).2 q e he)⟩
    · intro q
      rw [Kernel.setStatus_code]
      exact h.code q
    · intro q
      by_cases hq : q = p
      · simp only [hq, Kernel.setStatus_self]
        intro hstatus
        obtain ⟨hsome, hother⟩ := hblocked hstatus
        obtain ⟨r, hr⟩ := Option.ne_none_iff_exists'.mp hsome
        rw [← hp, horderly.owner r hr] at hother
        exact hother hr
      · simp only [Kernel.setStatus_of_ne hq]
        exact h.unblocked q
  · obtain ⟨c, hc⟩ : ∃ c, i :: rest <:+ prog.code c := by
      rcases h.code p with hnil | hsuffix
      · rw [hnil] at hcode
        cases hcode
      · rwa [hcode] at hsuffix
    refine ⟨?_, fun q hq => h.unblocked q (hpass.blocked q hq), ?_⟩
    · intro q
      rw [hpass.code]
      split
      · exact .inr ⟨c, (List.suffix_cons i rest).trans hc⟩
      · exact h.code q
    · intro q e he
      obtain ⟨hwaits, hi⟩ := hpass.waiting q e he
      -- what is notified behind the instruction
      have hnotifies : .notify e ∈ rest → k'.Notifies e := by
        intro hmem
        refine ⟨p, hpass.running.trans hp, ?_⟩
        rw [hpass.code, if_pos rfl]
        exact hmem
      rcases h.told q e hwaits with hstays | ⟨r, hr, hmem⟩
      · rcases hpass.shared with hshared | ⟨a, l, l', rfl, heffect⟩
        · rw [hshared]
          exact .inl hstays
        · by_cases hmem : .notify e ∈ rest
          · exact .inr (hnotifies hmem)
          · exact .inl (hprog c a rest hc e hmem _ l _ l' (horderly.before hp hcode).1 heffect
              hstays)
      · rw [hp] at hr
        cases hr
        rw [hcode] at hmem
        exact .inr (hnotifies ((List.mem_cons.mp hmem).resolve_left hi.symm))

theorem step {a : Activity P C} (hprog : K.Tells prog) (horderly : Orderly prog K k)
    (horderly' : Orderly prog K k') (h : Attended prog K k) (hs : k.step prog a = some k') :
    Attended prog K k' := by
  cases a with
  | dispatch p =>
    simp only [Kernel.step, Option.ite_none_right_eq_some, Option.some.injEq] at hs
    obtain ⟨⟨hnone, -⟩, rfl⟩ := hs
    exact ⟨h.code, h.unblocked, fun q e he => .inl ((horderly.quiet hnone).2 q e he)⟩
  | call c =>
    simp only [Kernel.step] at hs
    split at hs
    · cases hs
    · rename_i p hp
      split at hs
      · rename_i hcode
        cases hs
        obtain ⟨w, hw, hkept⟩ := horderly.active p hp
        rw [hcode] at hkept
        refine ⟨?_, ?_, ?_⟩
        · intro q
          rw [Kernel.setCode_code]
          split
          · exact .inr ⟨c, List.suffix_rfl⟩
          · exact h.code q
        · intro q
          rw [Kernel.setCode_status]
          exact h.unblocked q
        · intro q e he
          rw [Kernel.setCode_status] at he
          exact .inl (hkept.2.2 e (hw q e he))
      · cases hs
  | exec =>
    simp only [Kernel.step] at hs
    split at hs
    · cases hs
    · rename_i p hp
      split at hs
      · cases hs
      · rename_i i rest hcode
        exact h.execute hprog horderly horderly' hp hcode hs
  | leave =>
    simp only [Kernel.step] at hs
    split at hs
    · cases hs
    · split at hs
      · cases hs
        exact ⟨h.code, h.unblocked, fun q e he => .inl ((horderly'.quiet rfl).2 q e he)⟩
      · cases hs

end Attended

section Reachable

variable {s₀ : S} {l₀ : L} {k : Kernel P E S A L}

theorem attended_of_reachable (hprog : K.Honoured prog) (htells : K.Tells prog)
    (hs₀ : K.quiet s₀) (h : System.Reachable (cooperative P prog s₀ l₀) k) :
    Attended prog K k := by
  have hinit : Attended prog K (cooperative P prog s₀ l₀).init := by
    refine ⟨fun p => .inl rfl, ?_, ?_⟩
    · intro p hp
      cases hp
    · intro p e he
      cases he
  refine h.invariant hinit ?_
  intro k a k' hk hattended _ hs
  exact hattended.step htells (orderly_of_reachable hprog hs₀ hk)
    (orderly_of_reachable hprog hs₀ (.step hk trivial hs)) hs

/-- A process that waits for an event has its reason, unless the process that runs still has
to notify the event. -/
theorem stays_of_waiting (hprog : K.Honoured prog) (htells : K.Tells prog) (hs₀ : K.quiet s₀)
    (h : System.Reachable (cooperative P prog s₀ l₀) k) {p : P} {e : E}
    (hp : (k.processes p).status = .waiting e) : K.stays e k.shared ∨ k.Notifies e :=
  (attended_of_reachable hprog htells hs₀ h).told p e hp

/-- The mutex is free whenever a process locks it. -/
theorem not_blocked (hprog : K.Honoured prog) (htells : K.Tells prog) (hs₀ : K.quiet s₀)
    (h : System.Reachable (cooperative P prog s₀ l₀) k) (p : P) :
    (k.processes p).status ≠ .blocked :=
  (attended_of_reachable hprog htells hs₀ h).unblocked p

end Reachable

end Runs.Cooperative
