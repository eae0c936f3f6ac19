import PFPSim.Lr.Lalr
import Mathlib.Logic.Relation

/-!
# The table-driven parser

The stack holds a state and a semantic value for each shifted or reduced symbol; the
bottom state `0` is not stored. `step` performs the table entry of the top state and the
next token, where an exhausted input stands for the end-of-input token. A reduction runs
the action of its production, which may raise an exception.

`run` takes steps while it has fuel, and `Runs` says that some amount of fuel ends the
run. Runs are deterministic (`Runs.unique`).
-/

namespace Lr

structure Config (K V : Type) where
  stack : List (Nat × V)
  input : List K

inductive Outcome (V E : Type) where
  | accepted (v : V)
  | rejected
  | raised (e : E)
  deriving DecidableEq

def top {V : Type} : List (Nat × V) → Nat
  | [] => 0
  | (q, _) :: _ => q

@[simp] theorem top_cons {V : Type} (q : Nat) (v : V) (stack : List (Nat × V)) :
    top ((q, v) :: stack) = q := rfl

variable {T N K V E : Type} [DecidableEq T] [DecidableEq N]

def reduce (G : AttrGrammar T N K V E) (A : Automaton T N) (c : Config K V) (i : Nat)
    (p : Production T N) : Config K V ⊕ Outcome V E :=
  let below := c.stack.drop p.rhs.length
  match G.action i ((c.stack.take p.rhs.length).reverse.map Prod.snd) with
  | .error e => .inr (.raised e)
  | .ok v =>
    match A.next (top below) (.nonterminal p.lhs) with
    | some q => .inl ⟨(q, v) :: below, c.input⟩
    | none => .inr .rejected

def step (G : AttrGrammar T N K V E) (A : Automaton T N) (c : Config K V) :
    Config K V ⊕ Outcome V E :=
  match A.action G.toGrammar (top c.stack) (G.first c.input G.eof) with
  | none => .inr .rejected
  | some .accept =>
    match c.stack with
    | (_, v) :: _ => .inr (.accepted v)
    | [] => .inr .rejected
  | some (.shift q) =>
    match c.input with
    | k :: rest => .inl ⟨(q, G.value k) :: c.stack, rest⟩
    | [] => .inr .rejected
  | some (.reduce i) =>
    match G.productions[i]? with
    | some p => reduce G A c i p
    | none => .inr .rejected

def run (G : AttrGrammar T N K V E) (A : Automaton T N) :
    Nat → Config K V → Option (Outcome V E)
  | 0, _ => none
  | fuel + 1, c =>
    match step G A c with
    | .inl c' => run G A fuel c'
    | .inr o => some o

/-- The run from `c` ends with `o`. -/
def Runs (G : AttrGrammar T N K V E) (A : Automaton T N) (c : Config K V)
    (o : Outcome V E) : Prop :=
  ∃ fuel, run G A fuel c = some o

def Steps (G : AttrGrammar T N K V E) (A : Automaton T N) : Config K V → Config K V → Prop :=
  Relation.ReflTransGen fun c c' => step G A c = .inl c'

variable {G : AttrGrammar T N K V E} {A : Automaton T N} {c c' : Config K V}
  {o o' : Outcome V E}

theorem run_step (h : step G A c = .inl c') (fuel : Nat) :
    run G A (fuel + 1) c = run G A fuel c' := by
  simp only [run, h]

theorem run_stop (h : step G A c = .inr o) (fuel : Nat) : run G A (fuel + 1) c = some o := by
  simp only [run, h]

theorem run_mono {m n : Nat} (hmn : m ≤ n) (h : run G A m c = some o) :
    run G A n c = some o := by
  induction m generalizing n c with
  | zero => simp [run] at h
  | succ m ih =>
    obtain ⟨n, rfl⟩ : ∃ k, n = k + 1 := ⟨n - 1, by omega⟩
    cases hs : step G A c with
    | inl c' =>
      rw [run_step hs] at h ⊢
      exact ih (by omega) h
    | inr o' =>
      rw [run_stop hs] at h ⊢
      exact h

theorem Runs.unique (h : Runs G A c o) (h' : Runs G A c o') : o = o' := by
  obtain ⟨m, hm⟩ := h
  obtain ⟨n, hn⟩ := h'
  have h₁ := run_mono (Nat.le_max_left m n) hm
  have h₂ := run_mono (Nat.le_max_right m n) hn
  exact Option.some.inj (h₁.symm.trans h₂)

theorem Runs.of_stop (h : step G A c = .inr o) : Runs G A c o := ⟨1, run_stop h 0⟩

theorem Steps.runs (h : Steps G A c c') (h' : Runs G A c' o) : Runs G A c o := by
  induction h using Relation.ReflTransGen.head_induction_on with
  | refl => exact h'
  | head hs _ ih =>
    obtain ⟨n, hn⟩ := ih
    exact ⟨n + 1, (run_step hs n).trans hn⟩

/-! ## Single steps -/

theorem step_shift {stack : List (Nat × V)} {k : K} {rest : List K} {q : Nat}
    (h : A.action G.toGrammar (top stack) (G.kind k) = some (.shift q)) :
    step G A ⟨stack, k :: rest⟩ = .inl ⟨(q, G.value k) :: stack, rest⟩ := by
  simp only [step, AttrGrammar.first_cons, h]

theorem step_reduce {frames stack : List (Nat × V)} {input : List K} {i q : Nat}
    {p : Production T N} {us : List V} {v : V} (hp : G.productions[i]? = some p)
    (h : A.action G.toGrammar (top (frames ++ stack)) (G.first input G.eof) =
      some (.reduce i))
    (hlen : frames.length = p.rhs.length) (hus : frames.reverse.map Prod.snd = us)
    (hv : G.action i us = .ok v) (hq : A.next (top stack) (.nonterminal p.lhs) = some q) :
    step G A ⟨frames ++ stack, input⟩ = .inl ⟨(q, v) :: stack, input⟩ := by
  simp only [step, h, hp, reduce, ← hlen, List.take_left, List.drop_left, hus, hv, hq]

theorem step_none {stack : List (Nat × V)} {input : List K}
    (h : A.action G.toGrammar (top stack) (G.first input G.eof) = none) :
    step G A ⟨stack, input⟩ = .inr .rejected := by
  simp only [step, h]

theorem step_accept {stack : List (Nat × V)} {q : Nat} {v : V}
    (h : A.action G.toGrammar q G.eof = some .accept) :
    step G A ⟨(q, v) :: stack, []⟩ = .inr (.accepted v) := by
  simp only [step, top, AttrGrammar.first_nil, h]

/-- What a step to a further configuration did: a shift, or a reduction whose action
succeeded. -/
theorem step_inl (h : step G A c = .inl c') :
    (∃ q k rest, A.action G.toGrammar (top c.stack) (G.kind k) = some (.shift q) ∧
      c.input = k :: rest ∧ c' = ⟨(q, G.value k) :: c.stack, rest⟩) ∨
    (∃ i p q v, A.action G.toGrammar (top c.stack) (G.first c.input G.eof) =
        some (.reduce i) ∧ G.productions[i]? = some p ∧
      G.action i ((c.stack.take p.rhs.length).reverse.map Prod.snd) = .ok v ∧
      A.next (top (c.stack.drop p.rhs.length)) (.nonterminal p.lhs) = some q ∧
      c' = ⟨(q, v) :: c.stack.drop p.rhs.length, c.input⟩) := by
  obtain ⟨stack, input⟩ := c
  simp only [step] at h
  split at h
  · cases h
  · split at h <;> cases h
  · rename_i q hq
    split at h
    · rename_i k rest
      cases h
      exact .inl ⟨q, k, rest, hq, rfl, rfl⟩
    · cases h
  · rename_i i hi
    split at h
    · rename_i p hp
      simp only [reduce] at h
      split at h
      · cases h
      · rename_i v hv
        split at h
        · rename_i q hq
          cases h
          exact .inr ⟨i, p, q, v, hi, hp, hv, hq, rfl⟩
        · cases h
    · cases h

theorem step_accepted {v : V} (h : step G A c = .inr (.accepted v)) :
    A.action G.toGrammar (top c.stack) (G.first c.input G.eof) = some .accept ∧
      ∃ q below, c.stack = (q, v) :: below := by
  obtain ⟨stack, input⟩ := c
  simp only [step] at h
  split at h
  · cases h
  · rename_i ha
    split at h
    · cases h
      exact ⟨ha, _, _, rfl⟩
    · cases h
  · split at h <;> cases h
  · split at h
    · simp only [reduce] at h
      split at h
      · cases h
      · split at h <;> cases h
    · cases h

theorem step_raised {e : E} (h : step G A c = .inr (.raised e)) :
    ∃ i p, A.action G.toGrammar (top c.stack) (G.first c.input G.eof) = some (.reduce i) ∧
      G.productions[i]? = some p ∧
      G.action i ((c.stack.take p.rhs.length).reverse.map Prod.snd) = .error e := by
  obtain ⟨stack, input⟩ := c
  simp only [step] at h
  split at h
  · cases h
  · split at h <;> cases h
  · split at h <;> cases h
  · rename_i i hi
    split at h
    · rename_i p hp
      simp only [reduce] at h
      split at h
      · rename_i e' he
        cases h
        exact ⟨i, p, hi, hp, he⟩
      · split at h <;> cases h
    · cases h

end Lr
