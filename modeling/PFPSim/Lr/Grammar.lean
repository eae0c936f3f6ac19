import Mathlib.Computability.Language
import Mathlib.Data.Nat.Bitwise

/-!
# Attributed context-free grammars

A grammar over terminals `T` and nonterminals `N`, together with the meaning a parser
generator gives it: a token has a terminal kind and a semantic value, and every
production has an action that computes the value of its left-hand side and may raise an
exception.

`Derives` is the derivation relation with the values. It relates a list of symbols to
the tokens they derive and the values they get, before a following token of kind `a`.
The parameter `allow` says before which tokens a production may be used; the plain
relation of the grammar is `Derives G (fun _ _ => True)`.
-/

namespace Lr

structure Production (T N : Type) where
  lhs : N
  rhs : List (Symbol T N)

/-- The productions in the order of the grammar file. Production `0` is the augmented
start rule, with the start symbol alone on its right, and `eof` is the token kind after
a sentence. `code` numbers the terminals, so that a set of them is a bit mask. -/
structure Grammar (T N : Type) where
  productions : List (Production T N)
  eof : T
  code : T → Nat

/-- A grammar with the kind and the value of a token and the action of a production. -/
structure AttrGrammar (T N K V E : Type) extends Grammar T N where
  kind : K → T
  value : K → V
  action : Nat → List V → Except E V

section Grammar

variable {T N : Type} [DecidableEq T] [DecidableEq N]

/-- What an item still expects: the right-hand side of production `i` from `dot` on. -/
def Grammar.rest (g : Grammar T N) (i dot : Nat) : List (Symbol T N) :=
  match g.productions[i]? with
  | some p => p.rhs.drop dot
  | none => []

/-- The productions of `n`, by number. -/
def Grammar.alternatives (g : Grammar T N) (n : N) : List (Nat × List (Symbol T N)) :=
  g.productions.zipIdx.filterMap fun p => if p.1.lhs = n then some (p.2, p.1.rhs) else none

omit [DecidableEq T] [DecidableEq N] in
theorem Grammar.rest_eq {g : Grammar T N} {i : Nat} {p : Production T N}
    (hp : g.productions[i]? = some p) (dot : Nat) : g.rest i dot = p.rhs.drop dot := by
  simp only [Grammar.rest, hp]

omit [DecidableEq T] [DecidableEq N] in
theorem Grammar.rest_eq_drop (g : Grammar T N) (i dot : Nat) :
    g.rest i dot = (g.rest i 0).drop dot := by
  cases hp : g.productions[i]? with
  | none => simp [Grammar.rest, hp]
  | some p => rw [Grammar.rest_eq hp, Grammar.rest_eq hp, List.drop_zero]

omit [DecidableEq T] [DecidableEq N] in
theorem Grammar.rest_succ {g : Grammar T N} {i dot : Nat} {X : Symbol T N}
    {Xs : List (Symbol T N)} (h : g.rest i dot = X :: Xs) : g.rest i (dot + 1) = Xs := by
  cases hp : g.productions[i]? with
  | none => simp [Grammar.rest, hp] at h
  | some p =>
    rw [Grammar.rest_eq hp] at h ⊢
    rw [List.drop_add_one_eq_tail_drop, h]
    rfl

omit [DecidableEq T] in
theorem Grammar.mem_alternatives {g : Grammar T N} {i : Nat} {p : Production T N}
    (hp : g.productions[i]? = some p) : (i, p.rhs) ∈ g.alternatives p.lhs := by
  apply List.mem_filterMap.mpr
  refine ⟨(p, i), ?_, by simp⟩
  rw [List.mem_zipIdx_iff_getElem?]
  exact hp

end Grammar

section Derives

variable {T N K V E : Type}

/-- The kind of the first token of `w`, or `a` when there is none. -/
def AttrGrammar.first (G : AttrGrammar T N K V E) (w : List K) (a : T) : T :=
  match w with
  | [] => a
  | k :: _ => G.kind k

@[simp] theorem AttrGrammar.first_nil (G : AttrGrammar T N K V E) (a : T) :
    G.first [] a = a := rfl

@[simp] theorem AttrGrammar.first_cons (G : AttrGrammar T N K V E) (k : K) (w : List K)
    (a : T) : G.first (k :: w) a = G.kind k := rfl

theorem AttrGrammar.first_append (G : AttrGrammar T N K V E) (w u : List K) (a : T) :
    G.first (w ++ u) a = G.first w (G.first u a) := by
  cases w <;> rfl

/-- The symbols derive the tokens `w`, with the values `vs`, before a token of kind
`a`; a production is used only where `allow` admits the token after it. -/
inductive Derives (G : AttrGrammar T N K V E) (allow : Nat → T → Prop) :
    T → List (Symbol T N) → List K → List V → Prop
  | nil (a : T) : Derives G allow a [] [] []
  | token {a : T} {Xs : List (Symbol T N)} {w : List K} {vs : List V} (k : K)
      (tail : Derives G allow a Xs w vs) :
      Derives G allow a (.terminal (G.kind k) :: Xs) (k :: w) (G.value k :: vs)
  | node {a : T} {Xs : List (Symbol T N)} {w u : List K} {vs us : List V} {i : Nat}
      {p : Production T N} {v : V} (hp : G.productions[i]? = some p)
      (ha : allow i (G.first w a)) (children : Derives G allow (G.first w a) p.rhs u us)
      (hv : G.action i us = .ok v) (tail : Derives G allow a Xs w vs) :
      Derives G allow a (.nonterminal p.lhs :: Xs) (u ++ w) (v :: vs)

namespace Derives

variable {G : AttrGrammar T N K V E} {allow allow' : Nat → T → Prop} {a : T}
  {Xs Ys : List (Symbol T N)} {w u : List K} {vs us : List V}

theorem length_eq (h : Derives G allow a Xs w vs) : vs.length = Xs.length := by
  induction h with
  | nil => rfl
  | token _ _ ih => simp [ih]
  | node _ _ _ _ _ _ ih => simp [ih]

theorem append (h₁ : Derives G allow (G.first u a) Xs w vs) (h₂ : Derives G allow a Ys u us) :
    Derives G allow a (Xs ++ Ys) (w ++ u) (vs ++ us) := by
  generalize hb : G.first u a = b at h₁
  induction h₁ with
  | nil => exact h₂
  | token k _ ih => exact .token k (ih hb)
  | @node b Xs w w' vs us' i p v hp ha children hv tail _ ih =>
    subst hb
    rw [List.append_assoc]
    rw [← G.first_append] at ha children
    exact .node hp ha children hv (ih rfl)

/-- What one symbol derives, in front of what others derive. -/
theorem cons {X : Symbol T N} {x : V} (h₁ : Derives G allow (G.first u a) [X] w [x])
    (h₂ : Derives G allow a Ys u us) : Derives G allow a (X :: Ys) (w ++ u) (x :: us) :=
  h₁.append h₂

theorem append_inv (h : Derives G allow a (Xs ++ Ys) w vs) :
    ∃ w₁ w₂ vs₁ vs₂, w = w₁ ++ w₂ ∧ vs = vs₁ ++ vs₂ ∧
      Derives G allow (G.first w₂ a) Xs w₁ vs₁ ∧ Derives G allow a Ys w₂ vs₂ := by
  induction Xs generalizing w vs with
  | nil => exact ⟨[], w, [], vs, rfl, rfl, .nil _, h⟩
  | cons X Xs ih =>
    cases h with
    | token k tail =>
      obtain ⟨w₁, w₂, vs₁, vs₂, rfl, rfl, h₁, h₂⟩ := ih tail
      exact ⟨k :: w₁, w₂, _ :: vs₁, vs₂, rfl, rfl, .token k h₁, h₂⟩
    | node hp ha children hv tail =>
      obtain ⟨w₁, w₂, vs₁, vs₂, rfl, rfl, h₁, h₂⟩ := ih tail
      rw [G.first_append] at ha children
      exact ⟨_ ++ w₁, w₂, _ :: vs₁, vs₂, by simp, rfl, .node hp ha children hv h₁, h₂⟩

theorem nil_inv (h : Derives G allow a [] w vs) : w = [] ∧ vs = [] := by
  cases h
  exact ⟨rfl, rfl⟩

theorem token_inv {t : T} (h : Derives G allow a (.terminal t :: Xs) w vs) :
    ∃ k w' vs', w = k :: w' ∧ vs = G.value k :: vs' ∧ G.kind k = t ∧
      Derives G allow a Xs w' vs' := by
  cases h with
  | token k tail => exact ⟨k, _, _, rfl, rfl, rfl, tail⟩

theorem cons_inv {X : Symbol T N} (h : Derives G allow a (X :: Xs) w vs) :
    ∃ w₁ w₂ v vs', w = w₁ ++ w₂ ∧ vs = v :: vs' ∧
      Derives G allow (G.first w₂ a) [X] w₁ [v] ∧ Derives G allow a Xs w₂ vs' := by
  have happ : Derives G allow a ([X] ++ Xs) w vs := h
  obtain ⟨w₁, w₂, vs₁, vs₂, rfl, rfl, h₁, h₂⟩ := happ.append_inv
  have hlen := h₁.length_eq
  match vs₁, hlen with
  | [v], _ => exact ⟨w₁, w₂, v, vs₂, rfl, rfl, h₁, h₂⟩

/-- Symbols whose productions are allowed before every token, and lead to such symbols
only, derive the same under both relations, before any following token. -/
theorem change (S : N → Prop)
    (hS : ∀ i p, G.productions[i]? = some p → S p.lhs →
      (∀ b, allow' i b) ∧ ∀ n, .nonterminal n ∈ p.rhs → S n)
    (hXs : ∀ n, .nonterminal n ∈ Xs → S n) (h : Derives G allow a Xs w vs) (b : T) :
    Derives G allow' b Xs w vs := by
  induction h generalizing b with
  | nil => exact .nil _
  | token k _ ih => exact .token k (ih (fun n hn => hXs n (List.mem_cons_of_mem _ hn)) b)
  | node hp _ _ hv _ ih₁ ih₂ =>
    obtain ⟨hall, hsub⟩ := hS _ _ hp (hXs _ List.mem_cons_self)
    exact .node hp (hall _) (ih₁ hsub _) hv
      (ih₂ (fun n hn => hXs n (List.mem_cons_of_mem _ hn)) b)

end Derives

end Derives

end Lr
