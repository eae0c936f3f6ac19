import PFPSim.Lr.Driver

/-!
# Soundness of the table-driven parser

An accepted input has a derivation from the start symbol with the accepted value
(`accepted_derives`). The stack is a path of the automaton whose symbols derive the
tokens read so far (`Path`), and an item of the top state describes the top of the path
(`Path.item`), so that a reduction pops exactly the right-hand side of its production.

The automaton is not trusted: `soundCheck` tests the two facts the proof needs, that the
items behind a transition come from the state in front of it and that the start item
belongs to state `0` alone.
-/

namespace Lr

variable {T N K V E : Type} [DecidableEq T] [DecidableEq N]

/-- The item can have been reached from state `p` by a transition on `X`. -/
def Automaton.comesFrom (A : Automaton T N) (g : Grammar T N) (p : Nat) (X : Symbol T N)
    (it : Item) : Bool :=
  match it.dot with
  | 0 => true
  | d + 1 => (g.rest it.prod d).head? = some X &&
      (A.items p).any fun it' => it'.prod = it.prod && it'.dot = d

def Automaton.soundCheck (A : Automaton T N) (g : Grammar T N) : Bool :=
  (g.rest 0 0).length = 1 &&
  (A.items 0).all (fun it => it.dot = 0) &&
  (List.range A.length).all fun p =>
    ((A[p]?.map State.next).getD []).all (fun x =>
      x.2 ≠ 0 && (A.items x.2).all fun it => A.comesFrom g p x.1 it) &&
    (A.items p).all fun it => it.prod ≠ 0 ||
      (it.dot ≠ 0 || p = 0) && it.la = 1 <<< g.code g.eof

structure Sound (A : Automaton T N) (g : Grammar T N) : Prop where
  start : (g.rest 0 0).length = 1
  zero : ∀ it ∈ A.items 0, it.dot = 0
  target : ∀ p X q, A.next p X = some q → q ≠ 0
  backward : ∀ p X q, A.next p X = some q → ∀ it ∈ A.items q, ∀ d, it.dot = d + 1 →
    (g.rest it.prod d).head? = some X ∧ ∃ it' ∈ A.items p, it'.prod = it.prod ∧ it'.dot = d
  initial : ∀ p, ∀ it ∈ A.items p, it.prod = 0 → it.dot = 0 → p = 0
  eof : ∀ p, ∀ it ∈ A.items p, it.prod = 0 → it.la = 1 <<< g.code g.eof

omit [DecidableEq T] [DecidableEq N] in
theorem Automaton.lt_of_mem_items {A : Automaton T N} {q : Nat} {it : Item}
    (h : it ∈ A.items q) : q < A.length := by
  by_contra hq
  simp [Automaton.items, List.getElem?_eq_none (by omega : A.length ≤ q)] at h

theorem Automaton.mem_of_next {A : Automaton T N} {p q : Nat} {X : Symbol T N}
    (h : A.next p X = some q) :
    p < A.length ∧ (X, q) ∈ (A[p]?.map State.next).getD [] := by
  unfold Automaton.next at h
  cases hp : A[p]? with
  | none => simp [hp] at h
  | some s =>
    refine ⟨(List.getElem?_eq_some_iff.mp hp).1, ?_⟩
    simp only [hp, Option.map_some, Option.bind_some] at h
    obtain ⟨l₁, l₂, hl, -⟩ := List.lookup_eq_some_iff.mp h
    simp [hl]

theorem Sound.of_check {A : Automaton T N} {g : Grammar T N} (h : A.soundCheck g = true) :
    Sound A g := by
  simp only [Automaton.soundCheck, Bool.and_eq_true, decide_eq_true_eq, List.all_eq_true,
    List.mem_range, Bool.or_eq_true, ne_eq, decide_not, Bool.not_eq_true', decide_eq_false_iff_not]
    at h
  obtain ⟨⟨hstart, hzero⟩, hall⟩ := h
  refine ⟨hstart, hzero, ?_, ?_, ?_, ?_⟩
  · intro p X q hq
    obtain ⟨hp, hm⟩ := Automaton.mem_of_next hq
    exact ((hall p hp).1 _ hm).1
  · intro p X q hq it hit d hd
    obtain ⟨hp, hm⟩ := Automaton.mem_of_next hq
    have hc := ((hall p hp).1 _ hm).2 it hit
    simp only [Automaton.comesFrom, hd, Bool.and_eq_true, decide_eq_true_eq,
      List.any_eq_true] at hc
    exact hc
  · intro p it hit h0 hd
    rcases (hall p (Automaton.lt_of_mem_items hit)).2 it hit with h | ⟨h | h, -⟩
    · exact absurd h0 h
    · exact absurd hd h
    · exact h
  · intro p it hit h0
    rcases (hall p (Automaton.lt_of_mem_items hit)).2 it hit with h | ⟨-, h⟩
    · exact absurd h0 h
    · exact h

/-! ## Paths -/

/-- The stack is a path of the automaton over the symbols, which derive `w`. Symbols and
tokens are listed as they lie on the stack, the top first and the last read last. -/
inductive Path (G : AttrGrammar T N K V E) (A : Automaton T N) :
    List (Nat × V) → List (Symbol T N) → List K → Prop
  | nil : Path G A [] [] []
  | cons {stack : List (Nat × V)} {Xs : List (Symbol T N)} {w u : List K} {X : Symbol T N}
      {q : Nat} {v : V} (below : Path G A stack Xs w) (hq : A.next (top stack) X = some q)
      (hd : ∀ a, Derives G (fun _ _ => True) a [X] u [v]) :
      Path G A ((q, v) :: stack) (X :: Xs) (w ++ u)

namespace Path

variable {G : AttrGrammar T N K V E} {A : Automaton T N} {stack : List (Nat × V)}
  {Xs : List (Symbol T N)} {w : List K}

theorem top_eq_zero (hA : Sound A G.toGrammar) (h : Path G A stack Xs w)
    (h0 : top stack = 0) : stack = [] := by
  cases h with
  | nil => rfl
  | cons _ hq _ => exact absurd h0 (hA.target _ _ _ hq)

/-- The top `n` symbols derive the last tokens, above the rest of the path. -/
theorem split (h : Path G A stack Xs w) {n : Nat} (hn : n ≤ stack.length) :
    ∃ w₁ w₂, w = w₁ ++ w₂ ∧ Path G A (stack.drop n) (Xs.drop n) w₁ ∧
      ∀ a, Derives G (fun _ _ => True) a (Xs.take n).reverse w₂
        ((stack.take n).reverse.map Prod.snd) := by
  induction h generalizing n with
  | nil => exact ⟨[], [], rfl, by simpa using Path.nil, fun a => by simpa using Derives.nil a⟩
  | @cons stack Xs w u X q v below hq hd ih =>
    cases n with
    | zero => exact ⟨w ++ u, [], by simp, .cons below hq hd, fun a => .nil a⟩
    | succ n =>
      obtain ⟨w₁, w₂, rfl, hpath, hder⟩ := ih (by simpa using hn)
      refine ⟨w₁, w₂ ++ u, by simp, hpath, fun a => ?_⟩
      simpa using (hder (G.first u a)).append (hd a)

/-- An item of the top state describes the top of the path. -/
theorem item (hA : Sound A G.toGrammar) (h : Path G A stack Xs w) {it : Item}
    (hit : it ∈ A.items (top stack)) :
    it.dot ≤ stack.length ∧ it.dot ≤ (G.rest it.prod 0).length ∧
      (Xs.take it.dot).reverse = (G.rest it.prod 0).take it.dot ∧
      ∃ it₀ ∈ A.items (top (stack.drop it.dot)), it₀.prod = it.prod ∧ it₀.dot = 0 := by
  induction h generalizing it with
  | nil =>
    have hd := hA.zero it hit
    rw [hd]
    exact ⟨le_rfl, Nat.zero_le _, rfl, it, hit, rfl, hd⟩
  | @cons stack Xs w u X q v below hq hder ih =>
    cases hd : it.dot with
    | zero => exact ⟨Nat.zero_le _, Nat.zero_le _, rfl, it, hit, rfl, hd⟩
    | succ d =>
      obtain ⟨hX, it', hit', hprod, hdot⟩ := hA.backward _ _ _ hq it hit d hd
      obtain ⟨hlen, hlenr, htake, it₀, hit₀, hprod₀, hdot₀⟩ := ih hit'
      rw [hdot] at hlen hlenr htake hit₀
      rw [hprod] at hlenr htake hprod₀
      rw [Grammar.rest_eq_drop, List.head?_drop] at hX
      obtain ⟨hlt, hget⟩ := List.getElem?_eq_some_iff.mp hX
      refine ⟨by simpa using hlen, hlt, ?_, it₀, hit₀, hprod₀, hdot₀⟩
      rw [List.take_succ_cons, List.reverse_cons, htake, List.take_add_one, hX]
      rfl

end Path

/-! ## Accepted inputs -/

section Accepted

variable {G : AttrGrammar T N K V E} {A : Automaton T N}

/-- The tokens on the stack and in the input together are the tokens `w`. -/
def Reading (G : AttrGrammar T N K V E) (A : Automaton T N) (w : List K)
    (c : Config K V) : Prop :=
  ∃ Xs u, Path G A c.stack Xs u ∧ u ++ c.input = w

/-- A complete item of the top state and a rest of the path below its right-hand side. -/
theorem Path.complete (hA : Sound A G.toGrammar) {stack : List (Nat × V)}
    {Xs : List (Symbol T N)} {w : List K} (h : Path G A stack Xs w) {it : Item}
    (hit : it ∈ A.items (top stack)) (hc : G.rest it.prod it.dot = []) :
    it.dot = (G.rest it.prod 0).length ∧
    ∃ w₁ w₂, w = w₁ ++ w₂ ∧ Path G A (stack.drop it.dot) (Xs.drop it.dot) w₁ ∧
      ∀ a, Derives G (fun _ _ => True) a (G.rest it.prod 0) w₂
        ((stack.take it.dot).reverse.map Prod.snd) := by
  obtain ⟨hlen, hlenr, htake, -⟩ := h.item hA hit
  rw [Grammar.rest_eq_drop, List.drop_eq_nil_iff] at hc
  have hdot : it.dot = (G.rest it.prod 0).length := le_antisymm hlenr hc
  obtain ⟨w₁, w₂, hw, hpath, hder⟩ := h.split hlen
  rw [htake, hdot, List.take_length] at hder
  exact ⟨hdot, w₁, w₂, hw, hpath, by rwa [hdot]⟩

/-- The item behind a table entry that is not a shift. -/
theorem Automaton.item_of_action {g : Grammar T N} {q : Nat} {a : T} {act : Action}
    (h : A.action g q a = some act) (hs : ∀ q', act ≠ .shift q') :
    ∃ it ∈ A.items q, g.rest it.prod it.dot = [] ∧ it.la.testBit (g.code a) = true ∧
      act = if it.prod = 0 then .accept else .reduce it.prod := by
  unfold Automaton.action at h
  split at h
  · cases h
    exact absurd rfl (hs _)
  · split at h
    · rename_i it hf
      cases h
      have hp := List.find?_some hf
      simp only [Bool.and_eq_true, List.isEmpty_iff] at hp
      exact ⟨it, List.mem_of_find?_eq_some hf, hp.1, hp.2, rfl⟩
    · cases h

theorem Reading.step (hA : Sound A G.toGrammar) {w : List K} {c c' : Config K V}
    (h : Reading G A w c) (hs : step G A c = .inl c') : Reading G A w c' := by
  obtain ⟨Xs, u, hpath, rfl⟩ := h
  rcases step_inl hs with ⟨q, k, rest, ha, hin, rfl⟩ | ⟨i, p, q, v, ha, hp, hv, hq, rfl⟩
  · refine ⟨.terminal (G.kind k) :: Xs, u ++ [k], .cons hpath ?_ (fun a => .token k (.nil a)), ?_⟩
    · unfold Automaton.action at ha
      split at ha
      · rename_i q' hq'
        cases ha
        exact hq'
      · split at ha
        · split at ha <;> cases ha
        · cases ha
    · simp [hin]
  · obtain ⟨it, hit, hc, -, hact⟩ := Automaton.item_of_action ha (by simp)
    have hi : it.prod = i := by
      split at hact <;> cases hact
      rfl
    subst hi
    obtain ⟨hdot, w₁, w₂, rfl, hbelow, hder⟩ := hpath.complete hA hit hc
    rw [Grammar.rest_eq hp, List.drop_zero] at hdot hder
    rw [hdot] at hbelow hder
    refine ⟨_, w₁ ++ w₂, .cons hbelow hq (fun a => ?_), rfl⟩
    have := Derives.node hp trivial (hder _) hv (Derives.nil (G := G) a)
    simpa using this

theorem Reading.accepted (hA : Sound A G.toGrammar) (hcode : Function.Injective G.code)
    (heof : ∀ k, G.kind k ≠ G.eof) {w : List K} {c : Config K V} {v : V}
    (h : Reading G A w c) (hs : Lr.step G A c = .inr (.accepted v)) (a : T) :
    Derives G (fun _ _ => True) a (G.rest 0 0) w [v] := by
  obtain ⟨Xs, u, hpath, rfl⟩ := h
  obtain ⟨hact, q, below, hstack⟩ := step_accepted hs
  obtain ⟨it, hit, hc, hla, hacc⟩ := Automaton.item_of_action hact (by simp)
  have h0 : it.prod = 0 := by
    split at hacc
    · assumption
    · cases hacc
  -- the lookahead of the start item is the end of input alone
  have hin : c.input = [] := by
    rw [hA.eof _ it hit h0, Nat.one_shiftLeft, Nat.testBit_two_pow, decide_eq_true_eq] at hla
    have hfirst := hcode hla
    cases hi : c.input with
    | nil => rfl
    | cons k rest => rw [hi] at hfirst; exact absurd hfirst.symm (heof k)
  obtain ⟨hdot, w₁, w₂, rfl, hbelow, hder⟩ := hpath.complete hA hit hc
  obtain ⟨-, -, -, it₀, hit₀, hp₀, hd₀⟩ := hpath.item hA hit
  have hz := hA.initial _ it₀ hit₀ (hp₀.trans h0) hd₀
  have hnil := hbelow.top_eq_zero hA hz
  rw [h0] at hdot hder
  rw [hdot, hA.start, hstack] at hnil hbelow hder
  simp only [List.drop_succ_cons, List.drop_zero] at hnil hbelow
  subst hnil
  have hw₁ : w₁ = [] := by
    generalize Xs.drop 1 = Ys at hbelow
    cases hbelow
    rfl
  subst hw₁
  simpa [hin] using hder a

/-- Every configuration of a run reads the same tokens, the one of its last step too. -/
theorem Reading.run (hA : Sound A G.toGrammar) {w : List K} {c : Config K V}
    {o : Outcome V E} (h : Reading G A w c) (hrun : Runs G A c o) :
    ∃ c', Reading G A w c' ∧ Lr.step G A c' = .inr o := by
  obtain ⟨fuel, hrun⟩ := hrun
  induction fuel generalizing c with
  | zero => simp [Lr.run] at hrun
  | succ fuel ih =>
    cases hs : Lr.step G A c with
    | inl c' =>
      rw [run_step hs] at hrun
      exact ih (h.step hA hs) hrun
    | inr o' =>
      rw [run_stop hs] at hrun
      cases hrun
      exact ⟨c, h, hs⟩

/-- **Soundness.** An accepted input is derived from the start symbol, with the value
the parser accepted. -/
theorem accepted_derives (hA : Sound A G.toGrammar) (hcode : Function.Injective G.code)
    (heof : ∀ k, G.kind k ≠ G.eof) {w : List K} {v : V}
    (h : Runs G A ⟨[], w⟩ (.accepted v)) (a : T) :
    Derives G (fun _ _ => True) a (G.rest 0 0) w [v] := by
  have hread : Reading G A w ⟨([] : List (Nat × V)), w⟩ := ⟨[], [], .nil, rfl⟩
  obtain ⟨c, hc, hs⟩ := hread.run hA h
  exact hc.accepted hA hcode heof hs a

/-- An exception comes from the action of a production whose right-hand side derives a
part of the input. -/
theorem raised_derives (hA : Sound A G.toGrammar) {w : List K} {e : E}
    (h : Runs G A ⟨[], w⟩ (.raised e)) (a : T) :
    ∃ i p w₁ w₂ w₃ us, G.productions[i]? = some p ∧ w = w₁ ++ w₂ ++ w₃ ∧
      Derives G (fun _ _ => True) a p.rhs w₂ us ∧ G.action i us = .error e := by
  have hread : Reading G A w ⟨([] : List (Nat × V)), w⟩ := ⟨[], [], .nil, rfl⟩
  obtain ⟨c, ⟨Xs, u, hpath, rfl⟩, hs⟩ := hread.run hA h
  obtain ⟨i, p, ha, hp, he⟩ := step_raised hs
  obtain ⟨it, hit, hc, -, hact⟩ := Automaton.item_of_action ha (by simp)
  have hi : it.prod = i := by
    split at hact <;> cases hact
    rfl
  subst hi
  obtain ⟨hdot, w₁, w₂, rfl, -, hder⟩ := hpath.complete hA hit hc
  rw [Grammar.rest_eq hp, List.drop_zero] at hdot hder
  rw [hdot] at hder
  exact ⟨it.prod, p, w₁, w₂, c.input, _, hp, rfl, hder a, he⟩

end Accepted

end Lr
