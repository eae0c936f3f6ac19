import PFPSim.Lr.Soundness

/-!
# Termination of the table-driven parser

Between two shifts the parser performs finitely many reductions. The top state, with the
state below it, gets a rank: an empty reduction pays `height` for the symbol it pushes, a
reduction of `k + 2` symbols gains `height` for each symbol the stack loses, and the rank
pays the difference. `ranks` computes such ranks by rounds and `rankCheck` tests that they
suffice. Every run then ends within a number of steps linear in the input (`run_total`).
-/

namespace Lr

variable {T N K V E : Type} [DecidableEq T] [DecidableEq N]

/-! ## Ranks -/

/-- For each state, the ranks of the states above it. -/
abbrev Ranks := List (List (Nat × Nat))

def Ranks.get (r : Ranks) (p q : Nat) : Nat := ((r.getD p []).lookup q).getD 0

/-- The states that may lie above `p`. The bottom state counts as lying above itself. -/
def Automaton.above (A : Automaton T N) (p : Nat) : List Nat :=
  (if p = 0 then [0] else []) ++ ((A[p]?.map State.next).getD []).map Prod.snd

/-- The rank that a complete item of state `q`, above `p`, asks for. -/
def Automaton.itemDemand (A : Automaton T N) (g : Grammar T N) (height : Nat) (r : Ranks)
    (p q : Nat) (it : Item) : Nat :=
  match g.productions[it.prod]?, g.rest it.prod it.dot with
  | some pr, [] =>
    match pr.rhs.length with
    | 0 => ((A.next q (.nonterminal pr.lhs)).map fun q' => height + r.get q q' + 1).getD 0
    | 1 => ((A.next p (.nonterminal pr.lhs)).map fun q' => r.get p q' + 1).getD 0
    | k + 2 => (List.range A.length).foldr (fun p' d => max
        ((((A.next p' (.nonterminal pr.lhs)).map fun q' => r.get p' q' + 1).getD 0) -
          (k + 1) * height) d) 0
  | _, _ => 0

/-- The rank that the complete items of state `q`, above `p`, ask for. -/
def Automaton.demand (A : Automaton T N) (g : Grammar T N) (height : Nat) (r : Ranks)
    (p q : Nat) : Nat :=
  (A.items q).foldr (fun it d => max (A.itemDemand g height r p q it) d) 0

def Automaton.ranks (A : Automaton T N) (g : Grammar T N) (height : Nat) : Nat → Ranks
  | 0 => []
  | n + 1 =>
    let r := A.ranks g height n
    (List.range A.length).map fun p => (A.above p).map fun q => (q, A.demand g height r p q)

def Automaton.rankCheck (A : Automaton T N) (g : Grammar T N) (height bound : Nat)
    (r : Ranks) : Bool :=
  r.all (fun l => l.all fun x => x.2 ≤ bound) &&
  (List.range A.length).all fun p => (A.above p).all fun q =>
    A.demand g height r p q ≤ r.get p q

structure Ranked (A : Automaton T N) (g : Grammar T N) (height bound : Nat)
    (rank : Nat → Nat → Nat) : Prop where
  le : ∀ p q, rank p q ≤ bound
  empty : ∀ p q, p < A.length → q ∈ A.above p → ∀ it ∈ A.items q, ∀ pr q',
    g.rest it.prod it.dot = [] → g.productions[it.prod]? = some pr → pr.rhs.length = 0 →
    A.next q (.nonterminal pr.lhs) = some q' → height + rank q q' < rank p q
  unit : ∀ p q, p < A.length → q ∈ A.above p → ∀ it ∈ A.items q, ∀ pr q',
    g.rest it.prod it.dot = [] → g.productions[it.prod]? = some pr → pr.rhs.length = 1 →
    A.next p (.nonterminal pr.lhs) = some q' → rank p q' < rank p q
  more : ∀ p q, p < A.length → q ∈ A.above p → ∀ it ∈ A.items q, ∀ pr k p' q',
    g.rest it.prod it.dot = [] → g.productions[it.prod]? = some pr →
    pr.rhs.length = k + 2 → A.next p' (.nonterminal pr.lhs) = some q' →
    rank p' q' < (k + 1) * height + rank p q

theorem le_foldr_max {α : Type} {f : α → Nat} {l : List α} {x : α} (h : x ∈ l) :
    f x ≤ l.foldr (fun y d => max (f y) d) 0 := by
  induction l with
  | nil => cases h
  | cons y l ih =>
    rcases List.mem_cons.mp h with rfl | h
    · exact Nat.le_max_left _ _
    · exact (ih h).trans (Nat.le_max_right _ _)

theorem Ranks.get_le {r : Ranks} {bound : Nat} (h : ∀ l ∈ r, ∀ x ∈ l, x.2 ≤ bound)
    (p q : Nat) : r.get p q ≤ bound := by
  unfold Ranks.get
  cases hq : (r.getD p []).lookup q with
  | none => exact Nat.zero_le _
  | some d =>
    obtain ⟨l₁, l₂, hl, -⟩ := List.lookup_eq_some_iff.mp hq
    rw [List.getD_eq_getElem?_getD] at hl
    cases hp : r[p]? with
    | none => simp [hp] at hl
    | some l =>
      rw [hp, Option.getD_some] at hl
      exact h l (List.mem_of_getElem? hp) (q, d) (by simp [hl])

theorem Ranked.of_check {A : Automaton T N} {g : Grammar T N} {height bound : Nat}
    {r : Ranks} (h : A.rankCheck g height bound r = true) :
    Ranked A g height bound r.get := by
  simp only [Automaton.rankCheck, Bool.and_eq_true, List.all_eq_true, decide_eq_true_eq,
    List.mem_range] at h
  obtain ⟨hle, hdemand⟩ := h
  have hitem : ∀ p q, p < A.length → q ∈ A.above p → ∀ it ∈ A.items q,
      A.itemDemand g height r p q it ≤ r.get p q :=
    fun p q hp hq it hit => (le_foldr_max hit).trans (hdemand p hp q hq)
  refine ⟨Ranks.get_le hle, ?_, ?_, ?_⟩
  · intro p q hp hq it hit pr q' hrest hpr hlen hq'
    have hd := hitem p q hp hq it hit
    simp only [Automaton.itemDemand, hpr, hrest, hlen, hq', Option.map_some,
      Option.getD_some] at hd
    exact hd
  · intro p q hp hq it hit pr q' hrest hpr hlen hq'
    have hd := hitem p q hp hq it hit
    simp only [Automaton.itemDemand, hpr, hrest, hlen, hq', Option.map_some,
      Option.getD_some] at hd
    exact hd
  · intro p q hp hq it hit pr k p' q' hrest hpr hlen hq'
    have hd := hitem p q hp hq it hit
    simp only [Automaton.itemDemand, hpr, hrest, hlen] at hd
    have hp' := List.mem_range.mpr (Automaton.mem_of_next hq').1
    have hmax := (le_foldr_max (f := fun p' => ((A.next p' (.nonterminal pr.lhs)).map
      fun q' => r.get p' q' + 1).getD 0 - (k + 1) * height) hp').trans hd
    simp only [hq', Option.map_some, Option.getD_some] at hmax
    omega

/-! ## Credit -/

variable {G : AttrGrammar T N K V E} {A : Automaton T N} {height bound : Nat}
  {rank : Nat → Nat → Nat}

/-- Bounds the number of steps from a configuration. -/
def credit (height bound : Nat) (rank : Nat → Nat → Nat) (c : Config K V) : Nat :=
  (height + bound + 1) * c.input.length + height * c.stack.length +
    rank (top c.stack.tail) (top c.stack)

theorem Path.above {stack : List (Nat × V)}
    {Xs : List (Symbol T N)} {w : List K} (h : Path G A stack Xs w)
    (hne : 0 < A.length) :
    top stack.tail < A.length ∧ top stack ∈ A.above (top stack.tail) := by
  cases h with
  | nil => exact ⟨hne, by simp [Automaton.above, top]⟩
  | cons _ hq _ =>
    obtain ⟨hlt, hmem⟩ := Automaton.mem_of_next hq
    exact ⟨hlt, List.mem_append_right _ (List.mem_map.mpr ⟨_, hmem, rfl⟩)⟩

theorem credit_step (hA : Sound A G.toGrammar)
    (hR : Ranked A G.toGrammar height bound rank) {w : List K} {c c' : Config K V}
    (h : Reading G A w c) (hs : step G A c = .inl c') :
    credit height bound rank c' < credit height bound rank c := by
  obtain ⟨Xs, u, hpath, -⟩ := h
  rcases step_inl hs with ⟨q, k, rest, -, hin, rfl⟩ | ⟨i, p, q, v, ha, hp, -, hq, rfl⟩
  · have hle := hR.le (top c.stack) q
    simp only [credit, hin, List.length_cons, List.tail_cons, top_cons, Nat.mul_succ]
    omega
  · obtain ⟨it, hit, hc, -, hact⟩ := Automaton.item_of_action ha (by simp)
    have hi : it.prod = i := by
      split at hact <;> cases hact
      rfl
    subst hi
    have hdot := (hpath.complete hA hit hc).1
    have hstack := (hpath.item hA hit).1
    rw [hdot, Grammar.rest_eq hp, List.drop_zero] at hstack
    have hne : 0 < A.length := (Nat.zero_le _).trans_lt (Automaton.mem_of_next hq).1
    obtain ⟨hbelow, habove⟩ := hpath.above hne
    simp only [credit, List.length_cons, List.length_drop, List.tail_cons, top_cons]
    have hk : p.rhs.length = 0 ∨ p.rhs.length = 1 ∨ ∃ k, p.rhs.length = k + 2 := by
      rcases Nat.lt_or_ge p.rhs.length 2 with h | h
      · omega
      · exact .inr (.inr ⟨p.rhs.length - 2, by omega⟩)
    rcases hk with hlen | hlen | ⟨k, hlen⟩
    · rw [hlen, List.drop_zero] at hq
      have hlt := hR.empty _ _ hbelow habove it hit p q hc hp hlen hq
      simp only [hlen, Nat.sub_zero, Nat.mul_succ, List.drop_zero]
      omega
    · rw [hlen, List.drop_one] at hq
      have hlt := hR.unit _ _ hbelow habove it hit p q hc hp hlen hq
      rw [hlen, List.drop_one, Nat.sub_add_cancel (by omega)]
      omega
    · rw [hlen] at hq hstack
      have hlt := hR.more _ _ hbelow habove it hit p k _ q hc hp hlen hq
      obtain ⟨n, hn⟩ : ∃ n, c.stack.length = n + (k + 2) :=
        ⟨c.stack.length - (k + 2), by omega⟩
      rw [hlen, hn, Nat.add_sub_cancel, show n + (k + 2) = n + 1 + (k + 1) by omega,
        Nat.mul_add height (n + 1) (k + 1), Nat.mul_comm height (k + 1)]
      omega

/-- **Termination.** A run on `w` ends within a number of steps linear in its length. -/
theorem run_total (hA : Sound A G.toGrammar) (hR : Ranked A G.toGrammar height bound rank)
    (w : List K) : ∃ o, run G A ((height + bound + 1) * (w.length + 1)) ⟨[], w⟩ = some o := by
  have hread : Reading G A w ⟨([] : List (Nat × V)), w⟩ := ⟨[], [], .nil, rfl⟩
  have hcredit : credit height bound rank ⟨([] : List (Nat × V)), w⟩ <
      (height + bound + 1) * (w.length + 1) := by
    have hle := hR.le 0 0
    simp only [credit, List.length_nil, List.tail_nil, top, Nat.mul_succ, Nat.mul_zero]
    omega
  generalize (⟨[], w⟩ : Config K V) = c at hread hcredit ⊢
  generalize (height + bound + 1) * (w.length + 1) = fuel at hcredit
  induction fuel generalizing c with
  | zero => cases hcredit
  | succ fuel ih =>
    cases hs : step G A c with
    | inl c' =>
      rw [run_step hs]
      have hlt := credit_step hA hR hread hs
      exact ih c' (hread.step hA hs) (by omega)
    | inr o => exact ⟨o, run_stop hs fuel⟩

end Lr
