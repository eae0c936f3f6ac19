import PFPSim.Lr.Driver

/-!
# Completeness of the table-driven parser

A derivation that respects `allow` is accepted, with its value (`derives_accepted`). The
proof follows the derivation: in a state with an item that expects the symbols, the
parser reads their tokens and arrives in a state where the item has moved over them
(`Complete.forest`).

`completeCheck` tests the closure and transition facts this needs, on items `B` over the
states of the automaton `A`. Where a shift hides a reduction in `A`, the items `B` leave
the lost lookahead out, and `allow` says so.
-/

namespace Lr

variable {T N K V E : Type} [DecidableEq T] [DecidableEq N]

/-- A token of kind `b` may follow what is derived in front of `Ys`, when `a` follows `Ys`. -/
def Grammar.Follows (g : Grammar T N) (fs : Firsts N) (Ys : List (Symbol T N)) (a b : T) : Prop :=
  (g.firstOf fs Ys).1.testBit (g.code b) = true ∨ ((g.firstOf fs Ys).2 = true ∧ b = a)

def subset (l l' : Nat) : Bool := l &&& l' = l

def Grammar.firstsCheck (g : Grammar T N) (fs : Firsts N) : Bool :=
  g.productions.all fun p =>
    subset (g.firstOf fs p.rhs).1 (fs.get p.lhs).1 &&
      (!(g.firstOf fs p.rhs).2 || (fs.get p.lhs).2)

def Automaton.itemCheck (A B : Automaton T N) (g : Grammar T N) (fs : Firsts N)
    (terminals : List T) (allow : Nat → Nat) (q : Nat) (it : Item) : Bool :=
  match g.rest it.prod it.dot with
  | [] => terminals.all fun a => !it.la.testBit (g.code a) ||
      A.action g q a = some (if it.prod = 0 then .accept else .reduce it.prod)
  | X :: Xs =>
    (match A.next q X with
      | some q' => (B.items q').any fun it' =>
          it'.prod = it.prod && it'.dot = it.dot + 1 && subset it.la it'.la
      | none => false) &&
    match X with
    | .terminal _ => true
    | .nonterminal n => (g.alternatives n).all fun p => p.1 ≠ 0 &&
        (B.items q).any fun it' => it'.prod = p.1 && it'.dot = 0 &&
          subset (g.follow fs Xs it.la &&& allow p.1) it'.la

def Automaton.completeCheck (A B : Automaton T N) (g : Grammar T N) (fs : Firsts N)
    (terminals : List T) (allow : Nat → Nat) : Bool :=
  g.firstsCheck fs &&
  (g.rest 0 0).length = 1 &&
  (B.items 0).any (fun it => it.prod = 0 && it.dot = 0 && it.la.testBit (g.code g.eof)) &&
  (List.range B.length).all fun q => (B.items q).all fun it =>
    A.itemCheck B g fs terminals allow q it

structure Complete (A B : Automaton T N) (g : Grammar T N) (fs : Firsts N)
    (allow : Nat → T → Prop) : Prop where
  firsts : ∀ p ∈ g.productions, ∀ n, ((g.firstOf fs p.rhs).1.testBit n = true →
      (fs.get p.lhs).1.testBit n = true) ∧
    ((g.firstOf fs p.rhs).2 = true → (fs.get p.lhs).2 = true)
  unit : (g.rest 0 0).length = 1
  start : B.Has g 0 0 0 g.eof
  next : ∀ q i d a X Xs, B.Has g q i d a → g.rest i d = X :: Xs →
    ∃ q', A.next q X = some q' ∧ B.Has g q' i (d + 1) a
  closure : ∀ q i d a n Xs j rhs b, B.Has g q i d a → g.rest i d = .nonterminal n :: Xs →
    (j, rhs) ∈ g.alternatives n → g.Follows fs Xs a b → allow j b →
      j ≠ 0 ∧ B.Has g q j 0 b
  done : ∀ q i d a, B.Has g q i d a → g.rest i d = [] →
    A.action g q a = some (if i = 0 then .accept else .reduce i)

theorem testBit_of_subset {l l' n : Nat} (h : subset l l' = true) (hn : l.testBit n = true) :
    l'.testBit n = true := by
  simp only [subset, decide_eq_true_eq] at h
  rw [← h, Nat.testBit_and, Bool.and_eq_true] at hn
  exact hn.2

omit [DecidableEq T] in
theorem Grammar.testBit_follow {g : Grammar T N} {fs : Firsts N} {Xs : List (Symbol T N)}
    {la : Nat} {a b : T} (h : g.Follows fs Xs a b) (ha : la.testBit (g.code a) = true) :
    (g.follow fs Xs la).testBit (g.code b) = true := by
  unfold Grammar.follow
  rcases h with h | ⟨h, rfl⟩
  · split
    · rw [Nat.testBit_or, h, Bool.true_or]
    · exact h
  · rw [if_pos h, Nat.testBit_or, ha, Bool.or_true]

theorem Complete.of_check {A B : Automaton T N} {g : Grammar T N} {fs : Firsts N}
    {terminals : List T} {allow : Nat → Nat} (ht : ∀ a, a ∈ terminals)
    (h : A.completeCheck B g fs terminals allow = true) :
    Complete A B g fs (fun i a => (allow i).testBit (g.code a) = true) := by
  simp only [Automaton.completeCheck, Bool.and_eq_true, decide_eq_true_eq,
    List.any_eq_true, List.all_eq_true, List.mem_range] at h
  obtain ⟨⟨⟨hfirsts, hunit⟩, it₀, hit₀, ⟨hp₀, hd₀⟩, hla₀⟩, hitems⟩ := h
  have hcheck : ∀ q, ∀ it ∈ B.items q, A.itemCheck B g fs terminals allow q it = true := by
    intro q it hit
    refine hitems q ?_ it hit
    by_contra hq
    simp [Automaton.items, List.getElem?_eq_none (by omega : B.length ≤ q)] at hit
  refine ⟨?_, hunit, ⟨it₀, hit₀, hp₀, hd₀, hla₀⟩, ?_, ?_, ?_⟩
  · intro p hp n
    simp only [Grammar.firstsCheck, List.all_eq_true, Bool.and_eq_true, Bool.or_eq_true,
      Bool.not_eq_true'] at hfirsts
    obtain ⟨hsub, hnull⟩ := hfirsts p hp
    refine ⟨testBit_of_subset hsub, ?_⟩
    intro he
    rcases hnull with h | h
    · rw [h] at he; cases he
    · exact h
  · rintro q i d a X Xs ⟨it, hit, rfl, rfl, hla⟩ hrest
    have hc := hcheck q it hit
    simp only [Automaton.itemCheck, hrest, Bool.and_eq_true] at hc
    have hn := hc.1
    split at hn
    · rename_i q' hq'
      simp only [List.any_eq_true, Bool.and_eq_true, decide_eq_true_eq] at hn
      obtain ⟨it', hit', ⟨hp', hd'⟩, hsub⟩ := hn
      exact ⟨q', hq', it', hit', hp', hd', testBit_of_subset hsub hla⟩
    · cases hn
  · rintro q i d a n Xs j rhs b ⟨it, hit, rfl, rfl, hla⟩ hrest hj hb hallow
    have hc := hcheck q it hit
    simp only [Automaton.itemCheck, hrest, Bool.and_eq_true, List.all_eq_true,
      List.any_eq_true, decide_eq_true_eq, ne_eq, decide_not, Bool.not_eq_true',
      decide_eq_false_iff_not] at hc
    obtain ⟨hj0, it', hit', ⟨hp', hd'⟩, hsub⟩ := hc.2 (j, rhs) hj
    refine ⟨hj0, it', hit', hp', hd', testBit_of_subset hsub ?_⟩
    rw [Nat.testBit_and, Grammar.testBit_follow hb hla, hallow]
    rfl
  · rintro q i d a ⟨it, hit, rfl, rfl, hla⟩ hrest
    have hc := hcheck q it hit
    simp only [Automaton.itemCheck, hrest, List.all_eq_true, Bool.or_eq_true,
      Bool.not_eq_true', decide_eq_true_eq] at hc
    rcases hc a (ht a) with h | h
    · rw [hla] at h; cases h
    · exact h

/-! ## First tokens of a derivation -/

omit [DecidableEq T] in
theorem Grammar.firstOf_append (g : Grammar T N) (fs : Firsts N) (Xs Ys : List (Symbol T N)) :
    (g.firstOf fs (Xs ++ Ys)).1 =
        (g.firstOf fs Xs).1 ||| (if (g.firstOf fs Xs).2 then (g.firstOf fs Ys).1 else 0) ∧
      (g.firstOf fs (Xs ++ Ys)).2 = ((g.firstOf fs Xs).2 && (g.firstOf fs Ys).2) := by
  induction Xs with
  | nil => simp [Grammar.firstOf]
  | cons X Xs ih =>
    cases X with
    | terminal t => simp [Grammar.firstOf]
    | nonterminal n =>
      obtain ⟨ih₁, ih₂⟩ := ih
      simp only [List.cons_append, Grammar.firstOf]
      by_cases he : (fs.get n).2 = true
      · simp only [if_pos he, ih₁, ih₂, Nat.lor_assoc, and_self]
      · simp [he]

omit [DecidableEq T] in
theorem Grammar.follows_append {g : Grammar T N} {fs : Firsts N} {Xs Ys : List (Symbol T N)}
    {a b : T} : g.Follows fs (Xs ++ Ys) a b ↔ (g.firstOf fs Xs).1.testBit (g.code b) = true ∨
      ((g.firstOf fs Xs).2 = true ∧ g.Follows fs Ys a b) := by
  obtain ⟨h₁, h₂⟩ := g.firstOf_append fs Xs Ys
  unfold Grammar.Follows
  rw [h₁, h₂]
  cases (g.firstOf fs Xs).2 <;> simp [or_assoc]

omit [DecidableEq T] in
theorem Grammar.follows_nil (g : Grammar T N) (fs : Firsts N) (a : T) : g.Follows fs [] a a :=
  .inr ⟨rfl, rfl⟩

section Runs

variable {G : AttrGrammar T N K V E} {A B : Automaton T N} {fs : Firsts N}
  {allow : Nat → T → Prop}

/-- The first token of a derivation is a first token of its symbols. -/
theorem Complete.first (hC : Complete A B G.toGrammar fs allow) {a : T}
    {Xs : List (Symbol T N)} {w : List K} {vs : List V} (h : Derives G allow a Xs w vs) :
    (w = [] → (G.firstOf fs Xs).2 = true) ∧
      ∀ k u, w = k :: u → (G.firstOf fs Xs).1.testBit (G.code (G.kind k)) = true := by
  induction h with
  | nil => exact ⟨fun _ => rfl, fun k u h => by cases h⟩
  | token k _ _ =>
    refine ⟨fun h => (List.cons_ne_nil _ _ h).elim, ?_⟩
    intro k' u h
    cases h
    simp [Grammar.firstOf]
  | @node a Xs w u vs us i p v hp _ _ _ _ ih₁ ih₂ =>
    have hmem := List.mem_of_getElem? hp
    simp only [Grammar.firstOf]
    have hnull := (hC.firsts p hmem 0).2
    constructor
    · intro h
      obtain ⟨rfl, rfl⟩ := List.append_eq_nil_iff.mp h
      rw [if_pos (hnull (ih₁.1 rfl))]
      exact ih₂.1 rfl
    · intro k t h
      cases u with
      | nil =>
        rw [if_pos (hnull (ih₁.1 rfl)), Nat.testBit_or, ih₂.2 k t h, Bool.or_true]
      | cons k' u' =>
        cases h
        have hf := (hC.firsts p hmem _).1 (ih₁.2 k u' rfl)
        split
        · rw [Nat.testBit_or, hf, Bool.true_or]
        · exact hf

theorem Complete.follows (hC : Complete A B G.toGrammar fs allow) {a b : T}
    {Xs Ys : List (Symbol T N)} {w : List K} {vs : List V} (h : Derives G allow b Xs w vs)
    (hb : G.Follows fs Ys a b) : G.Follows fs (Xs ++ Ys) a (G.first w b) := by
  rw [Grammar.follows_append]
  cases w with
  | nil => exact .inr ⟨(hC.first h).1 rfl, hb⟩
  | cons k u => exact .inl ((hC.first h).2 k u rfl)

/-- In a state whose item expects `Xs`, the parser reads the tokens derived from `Xs` and
moves the item over them. -/
theorem Complete.forest (hC : Complete A B G.toGrammar fs allow) {b : T}
    {Xs : List (Symbol T N)} {w : List K} {vs : List V} (h : Derives G allow b Xs w vs) :
    ∀ (stack : List (Nat × V)) (tail : List K) (i d : Nat) (a : T) (Ys : List (Symbol T N)),
      G.rest i d = Xs ++ Ys → B.Has G.toGrammar (top stack) i d a → G.Follows fs Ys a b →
      G.first tail G.eof = b →
      ∃ frames : List (Nat × V), frames.reverse.map Prod.snd = vs ∧
        Steps G A ⟨stack, w ++ tail⟩ ⟨frames ++ stack, tail⟩ ∧
        B.Has G.toGrammar (top (frames ++ stack)) i (d + Xs.length) a := by
  induction h with
  | nil =>
    intro stack tail i d a Ys _ hhas _ _
    exact ⟨[], rfl, .refl, hhas⟩
  | token k _ ih =>
    intro stack tail i d a Ys hrest hhas hfol htail
    obtain ⟨q, hq, hnext⟩ := hC.next _ _ _ _ _ _ hhas hrest
    have hact : A.action G.toGrammar (top stack) (G.kind k) = some (.shift q) := by
      simp only [Automaton.action, hq]
    obtain ⟨frames, hvals, hsteps, hend⟩ := ih ((q, G.value k) :: stack) tail i (d + 1) a Ys
      (Grammar.rest_succ hrest) hnext hfol htail
    refine ⟨frames ++ [(q, G.value k)], by simp [hvals], ?_, ?_⟩
    · rw [List.append_assoc]
      exact .head (step_shift hact) hsteps
    · rw [List.append_assoc, List.length_cons, Nat.add_comm _ 1, ← Nat.add_assoc]
      exact hend
  | @node b Xs w u vs us j p v hp hallow hchildren hv htl ih₁ ih₂ =>
    intro stack tail i d a Ys hrest hhas hfol htail
    have hfol' := hC.follows htl hfol
    obtain ⟨hj0, hhas₀⟩ := hC.closure _ _ _ _ _ _ _ _ _ hhas hrest (G.mem_alternatives hp)
      hfol' hallow
    have hrest₀ : G.rest j 0 = p.rhs ++ [] := by
      rw [Grammar.rest_eq hp, List.drop_zero, List.append_nil]
    obtain ⟨frames, hvals, hsteps, hend⟩ := ih₁ stack (w ++ tail) j 0 _ [] hrest₀ hhas₀
      (G.follows_nil fs _) (by rw [G.first_append, htail])
    -- the item of the production is complete, and its reduction returns to `stack`
    have hact := hC.done _ _ _ _ hend (by rw [Grammar.rest_eq hp]; simp)
    rw [if_neg hj0] at hact
    obtain ⟨q, hq, hnext⟩ := hC.next _ _ _ _ _ _ hhas hrest
    have hlen : frames.length = p.rhs.length := by
      rw [← hchildren.length_eq, ← hvals]
      simp
    have hred : step G A ⟨frames ++ stack, w ++ tail⟩ = .inl ⟨(q, v) :: stack, w ++ tail⟩ :=
      step_reduce hp (by rwa [G.first_append, htail]) hlen hvals hv hq
    obtain ⟨frames', hvals', hsteps', hend'⟩ := ih₂ ((q, v) :: stack) tail i (d + 1) a Ys
      (Grammar.rest_succ hrest) hnext hfol htail
    refine ⟨frames' ++ [(q, v)], by simp [hvals'], ?_, ?_⟩
    · rw [List.append_assoc, List.append_assoc]
      exact hsteps.trans (.head hred hsteps')
    · rw [List.append_assoc, List.length_cons, Nat.add_comm _ 1, ← Nat.add_assoc]
      exact hend'

/-- **Completeness.** A derivation from the start symbol that respects `allow` is
accepted with its value. -/
theorem derives_accepted (hC : Complete A B G.toGrammar fs allow) {w : List K} {v : V}
    (h : Derives G allow G.eof (G.rest 0 0) w [v]) : Runs G A ⟨[], w⟩ (.accepted v) := by
  obtain ⟨frames, hvals, hsteps, hend⟩ := hC.forest h [] [] 0 0 G.eof [] (by simp) hC.start
    (G.follows_nil fs _) rfl
  have hlen : frames.length = 1 := by
    have := congrArg List.length hvals
    simpa using this
  match frames, hlen with
  | [(q, v')], _ =>
    obtain rfl : v' = v := by simpa using hvals
    have hact := hC.done _ _ _ _ hend (by rw [Grammar.rest_eq_drop]; simp)
    rw [List.append_nil] at hsteps
    exact hsteps.runs (.of_stop (step_accept hact))

end Runs

end Lr
