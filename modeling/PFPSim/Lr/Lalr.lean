import PFPSim.Lr.Grammar

/-!
# LALR(1) automata

The construction of an LALR(1) automaton from a grammar. A state is the closure of its
kernel items, and every item carries its lookahead tokens as a bit mask. States with the
same items are one state, whose lookaheads are the union (`insertKernel`); `pass` goes
through the states, the new ones included, and `lalr` repeats the passes until no
lookahead grows.

`action` reads the table entry of a state and a token. A shift wins against a reduction
and, among reductions, the item found first.

The parameter `allow` masks the lookaheads of a production. The automaton of the grammar
itself is built with every token allowed; a smaller mask gives the items reached by the
derivations that respect it, over the same states.
-/

namespace Lr

/-- Production, position in its right-hand side, and the lookahead tokens as a mask. -/
structure Item where
  prod : Nat
  dot : Nat
  la : Nat
  deriving DecidableEq

structure State (T N : Type) where
  items : List Item
  next : List (Symbol T N × Nat)

abbrev Automaton (T N : Type) := List (State T N)

inductive Action where
  | shift (q : Nat)
  | reduce (i : Nat)
  | accept
  deriving DecidableEq

variable {T N : Type} [DecidableEq T] [DecidableEq N]

/-! ## First tokens -/

/-- For each nonterminal, the tokens that may begin it and whether it may be empty. -/
abbrev Firsts (N : Type) := List (N × Nat × Bool)

def Firsts.get (fs : Firsts N) (n : N) : Nat × Bool := (fs.lookup n).getD (0, false)

def Firsts.set (n : N) (x : Nat × Bool) : Firsts N → Firsts N
  | [] => [(n, x)]
  | (m, y) :: fs => if m = n then (n, x) :: fs else (m, y) :: Firsts.set n x fs

/-- The tokens that may begin a list of symbols, and whether it may be empty. -/
def Grammar.firstOf (g : Grammar T N) (fs : Firsts N) : List (Symbol T N) → Nat × Bool
  | [] => (0, true)
  | .terminal t :: _ => (1 <<< g.code t, false)
  | .nonterminal n :: Xs =>
    if (fs.get n).2 then ((fs.get n).1 ||| (g.firstOf fs Xs).1, (g.firstOf fs Xs).2)
    else ((fs.get n).1, false)

def Grammar.firstsRound (g : Grammar T N) (fs : Firsts N) : Firsts N :=
  g.productions.foldr (fun p fs =>
    fs.set p.lhs ((fs.get p.lhs).1 ||| (g.firstOf fs p.rhs).1,
      (fs.get p.lhs).2 || (g.firstOf fs p.rhs).2)) fs

def Grammar.firsts (g : Grammar T N) : Nat → Firsts N
  | 0 => []
  | k + 1 => g.firstsRound (g.firsts k)

/-- The lookaheads of what is derived in front of `Xs`, when `la` may follow `Xs`. -/
def Grammar.follow (g : Grammar T N) (fs : Firsts N) (Xs : List (Symbol T N)) (la : Nat) : Nat :=
  if (g.firstOf fs Xs).2 then (g.firstOf fs Xs).1 ||| la else (g.firstOf fs Xs).1

/-! ## States -/

/-- Add lookaheads to a nonterminal that an item expects. -/
def addLookahead (n : N) (la : Nat) : List (N × Nat) → List (N × Nat)
  | [] => [(n, la)]
  | (m, l) :: rest => if m = n then (m, l ||| la) :: rest else (m, l) :: addLookahead n la rest

def Grammar.expect (g : Grammar T N) (fs : Firsts N) (Xs : List (Symbol T N)) (la : Nat)
    (acc : List (N × Nat)) : List (N × Nat) :=
  match Xs with
  | .nonterminal n :: Ys => addLookahead n (g.follow fs Ys la) acc
  | _ => acc

/-- One round of the closure: every production of an expected nonterminal expects the
first symbol of its right-hand side. -/
def Grammar.closeRound (g : Grammar T N) (fs : Firsts N) (allow : Nat → Nat)
    (acc : List (N × Nat)) : List (N × Nat) :=
  acc.foldl (fun acc x =>
    (g.alternatives x.1).foldl (fun acc p =>
      g.expect fs p.2 (((acc.lookup x.1).getD 0) &&& allow p.1) acc) acc) acc

def Grammar.close (g : Grammar T N) (fs : Firsts N) (allow : Nat → Nat) :
    Nat → List (N × Nat) → List (N × Nat)
  | 0, acc => acc
  | k + 1, acc =>
    let acc' := g.closeRound fs allow acc
    if acc' = acc then acc else g.close fs allow k acc'

def Grammar.closure (g : Grammar T N) (fs : Firsts N) (allow : Nat → Nat)
    (kernel : List Item) : List Item :=
  let expected := kernel.foldl (fun acc it =>
    g.expect fs (g.rest it.prod it.dot) it.la acc) []
  kernel ++ (g.close fs allow g.productions.length expected).flatMap fun x =>
    (g.alternatives x.1).map fun p => ⟨p.1, 0, x.2 &&& allow p.1⟩

def addItem (X : Symbol T N) (it : Item) :
    List (Symbol T N × List Item) → List (Symbol T N × List Item)
  | [] => [(X, [it])]
  | (Y, k) :: rest => if Y = X then (Y, k ++ [it]) :: rest else (Y, k) :: addItem X it rest

/-- The kernels reached from a closed list of items, by symbol. -/
def Grammar.gotos (g : Grammar T N) (items : List Item) : List (Symbol T N × List Item) :=
  items.foldl (fun acc it =>
    match g.rest it.prod it.dot with
    | X :: _ => addItem X ⟨it.prod, it.dot + 1, it.la⟩ acc
    | [] => acc) []

def sameCore : List Item → List Item → Bool
  | [], [] => true
  | a :: k, b :: l => a.prod == b.prod && a.dot == b.dot && sameCore k l
  | _, _ => false

def mergeKernel : List Item → List Item → List Item
  | a :: k, b :: l => ⟨a.prod, a.dot, a.la ||| b.la⟩ :: mergeKernel k l
  | k, _ => k

/-- States with the same items are merged. -/
def insertKernel (k : List Item) : List (List Item) → List (List Item)
  | [] => [k]
  | l :: rest => if sameCore l k then mergeKernel l k :: rest else l :: insertKernel k rest

/-- Visit the states from the `i`-th on, at most `fuel` of them. -/
def Grammar.pass (g : Grammar T N) (fs : Firsts N) (allow : Nat → Nat) :
    Nat → Nat → List (List Item) → List (List Item)
  | 0, _, ks => ks
  | fuel + 1, i, ks =>
    match ks[i]? with
    | none => ks
    | some k => g.pass fs allow fuel (i + 1)
        ((g.gotos (g.closure fs allow k)).foldl (fun ks x => insertKernel x.2 ks) ks)

def Grammar.passes (g : Grammar T N) (fs : Firsts N) (allow : Nat → Nat) (fuel : Nat) :
    Nat → List (List Item) → List (List Item)
  | 0, ks => ks
  | n + 1, ks =>
    let ks' := g.pass fs allow fuel 0 ks
    if ks' = ks then ks else g.passes fs allow fuel n ks'

/-- The automaton with at most `fuel` states, after at most `rounds` passes. -/
def Grammar.lalr (g : Grammar T N) (allow : Nat → Nat) (fuel rounds : Nat) : Automaton T N :=
  let fs := g.firsts rounds
  let kernels := g.passes fs allow fuel rounds [[⟨0, 0, 1 <<< g.code g.eof⟩]]
  kernels.map fun k =>
    let items := g.closure fs allow k
    ⟨items, (g.gotos items).map fun x => (x.1, kernels.findIdx fun l => sameCore l x.2)⟩

/-! ## The table -/

namespace Automaton

/-- The items of state `q`. -/
def items (A : Automaton T N) (q : Nat) : List Item := (A[q]?.map State.items).getD []

def next (A : Automaton T N) (q : Nat) (X : Symbol T N) : Option Nat :=
  (A[q]?.map State.next).bind fun xs => xs.lookup X

def action (A : Automaton T N) (g : Grammar T N) (q : Nat) (a : T) : Option Action :=
  match A.next q (.terminal a) with
  | some q' => some (.shift q')
  | none =>
    match (A.items q).find? fun it =>
      (g.rest it.prod it.dot).isEmpty && it.la.testBit (g.code a) with
    | some it => some (if it.prod = 0 then .accept else .reduce it.prod)
    | none => none

/-- The state has the item, with `a` among its lookaheads. -/
def Has (A : Automaton T N) (g : Grammar T N) (q i dot : Nat) (a : T) : Prop :=
  ∃ it ∈ A.items q, it.prod = i ∧ it.dot = dot ∧ it.la.testBit (g.code a) = true

end Automaton

end Lr
