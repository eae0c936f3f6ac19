import PFPSim.Lr.Completeness
import PFPSim.Lr.Termination
import PFPSim.Cp.Grammar

/-!
# The automaton of the grammar

The LALR(1) automaton of `grammar.y`. A reduction is made only on its lookahead tokens and
a shift wins against it, as `%expect 3` accepts. The generator also reduces by default,
without a look at the token, where a state has one reduction, so that an action can run in
front of a syntax error; the table here is the plain one.

The three conflicts are on a blank: in front of everything, and behind an `action_spec` that
ends an insert or a modify command. `items` are the items over the same states without the
lookaheads that these conflicts lose, and `allow` is the restriction on derivations that this
means.

`checks` evaluates the tests of the table once; the rest of the module reads it off.
-/

namespace Pfp.Cp

open Lr

def terminals : List Terminal :=
  [.IDENTIFIER, .INSERT_ENTRY, .MODIFY_ENTRY, .DELETE_ENTRY, .BEGIN_TRANSACTION,
    .END_TRANSACTION, .DECIMAL, .HEXADECIMAL, .BLANK, .EOL, .COMMENT, .slash, .ampersand,
    .quote, .dot, .other, .EOF]

/-- Every terminal as a lookahead. -/
def every : Nat := 2 ^ 17 - 1

def automaton : Automaton Terminal Nonterminal := grammar.lalr (fun _ => every) 70 3

/-- The productions that a shift of a blank hides: a command that ends in an
`action_spec`, and an empty space. -/
def hidden : List Nat := [3, 4, 8, 9, 32]

def mask (i : Nat) : Nat := if i ∈ hidden then every - 2 ^ Terminal.BLANK.ctorIdx else every

def items : Automaton Terminal Nonterminal := grammar.lalr mask 70 3

def height : Nat := 8

def bound : Nat := 40

def ranks : Ranks := automaton.ranks grammar.toGrammar height 8

/-- Behind `action_spec __` the parser goes on with a parameter only. -/
def parameterCheck : Bool :=
  (List.range items.length).all fun q => (items.items q).all fun it =>
    it.prod ≠ 23 || it.dot ≠ 2 || terminals.all fun a =>
      a ≠ .EOF && a ≠ .EOL || automaton.action grammar.toGrammar q a = none

theorem checks : (automaton.soundCheck grammar.toGrammar &&
    automaton.completeCheck items grammar.toGrammar (grammar.firsts 3) terminals mask &&
    automaton.rankCheck grammar.toGrammar height bound ranks &&
    parameterCheck) = true := by
  decide +kernel

theorem mem_terminals (a : Terminal) : a ∈ terminals := by
  cases a <;> simp [terminals]

/-- The restriction on derivations: no blank behind a hidden production. -/
def allow (i : Nat) (a : Terminal) : Prop := (mask i).testBit a.ctorIdx = true

theorem allow_iff {i : Nat} {a : Terminal} : allow i a ↔ i ∉ hidden ∨ a ≠ .BLANK := by
  unfold allow mask
  split
  · rename_i h
    cases a <;> simp [h] <;> decide
  · rename_i h
    cases a <;> simp [h] <;> decide

theorem sound : Sound automaton grammar.toGrammar := by
  have h := checks
  simp only [Bool.and_eq_true] at h
  exact .of_check h.1.1.1

theorem complete :
    Complete automaton items grammar.toGrammar (grammar.firsts 3) allow := by
  have h := checks
  simp only [Bool.and_eq_true] at h
  exact .of_check mem_terminals h.1.1.2

theorem ranked : Ranked automaton grammar.toGrammar height bound ranks.get := by
  have h := checks
  simp only [Bool.and_eq_true] at h
  exact .of_check h.1.2

theorem none_of_parameter {q : Nat} {a b : Terminal} (h : items.Has grammar.toGrammar q 23 2 b)
    (ha : a = .EOF ∨ a = .EOL) : automaton.action grammar.toGrammar q a = none := by
  have hc := checks
  simp only [Bool.and_eq_true, parameterCheck, List.all_eq_true, List.mem_range] at hc
  obtain ⟨it, hit, hp, hd, -⟩ := h
  have hq := hc.2 q (Automaton.lt_of_mem_items hit) it hit
  simp only [hp, hd, Bool.or_eq_true, decide_eq_true_eq, List.all_eq_true, Bool.and_eq_true,
    ne_eq, decide_not, Bool.not_eq_true', decide_eq_false_iff_not, not_true_eq_false,
    false_or] at hq
  rcases hq a (mem_terminals a) with ⟨h₁, h₂⟩ | h
  · rcases ha with rfl | rfl
    · exact absurd rfl h₁
    · exact absurd rfl h₂
  · exact h

end Pfp.Cp
