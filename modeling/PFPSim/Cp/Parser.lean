import PFPSim.Cp.Automaton
import PFPSim.Cp.Sentences

/-!
# The parser

`parse_line` scans a line and runs the automaton on its tokens. The result is the command
that `returnCommand` was called with, a null pointer, or an exception of an action, which
the exception handler of the parser throws on.

`parse_eq_iff` is what the parser accepts: the sentences of the grammar, except inserts
and modifies with a blank behind them, whose parameter list the blank seems to continue.
-/

namespace Pfp.Cp

open Lr

/-- What `parse_line` makes of the end of a run. -/
def result : Outcome Value Exception → Except Exception (Option Command)
  | .accepted (.returned c) => .ok c
  | .raised e => .error e
  | _ => .ok none

def parse (ts : List Token) : Except Exception (Option Command) :=
  ((run grammar automaton ((height + bound + 1) * (ts.length + 1)) ⟨[], ts⟩).map result).getD
    (.ok none)

def parse_line (line : Str) : Except Exception (Option Command) := parse (scan line)

/-- The parser stops on every input, within the steps that `parse` gives it. -/
theorem parse_total (ts : List Token) : ∃ o,
    run grammar automaton ((height + bound + 1) * (ts.length + 1)) ⟨[], ts⟩ = some o :=
  run_total sound ranked ts

theorem parse_of_runs {ts : List Token} {o : Outcome Value Exception}
    (h : Runs grammar automaton ⟨[], ts⟩ o) : parse ts = result o := by
  obtain ⟨o', ho'⟩ := parse_total ts
  have hruns : Runs grammar automaton ⟨[], ts⟩ o' := ⟨_, ho'⟩
  rw [parse, ho', hruns.unique h]
  rfl

/-! ## Soundness -/

theorem der_startrule {w : List Token} {v : Value} :
    Der [nt .startrule] w [v] ↔ (∃ c, Sentence w c ∧ v = .returned (some c)) ∨
      (∃ us, Der [nt .optional_space, nt .optional_comment, nt .optional_EOL] w us) ∧
        v = .returned none := by
  rw [der_nt, show rowsOf .startrule =
    [⟨.startrule, [nt .optional_space, nt .command, nt .optional_EOL],
        fun v => .ok (.returned (v.command 2))⟩,
      ⟨.startrule, [nt .optional_space, nt .optional_comment, nt .optional_EOL],
        fun _ => .ok (.returned none)⟩] from rfl]
  simp only [List.mem_cons, List.not_mem_nil, or_false, exists_eq_or_imp, exists_eq_left]
  constructor
  · rintro (⟨us, hd, ha⟩ | ⟨us, hd, ha⟩)
    · obtain ⟨w₁, _, v₁, _, rfl, rfl, h₁, h⟩ := der_cons.mp hd
      obtain ⟨w₂, w₃, v₂, _, rfl, rfl, h₂, h₃⟩ := der_cons.mp h
      obtain ⟨v₃, rfl⟩ := List.length_eq_one_iff.mp h₃.length_eq
      obtain ⟨c, rfl, -⟩ := der_command.mp h₂
      cases ha
      exact .inl ⟨c, ⟨v₁, v₃, hd⟩, rfl⟩
    · cases ha
      exact .inr ⟨⟨us, hd⟩, rfl⟩
  · rintro (⟨c, ⟨v₁, v₃, hd⟩, rfl⟩ | ⟨⟨us, hd⟩, rfl⟩)
    · exact .inl ⟨_, hd, rfl⟩
    · exact .inr ⟨us, hd, rfl⟩

theorem accepted_inv {ts : List Token} {v : Value}
    (h : Runs grammar automaton ⟨[], ts⟩ (.accepted v)) :
    Der [nt .startrule] ts [v] :=
  accepted_derives sound code_injective kind_ne_EOF h .EOF

theorem runs_of_parse {ts : List Token} {c : Command} (h : parse ts = .ok (some c)) :
    Runs grammar automaton ⟨[], ts⟩ (.accepted (.returned (some c))) := by
  obtain ⟨o, ho⟩ := parse_total ts
  have hruns : Runs grammar automaton ⟨[], ts⟩ o := ⟨_, ho⟩
  rw [parse_of_runs hruns] at h
  unfold result at h
  split at h
  · cases h
    exact hruns
  · cases h
  · cases h

theorem sentence_of_parse {ts : List Token} {c : Command} (h : parse ts = .ok (some c)) :
    Sentence ts c := by
  rcases der_startrule.mp (accepted_inv (runs_of_parse h)) with ⟨c', hc, heq⟩ | ⟨-, heq⟩
  · cases heq
    exact hc
  · cases heq

/-! ## Derivations without hidden lookaheads -/

/-- The nonterminals below which nothing is hidden. -/
def plain : List Nonterminal :=
  [.match_keys, .match_key, .exact_match_key, .lpm_match_key, .ternary_match_key,
    .action_spec, .action_param, .bytes, .raw_bytes, .ip_addr, .empty,
    .delete_entry_command, .begin_transaction_command, .end_transaction_command]

theorem plain_closed : ∀ p ∈ rows.zipIdx, p.1.lhs ∈ plain →
    p.2 ∉ hidden ∧ ∀ m, nt m ∈ p.1.rhs → m ∈ plain := by
  have h : ∀ p ∈ rows.zipIdx, p.1.lhs ∈ plain → p.2 ∉ hidden ∧ ∀ X ∈ p.1.rhs,
      (match X with
        | .terminal _ => true
        | .nonterminal m => decide (m ∈ plain)) = true := by
    decide
  intro p hp hlhs
  obtain ⟨hhid, hX⟩ := h p hp hlhs
  exact ⟨hhid, fun m hm => of_decide_eq_true (hX _ hm)⟩

theorem allowed_of_plain {Xs : List (Symbol Terminal Nonterminal)} {w : List Token}
    {vs : Values} (hXs : ∀ m, nt m ∈ Xs → m ∈ plain) (h : Der Xs w vs) (a : Terminal) :
    Derives grammar allow a Xs w vs := by
  refine h.change (· ∈ plain) ?_ hXs a
  intro i p hp hlhs
  obtain ⟨row, hrow, rfl⟩ := getElem?_productions.mp hp
  obtain ⟨hhid, hrhs⟩ := plain_closed (row, i)
    (List.mem_zipIdx_iff_getElem?.mpr hrow) hlhs
  exact ⟨fun b => allow_iff.mpr (.inl hhid), hrhs⟩

/-- One production over children that are derived without hidden lookaheads. -/
theorem allowed_node {a : Terminal} {i : Nat} {row : Row} {w : List Token} {us : Values}
    {v : Value} (hrow : rows[i]? = some row) (ha : i ∉ hidden ∨ a ≠ .BLANK)
    (h : Derives grammar allow a row.rhs w us) (hv : row.action us = .ok v) :
    Derives grammar allow a [nt row.lhs] w [v] := by
  have hact : executeAction i us = row.action us := by simp only [executeAction, hrow]
  have hnode := Derives.node (G := grammar) (w := []) (getElem?_productions.mpr ⟨row, hrow, rfl⟩)
    (allow_iff.mpr ha) h (hact.trans hv) (.nil a)
  rwa [List.append_nil] at hnode

/-- A nonterminal with one production, over plain ones. -/
theorem allowed_single {m : Nonterminal} {row : Row} {a : Terminal} {i : Nat}
    {w : List Token} {v : Value} (hm : rowsOf m = [row]) (hrow : rows[i]? = some row)
    (ha : i ∉ hidden ∨ a ≠ .BLANK) (hplain : ∀ m', nt m' ∈ row.rhs → m' ∈ plain)
    (h : Der [nt m] w [v]) : Derives grammar allow a [nt m] w [v] := by
  obtain ⟨row', hrow', us, hd, hv⟩ := der_nt.mp h
  have hlhs : row.lhs = m := by
    have hmem : row ∈ rowsOf m := by simp [hm]
    simpa using (List.mem_filter.mp hmem).2
  rw [hm, List.mem_singleton] at hrow'
  rw [hrow'] at hd hv
  rw [← hlhs]
  exact allowed_node hrow ha (allowed_of_plain hplain hd a) hv

theorem allowed_space {w : List Token} {a : Terminal} (hw : w ∈ leads)
    (ha : w = [] → a ≠ .BLANK) : Derives grammar allow a [nt .optional_space] w [.none] := by
  simp only [leads, List.mem_cons, List.not_mem_nil, or_false] at hw
  rcases hw with rfl | rfl
  · exact allowed_node (i := 32) rfl (.inr (ha rfl)) (allowed_of_plain (by simp [nt, plain])
      (der_empty.mpr ⟨rfl, rfl⟩) a) rfl
  · exact allowed_node (i := 31) rfl (.inl (by decide)) (allowed_of_plain (by simp [nt, tm])
      ((der_ofKind (a := .BLANK) rfl).mpr ⟨rfl, rfl⟩) a) rfl

theorem allowed_tail {w : List Token} (hw : w ∈ tails) :
    Derives grammar allow .EOF [nt .optional_EOL] w [.none] := by
  have hEOL : ∀ {w}, w ∈ leads →
      Derives grammar allow .EOF [nt .optional_EOL] (w ++ [.EOL]) [.none] := fun hw =>
    allowed_node (i := 33) rfl (.inl (by decide))
      (Derives.cons
        (allowed_space hw (fun _ => by simp [grammar, Token.kind]))
        (.token Token.EOL (.nil _))) rfl
  have hnone : ∀ {w}, w ∈ leads → Derives grammar allow .EOF [nt .optional_EOL] w [.none] :=
    fun hw => allowed_node (i := 34) rfl (.inl (by decide))
      (allowed_space hw (fun _ => by simp)) rfl
  simp only [tails, List.mem_cons, List.not_mem_nil, or_false] at hw
  rcases hw with rfl | rfl | rfl | rfl
  · exact hnone (by simp [leads])
  · exact hEOL (w := []) (by simp [leads])
  · exact hnone (by simp [leads])
  · exact hEOL (w := [.BLANK]) (by simp [leads])

/-- The command ends in an `action_spec`. -/
def Command.hasSpec : Command → Bool
  | .InsertCommand _ => true
  | .ModifyCommand _ => true
  | _ => false

theorem Core.first {w : List Token} {c : Command} (h : Core w c) :
    ∃ k u, w = k :: u ∧ k.kind ≠ .BLANK := by
  cases h <;> exact ⟨_, _, rfl, by simp [Token.kind]⟩

theorem allowed_core {w : List Token} {c : Command} {a : Terminal} (h : Core w c)
    (ha : c.hasSpec = false ∨ a ≠ .BLANK) :
    Derives grammar allow a [nt .command] w [.COMMAND c] := by
  cases h with
  | @insert w u keys action s hk hs =>
    have ha' : a ≠ .BLANK := by simpa [Command.hasSpec] using ha
    exact allowed_node (i := 3) rfl (.inr ha') (allowed_single (i := 8) rfl rfl (.inr ha')
      (by simp [nt, tm, plain])
      (der_insert_entry_command.mpr ⟨s, w, u, keys, action, rfl, hk, hs, rfl⟩)) rfl
  | @modify u action s x hs =>
    have ha' : a ≠ .BLANK := by simpa [Command.hasSpec] using ha
    exact allowed_node (i := 4) rfl (.inr ha') (allowed_single (i := 9) rfl rfl (.inr ha')
      (by simp [nt, tm, plain])
      (der_modify_entry_command.mpr ⟨s, x, u, action, rfl, hs, rfl⟩)) rfl
  | delete s x =>
    exact allowed_node (i := 5) rfl (.inl (by decide)) (allowed_of_plain (by simp [nt, plain])
      (der_delete_entry_command.mpr ⟨s, x, rfl, rfl⟩) a) rfl
  | begin_transaction =>
    exact allowed_node (i := 6) rfl (.inl (by decide)) (allowed_of_plain (by simp [nt, plain])
      ((der_transaction (a := .BEGIN_TRANSACTION) rfl rfl).mpr ⟨rfl, rfl⟩) a) rfl
  | end_transaction =>
    exact allowed_node (i := 7) rfl (.inl (by decide)) (allowed_of_plain (by simp [nt, plain])
      ((der_transaction (a := .END_TRANSACTION) rfl rfl).mpr ⟨rfl, rfl⟩) a) rfl

/-- The tails that do not begin with a blank. -/
def clean : List (List Token) := [[], [.EOL]]

theorem first_of_tail {c : Command} {tail : List Token}
    (h : c.hasSpec = false ∨ tail ∈ clean) :
    c.hasSpec = false ∨ grammar.first tail .EOF ≠ .BLANK := by
  apply h.imp_right
  intro h
  simp only [clean, List.mem_cons, List.not_mem_nil, or_false] at h
  rcases h with rfl | rfl <;> simp [grammar, Token.kind]

theorem parse_of_core {lead core tail : List Token} {c : Command} (hlead : lead ∈ leads)
    (h : Core core c) (htail : tail ∈ tails) (hc : c.hasSpec = false ∨ tail ∈ clean) :
    parse (lead ++ (core ++ tail)) = .ok (some c) := by
  have hlook : grammar.first (core ++ tail) .EOF ≠ .BLANK := by
    obtain ⟨k, u, rfl, hk⟩ := h.first
    exact hk
  have hder : Derives grammar allow .EOF [nt .optional_space, nt .command, nt .optional_EOL]
      (lead ++ (core ++ tail)) [.none, .COMMAND c, .none] :=
    Derives.cons (allowed_space hlead fun _ => hlook)
      (Derives.cons (allowed_core h (first_of_tail hc))
        (allowed_tail htail))
  exact parse_of_runs (derives_accepted complete
    (allowed_node (i := 1) rfl (.inl (by decide)) hder rfl))

/-! ## A blank behind an action -/

/-- A blank behind the `action_spec` of production `k` is shifted as the beginning of a
parameter, and the parser stops at the end of the line. -/
theorem rejected_of_blank {i k : Nat} {m : Nonterminal}
    {front : List (Symbol Terminal Nonterminal)} {lead hd u tail : List Token}
    {us : Values} {a : Action} (hi : grammar.productions[i]? = some ⟨.command, [nt m]⟩)
    (hk : grammar.productions[k]? = some ⟨m, front ++ [nt .action_spec]⟩)
    (hlead : lead ∈ leads) (hd0 : ∃ b u', hd = b :: u' ∧ b.kind ≠ .BLANK ∧
      grammar.Follows (grammar.firsts 3) [nt .command, nt .optional_EOL] .EOF b.kind)
    (hfront : Derives grammar allow .IDENTIFIER front hd us) (hs : Spec u a)
    (htail : tail ∈ clean) :
    Runs grammar automaton ⟨[], lead ++ (hd ++ (u ++ .BLANK :: tail))⟩ .rejected := by
  obtain ⟨b, u', rfl, hb, hfollow⟩ := hd0
  have hC := complete
  have hEOF : ∀ j, allow j .EOF := fun j => allow_iff.mpr (.inr (by simp))
  have hfollow₀ : ∀ (Ys : List (Symbol Terminal Nonterminal)),
      (grammar.firstOf (grammar.firsts 3) Ys).2 = true →
      grammar.Follows (grammar.firsts 3) Ys .EOF .EOF := fun Ys h => .inr ⟨h, rfl⟩
  obtain ⟨k₀, u₀, hu, hk₀⟩ : ∃ k₀ u₀, u = k₀ :: u₀ ∧ k₀.kind = .IDENTIFIER := hs.first
  -- the leading blank
  obtain ⟨-, h₁⟩ := hC.closure 0 0 0 .EOF Nonterminal.startrule [] 1 _ .EOF hC.start rfl
    (Grammar.mem_alternatives (p := ⟨Nonterminal.startrule, _⟩) rfl) (hfollow₀ [] rfl) (hEOF 1)
  obtain ⟨f₁, -, hs₁, hh₁⟩ := hC.forest (allowed_space hlead fun _ => hb) []
    ((b :: u') ++ (u ++ .BLANK :: tail)) 1 0 .EOF [nt .command, nt .optional_EOL] rfl h₁
    hfollow rfl
  -- the command up to its action
  obtain ⟨-, h₂⟩ := hC.closure _ 1 1 .EOF Nonterminal.command [nt .optional_EOL] i _ .EOF hh₁ rfl
    (Grammar.mem_alternatives hi) (hfollow₀ _ (by decide +kernel)) (hEOF i)
  obtain ⟨-, h₃⟩ := hC.closure _ i 0 .EOF m [] k _ .EOF h₂ (Grammar.rest_eq hi 0)
    (Grammar.mem_alternatives hk) (hfollow₀ [] rfl) (hEOF k)
  obtain ⟨f₂, -, hs₂, hh₂⟩ := hC.forest hfront (f₁ ++ []) (u ++ .BLANK :: tail) k 0 .EOF
    [nt .action_spec] (Grammar.rest_eq hk 0) h₃
    (.inl (by decide +kernel)) (by rw [hu]; exact hk₀)
  -- the action, read as one that a parameter follows
  obtain ⟨-, h₄⟩ := hC.closure _ k (0 + front.length) .EOF Nonterminal.action_spec [] 23 _ .EOF hh₂
    (by rw [Grammar.rest_eq hk]; simp; rfl)
    (Grammar.mem_alternatives (p := ⟨Nonterminal.action_spec, _⟩) rfl) (hfollow₀ [] rfl) (hEOF 23)
  have hspec : Derives grammar allow .BLANK [nt .action_spec] u [.ACTION_SPEC a] :=
    allowed_of_plain (by simp [nt, plain]) (der_action_spec.mpr ⟨a, rfl, hs⟩) _
  obtain ⟨f₃, -, hs₃, hh₃⟩ := hC.forest hspec (f₂ ++ (f₁ ++ [])) (.BLANK :: tail) 23 0 .EOF
    [tm .BLANK, nt .action_param] rfl h₄ (.inl (by decide +kernel)) rfl
  -- the blank
  obtain ⟨q, hq, hh₄⟩ := hC.next _ 23 1 .EOF (tm .BLANK) [nt .action_param] hh₃ rfl
  have hact : automaton.action grammar.toGrammar (top (f₃ ++ (f₂ ++ (f₁ ++ []))))
      (grammar.kind .BLANK) = some (.shift q) := by
    have hq' : automaton.next (top (f₃ ++ (f₂ ++ (f₁ ++ [])))) (.terminal .BLANK) = some q :=
      hq
    simp only [Automaton.action, grammar, Token.kind, hq']
  have hstop : step grammar automaton
      ⟨(q, grammar.value .BLANK) :: (f₃ ++ (f₂ ++ (f₁ ++ []))), tail⟩ = .inr .rejected := by
    refine step_none (none_of_parameter hh₄ ?_)
    simp only [clean, List.mem_cons, List.not_mem_nil, or_false] at htail
    rcases htail with rfl | rfl
    · exact .inl rfl
    · exact .inr rfl
  exact Steps.runs (hs₁.trans (hs₂.trans (hs₃.tail (step_shift hact)))) (.of_stop hstop)

theorem parse_of_blank {lead core tail : List Token} {c : Command} (hlead : lead ∈ leads)
    (h : Core core c) (hc : c.hasSpec = true) (htail : tail ∈ clean) :
    parse (lead ++ (core ++ .BLANK :: tail)) = .ok none := by
  have hplain : ∀ front w vs, (∀ m, nt m ∈ front → m ∈ plain) → Der front w vs →
      Derives grammar allow .IDENTIFIER front w vs := fun _ _ _ hp hd => allowed_of_plain hp hd _
  cases h with
  | @insert w u keys action s hk hs =>
    have hfront : Der [tm .INSERT_ENTRY, tm .BLANK, tm .IDENTIFIER, tm .BLANK, nt .match_keys,
        tm .BLANK] (.INSERT_ENTRY :: .BLANK :: .IDENTIFIER s :: .BLANK :: (w ++ [.BLANK]))
        [.INSERT_COMMAND {}, .none, .STRING s, .none, .MATCH_KEYS keys, .none] :=
      .token Token.INSERT_ENTRY (.token Token.BLANK (.token (Token.IDENTIFIER s)
        (.token Token.BLANK (der_cons.mpr ⟨w, [.BLANK], _, _, rfl, rfl,
          der_match_keys.mpr ⟨keys, rfl, hk⟩, .token Token.BLANK (.nil _)⟩))))
    have hrun := rejected_of_blank (i := 3) (k := 8) (m := .insert_entry_command) rfl rfl hlead
      ⟨_, _, rfl, by simp [Token.kind], .inl (by decide +kernel)⟩
      (hplain _ _ _ (by simp [nt, tm, plain]) hfront) hs htail
    have := parse_of_runs hrun
    simpa [result] using this
  | @modify u action s x hs =>
    have hfront : Der [tm .MODIFY_ENTRY, tm .BLANK, tm .IDENTIFIER, tm .BLANK, tm .DECIMAL,
        tm .BLANK] [.MODIFY_ENTRY, .BLANK, .IDENTIFIER s, .BLANK, .DECIMAL x, .BLANK]
        [.MODIFY_COMMAND {}, .none, .STRING s, .none, .INTEGER x, .none] :=
      .token Token.MODIFY_ENTRY (.token Token.BLANK (.token (Token.IDENTIFIER s)
        (.token Token.BLANK (.token (Token.DECIMAL x) (.token Token.BLANK (.nil _))))))
    have hrun := rejected_of_blank (i := 4) (k := 9) (m := .modify_entry_command) rfl rfl hlead
      ⟨_, _, rfl, by simp [Token.kind], .inl (by decide +kernel)⟩
      (hplain _ _ _ (by simp [nt, tm, plain]) hfront) hs htail
    have := parse_of_runs hrun
    simpa [result] using this
  | delete s x => cases hc
  | begin_transaction => cases hc
  | end_transaction => cases hc

theorem blank_of_tails {tail : List Token} (h : tail ∈ tails) (hc : tail ∉ clean) :
    ∃ tail' ∈ clean, tail = .BLANK :: tail' := by
  simp only [tails, clean, List.mem_cons, List.not_mem_nil, or_false] at h hc ⊢
  grind

/-- The accepted sentences and their commands. -/
def Accepts (w : List Token) (c : Command) : Prop :=
  ∃ lead ∈ leads, ∃ core, ∃ tail ∈ tails, w = lead ++ (core ++ tail) ∧ Core core c ∧
    (c.hasSpec = false ∨ tail ∈ clean)

/-- A command returned by the parser, in terms of the grammar. -/
theorem parse_eq_iff {ts : List Token} {c : Command} :
    parse ts = .ok (some c) ↔ Accepts ts c := by
  constructor
  · intro h
    obtain ⟨lead, hlead, core, tail, htail, rfl, hcore⟩ :=
      sentence_iff.mp (sentence_of_parse h)
    refine ⟨lead, hlead, core, tail, htail, rfl, hcore, ?_⟩
    by_contra hc
    rw [not_or, Bool.not_eq_false] at hc
    obtain ⟨tail', htail', rfl⟩ := blank_of_tails htail hc.2
    rw [parse_of_blank hlead hcore hc.1 htail'] at h
    cases h
  · rintro ⟨lead, hlead, core, tail, htail, rfl, hcore, hc⟩
    exact parse_of_core hlead hcore htail hc

/-- Every sentence is accepted with its command or rejected; no action throws. -/
theorem parse_of_sentence {ts : List Token} {c : Command} (h : Sentence ts c) :
    parse ts = .ok (some c) ∨ parse ts = .ok none := by
  obtain ⟨lead, hlead, core, tail, htail, rfl, hcore⟩ := sentence_iff.mp h
  by_cases hc : c.hasSpec = false ∨ tail ∈ clean
  · exact .inl (parse_of_core hlead hcore htail hc)
  · rw [not_or, Bool.not_eq_false] at hc
    obtain ⟨tail', htail', rfl⟩ := blank_of_tails htail hc.2
    exact .inr (parse_of_blank hlead hcore hc.1 htail')

end Pfp.Cp
