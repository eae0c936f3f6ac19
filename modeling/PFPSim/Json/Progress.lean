import PFPSim.Json.Syntax
import Mathlib.Data.List.TakeWhile

/-!
# What a token takes from the text

A token is what has been read for it (`scanToken_append`), and every token but the end of
the input takes from the text (`length_input_lt`). So a text has as many characters as the
tokens that are read from it (`length_le_of_reads`).
-/

namespace Json.Lexer

theorem stringEnd_append {state : StringState} {s t s' : List Char}
    (h : stringEnd state s = some (t, s')) : t ++ '"' :: s' = s := by
  induction s generalizing state t with
  | nil =>
    rw [stringEnd] at h
    cases h
  | cons c s ih =>
    rw [stringEnd] at h
    split at h
    · rename_i hquote
      cases h
      rw [hquote.2]
      rfl
    · split at h
      · obtain ⟨r, hr, heq⟩ := Option.map_eq_some_iff.mp h
        cases heq
        rw [List.cons_append, ih hr]
      · cases h

theorem scanString_append (s : List Char) :
    (scanString s).token ++ (scanString s).input = '"' :: s := by
  unfold scanString
  split
  · rename_i h
    have hs := stringEnd_append h
    simp [← hs]
  · rfl

theorem digits_append {front s : List Char} {r : Part} (h : digits front s = some r) :
    r.1 ++ r.2 = front ++ s := by
  unfold digits at h
  split at h
  · cases h
  · cases h
    rw [List.append_assoc, List.takeWhile_append_dropWhile]

theorem fraction_append {s : List Char} {r : Part} (h : fraction s = some r) :
    r.1 ++ r.2 = s := by
  cases s with
  | nil => cases h
  | cons c s =>
    rw [fraction] at h
    split at h
    · exact digits_append h
    · cases h

theorem exponent_append {s : List Char} {r : Part} (h : exponent s = some r) :
    r.1 ++ r.2 = s := by
  cases s with
  | nil => cases h
  | cons c s =>
    rw [exponent.eq_def] at h
    simp only at h
    split at h
    · split at h
      · cases h
      · split at h
        · exact digits_append h
        · exact digits_append h
    · cases h

/-- A part that may be left out. -/
theorem getD_append {part : Option Part} {s : List Char} (h : ∀ r, part = some r → r.1 ++ r.2 = s) :
    (part.getD ([], s)).1 ++ (part.getD ([], s)).2 = s := by
  cases part with
  | none => rfl
  | some r => exact h r rfl

theorem scanRest_append (front s : List Char) :
    (scanRest front s).token ++ (scanRest front s).input = front ++ s := by
  have hf := getD_append fun r => fraction_append (s := s) (r := r)
  have he := getD_append fun r => exponent_append (s := ((fraction s).getD ([], s)).2) (r := r)
  unfold scanRest
  simp only
  rw [List.append_assoc, he, List.append_assoc, hf]

theorem scanNumber_append (sign : List Char) (c : Char) (s : List Char) :
    (scanNumber sign c s).token ++ (scanNumber sign c s).input = sign ++ c :: s := by
  unfold scanNumber
  split
  · rw [scanRest_append, List.append_assoc]
    rfl
  · rw [scanRest_append, List.append_assoc, List.cons_append, List.takeWhile_append_dropWhile]

theorem scanMinus_append (s : List Char) :
    (scanMinus s).token ++ (scanMinus s).input = '-' :: s := by
  cases s with
  | nil => rfl
  | cons c s =>
    rw [scanMinus]
    split
    · exact scanNumber_append _ c s
    · rfl

theorem scanLiteral_append (type : TokenType) (c : Char) (word s : List Char) :
    (scanLiteral type c word s).token ++ (scanLiteral type c word s).input = c :: s := by
  unfold scanLiteral
  split
  · rename_i h
    rw [List.isPrefixOf_iff_prefix, List.prefix_iff_eq_append] at h
    show c :: (word ++ s.drop word.length) = c :: s
    rw [h]
  · rfl

/-- A token and the input behind it are what the token has been read from. -/
theorem scanToken_append (c : Char) (s : List Char) :
    (scanToken c s).token ++ (scanToken c s).input = c :: s := by
  unfold scanToken
  split
  · rfl
  · exact scanString_append s
  · rfl
  · exact scanMinus_append s
  · rfl
  · rfl
  · rfl
  · exact scanLiteral_append _ _ _ s
  · exact scanLiteral_append _ _ _ s
  · exact scanLiteral_append _ _ _ s
  · rfl
  · rfl
  · split
    · exact scanNumber_append _ c s
    · rfl

theorem scanRest_begins (front s : List Char) : front <+: (scanRest front s).token := by
  unfold scanRest
  exact (List.prefix_append _ _).trans (List.prefix_append _ _)

theorem scanNumber_begins (sign : List Char) (c : Char) (s : List Char) :
    sign ++ [c] <+: (scanNumber sign c s).token := by
  unfold scanNumber
  split
  · exact scanRest_begins _ s
  · apply List.IsPrefix.trans _ (scanRest_begins _ _)
    exact (List.prefix_append_right_inj sign).mpr (List.prefix_append [c] _)

/-- A token begins with its first character. -/
theorem scanToken_begins (c : Char) (s : List Char) : [c] <+: (scanToken c s).token := by
  have hliteral : ∀ type c word, [c] <+: (scanLiteral type c word s).token := by
    intro type c word
    unfold scanLiteral
    split
    · exact List.prefix_append [c] word
    · exact List.prefix_rfl
  unfold scanToken
  split
  · exact List.prefix_rfl
  · unfold scanString
    split
    · exact List.prefix_append ['"'] _
    · exact List.prefix_rfl
  · exact List.prefix_rfl
  · unfold scanMinus
    split
    · exact List.prefix_rfl
    · split
      · exact (List.prefix_append ['-'] _).trans (scanNumber_begins _ _ _)
      · exact List.prefix_rfl
  · exact List.prefix_rfl
  · exact List.prefix_rfl
  · exact List.prefix_rfl
  · exact hliteral _ 'f' _
  · exact hliteral _ 'n' _
  · exact hliteral _ 't' _
  · exact List.prefix_rfl
  · exact List.prefix_rfl
  · split
    · exact scanNumber_begins [] c s
    · exact List.prefix_rfl

theorem length_scanToken_lt (c : Char) (s : List Char) :
    (scanToken c s).input.length < (c :: s).length := by
  have hpos : 0 < (scanToken c s).token.length := (scanToken_begins c s).length_le
  have hlength := congrArg List.length (scanToken_append c s)
  rw [List.length_append] at hlength
  omega

theorem length_scanFrom_lt {skip : Nat} {s : List Char}
    (h : (scanFrom skip s).type ≠ .end_of_input) : (scanFrom skip s).input.length < s.length := by
  induction s generalizing skip with
  | nil =>
    cases skip <;> exact absurd rfl h
  | cons c s ih =>
    cases skip with
    | succ skip => exact (ih h).trans (Nat.lt_succ_self _)
    | zero =>
      rw [scanFrom] at h ⊢
      split
      · rw [if_pos ‹_›] at h
        exact (ih h).trans (Nat.lt_succ_self _)
      · rw [if_neg ‹_›] at h
        split
        · rw [if_pos ‹_›] at h
          exact (ih h).trans (Nat.lt_succ_self _)
        · exact length_scanToken_lt c s

/-- Every token but the end of the input takes from the text. -/
theorem length_input_lt {s : List Char} (h : (scan s).type ≠ .end_of_input) :
    (scan s).input.length < s.length := length_scanFrom_lt h

end Json.Lexer

namespace Json

open Lexer Json.Tree

theorem length_le_of_reads {s s' : List Char} {ts : List Lexeme}
    (hts : ∀ t ∈ ts, t.1 ≠ .end_of_input) (h : Reads s ts s') :
    ts.length + s'.length ≤ s.length :=
  h.length_le List.length (fun t => t.1 ≠ .end_of_input)
    (fun _ ht => length_input_lt ht) hts

theorem mem_separator {α : Type} {l : List α} {x : Lexeme} (h : x ∈ separator l) : x = comma := by
  cases l with
  | nil => exact absurd h List.not_mem_nil
  | cons a l => exact List.mem_singleton.mp h

theorem mem_elementTokens {es : List Tree} {x : Lexeme} (h : x ∈ elementTokens es) :
    x = comma ∨ ∃ t ∈ es, x ∈ t.tokens := by
  induction es with
  | nil => exact absurd h List.not_mem_nil
  | cons t es ih =>
    rw [elementTokens, List.mem_append, List.mem_append] at h
    obtain h | h | h := h
    · exact .inr ⟨t, List.mem_cons_self, h⟩
    · exact .inl (mem_separator h)
    · obtain h | ⟨t', ht', h⟩ := ih h
      · exact .inl h
      · exact .inr ⟨t', List.mem_cons_of_mem _ ht', h⟩

theorem mem_memberTokens {ms : List (List Char × Tree)} {x : Lexeme} (h : x ∈ memberTokens ms) :
    x = comma ∨ x = colon ∨ x.1 = .value_string ∨ ∃ m ∈ ms, x ∈ m.2.tokens := by
  induction ms with
  | nil => exact absurd h List.not_mem_nil
  | cons m ms ih =>
    rw [memberTokens, List.mem_cons, List.mem_cons, List.mem_append, List.mem_append] at h
    obtain rfl | h | h | h | h := h
    · exact .inr (.inr (.inl rfl))
    · exact .inr (.inl h)
    · exact .inr (.inr (.inr ⟨m, List.mem_cons_self, h⟩))
    · exact .inl (mem_separator h)
    · obtain h | h | h | ⟨m', hm', h⟩ := ih h
      · exact .inl h
      · exact .inr (.inl h)
      · exact .inr (.inr (.inl h))
      · exact .inr (.inr (.inr ⟨m', List.mem_cons_of_mem _ hm', h⟩))

/-- The end of the input is no token of a value. -/
theorem ne_end_of_mem_tokens (t : Tree) : ∀ x ∈ t.tokens, x.1 ≠ .end_of_input := by
  intro x hx
  induction t with
  | null =>
    cases List.mem_singleton.mp hx
    nofun
  | boolean b =>
    cases b <;> cases List.mem_singleton.mp hx <;> nofun
  | string token =>
    cases List.mem_singleton.mp hx
    nofun
  | number token =>
    cases List.mem_singleton.mp hx
    nofun
  | array es ih =>
    rw [tokens, List.mem_cons, List.mem_append, List.mem_singleton] at hx
    obtain rfl | h | rfl := hx
    · nofun
    · obtain rfl | ⟨t, ht, h⟩ := mem_elementTokens h
      · nofun
      · exact ih t ht h
    · nofun
  | object ms ih =>
    rw [tokens, List.mem_cons, List.mem_append, List.mem_singleton] at hx
    obtain rfl | h | rfl := hx
    · nofun
    · obtain rfl | rfl | h | ⟨m, hm, h⟩ := mem_memberTokens h
      · nofun
      · nofun
      · rw [h]
        nofun
      · exact ih m hm h
    · nofun

/-- The tokens of a value and what is left are no more than the text. -/
theorem length_tokens_le {t : Tree} {s s' : List Char} (h : Reads s t.tokens s') :
    t.tokens.length + s'.length ≤ s.length := length_le_of_reads (ne_end_of_mem_tokens t) h

end Json
