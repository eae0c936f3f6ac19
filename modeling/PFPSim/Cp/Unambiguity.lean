import PFPSim.Cp.Parser

/-!
# Soundness and unambiguity of command parsing

A returned command is the one of a derivation of the whole line, a token sequence derives
at most one command, and a line without a derivation gives a null pointer. The exception
is an action that throws while the line is read: a resize to more than `maxSize` bytes,
which no complete command needs to follow.
-/

namespace Pfp.Cp

open Lr Lex

/-! ## Tokens of a whole line -/

theorem matches_of_mem {line : Str} {l : Lexeme} (h : l ∈ lexemes rules line) :
    Matches l.1 l.2 ∧ ∀ c ∈ l.2, c ∈ line := by
  have hlex := lexes_line line
  generalize lexemes rules line = ls at h hlex
  induction hlex with
  | nil => cases h
  | cons hx hm _ ih =>
    rcases List.mem_cons.mp h with rfl | h
    · exact ⟨(munches_iff.mp hm).1, fun c hc => List.mem_append_left _ hc⟩
    · exact ⟨(ih h).1, fun c hc => List.mem_append_right _ ((ih h).2 c hc)⟩

/-- The lexemes without a token: a decimal that is too big, and a character that is NUL or
negative as a signed `char`. -/
theorem token_eq_none {l : Lexeme} (hl : Matches l.1 l.2) : l.token = none ↔
    (l.1 = .DECIMAL ∧ 2 ^ 64 ≤ digits 10 xvalue l.2) ∨
      (l.1 = .any ∧ ∃ c, l.2 = [c] ∧ (c = 0 ∨ 128 ≤ c)) := by
  obtain ⟨r, x⟩ := l
  cases r with
  | DECIMAL =>
    simp only [Lexeme.token, token, stoull, Option.map_eq_none_iff]
    split <;> simp <;> omega
  | any =>
    obtain ⟨c, rfl, -⟩ := hl
    by_cases hc : c = 0 ∨ 128 ≤ c <;> simp [Lexeme.token, token, hc]
  | _ => simp [Lexeme.token, token]

theorem tokens_of_all {ls : List Lexeme} (h : ∀ l ∈ ls, l.token ≠ none) :
    ls.map Lexeme.token = (tokens ls).map some := by
  induction ls with
  | nil => rfl
  | cons l ls ih =>
    obtain ⟨t, ht⟩ := Option.ne_none_iff_exists'.mp (h l (by simp))
    simp only [List.map_cons, tokens, ht, ih fun l hl => h l (List.mem_cons_of_mem _ hl)]

/-! ## Unambiguity -/

/-- The tokens up to the last one that is not a blank or a newline. -/
def strip (w : List Token) : List Token :=
  (w.reverse.dropWhile fun k => k = .BLANK || k = .EOL).reverse

theorem strip_core {lead core tail : List Token} {c : Command} (h : Core core c)
    (htail : tail ∈ tails) : strip (lead ++ (core ++ tail)) = lead ++ core := by
  obtain ⟨k, hk, hb, he, -⟩ := h.last
  obtain ⟨core, rfl⟩ := List.getLast?_eq_some_iff.mp hk
  simp only [tails, List.mem_cons, List.not_mem_nil, or_false] at htail
  rcases htail with rfl | rfl | rfl | rfl <;> simp [strip, hb, he]

/-- No token sequence derives two different commands. -/
theorem Sentence.unique {w : List Token} {c c' : Command} (h : Sentence w c)
    (h' : Sentence w c') : c = c' := by
  obtain ⟨lead, hlead, core, tail, htail, rfl, hcore⟩ := sentence_iff.mp h
  obtain ⟨lead', hlead', core', tail', htail', hw, hcore'⟩ := sentence_iff.mp h'
  have hstrip := congrArg strip hw
  rw [strip_core hcore htail, strip_core hcore' htail'] at hstrip
  -- without the tail both derivations are what the parser accepts
  have htail₀ : ([] : List Token) ∈ tails := by simp [tails]
  have hclean : ([] : List Token) ∈ clean := by simp [clean]
  have hparse := parse_of_core hlead hcore htail₀ (.inr hclean)
  have hparse' := parse_of_core hlead' hcore' htail₀ (.inr hclean)
  rw [List.append_nil] at hparse hparse'
  rw [hstrip, hparse'] at hparse
  cases hparse
  rfl

/-! ## Exceptions -/

theorem resize_error {b : Bytes} {n : Nat} {e : Exception} (h : resize b n = .error e) :
    maxSize < n := by
  unfold resize at h
  simp only at h
  split at h
  · cases h
  · split at h
    · split at h
      · assumption
      · cases h
    · cases h

/-- Only the resize throws. -/
theorem row_of_error {row : Row} (hrow : row ∈ rows) {us : Values} {e : Exception}
    (h : row.action us = .error e) : row.rhs = [nt .raw_bytes, tm .quote, tm .DECIMAL] ∧
      maxSize < (us.integer 3).toNat := by
  simp only [rows, List.mem_cons, List.not_mem_nil, or_false] at hrow
  repeat' rcases hrow with rfl | hrow
  all_goals try cases h
  refine ⟨rfl, ?_⟩
  change (resize (us.bytes 1) (us.integer 3).toNat).map Value.BYTES = .error e at h
  cases hr : resize (us.bytes 1) (us.integer 3).toNat with
  | error e' => exact resize_error hr
  | ok b => rw [hr] at h; cases h

/-- An exception means that the tokens contain a resize to more than `maxSize` bytes. -/
theorem parse_error {ts : List Token} {e : Exception} (h : parse ts = .error e) :
    ∃ w₁ x w₂, ts = w₁ ++ .char 39 :: .DECIMAL x :: w₂ ∧ maxSize < x.toNat := by
  obtain ⟨o, ho⟩ := parse_total ts
  have hruns : Runs grammar automaton ⟨[], ts⟩ o := ⟨_, ho⟩
  rw [parse_of_runs hruns] at h
  unfold result at h
  split at h
  · cases h
  · cases h
    obtain ⟨i, p, w₁, w₂, w₃, us, hp, rfl, hd, he⟩ := raised_derives sound hruns .EOF
    obtain ⟨row, hrow, rfl⟩ := getElem?_productions.mp hp
    have hact : row.action us = .error e := by
      change executeAction i us = .error e at he
      simpa only [executeAction, hrow] using he
    obtain ⟨hrhs, hlt⟩ := row_of_error (List.mem_of_getElem? hrow) hact
    rw [hrhs] at hd
    obtain ⟨u, _, v, _, rfl, rfl, -, hquote⟩ := der_cons.mp hd
    obtain ⟨_, _, rfl, rfl, hlast⟩ := (der_cons_ofKind (a := .quote) rfl).mp hquote
    obtain ⟨v₃, rfl⟩ := List.length_eq_one_iff.mp hlast.length_eq
    obtain ⟨x, rfl, rfl⟩ := der_DECIMAL.mp hlast
    exact ⟨w₁ ++ u, x, w₃, by simp, hlt⟩
  · cases h

/-! ## Lines of ASCII characters -/

/-- On a line of ASCII characters whose decimals fit, a returned command is the one that
the line derives, and a line without a derivation gives a null pointer or the exception
of a resize to more than `maxSize` bytes. -/
theorem parse_line_sound (line : Str) (hascii : ∀ c ∈ line, 1 ≤ c ∧ c ≤ 127)
    (hfit : ∀ l ∈ lexemes rules line, l.1 = .DECIMAL → digits 10 xvalue l.2 < 2 ^ 64) :
    ∃ ts, (lexemes rules line).map Lexeme.token = ts.map some ∧
      (∀ c, parse_line line = .ok (some c) → Sentence ts c) ∧
      (∀ w c c', Sentence w c → Sentence w c' → c = c') ∧
      ((∀ c, ¬ Sentence ts c) → parse_line line = .ok none ∨
        parse_line line = .error .length_error ∧
          ∃ w₁ x w₂, ts = w₁ ++ .char 39 :: .DECIMAL x :: w₂ ∧ maxSize < x.toNat) := by
  refine ⟨scan line, tokens_of_all fun l hl hnone => ?_, fun c h => sentence_of_parse h,
    fun w c c' h h' => h.unique h', fun hno => ?_⟩
  · obtain ⟨hmatch, hmem⟩ := matches_of_mem hl
    rcases (token_eq_none hmatch).mp hnone with ⟨hdec, hbig⟩ | ⟨-, c, hc, hcase⟩
    · exact absurd (hfit l hl hdec) (by omega)
    · have hbound := hascii c (hmem c (by simp [hc]))
      grind
  · cases hp : parse (scan line) with
    | ok o =>
      cases o with
      | none => exact .inl hp
      | some c => exact absurd (sentence_of_parse hp) (hno c)
    | error e =>
      cases e
      exact .inr ⟨hp, parse_error hp⟩

/-- A line whose tokens fit and that is no sentence, on which the parser throws. -/
theorem parse_line_throws :
    (∀ c ∈ ascii "insert_entry t 1'9223372036854775808 ", 1 ≤ c ∧ c ≤ 127) ∧
      (∀ l ∈ lexemes rules (ascii "insert_entry t 1'9223372036854775808 "),
        l.1 = .DECIMAL → digits 10 xvalue l.2 < 2 ^ 64) ∧
      (∀ c, ¬ Sentence (scan (ascii "insert_entry t 1'9223372036854775808 ")) c) ∧
      parse_line (ascii "insert_entry t 1'9223372036854775808 ") ≠ .ok none := by
  have hthrow : parse_line (ascii "insert_entry t 1'9223372036854775808 ") =
      .error .length_error := by
    decide +kernel
  refine ⟨by decide +kernel, by decide +kernel, fun c hc => ?_, by rw [hthrow]; simp⟩
  rcases parse_of_sentence hc with h | h <;> rw [parse_line, h] at hthrow <;> cases hthrow

/-- A delete command is a line of this kind. -/
theorem parse_line_sound_delete : ∃ ts : List Token,
    (lexemes rules (ascii "delete_entry t 7")).map Lexeme.token = ts.map some ∧
      (∀ c, parse_line (ascii "delete_entry t 7") = .ok (some c) → Sentence ts c) ∧
      (∀ w c c', Sentence w c → Sentence w c' → c = c') ∧
      ((∀ c, ¬ Sentence ts c) → parse_line (ascii "delete_entry t 7") = .ok none ∨
        parse_line (ascii "delete_entry t 7") = .error .length_error ∧
          ∃ w₁ x w₂, ts = w₁ ++ .char 39 :: .DECIMAL x :: w₂ ∧ maxSize < x.toNat) :=
  parse_line_sound (ascii "delete_entry t 7") (by decide +kernel) (by decide +kernel)

end Pfp.Cp
