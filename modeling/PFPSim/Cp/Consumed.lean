import PFPSim.Cp.Unambiguity

/-!
# Lines that are read only in part

The scanner ends the input of the parser at a lexeme without a token. Where the text in
front of it is a complete command the parser returns that command, and does not see the
rest of the line (`consumed_iff`).
-/

namespace Pfp.Cp

open Lr Lex

/-- The lexemes up to the first one without a token. -/
theorem split_of_none {ls : List Lexeme} (h : ∃ l ∈ ls, Lexeme.token l = none) :
    ∃ front l back, ls = front ++ l :: back ∧ (∀ p ∈ front, Lexeme.token p ≠ none) ∧
      l.token = none := by
  induction ls with
  | nil => simp at h
  | cons l ls ih =>
    cases ht : l.token with
    | none => exact ⟨[], l, ls, rfl, by simp, ht⟩
    | some t =>
      obtain ⟨l', hl', hnone⟩ := h
      have hmem : l' ∈ ls := by
        rcases List.mem_cons.mp hl' with rfl | hmem
        · rw [hnone] at ht
          cases ht
        · exact hmem
      obtain ⟨front, k, back, rfl, hfront, hk⟩ := ih ⟨l', hmem, hnone⟩
      refine ⟨l :: front, k, back, rfl, ?_, hk⟩
      rintro p (_ | ⟨_, hp⟩)
      · rw [ht]
        simp
      · exact hfront p hp

theorem tokens_split {front : List Lexeme} (back : List Lexeme) {l : Lexeme}
    (h : ∀ p ∈ front, Lexeme.token p ≠ none) (hl : l.token = none) :
    tokens (front ++ l :: back) = tokens front ∧ remaining (front ++ l :: back) = back := by
  induction front with
  | nil => simp [tokens, remaining, hl]
  | cons p front ih =>
    obtain ⟨t, ht⟩ := Option.ne_none_iff_exists'.mp (h p (by simp))
    obtain ⟨h₁, h₂⟩ := ih fun q hq => h q (List.mem_cons_of_mem _ hq)
    simp only [List.cons_append, tokens, remaining, ht, h₁, h₂, and_self]

theorem remaining_of_all {ls : List Lexeme} (h : ∀ l ∈ ls, l.token ≠ none) :
    remaining ls = [] := by
  induction ls with
  | nil => rfl
  | cons l ls ih =>
    obtain ⟨t, ht⟩ := Option.ne_none_iff_exists'.mp (h l (by simp))
    simp only [remaining, ht, ih fun l hl => h l (List.mem_cons_of_mem _ hl)]

theorem lexeme_ne_nil {line : Str} {l : Lexeme} (h : l ∈ lexemes rules line) : l.2 ≠ [] := by
  have hlex := lexes_line line
  generalize lexemes rules line = ls at h hlex
  induction hlex with
  | nil => cases h
  | cons hx _ _ ih =>
    rcases List.mem_cons.mp h with rfl | h
    · exact hx
    · exact ih h

/-- A decimal literal of `2 ^ 64` or more. -/
def TooBig (l : Lexeme) : Prop := l.1 = .DECIMAL ∧ 2 ^ 64 ≤ digits 10 xvalue l.2

/-- **A command that is returned accounts for the whole line**, with no decimal literal
that is too big, exactly on the lines without a complete command in front of a lexeme that
ends the input early: one with text behind it, or a decimal. -/
theorem consumed_iff (line : Str) :
    (∀ c, parse_line line = .ok (some c) →
      unread line = [] ∧ ∀ l ∈ lexemes rules line, ¬ TooBig l) ↔
    ¬ ∃ front l back, lexemes rules line = front ++ l :: back ∧
      (∀ p ∈ front, Lexeme.token p ≠ none) ∧ Lexeme.token l = none ∧
      (∃ c, Accepts (tokens front) c) ∧ (back ≠ [] ∨ l.1 = .DECIMAL) := by
  constructor
  · rintro h ⟨front, l, back, hls, hfront, hl, ⟨c, hc⟩, hcase⟩
    obtain ⟨htok, hrem⟩ := tokens_split back hfront hl
    have hp : parse_line line = .ok (some c) := by
      rw [parse_line, scan, hls, htok]
      exact parse_eq_iff.mpr hc
    obtain ⟨hunread, hbig⟩ := h c hp
    rcases hcase with hback | hdec
    · -- the lexemes behind `l` have characters
      obtain ⟨l', back, rfl⟩ := List.exists_cons_of_ne_nil hback
      have hne : l'.2 ≠ [] := lexeme_ne_nil (show _ ∈ lexemes rules line by rw [hls]; simp)
      rw [unread, hls, hrem] at hunread
      simp only [List.map_cons, List.flatten_cons, List.append_eq_nil_iff] at hunread
      exact hne hunread.1
    · have hmem : l ∈ lexemes rules line := by rw [hls]; simp
      rcases (token_eq_none (matches_of_mem hmem).1).mp hl with hbig' | ⟨hany, -⟩
      · exact hbig l hmem hbig'
      · rw [hdec] at hany
        cases hany
  · intro h c hp
    by_cases hnone : ∃ l ∈ lexemes rules line, Lexeme.token l = none
    · obtain ⟨front, l, back, hls, hfront, hl⟩ := split_of_none hnone
      obtain ⟨htok, hrem⟩ := tokens_split back hfront hl
      have hacc : Accepts (tokens front) c := by
        rw [parse_line, scan, hls, htok] at hp
        exact parse_eq_iff.mp hp
      have hcase : back = [] ∧ l.1 ≠ .DECIMAL := by
        by_contra hcase
        rw [not_and_or, not_not] at hcase
        exact h ⟨front, l, back, hls, hfront, hl, ⟨c, hacc⟩, hcase⟩
      obtain ⟨rfl, hdec⟩ := hcase
      refine ⟨by rw [unread, hls, hrem]; rfl, fun l' hl' hbig => ?_⟩
      have hnone' := (token_eq_none (matches_of_mem hl').1).mpr (.inl hbig)
      rw [hls] at hl'
      rcases List.mem_append.mp hl' with hmem | hmem
      · exact hfront l' hmem hnone'
      · rw [List.mem_singleton.mp hmem] at hbig
        exact hdec hbig.1
    · push Not at hnone
      refine ⟨by rw [unread, remaining_of_all hnone]; rfl, fun l hl hbig => ?_⟩
      exact hnone l hl ((token_eq_none (matches_of_mem hl).1).mpr (.inl hbig))

/-- A line with a decimal literal of `2 ^ 64` that is accepted. -/
theorem too_big_accepted : ∃ c,
    parse_line (ascii "delete_entry t 7 18446744073709551616") = .ok (some c) ∧
      ∃ l ∈ lexemes rules (ascii "delete_entry t 7 18446744073709551616"), TooBig l := by
  have hls : lexemes rules (ascii "delete_entry t 7 18446744073709551616") =
      [(.delete_entry, ascii "delete_entry"), (.blank, [32]), (.IDENTIFIER, [116]),
        (.blank, [32]), (.DECIMAL, [55]), (.blank, [32]),
        (.DECIMAL, ascii "18446744073709551616")] := by
    decide +kernel
  refine ⟨.DeleteCommand { table_name := [116], handle := 7 }, ?_,
    (.DECIMAL, ascii "18446744073709551616"), by rw [hls]; simp, rfl, by decide +kernel⟩
  have hscan : scan (ascii "delete_entry t 7 18446744073709551616") =
      [.DELETE_ENTRY, .BLANK, .IDENTIFIER [116], .BLANK, .DECIMAL 7, .BLANK] := by
    rw [scan, hls]
    decide +kernel
  rw [parse_line, hscan]
  simpa using parse_of_core (show [] ∈ leads by simp [leads])
    (.delete [116] 7) (show [.BLANK] ∈ tails by simp [tails]) (.inl rfl)

end Pfp.Cp
