import Mathlib.Data.List.TakeWhile
import PFPSim.Cp.Boundaries
import PFPSim.Cp.Unambiguity

/-!
# Trailing blanks

The comment of the grammar promises that trailing spaces are insignificant. Blanks behind
a line add one token to it (`scan_append`), and `parse_blanks_iff` says when the parser
still returns the command: when the command does not end in an `action_spec`, or when the
scanner never gets to the blanks.
-/

namespace Pfp.Cp

open Lr Lex

/-! ## Scanning behind a line -/

theorem Munches.comment {r : Rule} {x y rest : Str} (h : Munches rules r x rest)
    (hx : x ≠ []) (hy : Matches .COMMENT (x ++ y)) : r = .COMMENT := by
  obtain ⟨a, u, rfl⟩ := List.exists_cons_of_ne_nil hx
  obtain ⟨w, hw, hne⟩ := hy
  rw [List.cons_append, List.cons.injEq] at hw
  obtain ⟨rfl, rfl⟩ := hw
  obtain ⟨hmatch, hfirst, -⟩ := munches_iff.mp h
  have hcomment : Matches .COMMENT (35 :: u) :=
    ⟨u, rfl, fun c hc => hne c (List.mem_append_left _ hc)⟩
  rcases hmatch.start (by decide) with ⟨-, hb, -⟩ | ⟨rfl, -⟩ | ⟨hr, -⟩ | ⟨-, -, h10⟩
  · exact absurd hb (by decide)
  · exact absurd hcomment (hfirst .COMMENT (by decide))
  · exact hr
  · exact absurd h10 (by decide)

/-- A word that goes on with blanks or newlines is a run of blanks or a comment. -/
theorem blank_boundary {r : Rule} {x y : Str} (h : Matches r (x ++ y)) (hx : x ≠ [])
    (hy : y ≠ []) (hblank : ∀ c ∈ y, isblank c = true ∨ c = 10)
    (hlast : ∀ c, x.getLast? = some c → isblank c = false) : r = .COMMENT := by
  obtain ⟨c, y, rfl⟩ := List.exists_cons_of_ne_nil hy
  have hc : isword c = false ∧ c ≠ 58 := by
    rcases hblank c (by simp) with hb | rfl
    · exact ⟨(not_isword_of_isblank hb).1, (not_isword_of_isblank hb).2.1⟩
    · decide
  rcases boundary h hx hc.1 hc.2 with hr | rfl | ⟨-, rfl⟩
  · exact hr
  · have hget := hlast _ (List.getLast?_eq_getLast_of_ne_nil hx)
    rw [h.2 _ (List.mem_append_left _ (List.getLast_mem hx))] at hget
    cases hget
  · exact absurd (hblank 116 (by simp [ascii])) (by decide)

/-- A comment in front of further text goes on to the next newline. -/
theorem lexes_comment {u : Str} (w : Str) (hu : ∀ c ∈ u, c ≠ 10) :
    ∃ x' l₁, Lexes rules (35 :: u ++ w) ((.COMMENT, x') :: l₁) := by
  have hsplit : 35 :: u ++ w =
      (35 :: (u ++ w.takeWhile (· ≠ 10))) ++ w.dropWhile (· ≠ 10) := by
    simp
  rw [hsplit]
  refine ⟨_, _, .cons (by simp) (munches_iff.mpr ⟨⟨_, rfl, ?_⟩, ?_, ?_⟩) (lexes_line _)⟩
  · intro c hc
    rcases List.mem_append.mp hc with hc | hc
    · exact hu c hc
    · simpa using List.mem_takeWhile_imp hc
  · intro r' hr' hm
    rcases Matches.start hm (by decide) with ⟨-, hb, -⟩ | ⟨rfl, -⟩ | ⟨rfl, -⟩ | ⟨-, -, h10⟩
    · exact absurd hb (by decide)
    · exact absurd hr' (by decide)
    · exact absurd hr' (by decide)
    · exact absurd h10 (by decide)
  · intro r' y z hyz hy hm
    obtain ⟨b, y, rfl⟩ := List.exists_cons_of_ne_nil hy
    have hb : b = 10 := by
      have hhead := List.head?_dropWhile_not (fun c : UInt8 => decide (c ≠ 10)) w
      rw [hyz] at hhead
      simpa using hhead
    rcases Matches.start hm (by decide) with ⟨-, h35, -⟩ | ⟨-, hnil, -⟩ | ⟨-, -, hne⟩ |
      ⟨-, hnil, -⟩
    · exact absurd h35 (by decide)
    · simp at hnil
    · exact hne b (by simp) hb
    · simp at hnil

/-- Blanks behind a text are scanned by themselves, unless the text ends in a comment. -/
theorem lexes_append {s w : Str} {ls lw : List Lexeme} (h : Lexes rules s ls)
    (hw : Lexes rules w lw) (hblank : ∀ c ∈ w, isblank c = true ∨ c = 10)
    (hlast : ∀ c, s.getLast? = some c → isblank c = false) :
    ∃ ls', Lexes rules (s ++ w) ls' ∧ (ls' = ls ++ lw ∨ ∃ l₀ x x' l₁,
      ls = l₀ ++ [(.COMMENT, x)] ∧ ls' = l₀ ++ (.COMMENT, x') :: l₁) := by
  induction h with
  | nil => exact ⟨lw, hw, .inl rfl⟩
  | @cons r x rest ls hx hm tail ih =>
    obtain ⟨hmatch, hfirst, hmax⟩ := munches_iff.mp hm
    by_cases hrest : rest = []
    · subst hrest
      obtain rfl := tail.nil_inv
      rw [List.append_nil] at hlast ⊢
      by_cases hr : r = .COMMENT
      · -- the comment goes on to the end of the line
        subst hr
        obtain ⟨u, rfl, hu⟩ := hmatch
        obtain ⟨x', l₁, hl⟩ := lexes_comment w hu
        exact ⟨_, hl, .inr ⟨[], 35 :: u, x', l₁, rfl, rfl⟩⟩
      · refine ⟨_, .cons hx (munches_iff.mpr ⟨hmatch, hfirst, ?_⟩) hw, .inl rfl⟩
        intro r' y z hyz hy hm'
        have hyw : ∀ c ∈ y, isblank c = true ∨ c = 10 := fun c hc =>
          hblank c (by rw [hyz]; exact List.mem_append_left _ hc)
        have hr' := blank_boundary hm' hx hy hyw hlast
        rw [hr'] at hm'
        exact hr (Munches.comment hm hx hm')
    · have hlast' : ∀ c, rest.getLast? = some c → isblank c = false := by
        intro c hc
        apply hlast c
        rw [List.getLast?_append, hc]
        rfl
      obtain ⟨ls', hls', hcase⟩ := ih hlast'
      refine ⟨(r, x) :: ls', ?_, ?_⟩
      · rw [List.append_assoc]
        refine .cons hx (munches_iff.mpr ⟨hmatch, hfirst, ?_⟩) hls'
        intro r' y z hyz hy hm'
        rcases List.append_eq_append_iff.mp hyz with ⟨u, rfl, hu⟩ | ⟨u, hu, -⟩
        · by_cases hnil : u = []
          · subst hnil
            rw [List.append_nil] at hm'
            exact hmax r' rest [] (by simp) hrest hm'
          · rw [← List.append_assoc] at hm'
            have huw : ∀ c ∈ u, isblank c = true ∨ c = 10 := fun c hc =>
              hblank c (by rw [hu]; exact List.mem_append_left _ hc)
            have hr' := blank_boundary hm' (by simp [hx]) hnil huw hlast
            rw [hr'] at hm'
            obtain ⟨v, hv, hne⟩ := hm'
            obtain ⟨a, t, hat⟩ := List.exists_cons_of_ne_nil hx
            apply hmax .COMMENT rest [] (by simp) hrest
            rw [hat] at hv ⊢
            simp only [List.cons_append, List.cons.injEq] at hv
            obtain ⟨rfl, rfl⟩ := hv
            exact ⟨t ++ rest, rfl, fun c hc => hne c (List.mem_append_left _ hc)⟩
        · exact hmax r' y u hu hy hm'
      · rcases hcase with rfl | ⟨l₀, v, v', l₁, rfl, rfl⟩
        · exact .inl rfl
        · exact .inr ⟨(r, x) :: l₀, v, v', l₁, rfl, rfl⟩

theorem tokens_append {ls : List Lexeme} (h : ∀ l ∈ ls, l.token ≠ none) (lw : List Lexeme) :
    tokens (ls ++ lw) = tokens ls ++ tokens lw := by
  induction ls with
  | nil => rfl
  | cons l ls ih =>
    obtain ⟨t, ht⟩ := Option.ne_none_iff_exists'.mp (h l (by simp))
    simp only [List.cons_append, tokens, ht,
      ih fun l hl => h l (List.mem_cons_of_mem _ hl)]

theorem tokens_append_of_none {ls : List Lexeme} {l : Lexeme} (hl : l ∈ ls)
    (h : l.token = none) (lw : List Lexeme) : tokens (ls ++ lw) = tokens ls := by
  induction ls with
  | nil => cases hl
  | cons l' ls ih =>
    cases ht : l'.token with
    | none => simp only [List.cons_append, tokens, ht]
    | some t =>
      rcases List.mem_cons.mp hl with rfl | hl
      · rw [h] at ht
        cases ht
      · simp only [List.cons_append, tokens, ht, ih hl]

/-- Blanks behind a line add their tokens, unless the scanner stops before. -/
theorem scan_append {s w : Str} {lw : List Lexeme} (hw : Lexes rules w lw)
    (hblank : ∀ c ∈ w, isblank c = true ∨ c = 10)
    (hlast : ∀ c, s.getLast? = some c → isblank c = false)
    (hcomment : (scan s).getLast? ≠ some .COMMENT) :
    ((∀ l ∈ lexemes rules s, Lexeme.token l ≠ none) → scan (s ++ w) = scan s ++ tokens lw) ∧
      ((∃ l ∈ lexemes rules s, Lexeme.token l = none) → scan (s ++ w) = scan s) := by
  obtain ⟨ls', hls', hcase⟩ := lexes_append (lexes_line s) hw hblank hlast
  unfold scan at hcomment ⊢
  rw [lexemes_eq hls']
  rcases hcase with rfl | ⟨l₀, x, x', l₁, hl, rfl⟩
  · exact ⟨fun h => tokens_append h lw, fun ⟨l, hl, hnone⟩ => tokens_append_of_none hl hnone lw⟩
  · rw [hl] at hcomment ⊢
    by_cases hnone : ∃ l ∈ l₀, Lexeme.token l = none
    · obtain ⟨l, hl₀, hl⟩ := hnone
      refine ⟨fun h => absurd hl (h l (List.mem_append_left _ hl₀)), fun _ => ?_⟩
      rw [tokens_append_of_none hl₀ hl, tokens_append_of_none hl₀ hl]
    · push Not at hnone
      rw [tokens_append hnone] at hcomment
      exact absurd (List.getLast?_concat) hcomment

/-! ## The parser behind a line -/

theorem Accepts.last {w : List Token} {c : Command} (h : Accepts w c) :
    w.getLast? ≠ some .COMMENT := by
  obtain ⟨lead, -, core, tail, htail, rfl, hcore, -⟩ := h
  obtain ⟨k, hk, -, -, hne⟩ := hcore.last
  simp only [tails, List.mem_cons, List.not_mem_nil, or_false] at htail
  rcases htail with rfl | rfl | rfl | rfl <;> simp [List.getLast?_append, hk, hne]

/-- A line whose tokens end with a blank or a newline ends with one. -/
theorem blank_of_scan {s : Str} {k : Token} (hall : ∀ l ∈ lexemes rules s, Lexeme.token l ≠ none)
    (hk : (scan s).getLast? = some k) (hkind : k = .BLANK ∨ k = .EOL) :
    ∃ c, s.getLast? = some c ∧ (isblank c = true ∨ c = 10) := by
  have hmap := congrArg List.getLast? (tokens_of_all hall)
  rw [List.getLast?_map, List.getLast?_map, show tokens _ = scan s from rfl, hk] at hmap
  obtain ⟨l, hl, htok⟩ := Option.map_eq_some_iff.mp hmap
  obtain ⟨ls, hls⟩ := List.getLast?_eq_some_iff.mp hl
  have hs := (lexes_line s).flatten_eq
  rw [hls, List.map_append, List.flatten_append] at hs
  have hmatch := (matches_of_mem (List.mem_of_getLast? hl)).1
  obtain ⟨r, x⟩ := l
  have hx : x ≠ [] ∧ ∀ c ∈ x, isblank c = true ∨ c = 10 := by
    cases r with
    | blank => exact ⟨hmatch.1, fun c hc => .inl (hmatch.2 c hc)⟩
    | EOL =>
      rw [show x = [10] from hmatch]
      exact ⟨by simp, fun c hc => .inr (by simpa using hc)⟩
    | DECIMAL =>
      simp only [Lexeme.token, token, Option.map_eq_some_iff] at htok
      obtain ⟨v, -, hv⟩ := htok
      rcases hkind with rfl | rfl <;> cases hv
    | any =>
      obtain ⟨c, rfl, -⟩ := hmatch
      simp only [Lexeme.token, token] at htok
      split at htok
      · cases htok
      · rcases hkind with rfl | rfl <;> cases htok
    | _ => rcases hkind with rfl | rfl <;> cases htok
  refine ⟨x.getLast hx.1, ?_, hx.2 _ (List.getLast_mem hx.1)⟩
  rw [← hs]
  simp [List.getLast?_append, List.getLast?_eq_getLast_of_ne_nil hx.1]

/-- The first token of a command that is not a blank. -/
theorem find_of_core {lead core tail : List Token} {c : Command} (hlead : lead ∈ leads)
    (h : Core core c) : c.hasSpec = false ↔
      (lead ++ (core ++ tail)).find? (· ≠ .BLANK) ≠ some .INSERT_ENTRY ∧
      (lead ++ (core ++ tail)).find? (· ≠ .BLANK) ≠ some .MODIFY_ENTRY := by
  simp only [leads, List.mem_cons, List.not_mem_nil, or_false] at hlead
  rcases hlead with rfl | rfl <;> cases h <;> simp [Command.hasSpec]

/-- **Trailing blanks.** Behind a line that gives a command they are insignificant exactly
when the scanner stops before them or the command is neither an insert nor a modify. -/
theorem parse_blanks_iff {s w : Str} {c : Command}
    (hs : ∀ b, s.getLast? = some b → isblank b = false ∧ b ≠ 10)
    (h : parse_line s = .ok (some c)) (hw : w ≠ []) (hblank : ∀ b ∈ w, isblank b = true) :
    (parse_line (s ++ w) = .ok (some c) ∧ parse_line (s ++ w ++ [10]) = .ok (some c)) ↔
      (∃ l ∈ lexemes rules s, Lexeme.token l = none) ∨
        ((scan s).find? (· ≠ .BLANK) ≠ some .INSERT_ENTRY ∧
          (scan s).find? (· ≠ .BLANK) ≠ some .MODIFY_ENTRY) := by
  have hacc : Accepts (scan s) c := parse_eq_iff.mp h
  have hblankw : Lexes rules w [(.blank, w)] := by
    have hb := lexes_blank hw hblank (by simp) .nil
    rwa [List.append_nil] at hb
  have hblankn : Lexes rules (w ++ [10]) [(.blank, w), (.EOL, [10])] :=
    lexes_blank hw hblank (by simp [isblank]) (lexes_newline .nil)
  have happ := scan_append hblankw (fun b hb => .inl (hblank b hb)) (fun b hb => (hs b hb).1)
    hacc.last
  have happn := scan_append hblankn
    (fun b hb => (List.mem_append.mp hb).imp (hblank b) (by simp)) (fun b hb => (hs b hb).1)
    hacc.last
  rw [← List.append_assoc] at happn
  by_cases hnone : ∃ l ∈ lexemes rules s, Lexeme.token l = none
  · simp only [hnone, true_or, iff_true]
    rw [parse_line, parse_line, happ.2 hnone, happn.2 hnone]
    exact ⟨h, h⟩
  · simp only [hnone, false_or]
    push Not at hnone
    obtain ⟨lead, hlead, core, tail, htail, hscan, hcore, -⟩ := hacc
    -- the line itself has no tail
    obtain rfl : tail = [] := by
      by_contra hne
      have hlast : ∃ k, (scan s).getLast? = some k ∧ (k = .BLANK ∨ k = .EOL) := by
        rw [hscan]
        simp only [tails, List.mem_cons, List.not_mem_nil, or_false] at htail
        rcases htail with rfl | rfl | rfl | rfl
        · exact absurd rfl hne
        all_goals simp [List.getLast?_append]
      obtain ⟨k, hk, hkind⟩ := hlast
      obtain ⟨b, hb, hcase⟩ := blank_of_scan hnone hk hkind
      obtain ⟨h₁, h₂⟩ := hs b hb
      rcases hcase with hb | hb
      · rw [h₁] at hb
        cases hb
      · exact h₂ hb
    rw [hscan, ← find_of_core hlead hcore, parse_line, parse_line, happ.1 hnone,
      happn.1 hnone, hscan, List.append_nil, List.append_assoc, List.append_assoc]
    constructor
    · rintro ⟨hp, -⟩
      by_contra hspec
      rw [Bool.not_eq_false] at hspec
      have hreject := parse_of_blank hlead hcore hspec (show [] ∈ clean by simp [clean])
      rw [show tokens [((.blank, w) : Lexeme)] = [.BLANK] from rfl, hreject] at hp
      cases hp
    · intro hspec
      exact ⟨parse_of_core hlead hcore (by simp [tails, tokens, Lexeme.token, token])
          (.inl hspec),
        parse_of_core hlead hcore (by simp [tails, tokens, Lexeme.token, token]) (.inl hspec)⟩

/-- An insert command whose trailing blank makes it a syntax error. -/
theorem insert_blank_rejected : ∃ c,
    (∀ b, (ascii "insert_entry t 1 a").getLast? = some b → isblank b = false ∧ b ≠ 10) ∧
      parse_line (ascii "insert_entry t 1 a") = .ok (some c) ∧
      parse_line (ascii "insert_entry t 1 a" ++ [32]) = .ok none := by
  have hscan : scan (ascii "insert_entry t 1 a") = [.INSERT_ENTRY, .BLANK, .IDENTIFIER [116],
      .BLANK, .DECIMAL 1, .BLANK, .IDENTIFIER [97]] := by
    decide +kernel
  have hscan' : scan (ascii "insert_entry t 1 a" ++ [32]) = [.INSERT_ENTRY, .BLANK,
      .IDENTIFIER [116], .BLANK, .DECIMAL 1, .BLANK, .IDENTIFIER [97], .BLANK] := by
    decide +kernel
  have hcore := Core.insert [116] (.one (.exact (.raw (.decimal 1)))) (.name [97])
  refine ⟨.InsertCommand ⟨[116], some [.ExactKey (buf 1).reverse], some ⟨[97], []⟩⟩,
    by decide +kernel, ?_, ?_⟩
  · rw [parse_line, hscan]
    simpa using parse_of_core (show [] ∈ leads by simp [leads]) hcore
      (show [] ∈ tails by simp [tails]) (.inr (by simp [clean]))
  · rw [parse_line, hscan']
    simpa using parse_of_blank (show [] ∈ leads by simp [leads]) hcore rfl
      (show [] ∈ clean by simp [clean])

/-- Blanks behind a delete command. -/
theorem parse_blanks_iff_delete : ∃ c,
    (parse_line (ascii "delete_entry t 7" ++ [32, 9]) = .ok (some c) ∧
      parse_line (ascii "delete_entry t 7" ++ [32, 9] ++ [10]) = .ok (some c)) ↔
      (∃ l ∈ lexemes rules (ascii "delete_entry t 7"), Lexeme.token l = none) ∨
        ((scan (ascii "delete_entry t 7")).find? (· ≠ .BLANK) ≠ some .INSERT_ENTRY ∧
          (scan (ascii "delete_entry t 7")).find? (· ≠ .BLANK) ≠ some .MODIFY_ENTRY) := by
  have hscan : scan (ascii "delete_entry t 7") =
      [.DELETE_ENTRY, .BLANK, .IDENTIFIER [116], .BLANK, .DECIMAL 7] := by
    decide +kernel
  refine ⟨.DeleteCommand { table_name := [116], handle := 7 },
    parse_blanks_iff (by decide +kernel) ?_ (by simp) (by decide +kernel)⟩
  rw [parse_line, hscan]
  simpa using parse_of_core (show [] ∈ leads by simp [leads]) (.delete [116] 7)
    (show [] ∈ tails by simp [tails]) (.inl rfl)

end Pfp.Cp
