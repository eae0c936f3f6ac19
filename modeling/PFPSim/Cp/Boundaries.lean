import PFPSim.Cp.Tokens

/-!
# Where a lexeme ends

The words of most rules consist of word characters and colons. A longest match therefore
ends in front of any other character (`boundary`), except for the two phrases with a
blank in them, for comments and for runs of blanks. `lexes_word`, `lexes_blank`,
`lexes_char` and `lexes_newline` put a lexeme in front of a text that has been scanned.
-/

namespace Pfp.Cp

open Lex

/-- The rules whose words consist of word characters and colons. -/
def wordRules : List Rule :=
  [.insert_entry, .modify_entry, .delete_entry, .DECIMAL, .HEXADECIMAL, .IDENTIFIER]

theorem isword_of_isdigit {c : UInt8} (h : isdigit c = true) : isword c = true := by
  simp [isword, h]

theorem isword_of_isxdigit {c : UInt8} (h : isxdigit c = true) : isword c = true := by
  simp only [isxdigit, isword, isdigit, isalpha, Bool.or_eq_true, Bool.and_eq_true,
    decide_eq_true_eq] at h ⊢
  grind

theorem isword_of_isname {c : UInt8} (h : isname c = true) : isword c = true := by
  simp only [isname, isword, Bool.or_eq_true] at h ⊢
  tauto

theorem isblank_iff {c : UInt8} : isblank c = true ↔ c = 32 ∨ c = 9 := by
  simp [isblank]

theorem not_isword_of_isblank {c : UInt8} (h : isblank c = true) :
    isword c = false ∧ c ≠ 58 ∧ c ≠ 35 ∧ c ≠ 10 := by
  rcases isblank_iff.mp h with rfl | rfl <;> decide

theorem Matches.chars {r : Rule} {x : Str} (h : Matches r x) (hr : r ∈ wordRules) :
    ∀ c ∈ x, isword c = true ∨ c = 58 := by
  simp only [wordRules, List.mem_cons, List.not_mem_nil, or_false] at hr
  rcases hr with rfl | rfl | rfl | rfl | rfl | rfl
  · rw [show x = ascii "insert_entry" from h]
    decide +kernel
  · rw [show x = ascii "modify_entry" from h]
    decide +kernel
  · rw [show x = ascii "delete_entry" from h]
    decide +kernel
  · exact fun c hc => .inl (isword_of_isdigit (h.2 c hc))
  · obtain ⟨a, b, ps, rfl, ha, hb, -, hps⟩ := h
    intro c hc
    simp only [List.mem_cons, List.mem_flatMap, List.not_mem_nil, or_false] at hc
    rcases hc with rfl | rfl | ⟨p, hp, rfl | rfl | rfl⟩
    · exact .inl (isword_of_isxdigit ha)
    · exact .inl (isword_of_isxdigit hb)
    · exact .inr rfl
    · exact .inl (isword_of_isxdigit (hps p hp).1)
    · exact .inl (isword_of_isxdigit (hps p hp).2)
  · obtain ⟨a, y, rfl, ha, hy⟩ := h
    intro c hc
    rcases List.mem_cons.mp hc with rfl | hc
    · exact .inl (isword_of_isname ha)
    · exact .inl (hy c hc)

theorem Matches.head {r : Rule} {x : Str} (h : Matches r x) (hr : r ∈ wordRules) :
    ∃ a y, x = a :: y ∧ isword a = true := by
  simp only [wordRules, List.mem_cons, List.not_mem_nil, or_false] at hr
  rcases hr with rfl | rfl | rfl | rfl | rfl | rfl
  · exact ⟨_, _, h, by decide⟩
  · exact ⟨_, _, h, by decide⟩
  · exact ⟨_, _, h, by decide⟩
  · cases x with
    | nil => exact absurd rfl h.1
    | cons a y => exact ⟨a, y, rfl, isword_of_isdigit (h.2 a (by simp))⟩
  · obtain ⟨a, b, ps, rfl, ha, -⟩ := h
    exact ⟨a, _, rfl, isword_of_isxdigit ha⟩
  · obtain ⟨a, y, rfl, ha, -⟩ := h
    exact ⟨a, y, rfl, isword_of_isname ha⟩

/-- The two words with a blank. -/
theorem phrase_split {x y : Str} {c : UInt8} (hc : isword c = false)
    (h : x ++ c :: y = ascii "begin transaction" ∨ x ++ c :: y = ascii "end transaction") :
    (x = ascii "begin" ∨ x = ascii "end") ∧ y = ascii "transaction" := by
  have hlen : x.length < 17 := by
    rcases h with h | h <;> have := congrArg List.length h <;>
      simp only [List.length_append, List.length_cons] at this <;>
      simp [ascii] at this <;> omega
  have htake : x = (x ++ c :: y).take x.length := by simp
  have hdrop : c :: y = (x ++ c :: y).drop x.length := by simp
  generalize x.length = n at hlen htake hdrop
  rcases h with h | h <;> rw [h] at htake hdrop <;> subst htake <;> interval_cases n <;>
    first
    | exact ⟨.inl rfl, (List.cons.inj hdrop).2⟩
    | exact ⟨.inr rfl, (List.cons.inj hdrop).2⟩
    | cases (List.cons.inj hdrop).1
      exact absurd hc (by decide)
    | cases hdrop

/-- A word that goes on with a character outside of words and colons. -/
theorem boundary {r : Rule} {x y : Str} {c : UInt8} (h : Matches r (x ++ c :: y))
    (hx : x ≠ []) (hc : isword c = false) (hc' : c ≠ 58) :
    r = .COMMENT ∨ r = .blank ∨
      ((x = ascii "begin" ∨ x = ascii "end") ∧ y = ascii "transaction") := by
  have hmem : c ∈ x ++ c :: y := by simp
  have hlen : 2 ≤ (x ++ c :: y).length := by
    have := List.length_pos_iff.mpr hx
    rw [List.length_append, List.length_cons]
    omega
  have hword : r ∈ wordRules → False := fun hr =>
    (h.chars hr c hmem).elim (fun hw => by rw [hc] at hw; cases hw) hc'
  cases r with
  | COMMENT => exact .inl rfl
  | blank => exact .inr (.inl rfl)
  | begin_transaction => exact .inr (.inr (phrase_split hc (.inl h)))
  | end_transaction => exact .inr (.inr (phrase_split hc (.inr h)))
  | EOL =>
    rw [show x ++ c :: y = [10] from h] at hlen
    exact absurd hlen (by decide)
  | any =>
    obtain ⟨b, hb, -⟩ := h
    rw [hb] at hlen
    exact absurd hlen (by simp)
  | _ => exact (hword (by simp [wordRules])).elim

/-! ## Lexemes in front of a scanned text -/

/-- The text `rest` ends the word `x`. -/
def Ends (x rest : Str) : Prop :=
  rest = [] ∨ ∃ c z, rest = c :: z ∧ isword c = false ∧ c ≠ 58 ∧
    (z.head? ≠ some 116 ∨ x ≠ ascii "begin" ∧ x ≠ ascii "end")

theorem lexes_word {r : Rule} {x rest : Str} {ls : List Lexeme} (hx : Matches r x)
    (hfirst : ∀ r' : Rule, r'.ctorIdx < r.ctorIdx → ¬ Matches r' x)
    (hhead : ∃ a y, x = a :: y ∧ isword a = true) (hrest : Ends x rest)
    (h : Lexes rules rest ls) : Lexes rules (x ++ rest) ((r, x) :: ls) := by
  obtain ⟨a, u, rfl, ha⟩ := hhead
  refine .cons (by simp) (munches_iff.mpr ⟨hx, hfirst, ?_⟩) h
  intro r' y z hyz hy hmatch
  rcases hrest with rfl | ⟨c, v, rfl, hc, hc', hphrase⟩
  · exact hy (List.append_eq_nil_iff.mp hyz.symm).1
  · obtain ⟨y, rfl⟩ : ∃ y', y = c :: y' := by
      cases y with
      | nil => exact absurd rfl hy
      | cons b y => exact ⟨y, by simp at hyz; rw [hyz.1]⟩
    rcases boundary hmatch (by simp) hc hc' with rfl | rfl | ⟨hx', rfl⟩
    · obtain ⟨w, hw, -⟩ := hmatch
      cases hw
      exact absurd ha (by decide)
    · have hblank := hmatch.2 a (by simp)
      rw [(not_isword_of_isblank hblank).1] at ha
      cases ha
    · rw [List.cons_append, List.cons.injEq] at hyz
      rcases hphrase with hhead | ⟨hb, he⟩
      · exact hhead (by rw [hyz.2]; rfl)
      · exact hx'.elim hb he

/-- The words that begin with a character outside of words. -/
theorem Matches.start {r : Rule} {c : UInt8} {y : Str} (h : Matches r (c :: y))
    (hc : isword c = false) :
    (r = .blank ∧ isblank c = true ∧ ∀ b ∈ y, isblank b = true) ∨
      (r = .any ∧ y = [] ∧ c ≠ 10) ∨ (r = .COMMENT ∧ c = 35 ∧ ∀ b ∈ y, b ≠ 10) ∨
      (r = .EOL ∧ y = [] ∧ c = 10) := by
  cases r with
  | blank => exact .inl ⟨rfl, h.2 c (by simp), fun b hb => h.2 b (by simp [hb])⟩
  | any =>
    obtain ⟨b, hb, hne⟩ := h
    cases hb
    exact .inr (.inl ⟨rfl, rfl, hne⟩)
  | COMMENT =>
    obtain ⟨w, hw, hne⟩ := h
    cases hw
    exact .inr (.inr (.inl ⟨rfl, rfl, hne⟩))
  | EOL =>
    cases h
    exact .inr (.inr (.inr ⟨rfl, rfl, rfl⟩))
  | begin_transaction =>
    cases (List.cons.inj h).1
    exact absurd hc (by decide)
  | end_transaction =>
    cases (List.cons.inj h).1
    exact absurd hc (by decide)
  | _ =>
    obtain ⟨b, w, hb, hw⟩ := h.head (by simp [wordRules])
    cases hb
    rw [hc] at hw
    cases hw

theorem lexes_blank {x rest : Str} {ls : List Lexeme} (hx : x ≠ [])
    (hblank : ∀ c ∈ x, isblank c = true) (hrest : ∀ c, rest.head? = some c → isblank c = false)
    (h : Lexes rules rest ls) : Lexes rules (x ++ rest) ((.blank, x) :: ls) := by
  obtain ⟨a, u, rfl⟩ := List.exists_cons_of_ne_nil hx
  obtain ⟨ha, -, ha35, ha10⟩ := not_isword_of_isblank (hblank a (by simp))
  refine .cons hx (munches_iff.mpr ⟨⟨hx, hblank⟩, fun r' hr' hm => ?_, ?_⟩) h
  · rcases Matches.start hm ha with ⟨rfl, -⟩ | ⟨rfl, -⟩ | ⟨-, h35, -⟩ | ⟨-, -, h10⟩
    · exact absurd hr' (by decide)
    · exact absurd hr' (by decide)
    · exact ha35 h35
    · exact ha10 h10
  · intro r' y z hyz hy hm
    obtain ⟨b, y, rfl⟩ := List.exists_cons_of_ne_nil hy
    rcases Matches.start hm ha with ⟨-, -, hall⟩ | ⟨-, hnil, -⟩ | ⟨-, h35, -⟩ | ⟨-, hnil, -⟩
    · have hb := hall b (by simp)
      rw [hrest b (by rw [hyz]; rfl)] at hb
      cases hb
    · simp at hnil
    · exact ha35 h35
    · simp at hnil

/-- A character that begins no longer word. -/
theorem lexes_char {c : UInt8} {rest : Str} {ls : List Lexeme} (hc : isword c = false)
    (hother : c ≠ 35 ∧ c ≠ 10 ∧ isblank c = false) (h : Lexes rules rest ls) :
    Lexes rules (c :: rest) ((.any, [c]) :: ls) := by
  have hstart : ∀ r y, Matches r (c :: y) → r = .any ∧ y = [] := by
    intro r y hm
    rcases hm.start hc with ⟨-, hb, -⟩ | ⟨hr, hy, -⟩ | ⟨-, h35, -⟩ | ⟨-, -, h10⟩
    · rw [hother.2.2] at hb
      cases hb
    · exact ⟨hr, hy⟩
    · exact absurd h35 hother.1
    · exact absurd h10 hother.2.1
  refine .cons (x := [c]) (by simp) (munches_iff.mpr ⟨⟨c, rfl, hother.2.1⟩,
    fun r' hr' hm => ?_, ?_⟩) h
  · rw [(hstart r' [] hm).1] at hr'
    exact absurd hr' (by decide)
  · intro r' y z _ hy hm
    exact hy (hstart r' y hm).2

theorem lexes_newline {rest : Str} {ls : List Lexeme} (h : Lexes rules rest ls) :
    Lexes rules (10 :: rest) ((.EOL, [10]) :: ls) := by
  have hstart : ∀ r y, Matches r (10 :: y) → r = .EOL ∧ y = [] := by
    intro r y hm
    rcases hm.start (by decide) with ⟨-, hb, -⟩ | ⟨-, -, hne⟩ | ⟨-, h35, -⟩ | ⟨hr, hy, -⟩
    · exact absurd hb (by decide)
    · exact absurd rfl hne
    · exact absurd h35 (by decide)
    · exact ⟨hr, hy⟩
  refine .cons (x := [10]) (by simp) (munches_iff.mpr ⟨rfl, fun r' hr' hm => ?_, ?_⟩) h
  · rw [(hstart r' [] hm).1] at hr'
    exact absurd hr' (by decide)
  · intro r' y z _ hy hm
    exact hy (hstart r' y hm).2

end Pfp.Cp
