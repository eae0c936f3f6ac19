import PFPSim.Json.Accepted

/-!
# What the parser throws

The steps of `parse` suffice, and whatever it throws is an `invalid_argument`
(`parse_throws`): no escape has a code point that is out of range.
-/

namespace Json

open Lexer Json.Tree

/-- Whatever is thrown is an `invalid_argument`. -/
def Throws {α : Type} (x : Except Exception α) : Prop :=
  ∀ e, x = .error e → ∃ what, e = .invalid_argument what

namespace Throws

variable {α β : Type}

theorem ok (a : α) : Throws (.ok a : Except Exception α) := fun e h => by cases h

theorem error (what : String) :
    Throws (.error (.invalid_argument what) : Except Exception α) := by
  intro e h
  cases h
  exact ⟨what, rfl⟩

theorem bind {x : Except Exception α} {f : α → Except Exception β} (hx : Throws x)
    (hf : ∀ a, x = .ok a → Throws (f a)) : Throws (x >>= f) := by
  intro e h
  cases hxe : x with
  | error e' =>
    rw [hxe] at h
    cases h
    exact hx e hxe
  | ok a =>
    rw [hxe] at h
    exact hf a hxe e h

theorem map {x : Except Exception α} {f : α → β} (hx : Throws x) : Throws (x.map f) := by
  cases hxe : x with
  | error e =>
    obtain ⟨what, rfl⟩ := hx e hxe
    exact error what
  | ok a => exact ok (f a)

end Throws

theorem xvalue_lt {c : Char} (h : isxdigit c = true) : xvalue c < 16 := by
  rw [isxdigit_iff] at h
  unfold xvalue
  split
  · omega
  · split
    · omega
    · omega

theorem foldl_xvalue_lt (ds : List Char) (h : ∀ c ∈ ds, isxdigit c = true) (n : Nat) :
    ds.foldl (fun n c => 16 * n + xvalue c) n < 16 ^ ds.length * (n + 1) := by
  induction ds generalizing n with
  | nil => simp
  | cons c ds ih =>
    obtain ⟨hc, hds⟩ := List.forall_mem_cons.mp h
    have hlt := xvalue_lt hc
    have hle : 16 ^ ds.length * (16 * n + xvalue c + 1) ≤ 16 ^ ds.length * (16 * (n + 1)) :=
      Nat.mul_le_mul_left _ (by omega)
    have hih := ih hds (16 * n + xvalue c)
    rw [List.foldl_cons, List.length_cons, Nat.pow_succ, Nat.mul_assoc]
    omega

/-- Four digits are a number of 16 bits. -/
theorem strtoul_lt (s : List Char) : strtoul (s.take 4) < 0x10000 := by
  have hdigits : ∀ c ∈ (s.take 4).takeWhile isxdigit, isxdigit c = true :=
    fun c hc => List.mem_takeWhile_imp hc
  have hlength : ((s.take 4).takeWhile isxdigit).length ≤ 4 :=
    (List.takeWhile_prefix _).length_le.trans (List.length_take_le 4 s)
  have hlt := foldl_xvalue_lt _ hdigits 0
  have hpow : 16 ^ ((s.take 4).takeWhile isxdigit).length ≤ 16 ^ 4 :=
    Nat.pow_le_pow_right (by decide) hlength
  unfold strtoul
  omega

theorem encode_throws {codepoint : Nat} (h : codepoint ≤ 0x10FFFF) :
    Throws (encode codepoint) := by
  rw [encode, if_pos h]
  split
  · exact .ok _
  · split
    · exact .ok _
    · split
      · exact .ok _
      · exact .ok _

theorem to_unicode_throws {codepoint1 codepoint2 : Nat} (h : codepoint1 < 0x10000) :
    Throws (to_unicode codepoint1 codepoint2) := by
  unfold to_unicode
  split
  · split
    · rename_i hhigh hlow
      apply encode_throws
      rw [Nat.shiftLeft_eq]
      omega
    · exact .error _
  · exact encode_throws (by omega)

theorem unicodeEscape_throws (s : List Char) : Throws (unicodeEscape s) := by
  simp only [unicodeEscape]
  split
  · split
    · exact (to_unicode_throws (strtoul_lt s)).bind fun text _ => .ok _
    · exact .error _
  · exact (to_unicode_throws (strtoul_lt s)).bind fun text _ => .ok _

theorem escapeValue_throws (c : Char) (s : List Char) : Throws (escapeValue c s) := by
  unfold escapeValue
  split
  case h_9 => exact unicodeEscape_throws s
  all_goals exact .ok _

theorem unescape_throws (skip : Nat) (s : List Char) : Throws (unescape skip s) := by
  induction s generalizing skip with
  | nil => cases skip <;> exact .ok _
  | cons c s ih =>
    cases skip with
    | succ skip =>
      rw [unescape.eq_def]
      exact ih skip
    | zero =>
      by_cases hc : c = '\\'
      · subst hc
        cases s with
        | nil => exact .ok _
        | cons c s =>
          rw [unescape_escape]
          exact (escapeValue_throws c s).bind fun r _ => (ih r.2).bind fun rest _ => .ok _
      · rw [unescape_char hc]
        exact (ih 0).bind fun rest _ => .ok _

/-! ## The parser -/

theorem expect_throws (p : Scanned) (t : TokenType) : Throws (p.expect t) := by
  unfold Scanned.expect
  split
  · exact .error _
  · exact .ok ()

theorem unexpect_throws (p : Scanned) (t : TokenType) : Throws (p.unexpect t) := by
  unfold Scanned.unexpect
  split
  · exact .error _
  · exact .ok ()

theorem get_string_throws (p : Scanned) : Throws p.get_string := (unescape_throws 0 _).map

variable {F : Type} {floats : Floats F} {fuel : Nat}

theorem get_number_throws (p : Scanned) : Throws (p.get_number floats) := by
  unfold Scanned.get_number Lexer.get_number
  split
  · exact .ok _
  · split
    · exact .error _
    · exact .ok _

/-- With enough steps for the text in front of them, the parser's calls throw only that. A
call for a value has the token `scan s`, the loops have it behind a comma. -/
structure Steps (floats : Floats F) (fuel : Nat) : Prop where
  value : ∀ s, 2 * s.length + 1 ≤ fuel → Throws (parse_internal floats fuel (scan s))
  members : ∀ p s result, p.next = scan s → 2 * s.length + 2 ≤ fuel →
    Throws (parse_members floats fuel p result)
  elements : ∀ p s result, p.next = scan s → 2 * s.length + 2 ≤ fuel →
    Throws (parse_elements floats fuel p result)

/-- A value takes at least one token. -/
theorem length_lt_of_value {s : List Char} {v : Value F} {q : Scanned}
    (h : parse_internal floats fuel (scan s) = .ok (v, q)) :
    ∃ s', q = scan s' ∧ s'.length < s.length := by
  obtain ⟨t, s', hreads, -, rfl⟩ := (sound floats fuel).value s v q h
  have hle := length_tokens_le hreads
  have hpos := length_tokens_pos t
  exact ⟨s', rfl, by omega⟩

/-- The loops go on behind a comma. -/
theorem length_lt_of_comma {s : List Char} (h : (scan s).type = .value_separator) :
    (scan s).next = scan (scan s).input ∧ (scan s).input.length < s.length := by
  constructor
  · rw [Scanned.next, if_pos h]
    rfl
  · exact length_input_lt (by rw [h]; decide)

theorem Steps.elements_step (h : Steps floats fuel) {p : Scanned} {s : List Char}
    {result : List (Value F)} (hp : p.next = scan s) (hfuel : 2 * s.length + 2 ≤ fuel + 1) :
    Throws (parse_elements floats (fuel + 1) p result) := by
  rw [parse_elements, hp]
  refine (h.value s (by omega)).bind ?_
  rintro ⟨v, q⟩ hvalue
  obtain ⟨s', rfl, hlt⟩ := length_lt_of_value hvalue
  simp only
  split
  · rename_i hcomma
    obtain ⟨hnext, hlt'⟩ := length_lt_of_comma hcomma
    exact h.elements _ _ _ hnext (by omega)
  · exact .ok _

theorem Steps.members_step (h : Steps floats fuel) {p : Scanned} {s : List Char}
    {result : Members F} (hp : p.next = scan s) (hfuel : 2 * s.length + 2 ≤ fuel + 1) :
    Throws (parse_members floats (fuel + 1) p result) := by
  rw [parse_members, hp]
  refine (expect_throws _ _).bind fun _ hstring => (get_string_throws _).bind fun key _ =>
    (expect_throws _ _).bind fun _ hcolon => ?_
  have hkey : (scan s).input.length < s.length :=
    length_input_lt (by rw [expect_eq_ok hstring]; decide)
  have hname : (scan s).get_token.input.length < (scan s).input.length :=
    length_input_lt (by rw [show (scan (scan s).input).type = _ from expect_eq_ok hcolon]; decide)
  refine (h.value _ (by omega)).bind ?_
  rintro ⟨v, q⟩ hvalue
  obtain ⟨s', rfl, hlt⟩ := length_lt_of_value hvalue
  simp only
  split
  · rename_i hcomma
    obtain ⟨hnext, hlt'⟩ := length_lt_of_comma hcomma
    exact h.members _ _ _ hnext (by omega)
  · exact .ok _

theorem Steps.value_step (h : Steps floats fuel) {s : List Char}
    (hfuel : 2 * s.length + 1 ≤ fuel + 1) :
    Throws (parse_internal floats (fuel + 1) (scan s)) := by
  rw [parse_internal]
  split
  · rename_i htype
    have hlt : (scan s).input.length < s.length := length_input_lt (by rw [htype]; decide)
    simp only
    split
    · exact .ok _
    · refine (unexpect_throws _ _).bind fun _ hcomma => ?_
      refine (h.members _ _ _ (next_of_unexpect hcomma) (by omega)).bind fun r _ => ?_
      exact (expect_throws _ _).bind fun _ _ => .ok _
  · rename_i htype
    have hlt : (scan s).input.length < s.length := length_input_lt (by rw [htype]; decide)
    simp only
    split
    · exact .ok _
    · refine (unexpect_throws _ _).bind fun _ hcomma => ?_
      refine (h.elements _ _ _ (next_of_unexpect hcomma) (by omega)).bind fun r _ => ?_
      exact (expect_throws _ _).bind fun _ _ => .ok _
  · exact .ok _
  · exact (get_string_throws _).bind fun k _ => .ok _
  · exact .ok _
  · exact .ok _
  · exact (get_number_throws _).bind fun number _ => .ok _
  · exact .error _

theorem steps (floats : Floats F) (fuel : Nat) : Steps floats fuel := by
  induction fuel with
  | zero => exact ⟨fun _ h => absurd h (by omega), fun _ _ _ _ h => absurd h (by omega),
      fun _ _ _ _ h => absurd h (by omega)⟩
  | succ fuel ih => exact ⟨fun _ h => ih.value_step h, fun _ _ _ hp h => ih.members_step hp h,
      fun _ _ _ hp h => ih.elements_step hp h⟩

/-- Whatever the text is, `parse` returns or throws an `invalid_argument`. -/
theorem parse_throws (floats : Floats F) (s : List Char) : Throws (parse floats s) :=
  ((steps floats _).value s (by omega)).bind fun r _ => (expect_throws _ _).bind fun _ _ => .ok _

end Json
