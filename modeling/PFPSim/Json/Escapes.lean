import PFPSim.Json.RoundTrip

/-!
# Characters in strings

A string token is written character by character: as the bytes of its UTF-8, behind a
backslash, or with the digits of its one or two UTF-16 units (`Writes`). However it is
written, the parser makes the same UTF-8 of it (`parse_string`). The writer escapes in place
(`escape_string_correct`).
-/

namespace Json

open Lexer Writer

/-! ## UTF-8 -/

/-- The bytes of a character in UTF-8. -/
def utf8 (c : Char) : List Char := (String.utf8EncodeChar c).map fun b => byte b.toNat

theorem byte_ofNat {n : Nat} (h : n < 256) : byte (UInt8.ofNat n).toNat = byte n := by
  rw [UInt8.toNat_ofNat_of_lt' h]

/-- The last `k` bits of a number behind the mark `m`. -/
theorem byte_or {m : Nat} (k n : Nat) (hmark : ∀ x < 2 ^ k, m ||| x = x + m)
    (hm : 2 ^ k + m ≤ 256) :
    byte (m ||| (n &&& (2 ^ k - 1))) = byte (UInt8.ofNat (n % 2 ^ k + m)).toNat := by
  have hlt : n % 2 ^ k < 2 ^ k := Nat.mod_lt n (Nat.two_pow_pos k)
  rw [Nat.and_two_pow_sub_one_eq_mod, hmark _ hlt, byte_ofNat (by omega)]

theorem byte_tail (n : Nat) :
    byte (0x80 ||| (n &&& 0x3F)) = byte (UInt8.ofNat (n % 0x40 + 0x80)).toNat :=
  byte_or 6 n (by decide) (by decide)

theorem byte_two (n : Nat) :
    byte (0xC0 ||| (n &&& 0x1F)) = byte (UInt8.ofNat (n % 0x20 + 0xC0)).toNat :=
  byte_or 5 n (by decide) (by decide)

theorem byte_three (n : Nat) :
    byte (0xE0 ||| (n &&& 0x0F)) = byte (UInt8.ofNat (n % 0x10 + 0xE0)).toNat :=
  byte_or 4 n (by decide) (by decide)

theorem byte_four (n : Nat) :
    byte (0xF0 ||| (n &&& 0x07)) = byte (UInt8.ofNat (n % 0x08 + 0xF0)).toNat :=
  byte_or 3 n (by decide) (by decide)

theorem toNat_lt (c : Char) : c.toNat < 0x110000 := by
  rcases c.valid with h | ⟨-, h⟩
  · exact Nat.lt_trans h (by decide)
  · exact h

/-- What `to_unicode` computes is UTF-8. -/
theorem encode_toNat (c : Char) : encode c.toNat = .ok (utf8 c) := by
  have hmax := toNat_lt c
  have hval : c.val.toNat = c.toNat := rfl
  rw [utf8, String.utf8EncodeChar, hval]
  generalize c.toNat = n at hmax
  have h6 : n >>> 6 = n / 64 := Nat.shiftRight_eq_div_pow n 6
  have h12 : n >>> 12 = n / 4096 := Nat.shiftRight_eq_div_pow n 12
  have h18 : n >>> 18 = n / 262144 := Nat.shiftRight_eq_div_pow n 18
  rw [encode, byte_two, byte_three, byte_four, byte_tail, byte_tail, byte_tail, h6, h12, h18]
  by_cases h1 : n < 0x80
  · rw [if_pos h1, if_pos (show n ≤ 0x7f by omega), List.map_singleton, byte_ofNat (by omega)]
  · rw [if_neg h1, if_neg (show ¬ n ≤ 0x7f by omega)]
    by_cases h2 : n ≤ 0x7ff
    · rw [if_pos h2, if_pos h2]
      rfl
    · rw [if_neg h2, if_neg h2]
      by_cases h3 : n ≤ 0xffff
      · rw [if_pos h3, if_pos h3]
        rfl
      · rw [if_neg h3, if_neg h3, if_pos (by omega)]
        rfl

theorem utf8_of_lt {c : Char} (h : c.toNat < 0x80) : utf8 c = [c] := by
  have heq := encode_toNat c
  rw [encode, if_pos h, byte, Char.ofNat_toNat] at heq
  exact (Except.ok.inj heq).symm

/-- The bytes of a character that is not ASCII are not ASCII. -/
theorem le_of_mem_utf8 {c b : Char} (h : 0x80 ≤ c.toNat) (hb : b ∈ utf8 c) : 0x80 ≤ b.toNat := by
  obtain ⟨x, hx, rfl⟩ := List.mem_map.mp hb
  have hbyte : (byte x.toNat).toNat = x.toNat := by
    have hlt := x.toNat_lt
    rw [byte, Char.ofNat, dif_pos (.inl (by omega))]
    rfl
  rw [hbyte]
  have hmark : ∀ m k, 0x80 ≤ m → k + m ≤ 256 → ∀ n, 0 < k →
      0x80 ≤ (UInt8.ofNat (n % k + m)).toNat := by
    intro m k hm hk n hpos
    have hlt := Nat.mod_lt n hpos
    rw [UInt8.toNat_ofNat_of_lt' (show n % k + m < 256 by omega)]
    omega
  have hval : c.val.toNat = c.toNat := rfl
  rw [String.utf8EncodeChar, hval, if_neg (by omega)] at hx
  split at hx
  · simp only [List.mem_cons, List.not_mem_nil, or_false] at hx
    rcases hx with rfl | rfl
    · exact hmark 0xC0 0x20 (by decide) (by decide) _ (by decide)
    · exact hmark 0x80 0x40 (by decide) (by decide) _ (by decide)
  · split at hx
    · simp only [List.mem_cons, List.not_mem_nil, or_false] at hx
      rcases hx with rfl | rfl | rfl
      · exact hmark 0xE0 0x10 (by decide) (by decide) _ (by decide)
      · exact hmark 0x80 0x40 (by decide) (by decide) _ (by decide)
      · exact hmark 0x80 0x40 (by decide) (by decide) _ (by decide)
    · simp only [List.mem_cons, List.not_mem_nil, or_false] at hx
      rcases hx with rfl | rfl | rfl | rfl
      · exact hmark 0xF0 0x08 (by decide) (by decide) _ (by decide)
      · exact hmark 0x80 0x40 (by decide) (by decide) _ (by decide)
      · exact hmark 0x80 0x40 (by decide) (by decide) _ (by decide)
      · exact hmark 0x80 0x40 (by decide) (by decide) _ (by decide)

/-! ## Ways to write a character -/

/-- The four digits of a UTF-16 unit. -/
structure Digits (ds : List Char) (n : Nat) : Prop where
  length : ds.length = 4
  isxdigit : ∀ d ∈ ds, isxdigit d = true
  value : strtoul ds = n

/-- The characters that have an escape of one letter. -/
def shortEscapes : List (Char × Char) :=
  [('t', '\t'), ('b', '\x08'), ('f', '\x0c'), ('n', '\n'), ('r', '\r'), ('\\', '\\'), ('/', '/'),
    ('"', '"')]

/-- The text `w` stands for the character `c` in a string. -/
inductive Writes : Char → List Char → Prop
  | plain {c : Char} (hcontrol : 0x0F < c.toNat) (hquote : c ≠ '"') (hslash : c ≠ '\\') :
      Writes c (utf8 c)
  | short {letter c : Char} (h : (letter, c) ∈ shortEscapes) : Writes c ['\\', letter]
  | unit {c : Char} {ds : List Char} (h : Digits ds c.toNat) : Writes c ('\\' :: 'u' :: ds)
  | pair {c : Char} {ds es : List Char} (hc : 0x10000 ≤ c.toNat)
      (hhigh : Digits ds (0xD800 + (c.toNat - 0x10000) / 0x400))
      (hlow : Digits es (0xDC00 + (c.toNat - 0x10000) % 0x400)) :
      Writes c ('\\' :: 'u' :: (ds ++ '\\' :: 'u' :: es))

theorem Digits.pass {ds : List Char} {n : Nat} (h : Digits ds n) :
    (StringState.hex 3).pass ds = some .chars := by
  obtain ⟨hlength, hdigits, -⟩ := h
  match ds, hlength with
  | [a, b, c, d], _ =>
    simp only [List.mem_cons, List.not_mem_nil, or_false, forall_eq_or_imp, forall_eq] at hdigits
    obtain ⟨ha, hb, hc, hd⟩ := hdigits
    simp [StringState.pass, StringState.next, ha, hb, hc, hd]

theorem pass_plain {l : List Char} (h : ∀ c ∈ l, 0x0F < c.toNat ∧ c ≠ '"' ∧ c ≠ '\\') :
    StringState.chars.pass l = some .chars := by
  induction l with
  | nil => rfl
  | cons c l ih =>
    obtain ⟨⟨hcontrol, hquote, hslash⟩, hl⟩ := List.forall_mem_cons.mp h
    rw [StringState.pass, if_neg fun hc => hquote hc.2, StringState.next, if_neg hslash,
      if_neg (by omega)]
    exact ih hl

/-- The bytes of a plain character are plain. -/
theorem plain_of_mem_utf8 {c b : Char} (hcontrol : 0x0F < c.toNat) (hquote : c ≠ '"')
    (hslash : c ≠ '\\') (hb : b ∈ utf8 c) : 0x0F < b.toNat ∧ b ≠ '"' ∧ b ≠ '\\' := by
  by_cases hc : c.toNat < 0x80
  · rw [utf8_of_lt hc, List.mem_singleton] at hb
    exact hb ▸ ⟨hcontrol, hquote, hslash⟩
  · have hle := le_of_mem_utf8 (Nat.le_of_not_lt hc) hb
    refine ⟨by omega, ?_, ?_⟩
    · rintro rfl
      exact absurd hle (by decide)
    · rintro rfl
      exact absurd hle (by decide)

theorem Writes.pass {c : Char} {w : List Char} (h : Writes c w) :
    StringState.chars.pass w = some .chars := by
  cases h with
  | plain hcontrol hquote hslash =>
    exact pass_plain fun b hb => plain_of_mem_utf8 hcontrol hquote hslash hb
  | short h =>
    have hall : ∀ p ∈ shortEscapes, StringState.chars.pass ['\\', p.1] = some .chars := by decide
    exact hall _ h
  | unit h => exact h.pass
  | pair hc hhigh hlow =>
    have hlow' : StringState.chars.pass ('\\' :: 'u' :: _) = some .chars := hlow.pass
    exact (pass_append hhigh.pass _).trans hlow'

/-! ## Reading -/

theorem unescape_skip (w s : List Char) : unescape w.length (w ++ s) = unescape 0 s := by
  induction w with
  | nil => rfl
  | cons c w ih =>
    rw [List.length_cons, List.cons_append, unescape.eq_def]
    exact ih

theorem unescape_plain {l : List Char} (h : ∀ c ∈ l, c ≠ '\\') (s : List Char) :
    unescape 0 (l ++ s) = (do let rest ← unescape 0 s; return l ++ rest) := by
  induction l with
  | nil => cases hs : unescape 0 s <;> rw [List.nil_append, hs] <;> rfl
  | cons c l ih =>
    obtain ⟨hc, hl⟩ := List.forall_mem_cons.mp h
    rw [List.cons_append, unescape_char hc, ih hl]
    cases unescape 0 s <;> rfl

theorem Digits.take {ds : List Char} {n : Nat} (h : Digits ds n) (s : List Char) :
    strtoul ((ds ++ s).take 4) = n := by
  rw [List.take_append_of_le_length (Nat.le_of_eq h.length.symm),
    List.take_of_length_le (Nat.le_of_eq h.length), h.value]

/-- The escape of a unit that is not the first of a pair. -/
theorem unescape_unit {c : Char} {ds : List Char} (h : Digits ds c.toNat) (s : List Char) :
    unescape 0 ('\\' :: 'u' :: (ds ++ s)) =
      (do let rest ← unescape 0 s; return utf8 c ++ rest) := by
  have hscalar : ¬ (0xD800 ≤ c.toNat ∧ c.toNat ≤ 0xDBFF) := by
    intro hsurrogate
    rcases c.valid with hlt | ⟨hlt, -⟩
    · exact absurd (show c.toNat < 0xD800 from hlt) (by omega)
    · exact absurd (show 0xDFFF < c.toNat from hlt) (by omega)
  have hvalue : escapeValue 'u' (ds ++ s) = .ok (utf8 c, 5) := by
    show unicodeEscape (ds ++ s) = _
    simp only [unicodeEscape, h.take, if_neg hscalar, to_unicode, encode_toNat]
    rfl
  have hskip : unescape 5 ('u' :: (ds ++ s)) = unescape 0 s := by
    have hlength : ('u' :: ds).length = 5 := by rw [List.length_cons, h.length]
    rw [← hlength]
    exact unescape_skip ('u' :: ds) s
  rw [unescape_escape, hvalue]
  show (do let rest ← unescape 5 ('u' :: (ds ++ s)); return utf8 c ++ rest) = _
  rw [hskip]

theorem unescape_pair {c : Char} {ds es : List Char} (hc : 0x10000 ≤ c.toNat)
    (hhigh : Digits ds (0xD800 + (c.toNat - 0x10000) / 0x400))
    (hlow : Digits es (0xDC00 + (c.toNat - 0x10000) % 0x400)) (s : List Char) :
    unescape 0 ('\\' :: 'u' :: (ds ++ '\\' :: 'u' :: (es ++ s))) =
      (do let rest ← unescape 0 s; return utf8 c ++ rest) := by
  have hmax := toNat_lt c
  have hdrop : (ds ++ '\\' :: 'u' :: (es ++ s)).drop 4 = '\\' :: 'u' :: (es ++ s) := by
    rw [← hhigh.length]
    exact List.drop_left
  have hcode : ((0xD800 + (c.toNat - 0x10000) / 0x400) <<< 10) +
      (0xDC00 + (c.toNat - 0x10000) % 0x400) - 0x35FDC00 = c.toNat := by
    rw [Nat.shiftLeft_eq]
    omega
  have hvalue : escapeValue 'u' (ds ++ '\\' :: 'u' :: (es ++ s)) = .ok (utf8 c, 11) := by
    show unicodeEscape (ds ++ '\\' :: 'u' :: (es ++ s)) = _
    simp only [unicodeEscape, hhigh.take, hdrop, hlow.take]
    rw [if_pos (by omega), to_unicode, if_pos (by omega), if_pos (by omega), hcode, encode_toNat]
    rfl
  have hskip : unescape 11 ('u' :: (ds ++ '\\' :: 'u' :: (es ++ s))) = unescape 0 s := by
    have hlength : ('u' :: (ds ++ '\\' :: 'u' :: es)).length = 11 := by
      simp only [List.length_cons, List.length_append, hhigh.length, hlow.length]
    rw [← hlength, ← unescape_skip ('u' :: (ds ++ '\\' :: 'u' :: es)) s]
    simp only [List.cons_append, List.append_assoc]
  rw [unescape_escape, hvalue]
  show (do
    let rest ← unescape 11 ('u' :: (ds ++ '\\' :: 'u' :: (es ++ s)))
    return utf8 c ++ rest) = _
  rw [hskip]

theorem Writes.unescape {c : Char} {w : List Char} (h : Writes c w) (s : List Char) :
    Lexer.unescape 0 (w ++ s) = (do let rest ← Lexer.unescape 0 s; return utf8 c ++ rest) := by
  cases h with
  | plain hcontrol hquote hslash =>
    exact unescape_plain (fun b hb => (plain_of_mem_utf8 hcontrol hquote hslash hb).2.2) s
  | @short letter c h =>
    have hall : ∀ p ∈ shortEscapes, p.2.toNat < 0x80 ∧
        ∀ s, escapeValue p.1 s = .ok ([p.2], 1) := by
      simp only [shortEscapes, List.forall_mem_cons]
      exact ⟨⟨by decide, fun s => rfl⟩, ⟨by decide, fun s => rfl⟩, ⟨by decide, fun s => rfl⟩,
        ⟨by decide, fun s => rfl⟩, ⟨by decide, fun s => rfl⟩, ⟨by decide, fun s => rfl⟩,
        ⟨by decide, fun s => rfl⟩, ⟨by decide, fun s => rfl⟩, nofun⟩
    obtain ⟨hascii, hvalue⟩ := hall _ h
    rw [utf8_of_lt hascii, List.cons_append, List.singleton_append, unescape_escape, hvalue]
    rfl
  | unit h => exact unescape_unit h s
  | pair hc hhigh hlow =>
    simp only [List.cons_append, List.append_assoc]
    exact unescape_pair hc hhigh hlow s

section

variable {F : Type} {l : List (Char × List Char)}

/-- The text of a string whose characters are written one by one. -/
def quotedText (l : List (Char × List Char)) : List Char := '"' :: (l.flatMap Prod.snd ++ ['"'])

theorem get_string_quotedText (h : ∀ p ∈ l, Writes p.1 p.2) :
    Lexer.get_string (quotedText l) = .ok (l.flatMap fun p => utf8 p.1) := by
  have hall : unescape 0 (l.flatMap Prod.snd) = .ok (l.flatMap fun p => utf8 p.1) := by
    induction l with
    | nil => rfl
    | cons p l ih =>
      obtain ⟨hp, hl⟩ := List.forall_mem_cons.mp h
      rw [List.flatMap_cons, hp.unescape, ih hl]
      rfl
  rw [Lexer.get_string, quotedText, List.drop_one, List.tail_cons, List.dropLast_concat, hall]

theorem scan_quotedText (h : ∀ p ∈ l, Writes p.1 p.2) :
    scan (quotedText l) = ⟨.value_string, quotedText l, []⟩ := by
  have hpass : StringState.chars.pass (l.flatMap Prod.snd) = some .chars := by
    induction l with
    | nil => rfl
    | cons p l ih =>
      obtain ⟨hp, hl⟩ := List.forall_mem_cons.mp h
      rw [List.flatMap_cons, pass_append hp.pass, ih hl]
  have hend : stringEnd .chars (l.flatMap Prod.snd ++ ['"']) = some (l.flatMap Prod.snd, []) := by
    rw [stringEnd_pass hpass]
    show some (_ ++ [], []) = _
    rw [List.append_nil]
  show scanString (l.flatMap Prod.snd ++ ['"']) = _
  rw [scanString, hend]
  rfl

/-- **Strings.** However its characters are written, a string is parsed as their UTF-8. -/
theorem parse_string (floats : Floats F) (h : ∀ p ∈ l, Writes p.1 p.2) :
    parse floats (quotedText l) =
      .ok (.primitive (.string (String.ofList (l.flatMap fun p => utf8 p.1)))) := by
  have hscan := scan_quotedText h
  have hlayout : Layout (quotedText l) (.string (quotedText l)) := by
    refine ⟨[], ⟨?_, ?_⟩, rfl⟩
    · show ((scan _).type, (scan _).token) = _
      rw [hscan]
    · show [] = (scan _).input
      rw [hscan]
  rw [parse_of_layout floats hlayout, Tree.value, get_string_quotedText h]
  rfl

end

/-- A character of two units, one of a unit and a short escape. -/
def writtenPair : List (Char × List Char) :=
  [(Char.ofNat 0x1F600, "\\ud83d\\uDE00".toList), ('A', "\\u0041".toList), ('\n', "\\n".toList)]

theorem parse_string_pair : parse (F := Unit) ⟨fun _ => (), fun _ => []⟩
    (quotedText writtenPair) = .ok (.primitive (.string
      (String.ofList [byte 0xF0, byte 0x9F, byte 0x98, byte 0x80, 'A', '\n']))) := by
  have hhigh : Digits ['d', '8', '3', 'd']
      (0xD800 + ((Char.ofNat 0x1F600).toNat - 0x10000) / 0x400) :=
    ⟨rfl, List.all_eq_true.mp rfl, by decide +kernel⟩
  have hlow : Digits ['D', 'E', '0', '0']
      (0xDC00 + ((Char.ofNat 0x1F600).toNat - 0x10000) % 0x400) :=
    ⟨rfl, List.all_eq_true.mp rfl, by decide +kernel⟩
  have hunit : Digits ['0', '0', '4', '1'] 'A'.toNat :=
    ⟨rfl, List.all_eq_true.mp rfl, by decide⟩
  have hwrites : ∀ p ∈ writtenPair, Writes p.1 p.2 := by
    simp only [writtenPair, List.forall_mem_cons]
    exact ⟨.pair (by decide) hhigh hlow, .unit hunit, .short (by decide), nofun⟩
  have hbytes : (writtenPair.flatMap fun p => utf8 p.1) =
      [byte 0xF0, byte 0x9F, byte 0x98, byte 0x80, 'A', '\n'] := by
    decide +kernel
  rw [parse_string _ hwrites, hbytes]

/-- **Escapes.** The string that is written in place, back to front of what it overwrites, has
the escapes of its characters one after the other, fills the space that was counted, and is
read as itself. -/
theorem escape_string_correct (s : List Char) :
    escape_string s = s.flatMap escaped ∧
    (escape_string s).length = s.length + extra_space s ∧
    Lexer.get_string ('"' :: (escape_string s ++ ['"'])) = .ok s := by
  have hlength : (escape_string s).length = s.length + extra_space s := by
    rw [escape_string_eq, length_flatMap_escaped]
  have hread := get_string_quoted (String.ofList s)
  rw [quoted, String.toList_ofList] at hread
  exact ⟨escape_string_eq s, hlength, hread⟩

end Json
