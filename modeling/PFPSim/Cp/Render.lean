import PFPSim.Cp.Boundaries

/-!
# Commands as text

The texts of commands: every name, number, chunk of bytes and run of blanks is a
structure that carries the condition on its characters, so that a `Line` is a text of the
command language by construction. `text` renders it and `tokens` is what the scanner makes
of the text (`Line.scans`).

A chunk of bytes means its bytes, the most significant first; with a size it means the
last so many of them. `command` takes the meaning of the chunks as a parameter.
-/

namespace Pfp.Cp

open Lex

/-! ## Texts -/

structure Decimal where
  text : Str
  ne_nil : text ≠ []
  isdigit : ∀ c ∈ text, isdigit c = true
  fits : digits 10 xvalue text < 2 ^ 64

/-- A name that is no reserved word. -/
structure Name where
  text : Str
  shape : Matches .IDENTIFIER text
  free : text ≠ ascii "insert_entry" ∧ text ≠ ascii "modify_entry" ∧
    text ≠ ascii "delete_entry"

/-- Pairs of hexadecimal digits, two at least. -/
structure Hexadecimal where
  first : UInt8 × UInt8
  others : List (UInt8 × UInt8)
  two : others ≠ []
  isxdigit : ∀ p ∈ first :: others, isxdigit p.1 ∧ isxdigit p.2

structure Blanks where
  text : Str
  ne_nil : text ≠ []
  isblank : ∀ c ∈ text, isblank c = true

namespace Decimal

def value (d : Decimal) : Nat := digits 10 xvalue d.text

def token (d : Decimal) : Token := .DECIMAL (UInt64.ofNat d.value)

end Decimal

structure Octet extends Decimal where
  le : toDecimal.value ≤ 255

/-- The `n` bytes of a number, the most significant first. -/
def bigEndian (n v : Nat) : Bytes := (List.range n).map fun i => UInt8.ofNat (v / 256 ^ (n - 1 - i))

inductive Literal where
  | decimal (d : Decimal)
  | hexadecimal (h : Hexadecimal)
  | quad (a b c d : Octet)

namespace Literal

def text : Literal → Str
  | .decimal d => d.text
  | .hexadecimal h => h.first.1 :: h.first.2 :: h.others.flatMap fun p => [58, p.1, p.2]
  | .quad a b c d => a.text ++ 46 :: (b.text ++ 46 :: (c.text ++ 46 :: d.text))

def bytes : Literal → Bytes
  | .decimal d => bigEndian 8 d.value
  | .hexadecimal h => (h.first :: h.others).map fun p => UInt8.ofNat (16 * xvalue p.1 + xvalue p.2)
  | .quad a b c d => [a, b, c, d].map fun o => UInt8.ofNat o.value

def tokens : Literal → List Token
  | .decimal d => [d.token]
  | .hexadecimal h => [.HEXADECIMAL (Literal.hexadecimal h).bytes]
  | .quad a b c d => [a.token, .char 46, b.token, .char 46, c.token, .char 46, d.token]

end Literal

/-- A literal, with a size that is at most its own length. -/
structure ChunkText where
  literal : Literal
  size : Option Decimal
  le : ∀ n ∈ size, n.value ≤ literal.bytes.length

namespace ChunkText

def text (c : ChunkText) : Str :=
  c.literal.text ++ match c.size with
    | none => []
    | some n => 39 :: n.text

def tokens (c : ChunkText) : List Token :=
  c.literal.tokens ++ match c.size with
    | none => []
    | some n => [.char 39, n.token]

/-- What the chunk means: the last bytes of its literal. -/
def bytes (c : ChunkText) : Bytes :=
  match c.size with
  | none => c.literal.bytes
  | some n => c.literal.bytes.drop (c.literal.bytes.length - n.value)

end ChunkText

inductive KeyText where
  | exact (c : ChunkText)
  | lpm (c : ChunkText) (prefix_len : Decimal)
  | ternary (c mask : ChunkText)

namespace KeyText

def text : KeyText → Str
  | .exact c => c.text
  | .lpm c n => c.text ++ 47 :: n.text
  | .ternary c m => c.text ++ 38 :: m.text

def tokens : KeyText → List Token
  | .exact c => c.tokens
  | .lpm c n => c.tokens ++ [.char 47, n.token]
  | .ternary c m => c.tokens ++ .char 38 :: m.tokens

def key (f : ChunkText → Bytes) : KeyText → MatchKey
  | .exact c => .ExactKey (f c)
  | .lpm c n => .LpmKey (f c) (UInt64.ofNat n.value)
  | .ternary c m => .TernaryKey (f c) (f m)

def chunks : KeyText → List ChunkText
  | .exact c => [c]
  | .lpm c _ => [c]
  | .ternary c m => [c, m]

end KeyText

/-- An action with its parameters, each behind blanks. -/
structure SpecText where
  name : Name
  params : List (Blanks × ChunkText)

namespace SpecText

def text (s : SpecText) : Str := s.name.text ++ s.params.flatMap fun p => p.1.text ++ p.2.text

def tokens (s : SpecText) : List Token :=
  .IDENTIFIER s.name.text :: s.params.flatMap fun p => .BLANK :: p.2.tokens

def action (f : ChunkText → Bytes) (s : SpecText) : Action :=
  { name := s.name.text, params := s.params.map fun p => f p.2 }

end SpecText

inductive CommandText where
  | insert (b₁ : Blanks) (table : Name) (b₂ : Blanks) (key : KeyText)
      (keys : List (Blanks × KeyText)) (b₃ : Blanks) (spec : SpecText)
  | modify (b₁ : Blanks) (table : Name) (b₂ : Blanks) (handle : Decimal) (b₃ : Blanks)
      (spec : SpecText)
  | delete (b₁ : Blanks) (table : Name) (b₂ : Blanks) (handle : Decimal)
  | begin_transaction
  | end_transaction

namespace CommandText

def text : CommandText → Str
  | .insert b₁ table b₂ key keys b₃ spec => ascii "insert_entry" ++ (b₁.text ++ (table.text ++
      (b₂.text ++ (key.text ++ (keys.flatMap (fun p => p.1.text ++ p.2.text) ++
        (b₃.text ++ spec.text))))))
  | .modify b₁ table b₂ handle b₃ spec => ascii "modify_entry" ++ (b₁.text ++ (table.text ++
      (b₂.text ++ (handle.text ++ (b₃.text ++ spec.text)))))
  | .delete b₁ table b₂ handle => ascii "delete_entry" ++ (b₁.text ++ (table.text ++
      (b₂.text ++ handle.text)))
  | .begin_transaction => ascii "begin transaction"
  | .end_transaction => ascii "end transaction"

def tokens : CommandText → List Token
  | .insert _ table _ key keys _ spec => .INSERT_ENTRY :: .BLANK :: .IDENTIFIER table.text ::
      .BLANK :: ((key.tokens ++ keys.flatMap fun p => .BLANK :: p.2.tokens) ++
        .BLANK :: spec.tokens)
  | .modify _ table _ handle _ spec => .MODIFY_ENTRY :: .BLANK :: .IDENTIFIER table.text ::
      .BLANK :: handle.token :: .BLANK :: spec.tokens
  | .delete _ table _ handle => [.DELETE_ENTRY, .BLANK, .IDENTIFIER table.text, .BLANK,
      handle.token]
  | .begin_transaction => [.BEGIN_TRANSACTION]
  | .end_transaction => [.END_TRANSACTION]

/-- The command, when `f` is the meaning of a chunk. -/
def command (f : ChunkText → Bytes) : CommandText → Command
  | .insert _ table _ key keys _ spec => .InsertCommand
      { table_name := table.text, keys := some (key.key f :: keys.map fun p => p.2.key f),
        action := some (spec.action f) }
  | .modify _ table _ handle _ spec => .ModifyCommand
      { table_name := table.text, handle := UInt64.ofNat handle.value,
        action := some (spec.action f) }
  | .delete _ table _ handle => .DeleteCommand
      { table_name := table.text, handle := UInt64.ofNat handle.value }
  | .begin_transaction => .BeginTransactionCommand
  | .end_transaction => .EndTransactionCommand

def chunks : CommandText → List ChunkText
  | .insert _ _ _ key keys _ spec =>
      key.chunks ++ keys.flatMap (fun p => p.2.chunks) ++ spec.params.map Prod.snd
  | .modify _ _ _ _ _ spec => spec.params.map Prod.snd
  | _ => []

end CommandText

/-- A command with optional blanks in front and an optional newline directly behind it. -/
structure Line where
  lead : Option Blanks
  command : CommandText
  newline : Bool

namespace Line

def text (l : Line) : Str :=
  (match l.lead with
    | none => []
    | some b => b.text) ++ (l.command.text ++ if l.newline then [10] else [])

def lead_tokens (l : Line) : List Token :=
  match l.lead with
  | none => []
  | some _ => [.BLANK]

def tail_tokens (l : Line) : List Token := if l.newline then [.EOL] else []

end Line

/-! ## Scanning a text -/

/-- The scanner reads all of `s` and returns the tokens `ts`. -/
def Scans (s : Str) (ts : List Token) : Prop :=
  ∃ ls, Lexes rules s ls ∧ ls.map Lexeme.token = ts.map some

theorem Scans.scan_eq {s : Str} {ts : List Token} (h : Scans s ts) : scan s = ts := by
  obtain ⟨ls, hls, htok⟩ := h
  rw [scan, lexemes_eq hls]
  clear hls
  induction ls generalizing ts with
  | nil =>
    cases ts with
    | nil => rfl
    | cons t ts => cases htok
  | cons l ls ih =>
    cases ts with
    | nil => cases htok
    | cons t ts =>
      rw [List.map_cons, List.map_cons, List.cons.injEq] at htok
      simp only [Cp.tokens, htok.1, ih htok.2]

theorem Scans.nil : Scans [] [] := ⟨[], .nil, rfl⟩

/-- The text ends any word in front of it that is not the beginning of a phrase. -/
def Break (rest : Str) : Prop :=
  rest = [] ∨ ∃ c z, rest = c :: z ∧ isword c = false ∧ c ≠ 58

/-- The text ends any word in front of it. -/
def HardBreak (rest : Str) : Prop :=
  rest = [] ∨ ∃ c z, rest = c :: z ∧ isword c = false ∧ c ≠ 58 ∧ z.head? ≠ some 116

theorem HardBreak.break {rest : Str} (h : HardBreak rest) : Break rest :=
  h.imp_right fun ⟨c, z, hr, hc, hc', _⟩ => ⟨c, z, hr, hc, hc'⟩

theorem break_of_char {c : UInt8} {z : Str} (hc : isword c = false) (hc' : c ≠ 58) :
    Break (c :: z) := .inr ⟨c, z, rfl, hc, hc'⟩

theorem scans_word {r : Rule} {x rest : Str} {t : Token} {ts : List Token}
    (hx : Matches r x) (hhead : ∃ a y, x = a :: y ∧ isword a = true)
    (hfirst : ∀ r' : Rule, r'.ctorIdx < r.ctorIdx → ¬ Matches r' x) (ht : token r x = some t)
    (hrest : Ends x rest) (h : Scans rest ts) : Scans (x ++ rest) (t :: ts) := by
  obtain ⟨ls, hls, htok⟩ := h
  exact ⟨_, lexes_word hx hfirst hhead hrest hls, by simp [Lexeme.token, ht, htok]⟩

theorem Break.ends {x rest : Str} (h : Break rest)
    (hx : x ≠ ascii "begin" ∧ x ≠ ascii "end") : Ends x rest :=
  h.imp_right fun ⟨c, z, hr, hc, hc'⟩ => ⟨c, z, hr, hc, hc', .inr hx⟩

theorem HardBreak.ends {x rest : Str} (h : HardBreak rest) : Ends x rest :=
  h.imp_right fun ⟨c, z, hr, hc, hc', ht⟩ => ⟨c, z, hr, hc, hc', .inl ht⟩

theorem scans_blanks (b : Blanks) {rest : Str} {ts : List Token}
    (hrest : ∀ c, rest.head? = some c → Cp.isblank c = false) (h : Scans rest ts) :
    Scans (b.text ++ rest) (.BLANK :: ts) := by
  obtain ⟨ls, hls, htok⟩ := h
  exact ⟨_, lexes_blank b.ne_nil b.isblank hrest hls, by simp [Lexeme.token, token, htok]⟩

/-- The four characters that separate numbers. -/
theorem scans_char {c : UInt8} (hc : c = 46 ∨ c = 39 ∨ c = 47 ∨ c = 38) {rest : Str}
    {ts : List Token} (h : Scans rest ts) : Scans (c :: rest) (.char c :: ts) := by
  obtain ⟨ls, hls, htok⟩ := h
  have hword : isword c = false ∧ (c ≠ 35 ∧ c ≠ 10 ∧ isblank c = false) ∧
      token .any [c] = some (.char c) := by
    rcases hc with rfl | rfl | rfl | rfl <;> decide
  exact ⟨_, lexes_char hword.1 hword.2.1 hls, by simp [Lexeme.token, hword.2.2, htok]⟩

theorem break_of_separator {c : UInt8} (hc : c = 46 ∨ c = 39 ∨ c = 47 ∨ c = 38) (z : Str) :
    Break (c :: z) := by
  rcases hc with rfl | rfl | rfl | rfl <;> exact break_of_char (by decide) (by decide)

theorem hardBreak_newline : HardBreak [10] :=
  .inr ⟨10, [], rfl, by decide, by decide, by simp⟩

theorem Blanks.head (b : Blanks) : ∃ c u, b.text = c :: u ∧ Cp.isblank c = true := by
  obtain ⟨c, u, hcu⟩ := List.exists_cons_of_ne_nil b.ne_nil
  exact ⟨c, u, hcu, b.isblank c (by simp [hcu])⟩

theorem break_blanks (b : Blanks) (rest : Str) : Break (b.text ++ rest) := by
  obtain ⟨c, u, hcu, hc⟩ := b.head
  obtain ⟨h₁, h₂, -⟩ := not_isword_of_isblank hc
  rw [hcu]
  exact break_of_char h₁ h₂

/-- Blanks in front of a hexadecimal digit do not continue a phrase. -/
theorem hardBreak_blanks (b : Blanks) {rest : Str}
    (hrest : ∃ a y, rest = a :: y ∧ isxdigit a = true) : HardBreak (b.text ++ rest) := by
  obtain ⟨c, u, hcu, hc⟩ := b.head
  obtain ⟨h₁, h₂, -⟩ := not_isword_of_isblank hc
  refine .inr ⟨c, u ++ rest, by rw [hcu]; rfl, h₁, h₂, ?_⟩
  cases u with
  | nil =>
    obtain ⟨a, y, rfl, ha⟩ := hrest
    rintro h
    cases h
    exact absurd ha (by decide)
  | cons d u =>
    rintro h
    cases h
    exact absurd (b.isblank 116 (by simp [hcu])) (by decide)

/-! ## Literals -/

theorem isxdigit_of_isdigit {c : UInt8} (h : isdigit c = true) : isxdigit c = true := by
  simp [isxdigit, h]

theorem Decimal.head (d : Decimal) : ∃ a y, d.text = a :: y ∧ Cp.isdigit a = true := by
  obtain ⟨a, y, hay⟩ := List.exists_cons_of_ne_nil d.ne_nil
  exact ⟨a, y, hay, d.isdigit a (by simp [hay])⟩

theorem scans_decimal (d : Decimal) {rest : Str} {ts : List Token} (hrest : Break rest)
    (h : Scans rest ts) : Scans (d.text ++ rest) (d.token :: ts) := by
  obtain ⟨a, y, hay, ha⟩ := d.head
  have hname : ∀ (x : UInt8) (u : Str), d.text = x :: u → isdigit x = false → False := by
    intro x u hx hd
    rw [hay] at hx
    cases hx
    rw [ha] at hd
    cases hd
  refine scans_word (r := .DECIMAL) ⟨d.ne_nil, d.isdigit⟩ ⟨a, y, hay, isword_of_isdigit ha⟩ ?_ ?_
    (hrest.ends ⟨fun he => hname _ _ he (by decide), fun he => hname _ _ he (by decide)⟩) h
  · intro r' hr' hm
    cases r' with
    | insert_entry => exact hname _ _ hm (by decide)
    | modify_entry => exact hname _ _ hm (by decide)
    | delete_entry => exact hname _ _ hm (by decide)
    | begin_transaction => exact hname _ _ hm (by decide)
    | end_transaction => exact hname _ _ hm (by decide)
    | COMMENT =>
      obtain ⟨w, hw, -⟩ := hm
      exact hname _ _ hw (by decide)
    | _ => exact absurd hr' (by decide)
  · simp only [Cp.token, stoull, if_pos d.fits, Option.map_some]
    rfl

theorem hexBytes_eq (p : UInt8 × UInt8) (ps : List (UInt8 × UInt8)) :
    hexBytes (p.1 :: p.2 :: ps.flatMap fun p => [58, p.1, p.2]) =
      (p :: ps).map fun p => UInt8.ofNat (16 * xvalue p.1 + xvalue p.2) := by
  induction ps generalizing p with
  | nil => simp [hexBytes, digits, Nat.mul_comm]
  | cons q ps ih =>
    simp only [List.flatMap_cons, List.cons_append, List.nil_append, hexBytes, ih,
      List.map_cons, digits, List.foldl_cons, List.foldl_nil, Nat.zero_mul, Nat.zero_add,
      Nat.mul_comm]

theorem scans_hexadecimal (x : Hexadecimal) {rest : Str} {ts : List Token}
    (hrest : Break rest) (h : Scans rest ts) :
    Scans ((Literal.hexadecimal x).text ++ rest)
      (.HEXADECIMAL (Literal.hexadecimal x).bytes :: ts) := by
  obtain ⟨q, qs, hqs⟩ := List.exists_cons_of_ne_nil x.two
  -- the third character is a colon
  have hcolon : (Literal.hexadecimal x).text[2]? = some 58 := by
    simp [Literal.text, hqs]
  have hmem : (58 : UInt8) ∈ (Literal.hexadecimal x).text := List.mem_of_getElem? hcolon
  have hfixed : ∀ y : Str, (58 : UInt8) ∉ y → (Literal.hexadecimal x).text ≠ y :=
    fun y hy he => hy (he ▸ hmem)
  refine scans_word (r := .HEXADECIMAL) ?_
    ⟨_, _, rfl, isword_of_isxdigit (x.isxdigit _ (by simp)).1⟩ ?_ ?_
    (hrest.ends ⟨hfixed _ (by decide), hfixed _ (by decide)⟩) h
  · exact ⟨_, _, x.others, rfl, (x.isxdigit _ (by simp)).1, (x.isxdigit _ (by simp)).2, x.two,
      fun p hp => x.isxdigit p (by simp [hp])⟩
  · intro r' hr' hm
    cases r' with
    | insert_entry => exact hfixed _ (by decide) hm
    | modify_entry => exact hfixed _ (by decide) hm
    | delete_entry => exact hfixed _ (by decide) hm
    | begin_transaction => exact hfixed _ (by decide) hm
    | end_transaction => exact hfixed _ (by decide) hm
    | COMMENT =>
      obtain ⟨w, hw, -⟩ := hm
      have ha := (x.isxdigit x.first (by simp)).1
      rw [show x.first.1 = 35 from (List.cons.inj hw).1] at ha
      exact absurd ha (by decide)
    | DECIMAL => exact absurd (hm.2 58 hmem) (by decide)
    | _ => exact absurd hr' (by decide)
  · simp only [Cp.token, Literal.text, hexBytes_eq, Literal.bytes]

theorem Literal.head (l : Literal) : ∃ a y, l.text = a :: y ∧ Cp.isxdigit a = true := by
  cases l with
  | decimal d =>
    obtain ⟨a, y, hay, ha⟩ := d.head
    exact ⟨a, y, hay, isxdigit_of_isdigit ha⟩
  | hexadecimal x => exact ⟨_, _, rfl, (x.isxdigit _ (by simp)).1⟩
  | quad x _ _ _ =>
    obtain ⟨a, y, hay, ha⟩ := x.head
    exact ⟨a, _, by rw [Literal.text, hay]; rfl, isxdigit_of_isdigit ha⟩

theorem scans_literal (l : Literal) {rest : Str} {ts : List Token} (hrest : Break rest)
    (h : Scans rest ts) : Scans (l.text ++ rest) (l.tokens ++ ts) := by
  cases l with
  | decimal d => exact scans_decimal d hrest h
  | hexadecimal x => exact scans_hexadecimal x hrest h
  | quad a b c d =>
    have hdot : ∀ z, Break (46 :: z) := fun z => break_of_separator (.inl rfl) z
    simp only [Literal.text, Literal.tokens, List.append_assoc, List.cons_append,
      List.nil_append]
    exact scans_decimal _ (hdot _) (scans_char (.inl rfl) (scans_decimal _ (hdot _)
      (scans_char (.inl rfl) (scans_decimal _ (hdot _) (scans_char (.inl rfl)
        (scans_decimal _ hrest h))))))

/-! ## Fields -/

theorem scans_chunk (c : ChunkText) {rest : Str} {ts : List Token} (hrest : Break rest)
    (h : Scans rest ts) : Scans (c.text ++ rest) (c.tokens ++ ts) := by
  obtain ⟨l, size, _⟩ := c
  cases size with
  | none => simpa [ChunkText.text, ChunkText.tokens] using scans_literal l hrest h
  | some n =>
    have hn := scans_char (c := 39) (.inr (.inl rfl)) (scans_decimal n hrest h)
    have hl := scans_literal l (break_of_separator (.inr (.inl rfl)) _) hn
    simpa [ChunkText.text, ChunkText.tokens] using hl

theorem ChunkText.head (c : ChunkText) : ∃ a y, c.text = a :: y ∧ Cp.isxdigit a = true := by
  obtain ⟨a, y, hay, ha⟩ := c.literal.head
  exact ⟨a, _, by rw [ChunkText.text, hay]; rfl, ha⟩

theorem scans_key (k : KeyText) {rest : Str} {ts : List Token} (hrest : Break rest)
    (h : Scans rest ts) : Scans (k.text ++ rest) (k.tokens ++ ts) := by
  cases k with
  | exact c => exact scans_chunk c hrest h
  | lpm c n =>
    have hn := scans_char (c := 47) (by simp) (scans_decimal n hrest h)
    have hc := scans_chunk c (break_of_separator (by simp) _) hn
    simpa [KeyText.text, KeyText.tokens] using hc
  | ternary c m =>
    have hm := scans_char (c := 38) (by simp) (scans_chunk m hrest h)
    have hc := scans_chunk c (break_of_separator (by simp) _) hm
    simpa [KeyText.text, KeyText.tokens] using hc

theorem KeyText.head (k : KeyText) : ∃ a y, k.text = a :: y ∧ Cp.isxdigit a = true := by
  cases k with
  | exact c => exact c.head
  | lpm c n =>
    obtain ⟨a, y, hay, ha⟩ := c.head
    exact ⟨a, _, by rw [KeyText.text, hay]; rfl, ha⟩
  | ternary c m =>
    obtain ⟨a, y, hay, ha⟩ := c.head
    exact ⟨a, _, by rw [KeyText.text, hay]; rfl, ha⟩

theorem scans_name (n : Name) {rest : Str} {ts : List Token} (hrest : HardBreak rest)
    (h : Scans rest ts) : Scans (n.text ++ rest) (.IDENTIFIER n.text :: ts) := by
  have hword : ∀ c ∈ n.text, isword c = true ∧ c ≠ 58 := by
    obtain ⟨a, y, hay, ha, hy⟩ := n.shape
    rw [hay]
    intro c hc
    have hc' : isword c = true := by
      rcases List.mem_cons.mp hc with rfl | hc
      · exact isword_of_isname ha
      · exact hy c hc
    exact ⟨hc', by rintro rfl; exact absurd hc' (by decide)⟩
  have hblank : (32 : UInt8) ∉ n.text := fun hm => absurd (hword 32 hm).1 (by decide)
  obtain ⟨a, y, hay, ha, -⟩ := n.shape
  refine scans_word (r := .IDENTIFIER) n.shape ⟨a, y, hay, isword_of_isname ha⟩ ?_ rfl
    hrest.ends h
  intro r' hr' hm
  cases r' with
  | insert_entry => exact n.free.1 hm
  | modify_entry => exact n.free.2.1 hm
  | delete_entry => exact n.free.2.2 hm
  | begin_transaction => exact hblank (by rw [show n.text = _ from hm]; decide)
  | end_transaction => exact hblank (by rw [show n.text = _ from hm]; decide)
  | COMMENT =>
    obtain ⟨w, hw, -⟩ := hm
    exact absurd (hword 35 (by rw [hw]; simp)).1 (by decide)
  | DECIMAL =>
    have hd := hm.2 a (by rw [hay]; simp)
    simp only [isname, isalpha, isdigit, Bool.or_eq_true, Bool.and_eq_true,
      decide_eq_true_eq] at ha hd
    grind
  | HEXADECIMAL =>
    obtain ⟨b, c, ps, hps, -, -, hne, -⟩ := hm
    obtain ⟨p, ps, rfl⟩ := List.exists_cons_of_ne_nil hne
    exact (hword 58 (by rw [hps]; simp)).2 rfl
  | _ => exact absurd hr' (by decide)

/-! ## Lines -/

theorem not_isblank_of_isword {c : UInt8} (h : isword c = true) : isblank c = false := by
  by_contra hb
  rw [(not_isword_of_isblank (by simpa using hb)).1] at h
  cases h

/-- The head of a field is not a blank. -/
theorem head_not_blank {x rest : Str} (h : ∃ a y, x = a :: y ∧ isword a = true) :
    ∀ c, (x ++ rest).head? = some c → isblank c = false := by
  obtain ⟨a, y, rfl, ha⟩ := h
  intro c hc
  cases hc
  exact not_isblank_of_isword ha

theorem isword_head {x : Str} (h : ∃ a y, x = a :: y ∧ isxdigit a = true) :
    ∃ a y, x = a :: y ∧ isword a = true := by
  obtain ⟨a, y, hay, ha⟩ := h
  exact ⟨a, y, hay, isword_of_isxdigit ha⟩

section Fields

variable {F : Type} {text : F → Str} {toks : F → List Token}

/-- A list of fields of one sort, each behind blanks. -/
theorem scans_fields (hhead : ∀ f, ∃ a y, text f = a :: y ∧ isxdigit a = true)
    (hscan : ∀ f {rest ts}, Break rest → Scans rest ts →
      Scans (text f ++ rest) (toks f ++ ts))
    (fs : List (Blanks × F)) {rest : Str} {ts : List Token} (hrest : Break rest)
    (h : Scans rest ts) :
    Break (fs.flatMap (fun p => p.1.text ++ text p.2) ++ rest) ∧
      Scans (fs.flatMap (fun p => p.1.text ++ text p.2) ++ rest)
        (fs.flatMap (fun p => .BLANK :: toks p.2) ++ ts) := by
  induction fs with
  | nil => exact ⟨hrest, h⟩
  | cons p fs ih =>
    obtain ⟨hbreak, hs⟩ := ih
    simp only [List.flatMap_cons, List.append_assoc, List.cons_append]
    exact ⟨break_blanks _ _,
      scans_blanks _ (head_not_blank (isword_head (hhead _))) (hscan _ hbreak hs)⟩

theorem hardBreak_fields (hhead : ∀ f, ∃ a y, text f = a :: y ∧ isxdigit a = true)
    (fs : List (Blanks × F)) {rest : Str} (hrest : HardBreak rest) :
    HardBreak (fs.flatMap (fun p => p.1.text ++ text p.2) ++ rest) := by
  cases fs with
  | nil => exact hrest
  | cons p fs =>
    obtain ⟨a, y, hay, ha⟩ := hhead p.2
    simp only [List.flatMap_cons, List.append_assoc]
    exact hardBreak_blanks _ ⟨a, _, by rw [hay]; rfl, ha⟩

end Fields

theorem Name.head (n : Name) : ∃ a y, n.text = a :: y ∧ isword a = true := by
  obtain ⟨a, y, hay, ha, -⟩ := n.shape
  exact ⟨a, y, hay, isword_of_isname ha⟩

theorem scans_spec (s : SpecText) {rest : Str} {ts : List Token} (hrest : HardBreak rest)
    (h : Scans rest ts) : Scans (s.text ++ rest) (s.tokens ++ ts) := by
  simp only [SpecText.text, SpecText.tokens, List.append_assoc, List.cons_append]
  exact scans_name _ (hardBreak_fields ChunkText.head _ hrest)
    (scans_fields ChunkText.head scans_chunk _ hrest.break h).2

theorem SpecText.head (s : SpecText) : ∃ a y, s.text = a :: y ∧ isword a = true := by
  obtain ⟨a, y, hay, ha⟩ := s.name.head
  exact ⟨a, _, by rw [SpecText.text, hay]; rfl, ha⟩

/-- The reserved words and phrases. -/
def reserved : List (Rule × Str × Token) :=
  [(.insert_entry, ascii "insert_entry", .INSERT_ENTRY),
    (.modify_entry, ascii "modify_entry", .MODIFY_ENTRY),
    (.delete_entry, ascii "delete_entry", .DELETE_ENTRY),
    (.begin_transaction, ascii "begin transaction", .BEGIN_TRANSACTION),
    (.end_transaction, ascii "end transaction", .END_TRANSACTION)]

theorem scans_reserved {r : Rule} {x : Str} {t : Token} (hr : (r, x, t) ∈ reserved)
    {rest : Str} {ts : List Token} (hrest : Break rest) (h : Scans rest ts) :
    Scans (x ++ rest) (t :: ts) := by
  have hword : Matches r x ∧ (∃ a y, x = a :: y ∧ isword a = true) ∧
      (∀ r' : Rule, r'.ctorIdx < r.ctorIdx → ¬ Matches r' x) ∧ token r x = some t ∧
      x ≠ ascii "begin" ∧ x ≠ ascii "end" := by
    simp only [reserved, List.mem_cons, Prod.mk.injEq, List.not_mem_nil, or_false] at hr
    rcases hr with ⟨rfl, rfl, rfl⟩ | ⟨rfl, rfl, rfl⟩ | ⟨rfl, rfl, rfl⟩ | ⟨rfl, rfl, rfl⟩ |
      ⟨rfl, rfl, rfl⟩
    all_goals
      refine ⟨rfl, ⟨_, _, rfl, by decide⟩, fun r' hr' hm => ?_, rfl, by decide, by decide⟩
      -- an earlier rule is another reserved word
      cases r' <;> first
        | exact absurd hr' (by decide)
        | exact absurd (show ascii _ = ascii _ from hm) (by decide)
  obtain ⟨hx, hhead, hfirst, ht, hends⟩ := hword
  exact scans_word hx hhead hfirst ht (hrest.ends hends) h

theorem scans_command (c : CommandText) {rest : Str} {ts : List Token}
    (hrest : HardBreak rest) (h : Scans rest ts) :
    Scans (c.text ++ rest) (c.tokens ++ ts) := by
  cases c with
  | insert b₁ table b₂ key keys b₃ spec =>
    simp only [CommandText.text, CommandText.tokens, List.append_assoc, List.cons_append]
    have hspec := scans_blanks b₃ (head_not_blank spec.head) (scans_spec spec hrest h)
    obtain ⟨hbreak, hkeys⟩ := scans_fields KeyText.head scans_key keys (break_blanks b₃ _) hspec
    have hkey := scans_blanks b₂ (head_not_blank (isword_head key.head))
      (scans_key key hbreak hkeys)
    obtain ⟨a, y, hay, ha⟩ := key.head
    have htable := scans_blanks b₁ (head_not_blank table.head)
      (scans_name table (hardBreak_blanks b₂ ⟨a, _, by rw [hay]; rfl, ha⟩) hkey)
    exact scans_reserved (r := .insert_entry) (by simp [reserved]) (break_blanks b₁ _) htable
  | modify b₁ table b₂ handle b₃ spec =>
    simp only [CommandText.text, CommandText.tokens, List.append_assoc, List.cons_append]
    have hspec := scans_blanks b₃ (head_not_blank spec.head) (scans_spec spec hrest h)
    obtain ⟨a, y, hay, ha⟩ := handle.head
    have hhandle := scans_blanks b₂ (head_not_blank ⟨a, y, hay, isword_of_isdigit ha⟩)
      (scans_decimal handle (break_blanks b₃ _) hspec)
    have htable := scans_blanks b₁ (head_not_blank table.head) (scans_name table
      (hardBreak_blanks b₂ ⟨a, _, by rw [hay]; rfl, isxdigit_of_isdigit ha⟩) hhandle)
    exact scans_reserved (r := .modify_entry) (by simp [reserved]) (break_blanks b₁ _) htable
  | delete b₁ table b₂ handle =>
    simp only [CommandText.text, CommandText.tokens, List.append_assoc, List.cons_append,
      List.nil_append]
    obtain ⟨a, y, hay, ha⟩ := handle.head
    have hhandle := scans_blanks b₂ (head_not_blank ⟨a, y, hay, isword_of_isdigit ha⟩)
      (scans_decimal handle hrest.break h)
    have htable := scans_blanks b₁ (head_not_blank table.head) (scans_name table
      (hardBreak_blanks b₂ ⟨a, _, by rw [hay]; rfl, isxdigit_of_isdigit ha⟩) hhandle)
    exact scans_reserved (r := .delete_entry) (by simp [reserved]) (break_blanks b₁ _) htable
  | begin_transaction =>
    have hmem : (.begin_transaction, ascii "begin transaction", .BEGIN_TRANSACTION) ∈ reserved := by
      simp [reserved]
    exact scans_reserved hmem hrest.break h
  | end_transaction =>
    have hmem : (.end_transaction, ascii "end transaction", .END_TRANSACTION) ∈ reserved := by
      simp [reserved]
    exact scans_reserved hmem hrest.break h

theorem CommandText.head (c : CommandText) : ∃ a y, c.text = a :: y ∧ isword a = true := by
  cases c <;> exact ⟨_, _, rfl, by decide⟩

/-- The tokens of a line. -/
theorem Line.scans (l : Line) :
    Scans l.text (l.lead_tokens ++ (l.command.tokens ++ l.tail_tokens)) := by
  obtain ⟨lead, command, newline⟩ := l
  have htail : Scans (command.text ++ if newline then [10] else [])
      (command.tokens ++ Line.tail_tokens ⟨lead, command, newline⟩) := by
    cases newline with
    | false => exact scans_command command (.inl rfl) .nil
    | true => exact scans_command command hardBreak_newline ⟨_, lexes_newline .nil, rfl⟩
  cases lead with
  | none => exact htail
  | some b => exact scans_blanks b (head_not_blank command.head) htail

end Pfp.Cp
