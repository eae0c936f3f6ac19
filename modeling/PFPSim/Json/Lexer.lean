import PFPSim.Json.Document

/-!
# The scanner of the JSON library

The `lexer` on a string. A byte is the character of its number, and the end of the string
reads as a null character, which ends the input wherever it stands. The numbers of states
are those of the labels of the generated automaton. The conversions of floating-point
numbers are a parameter (`Floats`).
-/

namespace Json

inductive TokenType where
  | literal_true
  | literal_false
  | literal_null
  | value_string
  | value_number
  | begin_array
  | begin_object
  | end_array
  | end_object
  | name_separator
  | value_separator
  | parse_error
  | end_of_input
  deriving DecidableEq

def TokenType.token_type_name : TokenType → String
  | .literal_true => "true literal"
  | .literal_false => "false literal"
  | .literal_null => "null literal"
  | .value_string => "string literal"
  | .value_number => "number literal"
  | .begin_array => "'['"
  | .begin_object => "'\x7b'"
  | .end_array => "']'"
  | .end_object => "'\x7d'"
  | .name_separator => "':'"
  | .value_separator => "','"
  | .parse_error => "<parse error>"
  | .end_of_input => "end of input"

inductive Exception where
  | invalid_argument (what : String)
  | out_of_range (what : String)
  /-- The model has not been given enough steps. -/
  | fuel
  deriving DecidableEq

/-- `strtod` on the text of a number, and what a stream prints of a number. -/
structure Floats (F : Type) where
  strtod : List Char → F
  print : F → List Char

/-- A token with its text, and the input behind it. -/
structure Scanned where
  type : TokenType
  token : List Char
  input : List Char
  deriving DecidableEq

namespace Lexer

def isblank (c : Char) : Bool := c = ' ' || c = '\t' || c = '\n' || c = '\r'

def isxdigit (c : Char) : Bool :=
  c.isDigit || 'A' ≤ c && c ≤ 'F' || 'a' ≤ c && c ≤ 'f'

theorem le_iff_toNat {c d : Char} : c ≤ d ↔ c.toNat ≤ d.toNat := Iff.rfl

theorem isDigit_iff {c : Char} : c.isDigit = true ↔ 48 ≤ c.toNat ∧ c.toNat ≤ 57 := by
  simp [Char.isDigit, UInt32.le_iff_toNat_le]

theorem isxdigit_iff {c : Char} : isxdigit c = true ↔ (48 ≤ c.toNat ∧ c.toNat ≤ 57) ∨
    (65 ≤ c.toNat ∧ c.toNat ≤ 70) ∨ (97 ≤ c.toNat ∧ c.toNat ≤ 102) := by
  simp [isxdigit, isDigit_iff, le_iff_toNat, or_assoc]

/-! ## Strings -/

/-- Where the automaton is in a string: between two characters (31), behind a backslash (36),
and in front of the last `left + 1` digits of a code point (43, 54, 60 and 63). -/
inductive StringState where
  | chars
  | escape
  | hex (left : Nat)
  deriving DecidableEq

def StringState.next : StringState → Char → Option StringState
  | .chars, c =>
    if c = '\\' then some .escape else if c.toNat ≤ 0x0F then none else some .chars
  | .escape, c =>
    if c ∈ ['"', '/', '\\', 'b', 'f', 'n', 'r', 't'] then some .chars
    else if c = 'u' then some (.hex 3)
    else none
  | .hex 0, c => if isxdigit c then some .chars else none
  | .hex (left + 1), c => if isxdigit c then some (.hex left) else none

/-- What is in front of the closing quote, and the input behind it. -/
def stringEnd : StringState → List Char → Option (List Char × List Char)
  | _, [] => none
  | state, c :: s =>
    if state = .chars ∧ c = '"' then some ([], s)
    else
      match state.next c with
      | some state => (stringEnd state s).map fun r => (c :: r.1, r.2)
      | none => none

/-- State 9. -/
def scanString (s : List Char) : Scanned :=
  match stringEnd .chars s with
  | some (t, s) => ⟨.value_string, '"' :: (t ++ ['"']), s⟩
  | none => ⟨.parse_error, ['"'], s⟩

/-! ## Numbers -/

/-- A number so far, and the input behind it. -/
abbrev Part := List Char × List Char

/-- At least one digit behind `front`. -/
def digits (front s : List Char) : Option Part :=
  if s.takeWhile Char.isDigit = [] then none
  else some (front ++ s.takeWhile Char.isDigit, s.dropWhile Char.isDigit)

/-- States 37 and 44. -/
def fraction : List Char → Option Part
  | [] => none
  | c :: s => if c = '.' then digits [c] s else none

/-- States 38, 46 and 47. -/
def exponent : List Char → Option Part
  | [] => none
  | c :: s =>
    if c = 'e' ∨ c = 'E' then
      match s with
      | [] => none
      | sign :: s => if sign = '+' ∨ sign = '-' then digits [c, sign] s else digits [c] (sign :: s)
    else none

/-- What follows the integer `front`, each part if it is complete. -/
def scanRest (front s : List Char) : Scanned :=
  let (f, s) := (fraction s).getD ([], s)
  let (e, s) := (exponent s).getD ([], s)
  ⟨.value_number, front ++ f ++ e, s⟩

/-- States 13 and 15: a number with the first digit `c`. -/
def scanNumber (sign : List Char) (c : Char) (s : List Char) : Scanned :=
  if c = '0' then scanRest (sign ++ [c]) s
  else scanRest (sign ++ c :: s.takeWhile Char.isDigit) (s.dropWhile Char.isDigit)

/-- State 12. -/
def scanMinus : List Char → Scanned
  | [] => ⟨.parse_error, ['-'], []⟩
  | c :: s => if c.isDigit then scanNumber ['-'] c s else ⟨.parse_error, ['-'], c :: s⟩

/-! ## Tokens -/

/-- States 23, 24 and 25: a literal that begins with `c` and goes on with `word`. -/
def scanLiteral (type : TokenType) (c : Char) (word s : List Char) : Scanned :=
  if word.isPrefixOf s then ⟨type, c :: word, s.drop word.length⟩ else ⟨.parse_error, [c], s⟩

/-- The token that begins with `c`. -/
def scanToken (c : Char) (s : List Char) : Scanned :=
  match c with
  | '\x00' => ⟨.end_of_input, [c], s⟩
  | '"' => scanString s
  | ',' => ⟨.value_separator, [c], s⟩
  | '-' => scanMinus s
  | ':' => ⟨.name_separator, [c], s⟩
  | '[' => ⟨.begin_array, [c], s⟩
  | ']' => ⟨.end_array, [c], s⟩
  | 'f' => scanLiteral .literal_false c ['a', 'l', 's', 'e'] s
  | 'n' => scanLiteral .literal_null c ['u', 'l', 'l'] s
  | 't' => scanLiteral .literal_true c ['r', 'u', 'e'] s
  | '{' => ⟨.begin_object, [c], s⟩
  | '}' => ⟨.end_object, [c], s⟩
  | _ => if c.isDigit then scanNumber [] c s else ⟨.parse_error, [c], s⟩

/-- Blanks (state 6) and byte order marks (states 30, 42 and 52) are passed over; `skip`
characters are passed already. -/
def scanFrom : Nat → List Char → Scanned
  | _, [] => ⟨.end_of_input, ['\x00'], []⟩
  | skip + 1, _ :: s => scanFrom skip s
  | 0, c :: s =>
    if isblank c then scanFrom 0 s
    else if c = '\u00ef' ∧ ['\u00bb', '\u00bf'].isPrefixOf s then scanFrom 2 s
    else scanToken c s

def scan (s : List Char) : Scanned := scanFrom 0 s

theorem scan_blank {c : Char} (h : isblank c = true) (s : List Char) : scan (c :: s) = scan s :=
  if_pos h

theorem scan_token {c : Char} (h : isblank c = false) (hc : c ≠ '\u00ef') (s : List Char) :
    scan (c :: s) = scanToken c s := by
  rw [scan, scanFrom, if_neg (by rw [h]; exact Bool.false_ne_true), if_neg fun hm => hc hm.1]

/-! ## Values of strings -/

def xvalue (c : Char) : Nat :=
  if c.toNat ≤ 57 then c.toNat - 48 else if c.toNat ≤ 70 then c.toNat - 55 else c.toNat - 87

/-- `strtoul` with base 16. -/
def strtoul (s : List Char) : Nat :=
  (s.takeWhile isxdigit).foldl (fun n c => 16 * n + xvalue c) 0

def byte (n : Nat) : Char := Char.ofNat n

/-- `to_unicode` behind the test for surrogates. -/
def encode (codepoint : Nat) : Except Exception (List Char) :=
  if codepoint < 0x80 then .ok [byte codepoint]
  else if codepoint ≤ 0x7ff then
    .ok [byte (0xC0 ||| (codepoint >>> 6 &&& 0x1F)), byte (0x80 ||| (codepoint &&& 0x3F))]
  else if codepoint ≤ 0xffff then
    .ok [byte (0xE0 ||| (codepoint >>> 12 &&& 0x0F)), byte (0x80 ||| (codepoint >>> 6 &&& 0x3F)),
      byte (0x80 ||| (codepoint &&& 0x3F))]
  else if codepoint ≤ 0x10ffff then
    .ok [byte (0xF0 ||| (codepoint >>> 18 &&& 0x07)), byte (0x80 ||| (codepoint >>> 12 &&& 0x3F)),
      byte (0x80 ||| (codepoint >>> 6 &&& 0x3F)), byte (0x80 ||| (codepoint &&& 0x3F))]
  else .error (.out_of_range "code points above 0x10FFFF are invalid")

def to_unicode (codepoint1 codepoint2 : Nat) : Except Exception (List Char) :=
  if 0xD800 ≤ codepoint1 ∧ codepoint1 ≤ 0xDBFF then
    if 0xDC00 ≤ codepoint2 ∧ codepoint2 ≤ 0xDFFF then
      encode ((codepoint1 <<< 10) + codepoint2 - 0x35FDC00)
    else .error (.invalid_argument "missing or wrong low surrogate")
  else encode codepoint1

/-- The code point whose digits begin `s`, with the number of characters from the `u` on. -/
def unicodeEscape (s : List Char) : Except Exception (List Char × Nat) :=
  let codepoint := strtoul (s.take 4)
  if 0xD800 ≤ codepoint ∧ codepoint ≤ 0xDBFF then
    match s.drop 4 with
    | '\\' :: 'u' :: s => do
      let text ← to_unicode codepoint (strtoul (s.take 4))
      return (text, 11)
    | _ => .error (.invalid_argument "missing low surrogate")
  else do
    let text ← to_unicode codepoint 0
    return (text, 5)

/-- What the escape with `c` and `s` behind its backslash adds, and its length from `c` on. -/
def escapeValue (c : Char) (s : List Char) : Except Exception (List Char × Nat) :=
  match c with
  | 't' => .ok (['\t'], 1)
  | 'b' => .ok (['\x08'], 1)
  | 'f' => .ok (['\x0c'], 1)
  | 'n' => .ok (['\n'], 1)
  | 'r' => .ok (['\r'], 1)
  | '\\' => .ok (['\\'], 1)
  | '/' => .ok (['/'], 1)
  | '"' => .ok (['"'], 1)
  | 'u' => unicodeEscape s
  | _ => .ok ([], 1)

/-- The loop of `get_string`, when `skip` characters are passed already. -/
def unescape : Nat → List Char → Except Exception (List Char)
  | _, [] => .ok []
  | skip + 1, _ :: s => unescape skip s
  | 0, c :: s =>
    if c = '\\' then
      match s with
      | [] => .ok []
      | c' :: s' => do
        let (text, length) ← escapeValue c' s'
        let rest ← unescape length s
        return text ++ rest
    else do
      let rest ← unescape 0 s
      return c :: rest

theorem unescape_char {c : Char} (h : c ≠ '\\') (s : List Char) :
    unescape 0 (c :: s) = (do let rest ← unescape 0 s; return c :: rest) := by
  rw [unescape.eq_def]
  exact if_neg h

theorem unescape_escape (c : Char) (s : List Char) :
    unescape 0 ('\\' :: c :: s) = (do
      let (text, length) ← escapeValue c s
      let rest ← unescape length (c :: s)
      return text ++ rest) := by
  rw [unescape.eq_def]
  exact if_pos rfl

def get_string (token : List Char) : Except Exception (List Char) :=
  unescape 0 (token.drop 1).dropLast

/-! ## Values of numbers -/

/-- The integer that is the whole token; `none` if there is more, or it is out of range. -/
def toInteger {F : Type} (token : List Char) : Option (Primitive F) :=
  match token with
  | '-' :: ds =>
    let n := Nat.ofDigitChars 10 ds 0
    if ds.all Char.isDigit ∧ n ≤ 2 ^ 63 then some (.number_integer (Int64.ofInt (-n))) else none
  | ds =>
    let n := Nat.ofDigitChars 10 ds 0
    if ds.all Char.isDigit ∧ n < 2 ^ 64 then some (.number_unsigned (UInt64.ofNat n)) else none

/-- `strtoull` or `strtoll`; `none` if it does not end with the token, or the integer is out of
range. It goes on in digits behind the token, which can only be a zero then. -/
def readInteger {F : Type} (token input : List Char) : Option (Primitive F) :=
  if input.head?.any Char.isDigit then none else toInteger token

/-- A token without a fraction and an exponent. -/
def isInteger (token : List Char) : Bool := (token.dropWhile (· = '-')).all Char.isDigit

/-- Whether `strtod` reads on behind the token: it goes on in digits behind an integer, and in a
point. -/
def readsOn (token input : List Char) : Bool :=
  isInteger token && input.head?.any fun c => c.isDigit || c = '.'

def get_number {F : Type} (floats : Floats F) (token input : List Char) :
    Except Exception (Primitive F) :=
  match readInteger token input with
  | some p => .ok p
  | none =>
    if readsOn token input then
      .error (.invalid_argument ("parse error - " ++ String.ofList token ++ " is not a number"))
    else .ok (.number_float (floats.strtod token))

/-- The number with the given text. -/
def number {F : Type} (floats : Floats F) (token : List Char) : Primitive F :=
  (toInteger token).getD (.number_float (floats.strtod token))

example : scan " -1.5e+x".toList = ⟨.value_number, "-1.5".toList, "e+x".toList⟩ := by
  decide +kernel

/-- The documentation of `get_number` takes `01` for two numbers. -/
example : get_number (F := Unit) ⟨fun _ => (), fun _ => []⟩ ['0'] ['1'] =
    .error (.invalid_argument "parse error - 0 is not a number") := by
  decide +kernel

example : get_string "\"a\\ud83d\\uDE00\"".toList =
    .ok ['a', byte 0xF0, byte 0x9F, byte 0x98, byte 0x80] := by
  decide +kernel

end Lexer

end Json
