import Mathlib.Tactic.IntervalCases
import PFPSim.Lex.Munch
import PFPSim.Cp.Commands

/-!
# The scanner

The rules of `tokens.l` in their order, with the regular expressions of the source, and
the token that each rule returns. A token value of `0` or less is the end of input for
the parser: `token` is `none` there. The scanner returns such a value for a decimal
literal of `2 ^ 64` or more, for a NUL character and for a character above `127`, which a
signed `char` makes negative.

`scan` is what the parser sees of a line, and `unread` the text behind the lexeme that
ended it. `Matches` describes the words of each rule and `munches_iff` the longest match
in these terms.
-/

namespace Pfp.Cp

open RegularExpression Lex

/-! ## Rules -/

inductive Rule where
  | insert_entry | modify_entry | delete_entry | begin_transaction | end_transaction
  | COMMENT | DECIMAL | HEXADECIMAL | IDENTIFIER | blank | EOL | any
  deriving DecidableEq

def isdigit (c : UInt8) : Bool := 48 ≤ c && c ≤ 57

def isalpha (c : UInt8) : Bool := 65 ≤ c && c ≤ 90 || 97 ≤ c && c ≤ 122

def isxdigit (c : UInt8) : Bool := isdigit c || 65 ≤ c && c ≤ 70 || 97 ≤ c && c ≤ 102

def isblank (c : UInt8) : Bool := c = 32 || c = 9

/-- `[[:alpha:]_]` -/
def isname (c : UInt8) : Bool := isalpha c || c = 95

/-- `[[:alpha:][:digit:]_]` -/
def isword (c : UInt8) : Bool := isalpha c || isdigit c || c = 95

/-- The characters of a class. -/
def chars (p : UInt8 → Bool) : List UInt8 := ((List.range 256).map UInt8.ofNat).filter p

def plus (P : RegularExpression UInt8) : RegularExpression UInt8 := P * star P

def pattern : Rule → RegularExpression UInt8
  | .insert_entry => word (ascii "insert_entry")
  | .modify_entry => word (ascii "modify_entry")
  | .delete_entry => word (ascii "delete_entry")
  | .begin_transaction => word (ascii "begin transaction")
  | .end_transaction => word (ascii "end transaction")
  | .COMMENT => word (ascii "#") * star (cls (chars (· ≠ 10)))
  | .DECIMAL => plus (cls (chars isdigit))
  | .HEXADECIMAL => cls (chars isxdigit) * (cls (chars isxdigit) *
      plus (word (ascii ":") * (cls (chars isxdigit) * cls (chars isxdigit))))
  | .IDENTIFIER => cls (chars isname) * star (cls (chars isword))
  | .blank => plus (cls (chars isblank))
  | .EOL => word [10]
  | .any => cls (chars (· ≠ 10))

def order : List Rule :=
  [.insert_entry, .modify_entry, .delete_entry, .begin_transaction, .end_transaction,
    .COMMENT, .DECIMAL, .HEXADECIMAL, .IDENTIFIER, .blank, .EOL, .any]

def rules : List (Rule × RegularExpression UInt8) := order.map fun r => (r, pattern r)

/-! ## Tokens -/

/-- A token with the value that is returned with it. The value of a reserved word is a
new command without data and is made in `Token.value`. -/
inductive Token where
  | INSERT_ENTRY | MODIFY_ENTRY | DELETE_ENTRY | BEGIN_TRANSACTION | END_TRANSACTION
  | COMMENT
  | DECIMAL (v : UInt64)
  | HEXADECIMAL (v : Bytes)
  | IDENTIFIER (v : Str)
  | BLANK
  | EOL
  | char (c : UInt8)
  deriving DecidableEq

/-- The number a string of digits denotes in base `b`. -/
def digits (b : Nat) (value : UInt8 → Nat) (s : Str) : Nat :=
  s.foldl (fun n c => n * b + value c) 0

/-- The value of a digit, decimal or hexadecimal. -/
def xvalue (c : UInt8) : Nat :=
  if isdigit c then c.toNat - 48
  else if 97 ≤ c then c.toNat - 87
  else c.toNat - 55

/-- `std::stoull`, with `none` for `std::out_of_range`. -/
def stoull (s : Str) : Option UInt64 :=
  if digits 10 xvalue s < 2 ^ 64 then some (UInt64.ofNat (digits 10 xvalue s)) else none

/-- The loop over the pairs of a hexadecimal literal. -/
def hexBytes : Str → Bytes
  | [] => []
  | [a] => [UInt8.ofNat (digits 16 xvalue [a])]
  | [a, b] => [UInt8.ofNat (digits 16 xvalue [a, b])]
  | a :: b :: _ :: s => UInt8.ofNat (digits 16 xvalue [a, b]) :: hexBytes s

def token : Rule → Str → Option Token
  | .insert_entry, _ => some .INSERT_ENTRY
  | .modify_entry, _ => some .MODIFY_ENTRY
  | .delete_entry, _ => some .DELETE_ENTRY
  | .begin_transaction, _ => some .BEGIN_TRANSACTION
  | .end_transaction, _ => some .END_TRANSACTION
  | .COMMENT, _ => some .COMMENT
  | .DECIMAL, matched => (stoull matched).map .DECIMAL
  | .HEXADECIMAL, matched => some (.HEXADECIMAL (hexBytes matched))
  | .IDENTIFIER, matched => some (.IDENTIFIER matched)
  | .blank, _ => some .BLANK
  | .EOL, _ => some .EOL
  | .any, matched =>
    -- `matched()[0]` as a signed `char`
    match matched with
    | c :: _ => if c = 0 ∨ 128 ≤ c then none else some (.char c)
    | [] => none

abbrev Lexeme := Rule × Str

def Lexeme.token (l : Lexeme) : Option Token := Cp.token l.1 l.2

/-- The tokens in front of the first lexeme without one. -/
def tokens : List Lexeme → List Token
  | [] => []
  | l :: ls =>
    match l.token with
    | some t => t :: tokens ls
    | none => []

/-- The lexemes behind the first one without a token. -/
def remaining : List Lexeme → List Lexeme
  | [] => []
  | l :: ls =>
    match l.token with
    | some _ => remaining ls
    | none => ls

/-- The tokens the parser gets from a line. -/
def scan (line : Str) : List Token := tokens (lexemes rules line)

/-- The characters of the line that the scanner has not matched when the parser sees the
end of its input. -/
def unread (line : Str) : Str := ((remaining (lexemes rules line)).map Prod.snd).flatten

/-! ## The words of the rules -/

def Matches : Rule → Str → Prop
  | .insert_entry, x => x = ascii "insert_entry"
  | .modify_entry, x => x = ascii "modify_entry"
  | .delete_entry, x => x = ascii "delete_entry"
  | .begin_transaction, x => x = ascii "begin transaction"
  | .end_transaction, x => x = ascii "end transaction"
  | .COMMENT, x => ∃ y, x = 35 :: y ∧ ∀ c ∈ y, c ≠ 10
  | .DECIMAL, x => x ≠ [] ∧ ∀ c ∈ x, isdigit c
  | .HEXADECIMAL, x => ∃ (a b : UInt8) (ps : List (UInt8 × UInt8)),
      x = a :: b :: ps.flatMap (fun p => [58, p.1, p.2]) ∧
      isxdigit a ∧ isxdigit b ∧ ps ≠ [] ∧ ∀ p ∈ ps, isxdigit p.1 ∧ isxdigit p.2
  | .IDENTIFIER, x => ∃ a y, x = a :: y ∧ isname a ∧ ∀ c ∈ y, isword c
  | .blank, x => x ≠ [] ∧ ∀ c ∈ x, isblank c
  | .EOL, x => x = [10]
  | .any, x => ∃ c, x = [c] ∧ c ≠ 10

theorem mem_chars {p : UInt8 → Bool} {c : UInt8} : c ∈ chars p ↔ p c = true := by
  simp only [chars, List.mem_filter, List.mem_map, List.mem_range, and_iff_right_iff_imp]
  exact fun _ => ⟨c.toNat, c.toNat_lt, by simp⟩

theorem mem_plus_cls {p : UInt8 → Bool} {x : Str} :
    x ∈ (plus (cls (chars p))).matches' ↔ x ≠ [] ∧ ∀ c ∈ x, p c = true := by
  rw [plus, mem_cls_mul]
  simp only [mem_star_cls, mem_chars]
  constructor
  · rintro ⟨a, y, rfl, ha, hy⟩
    exact ⟨by simp, by simpa using ⟨ha, hy⟩⟩
  · rintro ⟨hne, hx⟩
    cases x with
    | nil => exact absurd rfl hne
    | cons a y => exact ⟨a, y, rfl, hx a (by simp), fun c hc => hx c (by simp [hc])⟩

theorem mem_pair {x : Str} :
    x ∈ (word (ascii ":") * (cls (chars isxdigit) * cls (chars isxdigit))).matches' ↔
      ∃ p : UInt8 × UInt8, x = [58, p.1, p.2] ∧ isxdigit p.1 ∧ isxdigit p.2 := by
  rw [matches'_mul, Language.mem_mul]
  simp only [mem_word, mem_cls_mul, mem_cls, mem_chars]
  constructor
  · rintro ⟨_, rfl, _, ⟨a, _, rfl, ha, b, hb, rfl⟩, rfl⟩
    exact ⟨(a, b), rfl, ha, hb⟩
  · rintro ⟨⟨a, b⟩, rfl, ha, hb⟩
    exact ⟨[58], rfl, [a, b], ⟨a, [b], rfl, ha, b, hb, rfl⟩, rfl⟩

theorem mem_pairs {x : Str} :
    x ∈ (plus (word (ascii ":") * (cls (chars isxdigit) * cls (chars isxdigit)))).matches' ↔
      ∃ ps : List (UInt8 × UInt8), x = ps.flatMap (fun p => [58, p.1, p.2]) ∧ ps ≠ [] ∧
        ∀ p ∈ ps, isxdigit p.1 ∧ isxdigit p.2 := by
  rw [plus, matches'_mul, Language.mem_mul]
  simp only [mem_pair, matches'_star, Language.mem_kstar]
  constructor
  · rintro ⟨_, ⟨p, rfl, hp⟩, _, ⟨ys, rfl, hys⟩, rfl⟩
    obtain ⟨ps, rfl, hps⟩ : ∃ ps : List (UInt8 × UInt8),
        ys = ps.map (fun p => [58, p.1, p.2]) ∧ ∀ p ∈ ps, isxdigit p.1 ∧ isxdigit p.2 := by
      clear hp
      induction ys with
      | nil => exact ⟨[], rfl, by simp⟩
      | cons y ys ih =>
        obtain ⟨q, rfl, hq⟩ := hys y (by simp)
        obtain ⟨ps, rfl, hps⟩ := ih fun z hz => hys z (by simp [hz])
        exact ⟨q :: ps, rfl, List.forall_mem_cons.mpr ⟨hq, hps⟩⟩
    exact ⟨p :: ps, by simp [List.flatMap_def], by simp, List.forall_mem_cons.mpr ⟨hp, hps⟩⟩
  · rintro ⟨ps, rfl, hne, hps⟩
    cases ps with
    | nil => exact absurd rfl hne
    | cons p ps =>
      refine ⟨_, ⟨p, rfl, hps p (by simp)⟩, (ps.map fun p => [58, p.1, p.2]).flatten,
        ⟨_, rfl, ?_⟩, by simp [List.flatMap_def]⟩
      intro y hy
      obtain ⟨q, hq, rfl⟩ := List.mem_map.mp hy
      exact ⟨q, rfl, hps q (by simp [hq])⟩

theorem mem_pattern {r : Rule} {x : Str} : x ∈ (pattern r).matches' ↔ Matches r x := by
  cases r with
  | COMMENT =>
    rw [pattern, matches'_mul, Language.mem_mul]
    simp only [mem_word, mem_star_cls, mem_chars, Matches, ne_eq, decide_not, Bool.not_eq_true',
      decide_eq_false_iff_not]
    constructor
    · rintro ⟨_, rfl, y, hy, rfl⟩
      exact ⟨y, rfl, hy⟩
    · rintro ⟨y, rfl, hy⟩
      exact ⟨[35], rfl, y, hy, rfl⟩
  | DECIMAL => exact mem_plus_cls
  | blank => exact mem_plus_cls
  | HEXADECIMAL =>
    simp only [pattern, mem_cls_mul, mem_pairs, mem_chars, Matches]
    constructor
    · rintro ⟨a, _, rfl, ha, b, _, rfl, hb, ps, rfl, hps⟩
      exact ⟨a, b, ps, rfl, ha, hb, hps⟩
    · rintro ⟨a, b, ps, rfl, ha, hb, hps⟩
      exact ⟨a, _, rfl, ha, b, _, rfl, hb, ps, rfl, hps⟩
  | IDENTIFIER => simp only [pattern, mem_cls_mul, mem_star_cls, mem_chars, Matches]
  | any => simp [pattern, mem_cls, mem_chars, Matches, and_comm]
  | _ => exact mem_word

theorem order_getElem? {i : Nat} {r : Rule} : order[i]? = some r ↔ i = r.ctorIdx := by
  constructor
  · intro h
    obtain ⟨hi, rfl⟩ := List.getElem?_eq_some_iff.mp h
    have hlt : i < 12 := hi
    interval_cases i <;> rfl
  · rintro rfl
    cases r <;> rfl

/-- Longest match and earliest rule, in terms of `Matches`. -/
theorem munches_iff {r : Rule} {x rest : Str} : Munches rules r x rest ↔
    Matches r x ∧ (∀ r' : Rule, r'.ctorIdx < r.ctorIdx → ¬ Matches r' x) ∧
      ∀ r' y z, rest = y ++ z → y ≠ [] → ¬ Matches r' (x ++ y) := by
  have hget : ∀ i r' P, rules[i]? = some (r', P) ↔ i = r'.ctorIdx ∧ P = pattern r' := by
    intro i r' P
    rw [rules, List.getElem?_map, Option.map_eq_some_iff]
    constructor
    · rintro ⟨_, hi, heq⟩
      cases heq
      exact ⟨order_getElem?.mp hi, rfl⟩
    · rintro ⟨hi, rfl⟩
      exact ⟨r', order_getElem?.mpr hi, rfl⟩
  constructor
  · rintro ⟨⟨i, P, hi, hP, hfront⟩, hmax⟩
    obtain ⟨rfl, rfl⟩ := (hget _ _ _).mp hi
    refine ⟨mem_pattern.mp hP, fun r' hr' h => ?_, fun r' y z hyz hy h => ?_⟩
    · exact hfront _ hr' _ ((hget _ _ _).mpr ⟨rfl, rfl⟩) (mem_pattern.mpr h)
    · exact hmax _ (List.mem_of_getElem? ((hget _ r' _).mpr ⟨rfl, rfl⟩)) y z hyz hy
        (mem_pattern.mpr h)
  · rintro ⟨hx, hfront, hmax⟩
    refine ⟨⟨_, _, (hget _ _ _).mpr ⟨rfl, rfl⟩, mem_pattern.mpr hx, ?_⟩, ?_⟩
    · rintro j hj ⟨r', P⟩ hp
      obtain ⟨rfl, rfl⟩ := (hget _ _ _).mp hp
      exact fun h => hfront r' hj (mem_pattern.mp h)
    · intro p hp y z hyz hy h
      obtain ⟨r', -, rfl⟩ := List.mem_map.mp hp
      exact hmax r' y z hyz hy (mem_pattern.mp h)

theorem mem_rules (r : Rule) : (r, pattern r) ∈ rules :=
  List.mem_map_of_mem (by cases r <;> decide)

/-- Every character is matched by some rule, so that the scanner reads the whole line. -/
theorem lexes_line (line : Str) : Lexes rules line (lexemes rules line) := by
  refine lexes_lexemes (fun c => ?_) line
  by_cases h : c = 10
  · have hEOL : Matches .EOL [c] := by rw [h]; rfl
    exact ⟨_, mem_rules .EOL, mem_pattern.mpr hEOL⟩
  · have hany : Matches .any [c] := ⟨c, rfl, h⟩
    exact ⟨_, mem_rules .any, mem_pattern.mpr hany⟩

end Pfp.Cp
