import Mathlib.Data.Nat.Digits.Defs
import PFPSim.Cp.Consumed
import PFPSim.Cp.Literals

/-!
# Which inserts have a line

Every nonempty list of keys can be written in an insert command (`text_of_keys`): bytes of
any length are a literal, where needed with a size. The empty list, which the grammar has a
production for, cannot: it would take two blank tokens behind each other, and the scanner
makes one token of them (`scan_blanks_apart`).
-/

namespace Pfp.Cp

open Lr Lex

/-! ## Tokens of a line -/

theorem munches_of_mem {line : Str} {l : Lexeme} (h : l ∈ lexemes rules line) :
    ∃ rest, Munches rules l.1 l.2 rest := by
  have hlex := lexes_line line
  generalize lexemes rules line = ls at h hlex
  induction hlex with
  | nil => cases h
  | cons _ hm _ ih =>
    rcases List.mem_cons.mp h with rfl | h
    · exact ⟨_, hm⟩
    · exact ih h

theorem lexeme_of_token {ls : List Lexeme} {t : Token} (h : t ∈ tokens ls) :
    ∃ l ∈ ls, Lexeme.token l = some t := by
  induction ls with
  | nil => cases h
  | cons l ls ih =>
    cases ht : l.token with
    | none =>
      rw [tokens, ht] at h
      cases h
    | some t' =>
      simp only [tokens, ht, List.mem_cons] at h
      rcases h with rfl | h
      · exact ⟨l, List.mem_cons_self, ht⟩
      · obtain ⟨l', hl', htok⟩ := ih h
        exact ⟨l', List.mem_cons_of_mem _ hl', htok⟩

theorem token_DECIMAL {x : Str} {t : Token} (h : token .DECIMAL x = some t) :
    ∃ v, t = .DECIMAL v := by
  simp only [token, Option.map_eq_some_iff] at h
  obtain ⟨v, -, hv⟩ := h
  exact ⟨v, hv.symm⟩

theorem token_any {x : Str} {t : Token} (h : token .any x = some t) : ∃ c, t = .char c := by
  simp only [token] at h
  split at h
  · split at h
    · cases h
    · exact ⟨_, (Option.some.inj h).symm⟩
  · cases h

theorem rule_of_BLANK {r : Rule} {x : Str} (h : token r x = some .BLANK) : r = .blank := by
  cases r with
  | blank => rfl
  | DECIMAL =>
    obtain ⟨v, hv⟩ := token_DECIMAL h
    cases hv
  | any =>
    obtain ⟨c, hc⟩ := token_any h
    cases hc
  | _ => cases h

theorem rule_of_IDENTIFIER {r : Rule} {x s : Str} (h : token r x = some (.IDENTIFIER s)) :
    r = .IDENTIFIER ∧ x = s := by
  cases r with
  | IDENTIFIER =>
    cases h
    exact ⟨rfl, rfl⟩
  | DECIMAL =>
    obtain ⟨v, hv⟩ := token_DECIMAL h
    cases hv
  | any =>
    obtain ⟨c, hc⟩ := token_any h
    cases hc
  | _ => cases h

/-- A name that is no reserved word. -/
def IsName (s : Str) : Prop :=
  Matches .IDENTIFIER s ∧ s ≠ ascii "insert_entry" ∧ s ≠ ascii "modify_entry" ∧
    s ≠ ascii "delete_entry"

theorem isName_of_scan {line s : Str} (h : .IDENTIFIER s ∈ scan line) : IsName s := by
  obtain ⟨⟨r, x⟩, hl, htok⟩ := lexeme_of_token h
  obtain ⟨rfl, rfl⟩ := rule_of_IDENTIFIER htok
  obtain ⟨rest, hm⟩ := munches_of_mem hl
  obtain ⟨hmatch, hfirst, -⟩ := munches_iff.mp hm
  have hlt : ∀ r' ∈ [Rule.insert_entry, .modify_entry, .delete_entry],
      r'.ctorIdx < Rule.IDENTIFIER.ctorIdx := by decide
  refine ⟨hmatch, ?_, ?_, ?_⟩
  · exact hfirst .insert_entry (hlt _ (by simp))
  · exact hfirst .modify_entry (hlt _ (by simp))
  · exact hfirst .delete_entry (hlt _ (by simp))

/-- Two runs of blanks never follow each other, since the first one takes the second. -/
theorem tokens_blanks_apart {line : Str} {ls : List Lexeme} (h : Lexes rules line ls)
    (u v : List Token) : tokens ls ≠ u ++ .BLANK :: .BLANK :: v := by
  induction h generalizing u with
  | nil => simp [tokens]
  | @cons r x rest ls hx hm tail ih =>
    intro htok
    cases ht : Lexeme.token (r, x) with
    | none =>
      rw [tokens, ht] at htok
      simp at htok
    | some t =>
      rw [tokens, ht] at htok
      cases u with
      | cons t' u => exact ih u (List.cons.inj htok).2
      | nil =>
        obtain ⟨rfl, hnext⟩ := List.cons.inj htok
        obtain rfl := rule_of_BLANK ht
        cases tail with
        | nil => cases hnext
        | @cons r' x' rest' ls' hx' hm' _ =>
          cases ht' : Lexeme.token (r', x') with
          | none =>
            rw [tokens, ht'] at hnext
            cases hnext
          | some t' =>
            rw [tokens, ht'] at hnext
            obtain rfl := (List.cons.inj hnext).1
            obtain rfl := rule_of_BLANK ht'
            obtain ⟨⟨-, hblank⟩, -, hmax⟩ := munches_iff.mp hm
            obtain ⟨⟨-, hblank'⟩, -, -⟩ := munches_iff.mp hm'
            apply hmax .blank x' rest' rfl hx'
            refine ⟨by simp [hx], ?_⟩
            intro c hc
            exact (List.mem_append.mp hc).elim (hblank c) (hblank' c)

theorem scan_blanks_apart (line : Str) (u v : List Token) :
    scan line ≠ u ++ .BLANK :: .BLANK :: v :=
  tokens_blanks_apart (lexes_line line) u v

theorem Spec.name_mem {w : List Token} {a : Action} (h : Spec w a) : .IDENTIFIER a.name ∈ w := by
  induction h with
  | name s => exact List.mem_singleton.mpr rfl
  | param _ _ ih => exact List.mem_append_left _ ih

theorem Keys.tokens_nil {w : List Token} (h : Keys w []) : w = [] := by
  generalize hks : ([] : List MatchKey) = ks at h
  cases h with
  | nil => rfl
  | one _ => cases hks
  | snoc _ _ => simp at hks

/-- What a line of an insert command has. -/
theorem of_parse_insert {line s : Str} {keys : List MatchKey} {action : Action}
    (h : parse_line line = .ok (some (.InsertCommand
      { table_name := s, keys := some keys, action := some action }))) :
    keys ≠ [] ∧ IsName s ∧ IsName action.name := by
  obtain ⟨lead, -, core, tail, -, hscan, hcore, -⟩ := parse_eq_iff.mp h
  cases hcore with
  | @insert w u _ _ _ hk ha =>
    refine ⟨?_, ?_, ?_⟩
    · rintro rfl
      rw [hk.tokens_nil] at hscan
      apply scan_blanks_apart line (lead ++ [.INSERT_ENTRY, .BLANK, .IDENTIFIER s]) (u ++ tail)
      rw [hscan]
      simp
    · have hmem : .IDENTIFIER s ∈ scan line := by
        rw [hscan]
        simp
      exact isName_of_scan hmem
    · have hmem : .IDENTIFIER action.name ∈ scan line := by
        rw [hscan]
        simp [ha.name_mem]
      exact isName_of_scan hmem

/-! ## The text of a key -/

/-- The digits of a number, with a zero in front. -/
def decimalDigits (n : Nat) : Str :=
  48 :: (Nat.digits 10 n).reverse.map fun d => UInt8.ofNat (48 + d)

theorem isdigit_ofNat {d : Nat} (h : d < 10) :
    isdigit (UInt8.ofNat (48 + d)) = true ∧ xvalue (UInt8.ofNat (48 + d)) = d := by
  have hall : ∀ d : Fin 10, isdigit (UInt8.ofNat (48 + d)) = true ∧
      xvalue (UInt8.ofNat (48 + d)) = d := by decide
  exact hall ⟨d, h⟩

theorem digits_decimalDigits (n : Nat) : digits 10 xvalue (decimalDigits n) = n := by
  have hzero : 0 * 10 + xvalue 48 = 0 := by decide
  rw [digits, decimalDigits, List.foldl_cons, hzero, List.foldl_map, List.foldl_reverse]
  calc (Nat.digits 10 n).foldr (fun d m => m * 10 + xvalue (UInt8.ofNat (48 + d))) 0
      = (Nat.digits 10 n).foldr (fun d m => d + 10 * m) 0 := by
        apply List.foldr_ext
        intro d hd m
        rw [(isdigit_ofNat (Nat.digits_lt_base (by decide) hd)).2]
        omega
    _ = Nat.ofDigits 10 (Nat.digits 10 n) := (Nat.ofDigits_eq_foldr 10 _).symm
    _ = n := Nat.ofDigits_digits 10 n

/-- The decimal of a number of 64 bits. -/
def decimalOf (n : UInt64) : Decimal where
  text := decimalDigits n.toNat
  ne_nil := List.cons_ne_nil _ _
  isdigit c hc := by
    rcases List.mem_cons.mp hc with rfl | hc
    · decide
    · obtain ⟨d, hd, rfl⟩ := List.mem_map.mp hc
      exact (isdigit_ofNat (Nat.digits_lt_base (by decide) (List.mem_reverse.mp hd))).1
  fits := by
    rw [digits_decimalDigits]
    exact n.toNat_lt

theorem decimalOf_value (n : UInt64) : UInt64.ofNat (decimalOf n).value = n := by
  rw [Decimal.value, show (decimalOf n).text = decimalDigits n.toNat from rfl,
    digits_decimalDigits, UInt64.ofNat_toNat]

/-- The two digits of a byte. -/
def digitsOf (x : UInt8) : UInt8 × UInt8 := (hexDigit (x.toNat / 16), hexDigit (x.toNat % 16))

theorem isxdigit_digitsOf (x : UInt8) : isxdigit (digitsOf x).1 ∧ isxdigit (digitsOf x).2 := by
  have hx := x.toNat_lt
  exact ⟨(xvalue_hexDigit (by omega)).1, (xvalue_hexDigit (by omega)).1⟩

theorem byte_digitsOf (x : UInt8) :
    UInt8.ofNat (16 * xvalue (digitsOf x).1 + xvalue (digitsOf x).2) = x := by
  have hx := x.toNat_lt
  rw [digitsOf, (xvalue_hexDigit (d := x.toNat / 16) (by omega)).2,
    (xvalue_hexDigit (d := x.toNat % 16) (by omega)).2, Nat.div_add_mod, UInt8.ofNat_toNat]

/-- A literal of two bytes or more. -/
def hexadecimalOf (x y : UInt8) (b : Bytes) : Hexadecimal where
  first := digitsOf x
  others := (y :: b).map digitsOf
  two := List.cons_ne_nil _ _
  isxdigit p hp := by
    rw [← List.map_cons] at hp
    obtain ⟨z, -, rfl⟩ := List.mem_map.mp hp
    exact isxdigit_digitsOf z

theorem hexadecimalOf_bytes (x y : UInt8) (b : Bytes) :
    (Literal.hexadecimal (hexadecimalOf x y b)).bytes = x :: y :: b := by
  have hbytes : ((x :: y :: b).map digitsOf).map
      (fun p => UInt8.ofNat (16 * xvalue p.1 + xvalue p.2)) = x :: y :: b := by
    rw [List.map_map]
    conv_rhs => rw [← List.map_id (x :: y :: b)]
    apply List.map_congr_left
    intro z _
    exact byte_digitsOf z
  exact hbytes

/-- Bytes of any length as a chunk. One byte is the last of two, none is two cut to none. -/
def chunkOf : Bytes → ChunkText
  | [] => ⟨.hexadecimal (hexadecimalOf 0 0 []), some (decimalOf 0), fun n hn => by
      rw [← Option.some.inj hn]
      decide⟩
  | [x] => ⟨.hexadecimal (hexadecimalOf 0 x []), some (decimalOf 1), fun n hn => by
      rw [← Option.some.inj hn, hexadecimalOf_bytes]
      exact show (decimalOf 1).value ≤ 2 by decide⟩
  | x :: y :: b => ⟨.hexadecimal (hexadecimalOf x y b), none, fun n hn => by cases hn⟩

theorem chunkOf_read (b : Bytes) : (chunkOf b).read = b := by
  match b with
  | [] => decide
  | [x] =>
    have hkept : ∀ n ∈ (chunkOf [x]).size, Kept (chunkOf [x]).literal.bytes n.value := by
      intro n _
      left
      rw [chunkOf, hexadecimalOf_bytes]
      have hlength : [0, x].length = 2 := rfl
      omega
    rw [(ChunkText.read_eq_iff _).mpr hkept, ChunkText.bytes]
    simp only [chunkOf, hexadecimalOf_bytes]
    rfl
  | x :: y :: b => exact hexadecimalOf_bytes x y b

def keyOf : MatchKey → KeyText
  | .ExactKey b => .exact (chunkOf b)
  | .LpmKey b n => .lpm (chunkOf b) (decimalOf n)
  | .TernaryKey b m => .ternary (chunkOf b) (chunkOf m)

theorem keyOf_key (k : MatchKey) : (keyOf k).key ChunkText.read = k := by
  cases k with
  | ExactKey b => rw [keyOf, KeyText.key, chunkOf_read]
  | LpmKey b n => rw [keyOf, KeyText.key, chunkOf_read, decimalOf_value]
  | TernaryKey b m => rw [keyOf, KeyText.key, chunkOf_read, chunkOf_read]

def specOf (a : Action) (h : IsName a.name) : SpecText where
  name := ⟨a.name, h.1, h.2⟩
  params := a.params.map fun b => (oneBlank, chunkOf b)

theorem specOf_action (a : Action) (h : IsName a.name) :
    (specOf a h).action ChunkText.read = a := by
  have hparams : (a.params.map fun b => (chunkOf b).read) = a.params := by
    simp only [chunkOf_read, List.map_id']
  rw [SpecText.action, specOf, List.map_map]
  exact congrArg (fun ps => (⟨a.name, ps⟩ : Action)) hparams

/-- The line of an insert with the keys `k` and `ks`. -/
def insertLine (s : Str) (hs : IsName s) (k : MatchKey) (ks : List MatchKey) (a : Action)
    (ha : IsName a.name) : Line where
  lead := none
  command := .insert oneBlank ⟨s, hs.1, hs.2⟩ oneBlank (keyOf k)
    (ks.map fun k' => (oneBlank, keyOf k')) oneBlank (specOf a ha)
  newline := false

theorem parse_insertLine {s : Str} (hs : IsName s) (k : MatchKey) (ks : List MatchKey)
    {a : Action} (ha : IsName a.name) : parse_line (insertLine s hs k ks a ha).text =
      .ok (some (.InsertCommand
        { table_name := s, keys := some (k :: ks), action := some a })) := by
  have hkeys : (ks.map fun k' => (keyOf k').key ChunkText.read) = ks := by
    simp only [keyOf_key, List.map_id']
  rw [parse_line_text, insertLine, CommandText.command, keyOf_key, specOf_action, List.map_map]
  exact congrArg (fun ks' => Except.ok (some (Command.InsertCommand
    { table_name := s, keys := some (k :: ks'), action := some a }))) hkeys

/-- **Key lists.** There is a line for an insert command exactly when it has a key, and its
table and its action are named by identifiers. -/
theorem insert_has_line_iff (s : Str) (keys : List MatchKey) (action : Action) :
    (∃ line, parse_line line = .ok (some (.InsertCommand
        { table_name := s, keys := some keys, action := some action }))) ↔
      keys ≠ [] ∧ IsName s ∧ IsName action.name := by
  constructor
  · intro h
    obtain ⟨line, hline⟩ := h
    exact of_parse_insert hline
  · intro h
    obtain ⟨hkeys, hs, ha⟩ := h
    cases keys with
    | nil => exact absurd rfl hkeys
    | cons k ks => exact ⟨_, parse_insertLine hs k ks ha⟩

/-- No line inserts an entry without keys. -/
theorem insert_without_keys : ¬ ∀ (table : Name) (keys : List MatchKey) (spec : SpecText),
    ∃ line, parse_line line = .ok (some (.InsertCommand
      { table_name := table.text, keys := some keys,
        action := some (spec.action ChunkText.read) })) := by
  intro h
  obtain ⟨line, hline⟩ := h (nameText 116 (by decide)) [] ⟨nameText 97 (by decide), []⟩
  exact (of_parse_insert hline).1 rfl

end Pfp.Cp
