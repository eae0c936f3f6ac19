import PFPSim.Cp.RoundTrip

/-!
# Literals

How bytes are printed. `operator<<` prints a vector of bytes from its end, so the bytes read
back in reverse (`pairs_print`).
-/

namespace Pfp.Cp

open Lr

/-! ## Printing -/

/-- A digit below 16 in lower case. -/
def hexDigit (d : Nat) : UInt8 := UInt8.ofNat (if d < 10 then 48 + d else 87 + d)

/-- A number on a stream in the mode `std::hex`. -/
def hexNumber (n : Nat) : Str := (Nat.toDigits 16 n).map fun c => UInt8.ofNat c.toNat

/-- `std::setw(width)` for the text that comes next, with `std::setfill(fill)`. -/
def setw (width : Nat) (fill : UInt8) (s : Str) : Str := s.leftpad width fill

/-- `operator<<` for a vector of bytes. -/
def print (b : Bytes) : Str :=
  ascii "0x" ++ b.reverse.flatMap fun x => setw 2 48 (hexNumber x.toNat)

/-- Digits taken two at a time, as the loop over a hexadecimal literal takes them. -/
def pairs : Str → Bytes
  | a :: b :: s => UInt8.ofNat (digits 16 xvalue [a, b]) :: pairs s
  | _ => []

/-- The last `k` digits of a number in base 16. -/
def numeral (k n : Nat) : Str := (List.range k).map fun i => hexDigit (n / 16 ^ (k - 1 - i) % 16)

/-- The two digits of a byte. -/
def digitPair (x : UInt8) : Str := [hexDigit (x.toNat / 16), hexDigit (x.toNat % 16)]

theorem setw_hexNumber (x : UInt8) : setw 2 48 (hexNumber x.toNat) = digitPair x := by
  have h : ∀ n : Fin 256, setw 2 48 (hexNumber n) = [hexDigit (n / 16), hexDigit (n % 16)] := by
    decide +kernel
  exact h ⟨x.toNat, x.toNat_lt⟩

theorem xvalue_hexDigit {d : Nat} (h : d < 16) :
    isxdigit (hexDigit d) = true ∧ xvalue (hexDigit d) = d := by
  have hall : ∀ d : Fin 16, isxdigit (hexDigit d) = true ∧ xvalue (hexDigit d) = d := by decide
  exact hall ⟨d, h⟩

theorem digits_digitPair (x : UInt8) : UInt8.ofNat (digits 16 xvalue (digitPair x)) = x := by
  have hx := x.toNat_lt
  have hhigh := (xvalue_hexDigit (d := x.toNat / 16) (by omega)).2
  have hlow := (xvalue_hexDigit (d := x.toNat % 16) (by omega)).2
  have hvalue : digits 16 xvalue (digitPair x) = x.toNat := by
    simp only [digitPair, digits, List.foldl_cons, List.foldl_nil, hhigh, hlow]
    omega
  rw [hvalue, UInt8.ofNat_toNat]

theorem pairs_flatMap (b : Bytes) : pairs (b.flatMap digitPair) = b := by
  induction b with
  | nil => rfl
  | cons x b ih =>
    rw [List.flatMap_cons, digitPair, List.cons_append, List.cons_append, List.nil_append, pairs,
      ih]
    exact congrArg (· :: b) (digits_digitPair x)

theorem print_eq (b : Bytes) : print b = ascii "0x" ++ b.reverse.flatMap digitPair := by
  simp only [print, setw_hexNumber]

/-- The digits behind `0x` are those of the bytes from the end. -/
theorem pairs_print (b : Bytes) : pairs ((print b).drop 2) = b.reverse := by
  have hlength : (ascii "0x").length = 2 := rfl
  rw [print_eq, List.drop_left' hlength, pairs_flatMap]

/-- The numeral of a number with the bytes of `buf`, the last one first. -/
theorem numeral_eq (n : UInt64) : numeral 16 n.toNat = (buf n).reverse.flatMap digitPair := by
  have hdiv : ∀ a b : Nat, n.toNat / a / b = n.toNat / (a * b) := fun a b =>
    Nat.div_div_eq_div_mul ..
  have hhigh : ∀ a : Nat, n.toNat / a % 256 / 16 = n.toNat / (a * 16) % 16 := by
    intro a
    rw [← hdiv]
    omega
  have hlow : ∀ a : Nat, n.toNat / a % 256 % 16 = n.toNat / a % 16 := by
    intro a
    omega
  rw [buf_reverse]
  simp only [numeral, bigEndian, List.range, List.range.loop, List.map_cons, List.map_nil,
    List.flatMap_cons, List.flatMap_nil, digitPair, List.cons_append, List.nil_append,
    UInt8.toNat_ofNat', hhigh, hlow]
  norm_num

theorem flatMap_digitPair_inj {b b' : Bytes} :
    b.flatMap digitPair = b'.flatMap digitPair ↔ b = b' := by
  constructor
  · intro h
    rw [← pairs_flatMap b, h, pairs_flatMap]
  · intro h
    rw [h]

/-- **Printed bytes.** What is printed reads back as the same bytes exactly when the bytes are
the same from either end; so a decimal key is printed as its numeral only then. -/
theorem print_reads_back_iff (b : Bytes) (n : UInt64) :
    (pairs ((print b).drop 2) = b ↔ b.reverse = b) ∧
    (print (buf n).reverse = ascii "0x" ++ numeral 16 n.toNat ↔ (buf n).reverse = buf n) := by
  refine ⟨?_, ?_⟩
  · rw [pairs_print]
  · rw [print_eq, numeral_eq, List.append_cancel_left_eq, flatMap_digitPair_inj,
      List.reverse_reverse, eq_comm]

/-- The key `1` is printed as `0x0100000000000000`. -/
theorem print_one : ¬ ∀ w b, Chunk w b → pairs ((print b).drop 2) = b := by
  intro h
  have hone := h _ _ (.raw (.decimal 1))
  rw [pairs_print] at hone
  exact absurd hone (by decide)

end Pfp.Cp
