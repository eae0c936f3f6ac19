import Mathlib.Algebra.Order.Ring.Rat

/-!
# Machine integers and number strings

`int` is 32 bits wide and wraps. `stoi` follows the standard library; the conversions of
floating-point numbers are a parameter of the development, with rational numbers in the
place of `double` and `float`.
-/

namespace Pfp

/-- The value of a mathematical integer as a 32-bit `int`. -/
def int32 (x : Int) : Int := x.bmod (2 ^ 32)

def isspace (c : Char) : Bool :=
  c = ' ' || c = '\t' || c = '\n' || c = '\r' || c.toNat = 11 || c.toNat = 12

/-- The sign of a numeral and the text behind it. -/
def sign : List Char → Int × List Char
  | '-' :: s => (-1, s)
  | '+' :: s => (1, s)
  | s => (1, s)

/-- The number that a string of digits denotes. -/
def numeral (ds : List Char) : Nat := ds.foldl (fun n c => 10 * n + (c.toNat - 48)) 0

/-- `std::stoi`; `none` when it throws. -/
def stoi (s : String) : Option Int :=
  let (sgn, body) := sign (s.toList.dropWhile isspace)
  let ds := body.takeWhile Char.isDigit
  let v := sgn * numeral ds
  if ds ≠ [] ∧ -2 ^ 31 ≤ v ∧ v < 2 ^ 31 then some v else none

example : stoi " -42x" = some (-42) := by decide +kernel

/-- The conversions between floating-point numbers and strings; `none` when one throws. -/
structure Conversions where
  stof : String → Option ℚ
  stod : String → Option ℚ
  to_string : ℚ → String

/-- A number in plain notation, without an exponent. -/
def parseDecimal (s : String) : Option ℚ :=
  let (sgn, body) := sign (s.toList.dropWhile isspace)
  let ds := body.takeWhile Char.isDigit
  let fs :=
    match body.dropWhile Char.isDigit with
    | '.' :: rest => rest.takeWhile Char.isDigit
    | _ => []
  if ds ++ fs = [] then none else some (sgn * numeral (ds ++ fs) / 10 ^ fs.length)

/-- Six digits behind the point, as `std::to_string` prints. -/
def printDecimal (x : ℚ) : String :=
  let n := ((if x < 0 then -x else x) * 10 ^ 6 + 1 / 2).floor.toNat
  let fs := Nat.toDigits 10 (n % 10 ^ 6)
  String.ofList ((if x < 0 then ['-'] else []) ++ Nat.toDigits 10 (n / 10 ^ 6) ++
    '.' :: (List.replicate (6 - fs.length) '0' ++ fs))

/-- The conversions on plain notation, for runs on fixed inputs. -/
def decimal : Conversions := ⟨parseDecimal, parseDecimal, printDecimal⟩

example : parseDecimal (printDecimal (5 / 2)) = some (5 / 2) := by decide +kernel

end Pfp
