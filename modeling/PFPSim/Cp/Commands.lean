import Mathlib.Data.List.Basic
import PFPSim.Numbers

/-!
# Commands of the control plane

The commands of `Commands.h` with the data the parser puts into them. A command is
created empty by the scanner and filled in by the setters; `keys` and `action` are the
owning pointers of the source, null until they are set.
-/

namespace Pfp.Cp

/-- `std::string`, by its characters. -/
abbrev Str := List UInt8

abbrev Bytes := List UInt8

/-- The characters of a literal of the source. -/
def ascii (s : String) : Str := s.toList.map fun c => UInt8.ofNat c.toNat

structure Action where
  name : Str
  params : List Bytes := []
  deriving DecidableEq

def Action.add_param (a : Action) (param : Bytes) : Action :=
  { a with params := a.params ++ [param] }

inductive MatchKey where
  | ExactKey (data : Bytes)
  | LpmKey (data : Bytes) (prefix_len : UInt64)
  | TernaryKey (data mask : Bytes)
  deriving DecidableEq

structure InsertCommand where
  table_name : Str := []
  keys : Option (List MatchKey) := none
  action : Option Action := none
  deriving DecidableEq

structure ModifyCommand where
  table_name : Str := []
  handle : UInt64 := 0
  action : Option Action := none
  deriving DecidableEq

structure DeleteCommand where
  table_name : Str := []
  handle : UInt64 := 0
  deriving DecidableEq

inductive Command where
  | InsertCommand (c : InsertCommand)
  | ModifyCommand (c : ModifyCommand)
  | DeleteCommand (c : DeleteCommand)
  | BeginTransactionCommand
  | EndTransactionCommand
  deriving DecidableEq

namespace InsertCommand

def set_table_name (c : InsertCommand) (s : Str) : InsertCommand := { c with table_name := s }

def set_match_keys (c : InsertCommand) (v : List MatchKey) : InsertCommand :=
  { c with keys := some v }

def set_action (c : InsertCommand) (a : Action) : InsertCommand := { c with action := some a }

end InsertCommand

namespace ModifyCommand

def set_table_name (c : ModifyCommand) (s : Str) : ModifyCommand := { c with table_name := s }

def set_handle (c : ModifyCommand) (h : UInt64) : ModifyCommand := { c with handle := h }

def set_action (c : ModifyCommand) (a : Action) : ModifyCommand := { c with action := some a }

end ModifyCommand

namespace DeleteCommand

def set_table_name (c : DeleteCommand) (s : Str) : DeleteCommand := { c with table_name := s }

def set_handle (c : DeleteCommand) (h : UInt64) : DeleteCommand := { c with handle := h }

end DeleteCommand

/-! ## Resizing a chunk of bytes

The iterators of the source are indices, which may lie outside the vector: a byte read
there is taken to be `0`, a byte written there is lost. Arithmetic on `int` wraps. -/

def byteAt (v : Bytes) (i : Int) : UInt8 := if 0 ≤ i then v.getD i.toNat 0 else 0

/-- `std::copy` of `[first, last)` to `dest`, as `memmove`. -/
def stdCopy (v : Bytes) (first last dest : Int) : Bytes :=
  v.mapIdx fun j b =>
    if dest ≤ j ∧ j < dest + (last - first) then byteAt v (first + (j - dest)) else b

def stdFill (v : Bytes) (first last : Int) (x : UInt8) : Bytes :=
  v.mapIdx fun j b => if first ≤ j ∧ j < last then x else b

def vectorResize (v : Bytes) (n : Nat) : Bytes := v.take n ++ List.replicate (n - v.length) 0

/-- The largest size of a vector of bytes. -/
def maxSize : Nat := 2 ^ 63 - 1

inductive Exception where
  | length_error
  deriving DecidableEq

/-- `std::abs((int)bytes.size() - (int)newsize)` -/
def delta (size newsize : Nat) : Int :=
  int32 (int32 (int32 size - int32 newsize)).natAbs

/-- The action of a resized literal. -/
def resize (bytes : Bytes) (newsize : Nat) : Except Exception Bytes :=
  let δ := delta bytes.length newsize
  if newsize < bytes.length then
    .ok (vectorResize (stdCopy bytes δ bytes.length 0) newsize)
  else if newsize > bytes.length then
    if newsize > maxSize then .error .length_error
    else
      let grown := stdCopy (vectorResize bytes newsize) 0 (newsize + 1 - δ) δ
      .ok (stdFill grown 0 (newsize + 1 - δ) 0)
  else
    .ok bytes

example : resize [1, 2, 3, 4, 5, 6, 7, 8] 2 = .ok [7, 8] := by decide

end Pfp.Cp
