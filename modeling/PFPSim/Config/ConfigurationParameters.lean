import PFPSim.Json.Document

/-!
# Configuration parameters

`ConfigurationParameterNode` on the JSON documents of the configuration files. The program
ends with a message where a file does not match (`Exit`). The values of floating-point
numbers are a type of their own, with `==` as its equality.
-/

namespace Pfp.Core

open Json

variable {F : Type} [DecidableEq F]

/-- The end of the program: its status, the text, and the documents printed with it, the
golden one first. -/
structure Exit (F : Type) where
  status : Int
  message : String
  printed : Option (Value F × Value F) := none

inductive Failure (F : Type) where
  | exit (e : Exit F)
  /-- The key of an iterator that walks no object. -/
  | domain_error
  | null_pointer

/-- `nullptr` as a document. -/
def nullptr : Value F := .primitive .null

structure CompareResult (F : Type) where
  result : Bool
  resultobject : Value F

def EXIT_FAILURE : Int := 1

def raiseError {α : Type} (message : String) (compare golden : Value F) :
    Except (Failure F) α :=
  .error (.exit ⟨EXIT_FAILURE, message, some (golden, compare)⟩)

def raiseMessage {α : Type} (message : String) : Except (Failure F) α :=
  .error (.exit ⟨EXIT_FAILURE, message, none⟩)

mutual

def CompareStructure :
    (compare golden : Value F) → Except (Failure F) (CompareResult F)
  | .object compare, .object golden => do
    let golden ← compareMembers (.object compare) compare golden
    return ⟨true, .object golden⟩
  | .array compare, .array golden =>
    if golden.length = compare.length then do
      let golden ← compareElements compare golden
      return ⟨true, .array golden⟩
    else raiseError "Length not same [List]" (.array compare) (.array golden)
  | .object _, .array _ | .array _, .object _ =>
    raiseMessage "[JSON Lib error] Object is structured, but not an [object,array]"
  | .primitive compare, .primitive golden =>
    if golden.type = compare.type then
      if golden ≠ compare then .ok ⟨true, .primitive compare⟩ else .ok ⟨true, .primitive golden⟩
    else raiseError "Primitive Value type is not the same" (.primitive compare) (.primitive golden)
  | _, _ => .error (.exit ⟨0, "JSON FILE ERRORUNSUPPORTED TYPES IN PARSING", none⟩)
termination_by structural compare => compare

/-- The loop over the members of `compare`, of which `rest` is left. -/
def compareMembers (compare : Value F) :
    (rest : List (String × Value F)) → Members F → Except (Failure F) (Members F)
  | [], golden => .ok golden
  | (key, value) :: rest, golden =>
    match golden.find key with
    | none => raiseError ("Key Not found [KVP] for key " ++ key ++ " in [test]") compare
        (.object golden)
    | some goldenValue => do
      let result ← CompareStructure value goldenValue
      compareMembers compare rest (golden.assign key result.resultobject)
termination_by structural rest => rest

/-- The loop over both lists of elements. -/
def compareElements :
    List (Value F) → List (Value F) → Except (Failure F) (List (Value F))
  | compare :: compares, golden :: goldens => do
    let result ← CompareStructure compare golden
    let goldens ← compareElements compares goldens
    return result.resultobject :: goldens
  | _, goldens => .ok goldens
termination_by structural compares => compares

end

def MatchandFill (ConfigurationParameters matchagainst : Value F) :
    Except (Failure F) (Value F) := do
  let compareresult ← CompareStructure matchagainst ConfigurationParameters
  if compareresult.result then return compareresult.resultobject
  else raiseMessage ("Config File Match & Fill Internal Error - [Unreacheable state] -- " ++
    "Uncaught Error in Compare Structure")

def LocalSearch (ConfigurationParameters : Value F) (param : String) :
    Except (Failure F) (Value F) :=
  match ConfigurationParameters with
  | .object members => .ok ((Members.find param members).getD nullptr)
  | .array [] | .primitive .null => .ok nullptr
  | _ => .error .domain_error

example : MatchandFill (F := Unit)
    (.object [("a", .array [.primitive (.number_unsigned 1)]), ("b", .primitive .null)])
    (.object [("a", .array [.primitive (.number_unsigned 2)])]) =
  .ok (.object [("a", .array [.primitive (.number_unsigned 2)]), ("b", .primitive .null)]) := rfl

end Pfp.Core
