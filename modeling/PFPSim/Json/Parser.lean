import PFPSim.Json.Lexer

/-!
# The parser of the JSON library

`parse` on a string, without a callback. The state of the parser is what it has scanned: the
last token with its text, and the input behind it. The calls count down a number of steps,
which suffices (`parse_throws`).
-/

namespace Json

variable {F : Type} (floats : Floats F)

namespace Scanned

variable (p : Scanned)

def get_token : Scanned := Lexer.scan p.input

/-- What the parser has seen. -/
def seen : String :=
  if p.type = .parse_error then "'" ++ String.ofList p.token ++ "'" else p.type.token_type_name

def expect (t : TokenType) : Except Exception Unit :=
  if t ≠ p.type then
    .error (.invalid_argument ("parse error - unexpected " ++ p.seen ++ "; expected " ++
      t.token_type_name))
  else .ok ()

def unexpected : Exception := .invalid_argument ("parse error - unexpected " ++ p.seen)

def unexpect (t : TokenType) : Except Exception Unit :=
  if t = p.type then .error p.unexpected else .ok ()

/-- A comma is passed. -/
def next : Scanned := if p.type = .value_separator then p.get_token else p

def get_string : Except Exception String := (Lexer.get_string p.token).map String.ofList

def get_number : Except Exception (Primitive F) := Lexer.get_number floats p.token p.input

end Scanned

mutual

def parse_internal : Nat → Scanned → Except Exception (Value F × Scanned)
  | 0, _ => .error .fuel
  | fuel + 1, p =>
    match p.type with
    | .begin_object =>
      let p := p.get_token
      if p.type = .end_object then .ok (.object [], p.get_token)
      else do
        p.unexpect .value_separator
        let (members, p) ← parse_members fuel p []
        p.expect .end_object
        return (.object members, p.get_token)
    | .begin_array =>
      let p := p.get_token
      if p.type = .end_array then .ok (.array [], p.get_token)
      else do
        p.unexpect .value_separator
        let (elements, p) ← parse_elements fuel p []
        p.expect .end_array
        return (.array elements, p.get_token)
    | .literal_null => .ok (.primitive .null, p.get_token)
    | .value_string => do
      let s ← p.get_string
      return (.primitive (.string s), p.get_token)
    | .literal_true => .ok (.primitive (.boolean true), p.get_token)
    | .literal_false => .ok (.primitive (.boolean false), p.get_token)
    | .value_number => do
      let number ← p.get_number floats
      return (.primitive number, p.get_token)
    | _ => .error p.unexpected

/-- The loop over the members of an object, `result` so far. -/
def parse_members : Nat → Scanned → Members F → Except Exception (Members F × Scanned)
  | 0, _, _ => .error .fuel
  | fuel + 1, p, result => do
    let p := p.next
    p.expect .value_string
    let key ← p.get_string
    let p := p.get_token
    p.expect .name_separator
    let (value, p) ← parse_internal fuel p.get_token
    let result := result.assign key value
    if p.type = .value_separator then parse_members fuel p result else return (result, p)

/-- The loop over the elements of an array, `result` so far. -/
def parse_elements : Nat → Scanned → List (Value F) → Except Exception (List (Value F) × Scanned)
  | 0, _, _ => .error .fuel
  | fuel + 1, p, result => do
    let p := p.next
    let (value, p) ← parse_internal fuel p
    let result := result ++ [value]
    if p.type = .value_separator then parse_elements fuel p result else return (result, p)

end

def parse (s : List Char) : Except Exception (Value F) := do
  let (result, p) ← parse_internal floats (2 * s.length + 2) (Lexer.scan s)
  p.expect .end_of_input
  return result

example : (parse (F := Unit) ⟨fun _ => (), fun _ => []⟩
    "\x7b\"a\":[1,-2],\"a\":[]\x7d".toList).toOption.map (fun v => v.labelAt [.key "a"]) =
      some (some (.array 0)) := by
  decide +kernel

end Json
