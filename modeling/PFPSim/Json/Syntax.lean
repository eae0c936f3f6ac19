import PFPSim.Json.Parser
import PFPSim.Lex.Stream

/-!
# The syntax of JSON texts

A `Tree` is what is written of a value: its punctuation, and the tokens of its strings and
numbers. `tokens` are its tokens in order, and `value` is the value that it stands for, if
its strings have values. A text is a layout of a tree when it reads as its tokens and
nothing else (`Layout`).
-/

namespace Json

inductive Tree where
  | null
  | boolean (b : Bool)
  | string (token : List Char)
  | number (token : List Char)
  | array (elements : List Tree)
  | object (members : List (List Char × Tree))

/-- A token with its text. -/
abbrev Lexeme := TokenType × List Char

namespace Tree

def beginArray : Lexeme := (.begin_array, ['['])

def endArray : Lexeme := (.end_array, [']'])

def beginObject : Lexeme := (.begin_object, ['{'])

def endObject : Lexeme := (.end_object, ['}'])

def colon : Lexeme := (.name_separator, [':'])

def comma : Lexeme := (.value_separator, [','])

/-- A comma, unless nothing comes behind it. -/
def separator {α : Type} (rest : List α) : List Lexeme := if rest.isEmpty then [] else [comma]

mutual

def tokens : Tree → List Lexeme
  | .null => [(.literal_null, ['n', 'u', 'l', 'l'])]
  | .boolean true => [(.literal_true, ['t', 'r', 'u', 'e'])]
  | .boolean false => [(.literal_false, ['f', 'a', 'l', 's', 'e'])]
  | .string token => [(.value_string, token)]
  | .number token => [(.value_number, token)]
  | .array elements => beginArray :: (elementTokens elements ++ [endArray])
  | .object members => beginObject :: (memberTokens members ++ [endObject])

def elementTokens : List Tree → List Lexeme
  | [] => []
  | t :: ts => t.tokens ++ (separator ts ++ elementTokens ts)

def memberTokens : List (List Char × Tree) → List Lexeme
  | [] => []
  | (key, t) :: ms =>
    (.value_string, key) :: colon :: (t.tokens ++ (separator ms ++ memberTokens ms))

end

variable {F : Type} (floats : Floats F)

mutual

def value : Tree → Except Exception (Value F)
  | .null => .ok (.primitive .null)
  | .boolean b => .ok (.primitive (.boolean b))
  | .string token => do
    let s ← Lexer.get_string token
    return .primitive (.string (String.ofList s))
  | .number token => .ok (.primitive (Lexer.number floats token))
  | .array elements => do
    let elements ← elementValues elements
    return .array elements
  | .object members => do
    let members ← memberValues members []
    return .object members

def elementValues : List Tree → Except Exception (List (Value F))
  | [] => .ok []
  | t :: ts => do
    let v ← t.value
    let vs ← elementValues ts
    return v :: vs

/-- The members that are assigned one after the other to `result`. -/
def memberValues : List (List Char × Tree) → Members F → Except Exception (Members F)
  | [], result => .ok result
  | (key, t) :: ms, result => do
    let key ← Lexer.get_string key
    let v ← t.value
    memberValues ms (result.assign (String.ofList key) v)

end

/-- Induction over the elements of arrays and the members of objects. -/
@[elab_as_elim, induction_eliminator]
theorem induct {motive : Tree → Prop} (null : motive .null) (boolean : ∀ b, motive (.boolean b))
    (string : ∀ token, motive (.string token)) (number : ∀ token, motive (.number token))
    (array : ∀ elements, (∀ t ∈ elements, motive t) → motive (.array elements))
    (object : ∀ members, (∀ m ∈ members, motive m.2) → motive (.object members))
    (t : Tree) : motive t :=
  @Tree.rec motive (fun l => ∀ t ∈ l, motive t) (fun l => ∀ m ∈ l, motive m.2)
    (fun m => motive m.2) null boolean string number array object
    (fun _ h => absurd h List.not_mem_nil) (fun _ _ hd tl => List.forall_mem_cons.mpr ⟨hd, tl⟩)
    (fun _ h => absurd h List.not_mem_nil) (fun _ _ hd tl => List.forall_mem_cons.mpr ⟨hd, tl⟩)
    (fun _ _ h => h) t

theorem separator_cons {α : Type} (x : α) (l : List α) : separator (x :: l) = [comma] := rfl

end Tree

/-! ## Layouts -/

namespace Lexer

/-- The first token of a text, and the text behind it. -/
def read (s : List Char) : Lexeme × List Char := (((scan s).type, (scan s).token), (scan s).input)

end Lexer

/-- The tokens `ts` are read from `s`, with `s'` behind them. -/
abbrev Reads (s : List Char) (ts : List Lexeme) (s' : List Char) : Prop :=
  Lex.Reads Lexer.read s ts s'

/-- The text is that of `t`, with blanks between the tokens. -/
def Layout (s : List Char) (t : Tree) : Prop :=
  ∃ s', Reads s t.tokens s' ∧ (Lexer.scan s').type = .end_of_input

end Json
