import PFPSim.Lr.Grammar
import PFPSim.Cp.Tokens

/-!
# The grammar

The productions of `grammar.y` in their order, each with its action. The generator calls
an action with the values of the symbols of the right-hand side; `v.integer 3` is `$3` of
a symbol whose type is `INTEGER`, and an action that the source leaves out is `$$ = $1`.
`__` is `BLANK` here, and the character literals of the grammar have names.

`Sentence` is the derivation of a command from the whole input.
-/

namespace Pfp.Cp

open Lr

inductive Terminal where
  | IDENTIFIER | INSERT_ENTRY | MODIFY_ENTRY | DELETE_ENTRY | BEGIN_TRANSACTION
  | END_TRANSACTION | DECIMAL | HEXADECIMAL | BLANK | EOL | COMMENT
  | slash | ampersand | quote | dot | other | EOF
  deriving DecidableEq

inductive Nonterminal where
  | start | startrule | command | insert_entry_command | modify_entry_command
  | delete_entry_command | end_transaction_command | begin_transaction_command
  | match_keys | match_key | exact_match_key | lpm_match_key | ternary_match_key
  | action_spec | action_param | bytes | raw_bytes | ip_addr
  | optional_space | optional_EOL | optional_comment | empty
  deriving DecidableEq

/-- The types of semantic values. `returned` is the argument of `returnCommand`. -/
inductive Value where
  | none
  | INTEGER (v : UInt64)
  | BYTES (v : Bytes)
  | STRING (v : Str)
  | ACTION_SPEC (v : Action)
  | MATCH_KEY (v : MatchKey)
  | MATCH_KEYS (v : List MatchKey)
  | COMMAND (v : Command)
  | INSERT_COMMAND (v : InsertCommand)
  | MODIFY_COMMAND (v : ModifyCommand)
  | DELETE_COMMAND (v : DeleteCommand)
  | returned (v : Option Command)
  deriving DecidableEq

abbrev Values := List Value

namespace Values

/-- `$n` -/
def arg (vs : Values) (n : Nat) : Value := vs.getD (n - 1) .none

def integer (vs : Values) (n : Nat) : UInt64 :=
  match vs.arg n with
  | .INTEGER v => v
  | _ => 0

def bytes (vs : Values) (n : Nat) : Bytes :=
  match vs.arg n with
  | .BYTES v => v
  | _ => []

def string (vs : Values) (n : Nat) : Str :=
  match vs.arg n with
  | .STRING v => v
  | _ => []

def action_spec (vs : Values) (n : Nat) : Action :=
  match vs.arg n with
  | .ACTION_SPEC v => v
  | _ => { name := [] }

def match_key (vs : Values) (n : Nat) : MatchKey :=
  match vs.arg n with
  | .MATCH_KEY v => v
  | _ => .ExactKey []

def match_keys (vs : Values) (n : Nat) : List MatchKey :=
  match vs.arg n with
  | .MATCH_KEYS v => v
  | _ => []

def command (vs : Values) (n : Nat) : Option Command :=
  match vs.arg n with
  | .COMMAND v => some v
  | _ => Option.none

def insert_command (vs : Values) (n : Nat) : InsertCommand :=
  match vs.arg n with
  | .INSERT_COMMAND v => v
  | _ => {}

def modify_command (vs : Values) (n : Nat) : ModifyCommand :=
  match vs.arg n with
  | .MODIFY_COMMAND v => v
  | _ => {}

def delete_command (vs : Values) (n : Nat) : DeleteCommand :=
  match vs.arg n with
  | .DELETE_COMMAND v => v
  | _ => {}

end Values

def Token.kind : Token → Terminal
  | .INSERT_ENTRY => .INSERT_ENTRY
  | .MODIFY_ENTRY => .MODIFY_ENTRY
  | .DELETE_ENTRY => .DELETE_ENTRY
  | .BEGIN_TRANSACTION => .BEGIN_TRANSACTION
  | .END_TRANSACTION => .END_TRANSACTION
  | .COMMENT => .COMMENT
  | .DECIMAL _ => .DECIMAL
  | .HEXADECIMAL _ => .HEXADECIMAL
  | .IDENTIFIER _ => .IDENTIFIER
  | .BLANK => .BLANK
  | .EOL => .EOL
  | .char c =>
    if c = 47 then .slash
    else if c = 38 then .ampersand
    else if c = 39 then .quote
    else if c = 46 then .dot
    else .other

def Token.value : Token → Value
  | .INSERT_ENTRY => .INSERT_COMMAND {}
  | .MODIFY_ENTRY => .MODIFY_COMMAND {}
  | .DELETE_ENTRY => .DELETE_COMMAND {}
  | .BEGIN_TRANSACTION => .COMMAND .BeginTransactionCommand
  | .END_TRANSACTION => .COMMAND .EndTransactionCommand
  | .DECIMAL v => .INTEGER v
  | .HEXADECIMAL v => .BYTES v
  | .IDENTIFIER v => .STRING v
  | _ => .none

/-! ## Productions -/

/-- The bytes of an `unsigned long long` in memory. -/
def buf (n : UInt64) : Bytes := (List.range 8).map fun i => UInt8.ofNat (n.toNat / 256 ^ i)

/-- A production with its action. -/
structure Row where
  lhs : Nonterminal
  rhs : List (Symbol Terminal Nonterminal)
  action : Values → Except Exception Value

/-- A token in a right-hand side. -/
def tm (a : Terminal) : Symbol Terminal Nonterminal := .terminal a

/-- A nonterminal in a right-hand side. -/
def nt (a : Nonterminal) : Symbol Terminal Nonterminal := .nonterminal a

open Terminal Nonterminal in
def rows : List Row := [
  ⟨start, [nt startrule], fun v => .ok (v.arg 1)⟩,
  ⟨startrule, [nt optional_space, nt command, nt optional_EOL],
    fun v => .ok (.returned (v.command 2))⟩,
  ⟨startrule, [nt optional_space, nt optional_comment, nt optional_EOL],
    fun _ => .ok (.returned none)⟩,
  ⟨command, [nt insert_entry_command],
    fun v => .ok (.COMMAND (.InsertCommand (v.insert_command 1)))⟩,
  ⟨command, [nt modify_entry_command],
    fun v => .ok (.COMMAND (.ModifyCommand (v.modify_command 1)))⟩,
  ⟨command, [nt delete_entry_command],
    fun v => .ok (.COMMAND (.DeleteCommand (v.delete_command 1)))⟩,
  ⟨command, [nt begin_transaction_command], fun v => .ok (v.arg 1)⟩,
  ⟨command, [nt end_transaction_command], fun v => .ok (v.arg 1)⟩,
  ⟨insert_entry_command, [tm INSERT_ENTRY, tm BLANK, tm IDENTIFIER, tm BLANK, nt match_keys,
      tm BLANK, nt action_spec],
    fun v => .ok (.INSERT_COMMAND ((((v.insert_command 1).set_table_name
      (v.string 3)).set_match_keys (v.match_keys 5)).set_action (v.action_spec 7)))⟩,
  ⟨modify_entry_command, [tm MODIFY_ENTRY, tm BLANK, tm IDENTIFIER, tm BLANK, tm DECIMAL,
      tm BLANK, nt action_spec],
    fun v => .ok (.MODIFY_COMMAND ((((v.modify_command 1).set_table_name
      (v.string 3)).set_handle (v.integer 5)).set_action (v.action_spec 7)))⟩,
  ⟨delete_entry_command, [tm DELETE_ENTRY, tm BLANK, tm IDENTIFIER, tm BLANK, tm DECIMAL],
    fun v => .ok (.DELETE_COMMAND (((v.delete_command 1).set_table_name
      (v.string 3)).set_handle (v.integer 5)))⟩,
  ⟨end_transaction_command, [tm END_TRANSACTION], fun v => .ok (v.arg 1)⟩,
  ⟨begin_transaction_command, [tm BEGIN_TRANSACTION], fun v => .ok (v.arg 1)⟩,
  ⟨match_keys, [nt empty], fun _ => .ok (.MATCH_KEYS [])⟩,
  ⟨match_keys, [nt match_key], fun v => .ok (.MATCH_KEYS ([] ++ [v.match_key 1]))⟩,
  ⟨match_keys, [nt match_keys, tm BLANK, nt match_key],
    fun v => .ok (.MATCH_KEYS (v.match_keys 1 ++ [v.match_key 3]))⟩,
  ⟨match_key, [nt exact_match_key], fun v => .ok (v.arg 1)⟩,
  ⟨match_key, [nt lpm_match_key], fun v => .ok (v.arg 1)⟩,
  ⟨match_key, [nt ternary_match_key], fun v => .ok (v.arg 1)⟩,
  ⟨exact_match_key, [nt bytes], fun v => .ok (.MATCH_KEY (.ExactKey (v.bytes 1)))⟩,
  ⟨lpm_match_key, [nt bytes, tm slash, tm DECIMAL],
    fun v => .ok (.MATCH_KEY (.LpmKey (v.bytes 1) (v.integer 3)))⟩,
  ⟨ternary_match_key, [nt bytes, tm ampersand, nt bytes],
    fun v => .ok (.MATCH_KEY (.TernaryKey (v.bytes 1) (v.bytes 3)))⟩,
  ⟨action_spec, [tm IDENTIFIER], fun v => .ok (.ACTION_SPEC { name := v.string 1 })⟩,
  ⟨action_spec, [nt action_spec, tm BLANK, nt action_param],
    fun v => .ok (.ACTION_SPEC ((v.action_spec 1).add_param (v.bytes 3)))⟩,
  ⟨action_param, [nt bytes], fun v => .ok (v.arg 1)⟩,
  ⟨bytes, [nt raw_bytes], fun v => .ok (v.arg 1)⟩,
  ⟨bytes, [nt raw_bytes, tm quote, tm DECIMAL],
    fun v => (resize (v.bytes 1) (v.integer 3).toNat).map .BYTES⟩,
  ⟨raw_bytes, [tm DECIMAL], fun v => .ok (.BYTES (buf (v.integer 1)).reverse)⟩,
  ⟨raw_bytes, [tm HEXADECIMAL], fun v => .ok (v.arg 1)⟩,
  ⟨raw_bytes, [nt ip_addr], fun v => .ok (v.arg 1)⟩,
  ⟨ip_addr, [tm DECIMAL, tm dot, tm DECIMAL, tm dot, tm DECIMAL, tm dot, tm DECIMAL],
    fun v => .ok (.BYTES [(v.integer 1).toUInt8, (v.integer 3).toUInt8,
      (v.integer 5).toUInt8, (v.integer 7).toUInt8])⟩,
  ⟨optional_space, [tm BLANK], fun v => .ok (v.arg 1)⟩,
  ⟨optional_space, [nt empty], fun v => .ok (v.arg 1)⟩,
  ⟨optional_EOL, [nt optional_space, tm EOL], fun v => .ok (v.arg 1)⟩,
  ⟨optional_EOL, [nt optional_space], fun v => .ok (v.arg 1)⟩,
  ⟨optional_comment, [tm COMMENT], fun v => .ok (v.arg 1)⟩,
  ⟨optional_comment, [nt empty], fun v => .ok (v.arg 1)⟩,
  ⟨empty, [], fun _ => .ok .none⟩]

def executeAction (ruleNr : Nat) (vs : Values) : Except Exception Value :=
  match rows[ruleNr]? with
  | some row => row.action vs
  | none => .ok .none

def grammar : AttrGrammar Terminal Nonterminal Token Value Exception where
  productions := rows.map fun row => ⟨row.lhs, row.rhs⟩
  eof := .EOF
  code := Terminal.ctorIdx
  kind := Token.kind
  value := Token.value
  action := executeAction

/-- The symbols derive the tokens, with these values. Without a restriction on the
productions the token that follows does not matter. -/
abbrev Der (Xs : List (Symbol Terminal Nonterminal)) (w : List Token) (vs : Values) : Prop :=
  Derives grammar (fun _ _ => True) .EOF Xs w vs

/-- A derivation `startrule -> optional_space command optional_EOL` of the tokens, in
which `command` has the value `c`. -/
def Sentence (w : List Token) (c : Command) : Prop :=
  ∃ v₁ v₃, Der [nt .optional_space, nt .command, nt .optional_EOL] w [v₁, .COMMAND c, v₃]

theorem kind_ne_EOF (k : Token) : grammar.kind k ≠ grammar.eof := by
  change k.kind ≠ .EOF
  cases k with
  | char c => simp only [Token.kind]; grind
  | _ => simp [Token.kind]

theorem code_injective : Function.Injective grammar.code := by
  intro a b h
  change a.ctorIdx = b.ctorIdx at h
  cases a <;> cases b <;> first | rfl | cases h

theorem getElem?_productions {i : Nat} {p : Production Terminal Nonterminal} :
    grammar.productions[i]? = some p ↔ ∃ row, rows[i]? = some row ∧ p = ⟨row.lhs, row.rhs⟩ := by
  change (rows.map fun row => (⟨row.lhs, row.rhs⟩ : Production _ _))[i]? = some p ↔ _
  rw [List.getElem?_map, Option.map_eq_some_iff]
  exact ⟨fun ⟨r, h, e⟩ => ⟨r, h, e.symm⟩, fun ⟨r, h, e⟩ => ⟨r, h, e.symm⟩⟩

end Pfp.Cp
