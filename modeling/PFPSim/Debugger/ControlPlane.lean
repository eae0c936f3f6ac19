import PFPSim.Maps.Enumeration
import Mathlib.Data.Rat.Defs

/-!
# The control plane as the debugger sees it

The table entries that a control plane files by table and action. `do_command` is the
virtual function of the interface.
-/

namespace Pfp.Db

/-- `std::map`, iterated in the order of its keys. -/
abbrev Map (κ α : Type) [Ord κ] := Std.ExtTreeMap κ α compare

inductive TableEntryStatus where
  | OK
  | INSERTING
  | DELETING
  | MODIFYING
  | NONE
  deriving DecidableEq

structure TableEntry where
  table_name : String
  match_key : String
  action_name : String
  action_data : List String
  handle : UInt64
  status : TableEntryStatus := .NONE
  deriving DecidableEq

abbrev TableEntries := Map String (Map String (List TableEntry))

structure CPDebuggerInterface where
  table_entries : TableEntries
  do_command : String → TableEntries → TableEntries

def CPDebuggerInterface.getAllTableEntries (cp : CPDebuggerInterface) : List TableEntry :=
  cp.table_entries.toList.flatMap fun t => t.2.toList.flatMap fun a => a.2

end Pfp.Db
