import PFPSim.Lists.First
import PFPSim.Numbers

/-!
# Breakpoints and watchpoints

The two kinds of stops that a user sets, and the operations of `DebugDataManager` on their
lists. A stealth breakpoint is one that the debugger adds for itself; its id is `-1`.
-/

namespace Pfp.Db

inductive BreakpointCondition where
  | BREAK_ON_MODULE_READ
  | BREAK_ON_MODULE_WRITE
  | BREAK_AT_TIME
  | BREAK_ON_PACKET_ID
  deriving DecidableEq

/-- The conditions in the order of the enumeration. -/
def BreakpointCondition.order : List BreakpointCondition :=
  [.BREAK_ON_MODULE_READ, .BREAK_ON_MODULE_WRITE, .BREAK_AT_TIME, .BREAK_ON_PACKET_ID]

/-- `std::map<BreakpointCondition, std::string>` -/
abbrev Conditions := BreakpointCondition → Option String

namespace Conditions

/-- The entries of the map, by key. -/
def entries (m : Conditions) : List (BreakpointCondition × String) :=
  BreakpointCondition.order.filterMap fun c => (m c).map fun v => (c, v)

/-- An entry that is there is not replaced. -/
def insert (m : Conditions) (c : BreakpointCondition) (v : String) : Conditions :=
  fun c' => if c' = c then some ((m c).getD v) else m c'

theorem mem_entries {m : Conditions} {p : BreakpointCondition × String} :
    p ∈ m.entries ↔ m p.1 = some p.2 := by
  obtain ⟨c, v⟩ := p
  simp only [entries, List.mem_filterMap, Option.map_eq_some_iff, Prod.mk.injEq]
  constructor
  · rintro ⟨c', -, v', hv, rfl, rfl⟩
    exact hv
  · intro hv
    exact ⟨c, by cases c <;> simp [BreakpointCondition.order], v, hv, rfl, rfl⟩

end Conditions

structure Breakpoint where
  id : Int
  conditions : Conditions := fun _ => none
  temp : Bool := false
  disabled : Bool := false

namespace Breakpoint

/-- The breakpoint was added by the debugger itself. -/
def stealth (b : Breakpoint) : Prop := b.id = -1

instance (b : Breakpoint) : Decidable b.stealth := inferInstanceAs (Decidable (b.id = -1))

/-- Every condition of `self` is one of `br`. -/
def isEqual (self br : Breakpoint) : Bool :=
  self.conditions.entries.all fun p => br.conditions p.1 = some p.2

def addCondition (b : Breakpoint) (c : BreakpointCondition) (value : String) : Breakpoint :=
  { b with conditions := b.conditions.insert c value }

theorem isEqual_iff {b br : Breakpoint} :
    b.isEqual br = true ↔ ∀ c v, b.conditions c = some v → br.conditions c = some v := by
  simp only [isEqual, List.all_eq_true, Conditions.mem_entries, decide_eq_true_eq, Prod.forall]

theorem isEqual_self (b : Breakpoint) : b.isEqual b = true :=
  isEqual_iff.mpr fun _ _ h => h

end Breakpoint

structure Watchpoint where
  id : Int
  counter_name : String
  disabled : Bool
  deriving DecidableEq

/-! ## Lists with identifiers

The loops of `DebugDataManager` that stop at the first element with an identifier. -/

section Lists

open Lists

variable {α : Type} (id : α → Int)

/-- The loop of `removeBreakpoint` and `removeWatchpoint`. -/
def removeFirst (identifier : Int) (l : List α) : List α :=
  l.eraseP fun x => id x = identifier

/-- The loop of the functions that enable or disable. -/
def updateFirst (identifier : Int) (f : α → α) (l : List α) : List α :=
  modifyFirst (fun x => id x = identifier) f l

variable {id} {identifier : Int} {f : α → α} {l : List α}

theorem removeFirst_sublist : (removeFirst id identifier l).Sublist l :=
  List.eraseP_sublist

theorem map_updateFirst {β : Type} (g : α → β) (hg : ∀ x, g (f x) = g x) :
    (updateFirst id identifier f l).map g = l.map g :=
  map_modifyFirst hg l

theorem mem_updateFirst {x : α} (h : x ∈ updateFirst id identifier f l) :
    x ∈ l ∨ ∃ y ∈ l, x = f y := by
  rcases mem_modifyFirst h with h | ⟨y, hy, -, rfl⟩
  · exact .inl h
  · exact .inr ⟨y, hy, rfl⟩

end Lists

end Pfp.Db
