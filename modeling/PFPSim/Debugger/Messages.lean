import PFPSim.Debugger.DataManager

/-!
# Messages

The requests a client sends and the replies of the server, decoded. A request has the
fields of its message; an optional string that is absent is `none` where the server asks
for it, and empty elsewhere.
-/

namespace Pfp.Db

inductive Status where
  | SUCCESS
  | FAILED
  deriving DecidableEq

structure BreakpointValues where
  id : Int
  temporary : String
  disabled : String
  conditions : List (BreakpointCondition × String)
  deriving DecidableEq

structure WatchpointValues where
  id : Int
  name : String
  disabled : String
  deriving DecidableEq

/-- The replies, with the fields that their constructors set. -/
inductive DebuggerMessage where
  | CounterValue (name : String) (value : Int)
  | AllCounterValues (counters : List (String × Int))
  | BreakpointHit (id : Int) (mod : String) (packet_id : Int) (time_ns : ℚ) (read : String)
  | GenericAcknowledge (status : Status)
  | AllBreakpointValues (breakpoints : List BreakpointValues)
  | WhoAmIReply (packet_id : Int)
  | PacketListValues (packets : List (Int × String × ℚ))
  | WatchpointHit (id : Int) (counter_name : String) (old_value new_value : Int)
  | AllWatchpointValues (watchpoints : List WatchpointValues)
  | BacktraceReply (packet_id : Int) (trace : List PacketLocation)
  | SimulationEnd
  | SimulationStopped (mod : String) (packet_id : Int) (time_ns : ℚ) (read : Bool)
  | AllIgnoreModules (modules : List String)
  | SimulationTime (time_ns : ℚ)
  | PacketDropped (packet_id : Int) (mod reason : String)
  | DroppedPackets (packets : List (Int × String × String))
  | TableEntries (entries : List TableEntry)
  | PacketFieldValue (value : RawData)
  | RawPacketValue (value : RawData)
  | ParsedPacketValue (headers : List Header)
  | StartTracingStatus (id : Int)

/-- `"1"` for true and `"0"` for false. -/
def flag (b : Bool) : String := if b then "1" else "0"

def BreakpointHitMessage (id : Int) (mod : String) (packet_id : Int) (sim_time : ℚ)
    (read : Bool) : DebuggerMessage :=
  .BreakpointHit id mod packet_id sim_time (flag read)

def AllBreakpointValuesMessage (l : List Breakpoint) : DebuggerMessage :=
  .AllBreakpointValues (l.map fun b => ⟨b.id, flag b.temp, flag b.disabled, b.conditions.entries⟩)

def AllWatchpointValuesMessage (l : List Watchpoint) : DebuggerMessage :=
  .AllWatchpointValues (l.map fun w => ⟨w.id, w.counter_name, flag w.disabled⟩)

/-- An update on the socket for traces. -/
structure TracingUpdate where
  id : Int
  timestamp : Nat
  float_value : ℚ
  deriving DecidableEq

/-! ## Requests -/

structure SetBreakpointMsg where
  condition_list : List BreakpointCondition
  value_list : List String
  temporary : String := ""
  disabled : String := ""
  deriving DecidableEq

inductive StartTracingType where
  | LATENCY
  | THROUGHPUT
  | COUNTER
  deriving DecidableEq

/-- `type` is the number on the wire, if there is one. -/
structure StartTracingMsg where
  type : Option Nat
  name : String := ""
  end_name : String := ""
  deriving DecidableEq

namespace StartTracingMsg

/-- A number without an enumerator is treated like an absent one, which is the first. -/
def getType (msg : StartTracingMsg) : StartTracingType :=
  match msg.type with
  | some 2 => .THROUGHPUT
  | some 3 => .COUNTER
  | _ => .LATENCY

end StartTracingMsg

/-- The types of messages that the server does not take as requests. -/
inductive OtherType where
  | CounterValue
  | AllCounterValues
  | BreakpointHit
  | GenericAcknowledge
  | AllBreakpointValues
  | WhoAmIReply
  | PacketListValues
  | WatchpointHit
  | AllWatchpointValues
  | BacktraceReply
  | SimulationEnd
  | SimulationStopped
  | AllIgnoreModules
  | SimulationTime
  | PacketDropped
  | DroppedPackets
  | TableEntries
  | ParsedPacketValue
  | RawPacketValue
  | PacketFieldValue
  | StartTracingStatus
  | TracingUpdate
  deriving DecidableEq

inductive Request where
  | Run (time_ns : Option String)
  | Next
  | GetCounter (name : String)
  | GetAllCounters
  | SetBreakpoint (msg : SetBreakpointMsg)
  | Continue (time_ns : Option String)
  | GetAllBreakpoints
  | RemoveBreakpoint (id : String)
  | WhoAmI
  | GetPacketList (mod : Option String)
  | SetWatchpoint (counter_name disabled : String)
  | GetAllWatchpoints
  | RemoveWatchpoint (id : String)
  | Backtrace (packet_id : Option String)
  | EnableDisableBreakpoint (id enable : String)
  | EnableDisableWatchpoint (id enable : String)
  | IgnoreModule (mod : String) (delete : Bool)
  | GetAllIgnoreModules
  | GetSimulationTime
  | BreakOnPacketDrop (on : Bool)
  | GetDroppedPackets
  | CPCommand (command : String)
  | GetTableEntries
  | GetPacketField (id : Int) (field_name : String)
  | GetRawPacket (id : Int)
  | GetParsedPacket (id : Int)
  | StartTracing (msg : StartTracingMsg)
  | other (type : OtherType)

end Pfp.Db
