import PFPSim.Debugger.Breakpoint
import PFPSim.Debugger.ControlPlane

/-!
# The data of the debugger

`DebugDataManager` with its operations, one call a function of the source. The static
`next_id` counters of breakpoints and watchpoints are fields of the record. They and the
`trace_id` of the traces count in unbounded integers.
-/

namespace Pfp.Db

/-! ## Packets -/

abbrev RawData := List UInt8

structure Field where
  name : String
  value : RawData

structure Header where
  name : String
  fields : List Field

/-- What a packet of the model shows of itself. -/
structure DebugInfo where
  raw_data : RawData
  field_value : String → RawData
  parsed_data : List Header

structure PacketLocation where
  module_name : String := ""
  read_time : ℚ := -1
  write_time : ℚ := -1

structure DebuggerPacket where
  packet_id : Int
  current_location : String
  last_notify_time : ℚ
  trace : List PacketLocation := []
  debug_info : Option DebugInfo := none

namespace DebuggerPacket

def updateTraceReadTime (pk : DebuggerPacket) (mod : String) (rtime : ℚ) : DebuggerPacket :=
  { pk with trace := pk.trace ++ [{ module_name := mod, read_time := rtime }] }

/-- The loop of `updateTraceWriteTime` over the reversed trace; `none` when it runs through. -/
def closeLast (mod : String) (wtime : ℚ) : List PacketLocation → Option (List PacketLocation)
  | [] => none
  | pl :: rest =>
    if pl.module_name = mod ∧ pl.write_time = -1 then some ({ pl with write_time := wtime } :: rest)
    else (closeLast mod wtime rest).map (pl :: ·)

def updateTraceWriteTime (pk : DebuggerPacket) (mod : String) (wtime : ℚ) : DebuggerPacket :=
  match closeLast mod wtime pk.trace.reverse with
  | some trace => { pk with trace := trace.reverse }
  | none => { pk with trace := pk.trace ++ [{ module_name := mod, write_time := wtime }] }

def setCurrentLocation (pk : DebuggerPacket) (loc : String) : DebuggerPacket :=
  { pk with current_location := loc }

def setTime (pk : DebuggerPacket) (t : ℚ) : DebuggerPacket := { pk with last_notify_time := t }

def setDebugInfo (pk : DebuggerPacket) (di : Option DebugInfo) : DebuggerPacket :=
  { pk with debug_info := di }

end DebuggerPacket

/-! ## The data manager -/

structure TraceData where
  id : Int
  value : ℚ
  deriving DecidableEq

structure LatencyReadTrigger where
  trace_id : Int
  write_module_name : String
  deriving DecidableEq

structure LatencyWriteTrigger where
  trace_id : Int
  read_time : ℚ
  deriving DecidableEq

structure ThroughputTrigger where
  trace_id : Int
  last_time : ℚ
  deriving DecidableEq

structure DebugDataManager where
  counters : Map String Int := ∅
  trace_id : Int := 0
  counter_traces : Map String Int := ∅
  latency_read_triggers : Map String (List LatencyReadTrigger) := ∅
  latency_write_triggers : Map String (Map Int (List LatencyWriteTrigger)) := ∅
  throughput_triggers : Map String ThroughputTrigger := ∅
  packet_list : Map Int DebuggerPacket := ∅
  breakpoint_list : List Breakpoint := []
  breakpoint_next_id : Int := 0
  simulation_time : ℚ := 0
  current_packet_id : Int := -1
  watchpoint_list : List Watchpoint := []
  watchpoint_next_id : Int := 0
  ignore_module_list : List String := []
  dropped_packet_list : List (Int × String × String) := []
  break_packet_dropped : Bool := false

namespace DebugDataManager

variable (dm : DebugDataManager)

def addCounter (name : String) : DebugDataManager :=
  { dm with counters := dm.counters.insertIfNew name 0 }

def removeCounter (name : String) : DebugDataManager :=
  { dm with counters := dm.counters.erase name }

/-- The id of the new trace, `-1` without such a counter, `-2` if there is a trace. -/
def addCounterTrace (name : String) : Int × DebugDataManager :=
  if dm.counters[name]?.isNone then (-1, dm)
  else if dm.counter_traces[name]?.isSome then (-2, dm)
  else (dm.trace_id, { dm with
    trace_id := dm.trace_id + 1
    counter_traces := dm.counter_traces.insert name dm.trace_id })

def addLatencyTrace (from_module_name to_module_name : String) : Int × DebugDataManager :=
  let triggers := (dm.latency_read_triggers[from_module_name]?).getD []
  (dm.trace_id, { dm with
    trace_id := dm.trace_id + 1
    latency_read_triggers := dm.latency_read_triggers.insert from_module_name
      (triggers ++ [⟨dm.trace_id, to_module_name⟩]) })

def addThroughputTrace (module_name : String) : Int × DebugDataManager :=
  (dm.trace_id, { dm with
    trace_id := dm.trace_id + 1
    throughput_triggers := dm.throughput_triggers.insert module_name ⟨dm.trace_id, -1⟩ })

def getCounterTraceId (name : String) : Int := (dm.counter_traces[name]?).getD (-1)

/-- `none` when it throws. -/
def updateCounter (name : String) (val : Int) : Option DebugDataManager :=
  if dm.counters[name]?.isSome then some { dm with counters := dm.counters.insert name val }
  else none

def getCounterValue (name : String) : Int := (dm.counters[name]?).getD (-1)

/-- The value of the constructor of a user's breakpoint, which takes the next id. -/
def newBreakpoint : Breakpoint × DebugDataManager :=
  ({ id := dm.breakpoint_next_id }, { dm with breakpoint_next_id := dm.breakpoint_next_id + 1 })

def addBreakpoint (br : Breakpoint) : DebugDataManager :=
  if dm.breakpoint_list.any fun bkpt => bkpt.isEqual br then dm
  else { dm with breakpoint_list := dm.breakpoint_list ++ [br] }

def removeBreakpoint (identifier : Int) : DebugDataManager :=
  { dm with breakpoint_list := removeFirst Breakpoint.id identifier dm.breakpoint_list }

def setBreakpointDisabled (id : Int) (disabled : Bool) : DebugDataManager :=
  { dm with breakpoint_list :=
      updateFirst Breakpoint.id id (fun b => { b with disabled }) dm.breakpoint_list }

def enableBreakpoint (id : Int) : DebugDataManager := dm.setBreakpointDisabled id false

def disableBreakpoint (id : Int) : DebugDataManager := dm.setBreakpointDisabled id true

/-- A read that a latency trace begins with. -/
def armLatency (id : Int) (time : ℚ) (trigger : LatencyReadTrigger) : DebugDataManager :=
  let packets := (dm.latency_write_triggers[trigger.write_module_name]?).getD ∅
  let triggers := (packets[id]?).getD []
  let packets := packets.insert id (triggers ++ [⟨trigger.trace_id, time⟩])
  { dm with
    latency_write_triggers := dm.latency_write_triggers.insert trigger.write_module_name packets }

/-- The latency updates of a write. -/
def latencyUpdates (id : Int) (mod : String) (time : ℚ) : List TraceData × DebugDataManager :=
  match dm.latency_write_triggers[mod]? with
  | none => ([], dm)
  | some packets =>
    match packets[id]? with
    | none => ([], dm)
    | some triggers => (triggers.map fun t => ⟨t.trace_id, time - t.read_time⟩, { dm with
        latency_write_triggers := dm.latency_write_triggers.insert mod (packets.erase id) })

/-- The throughput updates of a write. -/
def throughputUpdates (mod : String) (time : ℚ) : List TraceData × DebugDataManager :=
  match dm.throughput_triggers[mod]? with
  | none => ([], dm)
  | some t =>
    (if t.last_time ≥ 0 then [⟨t.trace_id, 1000 * 1000 * 1000 / (time - t.last_time)⟩] else [],
      { dm with
        throughput_triggers := dm.throughput_triggers.insert mod { t with last_time := time } })

def updatePacket (id : Int) (di : Option DebugInfo) (mod : String) (time : ℚ) (read : Bool) :
    List TraceData × DebugDataManager :=
  let packet := (dm.packet_list[id]?).getD
    { packet_id := id, current_location := mod, last_notify_time := time }
  let packet := packet.setDebugInfo di
  if read then
    let packet := ((packet.setTime time).setCurrentLocation mod).updateTraceReadTime mod time
    let dm := { dm with packet_list := dm.packet_list.insert id packet }
    ([], ((dm.latency_read_triggers[mod]?).getD []).foldl (fun dm t => dm.armLatency id time t) dm)
  else
    let packet := packet.updateTraceWriteTime mod time
    let dm := { dm with packet_list := dm.packet_list.insert id packet }
    let (latency, dm) := dm.latencyUpdates id mod time
    let (throughput, dm) := dm.throughputUpdates mod time
    (latency ++ throughput, dm)

/-- The value of the constructor of a watchpoint, which takes the next id. -/
def newWatchpoint (name : String) (disabled : Bool) : Watchpoint × DebugDataManager :=
  ({ id := dm.watchpoint_next_id, counter_name := name, disabled },
    { dm with watchpoint_next_id := dm.watchpoint_next_id + 1 })

def addWatchpoint (wp : Watchpoint) : DebugDataManager :=
  if dm.watchpoint_list.any fun w => w.counter_name = wp.counter_name then dm
  else { dm with watchpoint_list := dm.watchpoint_list ++ [wp] }

def removeWatchpoint (id : Int) : DebugDataManager :=
  { dm with watchpoint_list := removeFirst Watchpoint.id id dm.watchpoint_list }

def setWatchpointDisabled (id : Int) (disabled : Bool) : DebugDataManager :=
  { dm with watchpoint_list :=
      updateFirst Watchpoint.id id (fun w => { w with disabled }) dm.watchpoint_list }

def enableWatchpoint (id : Int) : DebugDataManager := dm.setWatchpointDisabled id false

def disableWatchpoint (id : Int) : DebugDataManager := dm.setWatchpointDisabled id true

def whoami : Int := dm.current_packet_id

def set_whoami (id : Int) : DebugDataManager := { dm with current_packet_id := id }

def addIgnoreModule (mod : String) : DebugDataManager :=
  if mod ∈ dm.ignore_module_list then dm
  else { dm with ignore_module_list := dm.ignore_module_list ++ [mod] }

def checkIgnoreModules (mod : String) : Bool := mod ∈ dm.ignore_module_list

def removeIgnoreModule (mod : String) : DebugDataManager :=
  { dm with ignore_module_list := dm.ignore_module_list.erase mod }

def addDroppedPacket (id : Int) (mod reason : String) : DebugDataManager :=
  { dm with dropped_packet_list := dm.dropped_packet_list ++ [(id, mod, reason)] }

def setBreakOnPacketDrop (b : Bool) : DebugDataManager := { dm with break_packet_dropped := b }

def getPacket (id : Int) : Option DebuggerPacket := dm.packet_list[id]?

def setSimulationTime (time_ns : ℚ) : DebugDataManager := { dm with simulation_time := time_ns }

end DebugDataManager

end Pfp.Db
