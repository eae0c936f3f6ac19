import PFPSim.Debugger.Observer
import PFPSim.Runs.System

/-!
# The server

The handlers of `DebuggerIPCServer`. The handlers of the requests that continue the
simulation are cut at their call of `waitForStop`: they leave the server waiting, and
`replyStop` is what comes behind the call. `session` is the system of the two threads with
their data, in steps of whole requests and whole callbacks.
-/

namespace Pfp.Db

/-- The state of the debugger; the fields beside `shared` belong to the server's thread.
`control_plane` is `none` while the pointer is not set. -/
structure Session where
  shared : Shared := {}
  control_plane : Option CPDebuggerInterface := none
  run_called : Bool := false
  waiting : Bool := false
  sent : List DebuggerMessage := []

namespace Session

variable (s : Session)

abbrev data_manager : DebugDataManager := s.shared.data_manager

def manage (dm : DebugDataManager) : Session :=
  { s with shared := { s.shared with data_manager := dm } }

def send (m : DebuggerMessage) : Session := { s with sent := s.sent ++ [m] }

def sendGenericReply : Session := s.send (.GenericAcknowledge .SUCCESS)

def sendRequestFailed : Session := s.send (.GenericAcknowledge .FAILED)

def waitForStop : Session := { s with waiting := true }

/-- The end of `waitForStop` and the reply behind it. -/
def replyStop : Session :=
  let reply := s.shared.reply_message.getD (.GenericAcknowledge .SUCCESS)
  { s with waiting := false, shared := { s.shared with stopped := false } }.send reply

end Session

variable (cv : Conversions)

/-! ## Continuing the simulation -/

/-- A breakpoint that the debugger adds for itself. -/
def stealthBreakpoint (c : BreakpointCondition) (value : String) : Breakpoint :=
  { Breakpoint.addCondition { id := -1 } c value with temp := true }

/-- The breakpoint that ends a run of a given time. -/
def breakAfter (time_ns : ℚ) (s : Session) : Session :=
  if time_ns ≠ -1 then
    let break_time := s.data_manager.simulation_time + time_ns
    s.manage (s.data_manager.addBreakpoint
      (stealthBreakpoint .BREAK_AT_TIME (cv.to_string break_time)))
  else s

def handleRun (time_ns : ℚ) (s : Session) : Session :=
  let s := breakAfter cv time_ns s
  { s with shared := { s.shared with run_lock := false } }.waitForStop

def handleContinue (time_ns : ℚ) (s : Session) : Session :=
  let s := breakAfter cv time_ns s
  { s with shared := { s.shared with continue_command := true } }.waitForStop

def handleNext (s : Session) : Session :=
  let bkpt := stealthBreakpoint .BREAK_ON_PACKET_ID (toString s.data_manager.whoami)
  handleContinue cv (-1) (s.manage (s.data_manager.addBreakpoint bkpt))

/-! ## Counters, breakpoints and watchpoints -/

def handleGetAllCounters (s : Session) : Session :=
  s.send (.AllCounterValues s.data_manager.counters.toList)

def handleGetCounter (name : String) (s : Session) : Session :=
  s.send (.CounterValue name (s.data_manager.getCounterValue name))

/-- The loop of `handleSetBreakpoint`. -/
def setConditions : List BreakpointCondition → List String → Breakpoint → Except Fault Breakpoint
  | [], _, br => .ok br
  | _ :: _, [], _ => .error .out_of_range
  | c :: cs, value :: vs, br =>
    let br := br.addCondition c value
    setConditions cs vs (if c = .BREAK_AT_TIME then { br with temp := true } else br)

def handleSetBreakpoint (msg : SetBreakpointMsg) (s : Session) : Except Fault Session := do
  let (br, dm) := s.data_manager.newBreakpoint
  let br := { br with temp := msg.temporary = "1", disabled := msg.disabled = "1" }
  let br ← setConditions msg.condition_list msg.value_list br
  return (s.manage (dm.addBreakpoint br)).sendGenericReply

def handleGetAllBreakpoints (s : Session) : Session :=
  s.send (AllBreakpointValuesMessage s.data_manager.breakpoint_list)

/-- The handlers that parse an id, pass it to the data manager and acknowledge. -/
def handleId (id : String) (f : Int → DebugDataManager) (s : Session) : Except Fault Session := do
  let id ← ofOption .conversion (stoi id)
  return (s.manage (f id)).sendGenericReply

def handleRemoveBreakpoint (id : String) (s : Session) : Except Fault Session :=
  handleId id s.data_manager.removeBreakpoint s

def handleEnableDisableBreakpoint (id enable : String) (s : Session) : Except Fault Session :=
  handleId id (if enable = "0" then s.data_manager.disableBreakpoint
    else s.data_manager.enableBreakpoint) s

def handleSetWatchpoint (counter_name disabled : String) (s : Session) : Session :=
  let (wp, dm) := s.data_manager.newWatchpoint counter_name (disabled = "1")
  (s.manage (dm.addWatchpoint wp)).sendGenericReply

def handleGetAllWatchpoints (s : Session) : Session :=
  s.send (AllWatchpointValuesMessage s.data_manager.watchpoint_list)

def handleRemoveWatchpoint (id : String) (s : Session) : Except Fault Session :=
  handleId id s.data_manager.removeWatchpoint s

def handleEnableDisableWatchpoint (id enable : String) (s : Session) : Except Fault Session :=
  handleId id (if enable = "0" then s.data_manager.disableWatchpoint
    else s.data_manager.enableWatchpoint) s

/-! ## Packets -/

def handleWhoAmI (s : Session) : Session := s.send (.WhoAmIReply s.data_manager.whoami)

def handleGetPacketList (mod : Option String) (s : Session) : Session :=
  let mod := mod.getD ""
  let packets := (s.data_manager.packet_list.toList.map Prod.snd).filter fun pk =>
    (mod = "" ∨ pk.current_location = mod) ∧
      s.data_manager.checkIgnoreModules pk.current_location = false
  s.send (.PacketListValues
    (packets.map fun pk => (pk.packet_id, pk.current_location, pk.last_notify_time)))

/-- The `id` of `handleBacktrace`: behind a text that is no number, which is answered, the
handler goes on without an id. -/
def backtraceId (packet_id : Option String) (s : Session) : Except Fault Int :=
  match packet_id with
  | some text => ofOption .uninitialised (stoi text)
  | none => .ok s.data_manager.whoami

def handleBacktrace (packet_id : Option String) (s : Session) : Except Fault Session := do
  let id ← backtraceId packet_id s
  match s.data_manager.getPacket id with
  | some pk => return s.send (.BacktraceReply id pk.trace)
  | none => return s.sendRequestFailed

/-- The handlers that show a part of a packet: the failure is sent in every case. -/
def handlePacketValue (id : Int) (value : DebugInfo → DebuggerMessage) (s : Session) : Session :=
  let s :=
    match s.data_manager.getPacket id with
    | some pk =>
      match pk.debug_info with
      | some dbg_info => s.send (value dbg_info)
      | none => s
    | none => s
  s.sendRequestFailed

def handleGetPacketField (id : Int) (field_name : String) : Session → Session :=
  handlePacketValue id fun di => .PacketFieldValue (di.field_value field_name)

def handleGetRawPacket (id : Int) : Session → Session :=
  handlePacketValue id fun di => .RawPacketValue di.raw_data

def handleGetParsedPacket (id : Int) : Session → Session :=
  handlePacketValue id fun di => .ParsedPacketValue di.parsed_data

def handleBreakOnPacketDrop (on : Bool) (s : Session) : Session :=
  (s.manage (s.data_manager.setBreakOnPacketDrop on)).sendGenericReply

def handleGetDroppedPackets (s : Session) : Session :=
  s.send (.DroppedPackets s.data_manager.dropped_packet_list)

/-! ## Modules, time, control plane and traces -/

def handleIgnoreModule (mod : String) (del : Bool) (s : Session) : Session :=
  (s.manage (if del then s.data_manager.removeIgnoreModule mod
    else s.data_manager.addIgnoreModule mod)).sendGenericReply

def handleGetAllIgnoreModules (s : Session) : Session :=
  s.send (.AllIgnoreModules s.data_manager.ignore_module_list)

def handleGetSimulationTime (s : Session) : Session :=
  s.send (.SimulationTime s.data_manager.simulation_time)

def handleCPCommand (command : String) (s : Session) : Except Fault Session := do
  let cp ← ofOption .uninitialised s.control_plane
  let cp := { cp with table_entries := cp.do_command command cp.table_entries }
  return { s with control_plane := some cp }.sendGenericReply

def handleGetTableEntries (s : Session) : Except Fault Session := do
  let cp ← ofOption .uninitialised s.control_plane
  return s.send (.TableEntries cp.getAllTableEntries)

def handleStartTracing (msg : StartTracingMsg) (s : Session) : Session :=
  let (id, dm) :=
    match msg.getType with
    | .COUNTER => s.data_manager.addCounterTrace msg.name
    | .LATENCY => s.data_manager.addLatencyTrace msg.name msg.end_name
    | .THROUGHPUT => s.data_manager.addThroughputTrace msg.name
  let s := s.manage dm
  if id < 0 then s.sendRequestFailed else s.send (.StartTracingStatus id)

/-! ## Requests -/

/-- An absent time is the default argument of the handlers. -/
def requestTime : Option String → Except Fault ℚ
  | some time_ns => ofOption .conversion (cv.stod time_ns)
  | none => .ok (-1)

def parseRequest (r : Request) (s : Session) : Except Fault Session :=
  match r with
  | .Run time_ns =>
    if s.run_called = false then do
      let time ← requestTime cv time_ns
      return handleRun cv time { s with run_called := true }
    else .ok (s.send .SimulationEnd)
  | .GetCounter name => .ok (handleGetCounter name s)
  | .GetAllCounters => .ok (handleGetAllCounters s)
  | .SetBreakpoint msg => handleSetBreakpoint msg s
  | .Continue time_ns => do
    let time ← requestTime cv time_ns
    return handleContinue cv time s
  | .GetAllBreakpoints => .ok (handleGetAllBreakpoints s)
  | .RemoveBreakpoint id => handleRemoveBreakpoint id s
  | .WhoAmI => .ok (handleWhoAmI s)
  | .Next => .ok (handleNext cv s)
  | .GetPacketList mod => .ok (handleGetPacketList mod s)
  | .SetWatchpoint counter_name disabled => .ok (handleSetWatchpoint counter_name disabled s)
  | .GetAllWatchpoints => .ok (handleGetAllWatchpoints s)
  | .RemoveWatchpoint id => handleRemoveWatchpoint id s
  | .Backtrace packet_id => handleBacktrace packet_id s
  | .EnableDisableBreakpoint id enable => handleEnableDisableBreakpoint id enable s
  | .EnableDisableWatchpoint id enable => handleEnableDisableWatchpoint id enable s
  | .IgnoreModule mod delete => .ok (handleIgnoreModule mod delete s)
  | .GetAllIgnoreModules => .ok (handleGetAllIgnoreModules s)
  | .GetSimulationTime => .ok (handleGetSimulationTime s)
  | .BreakOnPacketDrop on => .ok (handleBreakOnPacketDrop on s)
  | .GetDroppedPackets => .ok (handleGetDroppedPackets s)
  | .CPCommand command => handleCPCommand command s
  | .GetTableEntries => handleGetTableEntries s
  | .GetPacketField id field_name => .ok (handleGetPacketField id field_name s)
  | .GetRawPacket id => .ok (handleGetRawPacket id s)
  | .GetParsedPacket id => .ok (handleGetParsedPacket id s)
  -- this case has no `break` and runs on into the default
  | .StartTracing msg => .ok (handleStartTracing msg s).sendRequestFailed
  | .other _ => .ok s.sendRequestFailed

/-- A request with the reply, when `simulate` is what the simulation does to the shared
data until it stops. -/
def serve (simulate : Shared → Shared) (r : Request) (s : Session) : Except Fault Session := do
  let s ← parseRequest cv r s
  return if s.waiting then { s with shared := simulate s.shared }.replyStop else s

/-! ## Sessions -/

inductive Step where
  /-- The server takes a request. -/
  | request (r : Request)
  /-- `waitForRunCommand` returns. -/
  | start
  | event (e : Event)
  /-- `pause` returns. -/
  | resume
  /-- `waitForStop` returns. -/
  | reply

def enabled (s : Session) : Step → Bool
  | .request _ => !s.waiting
  | .start => s.shared.simulation = .held ∧ s.shared.run_lock = false
  | .event _ => s.shared.simulation = .running
  | .resume => s.shared.simulation ≠ .held ∧ s.shared.simulation ≠ .running ∧
      s.shared.continue_command = true
  | .reply => s.waiting ∧ s.shared.stopped

def exec (s : Session) : Step → Except Fault Session
  | .request r => parseRequest cv r s
  | .start => .ok { s with shared := { s.shared with simulation := .running } }
  | .event e => do
    let shared ← observe cv e s.shared
    return { s with shared }
  | .resume =>
    match s.shared.simulation with
    | .paused loop => .ok { s with shared := resume loop s.shared }
    | _ => .ok s
  | .reply => .ok s.replyStop

/-- The debugger with the control plane that the model has registered, if any. -/
def session (cp : Option CPDebuggerInterface) : Runs.System Session Step where
  init := { control_plane := cp }
  step s x := if enabled s x then (exec cv s x).toOption else none

end Pfp.Db
