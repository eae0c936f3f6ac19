import PFPSim.Debugger.Messages

/-!
# The observer

The callbacks of the simulation thread. A stop writes the reply, notifies the server and
pauses; the thread goes on behind the pause when a request continues it, which matters for
the loop over the watchpoints (`WatchLoop`). A function that throws gives a `Fault`.
-/

namespace Pfp.Db

inductive Fault where
  /-- An exception of `stoi`, `stod` or `stof`. -/
  | conversion
  /-- `updateCounter` throws `COUNTER DOES NOT EXIST`. -/
  | no_counter
  /-- A value is read behind the end of a repeated field. -/
  | out_of_range
  /-- A variable is read before it is written. -/
  | uninitialised
  deriving DecidableEq

def ofOption {α : Type} (f : Fault) : Option α → Except Fault α
  | some a => .ok a
  | none => .error f

theorem ofOption_eq_ok {α : Type} {f : Fault} {o : Option α} {a : α} :
    ofOption f o = .ok a ↔ o = some a := by
  cases o <;> simp [ofOption]

theorem bind_eq_ok {α β : Type} {x : Except Fault α} {f : α → Except Fault β} {b : β} :
    (x >>= f) = .ok b ↔ ∃ a, x = .ok a ∧ f a = .ok b := by
  cases x <;> simp [bind, Except.bind]

/-- The rest of the loop of `counter_updated` behind a pause at `cursor`. -/
structure WatchLoop where
  cursor : Nat
  counter_name : String
  old_value : Int
  new_value : Int
  deriving DecidableEq

inductive Simulation where
  /-- Before `waitForRunCommand` has returned. -/
  | held
  | running
  | paused (loop : Option WatchLoop)
  deriving DecidableEq

/-- What both threads use. `run_lock` is `start_mutex`, locked until the first run. -/
structure Shared where
  data_manager : DebugDataManager := {}
  reply_message : Option DebuggerMessage := none
  run_lock : Bool := true
  continue_command : Bool := false
  stopped : Bool := false
  simulation : Simulation := .held
  published : List TracingUpdate := []

namespace Shared

variable (s : Shared)

def setReplyMessage (m : DebuggerMessage) : Shared := { s with reply_message := some m }

def notifyServer : Shared := { s with stopped := true }

def pause (loop : Option WatchLoop) : Shared := { s with simulation := .paused loop }

def updateTrace (id : Int) (value : ℚ) : Shared :=
  { s with published := s.published ++ [⟨id, s.data_manager.simulation_time.floor.toNat, value⟩] }

def updateSimulationTime (sim_time : ℚ) : Shared :=
  if sim_time > s.data_manager.simulation_time then
    { s with data_manager := s.data_manager.setSimulationTime sim_time }
  else s

def updateWhoAmI (packet_id : Int) : Shared :=
  { s with data_manager := s.data_manager.set_whoami packet_id }

def removeBreakpoint (id : Int) : Shared :=
  { s with data_manager := s.data_manager.removeBreakpoint id }

end Shared

/-! ## Breakpoints -/

/-- A read or write event, as `checkBreakpointHit` gets it. -/
structure Access where
  mod : String
  packet_id : Int
  sim_time : ℚ
  read : Bool
  deriving DecidableEq

variable (cv : Conversions)

/-- The inner loop of `checkBreakpointHit`: whether `break_hit` is still set at its end. -/
def testConditions (a : Access) (break_hit : Bool) :
    List (BreakpointCondition × String) → Except Fault Bool
  | [] => .ok break_hit
  | (.BREAK_ON_MODULE_READ, v) :: rest =>
    if !a.read ∨ v ≠ a.mod then .ok false else testConditions a break_hit rest
  | (.BREAK_ON_MODULE_WRITE, v) :: rest =>
    if a.read ∨ v ≠ a.mod then .ok false else testConditions a break_hit rest
  | (.BREAK_ON_PACKET_ID, v) :: rest =>
    if v ≠ toString a.packet_id then .ok false else testConditions a break_hit rest
  | (.BREAK_AT_TIME, v) :: rest => do
    let time ← ofOption .conversion (cv.stof v)
    if time > a.sim_time then .ok false else testConditions a break_hit rest

/-- The loop over the breakpoints, from position `i` on: the position and the content of
`hit_bkpt`, if it is set. -/
def findHit (a : Access) (break_hit : Bool) (i : Nat) :
    List Breakpoint → Except Fault (Option (Nat × Breakpoint))
  | [] => .ok none
  | bkpt :: rest => do
    let break_hit ← testConditions cv a break_hit bkpt.conditions.entries
    if break_hit then .ok (some (i, bkpt)) else findHit a true (i + 1) rest

/-- What the pointer to slot `i` sees when elements have been erased: the elements behind
them have moved down, and the old last slot keeps its content `b`. -/
def slot (l : List Breakpoint) (i : Nat) (b : Breakpoint) : Breakpoint := l.getD i b

/-- The message of a stop at the breakpoint `b`. A stop at a user's breakpoint removes an
internal one. -/
def replyHit (a : Access) (b : Breakpoint) (s : Shared) : Shared :=
  let s := s.updateWhoAmI a.packet_id
  if b.id ≠ -1 then
    let s := s.setReplyMessage (BreakpointHitMessage b.id a.mod a.packet_id a.sim_time a.read)
    s.removeBreakpoint (-1)
  else s.setReplyMessage (.SimulationStopped a.mod a.packet_id a.sim_time a.read)

/-- The stop at the breakpoint `b`, to which `hit_bkpt` points in slot `i`. -/
def breakpointStop (a : Access) (i : Nat) (b : Breakpoint) (s : Shared) : Shared :=
  let s := replyHit a b s
  let hit_bkpt := slot s.data_manager.breakpoint_list i b
  let s := if hit_bkpt.temp then s.removeBreakpoint hit_bkpt.id else s
  s.notifyServer.pause none

def checkBreakpointHit (a : Access) (s : Shared) : Except Fault Shared := do
  let breakpoints := s.data_manager.breakpoint_list
  let hit_bkpt ← findHit cv a (!breakpoints.isEmpty) 0 breakpoints
  match hit_bkpt with
  | some (i, b) => if b.disabled = false then .ok (breakpointStop a i b s) else .ok s
  | none => .ok s

/-! ## Callbacks -/

/-- A transaction. -/
structure TrType where
  id : UInt64
  debuggable : Bool
  debug_info : Option DebugInfo

/-- The loop of `counter_updated` over the watchpoints, from `cursor` to a pause or its end. -/
def watchLoop (counter_name : String) (old_value new_value : Int) (s : Shared) (cursor : Nat) :
    List Watchpoint → Shared
  | [] => s
  | w :: rest =>
    if counter_name = w.counter_name ∧ w.disabled = false then
      ((s.setReplyMessage (.WatchpointHit w.id counter_name old_value new_value)).notifyServer).pause
        (some ⟨cursor, counter_name, old_value, new_value⟩)
    else watchLoop counter_name old_value new_value s (cursor + 1) rest

def counter_added (counter_name : String) (time : ℚ) (s : Shared) : Shared :=
  Shared.updateSimulationTime
    { s with data_manager := s.data_manager.addCounter counter_name } time

def counter_removed (counter_name : String) (time : ℚ) (s : Shared) : Shared :=
  Shared.updateSimulationTime
    { s with data_manager := s.data_manager.removeCounter counter_name } time

def counter_updated (counter_name : String) (new_value : UInt64) (time : ℚ) (s : Shared) :
    Except Fault Shared := do
  let value := s.data_manager.getCounterValue counter_name
  let old_value := if value = -1 then 0 else value
  let trace_id := s.data_manager.getCounterTraceId counter_name
  let s := if trace_id ≥ 0 then s.updateTrace trace_id new_value.toNat else s
  let dm ← ofOption .no_counter
    (s.data_manager.updateCounter counter_name (int32 new_value.toNat))
  let s := Shared.updateSimulationTime { s with data_manager := dm } time
  return watchLoop counter_name old_value (int32 new_value.toNat) s 0 s.data_manager.watchpoint_list

/-- `data_read` and `data_written`. -/
def data_access (read : Bool) (mod : String) (data : TrType) (time : ℚ) (s : Shared) :
    Except Fault Shared :=
  if data.debuggable = false then .ok s
  else
    let s := s.updateSimulationTime time
    let id := int32 data.id.toNat
    let (trace_updates, dm) := s.data_manager.updatePacket id data.debug_info mod time read
    let s := trace_updates.foldl (fun s t => s.updateTrace t.id t.value)
      { s with data_manager := dm }
    if s.data_manager.checkIgnoreModules mod = false then
      checkBreakpointHit cv ⟨mod, id, time, read⟩ s
    else .ok s

def data_written (from_module : String) := data_access cv false from_module

def data_read (to_module : String) := data_access cv true to_module

def data_dropped (in_module : String) (data : TrType) (drop_reason : String) (time : ℚ)
    (s : Shared) : Shared :=
  if data.debuggable = false then s
  else
    let s := s.updateSimulationTime time
    let id := int32 data.id.toNat
    let s := { s with data_manager := s.data_manager.addDroppedPacket id in_module drop_reason }
    if s.data_manager.break_packet_dropped then
      ((s.setReplyMessage (.PacketDropped id in_module drop_reason)).notifyServer).pause none
    else s

/-- The callbacks that set the time only. -/
inductive Activity where
  | thread_begin
  | thread_end
  | thread_idle
  | core_busy
  | core_idle
  deriving DecidableEq

inductive Event where
  | counter_added (counter_name : String) (time : ℚ)
  | counter_removed (counter_name : String) (time : ℚ)
  | counter_updated (counter_name : String) (new_value : UInt64) (time : ℚ)
  | data_written (from_module : String) (data : TrType) (time : ℚ)
  | data_read (to_module : String) (data : TrType) (time : ℚ)
  | data_dropped (in_module : String) (data : TrType) (drop_reason : String) (time : ℚ)
  | activity (kind : Activity) (time : ℚ)
  /-- The loop of the destructor, which never ends. -/
  | simulation_end

def observe : Event → Shared → Except Fault Shared
  | .counter_added name time, s => .ok (counter_added name time s)
  | .counter_removed name time, s => .ok (counter_removed name time s)
  | .counter_updated name value time, s => counter_updated name value time s
  | .data_written mod data time, s => data_written cv mod data time s
  | .data_read mod data time, s => data_read cv mod data time s
  | .data_dropped mod data reason time, s => .ok (data_dropped mod data reason time s)
  | .activity _ time, s => .ok (s.updateSimulationTime time)
  | .simulation_end, s => .ok ((s.setReplyMessage .SimulationEnd).notifyServer.pause none)

/-- The end of `pause`, when a request has continued the simulation. -/
def resume (loop : Option WatchLoop) (s : Shared) : Shared :=
  let s := { s with continue_command := false, simulation := .running }
  match loop with
  | none => s
  | some w => watchLoop w.counter_name w.old_value w.new_value s (w.cursor + 1)
      (s.data_manager.watchpoint_list.drop (w.cursor + 1))

end Pfp.Db
