import PFPSim.Runs.System
import PFPSim.Runs.Rendezvous

/-!
# The handshake of the two threads

The simulation thread and the server thread, step by step, with the mutexes, the condition
variables and the messages that they share; a message object is a number, in the order of
the allocations. What the requests do to the data of the debugger is left out. Each step is
a move of the rendezvous or changes nothing that it shows (`step_move`).
-/

namespace Pfp.Db.Handshake

open Runs Runs.Rendezvous

/-! ## The threads -/

inductive Thread where
  | simulation
  | server
  deriving DecidableEq

/-- Where the simulation thread is: before its run, between two stops, in `notifyServer`
and in `pause`. -/
inductive SimulationPc where
  | waitForRunCommand
  | running
  | lockStop
  | setStopped
  | unlockStop
  | notifyStop
  | lockBkpt
  | getContinueCommand
  | waitBkpt
  | asleep
  | relockBkpt
  | setContinueCommand
  | unlockBkpt
  deriving DecidableEq

/-- Where the server thread is: at `recv`, in a request that it answers itself, in
`handleRun`, in `handleContinue`, in `waitForStop`, and behind it. -/
inductive ServerPc where
  | recv
  /-- A handler that has `left` more messages of its own to send. -/
  | answer (left : Nat)
  | unlockStart
  | lockBkpt
  | setContinueCommand
  | unlockBkpt
  | notifyBkpt
  | lockStop
  | getStopped
  | waitStop
  | asleep
  | relockStop
  | clearStopped
  | unlockStop
  | readReply
  /-- It sends `m`, the reply behind `waitForStop` if `left` is `none`. -/
  | send (m : Nat) (left : Option Nat)
  | delete (m : Nat) (left : Option Nat)
  deriving DecidableEq

inductive MessageEvent where
  | sent (m : Nat)
  | deleted (m : Nat)
  deriving DecidableEq

def MessageEvent.message : MessageEvent → Nat
  | .sent m => m
  | .deleted m => m

/-- The state of both threads. `start_locked` is `ulock` on `start_mutex`. The lists are
histories: the message of each stop, the reply to each request that continued the
simulation, and what happened to the messages. -/
structure State where
  simulation : SimulationPc := .waitForRunCommand
  server : ServerPc := .recv
  start_locked : Bool := true
  stop_mutex : Option Thread := none
  bkpt_mutex : Option Thread := none
  stopped : Bool := false
  continue_command : Bool := false
  run_called : Bool := false
  reply_message : Option Nat := none
  allocated : Nat := 0
  stops : List Nat := []
  replies : List Nat := []
  log : List MessageEvent := []
  deriving DecidableEq

namespace State

variable (s : State)

/-- `unique_lock` on `stop_mutex`, if it is free. -/
def lockStop (t : Thread) : Option State :=
  if s.stop_mutex = none then some { s with stop_mutex := some t } else none

def unlockStop : State := { s with stop_mutex := none }

def lockBkpt (t : Thread) : Option State :=
  if s.bkpt_mutex = none then some { s with bkpt_mutex := some t } else none

def unlockBkpt : State := { s with bkpt_mutex := none }

/-- `stop_cv.notify_all()`, also a spurious wake-up. -/
def wakeServer : State := if s.server = .asleep then { s with server := .relockStop } else s

/-- `bkpt_cv.notify_all()`, also a spurious wake-up. -/
def wakeSimulation : State :=
  if s.simulation = .asleep then { s with simulation := .relockBkpt } else s

/-- The simulation goes to `pc`. -/
def simulationAt (pc : SimulationPc) : State := { s with simulation := pc }

def serverAt (pc : ServerPc) : State := { s with server := pc }

/-- `new`, with the next number. -/
def allocate : State := { s with allocated := s.allocated + 1 }

end State

/-! ## Steps -/

/-- A step of the simulation thread; at `running`, the next stop. -/
def stepSimulation (s : State) : Option State :=
  match s.simulation with
  | .waitForRunCommand => if s.start_locked then none else some (s.simulationAt .running)
  | .running => some { s.allocate with
      simulation := .lockStop, reply_message := some s.allocated, stops := s.stops ++ [s.allocated] }
  | .lockStop => (s.lockStop .simulation).map (·.simulationAt .setStopped)
  | .setStopped => some { s with simulation := .unlockStop, stopped := true }
  | .unlockStop => some (s.unlockStop.simulationAt .notifyStop)
  | .notifyStop => some (s.wakeServer.simulationAt .lockBkpt)
  | .lockBkpt => (s.lockBkpt .simulation).map (·.simulationAt .getContinueCommand)
  | .getContinueCommand =>
    some (s.simulationAt (if s.continue_command then .setContinueCommand else .waitBkpt))
  | .waitBkpt => some (s.unlockBkpt.simulationAt .asleep)
  | .asleep => none
  | .relockBkpt => (s.lockBkpt .simulation).map (·.simulationAt .getContinueCommand)
  | .setContinueCommand => some { s with simulation := .unlockBkpt, continue_command := false }
  | .unlockBkpt => some (s.unlockBkpt.simulationAt .running)

/-- A step of the server thread; at `recv` it waits for a request. -/
def stepServer (s : State) : Option State :=
  match s.server with
  | .recv => none
  | .answer 0 => some (s.serverAt .recv)
  | .answer (left + 1) => some (s.allocate.serverAt (.send s.allocated (some left)))
  | .unlockStart => some { s with server := .lockStop, start_locked := false }
  | .lockBkpt => (s.lockBkpt .server).map (·.serverAt .setContinueCommand)
  | .setContinueCommand => some { s with server := .unlockBkpt, continue_command := true }
  | .unlockBkpt => some (s.unlockBkpt.serverAt .notifyBkpt)
  | .notifyBkpt => some (s.wakeSimulation.serverAt .lockStop)
  | .lockStop => (s.lockStop .server).map (·.serverAt .getStopped)
  | .getStopped => some (s.serverAt (if s.stopped then .clearStopped else .waitStop))
  | .waitStop => some (s.unlockStop.serverAt .asleep)
  | .asleep => none
  | .relockStop => (s.lockStop .server).map (·.serverAt .getStopped)
  | .clearStopped => some { s with server := .unlockStop, stopped := false }
  | .unlockStop => some (s.unlockStop.serverAt .readReply)
  | .readReply =>
    match s.reply_message with
    | some m => some (s.serverAt (.send m none))
    | none => some (s.allocate.serverAt (.send s.allocated none))
  | .send m left => some { s with
      server := .delete m left
      replies := if left = none then s.replies ++ [m] else s.replies
      log := s.log ++ [.sent m] }
  | .delete m left => some { s with
      server := (match left with | some n => .answer n | none => .recv)
      log := s.log ++ [.deleted m] }

/-- The requests, as far as the threads are concerned. -/
inductive Request where
  | Run
  | Continue
  | Next
  /-- A request whose handler sends a number of messages of its own. -/
  | other (answers : Nat)
  deriving DecidableEq

/-- The server takes a request. -/
def receive (r : Request) (s : State) : Option State :=
  if s.server = .recv then
    match r with
    | .Run =>
      if s.run_called = false then some { s with server := .unlockStart, run_called := true }
      else some (s.serverAt (.answer 1))
    | .Continue => some (s.serverAt .lockBkpt)
    | .Next => some (s.serverAt .lockBkpt)
    | .other answers => some (s.serverAt (.answer answers))
  else none

inductive Step where
  | simulation
  | server
  | request (r : Request)
  /-- A spurious wake-up. -/
  | wakeSimulation
  | wakeServer
  deriving DecidableEq

def step (s : State) : Step → Option State
  | .simulation => stepSimulation s
  | .server => stepServer s
  | .request r => receive r s
  | .wakeSimulation => some s.wakeSimulation
  | .wakeServer => some s.wakeServer

def handshake : System State Step := ⟨{}, step⟩

/-! ## The rendezvous -/

/-- What the simulation thread is to the server. -/
def SimulationPc.worker : SimulationPc → Worker
  | .waitForRunCommand => .held
  | .running => .running
  | .lockStop => .stopping
  | .setStopped => .stopping
  | .setContinueCommand => .resumed
  | .unlockBkpt => .running
  | _ => .waiting

def ServerPc.controller : ServerPc → Controller Nat
  | .recv => .serving
  | .answer _ => .serving
  | .unlockStart => .releasing
  | .lockBkpt => .serving
  | .setContinueCommand => .serving
  | .clearStopped => .noticed
  | .unlockStop => .reading
  | .readReply => .reading
  | .send m none => .replying m
  | .send _ (some _) => .serving
  | .delete _ _ => .serving
  | _ => .waiting

def view (s : State) : View Nat where
  worker := s.simulation.worker
  controller := s.server.controller
  lock := s.start_locked
  go := s.continue_command
  stopped := s.stopped
  started := s.run_called
  message := s.reply_message
  stops := s.stops
  replies := s.replies

variable {s s' t : State} {x : Step}

theorem lockStop_eq_some {th : Thread} :
    s.lockStop th = some t ↔ s.stop_mutex = none ∧ { s with stop_mutex := some th } = t := by
  rw [State.lockStop, Option.ite_none_right_eq_some, Option.some_inj]

theorem lockBkpt_eq_some {th : Thread} :
    s.lockBkpt th = some t ↔ s.bkpt_mutex = none ∧ { s with bkpt_mutex := some th } = t := by
  rw [State.lockBkpt, Option.ite_none_right_eq_some, Option.some_inj]

theorem view_lockStop {th : Thread} (h : s.lockStop th = some t) : view t = view s := by
  obtain ⟨-, rfl⟩ := lockStop_eq_some.mp h
  rfl

theorem view_lockBkpt {th : Thread} (h : s.lockBkpt th = some t) : view t = view s := by
  obtain ⟨-, rfl⟩ := lockBkpt_eq_some.mp h
  rfl

theorem view_wakeServer (s : State) : view s.wakeServer = view s := by
  unfold State.wakeServer
  split
  · rename_i h
    simp [view, h, ServerPc.controller]
  · rfl

theorem view_wakeSimulation (s : State) : view s.wakeSimulation = view s := by
  unfold State.wakeSimulation
  split
  · rename_i h
    simp [view, h, SimulationPc.worker]
  · rfl

/-- A step of the simulation thread that the server does not see. -/
theorem stay_simulation {pc : SimulationPc} (ht : view t = view s)
    (hpc : pc.worker = s.simulation.worker) : Move (view s) (view (t.simulationAt pc)) := by
  have heq : view (t.simulationAt pc) = view s := by
    rw [show view (t.simulationAt pc) = { view t with worker := pc.worker } from rfl, ht, hpc]
    rfl
  rw [heq]
  exact .stay

/-- A step of the server thread that the simulation does not see. -/
theorem stay_server {pc : ServerPc} (ht : view t = view s)
    (hpc : pc.controller = s.server.controller) : Move (view s) (view (t.serverAt pc)) := by
  have heq : view (t.serverAt pc) = view s := by
    rw [show view (t.serverAt pc) = { view t with controller := pc.controller } from rfl, ht, hpc]
    rfl
  rw [heq]
  exact .stay

theorem stepSimulation_move (h : stepSimulation s = some s') : Move (view s) (view s') := by
  have hworker : (view s).worker = s.simulation.worker := rfl
  cases hpc : s.simulation <;> rw [hpc] at hworker <;> simp only [stepSimulation, hpc] at h
  case waitForRunCommand =>
    split at h
    · cases h
    · rename_i hlock
      cases h
      exact .start hworker (Bool.not_eq_true _ |>.mp hlock)
  case running =>
    cases h
    exact .stop _ hworker
  case lockStop =>
    obtain ⟨t, ht, rfl⟩ := Option.map_eq_some_iff.mp h
    exact stay_simulation (view_lockStop ht) hworker.symm
  case setStopped =>
    cases h
    exact .announce hworker
  case unlockStop =>
    cases h
    exact stay_simulation rfl hworker.symm
  case notifyStop =>
    cases h
    exact stay_simulation (view_wakeServer s) hworker.symm
  case lockBkpt | relockBkpt =>
    obtain ⟨t, ht, rfl⟩ := Option.map_eq_some_iff.mp h
    exact stay_simulation (view_lockBkpt ht) hworker.symm
  case getContinueCommand =>
    cases h
    split
    · rename_i hgo
      exact .resume hworker hgo
    · exact stay_simulation rfl hworker.symm
  case waitBkpt =>
    cases h
    exact stay_simulation rfl hworker.symm
  case asleep => cases h
  case setContinueCommand =>
    cases h
    exact .proceed hworker
  case unlockBkpt =>
    cases h
    exact stay_simulation rfl hworker.symm

theorem stepServer_move (h : stepServer s = some s') : Move (view s) (view s') := by
  have hctrl : (view s).controller = s.server.controller := rfl
  cases hpc : s.server <;> rw [hpc] at hctrl <;> simp only [stepServer, hpc] at h
  case recv | asleep => cases h
  case answer left =>
    cases left with
    | zero =>
      cases h
      exact stay_server rfl hctrl.symm
    | succ left =>
      cases h
      exact stay_server rfl hctrl.symm
  case unlockStart =>
    cases h
    exact .release hctrl
  case lockBkpt =>
    obtain ⟨t, ht, rfl⟩ := Option.map_eq_some_iff.mp h
    exact stay_server (view_lockBkpt ht) hctrl.symm
  case setContinueCommand =>
    cases h
    exact .permit hctrl
  case unlockBkpt | waitStop =>
    cases h
    exact stay_server rfl hctrl.symm
  case notifyBkpt =>
    cases h
    exact stay_server (view_wakeSimulation s) hctrl.symm
  case lockStop | relockStop =>
    obtain ⟨t, ht, rfl⟩ := Option.map_eq_some_iff.mp h
    exact stay_server (view_lockStop ht) hctrl.symm
  case getStopped =>
    cases h
    split
    · rename_i hstopped
      exact .notice hctrl hstopped
    · exact stay_server rfl hctrl.symm
  case clearStopped =>
    cases h
    exact .clear hctrl
  case unlockStop =>
    cases h
    exact stay_server rfl hctrl.symm
  case readReply =>
    split at h
    · rename_i hm
      cases h
      exact .read _ hctrl hm
    · rename_i hm
      cases h
      exact .substitute _ hctrl hm
  case send m left =>
    cases left with
    | none =>
      cases h
      exact .reply m hctrl
    | some left =>
      cases h
      exact stay_server rfl hctrl.symm
  case delete m left =>
    cases left with
    | none =>
      cases h
      exact stay_server rfl hctrl.symm
    | some left =>
      cases h
      exact stay_server rfl hctrl.symm

theorem receive_move {r : Request} (h : receive r s = some s') : Move (view s) (view s') := by
  have hctrl : (view s).controller = s.server.controller := rfl
  unfold receive at h
  rw [Option.ite_none_right_eq_some] at h
  obtain ⟨hpc, h⟩ := h
  rw [hpc] at hctrl
  cases r with
  | Run =>
    simp only at h
    split at h
    · rename_i hrun
      cases h
      exact .run hctrl hrun
    · cases h
      exact stay_server rfl hctrl.symm
  | Continue =>
    cases h
    exact stay_server rfl hctrl.symm
  | Next =>
    cases h
    exact stay_server rfl hctrl.symm
  | other answers =>
    cases h
    exact stay_server rfl hctrl.symm

/-- **Simulation.** A step of the threads is a move of the rendezvous. -/
theorem step_move (h : step s x = some s') : Move (view s) (view s') := by
  cases x with
  | simulation => exact stepSimulation_move h
  | server => exact stepServer_move h
  | request r => exact receive_move h
  | wakeSimulation =>
    cases h
    rw [view_wakeSimulation]
    exact .stay
  | wakeServer =>
    cases h
    rw [view_wakeServer]
    exact .stay

theorem reaches_phase {P : State → Step → Prop} (h : handshake.Reaches P s) : Phase (view s) :=
  System.Reaches.invariant (I := fun s => Phase (view s)) (.held none)
    (fun _ _ _ _ hs _ hstep => hs.move (step_move hstep)) h

end Pfp.Db.Handshake
