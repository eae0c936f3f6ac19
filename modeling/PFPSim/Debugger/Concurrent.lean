import PFPSim.Debugger.Frames
import PFPSim.Debugger.Handshake

/-!
# The two threads with their data

The steps of `PFPSim.Debugger.Handshake` together with the data that the callbacks and the
handlers work on: a callback runs until it calls `notifyServer` or returns, a handler until
it calls `waitForStop` or has made its answers, which it then sends one by one. Between any
two of these steps the other thread can take its own. `Coherent` is what holds in every
state that is reached.
-/

namespace Pfp.Db.Concurrent

open Runs Runs.Rendezvous

/-! ## The state -/

/-- The state of the process of the simulation. `callback` is `some` while the simulation
thread is in a callback that has called `notifyServer`, with what is left of its loop.
`unsent` is what the handler has made and not sent yet. -/
structure State where
  threads : Handshake.State := {}
  data_manager : DebugDataManager := {}
  reply_message : Option DebuggerMessage := none
  published : List TracingUpdate := []
  control_plane : Option CPDebuggerInterface := none
  callback : Option (Option WatchLoop) := none
  sent : List DebuggerMessage := []
  unsent : List DebuggerMessage := []

/-- Where the simulation is: in front of its run, in a callback, or between two of them. -/
def simulation : Handshake.SimulationPc → Option (Option WatchLoop) → Simulation
  | _, some loop => .paused loop
  | .waitForRunCommand, none => .held
  | _, none => .running

namespace State

variable (s : State)

/-- What a callback finds. -/
def shared : Shared where
  data_manager := s.data_manager
  reply_message := s.reply_message
  run_lock := s.threads.start_locked
  continue_command := s.threads.continue_command
  stopped := s.threads.stopped
  simulation := Concurrent.simulation s.threads.simulation s.callback
  published := s.published

/-- What a handler finds. -/
def session : Session where
  shared := s.shared
  control_plane := s.control_plane
  run_called := s.threads.run_called
  sent := s.sent

/-- The callback has come to `notifyServer`, or returns. -/
def leave (sh : Shared) : Option State :=
  let s := { s with
    data_manager := sh.data_manager, reply_message := sh.reply_message, published := sh.published }
  match sh.simulation with
  | .paused loop =>
    (Handshake.stepSimulation s.threads).map fun threads =>
      { s with threads, callback := some loop }
  | _ => some { s with callback := none }

end State

/-! ## Steps -/

/-- A step of the simulation thread on its way through `waitForRunCommand`, `notifyServer` and
`pause`, and then the rest of the callback. -/
def stepSimulation (s : State) : Option State :=
  match s.threads.simulation with
  | .running =>
    match s.callback with
    | some loop => s.leave (resume loop s.shared)
    | none => none
  | _ => (Handshake.stepSimulation s.threads).map fun threads => { s with threads }

def stepServer (s : State) : Option State :=
  (Handshake.stepServer s.threads).map fun threads =>
    match s.threads.server with
    | .readReply =>
      { s with threads, unsent := [s.reply_message.getD (.GenericAcknowledge .SUCCESS)] }
    | .send _ _ => { s with threads, sent := s.sent ++ s.unsent.take 1, unsent := s.unsent.drop 1 }
    | _ => { s with threads }

/-- What the request is to the threads, when its handler sends `answers` messages of its own. -/
def kind (r : Request) (answers : Nat) : Handshake.Request :=
  match r with
  | .Run _ => .Run
  | .Continue _ => .Continue
  | .Next => .Next
  | _ => .other answers

variable (cv : Conversions)

/-- The server takes a request. -/
def receive (r : Request) (s : State) : Option State :=
  match parseRequest cv r s.session with
  | .ok s' =>
    let unsent := s'.sent.drop s.sent.length
    (Handshake.receive (kind r unsent.length) s.threads).map fun threads =>
      { s with
        threads, unsent, data_manager := s'.data_manager, control_plane := s'.control_plane }
  | .error _ => none

inductive Step where
  /-- The simulation calls the observer. -/
  | event (e : Event)
  | simulation
  | server
  | request (r : Request)
  /-- A spurious wake-up. -/
  | wakeSimulation
  | wakeServer

def step (s : State) : Step → Option State
  | .event e =>
    if s.threads.simulation = .running ∧ s.callback = none then
      (observe cv e s.shared).toOption.bind s.leave
    else none
  | .simulation => stepSimulation s
  | .server => stepServer s
  | .request r => receive cv r s
  | .wakeSimulation => some { s with threads := s.threads.wakeSimulation }
  | .wakeServer => some { s with threads := s.threads.wakeServer }

def concurrent (cp : Option CPDebuggerInterface) : System State Step :=
  ⟨{ control_plane := cp }, step cv⟩

/-! ## Requests -/

variable {cv : Conversions} {cp : Option CPDebuggerInterface}

/-- What a request does to a session, by what it is to the threads. -/
inductive Handled (s : Session) : Handshake.Request → Session → Prop
  | run (dm : DebugDataManager) (hrun : s.run_called = false) : Handled s .Run
      { s with
        shared := { s.shared with data_manager := dm, run_lock := false }
        run_called := true
        waiting := true }
  | refused (m : DebuggerMessage) (hrun : s.run_called = true) : Handled s .Run (s.send m)
  | permitted (k : Handshake.Request) (hk : k = .Continue ∨ k = .Next) (dm : DebugDataManager) :
      Handled s k
        { s with
          shared := { s.shared with data_manager := dm, continue_command := true }
          waiting := true }
  | answered (dm : DebugDataManager) (cp : Option CPDebuggerInterface)
      (ms : List DebuggerMessage) : Handled s (.other ms.length)
        { s.manage dm with control_plane := cp, sent := s.sent ++ ms }

theorem breakAfter_eq (cv : Conversions) (time : ℚ) (s : Session) :
    ∃ dm, breakAfter cv time s = s.manage dm := by
  unfold breakAfter
  split
  · exact ⟨_, rfl⟩
  · exact ⟨s.data_manager, rfl⟩

theorem handleContinue_handled (time : ℚ) (s : Session) (dm : DebugDataManager)
    {k : Handshake.Request} (hk : k = .Continue ∨ k = .Next) :
    Handled s k (handleContinue cv time (s.manage dm)) := by
  obtain ⟨dm', hdm'⟩ := breakAfter_eq cv time (s.manage dm)
  rw [handleContinue, hdm']
  exact .permitted k hk dm'

theorem handled_answer {s s' : Session} (dm : DebugDataManager)
    (cp : Option CPDebuggerInterface) (ms : List DebuggerMessage)
    (h : s' = { s.manage dm with control_plane := cp, sent := s.sent ++ ms }) :
    Handled s (.other (s'.sent.drop s.sent.length).length) s' := by
  subst h
  rw [List.drop_left]
  exact .answered dm cp ms

theorem handleId_handled {s s' : Session} {id : String} {f : Int → DebugDataManager}
    (h : handleId id f s = .ok s') :
    Handled s (.other (s'.sent.drop s.sent.length).length) s' := by
  obtain ⟨x, -, h⟩ := bind_eq_ok.mp h
  cases h
  exact handled_answer (f x) s.control_plane [_] rfl

theorem handlePacketValue_handled (id : Int) (value : DebugInfo → DebuggerMessage)
    (s : Session) : Handled s (.other ((handlePacketValue id value s).sent.drop
      s.sent.length).length) (handlePacketValue id value s) := by
  obtain ⟨ms, hms⟩ := handlePacketValue_withSent id value s
  exact handled_answer s.data_manager s.control_plane ms (hms s.sent)

theorem handleStartTracing_handled (msg : StartTracingMsg) (s : Session) :
    Handled s (.other ((handleStartTracing msg s).sendRequestFailed.sent.drop
      s.sent.length).length) (handleStartTracing msg s).sendRequestFailed := by
  obtain ⟨id, -, heq⟩ := handleStartTracing_eq msg s
  rw [heq]
  split
  · exact handled_answer _ s.control_plane [_, _] (congrArg (Session.withSent _)
      (List.append_assoc s.sent _ _))
  · exact handled_answer _ s.control_plane [_, _] (congrArg (Session.withSent _)
      (List.append_assoc s.sent _ _))

/-- **Requests.** A request begins the run, permits the simulation to go on, or is answered. -/
theorem parseRequest_handled {r : Request} {s s' : Session} (h : parseRequest cv r s = .ok s') :
    Handled s (kind r (s'.sent.drop s.sent.length).length) s' := by
  cases r with
  | Run time_ns =>
    simp only [parseRequest] at h
    split at h
    · rename_i hrun
      obtain ⟨t, -, h⟩ := bind_eq_ok.mp h
      cases h
      obtain ⟨dm, hdm⟩ := breakAfter_eq cv t { s with run_called := true }
      rw [handleRun, hdm]
      exact .run dm hrun
    · rename_i hrun
      cases h
      exact .refused _ (Bool.not_eq_false _ |>.mp hrun)
  | Continue time_ns =>
    obtain ⟨t, -, h⟩ := bind_eq_ok.mp h
    cases h
    exact handleContinue_handled t s s.data_manager (.inl rfl)
  | Next =>
    cases h
    exact handleContinue_handled (-1) s _ (.inr rfl)
  | SetBreakpoint msg =>
    obtain ⟨br, -, h⟩ := bind_eq_ok.mp h
    cases h
    exact handled_answer _ s.control_plane [_] rfl
  | RemoveBreakpoint id => exact handleId_handled (f := s.data_manager.removeBreakpoint) h
  | EnableDisableBreakpoint id enable =>
    exact handleId_handled (show handleId id _ s = .ok s' from h)
  | RemoveWatchpoint id => exact handleId_handled (f := s.data_manager.removeWatchpoint) h
  | EnableDisableWatchpoint id enable =>
    exact handleId_handled (show handleId id _ s = .ok s' from h)
  | Backtrace packet_id =>
    obtain ⟨id, -, h⟩ := bind_eq_ok.mp h
    split at h <;> cases h <;> exact handled_answer s.data_manager s.control_plane [_] rfl
  | CPCommand command =>
    obtain ⟨cp, -, h⟩ := bind_eq_ok.mp h
    cases h
    exact handled_answer s.data_manager _ [_] rfl
  | GetTableEntries =>
    obtain ⟨cp, -, h⟩ := bind_eq_ok.mp h
    cases h
    exact handled_answer s.data_manager s.control_plane [_] rfl
  | GetPacketField id field_name =>
    cases h
    exact handlePacketValue_handled ..
  | GetRawPacket id =>
    cases h
    exact handlePacketValue_handled ..
  | GetParsedPacket id =>
    cases h
    exact handlePacketValue_handled ..
  | StartTracing msg =>
    cases h
    exact handleStartTracing_handled msg s
  | _ =>
    cases h
    exact handled_answer _ s.control_plane [_] rfl

/-! ## The threads -/

variable {s s' : State}

/-- What `leave` does to the threads: the callback returns, or it stops. -/
theorem leave_cases {sh : Shared} (hs : s.threads.simulation = .running)
    (h : s.leave sh = some s') :
    (∀ loop, sh.simulation ≠ .paused loop) ∧ s' = { s with
        data_manager := sh.data_manager, reply_message := sh.reply_message
        published := sh.published, callback := none } ∨
      ∃ loop threads, sh.simulation = .paused loop ∧
        Handshake.stepSimulation s.threads = some threads ∧
        threads.simulation = .lockStop ∧ s' = { s with
          threads, data_manager := sh.data_manager, reply_message := sh.reply_message
          published := sh.published, callback := some loop } := by
  unfold State.leave at h
  simp only at h
  split at h
  · rename_i loop hloop
    obtain ⟨threads, hthreads, rfl⟩ := Option.map_eq_some_iff.mp h
    refine .inr ⟨loop, threads, hloop, hthreads, ?_, rfl⟩
    rw [Handshake.stepSimulation, hs] at hthreads
    cases hthreads
    rfl
  · rename_i hpaused
    cases h
    exact .inl ⟨hpaused, rfl⟩

/-- What a step can do. -/
inductive Transition (cv : Conversions) (s : State) : Step → State → Prop
  | event {e : Event} {sh : Shared} {s' : State} (hs : s.threads.simulation = .running)
      (hcallback : s.callback = none) (hsh : observe cv e s.shared = .ok sh)
      (h : s.leave sh = some s') : Transition cv s (.event e) s'
  | resume {loop : Option WatchLoop} {s' : State} (hs : s.threads.simulation = .running)
      (hcallback : s.callback = some loop) (h : s.leave (resume loop s.shared) = some s') :
      Transition cv s .simulation s'
  | simulation {threads : Handshake.State} (hs : s.threads.simulation ≠ .running)
      (h : Handshake.stepSimulation s.threads = some threads) :
      Transition cv s .simulation { s with threads }
  | readReply {threads : Handshake.State} (hs : s.threads.server = .readReply)
      (h : Handshake.stepServer s.threads = some threads) : Transition cv s .server
        { s with threads, unsent := [s.reply_message.getD (.GenericAcknowledge .SUCCESS)] }
  | send {m : Nat} {left : Option Nat} {threads : Handshake.State}
      (hs : s.threads.server = .send m left) (h : Handshake.stepServer s.threads = some threads) :
      Transition cv s .server
        { s with threads, sent := s.sent ++ s.unsent.take 1, unsent := s.unsent.drop 1 }
  | server {threads : Handshake.State} (hread : s.threads.server ≠ .readReply)
      (hsend : ∀ m left, s.threads.server ≠ .send m left)
      (h : Handshake.stepServer s.threads = some threads) :
      Transition cv s .server { s with threads }
  | request {r : Request} {t : Session} {k : Handshake.Request} {threads : Handshake.State}
      (ht : parseRequest cv r s.session = .ok t) (hk : Handled s.session k t)
      (h : Handshake.receive k s.threads = some threads) : Transition cv s (.request r)
        { s with
          threads, unsent := t.sent.drop s.sent.length
          data_manager := t.data_manager, control_plane := t.control_plane }
  | wakeSimulation :
      Transition cv s .wakeSimulation { s with threads := s.threads.wakeSimulation }
  | wakeServer : Transition cv s .wakeServer { s with threads := s.threads.wakeServer }

theorem stepSimulation_transition (h : stepSimulation s = some s') :
    Transition cv s .simulation s' := by
  unfold stepSimulation at h
  split at h
  · rename_i hs
    split at h
    · rename_i loop hcallback
      exact .resume hs hcallback h
    · cases h
  · rename_i hs
    obtain ⟨threads, hthreads, rfl⟩ := Option.map_eq_some_iff.mp h
    exact .simulation hs hthreads

theorem stepServer_transition (h : stepServer s = some s') : Transition cv s .server s' := by
  obtain ⟨threads, hthreads, h⟩ := Option.map_eq_some_iff.mp h
  split at h
  · rename_i hs
    cases h
    exact .readReply hs hthreads
  · rename_i m left hs
    cases h
    exact .send hs hthreads
  · rename_i hread hsend
    cases h
    exact .server hread hsend hthreads

theorem step_transition {x : Step} (h : step cv s x = some s') : Transition cv s x s' := by
  cases x with
  | event e =>
    obtain ⟨⟨hs, hcallback⟩, h⟩ := Option.ite_none_right_eq_some.mp h
    cases hsh : observe cv e s.shared with
    | ok sh =>
      rw [hsh] at h
      exact .event hs hcallback hsh h
    | error f =>
      rw [hsh] at h
      cases h
  | simulation => exact stepSimulation_transition h
  | server => exact stepServer_transition h
  | request r =>
    simp only [step, receive] at h
    split at h
    · rename_i t ht
      obtain ⟨threads, hthreads, rfl⟩ := Option.map_eq_some_iff.mp h
      exact .request ht (parseRequest_handled ht) hthreads
    · cases h
  | wakeSimulation =>
    cases h
    exact .wakeSimulation
  | wakeServer =>
    cases h
    exact .wakeServer

/-- **Projection.** Beside the data, a step is a step of the handshake or none. -/
theorem step_threads {x : Step} (h : step cv s x = some s') :
    s'.threads = s.threads ∨ ∃ y, Handshake.step s.threads y = some s'.threads := by
  have hleave : ∀ {sh}, s.threads.simulation = .running → s.leave sh = some s' →
      s'.threads = s.threads ∨ ∃ y, Handshake.step s.threads y = some s'.threads := by
    intro sh hs h
    rcases leave_cases hs h with ⟨-, rfl⟩ | ⟨loop, threads, -, hthreads, -, rfl⟩
    · exact .inl rfl
    · exact .inr ⟨.simulation, hthreads⟩
  cases step_transition h with
  | event hs hcallback hsh hstep => exact hleave hs hstep
  | resume hs hcallback hstep => exact hleave hs hstep
  | simulation hs hstep => exact .inr ⟨.simulation, hstep⟩
  | readReply hs hstep => exact .inr ⟨.server, hstep⟩
  | send hs hstep => exact .inr ⟨.server, hstep⟩
  | server hread hsend hstep => exact .inr ⟨.server, hstep⟩
  | request ht hk hstep => exact .inr ⟨.request _, hstep⟩
  | wakeSimulation => exact .inr ⟨.wakeSimulation, rfl⟩
  | wakeServer => exact .inr ⟨.wakeServer, rfl⟩

/-! ## Coherence -/

/-- The simulation is in a callback from `notifyServer` on, and in none before its run. -/
def InCallback : Handshake.SimulationPc → Option (Option WatchLoop) → Prop
  | .waitForRunCommand, callback => callback = none
  | .running, _ => True
  | _, callback => callback.isSome = true

/-- How many messages the handler has left to send. -/
def left : Handshake.ServerPc → Nat
  | .answer n => n
  | .send _ (some n) => n + 1
  | .send _ none => 1
  | .delete _ (some n) => n
  | _ => 0

structure Coherent (s : State) : Prop where
  phase : Phase (Handshake.view s.threads)
  callback : InCallback s.threads.simulation s.callback
  unsent : s.unsent.length = left s.threads.server

variable {t t' : Handshake.State} {callback : Option (Option WatchLoop)}

theorem inCallback_wakeSimulation (h : InCallback t.simulation callback) :
    InCallback t.wakeSimulation.simulation callback := by
  unfold Handshake.State.wakeSimulation
  split
  · rename_i hpc
    rw [hpc] at h
    exact h
  · exact h

theorem wakeSimulation_server (t : Handshake.State) : t.wakeSimulation.server = t.server := by
  unfold Handshake.State.wakeSimulation
  split <;> rfl

theorem wakeServer_simulation (t : Handshake.State) : t.wakeServer.simulation = t.simulation := by
  unfold Handshake.State.wakeServer
  split <;> rfl

theorem left_wakeServer (t : Handshake.State) : left t.wakeServer.server = left t.server := by
  unfold Handshake.State.wakeServer
  split
  · rename_i hpc
    rw [hpc]
    rfl
  · rfl

/-- The simulation thread by itself neither calls a callback nor returns from one. -/
theorem stepSimulation_coherent (hs : t.simulation ≠ .running)
    (h : Handshake.stepSimulation t = some t') (hcallback : InCallback t.simulation callback) :
    InCallback t'.simulation callback ∧ left t'.server = left t.server := by
  cases hpc : t.simulation <;> rw [hpc] at hcallback <;>
    simp only [Handshake.stepSimulation, hpc] at h
  case running => exact absurd hpc hs
  case waitForRunCommand =>
    split at h
    · cases h
    · cases h
      exact ⟨trivial, rfl⟩
  case lockStop =>
    obtain ⟨u, hu, rfl⟩ := Option.map_eq_some_iff.mp h
    obtain ⟨-, rfl⟩ := Handshake.lockStop_eq_some.mp hu
    exact ⟨hcallback, rfl⟩
  case lockBkpt | relockBkpt =>
    obtain ⟨u, hu, rfl⟩ := Option.map_eq_some_iff.mp h
    obtain ⟨-, rfl⟩ := Handshake.lockBkpt_eq_some.mp hu
    exact ⟨hcallback, rfl⟩
  case notifyStop =>
    cases h
    exact ⟨hcallback, left_wakeServer t⟩
  case getContinueCommand =>
    cases h
    refine ⟨?_, rfl⟩
    show InCallback (if t.continue_command then _ else _) callback
    split <;> exact hcallback
  case unlockBkpt =>
    cases h
    exact ⟨trivial, rfl⟩
  case asleep => cases h
  all_goals
    cases h
    exact ⟨hcallback, rfl⟩

theorem stepServer_simulation (h : Handshake.stepServer t = some t') :
    t'.simulation = t.simulation ∨ t'.simulation = t.wakeSimulation.simulation := by
  cases hpc : t.server <;> simp only [Handshake.stepServer, hpc] at h
  case recv | asleep => cases h
  case answer left => cases left <;> cases h <;> exact .inl rfl
  case lockBkpt =>
    obtain ⟨u, hu, rfl⟩ := Option.map_eq_some_iff.mp h
    obtain ⟨-, rfl⟩ := Handshake.lockBkpt_eq_some.mp hu
    exact .inl rfl
  case lockStop | relockStop =>
    obtain ⟨u, hu, rfl⟩ := Option.map_eq_some_iff.mp h
    obtain ⟨-, rfl⟩ := Handshake.lockStop_eq_some.mp hu
    exact .inl rfl
  case notifyBkpt =>
    cases h
    exact .inr rfl
  case readReply => split at h <;> cases h <;> exact .inl rfl
  all_goals
    cases h
    exact .inl rfl

theorem stepServer_left (h : Handshake.stepServer t = some t') :
    left t'.server = match t.server with
      | .readReply => 1
      | .send _ _ => left t.server - 1
      | _ => left t.server := by
  cases hpc : t.server <;> simp only [Handshake.stepServer, hpc] at h
  case recv | asleep => cases h
  case answer n => cases n <;> cases h <;> rfl
  case lockBkpt =>
    obtain ⟨u, hu, rfl⟩ := Option.map_eq_some_iff.mp h
    rfl
  case lockStop | relockStop =>
    obtain ⟨u, hu, rfl⟩ := Option.map_eq_some_iff.mp h
    rfl
  case getStopped =>
    cases h
    show left (if t.stopped then _ else _) = 0
    split <;> rfl
  case readReply => split at h <;> cases h <;> rfl
  case send m n => cases n <;> cases h <;> rfl
  case delete m n => cases n <;> cases h <;> rfl
  all_goals
    cases h
    rfl

/-- A request that is answered leaves its messages to be sent, and another one leaves none. -/
theorem receive_left {k : Handshake.Request} {s' : Session} {s : Session}
    (hk : Handled s k s') (hrun : t.run_called = s.run_called)
    (h : Handshake.receive k t = some t') :
    (s'.sent.drop s.sent.length).length = left t'.server ∧ t'.simulation = t.simulation := by
  obtain ⟨-, h⟩ := Option.ite_none_right_eq_some.mp h
  cases hk with
  | run dm hcalled =>
    rw [hcalled] at hrun
    simp only [hrun, if_true] at h
    cases h
    exact ⟨by rw [List.drop_length]; rfl, rfl⟩
  | refused m hcalled =>
    rw [hcalled] at hrun
    simp only [hrun, Bool.true_eq_false, if_false] at h
    cases h
    exact ⟨by rw [Session.send, List.drop_left]; rfl, rfl⟩
  | permitted k hk dm =>
    rcases hk with rfl | rfl <;> cases h <;> exact ⟨by rw [List.drop_length]; rfl, rfl⟩
  | answered dm cp ms =>
    cases h
    exact ⟨by rw [List.drop_left]; rfl, rfl⟩

theorem leave_coherent {sh : Shared} (hs : s.threads.simulation = .running) (h : Coherent s)
    (hphase : Phase (Handshake.view s'.threads)) (hleave : s.leave sh = some s') : Coherent s' := by
  rcases leave_cases hs hleave with ⟨-, rfl⟩ | ⟨loop, threads, -, hthreads, hpc, rfl⟩
  · refine ⟨hphase, ?_, h.unsent⟩
    rw [hs]
    trivial
  · refine ⟨hphase, ?_, ?_⟩
    · show InCallback threads.simulation _
      rw [hpc]
      rfl
    · rw [Handshake.stepSimulation, hs] at hthreads
      cases hthreads
      exact h.unsent

/-- **Invariant.** Every step keeps the callbacks and the messages with the threads. -/
theorem step_coherent {x : Step} (h : Coherent s) (hstep : step cv s x = some s') :
    Coherent s' := by
  have hphase : Phase (Handshake.view s'.threads) := by
    rcases step_threads hstep with heq | ⟨y, hy⟩
    · rw [heq]
      exact h.phase
    · exact h.phase.move (Handshake.step_move hy)
  cases step_transition hstep with
  | event hs hcallback hsh hleave => exact leave_coherent hs h hphase hleave
  | resume hs hcallback hleave => exact leave_coherent hs h hphase hleave
  | simulation hs hthreads =>
    obtain ⟨hcallback, hleft⟩ := stepSimulation_coherent hs hthreads h.callback
    exact ⟨hphase, hcallback, h.unsent.trans hleft.symm⟩
  | readReply hs hthreads =>
    have hleft := stepServer_left hthreads
    rw [hs] at hleft
    refine ⟨hphase, ?_, hleft.symm⟩
    rcases stepServer_simulation hthreads with heq | heq
    · exact heq ▸ h.callback
    · exact heq ▸ inCallback_wakeSimulation h.callback
  | send hs hthreads =>
    have hleft := stepServer_left hthreads
    simp only [hs] at hleft
    rw [← hs, ← h.unsent, ← List.length_drop] at hleft
    refine ⟨hphase, ?_, hleft.symm⟩
    rcases stepServer_simulation hthreads with heq | heq
    · exact heq ▸ h.callback
    · exact heq ▸ inCallback_wakeSimulation h.callback
  | server hread hsend hthreads =>
    have hleft := stepServer_left hthreads
    split at hleft
    · rename_i hs
      exact absurd hs hread
    · rename_i m n hs
      exact absurd hs (hsend m n)
    · refine ⟨hphase, ?_, h.unsent.trans hleft.symm⟩
      rcases stepServer_simulation hthreads with heq | heq
      · exact heq ▸ h.callback
      · exact heq ▸ inCallback_wakeSimulation h.callback
  | request ht hk hthreads =>
    obtain ⟨hleft, heq⟩ := receive_left hk rfl hthreads
    exact ⟨hphase, heq ▸ h.callback, hleft⟩
  | wakeSimulation =>
    have hserver := congrArg left (wakeSimulation_server s.threads)
    exact ⟨hphase, inCallback_wakeSimulation h.callback, h.unsent.trans hserver.symm⟩
  | wakeServer =>
    have hsimulation := wakeServer_simulation s.threads
    exact ⟨hphase, hsimulation ▸ h.callback, h.unsent.trans (left_wakeServer _).symm⟩

end Pfp.Db.Concurrent
