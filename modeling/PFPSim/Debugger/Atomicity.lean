import PFPSim.Debugger.Concurrent
import PFPSim.Debugger.Stops
import PFPSim.Runs.Matching

/-!
# Requests and callbacks are atomic

The steps of the two threads, one after the other in any order, do what a session does with
whole requests and whole callbacks (`atomic`). In the session what a thread is about to do
has been done already: `committed` is the state with the flags that the steps under way lead
to, and with the messages that are still to be sent.
-/

namespace Pfp.Db.Concurrent

open Runs Runs.Rendezvous

/-! ## What is under way -/

/-- The server is about to unlock `start_mutex`. -/
def releases : Handshake.ServerPc → Bool
  | .unlockStart => true
  | _ => false

/-- The server is about to set `continue_command`. -/
def permits : Handshake.ServerPc → Bool
  | .lockBkpt => true
  | .setContinueCommand => true
  | _ => false

/-- The server has seen the stop, and does not have its message yet. -/
def reads : Handshake.ServerPc → Bool
  | .unlockStop => true
  | .readReply => true
  | _ => false

/-- The server is in the handler of a request that waits for a stop. -/
def waits : Handshake.ServerPc → Bool
  | .recv => false
  | .answer _ => false
  | .send _ _ => false
  | .delete _ _ => false
  | _ => true

/-- The simulation is about to set `stopped`. -/
def announces : Handshake.SimulationPc → Bool
  | .lockStop => true
  | .setStopped => true
  | _ => false

/-- The simulation has been permitted to go on, and does so in its callback. -/
def proceeds : Handshake.SimulationPc → Option (Option WatchLoop) → Bool
  | .unlockBkpt, _ => true
  | .running, callback => callback.isSome
  | _, _ => false

/-- The flags behind the steps that are under way. -/
structure Standing where
  run_lock : Bool
  continue_command : Bool
  stopped : Bool
  simulation : Simulation
  run_called : Bool
  waiting : Bool

def standing (t : Handshake.State) (callback : Option (Option WatchLoop)) : Standing where
  run_lock := t.start_locked && !releases t.server
  continue_command := t.continue_command || permits t.server || proceeds t.simulation callback
  stopped := t.stopped || announces t.simulation || reads t.server
  simulation := simulation t.simulation callback
  run_called := t.run_called
  waiting := waits t.server

/-- The session that the threads are in. -/
def State.committed (s : State) : Session :=
  let f := standing s.threads s.callback
  { shared := { s.shared with
      run_lock := f.run_lock, continue_command := f.continue_command, stopped := f.stopped
      simulation := f.simulation }
    control_plane := s.control_plane
    run_called := f.run_called
    waiting := f.waiting
    sent := s.sent ++ s.unsent }

variable {t t' : Handshake.State} {callback : Option (Option WatchLoop)}

theorem standing_wakeSimulation (t : Handshake.State) (callback : Option (Option WatchLoop)) :
    standing t.wakeSimulation callback = standing t callback := by
  unfold Handshake.State.wakeSimulation
  split
  · rename_i hpc
    cases callback <;> simp [standing, hpc, announces, proceeds, simulation]
  · rfl

theorem standing_wakeServer (t : Handshake.State) (callback : Option (Option WatchLoop)) :
    standing t.wakeServer callback = standing t callback := by
  unfold Handshake.State.wakeServer
  split
  · rename_i hpc
    simp [standing, hpc, releases, permits, reads, waits]
  · rfl

/-- The steps of the simulation thread in `notifyServer` and `pause` have been done already. -/
theorem standing_stepSimulation (hphase : Phase (Handshake.view t))
    (hcallback : InCallback t.simulation callback) (hheld : t.simulation ≠ .waitForRunCommand)
    (hrunning : t.simulation ≠ .running) (h : Handshake.stepSimulation t = some t') :
    standing t' callback = standing t callback := by
  have hworker : (Handshake.view t).worker = t.simulation.worker := rfl
  cases hpc : t.simulation <;> rw [hpc] at hcallback hworker <;>
    simp only [Handshake.stepSimulation, hpc] at h
  case waitForRunCommand => exact absurd hpc hheld
  case running => exact absurd hpc hrunning
  case asleep => cases h
  case lockStop =>
    obtain ⟨u, hu, rfl⟩ := Option.map_eq_some_iff.mp h
    obtain ⟨-, rfl⟩ := Handshake.lockStop_eq_some.mp hu
    rw [standing, standing, hpc]
    cases callback <;> rfl
  case setStopped =>
    cases h
    cases callback <;> simp [standing, hpc, announces, proceeds, simulation]
  case notifyStop =>
    cases h
    have hs := wakeServer_simulation t
    rw [hpc] at hs
    rw [← standing_wakeServer t, standing, standing, hs]
    cases callback <;> rfl
  case lockBkpt | relockBkpt =>
    obtain ⟨u, hu, rfl⟩ := Option.map_eq_some_iff.mp h
    obtain ⟨-, rfl⟩ := Handshake.lockBkpt_eq_some.mp hu
    rw [standing, standing, hpc]
    cases callback <;> rfl
  case getContinueCommand =>
    cases h
    rw [standing, standing, hpc]
    cases callback <;> split <;> rfl
  case setContinueCommand =>
    cases h
    have hgo : t.continue_command = true := hphase.go_of_resumed hworker
    cases callback <;> simp [standing, hpc, hgo, announces, proceeds, simulation]
  case unlockBkpt =>
    cases h
    obtain ⟨loop, rfl⟩ := Option.isSome_iff_exists.mp hcallback
    rw [standing, standing, hpc]
    rfl
  case unlockStop | waitBkpt =>
    cases h
    rw [standing, standing, hpc]
    cases callback <;> rfl

/-- The steps of the server thread up to its reply have been done already, and those behind
it change nothing. -/
theorem standing_stepServer (callback : Option (Option WatchLoop))
    (hphase : Phase (Handshake.view t)) (hread : t.server ≠ .readReply)
    (h : Handshake.stepServer t = some t') : standing t' callback = standing t callback := by
  have hctrl : (Handshake.view t).controller = t.server.controller := rfl
  cases hpc : t.server <;> rw [hpc] at hctrl <;> simp only [Handshake.stepServer, hpc] at h
  case recv | asleep => cases h
  case readReply => exact absurd hpc hread
  case answer n =>
    cases n <;> cases h <;> rw [standing, standing, hpc] <;> rfl
  case unlockStart =>
    cases h
    simp [standing, hpc, releases, permits, reads, waits]
  case lockBkpt =>
    obtain ⟨u, hu, rfl⟩ := Option.map_eq_some_iff.mp h
    obtain ⟨-, rfl⟩ := Handshake.lockBkpt_eq_some.mp hu
    rw [standing, standing, hpc]
    rfl
  case setContinueCommand =>
    cases h
    simp [standing, hpc, releases, permits, reads, waits]
  case notifyBkpt =>
    cases h
    have hs := wakeSimulation_server t
    rw [hpc] at hs
    rw [← standing_wakeSimulation t, standing, standing, hs]
    rfl
  case lockStop | relockStop =>
    obtain ⟨u, hu, rfl⟩ := Option.map_eq_some_iff.mp h
    obtain ⟨-, rfl⟩ := Handshake.lockStop_eq_some.mp hu
    rw [standing, standing, hpc]
    rfl
  case getStopped =>
    cases h
    rw [standing, standing, hpc]
    split <;> rfl
  case clearStopped =>
    cases h
    have hstopped : t.stopped = true := hphase.stopped_of_noticed hctrl
    simp [standing, hpc, hstopped, releases, permits, reads, waits]
  case send m n | delete m n =>
    cases n <;> cases h <;> rw [standing, standing, hpc] <;> rfl
  case unlockBkpt | waitStop | unlockStop =>
    cases h
    rw [standing, standing, hpc]
    rfl

theorem announces_eq_false {pc : Handshake.SimulationPc} (h : pc.worker ≠ .stopping) :
    announces pc = false := by
  cases pc <;> first | rfl | exact absurd rfl h

theorem proceeds_eq_false {pc : Handshake.SimulationPc} (h : pc.worker ≠ .running)
    (callback : Option (Option WatchLoop)) : proceeds pc callback = false := by
  cases pc <;> first | rfl | exact absurd rfl h

/-- The server waits: it neither unlocks nor permits anything, and has not seen a stop. -/
theorem of_controller_waiting {pc : Handshake.ServerPc} (h : pc.controller = .waiting) :
    releases pc = false ∧ permits pc = false ∧ reads pc = false ∧ waits pc = true ∧
      left pc = 0 := by
  cases pc with
  | send m n => cases n <;> cases h
  | unlockBkpt | notifyBkpt | lockStop | getStopped | waitStop | asleep | relockStop =>
    exact ⟨rfl, rfl, rfl, rfl, rfl⟩
  | _ => cases h

/-! ## What is done at once -/

/-- Before a callback, and behind its stop, the flags are as the simulation thread finds
them. -/
theorem standing_running (hphase : Phase (Handshake.view t)) (hs : t.simulation = .running)
    (callback : Option (Option WatchLoop)) :
    standing t callback =
      ⟨false, callback.isSome, false, simulation .running callback, t.run_called, true⟩ := by
  have hworker : (Handshake.view t).worker = .running := congrArg Handshake.SimulationPc.worker hs
  obtain ⟨hctrl, hlock, hgo, hstopped⟩ := hphase.of_running hworker
  obtain ⟨-, hpermits, hreads, hwaits, -⟩ := of_controller_waiting hctrl
  replace hlock : t.start_locked = false := hlock
  replace hgo : t.continue_command = false := hgo
  replace hstopped : t.stopped = false := hstopped
  simp [standing, hs, hlock, hgo, hstopped, hpermits, hreads, hwaits, announces, proceeds]

theorem standing_start (hs : t.simulation = .waitForRunCommand)
    (h : Handshake.stepSimulation t = some t') :
    (standing t none).simulation = .held ∧ (standing t none).run_lock = false ∧
      standing t' none = { standing t none with simulation := .running } := by
  simp only [Handshake.stepSimulation, hs] at h
  split at h
  · cases h
  · rename_i hlock
    cases h
    simp [standing, hs, hlock, Handshake.State.simulationAt, announces, proceeds, simulation]

/-- The server has its message: the stop is over. -/
theorem standing_readReply (callback : Option (Option WatchLoop))
    (hphase : Phase (Handshake.view t)) (hs : t.server = .readReply)
    (h : Handshake.stepServer t = some t') :
    (standing t callback).waiting = true ∧ (standing t callback).stopped = true ∧
      standing t' callback = { standing t callback with stopped := false, waiting := false } := by
  have hctrl : (Handshake.view t).controller = .reading := congrArg Handshake.ServerPc.controller hs
  obtain ⟨hworker, hstopped⟩ := hphase.waiting_of_reading hctrl
  have hannounces : announces t.simulation = false :=
    announces_eq_false (by rw [show t.simulation.worker = .waiting from hworker]; decide)
  replace hstopped : t.stopped = false := hstopped
  simp only [Handshake.stepServer, hs] at h
  split at h <;> cases h <;>
    simp [standing, hs, hstopped, hannounces, Handshake.State.serverAt, Handshake.State.allocate,
      releases, permits, reads, waits]

/-- The simulation stops. -/
theorem standing_stop (hphase : Phase (Handshake.view t)) (hs : t.simulation = .running)
    (h : Handshake.stepSimulation t = some t') (loop : Option WatchLoop) :
    standing t' (some loop) = ⟨false, false, true, .paused loop, t.run_called, true⟩ := by
  have hworker : (Handshake.view t).worker = .running := congrArg Handshake.SimulationPc.worker hs
  obtain ⟨hctrl, hlock, hgo, -⟩ := hphase.of_running hworker
  obtain ⟨-, hpermits, -, hwaits, -⟩ := of_controller_waiting hctrl
  replace hlock : t.start_locked = false := hlock
  replace hgo : t.continue_command = false := hgo
  simp only [Handshake.stepSimulation, hs] at h
  cases h
  simp [standing, hlock, hgo, hpermits, hwaits, Handshake.State.allocate, announces, proceeds,
    simulation]

variable {cv : Conversions} {cp : Option CPDebuggerInterface} {s s' : State}

/-- A part of a callback, between two calls of `notifyServer`, is done at once. -/
theorem committed_leave {sh : Shared} {m : Option DebuggerMessage} (h : Coherent s)
    (hs : s.threads.simulation = .running)
    (hsh : Stopping ⟨m, false, false, false, .running⟩ sh.threads)
    (hleave : s.leave sh = some s') : s'.committed = { s.committed with shared := sh } := by
  have hrunning := standing_running h.phase hs
  obtain ⟨dm, message, lock, go, stopped, sim, published⟩ := sh
  rcases leave_cases hs hleave with ⟨hpaused, rfl⟩ | ⟨loop, threads, hloop, hthreads, -, rfl⟩
  · rcases hsh with hsh | ⟨m', loop, hsh⟩
    · cases hsh
      simp only [State.committed, hrunning]
      rfl
    · cases hsh
      exact absurd rfl (hpaused loop)
  · rcases hsh with hsh | ⟨m', loop', hsh⟩
    · cases hsh
      cases hloop
    · cases hsh
      cases hloop
      simp only [State.committed, hrunning, standing_stop h.phase hs hthreads]
      rfl

/-! ## Steps of the session -/

/-- The request or event that a step of the threads begins. -/
def seen : Step → Option (Request ⊕ Event)
  | .request r => some (.inl r)
  | .event e => some (.inr e)
  | _ => none

def shown : Db.Step → Option (Request ⊕ Event)
  | .request r => some (.inl r)
  | .event e => some (.inr e)
  | _ => none

/-- What the simulation thread finds while it runs. -/
theorem shared_running (h : Coherent s) (hs : s.threads.simulation = .running) :
    s.shared = ⟨s.data_manager, s.reply_message, false, false, false,
      simulation .running s.callback, s.published⟩ := by
  have hworker : (Handshake.view s.threads).worker = .running :=
    congrArg Handshake.SimulationPc.worker hs
  obtain ⟨-, hlock, hgo, hstopped⟩ := h.phase.of_running hworker
  replace hlock : s.threads.start_locked = false := hlock
  replace hgo : s.threads.continue_command = false := hgo
  replace hstopped : s.threads.stopped = false := hstopped
  rw [State.shared, hlock, hgo, hstopped, hs]

theorem event_committed {e : Event} {sh : Shared} (h : Coherent s)
    (hs : s.threads.simulation = .running) (hcallback : s.callback = none)
    (hsh : observe cv e s.shared = .ok sh) (hleave : s.leave sh = some s') :
    (session cv cp).step s.committed (.event e) = some s'.committed := by
  have hfound := shared_running h hs
  have hstanding := standing_running h.phase hs s.callback
  rw [hcallback] at hfound hstanding
  have hshared : s.committed.shared = s.shared := by
    rw [hfound, State.committed, hcallback, hstanding]
    rfl
  have hstopping := (observe_outcome hsh).stopping
  rw [hfound] at hstopping
  have hrunning : s.committed.shared.simulation = .running := by
    rw [hshared, hfound]
    rfl
  rw [committed_leave h hs hstopping hleave]
  show (if decide (s.committed.shared.simulation = .running) then _ else none) = _
  rw [hrunning, decide_eq_true rfl, if_pos rfl, exec, hshared, hsh]
  rfl

theorem resume_committed {loop : Option WatchLoop} (h : Coherent s)
    (hs : s.threads.simulation = .running) (hcallback : s.callback = some loop)
    (hleave : s.leave (resume loop s.shared) = some s') :
    (session cv cp).step s.committed .resume = some s'.committed := by
  have hfound := shared_running h hs
  have hstanding := standing_running h.phase hs s.callback
  rw [hcallback] at hfound hstanding
  have hshared : s.committed.shared = { s.shared with continue_command := true } := by
    rw [hfound, State.committed, hcallback, hstanding]
    rfl
  have hresume : resume loop s.committed.shared = resume loop s.shared := by
    rw [hshared]
    rfl
  have hstopping : Stopping ⟨s.reply_message, false, false, false, .running⟩
      (resume loop s.shared).threads := by
    have hthreads : { s.shared.threads with continue_command := false, simulation := .running } =
        (⟨s.reply_message, false, false, false, .running⟩ : Threads) := by
      rw [hfound]
      rfl
    rw [← hthreads]
    exact resume_stopping loop s.shared
  have hpaused : s.committed.shared.simulation = .paused loop := by
    rw [hshared, hfound]
    rfl
  have hgo : s.committed.shared.continue_command = true := by rw [hshared]
  have henabled : enabled s.committed .resume = true := by
    simp only [enabled, hpaused, hgo]
    rfl
  rw [committed_leave h hs hstopping hleave]
  show (if enabled s.committed .resume then _ else none) = _
  rw [if_pos henabled, exec, hpaused]
  simp only [hresume]
  rfl

theorem standing_serving (hphase : Phase (Handshake.view t)) (hs : t.server.controller = .serving)
    (callback : Option (Option WatchLoop)) :
    announces t.simulation = false ∧ proceeds t.simulation callback = false ∧
      t.stopped = false ∧ t.continue_command = false := by
  have hctrl : (Handshake.view t).controller = .serving := hs
  have hworker : t.simulation.worker = .held ∨ t.simulation.worker = .waiting :=
    (hphase.of_serving hctrl).imp And.left And.left
  refine ⟨announces_eq_false ?_, proceeds_eq_false ?_ callback,
    hphase.not_stopped_of_serving hctrl, hphase.not_go_of_serving hctrl⟩
  · rcases hworker with hworker | hworker <;> rw [hworker] <;> decide
  · rcases hworker with hworker | hworker <;> rw [hworker] <;> decide

/-- While the server takes requests, nothing is under way. -/
theorem committed_serving (h : Coherent s) (hs : s.threads.server = .recv) :
    s.unsent = [] ∧ s.committed = s.session := by
  obtain ⟨hannounces, hproceeds, -, -⟩ := standing_serving h.phase
    (congrArg Handshake.ServerPc.controller hs) s.callback
  have hunsent : s.unsent = [] := by
    have hlength := h.unsent
    rw [hs] at hlength
    exact List.length_eq_zero_iff.mp hlength
  refine ⟨hunsent, ?_⟩
  simp only [State.committed, State.session, State.shared, standing, hs, hannounces, hproceeds,
    hunsent, releases, permits, reads, waits, Bool.not_false, Bool.and_true, Bool.or_false,
    List.append_nil]

/-- A request is handled at once. -/
theorem request_committed {r : Request} {u : Session} {k : Handshake.Request}
    {threads : Handshake.State} (h : Coherent s) (hu : parseRequest cv r s.session = .ok u)
    (hk : Handled s.session k u) (hthreads : Handshake.receive k s.threads = some threads) :
    (session cv cp).step s.committed (.request r) = some (State.committed
      { s with
        threads, unsent := u.sent.drop s.sent.length
        data_manager := u.data_manager, control_plane := u.control_plane }) := by
  obtain ⟨hs, hthreads⟩ := Option.ite_none_right_eq_some.mp hthreads
  obtain ⟨hunsent, hsession⟩ := committed_serving h hs
  obtain ⟨hannounces, hproceeds, hstopped, hgo⟩ := standing_serving h.phase
    (congrArg Handshake.ServerPc.controller hs) s.callback
  rw [hsession]
  show (if true then (parseRequest cv r s.session).toOption else none) = _
  rw [if_pos rfl, hu, Except.toOption, Option.some_inj]
  cases hk with
  | run dm hcalled =>
    replace hcalled : s.threads.run_called = false := hcalled
    simp only [hcalled, if_true] at hthreads
    cases hthreads
    simp [State.committed, State.session, State.shared, standing, hannounces, hproceeds, releases,
      permits, reads, waits]
  | refused m hcalled =>
    replace hcalled : s.threads.run_called = true := hcalled
    simp only [hcalled, Bool.true_eq_false, if_false] at hthreads
    cases hthreads
    simp [State.committed, State.session, State.shared, standing, hannounces, hproceeds, releases,
      permits, reads, waits, Session.send, Handshake.State.serverAt]
  | permitted k hk dm =>
    rcases hk with rfl | rfl
    all_goals
      cases hthreads
      simp [State.committed, State.session, State.shared, standing, hannounces, hproceeds,
        releases, permits, reads, waits, Handshake.State.serverAt]
  | answered dm cp ms =>
    cases hthreads
    simp [State.committed, State.session, State.shared, standing, hannounces, hproceeds, releases,
      permits, reads, waits, Session.manage, Handshake.State.serverAt]

theorem start_committed {threads : Handshake.State} (h : Coherent s)
    (hs : s.threads.simulation = .waitForRunCommand)
    (hthreads : Handshake.stepSimulation s.threads = some threads) :
    (session cv cp).step s.committed .start = some (State.committed { s with threads }) := by
  have hcallback : s.callback = none := by
    have h := h.callback
    rwa [hs] at h
  obtain ⟨hheld, hlock, hstart⟩ := standing_start hs hthreads
  have henabled : enabled s.committed .start = true := by
    simp only [enabled, State.committed, hcallback, hheld, hlock, and_self, decide_true]
  show (if enabled s.committed .start then _ else none) = _
  rw [if_pos henabled]
  simp only [exec, Except.toOption, State.committed, hcallback, hstart]
  rfl

theorem reply_committed {threads : Handshake.State} (h : Coherent s)
    (hs : s.threads.server = .readReply)
    (hthreads : Handshake.stepServer s.threads = some threads) :
    (session cv cp).step s.committed .reply = some (State.committed
      { s with threads, unsent := [s.reply_message.getD (.GenericAcknowledge .SUCCESS)] }) := by
  have hunsent : s.unsent = [] := by
    have hlength := h.unsent
    rw [hs] at hlength
    exact List.length_eq_zero_iff.mp hlength
  obtain ⟨hwaiting, hstopped, hread⟩ := standing_readReply s.callback h.phase hs
    hthreads
  have henabled : enabled s.committed .reply = true := by
    simp only [enabled, State.committed, hwaiting, hstopped, and_self, decide_true]
  show (if enabled s.committed .reply then _ else none) = _
  rw [if_pos henabled]
  simp only [exec, Except.toOption, State.committed, hread, hunsent, List.append_nil,
    Session.replyStop, Session.send]
  rfl

/-- What does not change the flags, the data and the messages is done already. -/
theorem committed_of_standing {threads : Handshake.State} (s : State)
    (h : standing threads s.callback = standing s.threads s.callback) :
    State.committed { s with threads } = s.committed := by
  simp only [State.committed, h]
  rfl

/-- **Simulation.** A step of the threads is a step of the session, or none. -/
theorem step_committed {x : Step} (h : Coherent s) (hstep : step cv s x = some s') :
    ∃ xs, (session cv cp).replay s.committed xs = some s'.committed ∧
      xs.filterMap shown = (seen x).toList := by
  have hone : ∀ {y}, (session cv cp).step s.committed y = some s'.committed →
      (shown y).toList = (seen x).toList →
      ∃ xs, (session cv cp).replay s.committed xs = some s'.committed ∧
        xs.filterMap shown = (seen x).toList := by
    intro y hy hshown
    refine ⟨[y], by rw [System.replay, hy]; rfl, ?_⟩
    rw [← hshown, List.filterMap_cons]
    cases shown y <;> rfl
  have hnone : s'.committed = s.committed → seen x = none →
      ∃ xs, (session cv cp).replay s.committed xs = some s'.committed ∧
        xs.filterMap shown = (seen x).toList := by
    intro heq hseen
    rw [heq, hseen]
    exact ⟨[], rfl, rfl⟩
  cases step_transition hstep with
  | event hs hcallback hsh hleave => exact hone (event_committed h hs hcallback hsh hleave) rfl
  | resume hs hcallback hleave => exact hone (resume_committed h hs hcallback hleave) rfl
  | @simulation threads hs hthreads =>
    by_cases hheld : s.threads.simulation = .waitForRunCommand
    · exact hone (start_committed h hheld hthreads) rfl
    · exact hnone (committed_of_standing s
        (standing_stepSimulation h.phase h.callback hheld hs hthreads)) rfl
  | readReply hs hthreads => exact hone (reply_committed h hs hthreads) rfl
  | @send m n threads hs hthreads =>
    have hstanding := standing_stepServer s.callback h.phase (by simp [hs]) hthreads
    refine hnone ?_ rfl
    simp only [State.committed, State.shared, hstanding, List.append_assoc, List.take_append_drop]
  | server hread hsend hthreads =>
    exact hnone (committed_of_standing s
      (standing_stepServer s.callback h.phase hread hthreads)) rfl
  | request ht hk hthreads => exact hone (request_committed h ht hk hthreads) rfl
  | wakeSimulation => exact hnone (committed_of_standing s (standing_wakeSimulation _ _)) rfl
  | wakeServer => exact hnone (committed_of_standing s (standing_wakeServer _ _)) rfl

theorem init_coherent (cp : Option CPDebuggerInterface) :
    Coherent { control_plane := cp } :=
  ⟨.held none, rfl, rfl⟩

/-- **Atomicity.** Whatever the order of the steps of the two threads is, the debugger takes
the same requests and events as in a session, whose state is that of the threads with the
steps under way done. While the server takes requests, none is. -/
theorem atomic (cv : Conversions) (cp : Option CPDebuggerInterface) {es : List Step} {t : State}
    (h : (concurrent cv cp).replay (concurrent cv cp).init es = some t) :
    ∃ xs, (session cv cp).replay (session cv cp).init xs = some t.committed ∧
      xs.filterMap shown = es.filterMap seen ∧
      (t.threads.server = .recv → t.unsent = [] ∧ t.committed = t.session) := by
  have hmatch : ∀ s c x s', Coherent s ∧ c = s.committed → (concurrent cv cp).step s x = some s' →
      ∃ xs c', (session cv cp).replay c xs = some c' ∧ (Coherent s' ∧ c' = s'.committed) ∧
        xs.filterMap shown = (seen x).toList := by
    rintro s c x s' ⟨hcoherent, rfl⟩ hstep
    obtain ⟨xs, hxs, hseen⟩ := step_committed hcoherent hstep
    exact ⟨xs, _, hxs, ⟨step_coherent hcoherent hstep, rfl⟩, hseen⟩
  obtain ⟨xs, c, hxs, ⟨hcoherent, rfl⟩, hseen⟩ := System.matched_of_replay _ seen shown hmatch
    ⟨init_coherent cp, rfl⟩ h
  exact ⟨xs, hxs, hseen, fun hs => committed_serving hcoherent hs⟩

/-- The server begins to wait in `waitForStop` while the simulation starts, wakes up
spuriously, and sleeps again when the simulation has come to its end. -/
def firstRun : List Step :=
  [.request (.Run none), .server, .simulation, .server, .server, .server, .wakeServer,
    .event .simulation_end, .server, .server, .server] ++
    List.replicate 4 .simulation ++ List.replicate 7 .server

theorem atomic_firstRun : ∃ t,
    (concurrent decimal none).replay (concurrent decimal none).init firstRun = some t ∧
    t.sent = [.SimulationEnd] ∧
    ∃ xs, (session decimal none).replay (session decimal none).init xs = some t.session ∧
      xs.filterMap shown = [.inl (.Run none), .inr .simulation_end] := by
  have hrun : ((concurrent decimal none).replay (concurrent decimal none).init firstRun).map
      (fun t => (t.threads.server, t.sent)) = some (.recv, [.SimulationEnd]) := by
    rfl
  obtain ⟨t, ht, hend⟩ := Option.map_eq_some_iff.mp hrun
  obtain ⟨hserver, hsent⟩ := Prod.mk.inj hend
  obtain ⟨xs, hxs, hshown, hserving⟩ := atomic decimal none ht
  rw [(hserving hserver).2] at hxs
  exact ⟨t, ht, hsent, xs, hxs, hshown⟩

end Pfp.Db.Concurrent
