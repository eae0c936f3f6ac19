import PFPSim.Debugger.Delivery

/-!
# Mutual waiting

When both threads wait for each other. The rendezvous leaves one such situation: a request
to continue in front of the first run leaves the run lock locked (`deadlocked_iff`). In a
run without such requests the threads never wait for each other, and unless the server
waits for a request, one of them can take a step without a spurious wake-up: the mutexes
are held by the threads that are in their sections (`Locks`), and no wake-up is lost
(`Wakes`).
-/

namespace Pfp.Db.Handshake

open Runs Runs.Rendezvous

variable {s s' t : State} {x : Step}

/-! ## Mutual waiting -/

/-- The server is in `waitForStop`, and has not seen a stop. -/
def ServerPc.InWaitForStop : ServerPc → Prop
  | .lockStop => True
  | .getStopped => True
  | .waitStop => True
  | .asleep => True
  | .relockStop => True
  | _ => False

/-- The simulation is in `pause`, and has not seen a command to continue. -/
def SimulationPc.InPause : SimulationPc → Prop
  | .lockBkpt => True
  | .getContinueCommand => True
  | .waitBkpt => True
  | .asleep => True
  | .relockBkpt => True
  | _ => False

/-- The server waits for a stop, and the simulation for the server. -/
def Deadlocked (s : State) : Prop :=
  s.server.InWaitForStop ∧ s.stopped = false ∧
    (NotStarted s ∨ s.simulation.InPause ∧ s.continue_command = false)

theorem ServerPc.InWaitForStop.controller {pc : ServerPc} (h : pc.InWaitForStop) :
    pc.controller = .waiting := by
  cases pc <;> first | rfl | exact h.elim

theorem SimulationPc.InPause.worker {pc : SimulationPc} (h : pc.InPause) :
    pc.worker = .waiting := by
  cases pc <;> first | rfl | exact h.elim

/-- **Mutual waiting.** The threads wait for each other exactly when the server waits for a
stop without a run. -/
theorem deadlocked_iff {P : State → Step → Prop} (h : handshake.Reaches P s) :
    Deadlocked s ↔ s.server.InWaitForStop ∧ s.run_called = false := by
  have hp := reaches_phase h
  constructor
  · rintro ⟨hserver, hstopped, hsim⟩
    refine ⟨hserver, hp.of_waiting hserver.controller hstopped ?_⟩
    apply hsim.imp (fun ⟨hpc, hlock⟩ => ⟨congrArg SimulationPc.worker hpc, hlock⟩)
    exact fun ⟨hpause, hgo⟩ => ⟨hpause.worker, hgo⟩
  · rintro ⟨hserver, hrun⟩
    obtain ⟨hstopped, hworker, hlock⟩ := hp.of_not_started hserver.controller hrun
    exact ⟨hserver, hstopped, .inl ⟨held_iff.mp hworker, hlock⟩⟩

/-- The condition on a step: no request to continue in front of the first run. -/
def AfterRun (s : State) : Step → Prop
  | .request .Continue => s.run_called = true
  | .request .Next => s.run_called = true
  | _ => True

instance (s : State) : (x : Step) → Decidable (AfterRun s x)
  | .request .Continue => inferInstanceAs (Decidable (s.run_called = true))
  | .request .Next => inferInstanceAs (Decidable (s.run_called = true))
  | .request .Run => .isTrue trivial
  | .request (.other _) => .isTrue trivial
  | .simulation => .isTrue trivial
  | .server => .isTrue trivial
  | .wakeSimulation => .isTrue trivial
  | .wakeServer => .isTrue trivial

/-- The server answers requests by itself. -/
def ServerPc.Answering : ServerPc → Prop
  | .recv => True
  | .answer _ => True
  | .send _ left => left ≠ none
  | .delete _ left => left ≠ none
  | _ => False

theorem stepSimulation_frame (h : stepSimulation s = some s') :
    s'.run_called = s.run_called ∧ (s'.server = s.server ∨ s.server = .asleep) := by
  cases hpc : s.simulation <;> simp only [stepSimulation, hpc] at h
  case waitForRunCommand =>
    split at h
    · cases h
    · cases h
      exact ⟨rfl, .inl rfl⟩
  case lockStop =>
    obtain ⟨t, ht, rfl⟩ := Option.map_eq_some_iff.mp h
    obtain ⟨-, rfl⟩ := lockStop_eq_some.mp ht
    exact ⟨rfl, .inl rfl⟩
  case lockBkpt | relockBkpt =>
    obtain ⟨t, ht, rfl⟩ := Option.map_eq_some_iff.mp h
    obtain ⟨-, rfl⟩ := lockBkpt_eq_some.mp ht
    exact ⟨rfl, .inl rfl⟩
  case notifyStop =>
    cases h
    unfold State.wakeServer
    split
    · exact ⟨rfl, .inr ‹_›⟩
    · exact ⟨rfl, .inl rfl⟩
  case asleep => cases h
  all_goals
    cases h
    exact ⟨rfl, .inl rfl⟩

theorem stepServer_run_called (h : stepServer s = some s') : s'.run_called = s.run_called := by
  cases hpc : s.server <;> simp only [stepServer, hpc] at h
  case recv | asleep => cases h
  case answer left => cases left <;> cases h <;> rfl
  case lockBkpt =>
    obtain ⟨t, ht, rfl⟩ := Option.map_eq_some_iff.mp h
    obtain ⟨-, rfl⟩ := lockBkpt_eq_some.mp ht
    rfl
  case lockStop | relockStop =>
    obtain ⟨t, ht, rfl⟩ := Option.map_eq_some_iff.mp h
    obtain ⟨-, rfl⟩ := lockStop_eq_some.mp ht
    rfl
  case notifyBkpt =>
    cases h
    unfold State.wakeSimulation
    split <;> rfl
  case readReply => split at h <;> cases h <;> rfl
  all_goals
    cases h
    rfl

theorem stepServer_answering (h : stepServer s = some s')
    (hs : s.run_called = true ∨ s.server.Answering) :
    s'.run_called = true ∨ s'.server.Answering := by
  have hrun := stepServer_run_called h
  rw [hrun]
  apply hs.imp_right
  intro ha
  cases hpc : s.server <;> rw [hpc] at ha <;> simp only [stepServer, hpc] at h
  case recv => cases h
  case answer left =>
    cases left <;> cases h
    · trivial
    · exact fun hnone => by cases hnone
  case send m left =>
    cases h
    exact ha
  case delete m left =>
    cases left with
    | none => exact absurd rfl ha
    | some left =>
      cases h
      trivial
  all_goals exact ha.elim

theorem receive_answering {r : Request} (hx : AfterRun s (.request r))
    (h : receive r s = some s') : s'.run_called = true ∨ s'.server.Answering := by
  unfold receive at h
  rw [Option.ite_none_right_eq_some] at h
  obtain ⟨-, h⟩ := h
  cases r with
  | Run =>
    simp only at h
    split at h <;> cases h
    · exact .inl rfl
    · exact .inr trivial
  | Continue =>
    cases h
    exact .inl hx
  | Next =>
    cases h
    exact .inl hx
  | other answers =>
    cases h
    exact .inr trivial

/-- Before the first run the server answers by itself. -/
theorem step_answering (hx : AfterRun s x) (h : step s x = some s')
    (hs : s.run_called = true ∨ s.server.Answering) :
    s'.run_called = true ∨ s'.server.Answering := by
  cases x with
  | simulation =>
    obtain ⟨hrun, hserver⟩ := stepSimulation_frame h
    rw [hrun]
    apply hs.imp_right
    intro ha
    rcases hserver with heq | hpc
    · rw [heq]
      exact ha
    · rw [hpc] at ha
      exact ha.elim
  | server => exact stepServer_answering h hs
  | request r => exact receive_answering hx h
  | wakeSimulation =>
    cases h
    unfold State.wakeSimulation
    split <;> exact hs
  | wakeServer =>
    cases h
    unfold State.wakeServer
    split
    · rename_i hpc
      rw [hpc] at hs
      exact .inl (hs.resolve_right id)
    · exact hs

theorem reaches_answering (h : handshake.Reaches AfterRun s) :
    s.run_called = true ∨ s.server.Answering :=
  System.Reaches.invariant (I := fun s => s.run_called = true ∨ s.server.Answering)
    (.inr trivial) (fun _ _ _ _ hs hx hstep => step_answering hx hstep hs) h

/-! ## Mutexes -/

/-- The owner of a mutex is the thread that is in its section. -/
structure Guarded (owner : Option Thread) (simulation server : Bool) : Prop where
  simulation : owner = some .simulation ↔ simulation = true
  server : owner = some .server ↔ server = true

namespace Guarded

variable {owner : Option Thread} {a b : Bool}

theorem lock_simulation (h : Guarded none a b) : Guarded (some .simulation) true b := by
  refine ⟨iff_of_true rfl rfl, ?_⟩
  rw [← h.server]
  simp

theorem lock_server (h : Guarded none a b) : Guarded (some .server) a true := by
  refine ⟨?_, iff_of_true rfl rfl⟩
  rw [← h.simulation]
  simp

theorem unlock_simulation (h : Guarded owner true b) : Guarded none false b := by
  have howner := h.simulation.mpr rfl
  refine ⟨by simp, ?_⟩
  rw [← h.server, howner]
  simp

theorem unlock_server (h : Guarded owner a true) : Guarded none a false := by
  have howner := h.server.mpr rfl
  refine ⟨?_, by simp⟩
  rw [← h.simulation, howner]
  simp

/-- A mutex that the server does not hold is free or held by the simulation. -/
theorem free_or_simulation (h : Guarded owner a false) : owner = none ∨ a = true := by
  cases howner : owner with
  | none => exact .inl rfl
  | some th =>
    cases th with
    | simulation => exact .inr (h.simulation.mp howner)
    | server => cases h.server.mp howner

/-- Two threads are never in the section of a mutex. -/
theorem exclusive (h : Guarded owner true true) : False := by
  have howner := h.simulation.mpr rfl
  rw [h.server.mpr rfl] at howner
  cases howner

end Guarded

/-- Between `lock` and `unlock` or `wait` on `stop_mutex`. -/
def SimulationPc.holdsStop : SimulationPc → Bool
  | .setStopped => true
  | .unlockStop => true
  | _ => false

def SimulationPc.holdsBkpt : SimulationPc → Bool
  | .getContinueCommand => true
  | .waitBkpt => true
  | .setContinueCommand => true
  | .unlockBkpt => true
  | _ => false

def ServerPc.holdsStop : ServerPc → Bool
  | .getStopped => true
  | .waitStop => true
  | .clearStopped => true
  | .unlockStop => true
  | _ => false

def ServerPc.holdsBkpt : ServerPc → Bool
  | .setContinueCommand => true
  | .unlockBkpt => true
  | _ => false

structure Locks (s : State) : Prop where
  stop : Guarded s.stop_mutex s.simulation.holdsStop s.server.holdsStop
  bkpt : Guarded s.bkpt_mutex s.simulation.holdsBkpt s.server.holdsBkpt

namespace Locks

theorem wakeServer (h : Locks s) : Locks s.wakeServer := by
  unfold State.wakeServer
  split
  · rename_i hpc
    have hstop := h.stop
    have hbkpt := h.bkpt
    rw [hpc] at hstop hbkpt
    exact ⟨hstop, hbkpt⟩
  · exact h

theorem wakeSimulation (h : Locks s) : Locks s.wakeSimulation := by
  unfold State.wakeSimulation
  split
  · rename_i hpc
    have hstop := h.stop
    have hbkpt := h.bkpt
    rw [hpc] at hstop hbkpt
    exact ⟨hstop, hbkpt⟩
  · exact h

theorem stepSimulation (hs : Locks s) (h : stepSimulation s = some s') : Locks s' := by
  have hstop := hs.stop
  have hbkpt := hs.bkpt
  cases hpc : s.simulation <;> rw [hpc] at hstop hbkpt <;>
    simp only [Handshake.stepSimulation, hpc] at h
  case waitForRunCommand =>
    split at h
    · cases h
    · cases h
      exact ⟨hstop, hbkpt⟩
  case lockStop =>
    obtain ⟨t, ht, rfl⟩ := Option.map_eq_some_iff.mp h
    obtain ⟨hfree, rfl⟩ := lockStop_eq_some.mp ht
    rw [hfree] at hstop
    exact ⟨hstop.lock_simulation, hbkpt⟩
  case unlockStop =>
    cases h
    exact ⟨hstop.unlock_simulation, hbkpt⟩
  case notifyStop =>
    cases h
    have hwake := hs.wakeServer
    have hsim : s.wakeServer.simulation = .notifyStop := by
      unfold State.wakeServer
      split <;> exact hpc
    have hstop := hwake.stop
    have hbkpt := hwake.bkpt
    rw [hsim] at hstop hbkpt
    exact ⟨hstop, hbkpt⟩
  case lockBkpt | relockBkpt =>
    obtain ⟨t, ht, rfl⟩ := Option.map_eq_some_iff.mp h
    obtain ⟨hfree, rfl⟩ := lockBkpt_eq_some.mp ht
    rw [hfree] at hbkpt
    exact ⟨hstop, hbkpt.lock_simulation⟩
  case getContinueCommand =>
    cases h
    split <;> exact ⟨hstop, hbkpt⟩
  case waitBkpt | unlockBkpt =>
    cases h
    exact ⟨hstop, hbkpt.unlock_simulation⟩
  case asleep => cases h
  case running | setStopped | setContinueCommand =>
    cases h
    exact ⟨hstop, hbkpt⟩

theorem stepServer (hs : Locks s) (h : stepServer s = some s') : Locks s' := by
  have hstop := hs.stop
  have hbkpt := hs.bkpt
  cases hpc : s.server <;> rw [hpc] at hstop hbkpt <;>
    simp only [Handshake.stepServer, hpc] at h
  case recv | asleep => cases h
  case answer left =>
    cases left <;> cases h <;> exact ⟨hstop, hbkpt⟩
  case lockBkpt =>
    obtain ⟨t, ht, rfl⟩ := Option.map_eq_some_iff.mp h
    obtain ⟨hfree, rfl⟩ := lockBkpt_eq_some.mp ht
    rw [hfree] at hbkpt
    exact ⟨hstop, hbkpt.lock_server⟩
  case unlockBkpt =>
    cases h
    exact ⟨hstop, hbkpt.unlock_server⟩
  case notifyBkpt =>
    cases h
    have hwake := hs.wakeSimulation
    have hserver : s.wakeSimulation.server = .notifyBkpt := by
      unfold State.wakeSimulation
      split <;> exact hpc
    have hstop := hwake.stop
    have hbkpt := hwake.bkpt
    rw [hserver] at hstop hbkpt
    exact ⟨hstop, hbkpt⟩
  case lockStop | relockStop =>
    obtain ⟨t, ht, rfl⟩ := Option.map_eq_some_iff.mp h
    obtain ⟨hfree, rfl⟩ := lockStop_eq_some.mp ht
    rw [hfree] at hstop
    exact ⟨hstop.lock_server, hbkpt⟩
  case getStopped =>
    cases h
    split <;> exact ⟨hstop, hbkpt⟩
  case waitStop | unlockStop =>
    cases h
    exact ⟨hstop.unlock_server, hbkpt⟩
  case readReply =>
    split at h <;> cases h <;> exact ⟨hstop, hbkpt⟩
  case delete m left =>
    cases left <;> cases h <;> exact ⟨hstop, hbkpt⟩
  case unlockStart | setContinueCommand | clearStopped | send m left =>
    cases h
    exact ⟨hstop, hbkpt⟩

theorem receive {r : Request} (hs : Locks s) (h : receive r s = some s') : Locks s' := by
  have hstop := hs.stop
  have hbkpt := hs.bkpt
  unfold Handshake.receive at h
  rw [Option.ite_none_right_eq_some] at h
  obtain ⟨hpc, h⟩ := h
  rw [hpc] at hstop hbkpt
  cases r with
  | Run =>
    simp only at h
    split at h <;> cases h <;> exact ⟨hstop, hbkpt⟩
  | Continue =>
    cases h
    exact ⟨hstop, hbkpt⟩
  | Next =>
    cases h
    exact ⟨hstop, hbkpt⟩
  | other answers =>
    cases h
    exact ⟨hstop, hbkpt⟩

theorem step (hs : Locks s) (h : step s x = some s') : Locks s' := by
  cases x with
  | simulation => exact hs.stepSimulation h
  | server => exact hs.stepServer h
  | request r => exact hs.receive h
  | wakeSimulation =>
    cases h
    exact hs.wakeSimulation
  | wakeServer =>
    cases h
    exact hs.wakeServer

theorem init : Locks {} := by
  have hfree : Guarded none false false := ⟨by simp, by simp⟩
  exact ⟨hfree, hfree⟩

end Locks

theorem reaches_locks {P : State → Step → Prop} (h : handshake.Reaches P s) : Locks s :=
  System.Reaches.invariant (I := Locks) Locks.init (fun _ _ _ _ hs _ hstep => hs.step hstep) h

/-! ## Wake-ups -/

/-- A thread that sleeps will be notified when it has nothing to wait for. -/
structure Wakes (s : State) : Prop where
  server_waits : s.server = .waitStop → s.stopped = false
  server_sleeps : s.server = .asleep → s.stopped = true →
    s.simulation = .unlockStop ∨ s.simulation = .notifyStop
  simulation_waits : s.simulation = .waitBkpt → s.continue_command = false
  simulation_sleeps : s.simulation = .asleep → s.continue_command = true →
    s.server = .unlockBkpt ∨ s.server = .notifyBkpt

namespace Wakes

theorem wakeServer (hs : Wakes s) : Wakes s.wakeServer := by
  unfold State.wakeServer
  split
  · obtain ⟨hserver, hsleep, hwait, hasleep⟩ := hs
    constructor <;> grind
  · exact hs

theorem wakeSimulation (hs : Wakes s) : Wakes s.wakeSimulation := by
  unfold State.wakeSimulation
  split
  · obtain ⟨hserver, hsleep, hwait, hasleep⟩ := hs
    constructor <;> grind
  · exact hs

theorem stepSimulation (hl : Locks s) (hs : Wakes s) (h : stepSimulation s = some s') :
    Wakes s' := by
  have hstop := hl.stop
  obtain ⟨hserver, hsleep, hwait, hasleep⟩ := hs
  cases hpc : s.simulation <;> rw [hpc] at hstop hsleep hwait hasleep <;>
    simp only [Handshake.stepSimulation, hpc] at h
  case waitForRunCommand =>
    split at h
    · cases h
    · cases h
      constructor <;> grind [State.simulationAt]
  case lockStop =>
    obtain ⟨t, ht, rfl⟩ := Option.map_eq_some_iff.mp h
    obtain ⟨-, rfl⟩ := lockStop_eq_some.mp ht
    constructor <;> grind [State.simulationAt]
  case setStopped =>
    cases h
    -- the server is not about to wait, since it would hold the mutex
    refine ⟨fun hw => ?_, fun _ _ => .inl rfl, fun hw => ?_, fun hw => ?_⟩
    · replace hw : s.server = .waitStop := hw
      rw [hw] at hstop
      exact hstop.exclusive.elim
    · cases hw
    · cases hw
  case notifyStop =>
    cases h
    constructor <;> grind [State.simulationAt, State.wakeServer]
  case lockBkpt | relockBkpt =>
    obtain ⟨t, ht, rfl⟩ := Option.map_eq_some_iff.mp h
    obtain ⟨-, rfl⟩ := lockBkpt_eq_some.mp ht
    constructor <;> grind [State.simulationAt]
  case asleep => cases h
  all_goals
    cases h
    constructor <;>
      grind [State.simulationAt, State.unlockStop, State.unlockBkpt, State.allocate]

theorem stepServer (hl : Locks s) (hs : Wakes s) (h : stepServer s = some s') : Wakes s' := by
  have hbkpt := hl.bkpt
  obtain ⟨hserver, hsleep, hwait, hasleep⟩ := hs
  cases hpc : s.server <;> rw [hpc] at hbkpt hserver hsleep hasleep <;>
    simp only [Handshake.stepServer, hpc] at h
  case recv | asleep => cases h
  case answer left =>
    cases left <;> cases h <;> constructor <;> grind [State.serverAt, State.allocate]
  case lockBkpt =>
    obtain ⟨t, ht, rfl⟩ := Option.map_eq_some_iff.mp h
    obtain ⟨-, rfl⟩ := lockBkpt_eq_some.mp ht
    constructor <;> grind [State.serverAt]
  case setContinueCommand =>
    cases h
    -- the simulation is not about to wait, since it would hold the mutex
    refine ⟨fun hw => ?_, fun hw => ?_, fun hw => ?_, fun _ _ => .inl rfl⟩
    · cases hw
    · cases hw
    · replace hw : s.simulation = .waitBkpt := hw
      rw [hw] at hbkpt
      exact hbkpt.exclusive.elim
  case notifyBkpt =>
    cases h
    constructor <;> grind [State.serverAt, State.wakeSimulation]
  case lockStop | relockStop =>
    obtain ⟨t, ht, rfl⟩ := Option.map_eq_some_iff.mp h
    obtain ⟨-, rfl⟩ := lockStop_eq_some.mp ht
    constructor <;> grind [State.serverAt]
  case readReply =>
    split at h <;> cases h <;> constructor <;> grind [State.serverAt, State.allocate]
  case delete m left =>
    cases left <;> cases h <;> constructor <;> grind
  all_goals
    cases h
    constructor <;> grind [State.serverAt, State.unlockStop, State.unlockBkpt]

theorem receive {r : Request} (hs : Wakes s) (h : receive r s = some s') : Wakes s' := by
  obtain ⟨hserver, hsleep, hwait, hasleep⟩ := hs
  unfold Handshake.receive at h
  rw [Option.ite_none_right_eq_some] at h
  obtain ⟨hpc, h⟩ := h
  rw [hpc] at hserver hsleep hasleep
  cases r with
  | Run =>
    simp only at h
    split at h <;> cases h <;> constructor <;> grind [State.serverAt]
  | Continue =>
    cases h
    constructor <;> grind [State.serverAt]
  | Next =>
    cases h
    constructor <;> grind [State.serverAt]
  | other answers =>
    cases h
    constructor <;> grind [State.serverAt]

theorem step (hl : Locks s) (hs : Wakes s) (h : step s x = some s') : Wakes s' := by
  cases x with
  | simulation => exact hs.stepSimulation hl h
  | server => exact hs.stepServer hl h
  | request r => exact hs.receive h
  | wakeSimulation =>
    cases h
    exact hs.wakeSimulation
  | wakeServer =>
    cases h
    exact hs.wakeServer

theorem init : Wakes {} where
  server_waits h := by cases h
  server_sleeps h := by cases h
  simulation_waits h := by cases h
  simulation_sleeps h := by cases h

end Wakes

theorem reaches_wakes {P : State → Step → Prop} (h : handshake.Reaches P s) : Wakes s :=
  System.Reaches.invariant (I := Wakes) Wakes.init
    (fun _ _ _ hreach hs _ hstep => hs.step (reaches_locks hreach) hstep) h

/-! ## Progress -/

/-- The server waits for a request, or one of the threads can take a step. -/
def Progress (s : State) : Prop :=
  s.server = .recv ∨ (stepSimulation s).isSome ∨ (stepServer s).isSome

/-- In the sections of the mutexes the simulation waits for nothing. -/
theorem stepSimulation_of_holds
    (h : s.simulation.holdsStop = true ∨ s.simulation.holdsBkpt = true) :
    (stepSimulation s).isSome := by
  cases hpc : s.simulation <;> rw [hpc] at h <;> simp only [stepSimulation, hpc]
  case setStopped | unlockStop | getContinueCommand | waitBkpt | setContinueCommand
      | unlockBkpt => rfl
  all_goals rcases h with h | h <;> cases h

theorem stop_mutex_free (hl : Locks s) (hserver : s.server.holdsStop = false) :
    s.stop_mutex = none ∨ (stepSimulation s).isSome := by
  have hstop := hl.stop
  rw [hserver] at hstop
  exact hstop.free_or_simulation.imp_right fun h => stepSimulation_of_holds (.inl h)

theorem bkpt_mutex_free (hl : Locks s) (hserver : s.server.holdsBkpt = false) :
    s.bkpt_mutex = none ∨ (stepSimulation s).isSome := by
  have hbkpt := hl.bkpt
  rw [hserver] at hbkpt
  exact hbkpt.free_or_simulation.imp_right fun h => stepSimulation_of_holds (.inr h)

/-- While the server sleeps, the simulation can take a step. -/
theorem stepSimulation_of_asleep (hl : Locks s) (hw : Wakes s) (hno : ¬ Deadlocked s)
    (hpc : s.server = .asleep) : (stepSimulation s).isSome := by
  have hstop : s.stop_mutex = none ∨ (stepSimulation s).isSome :=
    stop_mutex_free hl (by rw [hpc]; rfl)
  have hbkpt : s.bkpt_mutex = none ∨ (stepSimulation s).isSome :=
    bkpt_mutex_free hl (by rw [hpc]; rfl)
  have hserver : s.server.InWaitForStop := by
    rw [hpc]
    trivial
  have hstopped : s.simulation ≠ .unlockStop → s.simulation ≠ .notifyStop → s.stopped = false := by
    intro hne hne'
    by_contra htrue
    exact (hw.server_sleeps hpc (by simpa using htrue)).elim hne hne'
  cases hsim : s.simulation
  case waitForRunCommand =>
    by_cases hlock : s.start_locked = true
    · exact absurd ⟨hserver, hstopped (by simp [hsim]) (by simp [hsim]), .inl ⟨hsim, hlock⟩⟩ hno
    · simp [stepSimulation, hsim, hlock]
  case lockStop =>
    rcases hstop with hfree | hsome
    · simp [stepSimulation, hsim, State.lockStop, hfree]
    · exact hsome
  case lockBkpt | relockBkpt =>
    rcases hbkpt with hfree | hsome
    · simp [stepSimulation, hsim, State.lockBkpt, hfree]
    · exact hsome
  case asleep =>
    by_cases hgo : s.continue_command = true
    · rcases hw.simulation_sleeps hsim hgo with h | h <;> rw [hpc] at h <;> cases h
    · refine absurd ⟨hserver, hstopped (by simp [hsim]) (by simp [hsim]), .inr ⟨?_, ?_⟩⟩ hno
      · rw [hsim]
        trivial
      · simpa using hgo
  all_goals simp [stepSimulation, hsim]

/-- Threads that do not wait for each other make progress. -/
theorem progress_of_not_deadlocked (hl : Locks s) (hw : Wakes s) (hno : ¬ Deadlocked s) :
    Progress s := by
  cases hpc : s.server
  case recv => exact .inl hpc
  case asleep => exact .inr (.inl (stepSimulation_of_asleep hl hw hno hpc))
  case lockBkpt =>
    rcases bkpt_mutex_free hl (by rw [hpc]; rfl) with hfree | hsim
    · refine .inr (.inr ?_)
      simp [stepServer, hpc, State.lockBkpt, hfree]
    · exact .inr (.inl hsim)
  case lockStop | relockStop =>
    rcases stop_mutex_free hl (by rw [hpc]; rfl) with hfree | hsim
    · refine .inr (.inr ?_)
      simp [stepServer, hpc, State.lockStop, hfree]
    · exact .inr (.inl hsim)
  case answer left =>
    refine .inr (.inr ?_)
    cases left <;> simp [stepServer, hpc]
  case readReply =>
    refine .inr (.inr ?_)
    cases hm : s.reply_message <;> simp [stepServer, hpc, hm]
  all_goals
    refine .inr (.inr ?_)
    simp [stepServer, hpc]

/-- **No mutual waiting.** In a run without a request to continue in front of the first run,
the threads never wait for each other, and always make progress. -/
theorem not_deadlocked (h : handshake.Reaches AfterRun s) : ¬ Deadlocked s ∧ Progress s := by
  have hno : ¬ Deadlocked s := by
    intro hdead
    obtain ⟨hserver, hrun⟩ := (deadlocked_iff h).mp hdead
    rcases reaches_answering h with hrun' | hanswer
    · rw [hrun] at hrun'
      cases hrun'
    · cases hpc : s.server <;> rw [hpc] at hserver hanswer <;>
        first | exact hserver | exact hanswer
  exact ⟨hno, progress_of_not_deadlocked (reaches_locks h) (reaches_wakes h) hno⟩

/-- A request to continue in front of the first run, and the server to its wait. -/
def earlyContinue : List Step :=
  .request .Continue :: List.replicate 7 .server

/-- The threads wait for each other, and neither can take a step. -/
theorem deadlocked_earlyContinue : ∃ s, handshake.Reachable s ∧ Deadlocked s ∧
    handshake.step s .simulation = none ∧ handshake.step s .server = none ∧
    ∀ r, handshake.step s (.request r) = none := by
  have hrun : (handshake.replay handshake.init earlyContinue).map (fun s =>
      (s.server, s.simulation, s.start_locked, s.stopped)) =
      some (.asleep, .waitForRunCommand, true, false) := by
    decide
  obtain ⟨s, hreplay, hs⟩ := Option.map_eq_some_iff.mp hrun
  simp only [Prod.mk.injEq] at hs
  obtain ⟨hserver, hsim, hlock, hstopped⟩ := hs
  refine ⟨s, System.reachable_of_replay hreplay, ⟨?_, hstopped, .inl ⟨hsim, hlock⟩⟩, ?_, ?_, ?_⟩
  · rw [hserver]
    trivial
  · simp [handshake, step, stepSimulation, hsim, hlock]
  · simp [handshake, step, stepServer, hserver]
  · intro r
    simp [handshake, step, receive, hserver]

/-- The simulation goes on from its first stop: the server sleeps in `waitForStop`, and the
simulation has been woken up. -/
theorem not_deadlocked_run : ∃ s, handshake.Reaches AfterRun s ∧
    (s.server, s.simulation) = (.asleep, .relockBkpt) ∧ ¬ Deadlocked s ∧ Progress s := by
  have hrun : (handshake.replayIf AfterRun handshake.init (firstReply ++
      List.replicate 3 .simulation ++ .request .Continue :: List.replicate 7 .server)).map
        (fun s => (s.server, s.simulation)) = some (.asleep, .relockBkpt) := by
    decide
  obtain ⟨s, hreplay, hs⟩ := Option.map_eq_some_iff.mp hrun
  have hreach : handshake.Reaches AfterRun s := .replayIf .init hreplay
  exact ⟨s, hreach, hs, not_deadlocked hreach⟩

end Pfp.Db.Handshake
