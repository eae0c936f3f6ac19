import PFPSim.Debugger.Stops
import PFPSim.Runs.Rendezvous

/-!
# The turns of a session

The two threads of a session take turns as in the rendezvous: a step of the session is a
sequence of its moves (`step_moves`), with some messages of the stops and the replies. So
the situations of the rendezvous are those of a session (`reachable_phase`): the server
takes requests only while the simulation stands still (`standing_of_idle`), and what it
replies with after a stop is a message of the simulation (`reply_of_stopped`).
-/

namespace Pfp.Db

open Relation Runs Runs.Rendezvous

variable {cv : Conversions} {s s' : Session}

/-! ## Requests -/

/-- The request does nothing that the simulation thread sees. -/
def Unseen (s s' : Session) : Prop :=
  s'.shared.threads = s.shared.threads ∧ s'.waiting = s.waiting ∧ s'.run_called = s.run_called

theorem breakAfter_unseen (cv : Conversions) (time : ℚ) (s : Session) :
    Unseen s (breakAfter cv time s) := by
  unfold breakAfter
  split <;> exact ⟨rfl, rfl, rfl⟩

theorem handleId_unseen {id : String} {f : Int → DebugDataManager}
    (h : handleId id f s = .ok s') : Unseen s s' := by
  obtain ⟨x, -, h⟩ := bind_eq_ok.mp h
  cases h
  exact ⟨rfl, rfl, rfl⟩

theorem handlePacketValue_unseen (id : Int) (value : DebugInfo → DebuggerMessage) (s : Session) :
    Unseen s (handlePacketValue id value s) := by
  simp only [handlePacketValue]
  split
  · split <;> exact ⟨rfl, rfl, rfl⟩
  · exact ⟨rfl, rfl, rfl⟩

theorem handleStartTracing_unseen (msg : StartTracingMsg) (s : Session) :
    Unseen s (handleStartTracing msg s).sendRequestFailed := by
  simp only [handleStartTracing]
  split <;> split <;> exact ⟨rfl, rfl, rfl⟩

/-- What the threads see of a request: the first run, a permission to go on, or nothing. -/
theorem parseRequest_threads {r : Request} (h : parseRequest cv r s = .ok s') :
    (s.run_called = false ∧ s'.run_called = true ∧ s'.waiting = true ∧
      s'.shared.threads = { s.shared.threads with run_lock := false }) ∨
    (s'.run_called = s.run_called ∧ s'.waiting = true ∧
      s'.shared.threads = { s.shared.threads with continue_command := true }) ∨
    Unseen s s' := by
  cases r with
  | Run time_ns =>
    simp only [parseRequest] at h
    split at h
    · rename_i hrun
      obtain ⟨t, -, h⟩ := bind_eq_ok.mp h
      cases h
      obtain ⟨hthreads, -, hcalled⟩ := breakAfter_unseen cv t { s with run_called := true }
      refine .inl ⟨hrun, hcalled, rfl, ?_⟩
      exact congrArg (fun t : Threads => { t with run_lock := false }) hthreads
    · cases h
      exact .inr (.inr ⟨rfl, rfl, rfl⟩)
  | Continue time_ns =>
    obtain ⟨t, -, h⟩ := bind_eq_ok.mp h
    cases h
    obtain ⟨hthreads, -, hcalled⟩ := breakAfter_unseen cv t s
    refine .inr (.inl ⟨hcalled, rfl, ?_⟩)
    exact congrArg (fun t : Threads => { t with continue_command := true }) hthreads
  | Next =>
    cases h
    obtain ⟨hthreads, -, hcalled⟩ := breakAfter_unseen cv (-1) (s.manage
      (s.data_manager.addBreakpoint (stealthBreakpoint .BREAK_ON_PACKET_ID
        (toString s.data_manager.whoami))))
    refine .inr (.inl ⟨hcalled, rfl, ?_⟩)
    exact congrArg (fun t : Threads => { t with continue_command := true }) hthreads
  | SetBreakpoint msg =>
    obtain ⟨br, -, h⟩ := bind_eq_ok.mp h
    cases h
    exact .inr (.inr ⟨rfl, rfl, rfl⟩)
  | RemoveBreakpoint id =>
    exact .inr (.inr (handleId_unseen (f := s.data_manager.removeBreakpoint) h))
  | EnableDisableBreakpoint id enable =>
    exact .inr (.inr (handleId_unseen (show handleId id _ s = .ok s' from h)))
  | RemoveWatchpoint id =>
    exact .inr (.inr (handleId_unseen (f := s.data_manager.removeWatchpoint) h))
  | EnableDisableWatchpoint id enable =>
    exact .inr (.inr (handleId_unseen (show handleId id _ s = .ok s' from h)))
  | Backtrace packet_id =>
    obtain ⟨id, -, h⟩ := bind_eq_ok.mp h
    split at h <;> cases h <;> exact .inr (.inr ⟨rfl, rfl, rfl⟩)
  | CPCommand command =>
    obtain ⟨cp, -, h⟩ := bind_eq_ok.mp h
    cases h
    exact .inr (.inr ⟨rfl, rfl, rfl⟩)
  | GetTableEntries =>
    obtain ⟨cp, -, h⟩ := bind_eq_ok.mp h
    cases h
    exact .inr (.inr ⟨rfl, rfl, rfl⟩)
  | GetPacketField id field_name =>
    cases h
    exact .inr (.inr (handlePacketValue_unseen ..))
  | GetRawPacket id =>
    cases h
    exact .inr (.inr (handlePacketValue_unseen ..))
  | GetParsedPacket id =>
    cases h
    exact .inr (.inr (handlePacketValue_unseen ..))
  | StartTracing msg =>
    cases h
    exact .inr (.inr (handleStartTracing_unseen msg s))
  | _ =>
    cases h
    exact .inr (.inr ⟨rfl, rfl, rfl⟩)

/-! ## Turns -/

def Simulation.worker : Simulation → Worker
  | .held => .held
  | .running => .running
  | .paused _ => .waiting

/-- The rendezvous that the threads of a session are in. -/
def Threads.view (t : Threads) (waiting run_called : Bool) (stops replies : List DebuggerMessage) :
    View DebuggerMessage where
  worker := t.simulation.worker
  controller := if waiting then .waiting else .serving
  lock := t.run_lock
  go := t.continue_command
  stopped := t.stopped
  started := run_called
  message := t.reply_message
  stops := stops
  replies := replies

def Session.view (s : Session) (stops replies : List DebuggerMessage) : View DebuggerMessage :=
  s.shared.threads.view s.waiting s.run_called stops replies

/-- A callback of a running simulation stays or stops. -/
theorem stopping_moves {t t' : Threads} (h : Stopping t t') (ht : t.simulation = .running)
    (w c : Bool) (ss rs : List DebuggerMessage) :
    ∃ ss', ReflTransGen Move (t.view w c ss rs) (t'.view w c ss' rs) := by
  rcases h with rfl | ⟨m, loop, rfl⟩
  · exact ⟨ss, .refl⟩
  · refine ⟨ss ++ [m], .tail (.single (.stop m ?_)) (.announce rfl)⟩
    exact congrArg Simulation.worker ht

theorem worker_of_standing {p : Simulation} (hheld : p ≠ .held) (hrunning : p ≠ .running) :
    p.worker = .waiting := by
  cases p with
  | held => exact absurd rfl hheld
  | running => exact absurd rfl hrunning
  | paused loop => rfl

theorem request_moves {r : Request} (h : parseRequest cv r s = .ok s') (hs : s.waiting = false)
    (ss rs : List DebuggerMessage) : ReflTransGen Move (s.view ss rs) (s'.view ss rs) := by
  have hserving : (s.view ss rs).controller = .serving := by
    simp only [Session.view, Threads.view, hs]
    rfl
  rcases parseRequest_threads h with ⟨hrun, hrun', hwait, hthreads⟩ | ⟨hrun, hwait, hthreads⟩ |
    ⟨hthreads, hwait, hrun⟩
  · rw [Session.view, Session.view, hthreads, hwait, hrun', hrun, hs]
    exact .tail (.single (.run rfl rfl)) (.release rfl)
  · rw [Session.view, Session.view, hthreads, hwait, hrun, hs]
    exact .single (.permit rfl)
  · rw [Session.view, Session.view, hthreads, hwait, hrun]

/-- The reply behind a stop: the flag is seen and cleared, and the message read and sent. -/
theorem reply_moves (hwait : s.waiting = true) (hstopped : s.shared.stopped = true)
    (ss rs : List DebuggerMessage) :
    ∃ m, ReflTransGen Move (s.view ss rs) (s.replyStop.view ss (rs ++ [m])) := by
  have hview : s.view ss rs = { s.view ss rs with controller := .waiting, stopped := true } := by
    simp only [Session.view, Threads.view, Shared.threads, hwait, hstopped, if_true]
  cases hm : s.shared.reply_message with
  | none =>
    refine ⟨.GenericAcknowledge .SUCCESS, ?_⟩
    rw [hview]
    exact .tail (.tail (.tail (.single (.notice rfl rfl)) (.clear rfl))
      (.substitute (.GenericAcknowledge .SUCCESS) rfl hm)) (.reply _ rfl)
  | some m =>
    refine ⟨m, ?_⟩
    rw [hview]
    exact .tail (.tail (.tail (.single (.notice rfl rfl)) (.clear rfl)) (.read m rfl hm))
      (.reply m rfl)

/-- **Turns.** A step of a session is a sequence of moves of the rendezvous. -/
theorem step_moves {cp : Option CPDebuggerInterface} {x : Step}
    (h : (session cv cp).step s x = some s') (ss rs : List DebuggerMessage) :
    ∃ ss' rs', ReflTransGen Move (s.view ss rs) (s'.view ss' rs') := by
  obtain ⟨hen, h⟩ := step_eq_some.mp h
  cases x with
  | request r => exact ⟨ss, rs, request_moves h (by simpa [enabled] using hen) ss rs⟩
  | start =>
    cases h
    simp only [enabled, decide_eq_true_eq] at hen
    obtain ⟨hheld, hlock⟩ := hen
    exact ⟨ss, rs, .single (.start (congrArg Simulation.worker hheld) hlock)⟩
  | event e =>
    obtain ⟨sh, hsh, h⟩ := bind_eq_ok.mp h
    cases h
    simp only [enabled, decide_eq_true_eq] at hen
    obtain ⟨ss', hmoves⟩ := stopping_moves (observe_outcome hsh).stopping hen s.waiting s.run_called ss rs
    exact ⟨ss', rs, hmoves⟩
  | resume =>
    simp only [enabled, decide_eq_true_eq] at hen
    obtain ⟨hheld, hrunning, hgo⟩ := hen
    have hworker : (s.view ss rs).worker = .waiting := worker_of_standing hheld hrunning
    have hproceed : ReflTransGen Move (s.view ss rs) ({ s.shared.threads with
        continue_command := false, simulation := .running }.view s.waiting s.run_called ss rs) :=
      .tail (.single (.resume hworker hgo)) (.proceed rfl)
    simp only [exec] at h
    split at h
    · rename_i loop hloop
      cases h
      obtain ⟨ss', hmoves⟩ :=
        stopping_moves (resume_stopping loop s.shared) rfl s.waiting s.run_called ss rs
      exact ⟨ss', rs, hproceed.trans hmoves⟩
    · rename_i hpaused
      cases hsim : s.shared.simulation with
      | held => exact absurd hsim hheld
      | running => exact absurd hsim hrunning
      | paused loop => exact absurd hsim (hpaused loop)
  | reply =>
    cases h
    simp only [enabled, decide_eq_true_eq] at hen
    obtain ⟨m, hmoves⟩ := reply_moves hen.1 hen.2 ss rs
    exact ⟨ss, rs ++ [m], hmoves⟩

theorem reachable_phase {cp : Option CPDebuggerInterface} {P : Session → Step → Prop}
    (h : (session cv cp).Reaches P s) : ∃ ss rs, Phase (s.view ss rs) := by
  refine System.Reaches.invariant (I := fun s : Session => ∃ ss rs, Phase (s.view ss rs))
    ⟨[], [], .held none⟩ (fun s x s' _ hs _ hstep => ?_) h
  obtain ⟨ss, rs, hphase⟩ := hs
  obtain ⟨ss', rs', hmoves⟩ := step_moves hstep ss rs
  exact ⟨ss', rs', hphase.moves hmoves⟩

/-- While the server takes requests the simulation stands still, before its run or at a stop. -/
theorem standing_of_idle {cp : Option CPDebuggerInterface} {P : Session → Step → Prop}
    (h : (session cv cp).Reaches P s) (hs : s.waiting = false) :
    s.shared.simulation = .held ∧ s.shared.run_lock = true ∨
      (∃ loop, s.shared.simulation = .paused loop) ∧ s.shared.continue_command = false := by
  obtain ⟨ss, rs, hphase⟩ := reachable_phase h
  have hserving : (s.view ss rs).controller = .serving := by
    simp only [Session.view, Threads.view, hs]
    rfl
  rcases hphase.of_serving hserving with ⟨hworker, hlock⟩ | ⟨hworker, hgo⟩
  · refine .inl ⟨?_, hlock⟩
    replace hworker : s.shared.simulation.worker = .held := hworker
    cases hsim : s.shared.simulation <;> rw [hsim] at hworker <;> first | rfl | cases hworker
  · refine .inr ⟨?_, hgo⟩
    replace hworker : s.shared.simulation.worker = .waiting := hworker
    cases hsim : s.shared.simulation with
    | paused loop => exact ⟨loop, rfl⟩
    | held =>
      rw [hsim] at hworker
      cases hworker
    | running =>
      rw [hsim] at hworker
      cases hworker

/-- Behind a stop there is a message to reply with. -/
theorem reply_of_stopped {cp : Option CPDebuggerInterface} {P : Session → Step → Prop}
    (h : (session cv cp).Reaches P s) (hs : s.shared.stopped = true) :
    ∃ m, s.shared.reply_message = some m := by
  obtain ⟨ss, rs, hphase⟩ := reachable_phase h
  exact hphase.of_stopped hs

end Pfp.Db
