import PFPSim.Debugger.Stops
import PFPSim.Runs.Record

/-!
# Ignored modules

A session that records its stops, each with its message and the modules that are ignored
at that moment. Reads and writes in an ignored module do not stop the simulation; a drop
does, since `data_dropped` does not look at the list (`IgnoredDrop`).
-/

namespace Pfp.Db

open Runs

/-- The module in which a message says that the simulation stopped. -/
def DebuggerMessage.module : DebuggerMessage → Option String
  | .BreakpointHit _ mod _ _ _ => some mod
  | .SimulationStopped mod _ _ _ => some mod
  | .PacketDropped _ mod _ => some mod
  | _ => none

structure Stop where
  message : DebuggerMessage
  ignored : List String

/-- The debugger has not stopped in an ignored module. -/
def Stop.Heeds (x : Stop) : Prop := ∀ mod, x.message.module = some mod → mod ∉ x.ignored

/-- The stop at which the simulation thread waits. -/
def Shared.stop (sh : Shared) : Option Stop :=
  match sh.simulation with
  | .paused _ => sh.reply_message.map fun m => ⟨m, sh.data_manager.ignore_module_list⟩
  | _ => none

/-- The stop that a step of the simulation thread has made, in a callback or behind a pause. -/
def stop (_ : Session) (x : Step) (s' : Session) : Option Stop :=
  match x with
  | .event _ => s'.shared.stop
  | .resume => s'.shared.stop
  | _ => none

/-- A packet is dropped in an ignored module, and drops stop the simulation. -/
def IgnoredDrop (s : Session) : Step → Prop
  | .event (.data_dropped mod data _ _) => data.debuggable = true ∧
      s.data_manager.break_packet_dropped = true ∧ mod ∈ s.data_manager.ignore_module_list
  | _ => False

variable {cv : Conversions} {cp : Option CPDebuggerInterface} {sh sh' : Shared}

/-! ## One stop -/

theorem Shared.stop_of_running (h : sh.simulation = .running) : sh.stop = none := by
  rw [stop, h]

theorem Shared.stop_of_halt {t : Threads} {m : DebuggerMessage} {loop : Option WatchLoop}
    (h : sh.threads = t.halt m loop) : sh.stop = some ⟨m, sh.data_manager.ignore_module_list⟩ := by
  have hpaused : sh.simulation = .paused loop := congrArg Threads.simulation h
  have hreply : sh.reply_message = some m := congrArg Threads.reply_message h
  rw [stop, hpaused, hreply]
  rfl

/-- The stop, if there is one, is in no ignored module. -/
def Shared.Heeds (sh : Shared) : Prop := ∀ a, sh.stop = some a → a.Heeds

theorem Shared.heeds_of_running (h : sh.simulation = .running) : sh.Heeds := by
  intro a ha
  rw [stop_of_running h] at ha
  cases ha

theorem Shared.heeds_of_halt {t : Threads} {m : DebuggerMessage} {loop : Option WatchLoop}
    (h : sh.threads = t.halt m loop) :
    sh.Heeds ↔ ∀ mod, m.module = some mod → mod ∉ sh.data_manager.ignore_module_list := by
  rw [Heeds, stop_of_halt h]
  constructor
  · intro hheeds
    exact hheeds _ rfl
  · intro hnot a ha
    cases ha
    exact hnot

theorem Shared.heeds_of_pause (sh : Shared) (m : DebuggerMessage) (loop : Option WatchLoop) :
    ((sh.setReplyMessage m).notifyServer.pause loop).Heeds ↔
      ∀ mod, m.module = some mod → mod ∉ sh.data_manager.ignore_module_list := by
  have hhalt : ((sh.setReplyMessage m).notifyServer.pause loop).threads =
      sh.threads.halt m loop := rfl
  exact heeds_of_halt hhalt

/-- The loop over the watchpoints names no module. -/
theorem watchLoop_heeds (hrun : sh.simulation = .running) (name : String)
    (old_value new_value : Int) (cursor : Nat) (ws : List Watchpoint) :
    (watchLoop name old_value new_value sh cursor ws).Heeds := by
  induction ws generalizing cursor with
  | nil => exact Shared.heeds_of_running hrun
  | cons w ws ih =>
    unfold watchLoop
    split
    · refine (Shared.heeds_of_pause ..).mpr ?_
      intro mod hmod
      cases hmod
    · exact ih (cursor + 1)

/-- The message of a stop at a breakpoint names the module of the event. -/
theorem breakpointStop_module (a : Access) (i : Nat) (b : Breakpoint) (sh : Shared) :
    ∃ m, (breakpointStop a i b sh).threads = sh.threads.halt m none ∧
      m.module = some a.mod := by
  have hreply : ∃ m, (replyHit a b sh).reply_message = some m ∧ m.module = some a.mod := by
    unfold replyHit
    split
    · exact ⟨_, rfl, rfl⟩
    · exact ⟨_, rfl, rfl⟩
  obtain ⟨m', hhalt⟩ := breakpointStop_threads a i b sh
  obtain ⟨m, hm, hmod⟩ := hreply
  have hsame : (breakpointStop a i b sh).reply_message = (replyHit a b sh).reply_message := by
    simp only [breakpointStop]
    split <;> rfl
  rw [hm, show (breakpointStop a i b sh).reply_message = some m' from
    congrArg Threads.reply_message hhalt] at hsame
  rw [Option.some.inj hsame] at hhalt
  exact ⟨m, hhalt, hmod⟩

theorem breakpointStop_ignored (a : Access) (i : Nat) (b : Breakpoint) (sh : Shared) :
    (breakpointStop a i b sh).data_manager.ignore_module_list =
      sh.data_manager.ignore_module_list := by
  have hreply : (replyHit a b sh).data_manager.ignore_module_list =
      sh.data_manager.ignore_module_list := by
    unfold replyHit
    split <;> rfl
  rw [← hreply]
  simp only [breakpointStop]
  split <;> rfl

/-- A read or write in an ignored module does not stop the simulation. -/
theorem data_access_heeds {read : Bool} {mod : String} {data : TrType} {time : ℚ}
    (hrun : sh.simulation = .running) (h : data_access cv read mod data time sh = .ok sh') :
    sh'.Heeds := by
  have hrunning : (sh.access read mod data time).simulation = .running :=
    (congrArg Threads.simulation (sh.access_threads read mod data time)).trans hrun
  rw [data_access_eq] at h
  split at h
  · cases h
    exact Shared.heeds_of_running hrun
  · split at h
    · rename_i hignore
      rcases checkBreakpointHit_cases cv ⟨mod, int32 data.id.toNat, time, read⟩
          (sh.access read mod data time) with ⟨front, b, back, hit⟩ | hno | ⟨-, herr⟩
      · rw [checkBreakpointHit_hit hit] at h
        cases h
        obtain ⟨m, hhalt, hmod⟩ := breakpointStop_module ⟨mod, int32 data.id.toNat, time, read⟩
          front.length b (sh.access read mod data time)
        refine (Shared.heeds_of_halt hhalt).mpr ?_
        intro mod' hmod'
        rw [hmod] at hmod'
        cases hmod'
        rw [breakpointStop_ignored]
        simpa [DebugDataManager.checkIgnoreModules] using hignore
      · rw [hno] at h
        cases h
        exact Shared.heeds_of_running hrunning
      · rw [herr] at h
        cases h
    · cases h
      exact Shared.heeds_of_running hrunning

/-- A drop stops the simulation in an ignored module too. -/
theorem data_dropped_heeds {s : Session} (hrun : s.shared.simulation = .running) (mod : String)
    (data : TrType) (reason : String) (time : ℚ) :
    ¬ IgnoredDrop s (.event (.data_dropped mod data reason time)) ↔
      (data_dropped mod data reason time s.shared).Heeds := by
  have hdata := s.shared.updateSimulationTime_data_manager time
  have hthreads := updateSimulationTime_threads s.shared time
  have hbreak := congrArg DebugDataManager.break_packet_dropped hdata
  have hignored := congrArg DebugDataManager.ignore_module_list hdata
  unfold data_dropped
  split
  · rename_i hdebug
    refine iff_of_true ?_ (Shared.heeds_of_running hrun)
    intro hdrop
    cases hdebug.symm.trans hdrop.1
  · rename_i hdebug
    simp only
    split
    · rename_i hon
      rw [Shared.heeds_of_pause]
      constructor
      · intro hnot mod' hmod' hmem
        cases hmod'
        exact hnot ⟨by simpa using hdebug, hbreak.symm.trans hon, hignored ▸ hmem⟩
      · intro hheeds hdrop
        refine hheeds mod rfl ?_
        show mod ∈ (s.shared.updateSimulationTime time).data_manager.ignore_module_list
        rw [hignored]
        exact hdrop.2.2
    · rename_i hoff
      refine iff_of_true ?_ (Shared.heeds_of_running ?_)
      · intro hdrop
        exact hoff (hbreak.trans hdrop.2.1)
      · exact (congrArg Threads.simulation hthreads).trans hrun

/-! ## Runs -/

theorem event_heeds {s : Session} {e : Event} (hrun : s.shared.simulation = .running)
    (h : observe cv e s.shared = .ok sh') : ¬ IgnoredDrop s (.event e) ↔ sh'.Heeds := by
  have htime : ∀ (sh : Shared) time, sh.simulation = .running →
      (sh.updateSimulationTime time).Heeds := by
    intro sh time hsh
    exact Shared.heeds_of_running
      ((congrArg Threads.simulation (updateSimulationTime_threads sh time)).trans hsh)
  cases e with
  | counter_added name time =>
    cases h
    exact iff_of_true (fun h => h) (htime _ time hrun)
  | counter_removed name time =>
    cases h
    exact iff_of_true (fun h => h) (htime _ time hrun)
  | counter_updated name value time =>
    obtain ⟨published, old_value, rfl⟩ := counter_updated_eq h
    refine iff_of_true (fun h => h) (watchLoop_heeds ?_ _ _ _ _ _)
    exact (congrArg Threads.simulation (updateSimulationTime_threads _ time)).trans hrun
  | data_written mod data time =>
    have haccess : data_access cv false mod data time s.shared = .ok sh' := h
    exact iff_of_true (fun h => h) (data_access_heeds hrun haccess)
  | data_read mod data time =>
    have haccess : data_access cv true mod data time s.shared = .ok sh' := h
    exact iff_of_true (fun h => h) (data_access_heeds hrun haccess)
  | data_dropped mod data reason time =>
    cases h
    exact data_dropped_heeds hrun mod data reason time
  | activity kind time =>
    cases h
    exact iff_of_true (fun h => h) (htime _ time hrun)
  | simulation_end =>
    cases h
    refine iff_of_true (fun h => h) ((Shared.heeds_of_pause ..).mpr ?_)
    intro mod hmod
    cases hmod

theorem step_heeds {s s' : Session} {x : Step} (h : (session cv cp).step s x = some s') :
    ¬ IgnoredDrop s x ↔ ∀ a, stop s x s' = some a → a.Heeds := by
  obtain ⟨hen, hexec⟩ := step_eq_some.mp h
  cases x with
  | request r => exact iff_of_true (fun h => h) fun a ha => by cases ha
  | start => exact iff_of_true (fun h => h) fun a ha => by cases ha
  | reply => exact iff_of_true (fun h => h) fun a ha => by cases ha
  | event e =>
    obtain ⟨sh', hsh', hexec⟩ := bind_eq_ok.mp hexec
    cases hexec
    exact event_heeds (by simpa [enabled] using hen) hsh'
  | resume =>
    refine iff_of_true (fun h => h) ?_
    simp only [exec] at hexec
    split at hexec
    · rename_i loop hpaused
      cases hexec
      cases loop with
      | none =>
        have hrunning : (resume none s.shared).simulation = .running := rfl
        exact Shared.heeds_of_running hrunning
      | some w =>
        have hrunning : ({ s.shared with
            continue_command := false, simulation := .running } : Shared).simulation =
              .running := rfl
        exact watchLoop_heeds hrunning _ _ _ _ _
    · rename_i hpaused
      cases hexec
      simp only [enabled, decide_eq_true_eq] at hen
      cases hsim : s.shared.simulation with
      | held => exact absurd hsim hen.1
      | running => exact absurd hsim hen.2.1
      | paused loop => exact absurd hsim (hpaused loop)

/-- **Ignored modules.** In every session, the simulation has stopped in no module that was
ignored at that moment, if and only if no packet was dropped in an ignored module while drops
stop the simulation. -/
theorem heeds_iff_no_ignored_drop {r : Recorded Session Stop}
    (h : ((session cv cp).recorded stop).Reachable r) :
    (∀ x ∈ r.record, x.Heeds) ↔
      ((session cv cp).recorded stop).Reaches (fun r x => ¬ IgnoredDrop r.state x) r := by
  rw [System.reaches_record_iff (Q := Stop.Heeds) fun s x s' _ hs => step_heeds hs]
  constructor
  · intro hrecord
    exact ⟨h, hrecord⟩
  · intro hr
    exact hr.2

/-- A packet is dropped in `n`, with the module `m` ignored. -/
def dropIgnoring (m n : String) : List Step :=
  [.request (.IgnoreModule m false), .request (.BreakOnPacketDrop true), .request (.Run none),
    .start, .event (.data_dropped n ⟨7, true, none⟩ "full" 1)]

/-- The simulation stops at a drop in an ignored module. -/
theorem stops_in_ignored : ¬ ∀ (cv : Conversions) (cp : Option CPDebuggerInterface)
    (r : Recorded Session Stop), ((session cv cp).recorded stop).Reachable r →
      ∀ x ∈ r.record, x.Heeds := by
  intro hall
  have hrun : (((session decimal none).recorded stop).replay
      ((session decimal none).recorded stop).init (dropIgnoring "m" "m")).map (fun r =>
        r.record.map fun x => (x.message.module, x.ignored)) = some [(some "m", ["m"])] := by
    decide +kernel
  obtain ⟨r, hreplay, hr⟩ := Option.map_eq_some_iff.mp hrun
  obtain ⟨x, hx, hvalue⟩ := List.mem_map.mp (hr ▸ List.mem_singleton.mpr rfl)
  obtain ⟨hmodule, hignored⟩ := Prod.mk.inj hvalue
  refine hall decimal none r (System.reachable_of_replay hreplay) x hx "m" hmodule ?_
  rw [hignored]
  exact List.mem_singleton.mpr rfl

/-- The stop at a drop in another module. -/
theorem heeds_dropped : ∃ r, ((session decimal none).recorded stop).Reachable r ∧
    r.record.length = 1 ∧ ((session decimal none).recorded stop).Reaches
      (fun r x => ¬ IgnoredDrop r.state x) r := by
  have hrun : (((session decimal none).recorded stop).replay
      ((session decimal none).recorded stop).init (dropIgnoring "m" "n")).map (fun r =>
        r.record.map fun x => (x.message.module, x.ignored)) = some [(some "n", ["m"])] := by
    decide +kernel
  obtain ⟨r, hreplay, hr⟩ := Option.map_eq_some_iff.mp hrun
  have hreach := System.reachable_of_replay hreplay
  have hlength := congrArg List.length hr
  rw [List.length_map] at hlength
  refine ⟨r, hreach, hlength, (heeds_iff_no_ignored_drop hreach).mp ?_⟩
  intro x hx mod hmod
  have hvalue := List.mem_map_of_mem (f := fun x : Stop => (x.message.module, x.ignored)) hx
  rw [hr, List.mem_singleton] at hvalue
  obtain ⟨hmodule, hignored⟩ := Prod.mk.inj hvalue
  rw [hmodule] at hmod
  cases hmod
  rw [hignored]
  decide

end Pfp.Db
