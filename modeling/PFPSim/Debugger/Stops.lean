import PFPSim.Debugger.TemporaryBreakpoints

/-!
# Stops

How a callback ends, and which breakpoints it leaves (`Outcome`). A stop at a breakpoint
edits the list; a stop at a watchpoint, at a dropped packet or at the end of the simulation
(`Interrupts`) does not look at it.
-/

namespace Pfp.Db

/-! ## What the threads share -/

structure Threads where
  reply_message : Option DebuggerMessage
  run_lock : Bool
  continue_command : Bool
  stopped : Bool
  simulation : Simulation

def Shared.threads (s : Shared) : Threads :=
  ⟨s.reply_message, s.run_lock, s.continue_command, s.stopped, s.simulation⟩

/-- The simulation has told the server of a stop with the message `m`. -/
def Threads.halt (t : Threads) (m : DebuggerMessage) (loop : Option WatchLoop) : Threads :=
  { t with reply_message := some m, stopped := true, simulation := .paused loop }

/-- A callback that does not stop, or stops once. -/
def Stopping (t t' : Threads) : Prop := t' = t ∨ ∃ m loop, t' = t.halt m loop

variable {cv : Conversions} {sh sh' : Shared}

theorem updateSimulationTime_threads (sh : Shared) (time : ℚ) :
    (sh.updateSimulationTime time).threads = sh.threads := by
  unfold Shared.updateSimulationTime
  split <;> rfl

theorem updateTrace_foldl_threads (sh : Shared) (ts : List TraceData) :
    (ts.foldl (fun (s : Shared) t => s.updateTrace t.id t.value) sh).threads = sh.threads := by
  induction ts generalizing sh with
  | nil => rfl
  | cons t ts ih => exact ih _

theorem replyHit_threads (a : Access) (b : Breakpoint) (sh : Shared) :
    ∃ m, (replyHit a b sh).threads = { sh.threads with reply_message := some m } := by
  unfold replyHit
  split
  · exact ⟨_, rfl⟩
  · exact ⟨_, rfl⟩

theorem breakpointStop_threads (a : Access) (i : Nat) (b : Breakpoint) (sh : Shared) :
    ∃ m, (breakpointStop a i b sh).threads = sh.threads.halt m none := by
  obtain ⟨m, hm⟩ := replyHit_threads a b sh
  refine ⟨m, ?_⟩
  have hhalt : ((replyHit a b sh).notifyServer.pause none).threads = sh.threads.halt m none :=
    congrArg (fun t : Threads => { t with stopped := true, simulation := .paused none }) hm
  rw [← hhalt]
  simp only [breakpointStop]
  split <;> rfl

theorem Shared.access_threads (sh : Shared) (read : Bool) (mod : String) (data : TrType)
    (time : ℚ) : (sh.access read mod data time).threads = sh.threads := by
  rw [access, updateTrace_foldl_threads]
  exact updateSimulationTime_threads sh time

/-! ## Callbacks -/

abbrev Shared.breakpoints (sh : Shared) : List Breakpoint := sh.data_manager.breakpoint_list

/-- An enabled watchpoint is on the counter. -/
def Watched (ws : List Watchpoint) (counter_name : String) : Prop :=
  ∃ w ∈ ws, counter_name = w.counter_name ∧ w.disabled = false

/-- The event stops the simulation, whatever the breakpoints are. -/
def Interrupts (sh : Shared) : Event → Prop
  | .counter_updated counter_name _ _ => Watched sh.data_manager.watchpoint_list counter_name
  | .data_dropped _ data _ _ => data.debuggable = true ∧ sh.data_manager.break_packet_dropped = true
  | .simulation_end => True
  | _ => False

/-- The end of a callback. -/
inductive Outcome (cv : Conversions) (e : Event) (sh sh' : Shared) : Prop
  | runs (quiet : ¬ Interrupts sh e) (threads : sh'.threads = sh.threads)
      (list : sh'.breakpoints = sh.breakpoints)
  | breakpoint (a : Access) (front : List Breakpoint) (b : Breakpoint) (back : List Breakpoint)
      (m : DebuggerMessage) (quiet : ¬ Interrupts sh e)
      (hit : HitAt cv a sh.breakpoints front b back)
      (threads : sh'.threads = sh.threads.halt m none)
      (list : sh'.breakpoints =
        listAfter b (slot (listAtHit b sh.breakpoints) front.length b) sh.breakpoints)
  | interrupt (m : DebuggerMessage) (loop : Option WatchLoop) (why : Interrupts sh e)
      (threads : sh'.threads = sh.threads.halt m loop) (list : sh'.breakpoints = sh.breakpoints)
      (ends : e = .simulation_end → m = .SimulationEnd ∧ loop = none)
      (message : m = .SimulationEnd → e = .simulation_end)

theorem updateSimulationTime_breakpoints (sh : Shared) (time : ℚ) :
    (sh.updateSimulationTime time).breakpoints = sh.breakpoints :=
  congrArg Table.list (sh.updateSimulationTime_table time)

theorem Shared.access_breakpoints (sh : Shared) (read : Bool) (mod : String) (data : TrType)
    (time : ℚ) : (sh.access read mod data time).breakpoints = sh.breakpoints :=
  congrArg Table.list (sh.access_table read mod data time)

/-- The loop over the watchpoints stops if one of them is on the counter, and otherwise runs
through. -/
theorem watchLoop_cases (name : String) (old_value new_value : Int) (sh : Shared)
    (cursor : Nat) (ws : List Watchpoint) :
    ¬ Watched ws name ∧ watchLoop name old_value new_value sh cursor ws = sh ∨
      Watched ws name ∧ ∃ m loop, m ≠ .SimulationEnd ∧
        (watchLoop name old_value new_value sh cursor ws).threads =
          sh.threads.halt m (some loop) := by
  induction ws generalizing cursor with
  | nil =>
    refine .inl ⟨?_, rfl⟩
    intro h
    obtain ⟨w, hw, -⟩ := h
    cases hw
  | cons w ws ih =>
    unfold watchLoop
    split
    · rename_i hw
      refine .inr ⟨⟨w, List.mem_cons_self, hw⟩, .WatchpointHit w.id name old_value new_value,
        ⟨cursor, name, old_value, new_value⟩, ?_, rfl⟩
      intro h
      cases h
    · rename_i hw
      rcases ih (cursor + 1) with ⟨hnone, hrun⟩ | ⟨⟨v, hv, hname⟩, hstop⟩
      · refine .inl ⟨?_, hrun⟩
        intro h
        obtain ⟨v, hv, hname⟩ := h
        rcases List.mem_cons.mp hv with rfl | hv
        · exact hw hname
        · exact hnone ⟨v, hv, hname⟩
      · exact .inr ⟨⟨v, List.mem_cons_of_mem _ hv, hname⟩, hstop⟩

theorem data_access_outcome {e : Event} {read : Bool} {mod : String} {data : TrType} {time : ℚ}
    (hquiet : ¬ Interrupts sh e) (h : data_access cv read mod data time sh = .ok sh') :
    Outcome cv e sh sh' := by
  rw [data_access_eq] at h
  split at h
  · cases h
    exact .runs hquiet rfl rfl
  · have hthreads := sh.access_threads read mod data time
    have hlist := sh.access_breakpoints read mod data time
    split at h
    · rcases checkBreakpointHit_cases cv ⟨mod, int32 data.id.toNat, time, read⟩
          (sh.access read mod data time) with ⟨front, b, back, hit⟩ | hno | ⟨-, herr⟩
      · rw [checkBreakpointHit_hit hit] at h
        cases h
        obtain ⟨m, hm⟩ := breakpointStop_threads ⟨mod, int32 data.id.toNat, time, read⟩
          front.length b (sh.access read mod data time)
        rw [hthreads] at hm
        change HitAt cv _ (sh.access read mod data time).breakpoints front b back at hit
        rw [hlist] at hit
        refine .breakpoint _ front b back m hquiet hit hm ?_
        rw [← hlist]
        exact breakpointStop_list ..
      · rw [hno] at h
        cases h
        exact .runs hquiet hthreads hlist
      · rw [herr] at h
        cases h
    · cases h
      exact .runs hquiet hthreads hlist

theorem observe_outcome {e : Event} (h : observe cv e sh = .ok sh') : Outcome cv e sh sh' := by
  cases e with
  | counter_added name time =>
    cases h
    exact .runs (fun h => h) (updateSimulationTime_threads _ _) (updateSimulationTime_breakpoints _ _)
  | counter_removed name time =>
    cases h
    exact .runs (fun h => h) (updateSimulationTime_threads _ _) (updateSimulationTime_breakpoints _ _)
  | counter_updated name value time =>
    obtain ⟨published, old_value, heq⟩ := counter_updated_eq h
    generalize hdm : (perform (.updateCounter name (int32 value.toNat)) sh.data_manager).2 = dm
      at heq
    rw [perform_frame] at hdm
    have hlist : sh'.breakpoints = sh.breakpoints := by
      rw [heq, Shared.breakpoints, watchLoop_data_manager,
        Shared.updateSimulationTime_data_manager, ← hdm]
    have hwatch : (Shared.updateSimulationTime { sh with data_manager := dm, published }
        time).data_manager.watchpoint_list = sh.data_manager.watchpoint_list := by
      rw [Shared.updateSimulationTime_data_manager, ← hdm]
    have hthreads := updateSimulationTime_threads { sh with data_manager := dm, published } time
    rcases watchLoop_cases name old_value (int32 value.toNat) (Shared.updateSimulationTime
      { sh with data_manager := dm, published } time) 0 (Shared.updateSimulationTime
      { sh with data_manager := dm, published } time).data_manager.watchpoint_list with
      ⟨hnone, hrun⟩ | ⟨hwatched, m, loop, hm, hstop⟩
    · refine .runs ?_ (by rw [heq, hrun, hthreads]; rfl) hlist
      rw [hwatch] at hnone
      exact hnone
    · refine .interrupt m (some loop) ?_ (by rw [heq, hstop, hthreads]; rfl) hlist nofun
        fun h => absurd h hm
      rw [hwatch] at hwatched
      exact hwatched
  | data_written mod data time =>
    exact data_access_outcome (fun h => h) (show data_access cv false mod data time sh = .ok sh' from h)
  | data_read mod data time =>
    exact data_access_outcome (fun h => h) (show data_access cv true mod data time sh = .ok sh' from h)
  | data_dropped mod data reason time =>
    cases h
    unfold data_dropped
    have hthreads := updateSimulationTime_threads sh time
    have hlist := updateSimulationTime_breakpoints sh time
    have hdrop := congrArg DebugDataManager.break_packet_dropped
      (Shared.updateSimulationTime_data_manager sh time)
    split
    · rename_i hdebug
      refine .runs ?_ rfl rfl
      intro h
      cases hdebug.symm.trans h.1
    · rename_i hdebug
      simp only
      split
      · rename_i hbreak
        refine .interrupt (.PacketDropped (int32 data.id.toNat) mod reason) none ⟨?_, ?_⟩
          (congrArg (Threads.halt · _ none) hthreads) hlist nofun nofun
        · simpa using hdebug
        · exact hdrop.symm.trans hbreak
      · rename_i hbreak
        exact .runs (fun h => hbreak (hdrop.trans h.2)) hthreads hlist
  | activity kind time =>
    cases h
    exact .runs (fun h => h) (updateSimulationTime_threads _ _) (updateSimulationTime_breakpoints _ _)
  | simulation_end =>
    cases h
    exact .interrupt .SimulationEnd none trivial rfl rfl (fun _ => ⟨rfl, rfl⟩) fun _ => rfl

theorem Outcome.stopping {e : Event} (h : Outcome cv e sh sh') :
    Stopping sh.threads sh'.threads := by
  cases h with
  | runs quiet threads list => exact .inl threads
  | breakpoint a front b back m quiet hit threads list => exact .inr ⟨m, none, threads⟩
  | interrupt m loop why threads list ends message => exact .inr ⟨m, loop, threads⟩

/-- Behind a pause in the loop over the watchpoints, the loop may stop again. -/
theorem resume_cases (loop : Option WatchLoop) (sh : Shared) :
    (∀ w, loop = some w →
        ¬ Watched (sh.data_manager.watchpoint_list.drop (w.cursor + 1)) w.counter_name) ∧
        (resume loop sh).threads =
          { sh.threads with continue_command := false, simulation := .running } ∨
      ∃ w m loop', loop = some w ∧ m ≠ .SimulationEnd ∧
        Watched (sh.data_manager.watchpoint_list.drop (w.cursor + 1)) w.counter_name ∧
        (resume loop sh).threads =
          { sh.threads with continue_command := false, simulation := .running }.halt m loop' := by
  cases loop with
  | none => exact .inl ⟨nofun, rfl⟩
  | some w =>
    rcases watchLoop_cases w.counter_name w.old_value w.new_value
      { sh with continue_command := false, simulation := .running } (w.cursor + 1)
      (sh.data_manager.watchpoint_list.drop (w.cursor + 1)) with
      ⟨hnone, hrun⟩ | ⟨hwatched, m, loop', hm, hstop⟩
    · refine .inl ⟨?_, congrArg Shared.threads hrun⟩
      intro v hv
      cases hv
      exact hnone
    · exact .inr ⟨w, m, some loop', rfl, hm, hwatched, hstop⟩

theorem resume_stopping (loop : Option WatchLoop) (sh : Shared) :
    Stopping { sh.threads with continue_command := false, simulation := .running }
      (resume loop sh).threads := by
  rcases resume_cases loop sh with ⟨-, hrun⟩ | ⟨w, m, loop', -, -, -, hstop⟩
  · exact .inl hrun
  · exact .inr ⟨m, loop', hstop⟩

end Pfp.Db
