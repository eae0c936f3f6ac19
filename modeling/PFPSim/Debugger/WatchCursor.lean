import PFPSim.Debugger.Identifiers
import PFPSim.Debugger.Turns

/-!
# The cursor over the watchpoints

The loop of `counter_updated`, one iteration at a time, with the requests that the server
takes while the loop is paused. The cursor is an index into the list of the data manager,
which the requests change; behind the end of the list there is nothing to dereference. So
the loop is in order as long as the list is longer than the cursor whenever the loop goes
on (`cursor_in_range`), and runs out of the list otherwise (`overruns`). The iterator of the
source is lost as well when a `push_back` moves the vector; an index does not see that.
-/

namespace Pfp.Db

open Relation Runs Lists

/-! ## The loop -/

/-- The loop with its session. `reported` are the identifiers of its messages. -/
structure Watching where
  session : Session
  loop : WatchLoop
  reported : List Int := []

namespace Watching

abbrev watchpoints (t : Watching) : List Watchpoint := t.session.data_manager.watchpoint_list

/-- The loop is not in `pause`. -/
def Running (t : Watching) : Prop := t.session.shared.simulation = .running

instance (t : Watching) : Decidable t.Running :=
  inferInstanceAs (Decidable (t.session.shared.simulation = .running))

/-- The stop at the watchpoint `w`. -/
def hit (t : Watching) (w : Watchpoint) : Shared :=
  ((t.session.shared.setReplyMessage (.WatchpointHit w.id t.loop.counter_name t.loop.old_value
    t.loop.new_value)).notifyServer).pause (some t.loop)

/-- The body of the loop, up to the call of `pause`. -/
def body (t : Watching) (w : Watchpoint) : Watching :=
  if t.loop.counter_name = w.counter_name ∧ w.disabled = false then
    { t with session := { t.session with shared := t.hit w }, reported := t.reported ++ [w.id] }
  else { t with loop := { t.loop with cursor := t.loop.cursor + 1 } }

/-- The end of `pause`, and `it++`. -/
def advance (t : Watching) : Watching :=
  { t with
    session := { t.session with
      shared := { t.session.shared with continue_command := false, simulation := .running } }
    loop := { t.loop with cursor := t.loop.cursor + 1 } }

end Watching

inductive LoopStep where
  /-- The loop dereferences its cursor. -/
  | iterate
  /-- The server takes a request while the loop is paused. -/
  | request (r : Request)
  /-- `waitForStop` returns. -/
  | reply
  /-- `pause` returns. -/
  | resume

/-- The loop over the watchpoints of `s`. -/
def watching (cv : Conversions) (s : Session) (loop : WatchLoop) : System Watching LoopStep where
  init := { session := s, loop := { loop with cursor := 0 } }
  step t
    | .iterate => if t.Running then t.watchpoints[t.loop.cursor]?.map t.body else none
    | .request r =>
      if t.session.shared.simulation = .paused (some t.loop) then
        ((session cv none).step t.session (.request r)).map fun s' => { t with session := s' }
      else none
    | .reply => ((session cv none).step t.session .reply).map fun s' => { t with session := s' }
    | .resume =>
      if t.session.shared.simulation = .paused (some t.loop) ∧
          t.session.shared.continue_command = true then some t.advance
      else none

/-- The request may add a watchpoint. -/
def Request.sets : Request → Bool
  | .SetWatchpoint _ _ => true
  | _ => false

namespace LoopStep

def iterates : LoopStep → Bool
  | .iterate => true
  | _ => false

def sets : LoopStep → Bool
  | .request r => r.sets
  | _ => false

end LoopStep

variable {cv : Conversions} {cp : Option CPDebuggerInterface} {s s' : Session}
  {loop : WatchLoop} {t t' : Watching}

/-! ## Requests -/

/-- One edit of the watchpoints. The list gets longer only by a request that sets one. -/
structure WatchStep (sets : Bool) (t t' : WatchTable) : Prop where
  edit : WatchEdit t t'
  length : t'.list.length ≤ t.list.length + sets.toNat

theorem WatchStep.of_eq {sets : Bool} {t t' : WatchTable} (h : t' = t) : WatchStep sets t t' := by
  subst h
  exact ⟨.keep t', Nat.le_add_right _ _⟩

theorem insertWatch_length (l : List Watchpoint) (wp : Watchpoint) :
    (insertWatch l wp).length ≤ l.length + 1 := by
  unfold insertWatch
  split
  · exact Nat.le_succ _
  · rw [List.length_append, List.length_singleton]

theorem setWatchpointDisabled_watchStep (dm : DebugDataManager) (id : Int) (disabled : Bool) :
    WatchStep false dm.watchTable (dm.setWatchpointDisabled id disabled).watchTable where
  edit := .disable id disabled
  length := by
    have hids : (dm.setWatchpointDisabled id disabled).watchpoint_list.map Watchpoint.id =
        dm.watchpoint_list.map Watchpoint.id := map_updateFirst Watchpoint.id fun _ => rfl
    have hlength := congrArg List.length hids
    rw [List.length_map, List.length_map] at hlength
    exact hlength.le

theorem handleId_watchStep {id : String} {f : Int → DebugDataManager}
    (hf : ∀ x, WatchStep false s.data_manager.watchTable (f x).watchTable)
    (h : handleId id f s = .ok s') :
    WatchStep false s.data_manager.watchTable s'.data_manager.watchTable := by
  obtain ⟨x, -, h⟩ := bind_eq_ok.mp h
  cases h
  exact hf x

theorem breakAfter_watchTable (cv : Conversions) (time : ℚ) (s : Session) :
    (breakAfter cv time s).data_manager.watchTable = s.data_manager.watchTable := by
  unfold breakAfter
  split
  · exact addBreakpoint_watchTable _ _
  · rfl

theorem handleStartTracing_watchTable (msg : StartTracingMsg) (s : Session) :
    (handleStartTracing msg s).sendRequestFailed.data_manager.watchTable =
      s.data_manager.watchTable := by
  have hcall : ∀ c : Call, ∀ p : Int × DebugDataManager, p.2 = (perform c s.data_manager).2 →
      (if p.1 < 0 then (s.manage p.2).sendRequestFailed
        else (s.manage p.2).send (.StartTracingStatus p.1)).data_manager.watchTable =
          s.data_manager.watchTable := by
    intro c p hp
    split <;> exact hp ▸ perform_watchTable c s.data_manager
  simp only [handleStartTracing]
  split
  · exact hcall (.addCounterTrace msg.name) (s.data_manager.addCounterTrace msg.name) rfl
  · exact hcall (.addLatencyTrace msg.name msg.end_name)
      (s.data_manager.addLatencyTrace msg.name msg.end_name) rfl
  · exact hcall (.addThroughputTrace msg.name) (s.data_manager.addThroughputTrace msg.name) rfl

/-- A request edits the watchpoints once at most, and only one that sets a watchpoint makes
the list longer. -/
theorem parseRequest_watchStep {r : Request} (h : parseRequest cv r s = .ok s') :
    WatchStep r.sets s.data_manager.watchTable s'.data_manager.watchTable := by
  cases r with
  | SetWatchpoint name disabled =>
    cases h
    have htable := addWatchpoint_watchTable
      (s.data_manager.newWatchpoint name (disabled = "1")).2
      (s.data_manager.newWatchpoint name (disabled = "1")).1
    refine ⟨htable ▸ .set _ rfl, ?_⟩
    exact (congrArg (fun t : WatchTable => t.list.length) htable).trans_le (insertWatch_length _ _)
  | RemoveWatchpoint id =>
    refine handleId_watchStep (f := s.data_manager.removeWatchpoint) (fun x => ?_) h
    exact ⟨.remove x, removeFirst_sublist.length_le⟩
  | EnableDisableWatchpoint id enable =>
    refine handleId_watchStep (fun x => ?_) (show handleId id _ s = .ok s' from h)
    split
    · exact setWatchpointDisabled_watchStep _ x true
    · exact setWatchpointDisabled_watchStep _ x false
  | Run time_ns =>
    simp only [parseRequest] at h
    split at h
    · obtain ⟨t, -, h⟩ := bind_eq_ok.mp h
      cases h
      exact .of_eq (breakAfter_watchTable cv t { s with run_called := true })
    · cases h
      exact .of_eq rfl
  | Continue time_ns =>
    obtain ⟨t, -, h⟩ := bind_eq_ok.mp h
    cases h
    exact .of_eq (breakAfter_watchTable cv t s)
  | Next =>
    cases h
    exact .of_eq (addBreakpoint_watchTable _ _)
  | SetBreakpoint msg =>
    obtain ⟨br, -, h⟩ := bind_eq_ok.mp h
    cases h
    exact .of_eq (addBreakpoint_watchTable _ _)
  | RemoveBreakpoint id =>
    exact handleId_watchStep (f := s.data_manager.removeBreakpoint) (fun _ => .of_eq rfl) h
  | EnableDisableBreakpoint id enable =>
    refine handleId_watchStep (fun x => ?_) (show handleId id _ s = .ok s' from h)
    split <;> exact .of_eq rfl
  | IgnoreModule mod delete =>
    cases h
    have hadd : (s.data_manager.addIgnoreModule mod).watchTable = s.data_manager.watchTable := by
      unfold DebugDataManager.addIgnoreModule
      split <;> rfl
    refine .of_eq ?_
    show (if delete then s.data_manager.removeIgnoreModule mod
      else s.data_manager.addIgnoreModule mod).watchTable = _
    split
    · rfl
    · exact hadd
  | StartTracing msg =>
    cases h
    apply WatchStep.of_eq
    exact handleStartTracing_watchTable msg s
  | Backtrace packet_id => exact .of_eq (congrArg _ (handleBacktrace_data_manager h))
  | CPCommand command =>
    obtain ⟨cp, -, h⟩ := bind_eq_ok.mp h
    cases h
    exact .of_eq rfl
  | GetTableEntries =>
    obtain ⟨cp, -, h⟩ := bind_eq_ok.mp h
    cases h
    exact .of_eq rfl
  | GetPacketField id field_name =>
    cases h
    exact .of_eq (congrArg _ (handlePacketValue_data_manager ..))
  | GetRawPacket id =>
    cases h
    exact .of_eq (congrArg _ (handlePacketValue_data_manager ..))
  | GetParsedPacket id =>
    cases h
    exact .of_eq (congrArg _ (handlePacketValue_data_manager ..))
  | _ =>
    cases h
    exact .of_eq rfl

/-! ## One step of the loop -/

/-- What a step of the loop does. -/
inductive LoopCase (t t' : Watching) : LoopStep → Prop
  | hit (w : Watchpoint) (running : t.Running) (at_cursor : t.watchpoints[t.loop.cursor]? = some w)
      (watched : t.loop.counter_name = w.counter_name ∧ w.disabled = false)
      (next : t' = { t with
        session := { t.session with shared := t.hit w }, reported := t.reported ++ [w.id] }) :
      LoopCase t t' .iterate
  | pass (w : Watchpoint) (running : t.Running)
      (at_cursor : t.watchpoints[t.loop.cursor]? = some w)
      (next : t' = { t with loop := { t.loop with cursor := t.loop.cursor + 1 } }) :
      LoopCase t t' .iterate
  | request (r : Request) (paused : t.session.shared.simulation = .paused (some t.loop))
      (table : WatchStep r.sets t.session.data_manager.watchTable
        t'.session.data_manager.watchTable)
      (simulation : t'.session.shared.simulation = t.session.shared.simulation)
      (loop : t'.loop = t.loop) (reported : t'.reported = t.reported) :
      LoopCase t t' (.request r)
  | reply (table : t'.session.data_manager.watchTable = t.session.data_manager.watchTable)
      (simulation : t'.session.shared.simulation = t.session.shared.simulation)
      (loop : t'.loop = t.loop) (reported : t'.reported = t.reported) : LoopCase t t' .reply
  | resume (paused : t.session.shared.simulation = .paused (some t.loop)) (next : t' = t.advance) :
      LoopCase t t' .resume

theorem parseRequest_simulation {r : Request} (h : parseRequest cv r s = .ok s') :
    s'.shared.simulation = s.shared.simulation := by
  rcases parseRequest_threads h with ⟨-, -, -, hthreads⟩ | ⟨-, -, hthreads⟩ | ⟨hthreads, -⟩
  · exact congrArg Threads.simulation hthreads
  · exact congrArg Threads.simulation hthreads
  · exact congrArg Threads.simulation hthreads

theorem loop_cases {x : LoopStep} (h : (watching cv s loop).step t x = some t') :
    LoopCase t t' x := by
  cases x with
  | iterate =>
    simp only [watching] at h
    split at h
    · rename_i hrun
      obtain ⟨w, hw, rfl⟩ := Option.map_eq_some_iff.mp h
      by_cases hwatched : t.loop.counter_name = w.counter_name ∧ w.disabled = false
      · exact .hit w hrun hw hwatched (if_pos hwatched)
      · exact .pass w hrun hw (if_neg hwatched)
    · cases h
  | request r =>
    simp only [watching] at h
    split at h
    · rename_i hpaused
      obtain ⟨s', hs', rfl⟩ := Option.map_eq_some_iff.mp h
      obtain ⟨-, hexec⟩ := step_eq_some.mp hs'
      exact .request r hpaused (parseRequest_watchStep hexec) (parseRequest_simulation hexec) rfl rfl
    · cases h
  | reply =>
    obtain ⟨s', hs', rfl⟩ := Option.map_eq_some_iff.mp h
    obtain ⟨-, hexec⟩ := step_eq_some.mp hs'
    cases hexec
    exact .reply rfl rfl rfl rfl
  | resume =>
    simp only [watching] at h
    split at h
    · rename_i hpaused
      cases h
      exact .resume hpaused.1 rfl
    · cases h

namespace Watching

/-- Where the next iteration begins. -/
def position (t : Watching) : Nat := if t.Running then t.loop.cursor else t.loop.cursor + 1

theorem position_of_running (h : t.Running) : t.position = t.loop.cursor := if_pos h

theorem position_of_paused {l : Option WatchLoop} (h : t.session.shared.simulation = .paused l) :
    t.position = t.loop.cursor + 1 := by
  apply if_neg
  rw [Running, h]
  exact Simulation.noConfusion

/-- The position depends on the thread and the cursor only. -/
theorem position_congr (hsim : t'.session.shared.simulation = t.session.shared.simulation)
    (hloop : t'.loop = t.loop) : t'.position = t.position := by
  have hrunning : t'.Running ↔ t.Running := by rw [Running, Running, hsim]
  simp only [position, hrunning, hloop]

end Watching

theorem LoopCase.position {x : LoopStep} (h : LoopCase t t' x) :
    t'.position = t.position + x.iterates.toNat := by
  cases h with
  | hit w running at_cursor watched next =>
    subst next
    rw [Watching.position_of_running running]
    exact Watching.position_of_paused (l := some t.loop) rfl
  | pass w running at_cursor next =>
    subst next
    rw [Watching.position_of_running running]
    exact Watching.position_of_running running
  | request r paused table simulation loop reported =>
    exact Watching.position_congr simulation loop
  | reply table simulation loop reported => exact Watching.position_congr simulation loop
  | resume paused next =>
    subst next
    rw [Watching.position_of_paused paused]
    exact Watching.position_of_running rfl

theorem LoopCase.length {x : LoopStep} (h : LoopCase t t' x) :
    t'.watchpoints.length ≤ t.watchpoints.length + x.sets.toNat := by
  cases h with
  | hit w running at_cursor watched next => exact (congrArg (·.watchpoints.length) next).le
  | pass w running at_cursor next => exact (congrArg (·.watchpoints.length) next).le
  | request r paused table simulation loop reported => exact table.length
  | reply table simulation loop reported =>
    exact (congrArg (fun t : WatchTable => t.list.length) table).le
  | resume paused next => exact (congrArg (·.watchpoints.length) next).le

/-- An iteration has a watchpoint at its position. -/
theorem LoopCase.position_lt (h : LoopCase t t' .iterate) :
    t.position < t.watchpoints.length := by
  cases h with
  | hit w running at_cursor watched next =>
    rw [Watching.position_of_running running]
    exact (List.getElem?_eq_some_iff.mp at_cursor).1
  | pass w running at_cursor next =>
    rw [Watching.position_of_running running]
    exact (List.getElem?_eq_some_iff.mp at_cursor).1

/-- The position stays inside the longest list that there can be. -/
theorem LoopCase.position_le {x : LoopStep} {n : Nat} (h : LoopCase t t' x)
    (hpos : t.position ≤ n) (hlength : t.watchpoints.length ≤ n) :
    t'.position ≤ n + x.sets.toNat := by
  have hmove := h.position
  cases x with
  | iterate =>
    have hlt := h.position_lt
    rw [hmove]
    exact (Nat.succ_le_of_lt hlt).trans hlength
  | _ =>
    rw [hmove]
    exact hpos.trans (Nat.le_add_right _ _)

/-- A run has as many iterations as there are watchpoints at first, and one more for each that
is set. -/
theorem iterations_le {P : Watching → LoopStep → Prop} {xs : List LoopStep} {n : Nat}
    (h : (watching cv s loop).Run P t xs t') (hpos : t.position ≤ n)
    (hlength : t.watchpoints.length ≤ n) :
    t.position + xs.countP LoopStep.iterates ≤ n + xs.countP LoopStep.sets := by
  have hcount : ∀ b : Bool, (if b = true then 1 else 0) = b.toNat := by decide
  induction h generalizing n with
  | nil t => exact hpos
  | @cons t u t' x xs _ hstep _ ih =>
    have hcase := loop_cases hstep
    have hmove := hcase.position
    have hgrow := hcase.length
    have hrest := ih (hcase.position_le hpos hlength) (by omega)
    rw [List.countP_cons, List.countP_cons, hcount, hcount]
    omega

/-! ## The cursor -/

/-- A running loop has not gone past the end. -/
def Watching.InRange (t : Watching) : Prop := t.Running → t.loop.cursor ≤ t.watchpoints.length

/-- The loop goes on only while the list is longer than the cursor. -/
def Reaching (t : Watching) (x : LoopStep) : Prop :=
  x = .resume → t.loop.cursor < t.watchpoints.length

theorem LoopCase.inRange {x : LoopStep} (h : LoopCase t t' x) (hP : Reaching t x)
    (hr : t.InRange) : t'.InRange := by
  cases h with
  | hit w running at_cursor watched next =>
    subst next
    exact Simulation.noConfusion
  | pass w running at_cursor next =>
    subst next
    intro _
    exact (List.getElem?_eq_some_iff.mp at_cursor).1
  | request r paused table simulation loop reported =>
    intro hrunning
    rw [Watching.Running, simulation, paused] at hrunning
    exact Simulation.noConfusion hrunning
  | reply table simulation loop reported =>
    intro hrunning
    rw [Watching.Running, simulation] at hrunning
    rw [loop, show t'.watchpoints = t.watchpoints from congrArg WatchTable.list table]
    exact hr hrunning
  | resume paused next =>
    subst next
    intro _
    exact hP rfl

/-- A loop that goes on without the condition is past the end, with nothing to iterate on. -/
theorem overruns (h : (watching cv s loop).step t .resume = some t') (hP : ¬ Reaching t .resume) :
    ¬ t'.InRange ∧ (watching cv s loop).step t' .iterate = none := by
  have hpast : t.watchpoints.length ≤ t.loop.cursor := by
    by_contra hlt
    exact hP fun _ => Nat.lt_of_not_le hlt
  cases loop_cases h with
  | resume paused next =>
    subst next
    refine ⟨fun hr => ?_, ?_⟩
    · have hle : t.loop.cursor + 1 ≤ t.watchpoints.length := hr rfl
      omega
    · have hnone : t.advance.watchpoints[t.advance.loop.cursor]? = none :=
        List.getElem?_eq_none (Nat.le_succ_of_le hpast)
      simp only [watching, hnone, Option.map_none, ite_self]

theorem step_iterate (hrunning : t.Running) (hlt : t.loop.cursor < t.watchpoints.length) :
    (watching cv s loop).step t .iterate = some (t.body t.watchpoints[t.loop.cursor]) := by
  simp only [watching, if_pos hrunning, List.getElem?_eq_getElem hlt, Option.map_some]

/-- A running loop in range is at the end of the list or has a next iteration. -/
theorem goes_on (hr : t.InRange) (hrunning : t.Running) :
    t.loop.cursor = t.watchpoints.length ∨ ∃ t', (watching cv s loop).step t .iterate = some t' := by
  rcases Nat.lt_or_eq_of_le (hr hrunning) with hlt | heq
  · exact .inr ⟨_, step_iterate hrunning hlt⟩
  · exact .inl heq

/-! ## Reports -/

def WatchTable.ids (t : WatchTable) : List Int := t.list.map Watchpoint.id

/-- The identifiers are distinct, and smaller than the next one. -/
structure WatchTable.Distinct (t : WatchTable) : Prop where
  nodup : t.ids.Nodup
  below : ∀ k ∈ t.ids, k < t.next_id

theorem WatchTable.Valid.distinct {t : WatchTable} (h : t.Valid) : t.Distinct where
  nodup := List.pairwise_map.mpr (h.ordered.imp Int.ne_of_lt)
  below k hk := by
    obtain ⟨w, hw, rfl⟩ := List.mem_map.mp hk
    exact (h.range w hw).2

theorem distinct_of_reachable (h : (session cv cp).Reachable s) :
    s.data_manager.watchTable.Distinct := (reachable_watch_valid h).distinct

/-- An edit removes identifiers, or adds the next one at the end. -/
theorem WatchEdit.ids {t t' : WatchTable} (h : WatchEdit t t') :
    t'.ids.Sublist t.ids ∧ t.next_id ≤ t'.next_id ∨
      t'.ids = t.ids ++ [t.next_id] ∧ t'.next_id = t.next_id + 1 := by
  cases h with
  | keep => exact .inl ⟨.refl _, le_rfl⟩
  | @set l n wp hid =>
    simp only [WatchTable.ids, insertWatch]
    split
    · exact .inl ⟨.refl _, Int.le_add_one le_rfl⟩
    · right
      rw [List.map_append, List.map_singleton, hid]
      exact ⟨rfl, trivial⟩
  | remove id => exact .inl ⟨removeFirst_sublist.map Watchpoint.id, le_rfl⟩
  | @disable l n id disabled =>
    have hids : (updateFirst Watchpoint.id id (fun w => { w with disabled }) l).map Watchpoint.id =
        l.map Watchpoint.id := map_updateFirst Watchpoint.id fun _ => rfl
    left
    rw [WatchTable.ids, WatchTable.ids, hids]
    exact ⟨.refl _, le_rfl⟩

theorem WatchTable.Distinct.edit {t t' : WatchTable} (h : t.Distinct) (he : WatchEdit t t') :
    t'.Distinct := by
  rcases he.ids with ⟨hsub, hnext⟩ | ⟨hids, hnext⟩
  · refine ⟨h.nodup.sublist hsub, ?_⟩
    intro k hk
    exact (h.below k (hsub.subset hk)).trans_le hnext
  · refine ⟨?_, ?_⟩
    · rw [hids]
      refine List.Nodup.append h.nodup (List.nodup_singleton _) ?_
      intro k hk hnew
      exact absurd (h.below k hk) (List.mem_singleton.mp hnew ▸ lt_irrefl _)
    · intro k hk
      rw [hids, List.mem_append, List.mem_singleton] at hk
      rw [hnext]
      rcases hk with hk | rfl
      · exact (h.below k hk).trans (Int.lt_succ _)
      · exact Int.lt_succ _

namespace Watching

abbrev table (t : Watching) : WatchTable := t.session.data_manager.watchTable

/-- What has been reported is not at the position of the loop or behind it. -/
structure Once (t : Watching) : Prop where
  distinct : t.table.Distinct
  nodup : t.reported.Nodup
  below : ∀ k ∈ t.reported, k < t.table.next_id
  passed : ∀ k ∈ t.reported, k ∉ t.table.ids.drop t.position

/-- Edits move nothing to the back, and a new watchpoint has a new identifier. -/
theorem Once.edit (h : t.Once) (he : WatchEdit t.table t'.table)
    (hpos : t'.position = t.position) (hreported : t'.reported = t.reported) : t'.Once where
  distinct := h.distinct.edit he
  nodup := hreported ▸ h.nodup
  below k hk := by
    rw [hreported] at hk
    rcases he.ids with ⟨-, hnext⟩ | ⟨-, hnext⟩
    · exact (h.below k hk).trans_le hnext
    · rw [hnext]
      exact (h.below k hk).trans (Int.lt_succ _)
  passed k hk := by
    rw [hreported] at hk
    rw [hpos]
    rcases he.ids with ⟨hsub, -⟩ | ⟨hids, -⟩
    · intro hmem
      exact h.passed k hk ((hsub.drop _).subset hmem)
    · rw [hids]
      intro hmem
      rw [List.drop_append, List.mem_append] at hmem
      rcases hmem with hmem | hmem
      · exact h.passed k hk hmem
      · have hnew := List.mem_singleton.mp (List.mem_of_mem_drop hmem)
        exact absurd (h.below k hk) (hnew ▸ lt_irrefl _)

/-- Nothing is reported by passing a watchpoint. -/
theorem Once.move (h : t.Once) (htable : t'.table = t.table) (hpos : t.position ≤ t'.position)
    (hreported : t'.reported = t.reported) : t'.Once where
  distinct := htable ▸ h.distinct
  nodup := hreported ▸ h.nodup
  below := by
    rw [hreported, htable]
    exact h.below
  passed k hk := by
    rw [hreported] at hk
    rw [htable]
    intro hmem
    exact h.passed k hk ((List.drop_sublist_drop_left _ hpos).subset hmem)

/-- The watchpoint at the position is not reported yet, and is behind the position then. -/
theorem Once.report {w : Watchpoint} (h : t.Once) (hrunning : t.Running)
    (hw : t.watchpoints[t.loop.cursor]? = some w) (htable : t'.table = t.table)
    (hpos : t'.position = t.position + 1) (hreported : t'.reported = t.reported ++ [w.id]) :
    t'.Once := by
  have hid : t.table.ids[t.position]? = some w.id := by
    rw [position_of_running hrunning, WatchTable.ids, List.getElem?_map]
    exact congrArg (Option.map Watchpoint.id) hw
  obtain ⟨hlt, hget⟩ := List.getElem?_eq_some_iff.mp hid
  have hdrop : t.table.ids.drop t.position = w.id :: t.table.ids.drop (t.position + 1) := by
    rw [List.drop_eq_getElem_cons hlt, hget]
  have hmem : w.id ∈ t.table.ids := List.mem_of_getElem? hid
  have hnew : w.id ∉ t.reported := by
    intro hk
    exact h.passed _ hk (hdrop ▸ List.mem_cons_self)
  have hnodup := h.distinct.nodup.sublist (List.drop_sublist t.position _)
  rw [hdrop] at hnodup
  refine ⟨htable ▸ h.distinct, ?_, ?_, ?_⟩
  · rw [hreported]
    refine List.Nodup.append h.nodup (List.nodup_singleton _) ?_
    intro k hk hw'
    exact hnew (List.mem_singleton.mp hw' ▸ hk)
  · intro k hk
    rw [hreported, List.mem_append, List.mem_singleton] at hk
    rw [htable]
    rcases hk with hk | rfl
    · exact h.below k hk
    · exact h.distinct.below _ hmem
  · intro k hk
    rw [hreported, List.mem_append, List.mem_singleton] at hk
    rw [htable, hpos]
    rcases hk with hk | rfl
    · intro hmem'
      exact h.passed k hk (hdrop ▸ List.mem_cons_of_mem _ hmem')
    · exact (List.nodup_cons.mp hnodup).1

end Watching

theorem LoopCase.once {x : LoopStep} (h : LoopCase t t' x) (ht : t.Once) : t'.Once := by
  have hpos := h.position
  cases h with
  | hit w running at_cursor watched next =>
    subst next
    exact ht.report running at_cursor rfl hpos rfl
  | pass w running at_cursor next =>
    subst next
    exact ht.move rfl (hpos.ge.trans' (Nat.le_add_right _ _)) rfl
  | request r paused table simulation loop reported => exact ht.edit table.edit hpos reported
  | reply table simulation loop reported => exact ht.move table hpos.ge reported
  | resume paused next =>
    subst next
    exact ht.move rfl hpos.ge rfl

/-- **The cursor over the watchpoints.** When the list is longer than the cursor whenever the
loop goes on, the loop never goes past the end of the list: it is at the end or has a next
iteration, it ends, and it reports no watchpoint twice. -/
theorem cursor_in_range {xs : List LoopStep} (hs : s.shared.simulation = .running)
    (h : (watching cv s loop).Run Reaching (watching cv s loop).init xs t) :
    t.InRange ∧
    (t.Running → t.loop.cursor = t.watchpoints.length ∨
      ∃ t', (watching cv s loop).step t .iterate = some t') ∧
    xs.countP LoopStep.iterates ≤
      s.data_manager.watchpoint_list.length + xs.countP LoopStep.sets ∧
    (s.data_manager.watchTable.Distinct → t.reported.Nodup) := by
  have hpos : (watching cv s loop).init.position = 0 := Watching.position_of_running hs
  have hr : t.InRange := by
    refine h.invariant (I := Watching.InRange) ?_ (fun _ => Nat.zero_le _)
    intro u x u' hu hP hstep
    exact (loop_cases hstep).inRange hP hu
  refine ⟨hr, goes_on hr, ?_, ?_⟩
  · have hle := iterations_le h (n := s.data_manager.watchpoint_list.length)
      (hpos ▸ Nat.zero_le _) le_rfl
    rwa [hpos, Nat.zero_add] at hle
  · intro hdistinct
    refine (h.invariant (I := Watching.Once) ?_ ⟨hdistinct, List.nodup_nil, ?_, ?_⟩).nodup
    · intro u x u' hu _ hstep
      exact (loop_cases hstep).once hu
    · intro k hk
      cases hk
    · intro k hk
      cases hk

/-- A session with a watchpoint on the counter `c`, which is updated. -/
def watched : List Step :=
  [.request (.SetWatchpoint "c" ""), .request (.Run none), .start,
    .event (.counter_added "c" 0)]

/-- The stop at the first watchpoint, and requests that take its turn. -/
def stopAndServe (rs : List Request) : List LoopStep :=
  [.iterate, .reply] ++ rs.map .request ++ [.request (.Continue none)]

/-- The loop that begins in the session `watched`, with what `f` shows of its end. -/
def showWatched {α : Type} (xs : List LoopStep) (f : Watching → α) :
    Option (Simulation × α) :=
  ((session decimal none).replay (session decimal none).init watched).bind fun s =>
    ((watching decimal s ⟨0, "c", 0, 5⟩).replay (watching decimal s ⟨0, "c", 0, 5⟩).init xs).map
      fun t => (s.shared.simulation, f t)

theorem showWatched_eq {α : Type} {xs : List LoopStep} {f : Watching → α} {p : Simulation} {a : α}
    (h : showWatched xs f = some (p, a)) : ∃ s t, (session decimal none).Reachable s ∧
      s.shared.simulation = p ∧ (watching decimal s ⟨0, "c", 0, 5⟩).replay
        (watching decimal s ⟨0, "c", 0, 5⟩).init xs = some t ∧ f t = a := by
  obtain ⟨s, hs, h⟩ := Option.bind_eq_some_iff.mp h
  obtain ⟨t, ht, h⟩ := Option.map_eq_some_iff.mp h
  obtain ⟨hp, ha⟩ := Prod.mk.inj h
  exact ⟨s, t, System.reachable_of_replay hs, hp, ht, ha⟩

/-- The watchpoint that was hit is replaced, and the loop reports the new one too. -/
theorem cursor_in_range_replaced : ∃ (s : Session) (xs : List LoopStep) (t : Watching),
    (session decimal none).Reachable s ∧ t.reported = [0, 2] ∧
      (t.InRange ∧
        (t.Running → t.loop.cursor = t.watchpoints.length ∨
          ∃ t', (watching decimal s ⟨0, "c", 0, 5⟩).step t .iterate = some t') ∧
        xs.countP LoopStep.iterates ≤
          s.data_manager.watchpoint_list.length + xs.countP LoopStep.sets ∧
        t.reported.Nodup) := by
  have hshow : showWatched (stopAndServe [.RemoveWatchpoint "0", .SetWatchpoint "d" "",
      .SetWatchpoint "c" ""]) (fun t => (decide (t.loop.cursor < t.watchpoints.length),
        ((watching decimal t.session t.loop).replay t [.resume, .iterate]).map (·.reported))) =
          some (.running, true, some [0, 2]) := by
    decide +kernel
  obtain ⟨s, t, hs, hrunning, ht, hend⟩ := showWatched_eq hshow
  obtain ⟨hlt, hrest⟩ := Prod.mk.inj hend
  obtain ⟨u, hu, hreported⟩ := Option.map_eq_some_iff.mp hrest
  obtain ⟨v, hv, hu⟩ := Option.bind_eq_some_iff.mp hu
  have hfront := System.Run.of_replay (P := Reaching) (fun t x hx hresume => by
    simp [hresume, stopAndServe] at hx) ht
  have hresume : (watching decimal s ⟨0, "c", 0, 5⟩).step t .resume = some v := hv
  have hback : (watching decimal s ⟨0, "c", 0, 5⟩).Run Reaching v [.iterate] u :=
    .of_replay (fun _ x hx hresume => by simp [hresume] at hx) hu
  obtain ⟨hrange, hnext, hcount, hnodup⟩ := cursor_in_range hrunning
    (hfront.append (.cons (fun _ => of_decide_eq_true hlt) hresume hback))
  exact ⟨s, _, u, hs, hreported, hrange, hnext, hcount, hnodup (distinct_of_reachable hs)⟩

/-- The watchpoint that was hit is removed, and the loop goes on behind the end. -/
theorem cursor_past_end : ¬ ∀ (cv : Conversions) (cp : Option CPDebuggerInterface) (s : Session)
    (loop : WatchLoop) (xs : List LoopStep) (t : Watching), (session cv cp).Reachable s →
      s.shared.simulation = .running →
      (watching cv s loop).replay (watching cv s loop).init xs = some t → t.InRange := by
  intro h
  have hshow : showWatched (stopAndServe [.RemoveWatchpoint "0"]) (fun t =>
      (decide (t.loop.cursor < t.watchpoints.length),
        ((watching decimal t.session t.loop).step t .resume).isSome)) =
          some (.running, false, true) := by
    decide +kernel
  obtain ⟨s, t, hs, hrunning, ht, hend⟩ := showWatched_eq hshow
  obtain ⟨hlt, hresume⟩ := Prod.mk.inj hend
  obtain ⟨t', ht'⟩ := Option.isSome_iff_exists.mp hresume
  have hlate : ¬ Reaching t .resume := fun hreach => of_decide_eq_false hlt (hreach rfl)
  have hstep : (watching decimal s ⟨0, "c", 0, 5⟩).step t .resume = some t' := ht'
  have hrun : (watching decimal s ⟨0, "c", 0, 5⟩).replay (watching decimal s ⟨0, "c", 0, 5⟩).init
      (stopAndServe [.RemoveWatchpoint "0"] ++ [.resume]) = some t' := by
    rw [System.replay_append, ht, Option.bind_some, System.replay, hstep]
    rfl
  exact (overruns hstep hlate).1 (h decimal none s ⟨0, "c", 0, 5⟩ _ t' hs hrunning hrun)

/-! ## The loop of the session -/

/-- The iterations up to a pause or to the end of the list are `watchLoop`. -/
theorem iterates_watchLoop (hrunning : t.Running) (hr : t.InRange) : ∃ n t',
    (watching cv s loop).replay t (List.replicate n .iterate) = some t' ∧
      t'.session.shared = watchLoop t.loop.counter_name t.loop.old_value t.loop.new_value
        t.session.shared t.loop.cursor (t.watchpoints.drop t.loop.cursor) := by
  generalize hk : t.watchpoints.length - t.loop.cursor = k
  induction k generalizing t with
  | zero =>
    refine ⟨0, t, rfl, ?_⟩
    rw [List.drop_of_length_le (Nat.le_of_sub_eq_zero hk)]
    rfl
  | succ k ih =>
    have hlt : t.loop.cursor < t.watchpoints.length := by omega
    have hstep : (watching cv s loop).step t .iterate =
        some (t.body t.watchpoints[t.loop.cursor]) := step_iterate hrunning hlt
    rw [List.drop_eq_getElem_cons hlt, watchLoop]
    by_cases hwatched : t.loop.counter_name = t.watchpoints[t.loop.cursor].counter_name ∧
        t.watchpoints[t.loop.cursor].disabled = false
    · rw [Watching.body, if_pos hwatched] at hstep
      rw [if_pos hwatched]
      refine ⟨1, _, Option.bind_eq_some_iff.mpr ⟨_, hstep, rfl⟩, rfl⟩
    · rw [Watching.body, if_neg hwatched] at hstep
      rw [if_neg hwatched]
      obtain ⟨n, t', hreplay, hshared⟩ := ih
        (t := { t with loop := { t.loop with cursor := t.loop.cursor + 1 } }) hrunning
        (fun _ => hlt) (show t.watchpoints.length - (t.loop.cursor + 1) = k by omega)
      exact ⟨n + 1, t', Option.bind_eq_some_iff.mpr ⟨_, hstep, hreplay⟩, hshared⟩

/-- Behind a pause that the loop leaves in range, they are `resume`. -/
theorem iterates_resume (h : (watching cv s loop).step t .resume = some t')
    (hP : Reaching t .resume) : ∃ n u,
    (watching cv s loop).replay t' (List.replicate n .iterate) = some u ∧
      u.session.shared = resume (some t.loop) t.session.shared := by
  cases loop_cases h with
  | resume paused next =>
    subst next
    exact iterates_watchLoop (t := t.advance) rfl fun _ => hP rfl

end Pfp.Db
