import PFPSim.Debugger.Changes
import PFPSim.Maps.Enumeration
import PFPSim.Modules.Counters
import Mathlib.Logic.Function.Basic

/-!
# What the debugger knows of the counters

The counters of the debugger as a function, and what each notification tells it
(`Notification.tell`). `drain` is the knowledge when all queued events have been taken.
-/

namespace Pfp.Core

open Db Runs Function

/-- The value that the debugger has for each counter. -/
abbrev Knowledge := String → Option Int

/-- What a notification tells; `none` when it throws. -/
def Notification.tell : Notification → Knowledge → Option Knowledge
  | .counter_added name, k => some (update k name (some ((k name).getD 0)))
  | .counter_changed name value, k =>
    if (k name).isSome then some (update k name (some (int32 value.toNat))) else none
  | .counter_removed name, k => some (update k name none)

variable {M : Type}

/-- The knowledge when all queued events have been taken. -/
def drain : List (QueuedEvent M) → Knowledge → Option Knowledge
  | [], k => some k
  | e :: es, k => (e.notification.tell k).bind (drain es)

theorem drain_append (es es' : List (QueuedEvent M)) (k : Knowledge) :
    drain (es ++ es') k = (drain es k).bind (drain es') := by
  induction es generalizing k with
  | nil => rfl
  | cons e es ih =>
    simp only [List.cons_append, drain, Option.bind_assoc]
    exact congrArg _ (funext ih)

/-! ## The queue and one counter -/

/-- No event tells that the counter has been removed. -/
def Stays (name : String) (es : List (QueuedEvent M)) : Prop :=
  ∀ e ∈ es, e.notification ≠ .counter_removed name

theorem Notification.tell_isSome {n : Notification} {name : String} {k k' : Knowledge}
    (hn : n ≠ .counter_removed name) (h : n.tell k = some k') (hk : (k name).isSome) :
    (k' name).isSome := by
  cases n with
  | counter_added other =>
    cases h
    by_cases ho : name = other
    · rw [ho, update_self]
      rfl
    · rwa [update_of_ne ho]
  | counter_changed other value =>
    simp only [tell, Option.ite_none_right_eq_some, Option.some.injEq] at h
    rw [← h.2]
    by_cases ho : name = other
    · rw [ho, update_self]
      rfl
    · rwa [update_of_ne ho]
  | counter_removed other =>
    cases h
    rwa [update_of_ne fun ho => hn (congrArg _ ho.symm)]

/-- Without its removal a counter stays known. -/
theorem drain_isSome {es : List (QueuedEvent M)} {name : String} {k r : Knowledge}
    (hstays : Stays name es) (h : drain es k = some r) (hk : (k name).isSome) :
    (r name).isSome := by
  induction es generalizing k with
  | nil =>
    cases h
    exact hk
  | cons e es ih =>
    obtain ⟨he, hes⟩ := List.forall_mem_cons.mp hstays
    obtain ⟨k', hk', h⟩ := Option.bind_eq_some_iff.mp h
    exact ih hes h (Notification.tell_isSome he hk' hk)

/-- A notification of other counters commutes with an update. -/
theorem Notification.tell_update {n : Notification} {name : String} {k k' : Knowledge}
    (hn : n.counter_name ≠ name) (h : n.tell k = some k') (d : Option Int) :
    n.tell (update k name d) = some (update k' name d) := by
  cases n with
  | counter_added other =>
    have hother : other ≠ name := hn
    cases h
    rw [tell, update_of_ne hother, update_comm hother.symm]
  | counter_changed other value =>
    have hother : other ≠ name := hn
    simp only [tell, Option.ite_none_right_eq_some, Option.some.injEq] at h
    obtain ⟨hknown, rfl⟩ := h
    rw [tell, update_of_ne hother, if_pos hknown, update_comm hother.symm]
  | counter_removed other =>
    have hother : other ≠ name := hn
    cases h
    rw [tell, update_comm hother.symm]

/-- A notification that is no removal leaves its counter known. -/
theorem Notification.tell_counter_name {n : Notification} {k k' : Knowledge}
    (hn : n ≠ .counter_removed n.counter_name) (h : n.tell k = some k') :
    (k' n.counter_name).isSome := by
  cases n with
  | counter_added name =>
    cases h
    rw [counter_name, update_self]
    rfl
  | counter_changed name value =>
    simp only [tell, Option.ite_none_right_eq_some, Option.some.injEq] at h
    rw [← h.2, counter_name, update_self]
    rfl
  | counter_removed name => exact absurd rfl hn

/-- A counter that is not known behind the queue, and whose removal is not queued, is not in
the queue: what the debugger is told of it now, it knows then. -/
theorem drain_update {es : List (QueuedEvent M)} {name : String} {k r : Knowledge}
    (hstays : Stays name es) (h : drain es k = some r) (hr : r name = none) (d : Int) :
    drain es (update k name (some d)) = some (update r name (some d)) := by
  induction es generalizing k with
  | nil =>
    cases h
    rfl
  | cons e es ih =>
    obtain ⟨he, hes⟩ := List.forall_mem_cons.mp hstays
    obtain ⟨k', hk', h⟩ := Option.bind_eq_some_iff.mp h
    have hname : e.notification.counter_name ≠ name := by
      rintro rfl
      have hsome := drain_isSome hes h (Notification.tell_counter_name he hk')
      rw [hr] at hsome
      cases hsome
    rw [drain, Notification.tell_update hname hk', Option.bind_some]
    exact ih hes h

/-! ## The debugger -/

/-- What the debugger knows. -/
def known (s : Shared) : Knowledge := fun name => s.data_manager.counters[name]?

theorem getCounterValue_eq (s : Shared) (name : String) :
    s.data_manager.getCounterValue name = (known s name).getD (-1) := rfl

theorem known_updateSimulationTime (s : Shared) (time : ℚ) :
    known (s.updateSimulationTime time) = known s := by
  unfold known
  rw [Shared.updateSimulationTime_data_manager]

theorem known_counter_added (name : String) (time : ℚ) (s : Shared) :
    known (counter_added name time s) = update (known s) name (some ((known s name).getD 0)) := by
  rw [counter_added, known_updateSimulationTime]
  funext other
  simp only [known, DebugDataManager.addCounter, Maps.get_insertIfNew, update_apply,
    @eq_comm _ other]

theorem known_counter_removed (name : String) (time : ℚ) (s : Shared) :
    known (counter_removed name time s) = update (known s) name none := by
  rw [counter_removed, known_updateSimulationTime]
  funext other
  simp only [known, DebugDataManager.removeCounter, Maps.get_erase, update_apply, @eq_comm _ other]

/-- The state in which an update of a counter goes through the watchpoints. -/
def recorded (s : Shared) (name : String) (new_value : UInt64) (time : ℚ) : Shared :=
  let trace_id := s.data_manager.getCounterTraceId name
  Shared.updateSimulationTime { s with
    data_manager := { s.data_manager with
      counters := s.data_manager.counters.insert name (int32 new_value.toNat) }
    published :=
      (if trace_id ≥ 0 then s.updateTrace trace_id new_value.toNat else s).published } time

variable (s : Shared) (name : String) (new_value : UInt64) (time : ℚ)

/-- An update of a counter that is not known throws; of another it is recorded, and then goes
through the watchpoints. -/
theorem counter_updated_eq_match : counter_updated name new_value time s =
    match known s name with
    | none => .error .no_counter
    | some value => .ok (watchLoop name (if value = -1 then 0 else value) (int32 new_value.toNat)
        (recorded s name new_value time) 0
        (recorded s name new_value time).data_manager.watchpoint_list) := by
  have htrace : (if s.data_manager.getCounterTraceId name ≥ 0 then
      s.updateTrace (s.data_manager.getCounterTraceId name) new_value.toNat else s) = { s with
        published := (if s.data_manager.getCounterTraceId name ≥ 0 then
          s.updateTrace (s.data_manager.getCounterTraceId name) new_value.toNat
          else s).published } := by
    split <;> rfl
  unfold counter_updated
  simp only
  rw [htrace]
  cases hname : known s name with
  | none =>
    have hcounter : s.data_manager.counters[name]? = none := hname
    have hupdate : s.data_manager.updateCounter name (int32 new_value.toNat) = none :=
      if_neg (by rw [hcounter]; exact Bool.false_ne_true)
    rw [hupdate]
    rfl
  | some value =>
    have hcounter : s.data_manager.counters[name]? = some value := hname
    have hupdate : s.data_manager.updateCounter name (int32 new_value.toNat) = some
        { s.data_manager with
          counters := s.data_manager.counters.insert name (int32 new_value.toNat) } :=
      if_pos (Option.isSome_iff_exists.mpr ⟨value, hcounter⟩)
    rw [hupdate, DebugDataManager.getCounterValue, hcounter]
    rfl

theorem recorded_data_manager : (recorded s name new_value time).data_manager =
    { s.data_manager with
      counters := s.data_manager.counters.insert name (int32 new_value.toNat)
      simulation_time := (recorded s name new_value time).data_manager.simulation_time } :=
  Shared.updateSimulationTime_data_manager ..

theorem known_recorded : known (recorded s name new_value time) =
    update (known s) name (some (int32 new_value.toNat)) := by
  funext other
  rw [known, recorded_data_manager]
  exact (Maps.get_insert ..).trans (by simp only [update_apply, @eq_comm _ other]; rfl)

theorem known_resume (loop : Option WatchLoop) : known (resume loop s) = known s := by
  unfold known
  rw [resume_data_manager]

/-! ## Watchpoints -/

/-- The stop of the loop over the watchpoints: the id of the first enabled one on the counter,
and the rest of the loop behind it. -/
def firstHit (counter_name : String) (old_value new_value : Int) (cursor : Nat) :
    List Watchpoint → Option (Int × WatchLoop)
  | [] => none
  | w :: rest =>
    if counter_name = w.counter_name ∧ w.disabled = false then
      some (w.id, ⟨cursor, counter_name, old_value, new_value⟩)
    else firstHit counter_name old_value new_value (cursor + 1) rest

def hitMessage (id : Int) (loop : WatchLoop) : DebuggerMessage :=
  .WatchpointHit id loop.counter_name loop.old_value loop.new_value

/-- The state is left running, or stopped with a message. -/
def stopAt (s : Shared) : Option (Int × WatchLoop) → Shared
  | none => s
  | some (id, loop) => ((s.setReplyMessage (hitMessage id loop)).notifyServer).pause (some loop)

theorem watchLoop_eq_stopAt (old_value new_value : Int) (cursor : Nat) (ws : List Watchpoint) :
    watchLoop name old_value new_value s cursor ws =
      stopAt s (firstHit name old_value new_value cursor ws) := by
  induction ws generalizing cursor with
  | nil => rfl
  | cons w ws ih =>
    unfold watchLoop firstHit
    split
    · rfl
    · exact ih _

theorem firstHit_counter_name {old_value new_value : Int} {cursor : Nat} {ws : List Watchpoint}
    {id : Int} {loop : WatchLoop}
    (h : firstHit name old_value new_value cursor ws = some (id, loop)) :
    loop.counter_name = name := by
  induction ws generalizing cursor with
  | nil => cases h
  | cons w ws ih =>
    unfold firstHit at h
    split at h
    · cases h
      rfl
    · exact ih h

@[simp] theorem stopAt_data_manager (o : Option (Int × WatchLoop)) :
    (stopAt s o).data_manager = s.data_manager := by
  cases o <;> rfl

theorem known_stopAt (o : Option (Int × WatchLoop)) : known (stopAt s o) = known s := by
  unfold known
  rw [stopAt_data_manager]

/-! ## Notifications -/

/-- What a notification changes before the watchpoints are looked at. -/
def Notification.record : Notification → ℚ → Shared → Shared
  | .counter_added name, time, s => Db.counter_added name time s
  | .counter_changed name value, time, s => recorded s name value time
  | .counter_removed name, time, s => Db.counter_removed name time s

/-- Where a notification stops, from what is known of its counter. -/
def Notification.hit : Notification → Option Int → List Watchpoint → Option (Int × WatchLoop)
  | .counter_changed name value, some old, ws =>
    firstHit name (if old = -1 then 0 else old) (int32 value.toNat) 0 ws
  | _, _, _ => none

variable {s time} {n : Notification} {k : Knowledge}

theorem Notification.hit_counter_name {old : Option Int} {ws : List Watchpoint} {id : Int}
    {loop : WatchLoop} (h : n.hit old ws = some (id, loop)) :
    loop.counter_name = n.counter_name := by
  unfold hit at h
  split at h
  · exact firstHit_counter_name _ h
  · cases h

theorem known_record (h : n.tell (known s) = some k) : known (n.record time s) = k := by
  cases n with
  | counter_added name =>
    cases h
    exact known_counter_added name time s
  | counter_changed name value =>
    simp only [Notification.tell, Option.ite_none_right_eq_some, Option.some.injEq] at h
    rw [← h.2]
    exact known_recorded s name value time
  | counter_removed name =>
    cases h
    exact known_counter_removed name time s

theorem record_watchpoint_list (n : Notification) (time : ℚ) (s : Shared) :
    (n.record time s).data_manager.watchpoint_list = s.data_manager.watchpoint_list := by
  cases n with
  | counter_added name =>
    rw [Notification.record, counter_added, Shared.updateSimulationTime_data_manager]
    rfl
  | counter_changed name value => rw [Notification.record, recorded_data_manager]
  | counter_removed name =>
    rw [Notification.record, counter_removed, Shared.updateSimulationTime_data_manager]
    rfl

theorem updateSimulationTime_simulation (s : Shared) (time : ℚ) :
    (s.updateSimulationTime time).simulation = s.simulation := by
  unfold Shared.updateSimulationTime
  split <;> rfl

theorem record_simulation (n : Notification) (time : ℚ) (s : Shared) :
    (n.record time s).simulation = s.simulation := by
  cases n with
  | counter_added name => exact updateSimulationTime_simulation ..
  | counter_changed name value => exact updateSimulationTime_simulation ..
  | counter_removed name => exact updateSimulationTime_simulation ..

/-- A notification throws when it tells nothing, and else is recorded, with a stop. -/
theorem notify_eq (n : Notification) (time : ℚ) (s : Shared) : n.notify time s =
    match n.tell (known s) with
    | none => .error .no_counter
    | some _ => .ok (stopAt (n.record time s)
        (n.hit (known s n.counter_name) s.data_manager.watchpoint_list)) := by
  cases n with
  | counter_added name => rfl
  | counter_changed name value =>
    have hws := record_watchpoint_list (.counter_changed name value) time s
    simp only [Notification.record] at hws
    simp only [Notification.tell, Notification.notify, counter_updated_eq_match,
      watchLoop_eq_stopAt, Notification.counter_name, hws]
    cases known s name with
    | none => rfl
    | some old => rfl
  | counter_removed name => rfl

/-- The debugger knows what a notification has told. -/
theorem tell_known (n : Notification) (time : ℚ) (s : Shared) :
    n.tell (known s) = (n.notify time s).toOption.map known := by
  rw [notify_eq]
  cases h : n.tell (known s) with
  | none => rfl
  | some k => exact congrArg some ((known_stopAt ..).trans (known_record h)).symm

end Pfp.Core
