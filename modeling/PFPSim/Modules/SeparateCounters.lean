import PFPSim.Modules.Knowledge

/-!
# Counters of different modules

Several modules with one observer, which files all counters by their names alone. A run is
compared with the run that leaves out the steps of one module: they stay related (`Alike`,
`InStep`) as long as the names that this module uses are used by no other (`Apart`).
-/

namespace Pfp.Core

open Db Runs Function

/-! ## Calls that send a notification -/

def CounterCall.counter_name : CounterCall → String
  | .add_counter name _ => name
  | .set_counter name _ => name
  | .remove_counter name => name
  | .increment_counter name => name
  | .increment_counter_by name _ => name
  | .decrement_counter name => name
  | .decrement_counter_by name _ => name

/-- What the call needs of the counters, to give `true`. -/
def CounterCall.Succeeds : CounterCall → Counters → Prop
  | .add_counter name _, counters_ => counters_[name]? = none
  | .set_counter name _, counters_ => (counters_[name]?).isSome
  | .remove_counter _, counters_ => counters_.num_counters ≠ 0
  | .increment_counter name, counters_ => (counters_[name]?).isSome
  | .increment_counter_by name _, counters_ => (counters_[name]?).isSome
  | .decrement_counter name, counters_ => ∃ value, counters_[name]? = some value ∧ value ≠ 0
  | .decrement_counter_by name _, counters_ => ∃ value, counters_[name]? = some value ∧ value ≠ 0

theorem CounterCall.succeeds_of_notification {c : CounterCall} {counters_ : Counters}
    {n : Notification} (h : (c.perform counters_).notification = some n) :
    c.Succeeds counters_ ∧ n.counter_name = c.counter_name := by
  have hchange : ∀ {name f}, (counters_.change_counter name f).notification = some n →
      n.counter_name = name ∧ ∃ old value, counters_[name]? = some old ∧ f old = some value := by
    intro name f h
    rcases counters_.change_counter_cases name f with hrefuse | ⟨old, value, hold, hf, hassign⟩
    · rw [hrefuse] at h
      cases h
    · rw [hassign] at h
      cases h
      exact ⟨rfl, old, value, hold, hf⟩
  have hdecrement : ∀ {old value : UInt64} {x : UInt64},
      (if old = 0 then none else some x) = some value → old ≠ 0 := by
    rintro old value x hvalue rfl
    cases hvalue
  cases c with
  | add_counter name value =>
    cases hname : counters_[name]? with
    | none =>
      rw [perform_add hname] at h
      cases h
      exact ⟨hname, rfl⟩
    | some old =>
      rw [perform, Counters.add_counter, hname] at h
      cases h
  | set_counter name value =>
    rw [perform, Counters.set_counter] at h
    split at h
    · cases h
    · obtain ⟨hname, old, -, hold, -⟩ := hchange h
      exact ⟨Option.isSome_iff_exists.mpr ⟨old, hold⟩, hname⟩
  | remove_counter name =>
    rw [perform, Counters.remove_counter] at h
    split at h
    · cases h
    · rename_i hsize
      cases h
      exact ⟨hsize, rfl⟩
  | increment_counter name =>
    obtain ⟨hname, old, -, hold, -⟩ := hchange h
    exact ⟨Option.isSome_iff_exists.mpr ⟨old, hold⟩, hname⟩
  | increment_counter_by name amount =>
    obtain ⟨hname, old, -, hold, -⟩ := hchange h
    exact ⟨Option.isSome_iff_exists.mpr ⟨old, hold⟩, hname⟩
  | decrement_counter name =>
    obtain ⟨hname, old, value, hold, hvalue⟩ := hchange h
    exact ⟨⟨old, hold, hdecrement hvalue⟩, hname⟩
  | decrement_counter_by name amount =>
    obtain ⟨hname, old, value, hold, hvalue⟩ := hchange h
    exact ⟨⟨old, hold, hdecrement hvalue⟩, hname⟩

/-! ## Runs with and without a module -/

variable {M : Type} [DecidableEq M] {A m : M} {ofA : String → Bool} {w w' v : World M}
  {s₀ t t' : Shared} {time : ℚ}

/-- A counter that a call has changed has a name of `A` exactly if the call is one of `A`. -/
def Apart (A : M) (ofA : String → Bool) (w : World M) : WorldStep M → Prop
  | .call m c _ => c.Succeeds (w.counters m) → (ofA c.counter_name = true ↔ m = A)
  | _ => True

/-- The message of a stop at a counter that is not of `A`. -/
def elsewhere (ofA : String → Bool) : DebuggerMessage → Bool
  | .WatchpointHit _ name _ _ => !ofA name
  | _ => true

/-- The stops at counters that are not of `A`. -/
def World.hits (ofA : String → Bool) (w : World M) : List DebuggerMessage :=
  w.stops.filter (elsewhere ofA)

/-- `v` is `w` without what `A` has done. -/
structure Alike (A : M) (ofA : String → Bool) (w v : World M) : Prop where
  counters : ∀ m, m ≠ A → v.counters m = w.counters m
  owned : ∀ m, m ≠ A → ∀ name, name ∈ w.counters m → ofA name = false
  events : v.events_ = w.events_.filter fun e => e.module ≠ A
  names : ∀ e ∈ w.events_, (ofA e.notification.counter_name = true ↔ e.module = A)
  knowledge : ∀ name, ofA name = false → known v.debugger name = known w.debugger name
  watchpoints :
    v.debugger.data_manager.watchpoint_list = w.debugger.data_manager.watchpoint_list
  hits : v.hits ofA = w.hits ofA

/-- The simulation goes on in both, or is stopped in both by the same event, or in `w` alone
by an event of `A`. A stop that no event has brought about lasts. -/
inductive InStep (A : M) (ofA : String → Bool) (w v : World M) : Prop
  | running (hw : w.debugger.simulation = .running) (hv : v.debugger.simulation = .running)
  | both (m : M) (loop : Option WatchLoop) (hm : m ≠ A)
      (hw : w.debugger.simulation = .paused loop) (hv : v.debugger.simulation = .paused loop)
      (hwtaken : w.taken = some m) (hvtaken : v.taken = some m)
      (hloop : ∀ l, loop = some l → ofA l.counter_name = false)
  | alone (loop : Option WatchLoop) (hw : w.debugger.simulation = .paused loop)
      (hv : v.debugger.simulation = .running) (htaken : w.taken = some A)
      (hloop : ∀ l, loop = some l → ofA l.counter_name = true)
  | stuck (hw : w.debugger.simulation ≠ .running) (htaken : w.taken = none)

/-! ### Stops -/

omit [DecidableEq M] in
theorem observed_of_running (w : World M) (ht : t.simulation = .running) :
    w.observed t = { w with debugger := t } := by
  rw [World.observed, ht]

omit [DecidableEq M] in
theorem hits_observed (w : World M) (t : Shared) (id : Int) (l : WatchLoop) :
    (w.observed (stopAt t (some (id, l)))).hits ofA =
      w.hits ofA ++ [hitMessage id l].filter (elsewhere ofA) :=
  List.filter_append ..

/-- An event that is not of `A` stops both or none. -/
theorem Alike.observed {o : Option (Int × WatchLoop)}
    (h : Alike A ofA { w with debugger := t } { v with debugger := t' })
    (ht : t.simulation = .running) (ht' : t'.simulation = .running) (hm : m ≠ A)
    (hw : w.taken = some m) (hv : v.taken = some m)
    (ho : ∀ id l, o = some (id, l) → ofA l.counter_name = false) :
    Alike A ofA (w.observed (stopAt t o)) (v.observed (stopAt t' o)) ∧
      InStep A ofA (w.observed (stopAt t o)) (v.observed (stopAt t' o)) := by
  cases o with
  | none =>
    rw [stopAt, stopAt, observed_of_running w ht, observed_of_running v ht']
    exact ⟨h, .running ht ht'⟩
  | some p =>
    obtain ⟨id, l⟩ := p
    refine ⟨⟨h.counters, h.owned, h.events, h.names, h.knowledge, h.watchpoints, ?_⟩,
      .both m (some l) hm rfl rfl hw hv ?_⟩
    · rw [hits_observed, hits_observed]
      exact congrArg (· ++ _) h.hits
    · intro l' hl
      cases hl
      exact ho id l rfl

/-- An event of `A` stops `w` alone. -/
theorem Alike.observed_alone {o : Option (Int × WatchLoop)}
    (h : Alike A ofA { w with debugger := t } v) (ht : t.simulation = .running)
    (hv : v.debugger.simulation = .running) (hw : w.taken = some A)
    (ho : ∀ id l, o = some (id, l) → ofA l.counter_name = true) :
    Alike A ofA (w.observed (stopAt t o)) v ∧ InStep A ofA (w.observed (stopAt t o)) v := by
  cases o with
  | none =>
    rw [stopAt, observed_of_running w ht]
    exact ⟨h, .running ht hv⟩
  | some p =>
    obtain ⟨id, l⟩ := p
    refine ⟨⟨h.counters, h.owned, h.events, h.names, h.knowledge, h.watchpoints, ?_⟩,
      .alone (some l) rfl hv hw ?_⟩
    · have hnone : [hitMessage id l].filter (elsewhere ofA) = [] := by
        simp [hitMessage, elsewhere, ho id l rfl]
      rw [hits_observed, hnone, List.append_nil]
      exact h.hits
    · intro l' hl
      cases hl
      exact ho id l rfl

/-! ### Events -/

theorem Notification.tell_of_ne {n : Notification} {name : String} {k k' : Knowledge}
    (h : n.tell k = some k') (hn : name ≠ n.counter_name) : k' name = k name := by
  cases n with
  | counter_added other =>
    cases h
    exact update_of_ne hn ..
  | counter_changed other value =>
    simp only [tell, Option.ite_none_right_eq_some, Option.some.injEq] at h
    rw [← h.2]
    exact update_of_ne hn ..
  | counter_removed other =>
    cases h
    exact update_of_ne hn ..

/-- What a notification tells of its counter depends on what is known of it. -/
theorem Notification.tell_congr {n : Notification} {k₁ k₂ r₁ : Knowledge}
    (hk : k₁ n.counter_name = k₂ n.counter_name) (h : n.tell k₁ = some r₁) :
    ∃ r₂, n.tell k₂ = some r₂ ∧ r₂ n.counter_name = r₁ n.counter_name := by
  cases n with
  | counter_added name =>
    simp only [counter_name] at hk
    cases h
    exact ⟨_, rfl, by simp only [counter_name, update_self, hk]⟩
  | counter_changed name value =>
    simp only [counter_name] at hk
    simp only [tell, Option.ite_none_right_eq_some, Option.some.injEq] at h
    rw [hk] at h
    rw [← h.2]
    exact ⟨_, if_pos h.1, by simp only [counter_name, update_self]⟩
  | counter_removed name =>
    cases h
    exact ⟨_, rfl, by simp only [counter_name, update_self]⟩

/-- A notification of `A` does not show. -/
theorem Alike.record_alone {n : Notification} {k : Knowledge} (h : Alike A ofA w v)
    (hn : ofA n.counter_name = true) (hk : n.tell (known w.debugger) = some k) (time : ℚ) :
    Alike A ofA { w with debugger := n.record time w.debugger } v := by
  refine ⟨h.counters, h.owned, h.events, h.names, ?_, ?_, h.hits⟩
  · intro name hname
    have hne : name ≠ n.counter_name := by
      rintro rfl
      rw [hn] at hname
      cases hname
    rw [h.knowledge name hname, known_record hk, Notification.tell_of_ne hk hne]
  · rw [h.watchpoints, record_watchpoint_list]

/-- A notification that is not of `A` tells the same in both. -/
theorem Alike.record {n : Notification} {k : Knowledge} (h : Alike A ofA w v)
    (hn : ofA n.counter_name = false) (hk : n.tell (known w.debugger) = some k) (time : ℚ) :
    (n.tell (known v.debugger)).isSome ∧ Alike A ofA
      { w with debugger := n.record time w.debugger }
      { v with debugger := n.record time v.debugger } := by
  obtain ⟨r, hr, hname⟩ := Notification.tell_congr (h.knowledge _ hn).symm hk
  refine ⟨Option.isSome_iff_exists.mpr ⟨r, hr⟩, h.counters, h.owned, h.events, h.names,
    ?_, ?_, h.hits⟩
  · intro name hoff
    rw [known_record hr, known_record hk]
    by_cases hne : name = n.counter_name
    · rw [hne, hname]
    · rw [Notification.tell_of_ne hr hne, Notification.tell_of_ne hk hne, h.knowledge name hoff]
  · rw [record_watchpoint_list, record_watchpoint_list, h.watchpoints]

/-! ### Steps -/

omit [DecidableEq M] in
theorem InStep.of_running (h : InStep A ofA w v) (hw : w.debugger.simulation = .running) :
    v.debugger.simulation = .running := by
  cases h with
  | running _ hv => exact hv
  | both m loop _ hpaused =>
    rw [hw] at hpaused
    cases hpaused
  | alone loop hpaused =>
    rw [hw] at hpaused
    cases hpaused
  | stuck hstuck => exact absurd hw hstuck

omit [DecidableEq M] in
theorem emit_simulation (w : World M) (m : M) (time : ℚ) (o : Option Notification) :
    (w.emit m time o).debugger.simulation = w.debugger.simulation := by
  unfold World.emit
  split
  · rfl
  · exact updateSimulationTime_simulation ..
  · rfl

theorem Alike.queue (h : Alike A ofA w v) (hm : m ≠ A) {n : Notification}
    (hn : ofA n.counter_name = false) (time : ℚ) :
    Alike A ofA { w with events_ := w.events_ ++ [⟨m, n, time⟩] }
      { v with events_ := v.events_ ++ [⟨m, n, time⟩] } := by
  refine ⟨h.counters, h.owned, ?_, ?_, h.knowledge, h.watchpoints, h.hits⟩
  · rw [List.filter_append, ← h.events]
    simp [hm]
  · intro e he
    rcases List.mem_append.mp he with he | he
    · exact h.names e he
    · cases List.mem_singleton.mp he
      simp [hn, hm]

theorem Alike.queue_alone (h : Alike A ofA w v) {n : Notification}
    (hn : ofA n.counter_name = true) (time : ℚ) :
    Alike A ofA { w with events_ := w.events_ ++ [⟨A, n, time⟩] } v := by
  refine ⟨h.counters, h.owned, ?_, ?_, h.knowledge, h.watchpoints, h.hits⟩
  · rw [List.filter_append, ← h.events]
    simp
  · intro e he
    rcases List.mem_append.mp he with he | he
    · exact h.names e he
    · cases List.mem_singleton.mp he
      simp [hn]

/-- A notification that is not of `A` is sent in both. -/
theorem Alike.emit {o : Option Notification} (h : Alike A ofA w v) (hm : m ≠ A)
    (ho : ∀ n, o = some n → ofA n.counter_name = false) (time : ℚ) :
    Alike A ofA (w.emit m time o) (v.emit m time o) := by
  cases o with
  | none => exact h
  | some n =>
    have hn := ho n rfl
    cases n with
    | counter_added name => exact (h.record hn rfl time).2
    | counter_changed name value => exact h.queue hm hn time
    | counter_removed name => exact h.queue hm hn time

theorem Alike.emit_alone {o : Option Notification} (h : Alike A ofA w v)
    (ho : ∀ n, o = some n → ofA n.counter_name = true) (time : ℚ) :
    Alike A ofA (w.emit A time o) v := by
  cases o with
  | none => exact h
  | some n =>
    have hn := ho n rfl
    cases n with
    | counter_added name => exact h.record_alone hn rfl time
    | counter_changed name value => exact h.queue_alone hn time
    | counter_removed name => exact h.queue_alone hn time

theorem Alike.called {r : CallResult} (h : Alike A ofA w v) (hm : m ≠ A)
    (hr : ∀ n, r.notification = some n → ofA n.counter_name = false)
    (howned : ∀ name, name ∈ r.counters → ofA name = false) (time : ℚ) :
    Alike A ofA (w.called m r time) (v.called m r time) := by
  have hcounters : Alike A ofA { w with counters := update w.counters m r.counters }
      { v with counters := update v.counters m r.counters } := by
    refine ⟨?_, ?_, h.events, h.names, h.knowledge, h.watchpoints, h.hits⟩
    · intro k hk
      by_cases hkm : k = m
      · simp only [hkm, update_self]
      · simp only [update_of_ne hkm, h.counters k hk]
    · intro k hk name hname
      by_cases hkm : k = m
      · simp only [hkm, update_self] at hname
        exact howned name hname
      · simp only [update_of_ne hkm] at hname
        exact h.owned k hk name hname
  exact hcounters.emit hm hr time

theorem Alike.called_alone {r : CallResult} (h : Alike A ofA w v)
    (hr : ∀ n, r.notification = some n → ofA n.counter_name = true) (time : ℚ) :
    Alike A ofA (w.called A r time) v := by
  have hcounters : Alike A ofA { w with counters := update w.counters A r.counters } v := by
    refine ⟨?_, ?_, h.events, h.names, h.knowledge, h.watchpoints, h.hits⟩
    · intro k hk
      simp only [update_of_ne hk, h.counters k hk]
    · intro k hk name hname
      simp only [update_of_ne hk] at hname
      exact h.owned k hk name hname
  exact hcounters.emit_alone hr time

/-- The counters behind a call were there, or the call has told of them. -/
theorem mem_perform {c : CounterCall} {counters_ : Counters} {name : String}
    (h : name ∈ (c.perform counters_).counters) : name ∈ counters_ ∨
      ∃ n, (c.perform counters_).notification = some n ∧ n.counter_name = name := by
  rcases c.perform_cases counters_ with ⟨hcounters, -⟩ | ⟨other, value, -, -, hc⟩ |
      ⟨other, value, -, hc⟩ | ⟨other, -, hc⟩
  · rw [hcounters] at h
    exact .inl h
  · rw [hc] at h ⊢
    rcases Std.ExtTreeMap.mem_insert.mp h with heq | h
    · exact .inr ⟨_, rfl, Std.LawfulEqCmp.compare_eq_iff_eq.mp heq⟩
    · exact .inl h
  · rw [hc] at h ⊢
    rcases Std.ExtTreeMap.mem_insert.mp h with heq | h
    · exact .inr ⟨_, rfl, Std.LawfulEqCmp.compare_eq_iff_eq.mp heq⟩
    · exact .inl h
  · rw [hc] at h
    exact .inl (Std.ExtTreeMap.mem_of_mem_erase h)

/-- A stop of an event is the same when the same is known of its counter. -/
theorem notify_of_tell {n : Notification} {k : Knowledge} {s : Shared}
    (h : n.tell (known s) = some k) (time : ℚ) : n.notify time s =
      .ok (stopAt (n.record time s)
        (n.hit (known s n.counter_name) s.data_manager.watchpoint_list)) := by
  rw [notify_eq, h]

theorem tell_of_notify {n : Notification} {s u : Shared} {time : ℚ}
    (h : n.notify time s = .ok u) : n.tell (known s) = some (known u) := by
  rw [tell_known n time s, h]
  rfl

/-- The stop of a loop that is resumed. -/
def resumeHit (ws : List Watchpoint) : Option WatchLoop → Option (Int × WatchLoop)
  | none => none
  | some l => firstHit l.counter_name l.old_value l.new_value (l.cursor + 1)
      (ws.drop (l.cursor + 1))

def resumed (s : Shared) : Shared := { s with continue_command := false, simulation := .running }

theorem resume_eq_stopAt (loop : Option WatchLoop) (s : Shared) :
    Db.resume loop s = stopAt (resumed s) (resumeHit s.data_manager.watchpoint_list loop) := by
  cases loop with
  | none => rfl
  | some l => exact watchLoop_eq_stopAt ..

theorem resumeHit_counter_name {ws : List Watchpoint} {loop : Option WatchLoop} {id : Int}
    {l : WatchLoop} (h : resumeHit ws loop = some (id, l)) :
    ∃ l', loop = some l' ∧ l.counter_name = l'.counter_name := by
  cases loop with
  | none => cases h
  | some l' => exact ⟨l', rfl, firstHit_counter_name _ h⟩

/-! ### A step of another module -/

theorem Alike.step_call {c : CounterCall} (h : Alike A ofA w v) (hi : InStep A ofA w v)
    (hm : m ≠ A) (hP : Apart A ofA w (.call m c time)) (hs : w.step (.call m c time) = some w') :
    ∃ v', v.step (.call m c time) = some v' ∧ Alike A ofA w' v' ∧ InStep A ofA w' v' := by
  obtain ⟨hw, rfl⟩ := World.step_call hs
  have hv := hi.of_running hw
  have hr : ∀ n, (c.perform (w.counters m)).notification = some n →
      ofA n.counter_name = false := by
    intro n hn
    obtain ⟨hsucceeds, hname⟩ := CounterCall.succeeds_of_notification hn
    rw [hname, ← Bool.not_eq_true]
    exact fun hA => hm ((hP hsucceeds).mp hA)
  have howned : ∀ name, name ∈ (c.perform (w.counters m)).counters → ofA name = false := by
    intro name hname
    rcases mem_perform hname with hname | ⟨n, hn, rfl⟩
    · exact h.owned m hm name hname
    · exact hr n hn
  refine ⟨v.called m (c.perform (w.counters m)) time, ?_, h.called hm hr howned time,
    .running ?_ ?_⟩
  · rw [World.step, if_pos hv, h.counters m hm]
  · exact (emit_simulation ..).trans hw
  · exact (emit_simulation ..).trans hv

theorem Alike.step_deliver (h : Alike A ofA w v) (hi : InStep A ofA w v) (hm : m ≠ A)
    (hs : w.step (.deliver m) = some w') :
    ∃ v', v.step (.deliver m) = some v' ∧ Alike A ofA w' v' ∧ InStep A ofA w' v' := by
  obtain ⟨e, events_, s, hevents, hw, rfl, hnotify, rfl⟩ := World.step_deliver hs
  have hv := hi.of_running hw
  have hnames := h.names
  rw [hevents] at hnames
  obtain ⟨hname, hnames⟩ := List.forall_mem_cons.mp hnames
  have hname : ofA e.notification.counter_name = false := by
    rw [← Bool.not_eq_true]
    exact fun hA => hm (hname.mp hA)
  have hvevents : v.events_ = e :: events_.filter fun e => e.module ≠ A := by
    rw [h.events, hevents]
    exact List.filter_cons_of_pos (by simpa using hm)
  -- the same is known of the counter, and the watchpoints are the same
  have htell := tell_of_notify hnotify
  obtain ⟨hk, hrecord⟩ := h.record hname htell e.sim_time
  obtain ⟨k, hk⟩ := Option.isSome_iff_exists.mp hk
  have hnotify' := notify_of_tell hk e.sim_time
  rw [h.knowledge _ hname, h.watchpoints] at hnotify'
  rw [notify_of_tell htell] at hnotify
  cases hnotify
  refine ⟨World.observed { v with
    events_ := events_.filter fun e => e.module ≠ A, taken := some e.module } _, ?_,
    Alike.observed ⟨hrecord.counters, hrecord.owned, rfl, hnames, hrecord.knowledge,
      hrecord.watchpoints, hrecord.hits⟩ ?_ ?_ hm rfl rfl ?_⟩
  · simp only [World.step, hvevents]
    rw [if_pos ⟨hv, trivial⟩, hnotify']
  · rw [record_simulation, hw]
  · rw [record_simulation, hv]
  · intro id l hl
    rw [Notification.hit_counter_name hl, hname]

theorem Alike.resumed (h : Alike A ofA w v) : Alike A ofA
    { w with debugger := resumed w.debugger } { v with debugger := resumed v.debugger } :=
  ⟨h.counters, h.owned, h.events, h.names, h.knowledge, h.watchpoints, h.hits⟩

theorem Alike.step_resume (h : Alike A ofA w v) (hi : InStep A ofA w v) (hm : m ≠ A)
    (hs : w.step (.resume m) = some w') :
    ∃ v', v.step (.resume m) = some v' ∧ Alike A ofA w' v' ∧ InStep A ofA w' v' := by
  obtain ⟨loop, hw, htaken, rfl⟩ := World.step_resume hs
  cases hi with
  | running hrunning =>
    rw [hw] at hrunning
    cases hrunning
  | both m' loop' _ hw' hv hwtaken hvtaken hloop =>
    rw [hw] at hw'
    cases hw'
    rw [htaken] at hwtaken
    cases hwtaken
    refine ⟨v.observed (Db.resume loop v.debugger), ?_, ?_⟩
    · simp only [World.step, hv]
      rw [if_pos hvtaken]
    · rw [resume_eq_stopAt, resume_eq_stopAt, h.watchpoints]
      apply h.resumed.observed rfl rfl hm htaken hvtaken
      intro id l hl
      obtain ⟨l', hl', hname⟩ := resumeHit_counter_name hl
      rw [hname, hloop l' hl']
  | alone loop' _ _ hA =>
    rw [htaken] at hA
    cases hA
    exact absurd rfl hm
  | stuck _ hnone =>
    rw [htaken] at hnone
    cases hnone

/-- A step of another module can be done in both. -/
theorem Alike.step {e : WorldStep M} (h : Alike A ofA w v) (hi : InStep A ofA w v)
    (hP : Apart A ofA w e) (he : e.module ≠ A) (hs : w.step e = some w') :
    ∃ v', v.step e = some v' ∧ Alike A ofA w' v' ∧ InStep A ofA w' v' := by
  cases e with
  | call m c time => exact h.step_call hi he hP hs
  | deliver m => exact h.step_deliver hi he hs
  | resume m => exact h.step_resume hi he hs

/-! ### A step of `A` -/

/-- A step of `A` does not show. -/
theorem Alike.step_alone {e : WorldStep M} (h : Alike A ofA w v) (hi : InStep A ofA w v)
    (hP : Apart A ofA w e) (he : e.module = A) (hs : w.step e = some w') :
    Alike A ofA w' v ∧ InStep A ofA w' v := by
  cases e with
  | call m c time =>
    obtain ⟨hw, rfl⟩ := World.step_call hs
    have hA : m = A := he
    rw [hA] at hP ⊢
    have hr : ∀ n, (c.perform (w.counters A)).notification = some n →
        ofA n.counter_name = true := by
      intro n hn
      obtain ⟨hsucceeds, hname⟩ := CounterCall.succeeds_of_notification hn
      rw [hname]
      exact (hP hsucceeds).mpr rfl
    exact ⟨h.called_alone hr time, .running ((emit_simulation ..).trans hw) (hi.of_running hw)⟩
  | deliver m =>
    obtain ⟨e, events_, s, hevents, hw, rfl, hnotify, rfl⟩ := World.step_deliver hs
    have hA : e.module = A := he
    have hnames := h.names
    rw [hevents] at hnames
    obtain ⟨hname, hnames⟩ := List.forall_mem_cons.mp hnames
    have hname : ofA e.notification.counter_name = true := hname.mpr hA
    have hvevents : v.events_ = events_.filter fun e => e.module ≠ A := by
      rw [h.events, hevents]
      exact List.filter_cons_of_neg (by simpa using hA)
    have htell := tell_of_notify hnotify
    have hrecord := h.record_alone hname htell e.sim_time
    rw [notify_of_tell htell] at hnotify
    cases hnotify
    refine Alike.observed_alone ⟨hrecord.counters, hrecord.owned, hvevents, hnames,
      hrecord.knowledge, hrecord.watchpoints, hrecord.hits⟩ ?_ (hi.of_running hw)
      (congrArg some hA) ?_
    · rw [record_simulation, hw]
    · intro id l hl
      rw [Notification.hit_counter_name hl, hname]
  | resume m =>
    obtain ⟨loop, hw, htaken, rfl⟩ := World.step_resume hs
    have hA : m = A := he
    rw [hA] at htaken
    cases hi with
    | running hrunning =>
      rw [hw] at hrunning
      cases hrunning
    | both m' loop' hm _ _ hwtaken =>
      rw [htaken] at hwtaken
      cases hwtaken
      exact absurd rfl hm
    | alone loop' hw' hv _ hloop =>
      rw [hw] at hw'
      cases hw'
      rw [resume_eq_stopAt]
      refine Alike.observed_alone ⟨h.counters, h.owned, h.events, h.names, h.knowledge,
        h.watchpoints, h.hits⟩ rfl hv htaken fun id l hl => ?_
      obtain ⟨l', hl', hname⟩ := resumeHit_counter_name hl
      rw [hname, hloop l' hl']
    | stuck _ hnone =>
      rw [htaken] at hnone
      cases hnone

/-! ## Separation -/

theorem alike_init (A : M) (ofA : String → Bool) (s₀ : Shared) :
    Alike A ofA (world M s₀).init (world M s₀).init ∧
      InStep A ofA (world M s₀).init (world M s₀).init := by
  refine ⟨⟨fun _ _ => rfl, fun m _ name hname => ?_, rfl, fun e he => ?_, fun _ _ => rfl, rfl, rfl⟩,
    ?_⟩
  · exact absurd hname Std.ExtTreeMap.not_mem_empty
  · exact absurd he List.not_mem_nil
  · by_cases hrunning : s₀.simulation = .running
    · exact .running hrunning hrunning
    · exact .stuck hrunning rfl

/-- **Counters of different modules.** When no other module uses a counter name of `A`, the
counters of the other modules, with their values, existence and watchpoint hits in the
debugger, are the same in the run without the steps of `A`. -/
theorem counters_separate {es : List (WorldStep M)}
    (h : System.Run (world M s₀) (Apart A ofA) (world M s₀).init es w) :
    ∃ v, (world M s₀).replay (world M s₀).init (es.filter fun e => e.module ≠ A) = some v ∧
      (∀ B, B ≠ A → v.counters B = w.counters B ∧ ∀ name ∈ w.counters B, ofA name = false) ∧
      (∀ name, ofA name = false →
        (name ∈ v.debugger.data_manager.counters ↔ name ∈ w.debugger.data_manager.counters) ∧
        v.debugger.data_manager.getCounterValue name =
          w.debugger.data_manager.getCounterValue name) ∧
      v.hits ofA = w.hits ofA := by
  obtain ⟨v, hv, halike, -⟩ : ∃ v, (world M s₀).replay (world M s₀).init
      (es.filter fun e => e.module ≠ A) = some v ∧ Alike A ofA w v ∧ InStep A ofA w v :=
    h.filter (R := fun w v => Alike A ofA w v ∧ InStep A ofA w v)
    (fun w v e w' hR hP he hs => hR.1.step hR.2 hP (by simpa using he) hs)
    (fun w v e w' hR hP he hs => hR.1.step_alone hR.2 hP (by simpa using he) hs)
    (alike_init A ofA s₀)
  refine ⟨v, hv, fun B hB => ⟨halike.counters B hB, halike.owned B hB⟩, ?_, halike.hits⟩
  intro name hname
  have hknown := halike.knowledge name hname
  refine ⟨?_, congrArg (fun d : Option Int => d.getD (-1)) hknown⟩
  rw [Std.ExtTreeMap.mem_iff_isSome_getElem?, Std.ExtTreeMap.mem_iff_isSome_getElem?]
  exact Eq.congr_left (congrArg Option.isSome hknown)

/-- Two modules with a counter each. -/
theorem counters_separate_two : ∃ v : World Bool,
    (world Bool { simulation := .running }).replay (world Bool { simulation := .running }).init
      [.call false (.add_counter "x" 0) 0, .call false (.set_counter "x" 7) 0,
        .deliver false] = some v ∧
      v.debugger.data_manager.getCounterValue "x" = 7 := by
  have hrun : ∃ w, w.debugger.data_manager.getCounterValue "x" = 7 ∧
      System.Run (world Bool { simulation := .running }) (Apart true fun name => name = "y")
        (world Bool { simulation := .running }).init
        [.call true (.add_counter "y" 0) 0, .call false (.add_counter "x" 0) 0,
          .call true (.set_counter "y" 5) 0, .call false (.set_counter "x" 7) 0,
          .deliver true, .deliver false] w := by
    refine ⟨_, ?_, .get _ ?_ (by decide +kernel) (.get _ ?_ (by decide +kernel)
      (.get _ ?_ (by decide +kernel) (.get _ ?_ (by decide +kernel)
      (.get _ trivial (by decide +kernel) (.get _ trivial (by decide +kernel) (.nil _))))))⟩
    · decide +kernel
    · intro _
      decide
    · intro _
      decide
    · intro _
      decide
    · intro _
      decide
  obtain ⟨w, hw, hrun⟩ := hrun
  obtain ⟨v, hv, -, hvalues, -⟩ := counters_separate hrun
  exact ⟨v, hv, (hvalues "x" (by decide)).2.trans hw⟩

/-- Both modules have a counter `x`, and one is set to `5`. -/
def sharedName : List (WorldStep Bool) :=
  [.call true (.add_counter "x" 0) 0, .call false (.add_counter "x" 0) 0,
    .call true (.set_counter "x" 5) 0, .deliver true]

/-- The other module has `0` in its counter, and the debugger shows `5`, which it does not in
the run of that module alone. -/
theorem sharedName_interferes : ∃ w v : World Bool,
    (world Bool { simulation := .running }).replay (world Bool { simulation := .running }).init
      sharedName = some w ∧
    (world Bool { simulation := .running }).replay (world Bool { simulation := .running }).init
      (sharedName.filter fun e => e.module ≠ true) = some v ∧
    (w.counters false)["x"]? = some 0 ∧
    w.debugger.data_manager.getCounterValue "x" = 5 ∧
    v.debugger.data_manager.getCounterValue "x" = 0 := by
  have hrun : ((world Bool { simulation := .running }).replay
      (world Bool { simulation := .running }).init sharedName).map (fun w =>
        ((w.counters false)["x"]?, w.debugger.data_manager.getCounterValue "x")) =
      some (some 0, 5) := by
    decide +kernel
  have halone : ((world Bool { simulation := .running }).replay
      (world Bool { simulation := .running }).init
      (sharedName.filter fun e => e.module ≠ true)).map (fun v =>
        v.debugger.data_manager.getCounterValue "x") = some 0 := by
    decide +kernel
  obtain ⟨w, hw, hvalues⟩ := Option.map_eq_some_iff.mp hrun
  obtain ⟨v, hv, hvalue⟩ := Option.map_eq_some_iff.mp halone
  obtain ⟨hcounter, hshown⟩ := Prod.mk.inj hvalues
  exact ⟨w, v, hw, hv, hcounter, hshown, hvalue⟩

end Pfp.Core
