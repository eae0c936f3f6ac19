import PFPSim.Modules.Knowledge

/-!
# Live counters

One module with its observer. What the debugger will know when it has taken all queued
events agrees with the counters of the module (`Agrees`), as long as no counter is added
again while its removal is still queued (`FreshAdd`).
-/

namespace Pfp.Core

open Db Runs Function

/-- Behind the queue the debugger has the counters of the module, with values as `R` says. -/
def Agrees (R : UInt64 → Int → Prop) (counters_ : Counters) (es : List (QueuedEvent Unit))
    (k : Knowledge) : Prop :=
  ∃ r, drain es k = some r ∧ ∀ name, Option.Rel R counters_[name]? (r name)

section Agreement

variable {R : UInt64 → Int → Prop} {counters_ : Counters} {es : List (QueuedEvent Unit)}
  {k r : Knowledge} {name : String} {value : UInt64}

theorem rel_isSome {v : Option UInt64} {d : Option Int} (h : Option.Rel R v d) :
    d.isSome = v.isSome := by
  cases h with
  | some _ => rfl
  | none => rfl

theorem rel_insert (h : ∀ name, Option.Rel R counters_[name]? (r name)) {d : Int}
    (hd : R value d) (other : String) :
    Option.Rel R (counters_.insert name value)[other]? (update r name (some d) other) := by
  rw [show (counters_.insert name value)[other]? = _ from Maps.get_insert .., update_apply]
  by_cases hother : name = other
  · rw [if_pos hother, if_pos hother.symm]
    exact .some hd
  · rw [if_neg hother, if_neg fun he => hother he.symm]
    exact h other

theorem rel_erase (h : ∀ name, Option.Rel R counters_[name]? (r name)) (other : String) :
    Option.Rel R (counters_.erase name)[other]? (update r name none other) := by
  rw [show (counters_.erase name)[other]? = _ from Maps.get_erase .., update_apply]
  by_cases hother : name = other
  · rw [if_pos hother, if_pos hother.symm]
    exact .none
  · rw [if_neg hother, if_neg fun he => hother he.symm]
    exact h other

namespace Agrees

/-- A counter that the module does not have is not known now, as its removal would be queued. -/
theorem unknown (h : Agrees R counters_ es k) (hnew : counters_[name]? = none)
    (hstays : Stays name es) : k name = none := by
  obtain ⟨r, hr, hrel⟩ := h
  by_contra hnow
  have hsome := drain_isSome hstays hr (Option.isSome_iff_ne_none.mpr hnow)
  rw [rel_isSome (hrel name), hnew] at hsome
  cases hsome

theorem add (h : Agrees R counters_ es k) (hnew : counters_[name]? = none)
    (hstays : Stays name es) (hvalue : R value 0) :
    Agrees R (counters_.insert name value) es (update k name (some ((k name).getD 0))) := by
  rw [h.unknown hnew hstays]
  obtain ⟨r, hr, hrel⟩ := h
  have hunknown : r name = none := by
    have hname := rel_isSome (hrel name)
    rw [hnew] at hname
    exact Option.isNone_iff_eq_none.mp (by simpa using hname)
  exact ⟨_, drain_update hstays hr hunknown 0, rel_insert hrel hvalue⟩

theorem change (hR : ∀ value : UInt64, R value (int32 value.toNat)) (h : Agrees R counters_ es k)
    (hold : (counters_[name]?).isSome) (time : ℚ) : Agrees R (counters_.insert name value)
      (es ++ [⟨(), .counter_changed name value, time⟩]) k := by
  obtain ⟨r, hr, hrel⟩ := h
  refine ⟨_, ?_, rel_insert hrel (hR value)⟩
  rw [drain_append, hr, Option.bind_some, drain, Notification.tell,
    if_pos ((rel_isSome (hrel name)).trans hold)]
  rfl

theorem remove (h : Agrees R counters_ es k) (name : String) (time : ℚ) :
    Agrees R (counters_.erase name) (es ++ [⟨(), .counter_removed name, time⟩]) k := by
  obtain ⟨r, hr, hrel⟩ := h
  refine ⟨_, ?_, rel_erase hrel⟩
  rw [drain_append, hr]
  rfl

/-- The debugger takes an event as it has been foreseen. -/
theorem take {e : QueuedEvent Unit} (h : Agrees R counters_ (e :: es) k) :
    ∃ k', e.notification.tell k = some k' ∧ Agrees R counters_ es k' := by
  obtain ⟨r, hr, hrel⟩ := h
  obtain ⟨k', hk', hr⟩ := Option.bind_eq_some_iff.mp hr
  exact ⟨k', hk', r, hr, hrel⟩

end Agrees

end Agreement

/-! ## Runs of one module -/

/-- A counter is added only when its removal is not queued. -/
def FreshAdd (w : World Unit) : WorldStep Unit → Prop
  | .call _ (.add_counter name _) _ => (w.counters ())[name]? = none → Stays name w.events_
  | _ => True

/-- The debugger begins to know the value `0` of a counter that is added. -/
def AddsAs (R : UInt64 → Int → Prop) (w : World Unit) : WorldStep Unit → Prop
  | .call _ (.add_counter name value) _ => (w.counters ())[name]? = none → R value 0
  | _ => True

variable {R : UInt64 → Int → Prop} {w w' : World Unit} {s₀ : Shared}

/-- The agreement of the module with its debugger. -/
def World.Agrees (R : UInt64 → Int → Prop) (w : World Unit) : Prop :=
  Core.Agrees R (w.counters ()) w.events_ (known w.debugger)

theorem World.Agrees.call (hR : ∀ value : UInt64, R value (int32 value.toNat))
    {c : CounterCall} {time : ℚ} (h : w.Agrees R) (hfresh : FreshAdd w (.call () c time))
    (hadds : AddsAs R w (.call () c time)) :
    Agrees R (w.called () (c.perform (w.counters ())) time) := by
  unfold World.Agrees
  rw [called_counters, update_self]
  rcases c.perform_cases (w.counters ()) with ⟨hcounters, hnone⟩ | ⟨name, value, rfl, hnew, hc⟩ |
      ⟨name, value, hold, hc⟩ | ⟨name, rfl, hc⟩
  · rw [called, hnone, hcounters]
    exact h
  · rw [hc, called, World.emit, known_counter_added]
    exact Core.Agrees.add h hnew (hfresh hnew) (hadds hnew)
  · rw [hc]
    exact Core.Agrees.change hR h hold time
  · rw [hc]
    exact Core.Agrees.remove h name time

/-- The debugger never throws, and takes every event as it has been foreseen. -/
theorem World.Agrees.deliver {e : QueuedEvent Unit} {events_ : List (QueuedEvent Unit)}
    (h : w.Agrees R) (hevents : w.events_ = e :: events_) :
    ∃ s, e.notification.notify e.sim_time w.debugger = .ok s ∧
      Core.Agrees R (w.counters ()) events_ (known s) := by
  unfold World.Agrees at h
  rw [hevents] at h
  obtain ⟨k, hk, h⟩ := h.take
  rw [tell_known _ e.sim_time] at hk
  cases hs : e.notification.notify e.sim_time w.debugger with
  | error f =>
    rw [hs] at hk
    cases hk
  | ok s =>
    rw [hs] at hk
    cases hk
    exact ⟨s, rfl, h⟩

theorem agrees_step (hR : ∀ value : UInt64, R value (int32 value.toNat)) {e : WorldStep Unit}
    (h : w.Agrees R) (hfresh : FreshAdd w e) (hadds : AddsAs R w e) (hs : w.step e = some w') :
    w'.Agrees R := by
  cases e with
  | call m c time =>
    obtain ⟨-, rfl⟩ := World.step_call hs
    exact h.call hR hfresh hadds
  | deliver m =>
    obtain ⟨e, events_, s, hevents, -, -, hnotify, rfl⟩ := World.step_deliver hs
    obtain ⟨s', hs', h⟩ := h.deliver hevents
    rw [hnotify] at hs'
    cases hs'
    simpa [World.Agrees] using h
  | resume m =>
    obtain ⟨loop, -, -, rfl⟩ := World.step_resume hs
    simpa [World.Agrees, known_resume] using h

/-- The agreement holds in every state of a run. -/
theorem agrees_of_reaches (hR : ∀ value : UInt64, R value (int32 value.toNat))
    (h₀ : s₀.data_manager.counters = ∅)
    (h : System.Reaches (world Unit s₀) (fun w e => FreshAdd w e ∧ AddsAs R w e) w) :
    w.Agrees R := by
  refine h.invariant ⟨known s₀, rfl, ?_⟩ fun w e w' _ hw he hs => agrees_step hR hw he.1 he.2 hs
  intro name
  simp [world, known, h₀]

/-! ## The set of counters -/

theorem addsAs_true (w : World Unit) (e : WorldStep Unit) : AddsAs (fun _ _ => True) w e := by
  unfold AddsAs
  split
  · exact fun _ => trivial
  · trivial

/-- **Live counters.** In every run in which no counter is added again while its removal is
queued, the debugger takes every event, and knows the counters of the module whenever the
queue is empty. -/
theorem live_counters_known (h₀ : s₀.data_manager.counters = ∅)
    (h : System.Reaches (world Unit s₀) FreshAdd w) :
    (∀ e events_, w.events_ = e :: events_ →
      ∃ s, e.notification.notify e.sim_time w.debugger = .ok s) ∧
    (w.events_ = [] →
      ∀ name, name ∈ w.debugger.data_manager.counters ↔ name ∈ w.counters ()) := by
  have hagrees : w.Agrees fun _ _ => True :=
    agrees_of_reaches (fun _ => trivial) h₀ (h.mono fun w e _ he => ⟨he, addsAs_true w e⟩)
  constructor
  · intro e events_ hevents
    obtain ⟨s, hs, -⟩ := hagrees.deliver hevents
    exact ⟨s, hs⟩
  · intro hempty name
    obtain ⟨r, hr, hrel⟩ := hagrees
    rw [hempty] at hr
    cases hr
    rw [Std.ExtTreeMap.mem_iff_isSome_getElem?, Std.ExtTreeMap.mem_iff_isSome_getElem?]
    exact Eq.congr_left (rel_isSome (hrel name))

/-- A counter is added, set and told. -/
theorem live_counters_known_set : ∃ w : World Unit, w.events_.isEmpty = true ∧
    "x" ∈ w.counters () ∧ "x" ∈ w.debugger.data_manager.counters := by
  have hinit : System.Reaches (world Unit { simulation := .running }) FreshAdd _ := .init
  have hadd := hinit.get (.call () (.add_counter "x" 0) 0) (fun _ e he => by cases he)
    (by decide +kernel)
  have hset := hadd.get (.call () (.set_counter "x" 5) 1) trivial (by decide +kernel)
  have htold := hset.get (.deliver ()) trivial (by decide +kernel)
  refine ⟨_, ?_, ?_, ((live_counters_known rfl htold).2 ?_ "x").mpr ?_⟩
  · decide +kernel
  · decide +kernel
  · exact List.isEmpty_iff.mp (by decide +kernel)
  · decide +kernel

/-! ### A counter that is added too early -/

/-- No addition is queued. -/
def Queued (es : List (QueuedEvent Unit)) : Prop :=
  ∀ e ∈ es, ∀ name, e.notification ≠ .counter_added name

theorem queued_step {x : WorldStep Unit} (h : Queued w.events_) (hs : w.step x = some w') :
    Queued w'.events_ := by
  intro e he
  rcases World.mem_step_events hs he with he | ⟨m, c, time, -, -, hadded⟩
  · exact h e he
  · exact hadded

theorem Notification.tell_none {n : Notification} {name : String} {k k' : Knowledge}
    (hn : ∀ name, n ≠ .counter_added name) (h : n.tell k = some k') (hk : k name = none) :
    k' name = none := by
  cases n with
  | counter_added other => exact absurd rfl (hn other)
  | counter_changed other value =>
    simp only [tell, Option.ite_none_right_eq_some, Option.some.injEq] at h
    obtain ⟨hknown, rfl⟩ := h
    have hother : name ≠ other := by
      rintro rfl
      rw [hk] at hknown
      cases hknown
    rwa [update_of_ne hother]
  | counter_removed other =>
    cases h
    by_cases hother : name = other
    · rw [hother, update_self]
    · rwa [update_of_ne hother]

/-- The module has the counter, and the debugger does not know it or will be told of its
removal. -/
structure Losing (name : String) (w : World Unit) : Prop where
  queued : Queued w.events_
  live : name ∈ w.counters ()
  gone : ¬ Stays name w.events_ ∨ known w.debugger name = none

/-- Without a call of the module. -/
def Draining : WorldStep Unit → Prop
  | .call .. => False
  | _ => True

theorem Losing.step {name : String} {e : WorldStep Unit} (h : Losing name w) (he : Draining e)
    (hs : w.step e = some w') : Losing name w' := by
  have hqueued := queued_step h.queued hs
  cases e with
  | call m c time => cases he
  | deliver m =>
    obtain ⟨e, events_, s, hevents, -, -, hnotify, rfl⟩ := World.step_deliver hs
    have htell := tell_known e.notification e.sim_time w.debugger
    rw [hnotify] at htell
    refine ⟨hqueued, by rw [World.observed_counters]; exact h.live, ?_⟩
    rw [World.observed_events, World.observed_debugger]
    by_cases hremoved : e.notification = .counter_removed name
    · rw [hremoved] at htell
      have hknown : update (known w.debugger) name none = known s := Option.some.inj htell
      exact .inr (by rw [← hknown, update_self])
    · rcases h.gone with hgone | hgone
      · refine .inl fun hstays => hgone ?_
        rw [hevents]
        exact List.forall_mem_cons.mpr ⟨hremoved, hstays⟩
      · refine .inr (Notification.tell_none ?_ htell hgone)
        exact h.queued e (by rw [hevents]; exact List.mem_cons_self)
  | resume m =>
    obtain ⟨loop, -, -, rfl⟩ := World.step_resume hs
    refine ⟨hqueued, by rw [World.observed_counters]; exact h.live, ?_⟩
    rw [World.observed_events, World.observed_debugger, known_resume]
    exact h.gone

theorem Losing.replay {name : String} {es : List (WorldStep Unit)} (h : Losing name w)
    (hes : ∀ e ∈ es, Draining e) (hrun : (world Unit s₀).replay w es = some w') :
    Losing name w' := by
  induction es generalizing w with
  | nil =>
    cases hrun
    exact h
  | cons e es ih =>
    obtain ⟨he, hes⟩ := List.forall_mem_cons.mp hes
    obtain ⟨t, ht, hrun⟩ := Option.bind_eq_some_iff.mp hrun
    exact ih (h.step he ht) hes hrun

/-- A counter that is added while its removal is queued is lost when the queue has been
emptied. -/
theorem lost_of_stale_add (hw : System.Reachable (world Unit s₀) w) {name : String}
    {value : UInt64} {time : ℚ} (hnew : (w.counters ())[name]? = none)
    (hstale : ¬ Stays name w.events_)
    (hs : w.step (.call () (.add_counter name value) time) = some w')
    {es : List (WorldStep Unit)} (hes : ∀ e ∈ es, Draining e) {w'' : World Unit}
    (hrun : (world Unit s₀).replay w' es = some w'') (hempty : w''.events_ = []) :
    name ∈ w''.counters () ∧ name ∉ w''.debugger.data_manager.counters := by
  have hqueued : Queued w.events_ :=
    hw.invariant (I := fun w => Queued w.events_) (fun e he => absurd he List.not_mem_nil)
      fun w e w' _ h _ hs => queued_step h hs
  have hlosing : Losing name w' := by
    have hadded := queued_step hqueued hs
    obtain ⟨-, rfl⟩ := World.step_call hs
    rw [CounterCall.perform_add hnew] at hadded ⊢
    refine ⟨hadded, ?_, .inl hstale⟩
    rw [World.called_counters, update_self]
    exact Std.ExtTreeMap.mem_insert_self
  obtain ⟨-, hlive, hgone⟩ := hlosing.replay hes hrun
  refine ⟨hlive, ?_⟩
  intro hmem
  rcases hgone with hgone | hgone
  · rw [hempty] at hgone
    exact hgone fun e he => by cases he
  · have hsome : (known w''.debugger name).isSome :=
      Std.ExtTreeMap.mem_iff_isSome_getElem?.mp hmem
    rw [hgone] at hsome
    cases hsome

/-- A counter is removed, and added again before the removal is told. -/
def readded : List (WorldStep Unit) :=
  [.call () (.add_counter "x" 0) 0, .call () (.remove_counter "x") 0,
    .call () (.add_counter "x" 0) 0, .deliver ()]

/-- The late removal deletes the new counter, and the next update of it throws. -/
theorem readded_lost :
    (∃ w, System.Reachable (world Unit { simulation := .running }) w ∧ w.events_ = [] ∧
      "x" ∈ w.counters () ∧ "x" ∉ w.debugger.data_manager.counters) ∧
    ∃ w e events_, System.Reachable (world Unit { simulation := .running }) w ∧
      w.events_ = e :: events_ ∧
      e.notification.notify e.sim_time w.debugger = .error .no_counter := by
  constructor
  · have hrun : ((world Unit { simulation := .running }).replay
        (world Unit { simulation := .running }).init (readded.take 2)).bind (fun w =>
          (w.step (.call () (.add_counter "x" 0) 0)).bind fun w' =>
            ((world Unit { simulation := .running }).replay w' [.deliver ()]).map fun w'' =>
              (w.events_.map QueuedEvent.notification, (w.counters ())["x"]?,
                w''.events_.isEmpty)) = some ([.counter_removed "x"], none, true) := by
      decide +kernel
    obtain ⟨w, hw, hrun⟩ := Option.bind_eq_some_iff.mp hrun
    obtain ⟨w', hagain, hrun⟩ := Option.bind_eq_some_iff.mp hrun
    obtain ⟨w'', htold, hrun⟩ := Option.map_eq_some_iff.mp hrun
    simp only [Prod.mk.injEq, List.isEmpty_iff] at hrun
    obtain ⟨hevents, hnew, hempty⟩ := hrun
    obtain ⟨e, events_, hw', hremoved, -⟩ := List.map_eq_cons_iff.mp hevents
    have hstale : ¬ Stays "x" w.events_ := by
      intro hstays
      exact hstays e (by rw [hw']; exact List.mem_cons_self) hremoved
    have hreach := System.reachable_of_replay hw
    have hreach' : System.Reachable (world Unit { simulation := .running }) w' :=
      .step (e := .call () (.add_counter "x" 0) 0) hreach trivial hagain
    refine ⟨w'', hreach'.replay htold, hempty,
      lost_of_stale_add hreach hnew hstale hagain ?_ htold hempty⟩
    intro e he
    rw [List.mem_singleton.mp he]
    trivial
  · have hrun : ((world Unit { simulation := .running }).replay
        (world Unit { simulation := .running }).init
        (readded ++ [.call () (.set_counter "x" 5) 0])).map (fun w =>
          (w.events_.map QueuedEvent.notification, known w.debugger "x")) =
        some ([.counter_changed "x" 5], none) := by
      decide +kernel
    obtain ⟨w, hreplay, hw⟩ := Option.map_eq_some_iff.mp hrun
    obtain ⟨hevents, hunknown⟩ := Prod.mk.inj hw
    obtain ⟨e, events_, hevents, hnotification, -⟩ := List.map_eq_cons_iff.mp hevents
    refine ⟨w, e, events_, System.reachable_of_replay hreplay, hevents, ?_⟩
    rw [hnotification, Notification.notify, counter_updated_eq_match, hunknown]

/-! ## The values -/

/-- The step removes no counter. -/
def NoRemoval : WorldStep Unit → Prop
  | .call _ (.remove_counter _) _ => False
  | _ => True

/-- The debugger shows a value as a 32-bit integer. -/
def Shown (value : UInt64) (d : Int) : Prop := int32 value.toNat = d

/-- Without removals none is queued. -/
theorem stays_step {x : WorldStep Unit} {name : String} (h : Stays name w.events_)
    (hx : NoRemoval x) (hs : w.step x = some w') : Stays name w'.events_ := by
  intro e he hremoved
  rcases World.mem_step_events hs he with he | ⟨m, c, time, rfl, hsent, -⟩
  · exact h e he hremoved
  · rw [hremoved] at hsent
    rcases c.perform_cases (w.counters m) with ⟨-, hnone⟩ | ⟨other, value, -, -, hc⟩ |
        ⟨other, value, -, hc⟩ | ⟨other, rfl, -⟩
    · rw [hnone] at hsent
      cases hsent
    · rw [hc] at hsent
      cases hsent
    · rw [hc] at hsent
      cases hsent
    · exact hx

/-- In a run without removals every counter is added when no removal is queued. -/
theorem fresh_of_noRemoval
    (h : System.Reaches (world Unit s₀) (fun w e => NoRemoval e ∧ AddsAs R w e) w) :
    System.Reaches (world Unit s₀) (fun w e => FreshAdd w e ∧ AddsAs R w e) w := by
  refine h.mono fun w e hw he => ⟨?_, he.2⟩
  have hstays : ∀ name, Stays name w.events_ := fun name =>
    hw.invariant (I := fun w => Stays name w.events_) (fun e he => absurd he List.not_mem_nil)
      fun w e w' _ h he hs => stays_step h he.1 hs
  unfold FreshAdd
  split
  · exact fun _ => hstays _
  · trivial

/-- **Counter values.** In every run without removals in which every added counter has an
initial value whose lower 32 bits are zero, the debugger shows the values of the module
whenever the queue is empty. -/
theorem counter_values_shown (h₀ : s₀.data_manager.counters = ∅)
    (h : System.Reaches (world Unit s₀) (fun w e => NoRemoval e ∧ AddsAs Shown w e) w)
    (hempty : w.events_ = []) {name : String} {value : UInt64}
    (hvalue : (w.counters ())[name]? = some value) :
    w.debugger.data_manager.getCounterValue name = int32 value.toNat := by
  obtain ⟨r, hr, hrel⟩ := agrees_of_reaches (R := Shown) (fun _ => rfl) h₀ (fresh_of_noRemoval h)
  rw [hempty] at hr
  cases hr
  have hname := hrel name
  rw [hvalue] at hname
  rw [getCounterValue_eq]
  cases hknown : known w.debugger name with
  | none =>
    rw [hknown] at hname
    cases hname
  | some d =>
    rw [hknown] at hname
    cases hname with
    | some hd => exact hd.symm

/-- A counter that begins with `0` is set to `7`. -/
theorem counter_values_shown_set : ∃ w : World Unit, w.events_.isEmpty = true ∧
    w.debugger.data_manager.getCounterValue "x" = int32 (7 : UInt64).toNat := by
  have hinit : System.Reaches (world Unit { simulation := .running })
    (fun w e => NoRemoval e ∧ AddsAs Shown w e) _ := .init
  have hadd := hinit.get (.call () (.add_counter "x" 0) 0)
    ⟨trivial, fun _ => show int32 (0 : UInt64).toNat = 0 by decide⟩ (by decide +kernel)
  have hset := hadd.get (.call () (.set_counter "x" 7) 1) ⟨trivial, trivial⟩ (by decide +kernel)
  have htold := hset.get (.deliver ()) ⟨trivial, trivial⟩ (by decide +kernel)
  refine ⟨_, ?_, counter_values_shown rfl htold ?_ ?_⟩
  · decide +kernel
  · exact List.isEmpty_iff.mp (by decide +kernel)
  · decide +kernel

/-- The debugger shows `0` for a counter that has just been added, whatever its value is. -/
theorem added_value_shown (h₀ : s₀.data_manager.counters = ∅)
    (h : System.Reaches (world Unit s₀) FreshAdd w) {name : String} {value : UInt64} {time : ℚ}
    (hfresh : FreshAdd w (.call () (.add_counter name value) time))
    (hnew : (w.counters ())[name]? = none)
    (hs : w.step (.call () (.add_counter name value) time) = some w') :
    w'.events_ = w.events_ ∧ (w'.counters ())[name]? = some value ∧
      w'.debugger.data_manager.getCounterValue name = 0 := by
  have hagrees : w.Agrees fun _ _ => True :=
    agrees_of_reaches (fun _ => trivial) h₀ (h.mono fun w e _ he => ⟨he, addsAs_true w e⟩)
  obtain ⟨-, rfl⟩ := World.step_call hs
  rw [CounterCall.perform_add hnew]
  refine ⟨rfl, ?_, ?_⟩
  · rw [World.called_counters, update_self]
    exact Std.ExtTreeMap.getElem?_insert_self
  · rw [getCounterValue_eq, World.called, World.emit, known_counter_added,
      Core.Agrees.unknown hagrees hnew (hfresh hnew), update_self]
    rfl

/-- A counter is added with the value `5`, and the debugger shows `0`. -/
theorem initial_value_missed :
    ∃ w, System.Reachable (world Unit { simulation := .running }) w ∧ w.events_ = [] ∧
      (w.counters ())["x"]? = some 5 ∧ w.debugger.data_manager.getCounterValue "x" = 0 ∧
      int32 (5 : UInt64).toNat = 5 := by
  have hinit : System.Reaches (world Unit { simulation := .running }) FreshAdd _ := .init
  have hadd := Option.isSome_iff_exists.mp (show ((world Unit { simulation := .running }).step
    (world Unit { simulation := .running }).init (.call () (.add_counter "x" 5) 0)).isSome by
      decide +kernel)
  obtain ⟨w, hw⟩ := hadd
  obtain ⟨hevents, hvalue, hshown⟩ := added_value_shown rfl hinit
    (fun _ e he => absurd he List.not_mem_nil) (by decide +kernel) hw
  exact ⟨w, .step .init trivial hw, hevents, hvalue, hshown, by decide⟩

end Pfp.Core
