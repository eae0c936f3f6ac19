import PFPSim.Debugger.Frames
import PFPSim.Lists.Folds

/-!
# What the debugger reports of the past

The simulation time, the dropped packets, the ignored modules and the flag for drops are
functions of the steps of a session (`replay_past`): the latest time of an event, all drops
in order, and what the last requests have said. The updates of traces are published in the
order of the time (`published_in_order`).
-/

namespace Pfp.Db

open Runs

variable {cv : Conversions} {cp : Option CPDebuggerInterface} {s s' : Session} {sh sh' : Shared}

/-! ## Histories -/

theorem replay_past {es : List Step} (h : (session cv cp).replay s es = some s') :
    s'.data_manager.past = es.foldl Past.after s.data_manager.past := by
  induction es generalizing s with
  | nil =>
    cases h
    rfl
  | cons x es ih =>
    obtain ⟨t, ht, h⟩ := Option.bind_eq_some_iff.mp h
    rw [ih h, step_past ht, List.foldl_cons]

/-- The time of an event that is observed. -/
def Step.time : Step → Option ℚ
  | .event (.counter_added _ time) | .event (.counter_removed _ time)
  | .event (.counter_updated _ _ time) | .event (.activity _ time) => some time
  | .event (.data_written _ data time) | .event (.data_read _ data time)
  | .event (.data_dropped _ data _ time) => if data.debuggable then some time else none
  | _ => none

def Step.drop : Step → Option (Int × String × String)
  | .event (.data_dropped mod data reason _) =>
    if data.debuggable then some (int32 data.id.toNat, mod, reason) else none
  | _ => none

/-- Whether a request ignores the module from then on. -/
def Step.ignores (mod : String) : Step → Option Bool
  | .request (.IgnoreModule m delete) => if m = mod then some (!delete) else none
  | _ => none

def Step.breaksOnDrop : Step → Option Bool
  | .request (.BreakOnPacketDrop on) => some on
  | _ => none

theorem after_time (p : Past) (x : Step) :
    (p.after x).time = (x.time.map (max p.time)).getD p.time := by
  cases x with
  | event e =>
    cases e <;> simp only [Past.after, Past.event, Step.time] <;> first | rfl | split <;> rfl
  | request r => cases r <;> rfl
  | start | resume | reply => rfl

theorem after_dropped (p : Past) (x : Step) :
    (p.after x).dropped = p.dropped ++ x.drop.toList := by
  have hnil : p.dropped = p.dropped ++ [] := (List.append_nil _).symm
  cases x with
  | event e =>
    cases e with
    | data_dropped mod data reason time =>
      simp only [Past.after, Past.event, Step.drop]
      split
      · rfl
      · exact hnil
    | data_written mod data time | data_read mod data time =>
      simp only [Past.after, Past.event]
      split <;> exact hnil
    | _ => exact hnil
  | request r => cases r <;> exact hnil
  | start | resume | reply => exact hnil

theorem after_break_on_drop (p : Past) (x : Step) :
    (p.after x).break_on_drop = x.breaksOnDrop.getD p.break_on_drop := by
  cases x with
  | event e => cases e <;> simp only [Past.after, Past.event] <;> first | rfl | split <;> rfl
  | request r => cases r <;> rfl
  | start | resume | reply => rfl

/-- A module is on the list once. -/
theorem after_nodup (p : Past) (x : Step) (hp : p.ignored.Nodup) : (p.after x).ignored.Nodup := by
  cases x with
  | event e =>
    cases e <;> simp only [Past.after, Past.event] <;> first | exact hp | split <;> exact hp
  | request r =>
    cases r with
    | IgnoreModule mod delete =>
      simp only [Past.after, Past.request, Past.ignore]
      split
      · exact hp.erase mod
      · split
        · exact hp
        · rename_i hmem
          exact List.nodup_append.mpr ⟨hp, List.nodup_singleton mod, by
            rintro m hm m' hm' rfl
            exact hmem (List.mem_singleton.mp hm' ▸ hm)⟩
    | _ => exact hp
  | start | resume | reply => exact hp

theorem mem_after_ignored (mod : String) (p : Past) (x : Step) (hp : p.ignored.Nodup) :
    mod ∈ (p.after x).ignored ↔ (x.ignores mod).getD (decide (mod ∈ p.ignored)) = true := by
  have hsame : mod ∈ p.ignored ↔ (none.getD (decide (mod ∈ p.ignored))) = true := by simp
  cases x with
  | event e =>
    cases e <;> simp only [Past.after, Past.event] <;> first | exact hsame | split <;> exact hsame
  | request r =>
    cases r with
    | IgnoreModule m delete =>
      simp only [Past.after, Past.request, Past.ignore, Step.ignores]
      cases delete with
      | true =>
        rw [if_pos rfl, hp.mem_erase_iff]
        by_cases hm : m = mod
        · simp [hm]
        · simp [hm, Ne.symm hm]
      | false =>
        by_cases hm : m = mod
        · subst hm
          by_cases hmem : m ∈ p.ignored
          · simp [hmem]
          · simp [hmem]
        · by_cases hmem : m ∈ p.ignored
          · simp [hmem, hm]
          · simp [hmem, hm, Ne.symm hm]
    | _ => exact hsame
  | start | resume | reply => exact hsame

/-- A module is ignored if the last request about it says so. -/
theorem checkIgnoreModules_of_replay {es : List Step}
    (h : (session cv cp).replay { control_plane := cp } es = some s) (mod : String) :
    s.data_manager.checkIgnoreModules mod =
      ((es.filterMap (Step.ignores mod)).getLast?).getD false := by
  have hpast : s.data_manager.past = es.foldl Past.after {} := replay_past h
  have hignored : decide (mod ∈ (es.foldl Past.after {}).ignored) = _ :=
    Lists.foldl_last (fun p : Past => decide (mod ∈ p.ignored))
      (I := fun p : Past => p.ignored.Nodup) after_nodup (fun p x hp => Bool.eq_iff_iff.mpr
        (decide_eq_true_iff.trans (mem_after_ignored mod p x hp))) List.nodup_nil
  rw [← hpast] at hignored
  exact hignored

/-- A drop stops the simulation exactly if the flag is set. -/
theorem drop_stops {mod reason : String} {data : TrType} {time : ℚ}
    (hdata : data.debuggable = true)
    (h : (session cv cp).step s (.event (.data_dropped mod data reason time)) = some s') :
    (∃ loop, s'.shared.simulation = .paused loop) ↔ s.data_manager.past.break_on_drop = true := by
  obtain ⟨hen, h⟩ := step_eq_some.mp h
  cases h
  simp only [enabled, decide_eq_true_eq] at hen
  have hflag := congrArg Past.break_on_drop (updateSimulationTime_past s.shared time)
  have hthreads := congrArg Threads.simulation (updateSimulationTime_threads s.shared time)
  show (∃ loop, (data_dropped mod data reason time s.shared).simulation = _) ↔ _
  unfold data_dropped
  rw [hdata]
  simp only [Bool.true_eq_false, if_false]
  by_cases hon : s.data_manager.past.break_on_drop = true
  · have hset : ((s.shared.updateSimulationTime time).data_manager.addDroppedPacket
        (int32 data.id.toNat) mod reason).break_packet_dropped = true := hflag.trans hon
    rw [if_pos hset]
    exact iff_of_true ⟨none, rfl⟩ hon
  · have hset : ¬ ((s.shared.updateSimulationTime time).data_manager.addDroppedPacket
        (int32 data.id.toNat) mod reason).break_packet_dropped = true :=
      fun hset => hon (hflag.symm.trans hset)
    rw [if_neg hset]
    refine iff_of_false ?_ hon
    rintro ⟨loop, hpaused⟩
    replace hthreads : (s.shared.updateSimulationTime time).simulation = s.shared.simulation :=
      hthreads
    replace hpaused : (s.shared.updateSimulationTime time).simulation = .paused loop := hpaused
    rw [hthreads, hen] at hpaused
    cases hpaused

/-- **History.** The time is the latest of an event, the dropped packets are all drops in order,
a module is ignored if the last request about it says so, and a drop stops the simulation if
the last request about drops says so. -/
theorem reports_history {es : List Step}
    (h : (session cv cp).replay { control_plane := cp } es = some s) :
    s.data_manager.simulation_time = (es.filterMap Step.time).foldl max 0 ∧
    s.data_manager.dropped_packet_list = es.filterMap Step.drop ∧
    (∀ mod, s.data_manager.checkIgnoreModules mod =
      ((es.filterMap (Step.ignores mod)).getLast?).getD false) ∧
    ∀ mod data reason time s', data.debuggable = true →
      (session cv cp).step s (.event (.data_dropped mod data reason time)) = some s' →
      ((∃ loop, s'.shared.simulation = .paused loop) ↔
        ((es.filterMap Step.breaksOnDrop).getLast?).getD false = true) := by
  have hpast : s.data_manager.past = es.foldl Past.after {} := replay_past h
  have hflag : s.data_manager.past.break_on_drop =
      ((es.filterMap Step.breaksOnDrop).getLast?).getD false := by
    rw [hpast]
    exact Lists.foldl_last Past.break_on_drop (I := fun _ => True) (fun _ _ _ => trivial)
      (fun p x _ => after_break_on_drop p x) trivial
  refine ⟨?_, ?_, fun mod => ?_, fun mod data reason time s' hdata hstep => ?_⟩
  · have htime := congrArg Past.time hpast
    rw [Lists.foldl_combine Past.time after_time] at htime
    exact htime
  · have hdropped := congrArg Past.dropped hpast
    rw [Lists.foldl_collect Past.dropped after_dropped] at hdropped
    exact hdropped
  · exact checkIgnoreModules_of_replay h mod
  · rw [drop_stops hdata hstep, hflag]

/-- A drop in a module that is ignored, behind a request to break on drops. -/
def dropRun : List Step :=
  [.request (.BreakOnPacketDrop true), .request (.IgnoreModule "m" false), .request (.Run none),
    .start, .event (.activity .core_busy 3), .event (.data_dropped "m" ⟨7, true, none⟩ "full" 5)]

theorem reports_history_drop : ∃ s, (session decimal none).replay {} dropRun = some s ∧
    s.data_manager.simulation_time = (dropRun.filterMap Step.time).foldl max 0 ∧
    s.data_manager.dropped_packet_list = [(7, "m", "full")] ∧
    s.data_manager.checkIgnoreModules "m" = true := by
  have hrun : ((session decimal none).replay {} dropRun).isSome = true := by decide +kernel
  have hdrops : dropRun.filterMap Step.drop = [(7, "m", "full")] := by decide +kernel
  have hlast : ((dropRun.filterMap (Step.ignores "m")).getLast?).getD false = true := by
    decide +kernel
  obtain ⟨s, hs⟩ := Option.isSome_iff_exists.mp hrun
  obtain ⟨htime, hdropped, hignored, -⟩ := reports_history hs
  exact ⟨s, hs, htime, hdropped.trans hdrops, (hignored "m").trans hlast⟩

/-! ## Updates of traces -/

/-- The time that an update of a trace is published with. -/
def Shared.timestamp (sh : Shared) : Nat := sh.data_manager.simulation_time.floor.toNat

/-- The updates published between two states are behind the earlier ones, in the order of their
times, and from the time between the states. -/
structure Publishes (sh sh' : Shared) : Prop where
  later : sh.data_manager.simulation_time ≤ sh'.data_manager.simulation_time
  added : ∃ updates, sh'.published = sh.published ++ updates ∧
    updates.Pairwise (fun u v => u.timestamp ≤ v.timestamp) ∧
    ∀ u ∈ updates, sh.timestamp ≤ u.timestamp ∧ u.timestamp ≤ sh'.timestamp

namespace Publishes

theorem timestamp_le (h : Publishes sh sh') : sh.timestamp ≤ sh'.timestamp :=
  Int.toNat_le_toNat (Rat.floor_monotone h.later)

/-- Nothing is published. -/
theorem quiet (hp : sh'.published = sh.published)
    (ht : sh.data_manager.simulation_time ≤ sh'.data_manager.simulation_time) :
    Publishes sh sh' :=
  ⟨ht, [], hp.trans (List.append_nil _).symm, .nil, nofun⟩

theorem trans {sh'' : Shared} (h : Publishes sh sh') (h' : Publishes sh' sh'') :
    Publishes sh sh'' := by
  obtain ⟨us, hus, hsorted, hbetween⟩ := h.added
  obtain ⟨vs, hvs, hsorted', hbetween'⟩ := h'.added
  refine ⟨h.later.trans h'.later, us ++ vs, by rw [hvs, hus, List.append_assoc], ?_, ?_⟩
  · refine List.pairwise_append.mpr ⟨hsorted, hsorted', fun u hu v hv => ?_⟩
    exact (hbetween u hu).2.trans (hbetween' v hv).1
  · intro u hu
    obtain hu | hu := List.mem_append.mp hu
    · exact ⟨(hbetween u hu).1, (hbetween u hu).2.trans h'.timestamp_le⟩
    · exact ⟨h.timestamp_le.trans (hbetween' u hu).1, (hbetween' u hu).2⟩

theorem updateTrace (sh : Shared) (id : Int) (value : ℚ) :
    Publishes sh (sh.updateTrace id value) := by
  refine ⟨le_rfl, _, rfl, List.pairwise_singleton _ _, fun u hu => ?_⟩
  rw [List.mem_singleton.mp hu]
  exact ⟨Nat.le_refl _, Nat.le_refl _⟩

theorem updateTraces (ts : List TraceData) (sh : Shared) :
    Publishes sh (ts.foldl (fun s t => s.updateTrace t.id t.value) sh) := by
  induction ts generalizing sh with
  | nil => exact quiet rfl le_rfl
  | cons t ts ih => exact (updateTrace sh t.id t.value).trans (ih _)

end Publishes

theorem Past.le_event_time (p : Past) (e : Event) : p.time ≤ (p.event e).time := by
  have hmax : ∀ time, p.time ≤ (p.advance time).time := fun time => le_max_left p.time time
  cases e with
  | counter_added _ time | counter_removed _ time | counter_updated _ _ time | activity _ time =>
    exact hmax time
  | data_written _ data time | data_read _ data time =>
    simp only [Past.event]
    split
    · exact hmax time
    · exact le_rfl
  | data_dropped _ data _ time =>
    simp only [Past.event]
    split
    · exact hmax time
    · exact le_rfl
  | simulation_end => exact le_rfl

theorem access_publishes (sh : Shared) (read : Bool) (mod : String) (data : TrType) (time : ℚ) :
    Publishes sh (sh.access read mod data time) := by
  have hpacket := perform_past (.updatePacket (int32 data.id.toNat) data.debug_info mod time read)
    (sh.updateSimulationTime time).data_manager
  have htime := congrArg Past.time (hpacket.trans (updateSimulationTime_past sh time))
  have hquiet : Publishes sh { sh.updateSimulationTime time with
      data_manager := (perform (.updatePacket (int32 data.id.toNat) data.debug_info mod time read)
        (sh.updateSimulationTime time).data_manager).2 } :=
    .quiet (updateSimulationTime_published sh time) ((le_max_left _ _).trans_eq htime.symm)
  exact hquiet.trans (.updateTraces _ _)

theorem data_access_publishes {read : Bool} {mod : String} {data : TrType} {time : ℚ}
    (h : data_access cv read mod data time sh = .ok sh') : Publishes sh sh' := by
  rw [data_access_eq] at h
  split at h
  · cases h
    exact .quiet rfl le_rfl
  · have hpublishes := access_publishes sh read mod data time
    split at h
    · have hbeside := checkBreakpointHit_beside h
      refine hpublishes.trans (.quiet (congrArg (fun x => x.2.2) hbeside) ?_)
      exact (congrArg (fun x => x.1.time) hbeside).ge
    · cases h
      exact hpublishes

/-- The update of a counter is published with the time before its event. -/
theorem counter_updated_publishes {name : String} {value : UInt64} {time : ℚ}
    (h : counter_updated name value time sh = .ok sh') : Publishes sh sh' := by
  have htime := congrArg Past.time (counter_updated_past h)
  obtain ⟨dm, hdm, h⟩ := bind_eq_ok.mp h
  generalize hsh : (if sh.data_manager.getCounterTraceId name ≥ 0 then
    sh.updateTrace (sh.data_manager.getCounterTraceId name) value.toNat else sh) = t at hdm h
  have hupdate : Publishes sh t := by
    rw [← hsh]
    split
    · exact .updateTrace sh _ _
    · exact .quiet rfl le_rfl
  have hsame : t.data_manager.simulation_time = sh.data_manager.simulation_time := by
    rw [← hsh]
    split <;> rfl
  cases h
  refine hupdate.trans (.quiet ?_ (hsame.le.trans ((le_max_left _ _).trans_eq htime.symm)))
  rw [watchLoop_published, updateSimulationTime_published]

theorem observe_publishes {e : Event} (h : observe cv e sh = .ok sh') : Publishes sh sh' := by
  have htime : sh.data_manager.simulation_time ≤ sh'.data_manager.simulation_time :=
    (Past.le_event_time _ e).trans_eq (congrArg Past.time (observe_past h)).symm
  cases e with
  | counter_added name time | counter_removed name time =>
    cases h
    exact .quiet (updateSimulationTime_published _ time) htime
  | counter_updated name value time => exact counter_updated_publishes h
  | data_written mod data time =>
    exact data_access_publishes (show data_access cv false mod data time sh = .ok sh' from h)
  | data_read mod data time =>
    exact data_access_publishes (show data_access cv true mod data time sh = .ok sh' from h)
  | data_dropped mod data reason time =>
    cases h
    exact .quiet (data_dropped_published mod data reason time sh) htime
  | activity kind time =>
    cases h
    exact .quiet (updateSimulationTime_published _ time) htime
  | simulation_end =>
    cases h
    exact .quiet rfl le_rfl

theorem step_publishes {x : Step} (h : (session cv cp).step s x = some s') :
    Publishes s.shared s'.shared := by
  obtain ⟨-, h⟩ := step_eq_some.mp h
  cases x with
  | request r =>
    have hpublished := congrArg Prod.snd (parseRequest_reported h)
    have htime : (s.data_manager.past.request r).time = s.data_manager.past.time := by
      cases r <;> rfl
    exact .quiet hpublished ((congrArg Past.time (request_past h)).trans htime).ge
  | start =>
    cases h
    exact .quiet rfl le_rfl
  | event e =>
    obtain ⟨sh, hsh, h⟩ := bind_eq_ok.mp h
    cases h
    exact observe_publishes hsh
  | resume =>
    simp only [exec] at h
    split at h
    · rename_i loop hpaused
      cases h
      refine .quiet ?_ (resume_data_manager loop s.shared ▸ le_rfl)
      clear hpaused
      cases loop with
      | none => rfl
      | some w => exact watchLoop_published ..
    · cases h
      exact .quiet rfl le_rfl
  | reply =>
    cases h
    exact .quiet rfl le_rfl

/-- **Order.** From any state on, the updates of traces are published in the order of the time. -/
theorem published_in_order {es : List Step} (h : (session cv cp).replay s es = some s') :
    Publishes s.shared s'.shared :=
  System.rel_of_replay (R := fun s s' : Session => Publishes s.shared s'.shared)
    (fun _ => .quiet rfl le_rfl) (fun _ _ _ => .trans) (fun _ _ _ => step_publishes) h

/-- A counter that is traced and updated twice. -/
def tracedRun : List Step :=
  [.request (.Run none), .start, .event (.counter_added "c" 1), .event (.simulation_end), .reply,
    .request (.StartTracing ⟨some 3, "c", ""⟩), .request (.Continue none), .resume,
    .event (.counter_updated "c" 5 2), .event (.counter_updated "c" 8 3)]

theorem published_in_order_traced : ∃ s, (session decimal none).replay {} tracedRun = some s ∧
    Publishes {} s.shared ∧ s.shared.published.length = 2 := by
  have hrun : (((session decimal none).replay {} tracedRun).map
      fun s => s.shared.published.length) = some 2 := by decide +kernel
  obtain ⟨s, hs, hlength⟩ := Option.map_eq_some_iff.mp hrun
  exact ⟨s, hs, published_in_order hs, hlength⟩

end Pfp.Db
