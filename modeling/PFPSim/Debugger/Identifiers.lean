import PFPSim.Debugger.BreakpointList
import PFPSim.Lists.Numbered

/-!
# Identifiers

The identifiers of the breakpoints and the watchpoints. The watchpoints with their counter
(`WatchTable`) are followed through a session as the breakpoints are; in both lists the
identifiers increase below the next one, and an identifier that has been taken does not
come back. So what a request does by an identifier it does to one element.
-/

namespace Pfp.Db

open Relation Lists

/-! ## Watchpoints -/

structure WatchTable where
  list : List Watchpoint
  next_id : Int

/-- The list of `addWatchpoint`. -/
def insertWatch (l : List Watchpoint) (wp : Watchpoint) : List Watchpoint :=
  if l.any fun w => w.counter_name = wp.counter_name then l else l ++ [wp]

/-- The changes of the table. -/
inductive WatchEdit : WatchTable → WatchTable → Prop
  | keep (t : WatchTable) : WatchEdit t t
  | set {l : List Watchpoint} {n : Int} (wp : Watchpoint) (hid : wp.id = n) :
      WatchEdit ⟨l, n⟩ ⟨insertWatch l wp, n + 1⟩
  | remove {l : List Watchpoint} {n : Int} (id : Int) :
      WatchEdit ⟨l, n⟩ ⟨removeFirst Watchpoint.id id l, n⟩
  | disable {l : List Watchpoint} {n : Int} (id : Int) (disabled : Bool) :
      WatchEdit ⟨l, n⟩ ⟨updateFirst Watchpoint.id id (fun w => { w with disabled }) l, n⟩

/-- The identifiers increase below the next one, and no two watchpoints have a counter. -/
structure WatchTable.Valid (t : WatchTable) : Prop where
  ordered : t.list.Pairwise fun x y => x.id < y.id
  named : t.list.Pairwise fun x y => x.counter_name ≠ y.counter_name
  range : ∀ w ∈ t.list, 0 ≤ w.id ∧ w.id < t.next_id
  next_nonneg : 0 ≤ t.next_id

namespace WatchTable.Valid

variable {l l' : List Watchpoint} {n : Int} {t t' : WatchTable}

theorem sublist (h : Valid ⟨l, n⟩) (hl : l'.Sublist l) : Valid ⟨l', n⟩ where
  ordered := h.ordered.sublist hl
  named := h.named.sublist hl
  range w hw := h.range w (hl.subset hw)
  next_nonneg := h.next_nonneg

/-- Only the flag `disabled` changes. -/
theorem disable (h : Valid ⟨l, n⟩) (id : Int) (disabled : Bool) :
    Valid ⟨updateFirst Watchpoint.id id (fun w => { w with disabled }) l, n⟩ := by
  have hmap {β : Type} (g : Watchpoint → β) (hg : ∀ w : Watchpoint, g { w with disabled } = g w) :
      (updateFirst Watchpoint.id id (fun w => { w with disabled }) l).map g = l.map g :=
    map_updateFirst g hg
  refine ⟨?_, ?_, ?_, h.next_nonneg⟩
  · have hids := h.ordered.map (S := (· < ·)) Watchpoint.id fun _ _ hxy => hxy
    rw [← hmap Watchpoint.id fun _ => rfl] at hids
    exact List.pairwise_map.mp hids
  · have hnames := h.named.map (S := (· ≠ ·)) Watchpoint.counter_name fun _ _ hxy => hxy
    rw [← hmap Watchpoint.counter_name fun _ => rfl] at hnames
    exact List.pairwise_map.mp hnames
  · intro w hw
    rcases mem_updateFirst hw with hw | ⟨v, hv, rfl⟩
    · exact h.range w hw
    · exact h.range v hv

theorem insertWatch (h : Valid ⟨l, n⟩) {wp : Watchpoint} (hid : wp.id = n) :
    Valid ⟨insertWatch l wp, n + 1⟩ := by
  have hgrow : Valid ⟨l, n + 1⟩ := by
    refine ⟨h.ordered, h.named, fun w hw => ⟨(h.range w hw).1, ?_⟩, ?_⟩
    · exact Int.lt_trans (h.range w hw).2 (Int.lt_succ n)
    · exact Int.le_trans h.next_nonneg (Int.le_add_one (Int.le_refl n))
  unfold Db.insertWatch
  split
  · exact hgrow
  · rename_i hnone
    rw [Bool.not_eq_true, List.any_eq_false] at hnone
    refine ⟨?_, ?_, ?_, hgrow.next_nonneg⟩
    · refine List.pairwise_append.mpr ⟨h.ordered, List.pairwise_singleton _ _, ?_⟩
      intro x hx y hy
      rw [List.mem_singleton.mp hy, hid]
      exact (h.range x hx).2
    · refine List.pairwise_append.mpr ⟨h.named, List.pairwise_singleton _ _, ?_⟩
      intro x hx y hy
      rw [List.mem_singleton.mp hy]
      simpa using hnone x hx
    · intro w hw
      rcases List.mem_append.mp hw with hw | hw
      · exact hgrow.range w hw
      · rw [List.mem_singleton.mp hw, hid]
        exact ⟨h.next_nonneg, Int.lt_succ n⟩

theorem edit (h : t.Valid) (he : WatchEdit t t') : t'.Valid := by
  cases he with
  | keep => exact h
  | set wp hid => exact h.insertWatch hid
  | remove id => exact h.sublist removeFirst_sublist
  | disable id disabled => exact h.disable id disabled

end WatchTable.Valid

theorem WatchEdit.descends {t t' : WatchTable} (h : WatchEdit t t') :
    Descends Watchpoint.id t.list t.next_id t'.list t'.next_id := by
  cases h with
  | keep => exact .refl _ _ _
  | @set l n wp hid =>
    have hn : n ≤ n + 1 := Int.le_add_one (Int.le_refl n)
    simp only [insertWatch]
    split
    · exact .grow hn
    · exact .append (.inl hid) hn
  | remove id => exact .of_subset (removeFirst_sublist.map Watchpoint.id).subset
  | disable id disabled => exact .of_map_eq (map_updateFirst Watchpoint.id fun _ => rfl)

/-! ## Breakpoints -/

theorem Edit.descends {P : Conditions → Prop} {t t' : Table} (h : Edit P t t') :
    Descends Breakpoint.id t.list t.next_id t'.list t'.next_id := by
  cases h with
  | @user l n br hid _ =>
    have hn : n ≤ n + 1 := Int.le_add_one (Int.le_refl n)
    simp only [insertNew]
    split
    · exact .grow hn
    · exact .append (.inl hid) hn
  | @stealth l n br hid _ _ =>
    simp only [insertNew]
    split
    · exact .refl _ _ _
    · refine .append (.inr ?_) (Int.le_refl n)
      rw [hid]
      decide
  | remove id => exact .of_subset (removeFirst_sublist.map Breakpoint.id).subset
  | disable id disabled => exact .of_map_eq (map_updateFirst Breakpoint.id fun _ => rfl)

theorem Edits.descends {P : Conditions → Prop} {t t' : Table} (h : Edits P t t') :
    Descends Breakpoint.id t.list t.next_id t'.list t'.next_id := by
  induction h with
  | refl => exact .refl _ _ _
  | tail _ he ih => exact ih.trans he.descends

/-! ## Sessions -/

def DebugDataManager.watchTable (dm : DebugDataManager) : WatchTable :=
  ⟨dm.watchpoint_list, dm.watchpoint_next_id⟩

variable {P : Conditions → Prop} {dm dm' : DebugDataManager}

theorem addBreakpoint_watchTable (dm : DebugDataManager) (br : Breakpoint) :
    (dm.addBreakpoint br).watchTable = dm.watchTable := by
  unfold DebugDataManager.addBreakpoint
  split <;> rfl

theorem addWatchpoint_watchTable (dm : DebugDataManager) (wp : Watchpoint) :
    (dm.addWatchpoint wp).watchTable =
      ⟨insertWatch dm.watchpoint_list wp, dm.watchpoint_next_id⟩ := by
  unfold DebugDataManager.addWatchpoint insertWatch
  split <;> rfl

/-- The calls leave the watchpoints alone. -/
theorem perform_watchTable (c : Call) (dm : DebugDataManager) :
    (perform c dm).2.watchTable = dm.watchTable := by
  rw [perform_frame]
  rfl

theorem WatchEdit.of_eq {t t' : WatchTable} (h : t' = t) : WatchEdit t t' := h ▸ .keep t

theorem Change.watchEdit (h : Change P dm dm') : WatchEdit dm.watchTable dm'.watchTable := by
  cases h with
  | call c => exact .of_eq (perform_watchTable c dm)
  | setBreakpoint br hid hP => exact .of_eq (addBreakpoint_watchTable _ br)
  | addStealth br hid htemp hP => exact .of_eq (addBreakpoint_watchTable _ br)
  | setWatchpoint name disabled =>
    rw [addWatchpoint_watchTable]
    exact .set _ rfl
  | removeWatchpoint id => exact .remove id
  | setWatchpointDisabled id disabled => exact .disable id disabled
  | addIgnoreModule mod =>
    apply WatchEdit.of_eq
    unfold DebugDataManager.addIgnoreModule
    split <;> rfl
  | _ => exact .keep _

theorem Changes.watch_valid (h : Changes P dm dm') (hv : dm.watchTable.Valid) :
    dm'.watchTable.Valid := by
  induction h with
  | refl => exact hv
  | tail _ hchange ih => exact ih.edit hchange.watchEdit

namespace DebugDataManager

/-- The identifiers of the user's breakpoints, in the order of the list. -/
def userIds (dm : DebugDataManager) : List Int :=
  (dm.breakpoint_list.filter fun b => ¬ b.stealth).map Breakpoint.id

def watchIds (dm : DebugDataManager) : List Int := dm.watchpoint_list.map Watchpoint.id

/-- In both lists the identifiers increase below the next one. -/
structure Numbered (dm : DebugDataManager) : Prop where
  breakpoints : dm.userIds.Pairwise (· < ·)
  breakpoints_below : ∀ k ∈ dm.userIds, 0 ≤ k ∧ k < dm.breakpoint_next_id
  watchpoints : dm.watchIds.Pairwise (· < ·)
  watchpoints_below : ∀ k ∈ dm.watchIds, 0 ≤ k ∧ k < dm.watchpoint_next_id
  counter_names : (dm.watchpoint_list.map Watchpoint.counter_name).Nodup

/-- What is done by the identifier `k` is done to its one element and to no other. -/
structure Identifies (dm : DebugDataManager) (k : Int) : Prop where
  breakpoint : (dm.breakpoint_list.filter fun b => b.id = k).length ≤ 1
  removeBreakpoint : dm.removeBreakpoint k =
    { dm with breakpoint_list := dm.breakpoint_list.filter fun b => b.id ≠ k }
  setBreakpointDisabled : ∀ disabled, dm.setBreakpointDisabled k disabled =
    { dm with breakpoint_list :=
        dm.breakpoint_list.map fun b => if b.id = k then { b with disabled } else b }
  watchpoint : (dm.watchpoint_list.filter fun w => w.id = k).length ≤ 1
  removeWatchpoint : dm.removeWatchpoint k =
    { dm with watchpoint_list := dm.watchpoint_list.filter fun w => w.id ≠ k }
  setWatchpointDisabled : ∀ disabled, dm.setWatchpointDisabled k disabled =
    { dm with watchpoint_list :=
        dm.watchpoint_list.map fun w => if w.id = k then { w with disabled } else w }

/-- An identifier that has been taken and is in no element does not come back. -/
structure NeverAgain (dm dm' : DebugDataManager) : Prop where
  breakpoint_next_id : dm.breakpoint_next_id ≤ dm'.breakpoint_next_id
  watchpoint_next_id : dm.watchpoint_next_id ≤ dm'.watchpoint_next_id
  breakpoints : ∀ k, 0 ≤ k → k < dm.breakpoint_next_id → k ∉ dm.userIds → k ∉ dm'.userIds
  watchpoints : ∀ k, 0 ≤ k → k < dm.watchpoint_next_id → k ∉ dm.watchIds → k ∉ dm'.watchIds

theorem mem_userIds {k : Int} (hk : 0 ≤ k) :
    k ∈ dm.userIds ↔ k ∈ dm.breakpoint_list.map Breakpoint.id := by
  simp only [userIds, List.mem_map, List.mem_filter, decide_eq_true_eq]
  refine ⟨fun ⟨b, hb, hid⟩ => ⟨b, hb.1, hid⟩, fun ⟨b, hb, hid⟩ => ⟨b, ⟨hb, ?_⟩, hid⟩⟩
  intro hs
  have hneg : b.id = -1 := hs
  omega

theorem Numbered.of_valid (hv : dm.table.Valid) (hw : dm.watchTable.Valid) : dm.Numbered where
  breakpoints := by
    rw [userIds, List.pairwise_map, List.pairwise_filter]
    apply hv.ordered.imp
    intro x y hxy hx hy
    exact hxy (of_decide_eq_true hx) (of_decide_eq_true hy)
  breakpoints_below := by
    intro k hk
    obtain ⟨b, hb, rfl⟩ := List.mem_map.mp hk
    obtain ⟨hb, hs⟩ := List.mem_filter.mp hb
    exact (hv.range b hb).resolve_left (of_decide_eq_true hs)
  watchpoints := List.pairwise_map.mpr hw.ordered
  watchpoints_below := by
    intro k hk
    obtain ⟨w, hw', rfl⟩ := List.mem_map.mp hk
    exact hw.range w hw'
  counter_names := List.pairwise_map.mpr hw.named

theorem Identifies.of_valid (hv : dm.table.Valid) (hw : dm.watchTable.Valid) {k : Int}
    (hk : 0 ≤ k) : dm.Identifies k := by
  have hbreak : Single (fun b : Breakpoint => decide (b.id = k)) dm.breakpoint_list := by
    apply hv.ordered.imp
    intro x y hxy h
    obtain ⟨hx, hy⟩ := h
    have hx := of_decide_eq_true hx
    have hy := of_decide_eq_true hy
    have hlt := hxy (fun hs => by rw [Breakpoint.stealth] at hs; omega)
      (fun hs => by rw [Breakpoint.stealth] at hs; omega)
    omega
  have hwatch : Single (fun w : Watchpoint => decide (w.id = k)) dm.watchpoint_list := by
    apply hw.ordered.imp
    intro x y hxy h
    have hx := of_decide_eq_true h.1
    have hy := of_decide_eq_true h.2
    omega
  refine ⟨hbreak.length_filter_le, ?_, ?_, hwatch.length_filter_le, ?_, ?_⟩
  · simp only [DebugDataManager.removeBreakpoint, removeFirst, hbreak.eraseP_eq_filter, decide_not]
  · intro disabled
    simp only [DebugDataManager.setBreakpointDisabled, updateFirst,
      hbreak.modifyFirst_eq_map, decide_eq_true_eq]
  · simp only [DebugDataManager.removeWatchpoint, removeFirst, hwatch.eraseP_eq_filter, decide_not]
  · intro disabled
    simp only [DebugDataManager.setWatchpointDisabled, updateFirst,
      hwatch.modifyFirst_eq_map, decide_eq_true_eq]

theorem NeverAgain.of_descends
    (hb : Descends Breakpoint.id dm.breakpoint_list dm.breakpoint_next_id dm'.breakpoint_list
      dm'.breakpoint_next_id)
    (hw : Descends Watchpoint.id dm.watchpoint_list dm.watchpoint_next_id dm'.watchpoint_list
      dm'.watchpoint_next_id) : NeverAgain dm dm' where
  breakpoint_next_id := hb.1
  watchpoint_next_id := hw.1
  breakpoints k hk hlt hnot := by
    rw [mem_userIds hk] at hnot ⊢
    exact hb.not_mem hk hlt hnot
  watchpoints k hk hlt hnot := hw.not_mem hk hlt hnot

end DebugDataManager

theorem Changes.watch_descends (h : Changes P dm dm') :
    Descends Watchpoint.id dm.watchpoint_list dm.watchpoint_next_id dm'.watchpoint_list
      dm'.watchpoint_next_id := by
  induction h with
  | refl => exact .refl _ _ _
  | tail _ hchange ih => exact ih.trans hchange.watchEdit.descends

theorem Changes.any (h : Changes P dm dm') : Changes (fun _ => True) dm dm' := by
  refine ReflTransGen.mono ?_ _ _ h
  intro u v hchange
  cases hchange with
  | setBreakpoint br hid hP => exact .setBreakpoint _ br hid trivial
  | addStealth br hid htemp hP => exact .addStealth _ br hid htemp trivial
  | _ => constructor

variable {cv : Conversions} {cp : Option CPDebuggerInterface} {s s' : Session}

theorem replay_changes {es : List Step} (h : (session cv cp).replay s es = some s') :
    Changes (fun _ => True) s.data_manager s'.data_manager := by
  refine Runs.System.rel_of_replay
    (R := fun s s' : Session => Changes (fun _ => True) s.data_manager s'.data_manager)
    (fun _ => .refl) (fun _ _ _ => .trans) ?_ h
  intro s x s' hstep
  exact (exec_changes (step_eq_some.mp hstep).2).any

theorem reachable_watch_valid {Q : Session → Step → Prop} (h : (session cv cp).Reaches Q s) :
    s.data_manager.watchTable.Valid := by
  refine Runs.System.Reaches.invariant (I := fun s => s.data_manager.watchTable.Valid) ?_
    ?_ h
  · exact ⟨.nil, .nil, by simp [session, DebugDataManager.watchTable], Int.le_refl 0⟩
  · intro s x s' _ hs _ hstep
    exact (exec_changes (step_eq_some.mp hstep).2).watch_valid hs

/-- **Identifiers.** In every reachable state the identifiers increase below the next ones,
each identifies one element, no counter has two watchpoints, and an identifier that has been
removed is in no state of the rest of the run. -/
theorem identifiers_numbered (hs : (session cv cp).Reachable s) {es : List Step}
    (h : (session cv cp).replay s es = some s') :
    s.data_manager.Numbered ∧ (∀ k, 0 ≤ k → s.data_manager.Identifies k) ∧
      (∀ name, (s.data_manager.watchpoint_list.filter
        fun w => w.counter_name = name).length ≤ 1) ∧
      s.data_manager.NeverAgain s'.data_manager := by
  have hv := reachable_valid hs
  have hw := reachable_watch_valid hs
  have hchanges := replay_changes h
  refine ⟨.of_valid hv hw, fun k => .of_valid hv hw, fun name => ?_, ?_⟩
  · apply Single.length_filter_le
    apply hw.named.imp
    intro x y hxy hname
    exact hxy ((of_decide_eq_true hname.1).trans (of_decide_eq_true hname.2).symm)
  · exact .of_descends hchanges.edits.descends hchanges.watch_descends

def setOnRead (mod : String) : Step :=
  .request (.SetBreakpoint { condition_list := [.BREAK_ON_MODULE_READ], value_list := [mod] })

/-- The second breakpoint is dropped, and the first one removed. -/
def removedFirst : List Step :=
  [setOnRead "m", setOnRead "m", setOnRead "n", .request (.SetWatchpoint "c" ""),
    .request (.SetWatchpoint "c" ""), .request (.RemoveBreakpoint "0")]

/-- Neither the identifier that was dropped nor the one that was removed is used again. -/
theorem removed_identifier : ∃ s s', (session decimal none).replay (session decimal none).init
      removedFirst = some s ∧ s.data_manager.userIds = [2] ∧
    (session decimal none).replay s [setOnRead "m"] = some s' ∧
      s'.data_manager.breakpoint_next_id = 4 ∧
      0 ∉ s'.data_manager.userIds ∧ 1 ∉ s'.data_manager.userIds := by
  have hrun : ((session decimal none).replay (session decimal none).init removedFirst).map
      (fun s => (s.data_manager.userIds, s.data_manager.breakpoint_next_id)) = some ([2], 3) := by
    decide +kernel
  have hrun' : ((session decimal none).replay (session decimal none).init
      (removedFirst ++ [setOnRead "m"])).map
      (fun s => s.data_manager.breakpoint_next_id) = some 4 := by
    decide +kernel
  obtain ⟨s, hs, hids⟩ := Option.map_eq_some_iff.mp hrun
  obtain ⟨hids, hnext⟩ := Prod.mk.inj hids
  rw [Runs.System.replay_append, hs, Option.bind_some] at hrun'
  obtain ⟨s', hs', hnext'⟩ := Option.map_eq_some_iff.mp hrun'
  have hnever := (identifiers_numbered (Runs.System.reachable_of_replay hs) hs').2.2.2
  refine ⟨s, s', hs, hids, hs', hnext', ?_, ?_⟩
  · apply hnever.breakpoints 0 (by decide) (by rw [hnext]; decide)
    rw [hids]
    decide
  · apply hnever.breakpoints 1 (by decide) (by rw [hnext]; decide)
    rw [hids]
    decide

end Pfp.Db
