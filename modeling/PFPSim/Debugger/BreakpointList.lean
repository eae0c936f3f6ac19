import PFPSim.Debugger.Changes

/-!
# The breakpoint list over a session

`Table` is the breakpoint list with the next identifier, and `Edit` the changes that are
ever made to it. Every step of a session is a sequence of edits (`exec_edits`), so what the
edits keep (`Table.Valid`) holds of the list in every reachable state.
-/

namespace Pfp.Db

open Relation

structure Table where
  list : List Breakpoint
  next_id : Int

/-- The list of `addBreakpoint`. -/
def insertNew (l : List Breakpoint) (br : Breakpoint) : List Breakpoint :=
  if l.any fun bkpt => bkpt.isEqual br then l else l ++ [br]

/-- The changes of the table; a breakpoint that is added has conditions in `P`. -/
inductive Edit (P : Conditions → Prop) : Table → Table → Prop
  | user {l : List Breakpoint} {n : Int} (br : Breakpoint) (hid : br.id = n)
      (hP : P br.conditions) : Edit P ⟨l, n⟩ ⟨insertNew l br, n + 1⟩
  | stealth {l : List Breakpoint} {n : Int} (br : Breakpoint) (hid : br.id = -1)
      (htemp : br.temp = true) (hP : P br.conditions) : Edit P ⟨l, n⟩ ⟨insertNew l br, n⟩
  | remove {l : List Breakpoint} {n : Int} (id : Int) :
      Edit P ⟨l, n⟩ ⟨removeFirst Breakpoint.id id l, n⟩
  | disable {l : List Breakpoint} {n : Int} (id : Int) (disabled : Bool) :
      Edit P ⟨l, n⟩ ⟨updateFirst Breakpoint.id id (fun b => { b with disabled }) l, n⟩

abbrev Edits (P : Conditions → Prop) : Table → Table → Prop := ReflTransGen (Edit P)

/-- The identifiers of the user's breakpoints increase along the list, internal breakpoints
are temporary, and no breakpoint is one that `addBreakpoint` would have dropped. -/
structure Table.Valid (t : Table) : Prop where
  ordered : t.list.Pairwise fun x y => ¬ x.stealth → ¬ y.stealth → x.id < y.id
  distinct : t.list.Pairwise fun x y => x.isEqual y = false
  range : ∀ b ∈ t.list, b.stealth ∨ 0 ≤ b.id ∧ b.id < t.next_id
  temp : ∀ b ∈ t.list, b.stealth → b.temp = true
  next_nonneg : 0 ≤ t.next_id

namespace Table.Valid

variable {P : Conditions → Prop} {l l' : List Breakpoint} {n : Int} {t t' : Table}

theorem sublist (h : Valid ⟨l, n⟩) (hl : l'.Sublist l) : Valid ⟨l', n⟩ where
  ordered := h.ordered.sublist hl
  distinct := h.distinct.sublist hl
  range b hb := h.range b (hl.subset hb)
  temp b hb := h.temp b (hl.subset hb)
  next_nonneg := h.next_nonneg

/-- Only the flag `disabled` changes. -/
theorem disable (h : Valid ⟨l, n⟩) (id : Int) (disabled : Bool) :
    Valid ⟨updateFirst Breakpoint.id id (fun b => { b with disabled }) l, n⟩ := by
  have hmap {β : Type} (g : Breakpoint → β) (hg : ∀ b : Breakpoint, g { b with disabled } = g b) :
      (updateFirst Breakpoint.id id (fun b => { b with disabled }) l).map g = l.map g :=
    map_updateFirst g hg
  have hmem {b : Breakpoint}
      (hb : b ∈ updateFirst Breakpoint.id id (fun b => { b with disabled }) l) :
      ∃ c ∈ l, b.id = c.id ∧ b.temp = c.temp := by
    rcases mem_updateFirst hb with hb | ⟨c, hc, rfl⟩
    · exact ⟨b, hb, rfl, rfl⟩
    · exact ⟨c, hc, rfl, rfl⟩
  refine ⟨?_, ?_, fun b hb => ?_, fun b hb hs => ?_, h.next_nonneg⟩
  · have hids := h.ordered.map (S := fun x y => ¬ x = -1 → ¬ y = -1 → x < y) Breakpoint.id
      fun _ _ hxy => hxy
    rw [← hmap Breakpoint.id fun _ => rfl] at hids
    exact List.pairwise_map.mp hids
  · have hconds := h.distinct.map (S := fun x y => Breakpoint.isEqual ⟨0, x, false, false⟩
      ⟨0, y, false, false⟩ = false) Breakpoint.conditions fun _ _ hxy => hxy
    rw [← hmap Breakpoint.conditions fun _ => rfl] at hconds
    exact List.pairwise_map.mp hconds
  · obtain ⟨c, hc, hid, -⟩ := hmem hb
    rw [Breakpoint.stealth, hid]
    exact h.range c hc
  · obtain ⟨c, hc, hid, htemp⟩ := hmem hb
    rw [htemp]
    rw [Breakpoint.stealth, hid] at hs
    exact h.temp c hc hs

theorem insertNew (h : Valid ⟨l, n⟩) {br : Breakpoint}
    (hbr : br.stealth ∧ br.temp = true ∨ ¬ br.stealth ∧ br.id = n) {m : Int} (hm : n ≤ m)
    (hlt : ¬ br.stealth → n < m) : Valid ⟨insertNew l br, m⟩ := by
  have hgrow : Valid ⟨l, m⟩ :=
    ⟨h.ordered, h.distinct, fun b hb => (h.range b hb).imp_right fun hr =>
      ⟨hr.1, Int.lt_of_lt_of_le hr.2 hm⟩, h.temp, Int.le_trans h.next_nonneg hm⟩
  unfold Db.insertNew
  split
  · exact hgrow
  · rename_i hnone
    rw [Bool.not_eq_true, List.any_eq_false] at hnone
    refine ⟨?_, ?_, ?_, ?_, hgrow.next_nonneg⟩
    · refine List.pairwise_append.mpr ⟨h.ordered, List.pairwise_singleton _ _, ?_⟩
      intro x hx y hy hxs hys
      rw [List.mem_singleton] at hy
      subst hy
      rcases hbr with ⟨hs, -⟩ | ⟨-, hid⟩
      · exact absurd hs hys
      · rw [hid]
        exact ((h.range x hx).resolve_left hxs).2
    · refine List.pairwise_append.mpr ⟨h.distinct, List.pairwise_singleton _ _, ?_⟩
      intro x hx y hy
      rw [List.mem_singleton] at hy
      subst hy
      simpa using hnone x hx
    · intro b hb
      rcases List.mem_append.mp hb with hb | hb
      · exact hgrow.range b hb
      · rw [List.mem_singleton] at hb
        subst hb
        by_cases hs : b.stealth
        · exact .inl hs
        · rcases hbr with ⟨hs', -⟩ | ⟨-, hid⟩
          · exact absurd hs' hs
          · exact .inr ⟨hid ▸ h.next_nonneg, hid ▸ hlt hs⟩
    · intro b hb hs
      rcases List.mem_append.mp hb with hb | hb
      · exact h.temp b hb hs
      · rw [List.mem_singleton] at hb
        subst hb
        rcases hbr with ⟨-, htemp⟩ | ⟨hns, -⟩
        · exact htemp
        · exact absurd hs hns

theorem edit (h : t.Valid) (he : Edit P t t') : t'.Valid := by
  cases he with
  | @user l n br hid _ =>
    refine h.insertNew (.inr ⟨?_, hid⟩) (Int.le_add_one (Int.le_refl _))
      fun _ => Int.lt_add_one_iff.mpr (Int.le_refl _)
    intro hs
    have hneg : n = -1 := hid.symm.trans hs
    have hnonneg : 0 ≤ n := h.next_nonneg
    omega
  | stealth br hid htemp _ =>
    exact h.insertNew (.inl ⟨hid, htemp⟩) (Int.le_refl _) fun hns => absurd hid hns
  | remove id => exact h.sublist removeFirst_sublist
  | disable id disabled => exact h.disable id disabled

theorem edits (h : t.Valid) (he : Edits P t t') : t'.Valid := by
  induction he with
  | refl => exact h
  | tail _ he ih => exact ih.edit he

/-- A breakpoint occurs once. -/
theorem nodup (h : t.Valid) : t.list.Nodup := by
  apply h.distinct.imp
  rintro x y hxy rfl
  rw [x.isEqual_self] at hxy
  cases hxy

end Table.Valid

theorem Edits.mono {P Q : Conditions → Prop} (hPQ : ∀ m, P m → Q m) {t t' : Table}
    (h : Edits P t t') : Edits Q t t' := by
  refine ReflTransGen.mono ?_ _ _ h
  intro u v he
  cases he with
  | user br hid hP => exact .user br hid (hPQ _ hP)
  | stealth br hid htemp hP => exact .stealth br hid htemp (hPQ _ hP)
  | remove id => exact .remove id
  | disable id disabled => exact .disable id disabled

/-- The conditions of all breakpoints of the list are in `P`. -/
theorem Edits.forall_conditions {P : Conditions → Prop} {t t' : Table} (h : Edits P t t')
    (ht : ∀ b ∈ t.list, P b.conditions) : ∀ b ∈ t'.list, P b.conditions := by
  have hinsert {l : List Breakpoint} {br : Breakpoint} (hl : ∀ b ∈ l, P b.conditions)
      (hbr : P br.conditions) : ∀ b ∈ insertNew l br, P b.conditions := by
    unfold insertNew
    split
    · exact hl
    · intro b hb
      rcases List.mem_append.mp hb with hb | hb
      · exact hl b hb
      · rw [List.mem_singleton.mp hb]
        exact hbr
  induction h with
  | refl => exact ht
  | tail _ he ih =>
    cases he with
    | user br hid hP => exact hinsert ih hP
    | stealth br hid htemp hP => exact hinsert ih hP
    | remove id => exact fun b hb => ih b (removeFirst_sublist.subset hb)
    | disable id disabled =>
      intro b hb
      rcases mem_updateFirst hb with hb | ⟨c, hc, rfl⟩
      · exact ih b hb
      · exact ih c hc

/-! ## Steps -/

def DebugDataManager.table (dm : DebugDataManager) : Table :=
  ⟨dm.breakpoint_list, dm.breakpoint_next_id⟩

abbrev Shared.table (s : Shared) : Table := s.data_manager.table

abbrev Session.table (s : Session) : Table := s.shared.table

theorem addBreakpoint_table (dm : DebugDataManager) (br : Breakpoint) :
    (dm.addBreakpoint br).table = ⟨insertNew dm.breakpoint_list br, dm.breakpoint_next_id⟩ := by
  unfold DebugDataManager.addBreakpoint insertNew
  split <;> rfl

theorem addBreakpoint_list (dm : DebugDataManager) (br : Breakpoint) :
    (dm.addBreakpoint br).breakpoint_list = insertNew dm.breakpoint_list br :=
  congrArg Table.list (addBreakpoint_table dm br)

/-- The calls leave the breakpoints alone. -/
theorem perform_table (c : Call) (dm : DebugDataManager) : (perform c dm).2.table = dm.table := by
  rw [perform_frame]
  rfl

theorem Shared.updateSimulationTime_table (s : Shared) (time : ℚ) :
    (s.updateSimulationTime time).table = s.table := by
  rw [table, updateSimulationTime_data_manager]
  rfl

theorem Shared.access_table (s : Shared) (read : Bool) (mod : String) (data : TrType)
    (time : ℚ) : (s.access read mod data time).table = s.table := by
  rw [Shared.table, access, updateTrace_foldl_data_manager]
  exact (perform_table (.updatePacket ..) _).trans (s.updateSimulationTime_table time)

variable {cv : Conversions} {P : Conditions → Prop}

theorem Edits.of_eq {t t' : Table} (h : t' = t) : Edits P t t' := h ▸ ReflTransGen.refl

theorem Change.edits {dm dm' : DebugDataManager} (h : Change P dm dm') :
    Edits P dm.table dm'.table := by
  cases h with
  | call c => exact Edits.of_eq (perform_table c dm)
  | setBreakpoint br hid hP =>
    exact (ReflTransGen.single (.user br hid hP)).trans (Edits.of_eq (addBreakpoint_table _ br))
  | addStealth br hid htemp hP =>
    exact (ReflTransGen.single (.stealth br hid htemp hP)).trans
      (Edits.of_eq (addBreakpoint_table _ br))
  | removeBreakpoint id => exact .single (.remove id)
  | setBreakpointDisabled id disabled => exact .single (.disable id disabled)
  | setWatchpoint name disabled =>
    apply Edits.of_eq
    unfold DebugDataManager.addWatchpoint
    split <;> rfl
  | addIgnoreModule mod =>
    apply Edits.of_eq
    unfold DebugDataManager.addIgnoreModule
    split <;> rfl
  | _ => exact .refl

theorem Changes.edits {dm dm' : DebugDataManager} (h : Changes P dm dm') :
    Edits P dm.table dm'.table := by
  induction h with
  | refl => exact .refl
  | tail _ hchange ih => exact ih.trans hchange.edits

/-- **Edits.** A step of a session edits the table. -/
theorem exec_edits {x : Step} {s s' : Session} (h : exec cv s x = .ok s') :
    Edits (fun m => ∃ r, x = .request r ∧ Adds cv s r m) s.table s'.table :=
  (exec_changes h).edits

/-- The breakpoint list of every reachable state is valid. -/
theorem reachable_valid {cp : Option CPDebuggerInterface} {Q : Session → Step → Prop}
    {s : Session} (h : (session cv cp).Reaches Q s) : s.table.Valid := by
  refine Runs.System.Reaches.invariant (I := fun s => s.table.Valid) ?_
    (fun s x s' _ hs _ hstep => ?_) h
  · exact ⟨.nil, .nil, by simp [session, Session.table, Shared.table, DebugDataManager.table],
      by simp [session, Session.table, Shared.table, DebugDataManager.table], Int.le_refl 0⟩
  · exact hs.edits (exec_edits (step_eq_some.mp hstep).2)

end Pfp.Db
