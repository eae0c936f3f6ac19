import PFPSim.Debugger.TableUpdates

/-!
# Confirmed deletions

`confirmDeleteEntry` erases an entry from the list of its action, and then the list from the
map when nothing is left of it. The loop over the actions stands on the list that it erases,
so a deletion is confirmed exactly when no list holds the entry alone
(`confirmDeleteEntry_deletes_iff`).
-/

namespace Pfp.Db.TableEntries

open Runs Lists

variable {te te' : TableEntries} {t a : String} {h : UInt64}

/-- The entry of the table with the handle is gone, all others are in their places, and it
leaves no empty list behind. -/
structure Deleted (te te' : TableEntries) (table_name : String) (handle : UInt64) : Prop where
  buckets : ∀ u b, te'.bucket u b =
    (te.bucket u b).filter fun e => !(u = table_name ∧ e.handle = handle)
  nonempty : ∀ a, (∃ e ∈ te.bucket table_name a, e.handle = handle) →
    (te'.table table_name)[a]? ≠ some []

/-- The entry with the handle is not the only one of an action. -/
def Accompanied (te : TableEntries) (table_name : String) (handle : UInt64) : Prop :=
  ∀ a e, te.bucket table_name a = [e] → e.handle ≠ handle

/-! ## The loop -/

theorem confirmDeleteStep_isSome {m : Map String (List TableEntry)}
    {x : String × List TableEntry} :
    (confirmDeleteStep h m x).isSome ↔ ∀ e, x.2 = [e] → e.handle ≠ h := by
  unfold confirmDeleteStep
  split
  · rename_i hany
    simp only
    split
    · rename_i hnil
      rcases List.eraseP_eq_nil_iff.mp hnil with hnil | ⟨e, he, hx⟩
      · rw [hnil] at hany
        cases hany
      · refine iff_of_false Bool.false_ne_true ?_
        intro hne
        exact hne e hx (of_decide_eq_true he)
    · rename_i hnil
      refine iff_of_true rfl ?_
      intro e hx he
      exact hnil (List.eraseP_eq_nil_iff.mpr (.inr ⟨e, decide_eq_true he, hx⟩))
  · rename_i hany
    refine iff_of_true rfl ?_
    intro e hx he
    apply hany
    rw [hx]
    simp [he]

theorem confirmDelete_loop_isSome (l : List (String × List TableEntry))
    (m : Map String (List TableEntry)) :
    (l.foldlM (confirmDeleteStep h) m).isSome ↔ ∀ x ∈ l, ∀ e, x.2 = [e] → e.handle ≠ h := by
  induction l generalizing m with
  | nil => simp
  | cons x l ih =>
    rw [List.foldlM_cons, List.forall_mem_cons, ← confirmDeleteStep_isSome (m := m)]
    cases confirmDeleteStep h m x with
    | none => simp
    | some m' =>
      rw [Option.bind_eq_bind, Option.bind_some, ih m']
      simp

/-- The loop has a value exactly when it erases no list. -/
theorem confirmDeleteEntry_isSome : (te.confirmDeleteEntry t h).isSome ↔ te.Accompanied t h := by
  rw [confirmDeleteEntry, Option.isSome_map, confirmDelete_loop_isSome]
  constructor
  · intro hall a e hbucket
    unfold bucket at hbucket
    cases ha : (te.table t)[a]? with
    | none =>
      rw [ha] at hbucket
      cases hbucket
    | some entries =>
      rw [ha, Option.getD_some] at hbucket
      exact hall (a, entries) (Maps.mem_toList.mpr ha) e hbucket
  · intro hall x hx e he
    apply hall x.1 e
    rw [bucket, Maps.mem_toList.mp hx, Option.getD_some, he]

/-! ## The entries -/

theorem nodup_bucket (hdistinct : ((te.entriesOf t).map TableEntry.handle).Nodup) (a : String) :
    ((te.bucket t a).map TableEntry.handle).Nodup := by
  have hperm := (Maps.elements_perm (f := id) (te.table t) a).map TableEntry.handle
  have hnodup := hperm.nodup_iff.mp hdistinct
  rw [List.map_append] at hnodup
  have hbucket : te.bucket t a = (te.table t)[a]?.elim [] id := by
    unfold bucket
    cases (te.table t)[a]? <;> rfl
  rw [hbucket]
  exact hnodup.of_append_left

/-- Of entries with different handles the first with the handle is the only one. -/
theorem eraseP_eq_filter {l : List TableEntry} (hl : (l.map TableEntry.handle).Nodup) :
    (l.eraseP fun e => e.handle = h) = l.filter fun e => !decide (e.handle = h) := by
  rcases split_first (fun e : TableEntry => decide (e.handle = h)) l with hall |
      ⟨front, x, back, rfl, hfront, hx⟩
  · rw [List.eraseP_of_forall_not fun e he => by simp [hall e he], eq_comm, List.filter_eq_self]
    intro e he
    rw [hall e he]
    rfl
  · have hx : x.handle = h := of_decide_eq_true hx
    have hback : ∀ e ∈ back, decide (e.handle = h) = false := by
      intro e he
      rw [List.map_append, List.map_cons] at hl
      have hnot := (List.nodup_cons.mp hl.of_append_right).1
      rw [decide_eq_false_iff_not, ← hx]
      intro heq
      exact hnot (heq ▸ List.mem_map_of_mem he)
    have hkept : ∀ l : List TableEntry, (∀ e ∈ l, decide (e.handle = h) = false) →
        (l.filter fun e => !decide (e.handle = h)) = l := by
      intro l hl
      rw [List.filter_eq_self]
      intro e he
      rw [hl e he]
      rfl
    rw [eraseP_append hfront (decide_eq_true hx), List.filter_append, List.filter_cons_of_neg,
      hkept front hfront, hkept back hback]
    simp [hx]

theorem deleted (hdistinct : ((te.entriesOf t).map TableEntry.handle).Nodup)
    (halone : te.Accompanied t h) (hte : te.confirmDeleteEntry t h = some te') :
    Deleted te te' t h where
  buckets u b := by
    rw [confirmDeleteEntry_bucket hte]
    split
    · rename_i ht
      subst ht
      rw [eraseP_eq_filter (nodup_bucket hdistinct b)]
      simp
    · rename_i ht
      rw [eq_comm, List.filter_eq_self]
      intro e _
      simp [Ne.symm ht]
  nonempty a hex hnil := by
    have hbucket := confirmDeleteEntry_bucket hte t a
    rw [if_pos rfl, bucket, hnil, Option.getD_some, eq_comm, List.eraseP_eq_nil_iff] at hbucket
    obtain ⟨e, he, hh⟩ := hex
    rcases hbucket with hbucket | ⟨x, hx, hbucket⟩
    · rw [hbucket] at he
      cases he
    · exact halone a x hbucket (of_decide_eq_true hx)

/-- **Confirmed deletions.** In a store with different handles in the table, the deletion of a
handle is confirmed as it should be exactly when no action of the table has its entry alone. -/
theorem confirmDeleteEntry_deletes_iff
    (hdistinct : ((te.entriesOf t).map TableEntry.handle).Nodup) :
    (∃ te', te.confirmDeleteEntry t h = some te' ∧ Deleted te te' t h) ↔ te.Accompanied t h := by
  rw [← confirmDeleteEntry_isSome]
  constructor
  · intro hex
    obtain ⟨te', hte, -⟩ := hex
    rw [hte]
    rfl
  · intro hsome
    obtain ⟨te', hte⟩ := Option.isSome_iff_exists.mp hsome
    exact ⟨te', hte, deleted hdistinct (confirmDeleteEntry_isSome.mp hsome) hte⟩

/-- A store with two entries of one action. -/
def twoEntries : TableEntries := oneEntry.addTableEntry "t" "l" "forward" ["2"] 6

theorem deletes_of_two :
    (∃ te', twoEntries.confirmDeleteEntry "t" 5 = some te' ∧ Deleted twoEntries te' "t" 5) ↔
      twoEntries.Accompanied "t" 5 :=
  confirmDeleteEntry_deletes_iff (by decide +kernel)

/-- The deletion of the only entry goes on behind the list that it has erased. -/
theorem erased_iterator_used : ¬ ∀ (te : TableEntries) (t : String) (h : UInt64),
    tableStore.Reachable te → ((te.entriesOf t).map TableEntry.handle).Nodup →
      ∃ te', te.confirmDeleteEntry t h = some te' ∧ Deleted te te' t h := by
  intro hall
  have hone : oneEntry.bucket "t" "forward" = [⟨"t", "k", "forward", ["1"], 5, .INSERTING⟩] := by
    decide +kernel
  have hdeletes := hall oneEntry "t" 5 reachable_oneEntry (by decide +kernel)
  exact (confirmDeleteEntry_deletes_iff (by decide +kernel)).mp hdeletes _ _ hone rfl

end Pfp.Db.TableEntries
