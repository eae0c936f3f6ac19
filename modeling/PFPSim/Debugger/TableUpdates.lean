import PFPSim.Debugger.TableStore

/-!
# Updates of table entries

An entry is filed under its action, and `updateTableEntry` looks for it under the new
action, so it finds an entry only if the action stays the same
(`updateTableEntry_updates_iff`).
-/

namespace Pfp.Db.TableEntries

open Runs Lists

/-- The entries of a table. -/
def entriesOf (te : TableEntries) (table_name : String) : List TableEntry :=
  Maps.elements id (te.table table_name)

/-- The entry with a handle of a table. -/
def isAt (table_name : String) (handle : UInt64) (e : TableEntry) : Bool :=
  e.table_name = table_name ∧ e.handle = handle

/-- Of the entries of a table, `e` is the one with its handle, and all others are as before. -/
structure Updated (te te' : TableEntries) (table_name : String) (handle : UInt64)
    (e : TableEntry) : Prop where
  entry : te'.all.filter (isAt table_name handle) = [e]
  others : (te'.all.filter fun x => !isAt table_name handle x).Perm
    (te.all.filter fun x => !isAt table_name handle x)

variable {te : TableEntries} {t a : String} {h : UInt64} {d : List String} {e : TableEntry}

theorem mem_entriesOf : e ∈ te.entriesOf t ↔ ∃ a, e ∈ te.bucket t a := by
  simp only [entriesOf, Maps.mem_elements, id]
  constructor
  · rintro ⟨a, entries, ha, he⟩
    refine ⟨a, ?_⟩
    rw [bucket, ha]
    exact he
  · rintro ⟨a, he⟩
    unfold bucket at he
    cases ha : (te.table t)[a]? with
    | none => simp [ha] at he
    | some entries =>
      rw [ha] at he
      exact ⟨a, entries, ha, he⟩

/-- All entries but those of an action of a table. -/
def rest (te : TableEntries) (t a : String) : List TableEntry :=
  Maps.elements id ((te.table t).erase a) ++ all (te.erase t)

theorem elements_table_perm (te : TableEntries) (t : String) :
    te.all.Perm (te.entriesOf t ++ all (te.erase t)) := by
  refine (Maps.elements_perm te t).trans (List.Perm.append_right _ ?_)
  unfold entriesOf table
  cases te[t]? with
  | none => simp [Maps.elements]
  | some actions => exact .refl _

theorem all_perm (te : TableEntries) (t a : String) :
    te.all.Perm (te.bucket t a ++ te.rest t a) := by
  refine (te.elements_table_perm t).trans ?_
  rw [rest, ← List.append_assoc]
  refine List.Perm.append_right _ ((Maps.elements_perm (te.table t) a).trans ?_)
  unfold bucket
  cases (te.table t)[a]? <;> exact .refl _

theorem replace_perm (te : TableEntries) (t a : String) (entries : List TableEntry) :
    (all (te.insert t ((te.table t).insert a entries))).Perm (entries ++ te.rest t a) := by
  refine (Maps.elements_insert_perm te t _).trans ?_
  rw [rest, ← List.append_assoc]
  exact List.Perm.append_right _ (Maps.elements_insert_perm (te.table t) a entries)

/-- In a filed store with different handles in the table there is one entry with the handle. -/
theorem filter_isAt (hfiled : te.Filed) (hdistinct : ((te.entriesOf t).map TableEntry.handle).Nodup)
    (he : e ∈ te.entriesOf t) (hh : e.handle = h) : te.all.filter (isAt t h) = [e] := by
  have htable : ∀ x ∈ te.entriesOf t, x.table_name = t := by
    intro x hx
    obtain ⟨a, ha⟩ := mem_entriesOf.mp hx
    exact (hfiled t a x ha).1
  have hother : ∀ x ∈ all (te.erase t), x.table_name ≠ t := by
    intro x hx
    obtain ⟨u, b, hub⟩ := mem_all.mp hx
    rw [bucket, table, Maps.get_erase] at hub
    split at hub
    · simp at hub
    · rename_i hu
      rw [(hfiled u b x hub).1]
      exact Ne.symm hu
  have hrest : (all (te.erase t)).filter (isAt t h) = [] := by
    rw [List.filter_eq_nil_iff]
    intro x hx hat
    exact hother x hx (of_decide_eq_true hat).1
  apply List.perm_singleton.mp
  refine ((te.elements_table_perm t).filter _).trans ?_
  rw [List.filter_append, hrest, List.append_nil]
  refine (List.perm_ext_iff_of_nodup ?_ (List.nodup_singleton e)).mpr fun x => ?_
  · exact (List.Nodup.of_map _ hdistinct).filter _
  · rw [List.mem_filter, List.mem_singleton]
    constructor
    · rintro ⟨hx, hat⟩
      exact List.inj_on_of_nodup_map hdistinct hx he ((of_decide_eq_true hat).2.trans hh.symm)
    · rintro rfl
      exact ⟨he, decide_eq_true ⟨htable x he, hh⟩⟩

/-- One entry takes the place of another with the same table and handle. -/
theorem updated_of_perm {te' : TableEntries} {e' : TableEntry} {R : List TableEntry}
    (hfilter : te.all.filter (isAt t h) = [e]) (hat : isAt t h e = true)
    (hat' : isAt t h e' = true) (hperm : te.all.Perm (e :: R)) (hperm' : te'.all.Perm (e' :: R)) :
    Updated te te' t h e' := by
  have hR : R.filter (isAt t h) = [] := by
    have hcons := hperm.filter (isAt t h)
    rw [hfilter, List.filter_cons_of_pos hat] at hcons
    exact List.nil_perm.mp hcons.cons_inv
  constructor
  · have hcons := hperm'.filter (isAt t h)
    rw [List.filter_cons_of_pos hat', hR] at hcons
    exact List.perm_singleton.mp hcons
  · refine (hperm'.filter _).trans (.trans ?_ (hperm.filter _).symm)
    rw [List.filter_cons_of_neg (by simp [hat']), List.filter_cons_of_neg (by simp [hat])]

/-- Nothing changes if the list under the new action has no entry with the handle. -/
theorem updateTableEntry_all_of_absent (habsent : ∀ x ∈ te.bucket t a, x.handle ≠ h) :
    (te.updateTableEntry t h a d).all.Perm te.all := by
  rw [updateTableEntry, modifyFirst_of_forall fun x hx => by simpa using habsent x hx]
  exact (te.replace_perm t a _).trans (te.all_perm t a).symm

/-- The list under the new action has the entry. -/
theorem updateTableEntry_all_of_split {front back : List TableEntry}
    (hsplit : te.bucket t a = front ++ e :: back) (hfront : ∀ x ∈ front, x.handle ≠ h)
    (hh : e.handle = h) : te.all.Perm (e :: (front ++ back ++ te.rest t a)) ∧
      (te.updateTableEntry t h a d).all.Perm
        ({ e with action_data := d, status := .MODIFYING } :: (front ++ back ++ te.rest t a)) := by
  constructor
  · refine (te.all_perm t a).trans ?_
    rw [hsplit]
    exact List.Perm.append_right _ List.perm_middle
  · rw [updateTableEntry, hsplit, modifyFirst_append (fun x hx => by simpa using hfront x hx)
      (by simpa using hh)]
    refine (te.replace_perm t a _).trans ?_
    exact List.Perm.append_right _ List.perm_middle

/-- **Updates.** In a reachable store with different handles in the table, the entry with
the handle is changed as the call says if and only if its action stays the same. -/
theorem updateTableEntry_updates_iff (hte : tableStore.Reachable te)
    (hdistinct : ((te.entriesOf t).map TableEntry.handle).Nodup) (he : e ∈ te.entriesOf t)
    (hh : e.handle = h) (a : String) (d : List String) :
    Updated te (te.updateTableEntry t h a d) t h
        { e with action_name := a, action_data := d, status := .MODIFYING } ↔
      e.action_name = a := by
  have hfiled := reachable_filed hte
  have hfilter := filter_isAt hfiled hdistinct he hh
  obtain ⟨b, hb⟩ := mem_entriesOf.mp he
  obtain ⟨htable, haction⟩ := hfiled t b e hb
  have hat : isAt t h e = true := decide_eq_true ⟨htable, hh⟩
  have hunique : ∀ x ∈ te.bucket t a, x.handle = h → x = e := by
    intro x hx hxh
    have hmem : x ∈ te.all.filter (isAt t h) := List.mem_filter.mpr
      ⟨mem_all.mpr ⟨t, a, hx⟩, decide_eq_true ⟨(hfiled t a x hx).1, hxh⟩⟩
    rw [hfilter] at hmem
    exact List.mem_singleton.mp hmem
  constructor
  · intro hupdated
    by_contra hne
    -- no entry of the list under the new action has the handle
    have habsent : ∀ x ∈ te.bucket t a, x.handle ≠ h := by
      intro x hx hxh
      rw [hunique x hx hxh] at hx
      exact hne (hfiled t a e hx).2
    have hsame := (updateTableEntry_all_of_absent (d := d) habsent).filter (isAt t h)
    rw [hupdated.entry, hfilter] at hsame
    have heq := List.singleton_perm_singleton.mp hsame
    exact hne (congrArg TableEntry.action_name heq).symm
  · intro ha
    subst ha
    have hmem : e ∈ te.bucket t e.action_name := by
      rw [haction]
      exact hb
    rcases split_first (fun x : TableEntry => decide (x.handle = h)) (te.bucket t e.action_name)
      with hnone | ⟨front, x, back, hsplit, hfront, hx⟩
    · exact absurd hh (of_decide_eq_false (hnone e hmem))
    · have hxe : x = e := hunique x (by rw [hsplit]; simp) (of_decide_eq_true hx)
      subst hxe
      obtain ⟨hperm, hperm'⟩ := updateTableEntry_all_of_split (d := d) hsplit
        (fun y hy => of_decide_eq_false (hfront y hy)) hh
      exact updated_of_perm hfilter hat (decide_eq_true ⟨htable, hh⟩) hperm hperm'

/-! ## Two updates -/

/-- A store with one entry. -/
def oneEntry : TableEntries := (∅ : TableEntries).addTableEntry "t" "k" "forward" ["1"] 5

theorem reachable_oneEntry : tableStore.Reachable oneEntry :=
  System.Reaches.step (e := .addTableEntry "t" "k" "forward" ["1"] 5) .init trivial rfl

/-- An update to another action changes nothing. -/
theorem not_updated_of_new_action : ∃ te t h e a d, tableStore.Reachable te ∧
    ((te.entriesOf t).map TableEntry.handle).Nodup ∧ e ∈ te.entriesOf t ∧ e.handle = h ∧
    ¬ Updated te (te.updateTableEntry t h a d) t h
      { e with action_name := a, action_data := d, status := .MODIFYING } := by
  refine ⟨oneEntry, "t", 5, ⟨"t", "k", "forward", ["1"], 5, .INSERTING⟩, "drop", [],
    reachable_oneEntry, by decide +kernel, by decide +kernel, rfl, fun hupdated => ?_⟩
  have hentry := hupdated.entry
  revert hentry
  decide +kernel

/-- More entries of the action, of the table, and with the handle. -/
def fourEntries : TableEntries :=
  ((oneEntry.addTableEntry "t" "l" "forward" ["3"] 6).addTableEntry "t" "m" "drop" [] 7
    ).addTableEntry "u" "k" "forward" ["4"] 5

theorem reachable_fourEntries : tableStore.Reachable fourEntries :=
  .step (e := .addTableEntry "u" "k" "forward" ["4"] 5)
    (.step (e := .addTableEntry "t" "m" "drop" [] 7)
      (.step (e := .addTableEntry "t" "l" "forward" ["3"] 6) reachable_oneEntry trivial rfl)
      trivial rfl) trivial rfl

/-- An update of the data only. -/
theorem updated_same_action : Updated fourEntries
    (fourEntries.updateTableEntry "t" 5 "forward" ["2"]) "t" 5
    ⟨"t", "k", "forward", ["2"], 5, .MODIFYING⟩ :=
  (updateTableEntry_updates_iff (e := ⟨"t", "k", "forward", ["1"], 5, .INSERTING⟩)
    reachable_fourEntries (by decide +kernel) (by decide +kernel) rfl "forward" ["2"]).mpr rfl

end Pfp.Db.TableEntries
