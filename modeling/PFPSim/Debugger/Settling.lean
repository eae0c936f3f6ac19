import PFPSim.Debugger.TableUpdates

/-!
# Pipelined table operations

A control plane that inserts and deletes entries, and is told later, in any order, that an
operation is done (`plane`). An insertion is confirmed by its table, action and key, and
`updateHandle` takes the first entry with that key, whatever its status. If no older entry
with the key is still there, that is the entry of the insertion, and the store holds what
the insertions say (`Mirrors`).
-/

namespace Pfp.Db

open Runs Lists

/-- How far an insertion has got; a handle is assigned when it is confirmed. -/
inductive Stage where
  | pending
  | live (handle : UInt64)
  /-- The deletion is not confirmed yet. -/
  | deleting (handle : UInt64)
  | deleted
  deriving DecidableEq

def Stage.handle : Stage → Option UInt64
  | .live handle => some handle
  | .deleting handle => some handle
  | _ => none

/-- An insertion that has been made. -/
structure Insertion where
  table_name : String
  match_key : String
  action_name : String
  action_data : List String
  stage : Stage
  deriving DecidableEq

namespace Insertion

/-- The entry that the store is to hold for the insertion. -/
def entry (x : Insertion) : Option TableEntry :=
  let made (handle : UInt64) (status : TableEntryStatus) : TableEntry :=
    ⟨x.table_name, x.match_key, x.action_name, x.action_data, handle, status⟩
  match x.stage with
  | .pending => some (made TableEntries.noHandle .INSERTING)
  | .live handle => some (made handle .OK)
  | .deleting handle => some (made handle .DELETING)
  | .deleted => none

/-- The table and the handle of an insertion that has one. -/
def key (x : Insertion) : Option (String × UInt64) :=
  x.stage.handle.map fun handle => (x.table_name, handle)

/-- No confirmation is outstanding. -/
def settled (x : Insertion) : Bool :=
  match x.stage with
  | .pending => false
  | .deleting _ => false
  | _ => true

/-- The entry of an insertion that is confirmed and not deleted. -/
def liveEntry (x : Insertion) : Option TableEntry :=
  match x.stage with
  | .live handle =>
    some ⟨x.table_name, x.match_key, x.action_name, x.action_data, handle, .OK⟩
  | _ => none

end Insertion

namespace TableEntries

/-- `confirmDeleteEntry` as it would be if it stopped after its erase. -/
def confirmDeleteOnce (te : TableEntries) (table_name : String) (handle : UInt64) :
    TableEntries :=
  let action_map := te.table table_name
  match action_map.toList.find? fun action => action.2.any fun e => e.handle = handle with
  | none => te.insert table_name action_map
  | some (action_name, entries) =>
    let entries := entries.eraseP fun e => e.handle = handle
    te.insert table_name (if entries = [] then action_map.erase action_name
      else action_map.insert action_name entries)

end TableEntries

/-! ## The control plane -/

/-- The store, with the insertions in their order. -/
structure Plane where
  table_entries : TableEntries := ∅
  insertions : List Insertion := []

inductive PlaneStep where
  | insert (table_name match_key action_name : String) (action_data : List String)
  | confirmInsert (i : Nat) (handle : UInt64)
  | delete (i : Nat)
  | confirmDelete (i : Nat)

/-- The handles that are in use, with their tables. -/
def handles (l : List Insertion) : List (String × UInt64) := l.filterMap Insertion.key

/-- The handle is one that no entry of the table has. -/
def fresh (l : List Insertion) (table_name : String) (handle : UInt64) : Bool :=
  handle ≠ TableEntries.noHandle ∧ (table_name, handle) ∉ handles l

namespace Plane

/-- The insertion goes on to another stage. -/
def proceed (s : Plane) (i : Nat) (x : Insertion) (stage : Stage) (te : TableEntries) : Plane :=
  ⟨te, s.insertions.set i { x with stage }⟩

def step (s : Plane) : PlaneStep → Option Plane
  | .insert t k a d => some ⟨s.table_entries.addTableEntry t k a d TableEntries.noHandle,
      s.insertions ++ [⟨t, k, a, d, .pending⟩]⟩
  | .confirmInsert i handle => do
    let x ← s.insertions[i]?
    if x.stage = .pending ∧ fresh s.insertions x.table_name handle then
      some (s.proceed i x (.live handle)
        (s.table_entries.updateHandle x.table_name x.match_key x.action_name handle))
    else none
  | .delete i => do
    let x ← s.insertions[i]?
    match x.stage with
    | .live handle => some (s.proceed i x (.deleting handle)
        (s.table_entries.deleteTableEntry x.table_name handle))
    | _ => none
  | .confirmDelete i => do
    let x ← s.insertions[i]?
    match x.stage with
    | .deleting handle => some (s.proceed i x .deleted
        (s.table_entries.confirmDeleteOnce x.table_name handle))
    | _ => none

end Plane

def plane : System Plane PlaneStep where
  init := {}
  step := Plane.step

/-- When an insertion is confirmed, no older entry with its table, action and key is left:
neither a pending or a live one, nor one whose deletion is not confirmed. -/
def Undisputed (s : Plane) : PlaneStep → Prop
  | .confirmInsert i _ => ∀ x, s.insertions[i]? = some x → ∀ y ∈ s.insertions.take i,
      y.table_name = x.table_name → y.action_name = x.action_name →
        y.match_key = x.match_key → y.stage = .deleted
  | _ => True

instance (s : Plane) : (x : PlaneStep) → Decidable (Undisputed s x)
  | .confirmInsert i _ => inferInstanceAs (Decidable (∀ x ∈ s.insertions[i]?,
      ∀ y ∈ s.insertions.take i, y.table_name = x.table_name → y.action_name = x.action_name →
        y.match_key = x.match_key → y.stage = .deleted))
  | .insert _ _ _ _ => .isTrue trivial
  | .delete _ => .isTrue trivial
  | .confirmDelete _ => .isTrue trivial

/-! ## The store and the insertions -/

/-- The entries of the insertions at an action of a table. -/
def entriesIn (t a : String) (l : List Insertion) : List TableEntry :=
  l.filterMap fun x => if t = x.table_name ∧ a = x.action_name then x.entry else none

/-- The store holds what the insertions say. -/
structure Mirrors (s : Plane) : Prop where
  buckets : ∀ t a, s.table_entries.bucket t a = entriesIn t a s.insertions
  distinct : (handles s.insertions).Nodup
  assigned : ∀ x ∈ s.insertions, x.stage.handle ≠ some TableEntries.noHandle

theorem entriesIn_append (t a : String) (l l' : List Insertion) :
    entriesIn t a (l ++ l') = entriesIn t a l ++ entriesIn t a l' := List.filterMap_append

theorem entriesIn_cons (t a : String) (x : Insertion) (l : List Insertion) :
    entriesIn t a (x :: l) =
      (if t = x.table_name ∧ a = x.action_name then x.entry.toList else []) ++
        entriesIn t a l := by
  unfold entriesIn
  rw [List.filterMap_cons]
  by_cases hx : t = x.table_name ∧ a = x.action_name
  · simp only [if_pos hx]
    cases x.entry <;> rfl
  · simp only [if_neg hx]
    rfl

theorem mem_entriesIn {t a : String} {l : List Insertion} {e : TableEntry}
    (he : e ∈ entriesIn t a l) :
    ∃ x ∈ l, x.table_name = t ∧ x.action_name = a ∧ x.entry = some e := by
  obtain ⟨x, hx, hentry⟩ := List.mem_filterMap.mp he
  rw [Option.ite_none_right_eq_some] at hentry
  exact ⟨x, hx, hentry.1.1.symm, hentry.1.2.symm, hentry.2⟩

theorem entry_match_key {x : Insertion} {e : TableEntry} (h : x.entry = some e) :
    e.match_key = x.match_key := by
  unfold Insertion.entry at h
  cases hstage : x.stage <;> rw [hstage] at h <;> cases h <;> rfl

theorem entry_handle {x : Insertion} {e : TableEntry} (h : x.entry = some e) :
    e.handle = x.stage.handle.getD TableEntries.noHandle := by
  unfold Insertion.entry at h
  cases hstage : x.stage <;> rw [hstage] at h <;> cases h <;> rfl

/-- An insertion in its place. -/
theorem split_at {l : List Insertion} {i : Nat} {x : Insertion} (hx : l[i]? = some x) :
    ∃ front back, l = front ++ x :: back ∧ front = l.take i ∧
      ∀ y, l.set i y = front ++ y :: back := by
  obtain ⟨hi, rfl⟩ := List.getElem?_eq_some_iff.mp hx
  refine ⟨l.take i, l.drop (i + 1), ?_, rfl, ?_⟩
  · rw [← List.drop_eq_getElem_cons hi, List.take_append_drop]
  · intro y
    rw [List.set_eq_take_append_cons_drop, if_pos hi]

/-! ## Steps -/

section Steps

variable {s : Plane} {front back : List Insertion} {x x' : Insertion} {e : TableEntry}
  {u b : String} {handle : UInt64}

/-- The insertion is changed in its place, and stays where it is filed. -/
theorem entriesIn_other (htable : x'.table_name = x.table_name)
    (haction : x'.action_name = x.action_name) (hub : ¬ (u = x.table_name ∧ b = x.action_name)) :
    entriesIn u b (front ++ x :: back) = entriesIn u b (front ++ x' :: back) := by
  rw [entriesIn_append, entriesIn_append, entriesIn_cons, entriesIn_cons, htable, haction,
    if_neg hub, if_neg hub]

theorem entriesIn_self (hentry : x.entry = some e) :
    entriesIn x.table_name x.action_name (front ++ x :: back) =
      entriesIn x.table_name x.action_name front ++ e ::
        entriesIn x.table_name x.action_name back := by
  rw [entriesIn_append, entriesIn_cons, if_pos ⟨rfl, rfl⟩, hentry]
  rfl

theorem handles_append (l l' : List Insertion) : handles (l ++ l') = handles l ++ handles l' :=
  List.filterMap_append

theorem handles_cons (x : Insertion) (l : List Insertion) :
    handles (x :: l) = x.key.toList ++ handles l := by
  unfold handles
  rw [List.filterMap_cons]
  cases x.key <;> rfl

theorem key_of_handle (hx : x.stage.handle = some handle) :
    x.key = some (x.table_name, handle) := by
  rw [Insertion.key, hx]
  rfl

/-- In its table the handle of an insertion is that of no other entry. -/
theorem Mirrors.handle_ne (h : Mirrors s) (hs : s.insertions = front ++ x :: back)
    (hx : x.stage.handle = some handle) {y : Insertion} (hy : y ∈ front ++ back)
    (htable : y.table_name = x.table_name) (he : y.entry = some e) : e.handle ≠ handle := by
  rw [entry_handle he]
  cases hstage : y.stage.handle with
  | none =>
    rintro rfl
    exact h.assigned x (by rw [hs]; simp) hx
  | some handle' =>
    rintro rfl
    have hdistinct := h.distinct
    rw [hs, handles_append, handles_cons, key_of_handle hx] at hdistinct
    have hnot := (List.nodup_cons.mp ((List.perm_middle.nodup_iff).mp hdistinct)).1
    have hkey : (x.table_name, handle') ∈ handles (front ++ back) := by
      apply List.mem_filterMap.mpr ⟨y, hy, _⟩
      rw [key_of_handle hstage, htable]
    rw [handles_append] at hkey
    exact hnot hkey

/-- No entry of another insertion in the table has the handle. -/
theorem Mirrors.entriesIn_handle_ne (h : Mirrors s) (hs : s.insertions = front ++ x :: back)
    (hx : x.stage.handle = some handle) {l : List Insertion} (hl : ∀ y ∈ l, y ∈ front ++ back) :
    ∀ e ∈ entriesIn x.table_name b l, e.handle ≠ handle := by
  intro e he
  obtain ⟨y, hy, htable, -, hentry⟩ := mem_entriesIn he
  exact h.handle_ne hs hx (hl y hy) htable hentry

/-- Nor has one of another action. -/
theorem Mirrors.bucket_handle_ne (h : Mirrors s) (hs : s.insertions = front ++ x :: back)
    (hx : x.stage.handle = some handle) (hb : b ≠ x.action_name) :
    ∀ e ∈ s.table_entries.bucket x.table_name b, e.handle ≠ handle := by
  rw [h.buckets, hs, entriesIn_append, entriesIn_cons, if_neg fun hab => hb hab.2,
    List.nil_append, ← entriesIn_append]
  exact h.entriesIn_handle_ne hs hx fun y hy => hy

/-- The other two invariants only depend on the handles. -/
theorem Mirrors.of_key (h : Mirrors s) (hs : s.insertions = front ++ x :: back)
    {te : TableEntries} (hbuckets : ∀ t a, te.bucket t a = entriesIn t a (front ++ x' :: back))
    (hdistinct : (handles (front ++ x' :: back)).Nodup)
    (hassigned : x'.stage.handle ≠ some TableEntries.noHandle) :
    Mirrors ⟨te, front ++ x' :: back⟩ where
  buckets := hbuckets
  distinct := hdistinct
  assigned y hy := by
    rcases List.mem_append.mp hy with hy | hy
    · exact h.assigned y (by rw [hs]; exact List.mem_append_left _ hy)
    · rcases List.mem_cons.mp hy with rfl | hy
      · exact hassigned
      · exact h.assigned y (by rw [hs]; exact List.mem_append_right _ (List.mem_cons_of_mem _ hy))

theorem Mirrors.insert (h : Mirrors s) (t k a : String) (d : List String) :
    Mirrors ⟨s.table_entries.addTableEntry t k a d TableEntries.noHandle,
      s.insertions ++ [⟨t, k, a, d, .pending⟩]⟩ where
  buckets u b := by
    rw [TableEntries.addTableEntry_bucket, h.buckets, entriesIn_append, entriesIn_cons]
    simp only [Insertion.entry, Option.toList_some, entriesIn, List.filterMap_nil,
      List.append_nil, eq_comm]
  distinct := by
    rw [handles_append, handles_cons]
    simpa [Insertion.key, Stage.handle, handles] using h.distinct
  assigned x hx := by
    rcases List.mem_append.mp hx with hx | hx
    · exact h.assigned x hx
    · rw [List.mem_singleton.mp hx]
      simp [Stage.handle]

/-- A confirmation that finds the entry of the insertion. -/
theorem Mirrors.confirmInsert (h : Mirrors s) (hs : s.insertions = front ++ x :: back)
    (hpending : x.stage = .pending) (hfresh : fresh s.insertions x.table_name handle = true)
    (hfirst : ∀ y ∈ front, y.table_name = x.table_name → y.action_name = x.action_name →
      y.match_key = x.match_key → y.stage = .deleted) :
    Mirrors ⟨s.table_entries.updateHandle x.table_name x.match_key x.action_name handle,
      front ++ { x with stage := .live handle } :: back⟩ := by
  obtain ⟨hne, hnew⟩ := of_decide_eq_true hfresh
  have hkey : x.key = none := by rw [Insertion.key, hpending]; rfl
  refine h.of_key (x := x) hs ?_ ?_ (by simpa [Stage.handle] using hne)
  · intro u b
    rw [TableEntries.updateHandle_bucket, h.buckets, hs]
    by_cases hub : x.table_name = u ∧ x.action_name = b
    · obtain ⟨rfl, rfl⟩ := hub
      have hentry : x.entry = some ⟨x.table_name, x.match_key, x.action_name, x.action_data,
          TableEntries.noHandle, .INSERTING⟩ := by rw [Insertion.entry, hpending]
      rw [if_pos ⟨rfl, rfl⟩, entriesIn_self hentry, modifyFirst_append]
      · exact (entriesIn_self (x := { x with stage := .live handle }) rfl).symm
      · intro e he
        obtain ⟨y, hy, htable, haction, hye⟩ := mem_entriesIn he
        rw [decide_eq_false_iff_not, entry_match_key hye]
        intro hmatch
        have hdeleted := hfirst y hy htable haction hmatch
        rw [Insertion.entry, hdeleted] at hye
        cases hye
      · exact decide_eq_true rfl
    · rw [if_neg hub]
      exact entriesIn_other rfl rfl fun h => hub ⟨h.1.symm, h.2.symm⟩
  · have hdistinct := h.distinct
    rw [hs, handles_append, handles_cons, hkey] at hdistinct hnew
    rw [handles_append, handles_cons, key_of_handle (x := { x with stage := .live handle }) rfl]
    exact (List.perm_middle.nodup_iff).mpr (List.nodup_cons.mpr ⟨hnew, hdistinct⟩)

theorem Mirrors.delete (h : Mirrors s) (hs : s.insertions = front ++ x :: back)
    (hlive : x.stage = .live handle) :
    Mirrors ⟨s.table_entries.deleteTableEntry x.table_name handle,
      front ++ { x with stage := .deleting handle } :: back⟩ := by
  have hx : x.stage.handle = some handle := by rw [hlive]; rfl
  refine h.of_key hs ?_ ?_ ?_
  · intro u b
    rw [TableEntries.deleteTableEntry, TableEntries.setStatus_bucket]
    by_cases hu : x.table_name = u
    · subst hu
      rw [if_pos rfl]
      by_cases hb : b = x.action_name
      · subst hb
        have hentry : x.entry = some ⟨x.table_name, x.match_key, x.action_name, x.action_data,
            handle, .OK⟩ := by rw [Insertion.entry, hlive]
        rw [h.buckets, hs, entriesIn_self hentry, modifyFirst_append]
        · exact (entriesIn_self (x := { x with stage := .deleting handle }) rfl).symm
        · intro e he
          exact decide_eq_false
            (h.entriesIn_handle_ne hs hx (fun y hy => List.mem_append_left _ hy) e he)
        · exact decide_eq_true rfl
      · rw [modifyFirst_of_forall fun e he => decide_eq_false (h.bucket_handle_ne hs hx hb e he),
          h.buckets, hs]
        exact entriesIn_other rfl rfl fun hub => hb hub.2
    · rw [if_neg hu, h.buckets, hs]
      exact entriesIn_other rfl rfl fun hub => hu hub.1.symm
  · have hdistinct := h.distinct
    rw [hs, handles_append, handles_cons, key_of_handle hx] at hdistinct
    rw [handles_append, handles_cons]
    exact hdistinct
  · exact fun heq => h.assigned x (by rw [hs]; simp) (hx.trans heq)

/-- An erase in the list of the only action that has the handle. -/
theorem confirmDeleteOnce_bucket {te : TableEntries} {t a : String}
    (honly : ∀ b, b ≠ a → ∀ e ∈ te.bucket t b, e.handle ≠ handle) (u b : String) :
    (te.confirmDeleteOnce t handle).bucket u b = if t = u ∧ a = b then
      (te.bucket u b).eraseP fun e => e.handle = handle else te.bucket u b := by
  unfold TableEntries.confirmDeleteOnce
  cases hfind : (te.table t).toList.find? fun action => action.2.any fun e => e.handle = handle with
  | none =>
    have hnone : ∀ e ∈ te.bucket t a, e.handle ≠ handle := by
      intro e he heq
      unfold TableEntries.bucket at he
      cases ha : (te.table t)[a]? with
      | none => simp [ha] at he
      | some entries =>
        rw [ha] at he
        have hmem := List.find?_eq_none.mp hfind (a, entries) (Maps.mem_toList.mpr ha)
        exact hmem (List.any_eq_true.mpr ⟨e, he, decide_eq_true heq⟩)
    simp only [hfind]
    rw [TableEntries.bucket_insert]
    by_cases hub : t = u ∧ a = b
    · obtain ⟨rfl, rfl⟩ := hub
      rw [if_pos rfl, if_pos ⟨rfl, rfl⟩, List.eraseP_of_forall_not]
      · rfl
      · simpa using hnone
    · rw [if_neg hub]
      split
      · rename_i heq
        rw [heq]
        rfl
      · rfl
  | some action =>
    obtain ⟨c, entries⟩ := action
    obtain ⟨hmem, hany⟩ := And.intro (List.mem_of_find?_eq_some hfind) (List.find?_some hfind)
    obtain ⟨e, he, heq⟩ := List.any_eq_true.mp hany
    have hc : (te.table t)[c]? = some entries := Maps.mem_toList.mp hmem
    have hbucket : te.bucket t c = entries := by rw [TableEntries.bucket, hc]; rfl
    have hca : c = a := by
      by_contra hne
      exact honly c hne e (by rw [hbucket]; exact he) (of_decide_eq_true heq)
    subst hca
    simp only [hfind]
    -- the list of the action, which is erased when it is empty
    have hlist (erased : List TableEntry) (j : String) :
        ((if erased = [] then (te.table t).erase c else (te.table t).insert c erased)[j]?).getD [] =
          if c = j then erased else te.bucket t j := by
      by_cases hempty : erased = []
      · rw [if_pos hempty, Maps.get_erase, hempty]
        split <;> rfl
      · rw [if_neg hempty, Maps.get_insert]
        split <;> rfl
    rw [TableEntries.bucket_insert, hlist]
    by_cases hu : t = u
    · subst hu
      rw [if_pos rfl]
      by_cases hb : c = b
      · subst hb
        rw [if_pos rfl, if_pos ⟨rfl, rfl⟩, hbucket]
      · rw [if_neg hb, if_neg fun hub => hb hub.2]
    · rw [if_neg hu, if_neg fun hub => hu hub.1]

theorem Mirrors.confirmDelete (h : Mirrors s) (hs : s.insertions = front ++ x :: back)
    (hdeleting : x.stage = .deleting handle) :
    Mirrors ⟨s.table_entries.confirmDeleteOnce x.table_name handle,
      front ++ { x with stage := .deleted } :: back⟩ := by
  have hx : x.stage.handle = some handle := by rw [hdeleting]; rfl
  refine h.of_key hs ?_ ?_ (by simp [Stage.handle])
  · intro u b
    rw [confirmDeleteOnce_bucket fun b hb => h.bucket_handle_ne hs hx hb, h.buckets, hs]
    by_cases hub : x.table_name = u ∧ x.action_name = b
    · obtain ⟨rfl, rfl⟩ := hub
      have hentry : x.entry = some ⟨x.table_name, x.match_key, x.action_name, x.action_data,
          handle, .DELETING⟩ := by rw [Insertion.entry, hdeleting]
      rw [if_pos ⟨rfl, rfl⟩, entriesIn_self hentry, eraseP_append, entriesIn_append,
        entriesIn_cons]
      · simp [Insertion.entry]
      · intro e he
        exact decide_eq_false
          (h.entriesIn_handle_ne hs hx (fun y hy => List.mem_append_left _ hy) e he)
      · exact decide_eq_true rfl
    · rw [if_neg hub]
      exact entriesIn_other rfl rfl fun h => hub ⟨h.1.symm, h.2.symm⟩
  · have hdistinct := h.distinct
    rw [hs, handles_append, handles_cons, key_of_handle hx] at hdistinct
    rw [handles_append, handles_cons]
    exact (List.nodup_cons.mp ((List.perm_middle.nodup_iff).mp hdistinct)).2

end Steps

/-! ## Runs -/

theorem Mirrors.step {s s' : Plane} {x : PlaneStep} (h : Mirrors s) (hx : Undisputed s x)
    (hstep : s.step x = some s') : Mirrors s' := by
  cases x with
  | insert t k a d =>
    cases hstep
    exact h.insert t k a d
  | confirmInsert i handle =>
    obtain ⟨y, hy, hstep⟩ := Option.bind_eq_some_iff.mp hstep
    rw [Option.ite_none_right_eq_some] at hstep
    obtain ⟨⟨hpending, hfresh⟩, hs'⟩ := hstep
    cases hs'
    obtain ⟨front, back, hs, hfront, hset⟩ := split_at hy
    rw [Plane.proceed, hset]
    refine h.confirmInsert hs hpending hfresh fun z hz => hx y hy z ?_
    rw [← hfront]
    exact hz
  | delete i =>
    obtain ⟨y, hy, hstep⟩ := Option.bind_eq_some_iff.mp hstep
    obtain ⟨front, back, hs, -, hset⟩ := split_at hy
    split at hstep
    · rename_i handle hlive
      cases hstep
      rw [Plane.proceed, hset]
      exact h.delete hs hlive
    · cases hstep
  | confirmDelete i =>
    obtain ⟨y, hy, hstep⟩ := Option.bind_eq_some_iff.mp hstep
    obtain ⟨front, back, hs, -, hset⟩ := split_at hy
    split at hstep
    · rename_i handle hdeleting
      cases hstep
      rw [Plane.proceed, hset]
      exact h.confirmDelete hs hdeleting
    · cases hstep

theorem reaches_mirrors {s : Plane} (h : plane.Reaches Undisputed s) : Mirrors s := by
  refine h.invariant (I := Mirrors) ?_ fun s x s' _ hs hx hstep => hs.step hx hstep
  exact ⟨fun t a => by simp [plane, entriesIn, TableEntries.bucket, TableEntries.table],
    List.nodup_nil, fun x hx => by simp [plane] at hx⟩

/-! ## The settled table -/

theorem Mirrors.filed {s : Plane} (h : Mirrors s) : s.table_entries.Filed := by
  intro t a e he
  rw [h.buckets] at he
  obtain ⟨x, -, rfl, rfl, hentry⟩ := mem_entriesIn he
  unfold Insertion.entry at hentry
  cases hstage : x.stage <;> rw [hstage] at hentry <;> cases hentry <;> exact ⟨rfl, rfl⟩

/-- An entry of a filed store occurs as often as in its own list. -/
theorem TableEntries.count_all {te : TableEntries} (hfiled : te.Filed) (e : TableEntry) :
    te.all.count e = (te.bucket e.table_name e.action_name).count e := by
  have hrest : e ∉ te.rest e.table_name e.action_name := by
    intro hmem
    rcases List.mem_append.mp hmem with hmem | hmem
    · simp only [Maps.mem_elements, id] at hmem
      obtain ⟨b, entries, hb, he⟩ := hmem
      rw [Maps.get_erase] at hb
      split at hb
      · cases hb
      · rename_i hne
        have hbucket : e ∈ te.bucket e.table_name b := by
          rw [TableEntries.bucket, hb]
          exact he
        exact hne (hfiled _ b e hbucket).2
    · obtain ⟨u, b, hub⟩ := TableEntries.mem_all.mp hmem
      rw [TableEntries.bucket, TableEntries.table, Maps.get_erase] at hub
      split at hub
      · simp at hub
      · rename_i hne
        exact hne (hfiled u b e hub).1
  rw [(te.all_perm e.table_name e.action_name).count_eq, List.count_append,
    List.count_eq_zero_of_not_mem hrest, Nat.add_zero]

/-- When no confirmation is outstanding the entries of the insertions are the live ones. -/
theorem count_liveEntry {l : List Insertion} (hl : ∀ x ∈ l, x.settled = true) (e : TableEntry) :
    (l.filterMap Insertion.liveEntry).count e =
      (entriesIn e.table_name e.action_name l).count e := by
  induction l with
  | nil => rfl
  | cons x l ih =>
    obtain ⟨hx, hl⟩ := List.forall_mem_cons.mp hl
    have hentry : x.entry = x.liveEntry := by
      unfold Insertion.settled at hx
      unfold Insertion.entry Insertion.liveEntry
      cases hstage : x.stage <;> rw [hstage] at hx <;> first | rfl | cases hx
    have hcons : ((x :: l).filterMap Insertion.liveEntry) =
        x.liveEntry.toList ++ l.filterMap Insertion.liveEntry := by
      rw [List.filterMap_cons]
      cases x.liveEntry <;> rfl
    rw [hcons, entriesIn_cons, List.count_append, List.count_append, ih hl, hentry]
    split
    · rfl
    · rename_i hne
      rw [List.count_nil, List.count_eq_zero_of_not_mem]
      intro hmem
      rw [Option.mem_toList, Insertion.liveEntry] at hmem
      cases hstage : x.stage <;> rw [hstage] at hmem <;> cases hmem
      exact hne ⟨rfl, rfl⟩

/-- **Settling.** When no confirmation is outstanding, the enumeration of the store is the
confirmed and not deleted insertions, if every insertion was confirmed undisputed. -/
theorem settled_table {s : Plane} (hs : plane.Reaches Undisputed s)
    (hsettled : ∀ x ∈ s.insertions, x.settled = true)
    (do_command : String → TableEntries → TableEntries) :
    (CPDebuggerInterface.mk s.table_entries do_command).getAllTableEntries.Perm
      (s.insertions.filterMap Insertion.liveEntry) := by
  have hmirrors := reaches_mirrors hs
  rw [CPDebuggerInterface.getAllTableEntries_eq]
  apply List.perm_iff_count.mpr
  intro e
  rw [TableEntries.count_all hmirrors.filed, hmirrors.buckets, count_liveEntry hsettled]

/-- The key is inserted again while its deletion is pending, and the second insertion is
confirmed before the deletion. -/
def disputedRun : List PlaneStep :=
  [.insert "t" "k" "forward" ["1"], .confirmInsert 0 1, .delete 0,
    .insert "t" "k" "forward" ["2"], .confirmInsert 1 2, .confirmDelete 0]

/-- The deleted entry is left with the new handle, and the new one is pending for ever. -/
theorem not_settled_disputed : ∃ s, plane.Reachable s ∧
    (∀ x ∈ s.insertions, x.settled = true) ∧
    ¬ (CPDebuggerInterface.mk s.table_entries fun _ te => te).getAllTableEntries.Perm
      (s.insertions.filterMap Insertion.liveEntry) := by
  have hrun : (plane.replay plane.init disputedRun).map
      (fun s => (s.table_entries.all.length, s.insertions.map Insertion.stage)) =
      some (2, [.deleted, .live 2]) := by
    decide +kernel
  obtain ⟨s, hreplay, hs⟩ := Option.map_eq_some_iff.mp hrun
  obtain ⟨hlength, hstages⟩ := Prod.mk.inj hs
  refine ⟨s, System.reachable_of_replay hreplay, ?_, ?_⟩
  · intro x hx
    have hmem : x.stage ∈ s.insertions.map Insertion.stage := List.mem_map_of_mem hx
    rw [hstages] at hmem
    unfold Insertion.settled
    simp only [List.mem_cons, List.not_mem_nil, or_false] at hmem
    rcases hmem with hmem | hmem <;> rw [hmem]
  · intro hperm
    have hlength' := hperm.length_eq
    rw [CPDebuggerInterface.getAllTableEntries_eq, hlength] at hlength'
    obtain ⟨x, l, hl, hx, htail⟩ := List.map_eq_cons_iff.mp hstages
    obtain ⟨y, l, rfl, hy, htail⟩ := List.map_eq_cons_iff.mp htail
    rw [List.map_eq_nil_iff] at htail
    subst htail
    rw [hl] at hlength'
    simp [Insertion.liveEntry, hx, hy] at hlength'

/-- Two keys are inserted and confirmed the other way round. The first one is deleted and
inserted again, and the second insertion of it confirmed behind the deletion. -/
def settledRun : List PlaneStep :=
  [.insert "t" "k" "forward" ["1"], .insert "t" "l" "drop" [], .confirmInsert 1 1,
    .confirmInsert 0 2, .delete 0, .insert "t" "k" "forward" ["2"], .delete 1, .confirmDelete 0,
    .confirmInsert 2 3, .confirmDelete 1]

theorem settled_once : ∃ s, plane.Reaches Undisputed s ∧ s.insertions.length = 3 ∧
    (CPDebuggerInterface.mk s.table_entries fun _ te => te).getAllTableEntries.Perm
      [⟨"t", "k", "forward", ["2"], 3, .OK⟩] := by
  have hrun : (plane.replayIf Undisputed plane.init settledRun).map (·.insertions) =
      some [⟨"t", "k", "forward", ["1"], .deleted⟩, ⟨"t", "l", "drop", [], .deleted⟩,
        ⟨"t", "k", "forward", ["2"], .live 3⟩] := by
    decide +kernel
  obtain ⟨s, hreplay, hs⟩ := Option.map_eq_some_iff.mp hrun
  have hreach : plane.Reaches Undisputed s := .replayIf .init hreplay
  have hperm := settled_table hreach (by rw [hs]; decide) fun _ te => te
  rw [hs] at hperm
  exact ⟨s, hreach, by rw [hs]; rfl, hperm⟩

end Pfp.Db
