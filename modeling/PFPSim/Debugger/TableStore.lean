import PFPSim.Debugger.ControlPlane
import PFPSim.Lists.First
import PFPSim.Runs.System

/-!
# The store of table entries

The operations of `CPDebuggerInterface` on its nested maps. Each is described by what it
does to the list of one table and action (`bucket`), and all keep an entry filed under its
own table and action (`Filed`). The subscript of the source makes an empty map or list
where there is none.
-/

namespace Pfp.Db

open Runs Lists

namespace TableEntries

/-- `table_entries[table_name]` -/
def table (te : TableEntries) (table_name : String) : Map String (List TableEntry) :=
  (te[table_name]?).getD ∅

/-- The entries of an action of a table. -/
def bucket (te : TableEntries) (table_name action_name : String) : List TableEntry :=
  ((te.table table_name)[action_name]?).getD []

/-- The default of `addTableEntry`, the handle of an entry that has none yet. -/
def noHandle : UInt64 := -1

def updateHandle (te : TableEntries) (table_name match_key action_name : String)
    (handle : UInt64) : TableEntries :=
  match te[table_name]? with
  | none => te
  | some actions =>
    match actions[action_name]? with
    | none => te
    | some entries => te.insert table_name (actions.insert action_name
        (modifyFirst (fun e => e.match_key = match_key)
          (fun e => { e with handle, status := .OK }) entries))

def addTableEntry (te : TableEntries) (table_name match_key action_name : String)
    (action_data : List String) (handle : UInt64) : TableEntries :=
  let entry : TableEntry :=
    { table_name, match_key, action_name, action_data, handle, status := .INSERTING }
  match te[table_name]? with
  | none =>
    let action_map : Map String (List TableEntry) := ∅
    te.insert table_name (action_map.insert action_name [entry])
  | some action_map =>
    match action_map[action_name]? with
    | none => te.insert table_name (action_map.insert action_name [entry])
    | some entries => te.insert table_name (action_map.insert action_name (entries ++ [entry]))

def updateTableEntry (te : TableEntries) (table_name : String) (handle : UInt64)
    (action_name : String) (action_data : List String) : TableEntries :=
  te.insert table_name ((te.table table_name).insert action_name
    (modifyFirst (fun e => e.handle = handle)
      (fun e => { e with action_data, status := .MODIFYING }) (te.bucket table_name action_name)))

/-- The loop that gives the first entry with the handle, in each action, another status. -/
def setStatus (te : TableEntries) (table_name : String) (handle : UInt64)
    (status : TableEntryStatus) : TableEntries :=
  te.insert table_name ((te.table table_name).map fun _ entries =>
    modifyFirst (fun e => e.handle = handle) (fun e => { e with status }) entries)

def deleteTableEntry (te : TableEntries) (table_name : String) (handle : UInt64) : TableEntries :=
  te.setStatus table_name handle .DELETING

def confirmUpdateEntry (te : TableEntries) (table_name : String) (handle : UInt64) :
    TableEntries :=
  te.setStatus table_name handle .OK

/-- One action of `confirmDeleteEntry`. An action that becomes empty is erased while the loop
stands on it; `none` is the use of its iterator behind that. -/
def confirmDeleteStep (handle : UInt64) (action_map : Map String (List TableEntry))
    (action : String × List TableEntry) : Option (Map String (List TableEntry)) :=
  if action.2.any fun e => e.handle = handle then
    let entries := action.2.eraseP fun e => e.handle = handle
    if entries = [] then none else some (action_map.insert action.1 entries)
  else some action_map

def confirmDeleteEntry (te : TableEntries) (table_name : String) (handle : UInt64) :
    Option TableEntries :=
  ((te.table table_name).toList.foldlM (confirmDeleteStep handle) (te.table table_name)).map
    fun action_map => te.insert table_name action_map

/-- All entries, in the order of tables, actions and insertions. -/
def all (te : TableEntries) : List TableEntry := Maps.elements (Maps.elements id) te

end TableEntries

theorem CPDebuggerInterface.getAllTableEntries_eq (cp : CPDebuggerInterface) :
    cp.getAllTableEntries = cp.table_entries.all := rfl

namespace TableEntries

variable {te te' : TableEntries} {t a u b k : String} {h : UInt64}

/-! ## Buckets -/

theorem table_insert (te : TableEntries) (t u : String) (actions : Map String (List TableEntry)) :
    table (te.insert t actions) u = if t = u then actions else te.table u := by
  unfold table
  rw [Maps.get_insert]
  split <;> rfl

theorem bucket_insert (te : TableEntries) (t u b : String)
    (actions : Map String (List TableEntry)) :
    bucket (te.insert t actions) u b =
      if t = u then (actions[b]?).getD [] else te.bucket u b := by
  unfold bucket
  rw [table_insert]
  split <;> rfl

/-- One list of the store is replaced. -/
theorem bucket_replace (te : TableEntries) (t a u b : String) (entries : List TableEntry) :
    bucket (te.insert t ((te.table t).insert a entries)) u b =
      if t = u ∧ a = b then entries else te.bucket u b := by
  rw [bucket_insert, Maps.get_insert]
  by_cases ht : t = u
  · subst ht
    by_cases ha : a = b
    · simp [ha]
    · simp [ha, bucket]
  · simp [ht]

theorem table_of_get {actions : Map String (List TableEntry)} (ht : te[t]? = some actions) :
    te.table t = actions := by
  rw [table, ht, Option.getD_some]

theorem updateHandle_bucket (te : TableEntries) (t k a : String) (h : UInt64) (u b : String) :
    (te.updateHandle t k a h).bucket u b = if t = u ∧ a = b then
      modifyFirst (fun e => e.match_key = k) (fun e => { e with handle := h, status := .OK })
        (te.bucket u b)
      else te.bucket u b := by
  -- the two tests for presence do not show in the lists
  have hempty (hnone : te.bucket t a = []) : te.bucket u b = if t = u ∧ a = b then
      modifyFirst (fun e => e.match_key = k) (fun e => { e with handle := h, status := .OK })
        (te.bucket u b) else te.bucket u b := by
    split
    · rename_i heq
      rw [← heq.1, ← heq.2, hnone]
      rfl
    · rfl
  unfold updateHandle
  cases ht : te[t]? with
  | none =>
    apply hempty
    rw [bucket, table, ht]
    simp
  | some actions =>
    cases ha : actions[a]? with
    | none =>
      simp only [ha]
      apply hempty
      rw [bucket, table_of_get ht, ha]
      rfl
    | some entries =>
      have hentries : te.bucket t a = entries := by rw [bucket, table_of_get ht, ha]; rfl
      simp only [ha]
      rw [← table_of_get ht, bucket_replace, ← hentries]
      split
      · rename_i heq
        rw [heq.1, heq.2]
      · rfl

theorem addTableEntry_bucket (te : TableEntries) (t k a : String) (d : List String) (h : UInt64)
    (u b : String) : (te.addTableEntry t k a d h).bucket u b = te.bucket u b ++
      if t = u ∧ a = b then [⟨t, k, a, d, h, .INSERTING⟩] else [] := by
  have hadd : te.addTableEntry t k a d h = te.insert t ((te.table t).insert a
      (te.bucket t a ++ [⟨t, k, a, d, h, .INSERTING⟩])) := by
    unfold addTableEntry
    cases ht : te[t]? with
    | none => simp [bucket, table, ht]
    | some actions =>
      rw [bucket, table_of_get ht]
      cases ha : actions[a]? <;> simp [ha]
  rw [hadd, bucket_replace]
  split
  · rename_i heq
    rw [heq.1, heq.2]
  · rw [List.append_nil]

theorem updateTableEntry_bucket (te : TableEntries) (t : String) (h : UInt64) (a : String)
    (d : List String) (u b : String) :
    (te.updateTableEntry t h a d).bucket u b = if t = u ∧ a = b then
      modifyFirst (fun e => e.handle = h) (fun e => { e with action_data := d, status := .MODIFYING })
        (te.bucket u b)
      else te.bucket u b := by
  rw [updateTableEntry, bucket_replace]
  split
  · rename_i heq
    rw [heq.1, heq.2]
  · rfl

theorem setStatus_bucket (te : TableEntries) (t : String) (h : UInt64) (status : TableEntryStatus)
    (u b : String) : (te.setStatus t h status).bucket u b = if t = u then
      modifyFirst (fun e => e.handle = h) (fun e => { e with status }) (te.bucket u b)
      else te.bucket u b := by
  rw [setStatus, bucket_insert]
  split
  · rename_i heq
    rw [Std.ExtTreeMap.getElem?_map, bucket, heq]
    cases (te.table u)[b]? <;> rfl
  · rfl

/-! ## Confirmed deletions -/

/-- The loop of `confirmDeleteEntry` over actions that it has not met. -/
theorem confirmDelete_loop {h : UInt64} {m m' : Map String (List TableEntry)}
    {l : List (String × List TableEntry)} (hl : ∀ x ∈ l, m[x.1]? = some x.2)
    (hkeys : l.Pairwise fun x y => x.1 ≠ y.1)
    (hloop : l.foldlM (confirmDeleteStep h) m = some m') (b : String) :
    (m'[b]?).getD [] = if b ∈ l.map Prod.fst then
      ((m[b]?).getD []).eraseP fun e => e.handle = h else (m[b]?).getD [] := by
  induction l generalizing m with
  | nil =>
    cases hloop
    rfl
  | cons x l ih =>
    obtain ⟨hx, hl⟩ := List.forall_mem_cons.mp hl
    obtain ⟨hne, hkeys⟩ := List.pairwise_cons.mp hkeys
    rw [List.foldlM_cons] at hloop
    obtain ⟨m₁, hm₁, hloop⟩ := Option.bind_eq_some_iff.mp hloop
    have hother : ∀ j, x.1 ≠ j → m₁[j]? = m[j]? := by
      intro j hj
      unfold confirmDeleteStep at hm₁
      split at hm₁
      · simp only at hm₁
        split at hm₁
        · cases hm₁
        · cases hm₁
          rw [Maps.get_insert, if_neg hj]
      · cases hm₁
        rfl
    have hself : (m₁[x.1]?).getD [] = x.2.eraseP fun e => e.handle = h := by
      unfold confirmDeleteStep at hm₁
      split at hm₁
      · simp only at hm₁
        split at hm₁
        · cases hm₁
        · cases hm₁
          rw [Maps.get_insert, if_pos rfl, Option.getD_some]
      · rename_i hany
        cases hm₁
        rw [hx, Option.getD_some, List.eraseP_of_forall_not]
        simpa using hany
    have hrest := ih (fun y hy => (hother y.1 (hne y hy)).trans (hl y hy)) hkeys hloop
    rw [hrest]
    simp only [List.map_cons, List.mem_cons]
    by_cases hb : b = x.1
    · have hnot : x.1 ∉ l.map Prod.fst := by
        intro hmem
        obtain ⟨y, hy, heq⟩ := List.mem_map.mp hmem
        exact hne y hy heq.symm
      rw [hb, if_neg hnot, if_pos (.inl rfl), hself, hx, Option.getD_some]
    · rw [hother b (Ne.symm hb)]
      simp only [hb, false_or]

theorem confirmDeleteEntry_bucket (hte : te.confirmDeleteEntry t h = some te') (u b : String) :
    te'.bucket u b = if t = u then (te.bucket u b).eraseP fun e => e.handle = h
      else te.bucket u b := by
  obtain ⟨actions, hactions, rfl⟩ := Option.map_eq_some_iff.mp hte
  rw [bucket_insert]
  split
  · rename_i heq
    subst heq
    rw [confirmDelete_loop (fun x hx => Maps.mem_toList.mp hx)
      (Maps.distinct_keys _) hactions b]
    split
    · rfl
    · rename_i hb
      have hnone : (te.table t)[b]? = none := by
        rw [Option.eq_none_iff_forall_ne_some]
        intro entries hentries
        exact hb (List.mem_map.mpr ⟨(b, entries), Maps.mem_toList.mpr hentries, rfl⟩)
      rw [bucket, hnone]
      rfl
  · rfl

/-! ## Filing -/

/-- Every entry is in the list of its own table and action. -/
def Filed (te : TableEntries) : Prop :=
  ∀ t a, ∀ e ∈ te.bucket t a, e.table_name = t ∧ e.action_name = a

theorem filed_empty : Filed ∅ := by
  intro t a e he
  simp [bucket, table] at he

/-- A list that is changed at one entry, which stays where it belongs. -/
theorem Filed.modify (hfiled : te.Filed) {f : TableEntry → TableEntry} {p : TableEntry → Bool}
    (hf : ∀ e, (f e).table_name = e.table_name ∧ (f e).action_name = e.action_name)
    (u b : String) : ∀ e ∈ modifyFirst p f (te.bucket u b),
      e.table_name = u ∧ e.action_name = b := by
  intro e he
  rcases mem_modifyFirst he with he | ⟨e', he', -, rfl⟩
  · exact hfiled u b e he
  · rw [(hf e').1, (hf e').2]
    exact hfiled u b e' he'

theorem Filed.setStatus (hfiled : te.Filed) (t : String) (h : UInt64)
    (status : TableEntryStatus) : (te.setStatus t h status).Filed := by
  intro u b e he
  rw [setStatus_bucket] at he
  split at he
  · exact hfiled.modify (f := fun e => { e with status }) (fun _ => ⟨rfl, rfl⟩) u b e he
  · exact hfiled u b e he

theorem mem_all {te : TableEntries} {e : TableEntry} : e ∈ te.all ↔ ∃ t a, e ∈ te.bucket t a := by
  simp only [all, Maps.mem_elements, id]
  constructor
  · rintro ⟨t, actions, ht, a, entries, ha, he⟩
    refine ⟨t, a, ?_⟩
    rw [bucket, table_of_get ht, ha]
    exact he
  · rintro ⟨t, a, he⟩
    unfold bucket table at he
    cases ht : te[t]? with
    | none => simp [ht] at he
    | some actions =>
      rw [ht, Option.getD_some] at he
      cases ha : actions[a]? with
      | none => simp [ha] at he
      | some entries =>
        rw [ha] at he
        exact ⟨t, actions, ht, a, entries, ha, he⟩

end TableEntries

/-! ## Stores -/

/-- The operations of the interface. -/
inductive TableOperation where
  | addTableEntry (table_name match_key action_name : String) (action_data : List String)
      (handle : UInt64)
  | updateHandle (table_name match_key action_name : String) (handle : UInt64)
  | updateTableEntry (table_name : String) (handle : UInt64) (action_name : String)
      (action_data : List String)
  | deleteTableEntry (table_name : String) (handle : UInt64)
  | confirmUpdateEntry (table_name : String) (handle : UInt64)
  | confirmDeleteEntry (table_name : String) (handle : UInt64)

def TableEntries.operate (te : TableEntries) : TableOperation → Option TableEntries
  | .addTableEntry t k a d h => some (te.addTableEntry t k a d h)
  | .updateHandle t k a h => some (te.updateHandle t k a h)
  | .updateTableEntry t h a d => some (te.updateTableEntry t h a d)
  | .deleteTableEntry t h => some (te.deleteTableEntry t h)
  | .confirmUpdateEntry t h => some (te.confirmUpdateEntry t h)
  | .confirmDeleteEntry t h => te.confirmDeleteEntry t h

/-- The store of an interface, from its construction on. -/
def tableStore : System TableEntries TableOperation where
  init := ∅
  step := TableEntries.operate

theorem TableEntries.Filed.operate {te te' : TableEntries} (hfiled : te.Filed)
    {o : TableOperation} (hte : te.operate o = some te') : te'.Filed := by
  cases o with
  | addTableEntry t k a d h =>
    cases hte
    intro u b e he
    rw [addTableEntry_bucket, List.mem_append] at he
    rcases he with he | he
    · exact hfiled u b e he
    · split at he
      · rename_i heq
        rw [List.mem_singleton.mp he]
        exact heq
      · cases he
  | updateHandle t k a h =>
    cases hte
    intro u b e he
    rw [updateHandle_bucket] at he
    split at he
    · exact hfiled.modify (f := fun e => { e with handle := h, status := .OK })
        (fun _ => ⟨rfl, rfl⟩) u b e he
    · exact hfiled u b e he
  | updateTableEntry t h a d =>
    cases hte
    intro u b e he
    rw [updateTableEntry_bucket] at he
    split at he
    · exact hfiled.modify (f := fun e => { e with action_data := d, status := .MODIFYING })
        (fun _ => ⟨rfl, rfl⟩) u b e he
    · exact hfiled u b e he
  | deleteTableEntry t h =>
    cases hte
    exact hfiled.setStatus t h .DELETING
  | confirmUpdateEntry t h =>
    cases hte
    exact hfiled.setStatus t h .OK
  | confirmDeleteEntry t h =>
    intro u b e he
    rw [confirmDeleteEntry_bucket hte] at he
    split at he
    · exact hfiled u b e (List.mem_of_mem_eraseP he)
    · exact hfiled u b e he

/-- Every reachable store is filed. -/
theorem reachable_filed {te : TableEntries} (h : tableStore.Reachable te) : te.Filed :=
  h.invariant (I := TableEntries.Filed) TableEntries.filed_empty
    fun _ _ _ _ hfiled _ hstep => hfiled.operate hstep

end Pfp.Db
