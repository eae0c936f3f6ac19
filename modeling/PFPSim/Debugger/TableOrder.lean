import PFPSim.Debugger.TableStore
import Mathlib.Data.List.Induction

/-!
# The order of the table entries

Without confirmed deletions a store keeps one entry for each call of `addTableEntry`, in
the list of its table and action, and `getAllTableEntries` goes through them by table, then
by action, then by insertion. The store is compared with the list of the calls (`filings`).
-/

namespace Pfp.Db

open Runs Lists

/-- What a call of `addTableEntry` files. -/
structure Filing where
  table_name : String
  action_name : String
  match_key : String
  deriving DecidableEq

def TableEntry.filing (e : TableEntry) : Filing := ⟨e.table_name, e.action_name, e.match_key⟩

/-- Whether it belongs to an action of a table. -/
def Filing.isIn (t a : String) (x : Filing) : Bool := x.table_name = t ∧ x.action_name = a

/-- The order of tables, and of actions in a table. -/
def Filing.le (x y : Filing) : Prop :=
  ((compare x.table_name y.table_name).then (compare x.action_name y.action_name)).isLE = true

def TableOperation.filing? : TableOperation → Option Filing
  | .addTableEntry t k a _ _ => some ⟨t, a, k⟩
  | _ => none

/-- The filings of a sequence of operations. -/
def filings (ops : List TableOperation) : List Filing := ops.filterMap TableOperation.filing?

/-- An operation that erases no entry. -/
def TableOperation.Keeps : TableOperation → Prop
  | .confirmDeleteEntry _ _ => False
  | _ => True

namespace TableEntries

variable {te te' : TableEntries}

/-- A list in which one entry may have changed has the filings it had. -/
theorem filings_modified {c : Prop} [Decidable c] {p : TableEntry → Bool}
    {f : TableEntry → TableEntry} {l l' : List TableEntry}
    (hl : l' = if c then modifyFirst p f l else l) (hf : ∀ e, (f e).filing = e.filing) :
    l'.map TableEntry.filing = l.map TableEntry.filing ++ [] := by
  rw [hl, List.append_nil]
  split
  · exact map_modifyFirst hf l
  · rfl

/-- An operation adds its filing behind those of its table and action. -/
theorem operate_filings {o : TableOperation} (ho : o.Keeps) (hte : te.operate o = some te')
    (t a : String) : (te'.bucket t a).map TableEntry.filing =
      (te.bucket t a).map TableEntry.filing ++ (filings [o]).filter (Filing.isIn t a) := by
  cases o with
  | addTableEntry u k b d h =>
    cases hte
    rw [addTableEntry_bucket, List.map_append]
    refine congrArg _ ?_
    simp only [filings, TableOperation.filing?, List.filterMap_cons, List.filterMap_nil,
      List.filter_cons, List.filter_nil, Filing.isIn, decide_eq_true_eq]
    split
    · rfl
    · rfl
  | updateHandle u k b h =>
    cases hte
    exact filings_modified (updateHandle_bucket te u k b h t a) fun e => rfl
  | updateTableEntry u h b d =>
    cases hte
    exact filings_modified (updateTableEntry_bucket te u h b d t a) fun e => rfl
  | deleteTableEntry u h =>
    cases hte
    exact filings_modified (setStatus_bucket te u h .DELETING t a) fun e => rfl
  | confirmUpdateEntry u h =>
    cases hte
    exact filings_modified (setStatus_bucket te u h .OK t a) fun e => rfl
  | confirmDeleteEntry u h => exact ho.elim

theorem operate_total {o : TableOperation} (ho : o.Keeps) (te : TableEntries) :
    ∃ te', te.operate o = some te' := by
  cases o with
  | confirmDeleteEntry u h => exact ho.elim
  | _ => exact ⟨_, rfl⟩

/-! ## The enumeration -/

/-- The entries of a table and action are together, in the order of their list. -/
theorem filter_all (hte : te.Filed) (t a : String) :
    te.all.filter (fun e => e.filing.isIn t a) = te.bucket t a := by
  have htable : ∀ (u : String) (actions : Map String (List TableEntry)), te[u]? = some actions →
      u ≠ t → ∀ e ∈ Maps.elements id actions, e.filing.isIn t a = false := by
    intro u actions hu hne e he
    obtain ⟨b, entries, hb, he⟩ := Maps.mem_elements.mp he
    have hbucket : te.bucket u b = entries := by rw [bucket, table_of_get hu, hb]; rfl
    have hplace := (hte u b e (hbucket ▸ he)).1
    simp [Filing.isIn, TableEntry.filing, hplace, hne]
  rw [all, Maps.filter_elements t htable]
  cases ht : te[t]? with
  | none =>
    rw [bucket, table, ht]
    simp
  | some actions =>
    have hbucket : ∀ b entries, actions[b]? = some entries → te.bucket t b = entries := by
      intro b entries hb
      rw [bucket, table_of_get ht, hb]
      rfl
    have haction : ∀ (b : String) (entries : List TableEntry), actions[b]? = some entries →
        b ≠ a → ∀ e ∈ id entries, e.filing.isIn t a = false := by
      intro b entries hb hne e he
      have hplace := (hte t b e (hbucket b entries hb ▸ he)).2
      simp [Filing.isIn, TableEntry.filing, hplace, hne]
    show (Maps.elements id actions).filter _ = _
    rw [Maps.filter_elements a haction]
    cases ha : actions[a]? with
    | none =>
      rw [bucket, table_of_get ht, ha]
      rfl
    | some entries =>
      rw [hbucket a entries ha]
      apply List.filter_eq_self.mpr
      intro e he
      obtain ⟨htable, haction⟩ := hte t a e (hbucket a entries ha ▸ he)
      simp [Filing.isIn, TableEntry.filing, htable, haction]

theorem pairwise_all (hte : te.Filed) : te.all.Pairwise fun e e' => e.filing.le e'.filing := by
  refine Maps.pairwise_elements ?_ ?_
  · intro t actions ht
    have hbucket : ∀ b entries, actions[b]? = some entries → te.bucket t b = entries := by
      intro b entries hb
      rw [bucket, table_of_get ht, hb]
      rfl
    refine Maps.pairwise_elements ?_ ?_
    · intro a entries ha
      apply List.pairwise_of_forall_mem_list
      intro e he e' he'
      have hplace := hte t a e (hbucket a entries ha ▸ he)
      have hplace' := hte t a e' (hbucket a entries ha ▸ he')
      simp [Filing.le, TableEntry.filing, hplace, hplace']
    · intro a b entries entries' ha hb hlt e he e' he'
      have hplace := hte t a e (hbucket a entries ha ▸ he)
      have hplace' := hte t b e' (hbucket b entries' hb ▸ he')
      simp [Filing.le, TableEntry.filing, hplace, hplace', hlt]
  · intro t u actions actions' ht hu hlt e he e' he'
    obtain ⟨a, entries, ha, he⟩ := Maps.mem_elements.mp he
    obtain ⟨b, entries', hb, he'⟩ := Maps.mem_elements.mp he'
    have hplace := (hte t a e (by rw [bucket, table_of_get ht, ha]; exact he)).1
    have hplace' := (hte u b e' (by rw [bucket, table_of_get hu, hb]; exact he')).1
    simp [Filing.le, TableEntry.filing, hplace, hplace', hlt]

end TableEntries

/-! ## Histories -/

open TableEntries

/-- Every list of entries holds the filings of its table and action, in order. -/
theorem bucket_filings {ops : List TableOperation} (hops : ∀ o ∈ ops, o.Keeps) :
    ∃ te, tableStore.replay ∅ ops = some te ∧ te.Filed ∧
      ∀ t a, (te.bucket t a).map TableEntry.filing = (filings ops).filter (Filing.isIn t a) := by
  induction ops using List.reverseRecOn with
  | nil => exact ⟨∅, rfl, filed_empty, fun t a => by simp [bucket, table, filings]⟩
  | append_singleton ops o ih =>
    obtain ⟨hops, ho⟩ := List.forall_mem_append.mp hops
    obtain ⟨te, hte, hfiled, hbuckets⟩ := ih hops
    obtain ⟨te', hte'⟩ := operate_total (ho o List.mem_cons_self) te
    refine ⟨te', ?_, hfiled.operate hte', ?_⟩
    · rw [System.replay_append, hte]
      simp only [Option.bind_some, System.replay]
      rw [show tableStore.step te o = some te' from hte', Option.bind_some]
    · intro t a
      rw [operate_filings (ho o List.mem_cons_self) hte', hbuckets, ← List.filter_append]
      refine congrArg _ ?_
      rw [filings, filings, filings, ← List.filterMap_append]

theorem Filing.le_antisymm {x y : Filing} (hxy : x.le y) (hyx : y.le x) :
    y.isIn x.table_name x.action_name = true := by
  have hswap : (compare y.table_name x.table_name).then (compare y.action_name x.action_name) =
      ((compare x.table_name y.table_name).then (compare x.action_name y.action_name)).swap := by
    rw [Ordering.swap_then, ← Std.OrientedCmp.eq_swap, ← Std.OrientedCmp.eq_swap]
  have heq : (compare x.table_name y.table_name).then (compare x.action_name y.action_name) =
      .eq := by
    rw [Filing.le, hswap] at hyx
    rw [Filing.le] at hxy
    revert hxy hyx
    cases (compare x.table_name y.table_name).then (compare x.action_name y.action_name) <;> simp
  rw [Ordering.then_eq_eq] at heq
  simp [Filing.isIn, Std.LawfulEqCmp.eq_of_compare heq.1, Std.LawfulEqCmp.eq_of_compare heq.2]

/-- A list in order is determined by its parts. -/
theorem eq_of_parts {l l' : List Filing} (hl : l.Pairwise Filing.le) (hl' : l'.Pairwise Filing.le)
    (hparts : ∀ t a, l.filter (Filing.isIn t a) = l'.filter (Filing.isIn t a)) : l = l' := by
  have hmem : ∀ x, x ∈ l ↔ x ∈ l' := by
    intro x
    have hpart := congrArg (x ∈ ·) (hparts x.table_name x.action_name)
    simpa [List.mem_filter, Filing.isIn] using hpart
  induction l generalizing l' with
  | nil =>
    cases l' with
    | nil => rfl
    | cons y l' => exact absurd ((hmem y).mpr List.mem_cons_self) List.not_mem_nil
  | cons x l ih =>
    cases l' with
    | nil => exact absurd ((hmem x).mp List.mem_cons_self) List.not_mem_nil
    | cons y l' =>
      obtain ⟨hx, hrest⟩ := List.pairwise_cons.mp hl
      obtain ⟨hy, hrest'⟩ := List.pairwise_cons.mp hl'
      have hself : x.isIn x.table_name x.action_name = true := by simp [Filing.isIn]
      -- both heads come first, so they are in the same part
      have hhead : x = y := by
        by_contra hne
        have hxy : x.le y := by
          rcases List.mem_cons.mp ((hmem y).mpr List.mem_cons_self) with heq | hin
          · exact absurd heq.symm hne
          · exact hx y hin
        have hyx : y.le x := by
          rcases List.mem_cons.mp ((hmem x).mp List.mem_cons_self) with heq | hin
          · exact absurd heq hne
          · exact hy x hin
        have hpart := hparts x.table_name x.action_name
        rw [List.filter_cons_of_pos hself, List.filter_cons_of_pos (Filing.le_antisymm hxy hyx)]
          at hpart
        exact hne (List.cons.inj hpart).1
      subst hhead
      have htails : ∀ t a, l.filter (Filing.isIn t a) = l'.filter (Filing.isIn t a) := by
        intro t a
        have hpart := hparts t a
        rw [List.filter_cons, List.filter_cons] at hpart
        split at hpart
        · exact (List.cons.inj hpart).2
        · exact hpart
      refine congrArg _ (ih hrest hrest' htails ?_)
      intro z
      have hpart := congrArg (z ∈ ·) (htails z.table_name z.action_name)
      simpa [List.mem_filter, Filing.isIn] using hpart

/-- An operation that files nothing leaves the enumeration as it is, up to data, handles and
status. -/
theorem operate_all {te te' : TableEntries} (hte : te.Filed) {o : TableOperation} (ho : o.Keeps)
    (hnone : o.filing? = none) (hte' : te.operate o = some te') :
    te'.all.map TableEntry.filing = te.all.map TableEntry.filing := by
  apply eq_of_parts (List.pairwise_map.mpr (pairwise_all (hte.operate hte')))
    (List.pairwise_map.mpr (pairwise_all hte))
  intro t a
  have hfilings : filings [o] = [] := by simp [filings, hnone]
  have hbucket := operate_filings ho hte' t a
  rw [hfilings, List.filter_nil, List.append_nil, ← filter_all (hte.operate hte') t a,
    ← filter_all hte t a] at hbucket
  rw [List.filter_map, List.filter_map]
  exact hbucket

/-- **Complete enumeration.** Without confirmed deletions, every entry is in the list of its
table and action, and the enumeration has one entry for each filing: by table, then by
action, then by insertion. An operation that files nothing leaves it as it is. -/
theorem all_in_order {ops : List TableOperation} (hops : ∀ o ∈ ops, o.Keeps) :
    ∃ te, tableStore.replay ∅ ops = some te ∧ te.Filed ∧
      (te.all.map TableEntry.filing).Perm (filings ops) ∧
      (te.all.map TableEntry.filing).Pairwise Filing.le ∧
      (∀ t a, (te.all.map TableEntry.filing).filter (Filing.isIn t a) =
        (filings ops).filter (Filing.isIn t a)) ∧
      ∀ o, o.Keeps → o.filing? = none → ∃ te', te.operate o = some te' ∧
        te'.all.map TableEntry.filing = te.all.map TableEntry.filing := by
  obtain ⟨te, hte, hfiled, hbuckets⟩ := bucket_filings hops
  have hparts : ∀ t a, (te.all.map TableEntry.filing).filter (Filing.isIn t a) =
      (filings ops).filter (Filing.isIn t a) := by
    intro t a
    rw [← hbuckets, ← filter_all hfiled t a, List.filter_map]
    rfl
  refine ⟨te, hte, hfiled, ?_, List.pairwise_map.mpr (pairwise_all hfiled), hparts, ?_⟩
  · rw [List.perm_iff_count]
    intro x
    -- an element is counted in the part of its table and action
    have hcount : ∀ l : List Filing,
        l.count x = (l.filter (Filing.isIn x.table_name x.action_name)).count x := by
      intro l
      rw [List.count_filter]
      simp [Filing.isIn]
    rw [hcount, hparts, ← hcount]
  · intro o ho hnone
    obtain ⟨te', hte'⟩ := operate_total ho te
    exact ⟨te', hte', operate_all hfiled ho hnone hte'⟩

/-- Two insertions into an unknown table, and operations on unknown handles and actions. -/
theorem enumerated_behind_unknown : ∃ te, tableStore.replay ∅
    [.updateTableEntry "t" 3 "b" [], .addTableEntry "t" "k" "b" ["1"] TableEntries.noHandle,
      .addTableEntry "t" "l" "a" [] 7, .deleteTableEntry "u" 7, .updateHandle "t" "m" "a" 2] =
      some te ∧ te.Filed ∧
        (te.all.map TableEntry.filing).Perm [⟨"t", "b", "k"⟩, ⟨"t", "a", "l"⟩] := by
  have hops : ∀ o ∈ ([.updateTableEntry "t" 3 "b" [],
      .addTableEntry "t" "k" "b" ["1"] TableEntries.noHandle, .addTableEntry "t" "l" "a" [] 7,
      .deleteTableEntry "u" 7, .updateHandle "t" "m" "a" 2] : List TableOperation), o.Keeps := by
    intro o ho
    simp only [List.mem_cons, List.not_mem_nil, or_false] at ho
    rcases ho with rfl | rfl | rfl | rfl | rfl <;> trivial
  obtain ⟨te, hte, hfiled, hperm, -⟩ := all_in_order hops
  exact ⟨te, hte, hfiled, hperm⟩

end Pfp.Db
