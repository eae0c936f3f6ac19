import PFPSim.Lists.First
import Mathlib.Data.List.Pairwise

/-!
# Numbered lists

Lists whose elements are numbered by a counter when they are added. What was removed does
not come back (`Descends`), and where no number occurs twice, what is done to the first
element with a number is done to all of them (`Single`).
-/

namespace Lists

variable {α : Type*} {id : α → Int} {l l' l'' : List α} {n n' n'' : Int}

/-- Every element of the later list with a number that had been given out is one of the
earlier list; elements with negative numbers do not count. -/
def Descends (id : α → Int) (l : List α) (n : Int) (l' : List α) (n' : Int) : Prop :=
  n ≤ n' ∧ ∀ x ∈ l', 0 ≤ id x → id x < n → id x ∈ l.map id

namespace Descends

theorem grow (hn : n ≤ n') : Descends id l n l n' :=
  ⟨hn, fun _ hx _ _ => List.mem_map_of_mem hx⟩

theorem refl (id : α → Int) (l : List α) (n : Int) : Descends id l n l n :=
  grow (Int.le_refl n)

theorem trans (h : Descends id l n l' n') (h' : Descends id l' n' l'' n'') :
    Descends id l n l'' n'' := by
  refine ⟨Int.le_trans h.1 h'.1, ?_⟩
  intro x hx hpos hlt
  obtain ⟨y, hy, heq⟩ := List.mem_map.mp (h'.2 x hx hpos (Int.lt_of_lt_of_le hlt h.1))
  have hmem := h.2 y hy (by omega) (by omega)
  rwa [heq] at hmem

theorem of_subset (h : l'.map id ⊆ l.map id) : Descends id l n l' n :=
  ⟨Int.le_refl n, fun _ hx _ _ => h (List.mem_map_of_mem hx)⟩

theorem of_map_eq (h : l'.map id = l.map id) : Descends id l n l' n :=
  of_subset fun _ hk => h ▸ hk

/-- A new element has the next number, or none. -/
theorem append {x : α} (hx : id x = n ∨ id x < 0) (hn : n ≤ n') :
    Descends id l n (l ++ [x]) n' := by
  refine ⟨hn, ?_⟩
  intro y hy hpos hlt
  rcases List.mem_append.mp hy with hy | hy
  · exact List.mem_map_of_mem hy
  · rw [List.mem_singleton] at hy
    subst hy
    omega

/-- A number that was given out and is in no earlier element is in no later one. -/
theorem not_mem (h : Descends id l n l' n') {k : Int} (hpos : 0 ≤ k) (hlt : k < n)
    (hk : k ∉ l.map id) : k ∉ l'.map id := by
  intro hmem
  obtain ⟨x, hx, rfl⟩ := List.mem_map.mp hmem
  exact hk (h.2 x hx hpos hlt)

end Descends

/-! ## One element with a property -/

variable {p : α → Bool} {f : α → α} {front back : List α} {x : α}

/-- No two elements have the property. -/
def Single (p : α → Bool) (l : List α) : Prop :=
  l.Pairwise fun x y => ¬ (p x = true ∧ p y = true)

theorem Single.of_forall (h : ∀ y ∈ l, p y = false) : Single p l := by
  apply List.pairwise_of_forall_mem_list
  intro y hy z _ hyz
  rw [h y hy] at hyz
  cases hyz.1

theorem Single.concat (h : ∀ y ∈ l, p y = false) (x : α) : Single p (l ++ [x]) := by
  refine List.pairwise_append.mpr ⟨Single.of_forall h, List.pairwise_singleton _ _, ?_⟩
  intro y hy z _ hyz
  rw [h y hy] at hyz
  cases hyz.1

theorem Single.eq_false_of_behind (h : Single p (front ++ x :: back)) (hx : p x = true) :
    ∀ y ∈ back, p y = false := by
  intro y hy
  have hcons := List.pairwise_cons.mp (List.pairwise_append.mp h).2.1
  rw [← Bool.not_eq_true]
  exact fun hy' => hcons.1 y hy ⟨hx, hy'⟩

theorem Single.length_filter_le (h : Single p l) : (l.filter p).length ≤ 1 := by
  rcases split_first p l with hall | ⟨front, x, back, rfl, hfront, hx⟩
  · rw [List.filter_eq_nil_iff.mpr fun y hy => by simp [hall y hy]]
    exact Nat.zero_le 1
  · rw [List.filter_append, List.filter_cons_of_pos hx,
      List.filter_eq_nil_iff.mpr fun y hy => by simp [hfront y hy],
      List.filter_eq_nil_iff.mpr fun y hy => by simp [h.eq_false_of_behind hx y hy]]
    exact Nat.le_refl 1

theorem Single.eraseP_eq_filter (h : Single p l) : l.eraseP p = l.filter fun y => !p y := by
  rcases split_first p l with hall | ⟨front, x, back, rfl, hfront, hx⟩
  · rw [List.eraseP_of_forall_not fun y hy => by simp [hall y hy],
      List.filter_eq_self.mpr fun y hy => by simp [hall y hy]]
  · rw [eraseP_append hfront hx, List.filter_append, List.filter_cons_of_neg (by simp [hx]),
      List.filter_eq_self.mpr fun y hy => by simp [hfront y hy],
      List.filter_eq_self.mpr fun y hy => by simp [h.eq_false_of_behind hx y hy]]

theorem Single.modifyFirst_eq_map (h : Single p l) :
    modifyFirst p f l = l.map fun y => if p y then f y else y := by
  have hmap {m : List α} (hm : ∀ y ∈ m, p y = false) :
      m.map (fun y => if p y then f y else y) = m := by
    rw [List.map_congr_left fun y hy => if_neg (by simp [hm y hy]), List.map_id']
  rcases split_first p l with hall | ⟨front, x, back, rfl, hfront, hx⟩
  · rw [modifyFirst_of_forall hall, hmap hall]
  · rw [modifyFirst_append hfront hx, List.map_append, List.map_cons, hmap hfront,
      hmap (h.eq_false_of_behind hx), if_pos hx]

end Lists
