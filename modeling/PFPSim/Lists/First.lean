import Mathlib.Data.List.Infix

/-!
# The first element with a property

Loops over a list that change the first element with a property, and stop there; the
elements that they go through.
-/

namespace Lists

variable {α : Type*} {p : α → Bool} {f : α → α} {l front back : List α} {x : α}

/-- `f` at the first element with `p`. -/
def modifyFirst (p : α → Bool) (f : α → α) : List α → List α
  | [] => []
  | x :: xs => if p x then f x :: xs else x :: modifyFirst p f xs

theorem modifyFirst_of_forall (h : ∀ x ∈ l, p x = false) : modifyFirst p f l = l := by
  induction l with
  | nil => rfl
  | cons x xs ih =>
    obtain ⟨hx, hxs⟩ := List.forall_mem_cons.mp h
    rw [modifyFirst, hx, ih hxs]
    rfl

theorem modifyFirst_append (h : ∀ y ∈ front, p y = false) (hx : p x = true) :
    modifyFirst p f (front ++ x :: back) = front ++ f x :: back := by
  induction front with
  | nil => rw [List.nil_append, modifyFirst, if_pos hx, List.nil_append]
  | cons y front ih =>
    obtain ⟨hy, hfront⟩ := List.forall_mem_cons.mp h
    rw [List.cons_append, modifyFirst, hy, ih hfront]
    rfl

theorem eraseP_append (h : ∀ y ∈ front, p y = false) (hx : p x = true) :
    (front ++ x :: back).eraseP p = front ++ back := by
  rw [List.eraseP_append_right, List.eraseP_cons_of_pos hx]
  intro y hy
  rw [h y hy]
  exact Bool.false_ne_true

/-- The first element with `p`, if there is one. -/
theorem split_first (p : α → Bool) (l : List α) : (∀ y ∈ l, p y = false) ∨
    ∃ front x back, l = front ++ x :: back ∧ (∀ y ∈ front, p y = false) ∧ p x = true := by
  induction l with
  | nil => exact .inl (by simp)
  | cons y l ih =>
    cases hy : p y with
    | true => exact .inr ⟨[], y, l, rfl, by simp, hy⟩
    | false =>
      rcases ih with hall | ⟨front, x, back, rfl, hfront, hx⟩
      · exact .inl (List.forall_mem_cons.mpr ⟨hy, hall⟩)
      · exact .inr ⟨y :: front, x, back, rfl, List.forall_mem_cons.mpr ⟨hy, hfront⟩, hx⟩

/-- The first element that fails a test. -/
theorem exists_first {q : α → Prop} (h : ¬ ∀ y ∈ l, q y) :
    ∃ front x back, l = front ++ x :: back ∧ (∀ y ∈ front, q y) ∧ ¬ q x := by
  classical
  rcases split_first (fun y => decide (¬ q y)) l with hall | ⟨front, x, back, hsplit, hfront, hx⟩
  · exact absurd (fun y hy => not_not.mp (of_decide_eq_false (hall y hy))) h
  · exact ⟨front, x, back, hsplit, fun y hy => not_not.mp (of_decide_eq_false (hfront y hy)),
      of_decide_eq_true hx⟩

/-- What does not change under `f` is the same along the list. -/
theorem map_modifyFirst {β : Type*} {g : α → β} (hg : ∀ x, g (f x) = g x) (l : List α) :
    (modifyFirst p f l).map g = l.map g := by
  rcases split_first p l with hall | ⟨front, x, back, rfl, hfront, hx⟩
  · rw [modifyFirst_of_forall hall]
  · rw [modifyFirst_append hfront hx, List.map_append, List.map_append, List.map_cons,
      List.map_cons, hg]

theorem mem_modifyFirst (h : x ∈ modifyFirst p f l) : x ∈ l ∨ ∃ y ∈ l, p y = true ∧ x = f y := by
  rcases split_first p l with hall | ⟨front, y, back, rfl, hfront, hy⟩
  · rw [modifyFirst_of_forall hall] at h
    exact .inl h
  · rw [modifyFirst_append hfront hy, List.mem_append, List.mem_cons] at h
    rcases h with h | rfl | h
    · exact .inl (List.mem_append_left _ h)
    · exact .inr ⟨y, List.mem_append_right _ List.mem_cons_self, hy, rfl⟩
    · exact .inl (List.mem_append_right _ (List.mem_cons_of_mem _ h))

/-- The elements up to the first with `p`. -/
def upTo (p : α → Bool) : List α → List α
  | [] => []
  | x :: xs => if p x then [x] else x :: upTo p xs

theorem upTo_initial (p : α → Bool) (l : List α) : upTo p l <+: l := by
  induction l with
  | nil => exact List.prefix_rfl
  | cons x l ih =>
    rw [upTo]
    split
    · exact List.prefix_append [x] l
    · exact (List.prefix_cons_inj x).mpr ih

/-- More elements with the property, fewer up to the first. -/
theorem upTo_prefix_upTo {q : α → Bool} (h : ∀ y, p y = true → q y = true) (l : List α) :
    upTo q l <+: upTo p l := by
  induction l with
  | nil => exact List.prefix_rfl
  | cons x l ih =>
    rw [upTo, upTo]
    split
    · split
      · exact List.prefix_rfl
      · exact List.prefix_append [x] _
    · rename_i hq
      rw [if_neg fun hp => hq (h x hp)]
      exact List.prefix_cons_inj x |>.mpr ih

theorem upTo_append (h : ∀ y ∈ front, p y = false) (hx : p x = true) :
    upTo p (front ++ x :: back) = front ++ [x] := by
  induction front with
  | nil => rw [List.nil_append, upTo, if_pos hx, List.nil_append]
  | cons y front ih =>
    obtain ⟨hy, hfront⟩ := List.forall_mem_cons.mp h
    rw [List.cons_append, upTo, hy, ih hfront]
    rfl

end Lists
