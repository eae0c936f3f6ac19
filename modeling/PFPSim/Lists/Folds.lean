import Mathlib.Data.List.Basic

/-!
# Parts of a fold

A part of the state of a fold, from what single elements do to that part: they replace it,
add to it, or combine with it.
-/

namespace Lists

variable {α β γ : Type*} {f : β → α → β} {I : β → Prop} {l : List α} {b : β}

/-- A part that some elements replace is what the last of them has put there. -/
theorem foldl_last (part : β → γ) {set : α → Option γ} (hI : ∀ b a, I b → I (f b a))
    (h : ∀ b a, I b → part (f b a) = (set a).getD (part b)) (hb : I b) :
    part (l.foldl f b) = ((l.filterMap set).getLast?).getD (part b) := by
  induction l generalizing b with
  | nil => rfl
  | cons a l ih =>
    rw [List.foldl_cons, ih (hI b a hb), h b a hb]
    cases hset : set a with
    | none => rw [List.filterMap_cons_none hset, Option.getD_none]
    | some c =>
      rw [List.filterMap_cons_some hset, List.getLast?_cons, Option.getD_some, Option.getD_some]

/-- A part that elements are added to has them in order. -/
theorem foldl_collect (part : β → List γ) {out : α → Option γ}
    (h : ∀ b a, part (f b a) = part b ++ (out a).toList) :
    part (l.foldl f b) = part b ++ l.filterMap out := by
  induction l generalizing b with
  | nil => exact (List.append_nil _).symm
  | cons a l ih =>
    rw [List.foldl_cons, ih, h, List.append_assoc]
    cases hout : out a with
    | none => rw [List.filterMap_cons_none hout, Option.toList_none, List.nil_append]
    | some c =>
      rw [List.filterMap_cons_some hout, Option.toList_some, List.singleton_append]

/-- A part that elements are combined with is a fold of its own. -/
theorem foldl_combine {δ : Type*} (part : β → γ) {term : α → Option δ} {op : γ → δ → γ}
    (h : ∀ b a, part (f b a) = ((term a).map (op (part b))).getD (part b)) :
    part (l.foldl f b) = (l.filterMap term).foldl op (part b) := by
  induction l generalizing b with
  | nil => rfl
  | cons a l ih =>
    rw [List.foldl_cons, ih, h]
    cases hterm : term a with
    | none => rw [List.filterMap_cons_none hterm, Option.map_none, Option.getD_none]
    | some c =>
      rw [List.filterMap_cons_some hterm, Option.map_some, Option.getD_some, List.foldl_cons]

end Lists
