import Mathlib.Data.List.Nodup
import Std.Data.ExtTreeMap

/-!
# Enumerations of ordered maps

Maps with keys in a linear order, and the list of all elements when the values of a map
stand for lists (`elements`). A change of one key changes one part of that list.
-/

namespace Maps

open Std

variable {κ α β : Type*} [Ord κ] [TransOrd κ] [LawfulEqOrd κ]

section Lookup

variable [DecidableEq κ]

theorem get_insert (m : ExtTreeMap κ α compare) (k j : κ) (v : α) :
    (m.insert k v)[j]? = if k = j then some v else m[j]? := by
  rw [ExtTreeMap.getElem?_insert]
  simp only [LawfulEqCmp.compare_eq_iff_eq]

theorem get_insertIfNew (m : ExtTreeMap κ α compare) (k j : κ) (v : α) :
    (m.insertIfNew k v)[j]? = if k = j then some ((m[k]?).getD v) else m[j]? := by
  rw [ExtTreeMap.getElem?_insertIfNew]
  simp only [LawfulEqCmp.compare_eq_iff_eq, ExtTreeMap.mem_iff_isSome_getElem?]
  by_cases hk : k = j
  · subst hk
    cases hold : m[k]? with
    | none => simp
    | some old => simp
  · rw [if_neg fun h => hk h.1, if_neg hk]

theorem get_erase (m : ExtTreeMap κ α compare) (k j : κ) :
    (m.erase k)[j]? = if k = j then none else m[j]? := by
  rw [ExtTreeMap.getElem?_erase]
  simp only [LawfulEqCmp.compare_eq_iff_eq]

theorem erase_insert (m : ExtTreeMap κ α compare) (k : κ) (v : α) :
    (m.insert k v).erase k = m.erase k := by
  apply ExtTreeMap.ext_getElem?
  intro j
  rw [get_erase, get_erase, get_insert]
  split <;> rfl

end Lookup

variable {m : ExtTreeMap κ α compare}

theorem mem_toList {x : κ × α} : x ∈ m.toList ↔ m[x.1]? = some x.2 :=
  ExtTreeMap.mem_toList_iff_getElem?_eq_some

theorem distinct_keys (m : ExtTreeMap κ α compare) :
    m.toList.Pairwise fun x y => x.1 ≠ y.1 := by
  apply m.distinct_keys_toList.imp
  intro x y hxy heq
  exact hxy (LawfulEqCmp.compare_eq_iff_eq.mpr heq)

theorem nodup_toList (m : ExtTreeMap κ α compare) : m.toList.Nodup := by
  apply (distinct_keys m).imp
  intro x y hxy heq
  exact hxy (congrArg Prod.fst heq)

/-! ## Elements -/

/-- The elements of all values, in the order of the keys. -/
def elements (f : α → List β) (m : ExtTreeMap κ α compare) : List β :=
  m.toList.flatMap fun x => f x.2

variable {f : α → List β}

theorem mem_elements {b : β} : b ∈ elements f m ↔ ∃ (k : κ) (v : α), m[k]? = some v ∧ b ∈ f v := by
  rw [elements, List.mem_flatMap]
  constructor
  · rintro ⟨⟨k, v⟩, hx, hb⟩
    exact ⟨k, v, mem_toList.mp hx, hb⟩
  · rintro ⟨k, v, hk, hb⟩
    exact ⟨(k, v), mem_toList.mpr hk, hb⟩

variable [DecidableEq κ]

/-- The part of one key, and the rest. -/
theorem toList_perm {k : κ} {v : α} (hk : m[k]? = some v) :
    m.toList.Perm ((k, v) :: (m.erase k).toList) := by
  refine (List.perm_ext_iff_of_nodup (nodup_toList m) ?_).mpr ?_
  · refine List.nodup_cons.mpr ⟨?_, nodup_toList _⟩
    intro hmem
    rw [mem_toList, get_erase, if_pos rfl] at hmem
    cases hmem
  · intro x
    obtain ⟨j, w⟩ := x
    rw [List.mem_cons, mem_toList, mem_toList, get_erase]
    by_cases hj : k = j
    · subst hj
      rw [hk, if_pos rfl]
      simp [eq_comm]
    · simp [hj, Ne.symm hj]

/-- The elements at one key, and the rest. -/
theorem elements_perm (m : ExtTreeMap κ α compare) (k : κ) :
    (elements f m).Perm (m[k]?.elim [] f ++ elements f (m.erase k)) := by
  cases hk : m[k]? with
  | none =>
    have herase : m.erase k = m := by
      apply ExtTreeMap.ext_getElem?
      intro j
      rw [get_erase]
      split
      · rename_i hj
        rw [← hj, hk]
      · rfl
    rw [herase]
    exact .refl _
  | some v => exact (toList_perm hk).flatMap_right _

theorem elements_insert_perm (m : ExtTreeMap κ α compare) (k : κ) (v : α) :
    (elements f (m.insert k v)).Perm (f v ++ elements f (m.erase k)) := by
  have hperm := elements_perm (f := f) (m.insert k v) k
  rw [get_insert, if_pos rfl, erase_insert] at hperm
  exact hperm

/-- Elements that only one key can have. -/
theorem filter_elements {p : β → Bool} (k : κ)
    (hp : ∀ (j : κ) (v : α), m[j]? = some v → j ≠ k → ∀ b ∈ f v, p b = false) :
    (elements f m).filter p = (m[k]?.elim [] f).filter p := by
  -- the keys of a list of bindings, and whether `k` is among them
  have hlist : ∀ l : List (κ × α), l.Pairwise (fun x y => x.1 ≠ y.1) →
      (∀ x ∈ l, m[x.1]? = some x.2) →
      (l.flatMap fun x => f x.2).filter p =
        if k ∈ l.map Prod.fst then (m[k]?.elim [] f).filter p else [] := by
    intro l hkeys hl
    induction l with
    | nil => rfl
    | cons x l ih =>
      obtain ⟨hne, hkeys⟩ := List.pairwise_cons.mp hkeys
      obtain ⟨hx, hl⟩ := List.forall_mem_cons.mp hl
      rw [List.flatMap_cons, List.filter_append, ih hkeys hl, List.map_cons]
      by_cases hk : x.1 = k
      · have hnot : k ∉ l.map Prod.fst := by
          intro hmem
          obtain ⟨y, hy, heq⟩ := List.mem_map.mp hmem
          exact hne y hy (hk.trans heq.symm)
        rw [if_neg hnot, if_pos (hk ▸ List.mem_cons_self), List.append_nil, ← hk, hx]
        rfl
      · have hnone : (f x.2).filter p = [] := by
          rw [List.filter_eq_nil_iff]
          intro b hb
          rw [hp x.1 x.2 hx hk b hb]
          exact Bool.false_ne_true
        rw [hnone, List.nil_append]
        simp only [List.mem_cons, Ne.symm hk, false_or]
  rw [elements, hlist _ (distinct_keys m) fun x hx => mem_toList.mp hx]
  split
  · rfl
  · rename_i hk
    cases hget : m[k]? with
    | none => rfl
    | some v => exact absurd (List.mem_map.mpr ⟨(k, v), mem_toList.mpr hget, rfl⟩) hk

omit [LawfulEqOrd κ] [DecidableEq κ] in
/-- The elements are in the order of the keys, and then in that of each list. -/
theorem pairwise_elements [LawfulEqOrd κ] {R : β → β → Prop}
    (hsame : ∀ (k : κ) (v : α), m[k]? = some v → (f v).Pairwise R)
    (hother : ∀ (j k : κ) (v w : α), m[j]? = some v → m[k]? = some w → compare j k = .lt →
      ∀ a ∈ f v, ∀ b ∈ f w, R a b) : (elements f m).Pairwise R := by
  refine List.pairwise_flatMap.mpr ⟨fun x hx => hsame x.1 x.2 (mem_toList.mp hx), ?_⟩
  refine List.Pairwise.imp_of_mem (fun {x y} hx hy hlt => ?_) m.ordered_keys_toList
  exact hother x.1 y.1 x.2 y.2 (mem_toList.mp hx) (mem_toList.mp hy) hlt

end Maps
