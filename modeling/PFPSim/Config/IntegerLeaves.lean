import PFPSim.Config.OverlayLaws

/-!
# Integers in an instance

An integer has one of two types in a document: literals without a sign are unsigned, and
negative ones signed. A comparison asks for the same type, so an integer of the base can be
overridden by those of its own sign only (`integers_override_iff`).
-/

namespace Pfp.Core

open Json Value

variable {F : Type} {c g : Value F}

/-- The primitive of an integer literal of 64 bits. -/
def get_number (n : Int) : Primitive F :=
  if 0 ≤ n then .number_unsigned (UInt64.ofNat n.toNat) else .number_integer (Int64.ofInt n)

/-- Whether one of the integers of the library has the value. -/
def Is64Bit (n : Int) : Prop := Int64.minValue.toInt ≤ n ∧ n < (UInt64.size : Int)

/-- What an instance has where the base has `g`: nothing, the same, or an integer in the
place of an integer. -/
def LabelReplaces : (c g : Option (Label F)) → Prop
  | none, _ => True
  | some (.primitive y), some (.primitive x) =>
    y = x ∨ ∃ m n, Is64Bit m ∧ Is64Bit n ∧ x = get_number m ∧ y = get_number n
  | some (.array n), some (.array length) => n = length
  | some (.object _), some (.object _) => True
  | some _, _ => False

/-- `c` is a part of `g` with the same structure, and other integers in some of its leaves. -/
def Replaces (c g : Value F) : Prop := ∀ p, LabelReplaces (c.labelAt p) (g.labelAt p)

/-- Where both have an integer, both are negative or none is. -/
def SameSigns (c g : Value F) : Prop :=
  ∀ p m n, g.labelAt p = some (.primitive (get_number m)) →
    c.labelAt p = some (.primitive (get_number n)) → (0 ≤ m ↔ 0 ≤ n)

theorem type_get_number (n : Int) : (get_number (F := F) n).type =
    if 0 ≤ n then .number_unsigned else .number_integer := by
  rw [get_number]
  split <;> rfl

/-- The type of an integer tells its sign. -/
theorem type_get_number_eq_iff (m n : Int) :
    (get_number (F := F) m).type = (get_number (F := F) n).type ↔ (0 ≤ m ↔ 0 ≤ n) := by
  rw [type_get_number, type_get_number]
  by_cases hm : 0 ≤ m
  · by_cases hn : 0 ≤ n
    · simp [hm, hn]
    · simp [hm, hn]
  · by_cases hn : 0 ≤ n
    · simp [hm, hn]
    · simp [hm, hn]

theorem LabelReplaces.fits_iff {c g : Option (Label F)} (h : LabelReplaces c g) :
    LabelFits c (g.map shapeOf) ↔ ∀ m n, g = some (.primitive (get_number m)) →
      c = some (.primitive (get_number n)) → (0 ≤ m ↔ 0 ≤ n) := by
  cases c with
  | none => exact iff_of_true trivial fun m n _ hn => by cases hn
  | some l =>
    cases g with
    | none => cases l <;> exact h.elim
    | some l' =>
      cases l with
      | primitive y =>
        cases l' with
        | primitive x =>
          constructor
          · intro htype m n hm hn
            have htype : y.type = x.type := htype
            cases hm
            cases hn
            exact (type_get_number_eq_iff m n).mp htype.symm
          · intro hsigns
            show y.type = x.type
            rcases h with rfl | ⟨m, n, -, -, rfl, rfl⟩
            · rfl
            · exact ((type_get_number_eq_iff m n).mpr (hsigns m n rfl rfl)).symm
        | array => exact h.elim
        | object => exact h.elim
      | array =>
        cases l' with
        | array => exact iff_of_true h fun m n hm => by cases hm
        | primitive => exact h.elim
        | object => exact h.elim
      | object =>
        cases l' with
        | object => exact iff_of_true trivial fun m n hm => by cases hm
        | primitive => exact h.elim
        | array => exact h.elim

/-- An instance with other integers fits when they have the signs of the old ones. -/
theorem Replaces.fits_iff (hc : c.WellFormed) (h : Replaces c g) : Fits c g ↔ SameSigns c g := by
  rw [fits_iff_labels hc]
  exact forall_congr' fun p => (h p).fits_iff

variable [DecidableEq F]

/-- **Integers.** An instance with other integers is laid over the base exactly when each has
the sign of the one that it replaces. -/
theorem integers_override_iff {g c : Document F} (h : Replaces c.1 g.1) :
    (∃ r, MatchandFill g.1 c.1 = .ok r ∧ Filled c.1 g.1 r) ↔ SameSigns c.1 g.1 := by
  rw [← h.fits_iff c.2]
  constructor
  · intro hex
    obtain ⟨r, hr, -⟩ := hex
    exact (MatchandFill_eq_ok_iff.mp hr).1
  · intro hfits
    obtain ⟨r, hr⟩ := exists_filled hfits
    exact ⟨r, MatchandFill_eq_ok_iff.mpr ⟨hfits, hr⟩, hr⟩

/-- A document with one integer. -/
def integer (n : Int) : Document Unit :=
  ⟨.object [("a", .primitive (get_number n))], .object (List.pairwise_singleton _ _) fun m hm => by
    rw [List.mem_singleton.mp hm]
    exact .primitive _⟩

theorem integer_replaces {m n : Int} (hm : Is64Bit m) (hn : Is64Bit n) :
    Replaces (integer n).1 (integer m).1 := by
  intro p
  cases p with
  | nil => trivial
  | cons s p =>
    rw [labelAt_cons, labelAt_cons]
    cases s with
    | index i => trivial
    | key k =>
      by_cases hk : "a" = k
      · simp only [integer, child, Members.find, if_pos hk, Option.bind_some]
        cases p with
        | nil => exact .inr ⟨m, n, hm, hn, rfl, rfl⟩
        | cons s p => cases s <;> trivial
      · simp only [integer, child, Members.find, if_neg hk, Option.bind_none]
        trivial

theorem override_one_by_two :
    (∃ r, MatchandFill (integer 1).1 (integer 2).1 = .ok r ∧
      Filled (integer 2).1 (integer 1).1 r) ↔ SameSigns (integer 2).1 (integer 1).1 :=
  integers_override_iff (integer_replaces ⟨by decide, by decide⟩ ⟨by decide, by decide⟩)

/-- `1` cannot be overridden by `-1`. -/
theorem negative_refused : ¬ ∀ g c : Document Unit, Replaces c.1 g.1 →
    ∃ r, MatchandFill g.1 c.1 = .ok r ∧ Filled c.1 g.1 r := by
  intro h
  have hreplaces := integer_replaces (m := 1) (n := -1) ⟨by decide, by decide⟩
    ⟨by decide, by decide⟩
  have hsigns := (integers_override_iff hreplaces).mp (h _ _ hreplaces)
  exact absurd ((hsigns [.key "a"] 1 (-1) rfl rfl).mp (by decide)) (by decide)

end Pfp.Core
