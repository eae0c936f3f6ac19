import Mathlib.Data.Nat.Digits.Defs

/-!
# Numbers as bytes

The number that a list of bytes stands for, the most significant byte first. Lists of one
length are determined by their numbers (`value_inj`), and the last `n` bytes of a list are
its number modulo `256 ^ n` (`value_drop`).
-/

namespace Lists

/-- The number of a list of bytes. -/
def value (b : List UInt8) : Nat := Nat.ofDigits 256 (b.reverse.map UInt8.toNat)

theorem toNat_lt {b : List UInt8} : ∀ d ∈ b.map UInt8.toNat, d < 256 := by
  intro d hd
  obtain ⟨x, -, rfl⟩ := List.mem_map.mp hd
  exact x.toNat_lt

theorem value_append (a b : List UInt8) :
    value (a ++ b) = value a * 256 ^ b.length + value b := by
  rw [value, List.reverse_append, List.map_append, Nat.ofDigits_append, List.length_map,
    List.length_reverse, Nat.mul_comm, Nat.add_comm]
  rfl

theorem value_lt (b : List UInt8) : value b < 256 ^ b.length := by
  have h := Nat.ofDigits_lt_base_pow_length (by decide) (toNat_lt (b := b.reverse))
  rwa [List.length_map, List.length_reverse] at h

theorem value_replicate (k : Nat) : value (List.replicate k 0) = 0 := by
  rw [value, List.reverse_replicate, List.map_replicate]
  exact Nat.ofDigits_replicate_zero

/-- Zeros in front do not matter. -/
theorem value_replicate_append (k : Nat) (b : List UInt8) :
    value (List.replicate k 0 ++ b) = value b := by
  rw [value_append, value_replicate, Nat.zero_mul, Nat.zero_add]

theorem value_inj {a b : List UInt8} (h : a.length = b.length) : value a = value b ↔ a = b := by
  constructor
  · intro hvalue
    have hmap := Nat.ofDigits_inj_of_len_eq (by decide) (by simp [h])
      (toNat_lt (b := a.reverse)) (toNat_lt (b := b.reverse)) hvalue
    exact List.reverse_inj.mp ((List.map_inj_right fun _ _ => UInt8.toNat_inj.mp).mp hmap)
  · intro hab
    rw [hab]

theorem value_eq_zero {b : List UInt8} : value b = 0 ↔ ∀ x ∈ b, x = 0 := by
  rw [← value_replicate b.length, value_inj (by simp), List.eq_replicate_iff]
  simp

/-- The last bytes. -/
theorem value_drop {b : List UInt8} {n : Nat} (h : n ≤ b.length) :
    value (b.drop (b.length - n)) = value b % 256 ^ n := by
  have hlength : (b.drop (b.length - n)).length = n := by
    rw [List.length_drop]
    omega
  have hlt := value_lt (b.drop (b.length - n))
  rw [hlength] at hlt
  have hsplit := value_append (b.take (b.length - n)) (b.drop (b.length - n))
  rw [List.take_append_drop, hlength] at hsplit
  rw [hsplit, Nat.mul_add_mod_self_right, Nat.mod_eq_of_lt hlt]

end Lists
