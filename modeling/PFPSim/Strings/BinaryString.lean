import Mathlib.Data.Nat.Bitwise
import Mathlib.Data.List.Basic

/-!
# A prefix as a string of bits

`to_binary_string` goes over the bits of a buffer with a mask of one bit, the highest first.
The mask becomes zero after the lowest bit of a byte, and only the body after that, which
reads no bit at all, goes on to the next byte. So the first bit of every byte but the first
is shown as `0` (`to_binary_string_eq`), and every bit is right exactly if these are all
clear (`to_binary_string_renders_iff`).
-/

namespace Pfp.Core

/-- The variables of the loop. -/
structure BinaryLoop where
  output : List Char
  byte_index : Nat
  bit_index : Nat
  mask : UInt8

/-- The body and the header of the loop, on a buffer that has a byte at the index. -/
def BinaryLoop.step (prefix_ : List UInt8) (s : BinaryLoop) : Option BinaryLoop :=
  (prefix_[s.byte_index]?).map fun byte =>
    let output := s.output.set s.bit_index (if byte &&& s.mask ≠ 0 then '1' else '0')
    let (mask, byte_index) :=
      if s.mask = 0 then ((128 : UInt8), s.byte_index + 1) else (s.mask, s.byte_index)
    ⟨output, byte_index, s.bit_index + 1, mask >>> 1⟩

/-- The loop, as often as the header lets it: from `bit_index` up to the width. -/
def BinaryLoop.run (prefix_ : List UInt8) : Nat → BinaryLoop → Option BinaryLoop
  | 0, s => some s
  | n + 1, s => (s.step prefix_).bind (run prefix_ n)

/-- `none` where it reads beyond the buffer. -/
def to_binary_string (prefix_ : List UInt8) (width : Nat) : Option (List Char) :=
  (BinaryLoop.run prefix_ width ⟨List.replicate width '0', 0, 0, 128⟩).map (·.output)

/-! ## What is shown -/

/-- The bit at a position of a buffer, from the highest of the first byte on. -/
def Bit (prefix_ : List UInt8) (i : Nat) : Prop :=
  ∃ byte, prefix_[i / 8]? = some byte ∧ byte.toNat.testBit (7 - i % 8) = true

instance (prefix_ : List UInt8) (i : Nat) : Decidable (Bit prefix_ i) :=
  decidable_of_iff ((prefix_[i / 8]?).any fun byte => byte.toNat.testBit (7 - i % 8)) (by
    cases h : prefix_[i / 8]? <;> simp [Bit, h])

/-- The character at a position. The first bit of a later byte is never read. -/
def shown (prefix_ : List UInt8) (i : Nat) : Char :=
  if i % 8 = 0 ∧ 0 < i then '0' else if Bit prefix_ i then '1' else '0'

/-- The mask at a position. -/
def maskAt (i : Nat) : UInt8 :=
  if i % 8 = 0 ∧ 0 < i then 0 else UInt8.ofNat (2 ^ (7 - i % 8))

/-- The variables at a position. -/
def BinaryLoop.at_ (prefix_ : List UInt8) (width i : Nat) : BinaryLoop where
  output := (List.range i).map (shown prefix_) ++ List.replicate (width - i) '0'
  byte_index := (i - 1) / 8
  bit_index := i
  mask := maskAt i

variable {prefix_ : List UInt8} {width i : Nat}

theorem maskAt_zero (h : i % 8 = 0) (hi : 0 < i) : maskAt i = 0 :=
  if_pos ⟨h, hi⟩

theorem maskAt_power (h : ¬ (i % 8 = 0 ∧ 0 < i)) : maskAt i = UInt8.ofNat (2 ^ (7 - i % 8)) :=
  if_neg h

theorem toNat_power (r : Nat) : (UInt8.ofNat (2 ^ (7 - r))).toNat = 2 ^ (7 - r) := by
  have hle : 2 ^ (7 - r) ≤ 2 ^ 7 := Nat.pow_le_pow_right (by omega) (by omega)
  rw [UInt8.toNat_ofNat']
  exact Nat.mod_eq_of_lt (by omega)

theorem and_power (byte : UInt8) (r : Nat) : byte &&& UInt8.ofNat (2 ^ (7 - r)) ≠ 0 ↔
    byte.toNat.testBit (7 - r) = true := by
  rw [Ne, ← UInt8.toNat_inj, UInt8.toNat_and, toNat_power, Nat.and_two_pow]
  cases byte.toNat.testBit (7 - r) with
  | false => simp
  | true => simp

/-- The mask is shifted past the end of a byte to zero, and set again after that. -/
theorem maskAt_succ (i : Nat) :
    maskAt (i + 1) = (if maskAt i = 0 then 128 else maskAt i) >>> 1 := by
  have hpower : ∀ r < 8, UInt8.ofNat (2 ^ (7 - r)) ≠ 0 ∧ UInt8.ofNat (2 ^ (7 - r)) >>> 1 =
      if r = 7 then 0 else UInt8.ofNat (2 ^ (7 - (r + 1))) := by decide
  by_cases hzero : i % 8 = 0 ∧ 0 < i
  · rw [maskAt_zero hzero.1 hzero.2, if_pos rfl, maskAt_power (by omega),
      show (i + 1) % 8 = 1 by omega]
    rfl
  · obtain ⟨hne, hshift⟩ := hpower (i % 8) (by omega)
    rw [maskAt_power hzero, if_neg hne, hshift]
    split
    · exact maskAt_zero (by omega) (by omega)
    · rw [maskAt_power (by omega), show (i + 1) % 8 = i % 8 + 1 by omega]

theorem shown_eq {byte : UInt8} (hbyte : prefix_[(i - 1) / 8]? = some byte) :
    (if byte &&& maskAt i ≠ 0 then '1' else '0') = shown prefix_ i := by
  by_cases hzero : i % 8 = 0 ∧ 0 < i
  · rw [maskAt_zero hzero.1 hzero.2, shown, if_pos hzero]
    simp
  · -- the index of the byte is right for the other positions
    have hindex : (i - 1) / 8 = i / 8 := by omega
    rw [hindex] at hbyte
    have hbit : Bit prefix_ i ↔ byte.toNat.testBit (7 - i % 8) = true := by
      simp [Bit, hbyte]
    rw [maskAt_power hzero, shown, if_neg hzero]
    simp only [and_power, hbit]

theorem BinaryLoop.output_at (hi : i < width) :
    (at_ prefix_ width i).output.set i (shown prefix_ i) =
      (at_ prefix_ width (i + 1)).output := by
  simp only [at_]
  rw [show width - i = width - (i + 1) + 1 by omega, List.replicate_succ,
    List.set_append_right _ _ (by simp), List.range_succ, List.map_append]
  simp

theorem maskAt_eq_zero : maskAt i = 0 ↔ i % 8 = 0 ∧ 0 < i := by
  constructor
  · intro hmask
    by_contra hzero
    have hpower := toNat_power (i % 8)
    rw [← maskAt_power hzero, hmask] at hpower
    exact (Nat.two_pow_pos (7 - i % 8)).ne hpower
  · intro h
    exact maskAt_zero h.1 h.2

/-- The index of the byte moves on behind the mask. -/
theorem byte_index_succ (i : Nat) :
    (if maskAt i = 0 then (i - 1) / 8 + 1 else (i - 1) / 8) = i / 8 := by
  have hzero := maskAt_eq_zero (i := i)
  split
  next hmask =>
    have hi := hzero.mp hmask
    omega
  next hmask =>
    have hi := mt hzero.mpr hmask
    omega

theorem BinaryLoop.step_some {s : BinaryLoop} {byte : UInt8}
    (hbyte : prefix_[s.byte_index]? = some byte) : s.step prefix_ =
      some ⟨s.output.set s.bit_index (if byte &&& s.mask ≠ 0 then '1' else '0'),
        if s.mask = 0 then s.byte_index + 1 else s.byte_index, s.bit_index + 1,
        (if s.mask = 0 then 128 else s.mask) >>> 1⟩ := by
  rw [step, hbyte, Option.map_some]
  by_cases hmask : s.mask = 0
  · simp only [if_pos hmask]
  · simp only [if_neg hmask]

theorem BinaryLoop.step_at (h : width ≤ 8 * prefix_.length) (hi : i < width) :
    (at_ prefix_ width i).step prefix_ = some (at_ prefix_ width (i + 1)) := by
  have hlt : (i - 1) / 8 < prefix_.length := by omega
  have hbyte := List.getElem?_eq_getElem hlt
  rw [step_some hbyte, Option.some.injEq]
  change BinaryLoop.mk ((at_ prefix_ width i).output.set i
      (if prefix_[(i - 1) / 8] &&& maskAt i ≠ 0 then '1' else '0'))
    (if maskAt i = 0 then (i - 1) / 8 + 1 else (i - 1) / 8) (i + 1)
    ((if maskAt i = 0 then 128 else maskAt i) >>> 1) = _
  rw [shown_eq hbyte, output_at hi, byte_index_succ, ← maskAt_succ]
  rfl

/-- The rest of the loop, from any position. -/
theorem BinaryLoop.run_at (h : width ≤ 8 * prefix_.length) :
    ∀ n i, i + n = width → run prefix_ n (at_ prefix_ width i) = some (at_ prefix_ width width) := by
  intro n
  induction n with
  | zero =>
    intro i hi
    rw [run, ← hi, Nat.add_zero]
  | succ n ih =>
    intro i hi
    rw [run, step_at h (by omega), Option.bind_some]
    exact ih (i + 1) (by omega)

/-- The string of a buffer, bit for bit. -/
theorem to_binary_string_eq (h : width ≤ 8 * prefix_.length) :
    to_binary_string prefix_ width = some ((List.range width).map (shown prefix_)) := by
  have hrun := BinaryLoop.run_at h width 0 (Nat.zero_add width)
  have hstart : BinaryLoop.at_ prefix_ width 0 = ⟨List.replicate width '0', 0, 0, 128⟩ := rfl
  rw [to_binary_string, ← hstart, hrun]
  simp [BinaryLoop.at_]

/-! ## The bits that are right -/

/-- Every bit is rendered, with the characters as many as the bits, from the bytes that hold
the bits alone. -/
structure Renders (prefix_ : List UInt8) (width : Nat) (output : List Char) : Prop where
  result : to_binary_string prefix_ width = some output
  reads : to_binary_string (prefix_.take ((width + 7) / 8)) width = some output
  length : output.length = width
  bits : ∀ i, i < width → (output[i]? = some '1' ↔ Bit prefix_ i)

theorem bit_take (hi : i < width) :
    Bit (prefix_.take ((width + 7) / 8)) i ↔ Bit prefix_ i := by
  rw [Bit, Bit, List.getElem?_take_of_lt (by omega)]

theorem shown_take (hi : i < width) :
    shown (prefix_.take ((width + 7) / 8)) i = shown prefix_ i := by
  simp only [shown, bit_take hi]

theorem shown_eq_one : shown prefix_ i = '1' ↔ ¬ (i % 8 = 0 ∧ 0 < i) ∧ Bit prefix_ i := by
  unfold shown
  split
  · simp_all
  · split
    · simp_all
    · simp_all

/-- The buffer is rendered exactly if the first bit of each byte after the first one is
clear, as far as the width goes. -/
theorem to_binary_string_renders_iff (h : width ≤ 8 * prefix_.length) :
    (∃ output, Renders prefix_ width output) ↔
      ∀ k byte, 0 < k → 8 * k < width → prefix_[k]? = some byte →
        byte.toNat.testBit 7 = false := by
  have heq := to_binary_string_eq h
  have hget : ∀ i, i < width →
      ((List.range width).map (shown prefix_))[i]? = some (shown prefix_ i) := by
    intro i hi
    rw [List.getElem?_map, List.getElem?_range hi, Option.map_some]
  constructor
  · rintro ⟨output, hresult, -, -, hbits⟩ k byte hk hwidth hbyte
    rw [heq, Option.some.injEq] at hresult
    have hbit := hbits (8 * k) hwidth
    rw [← hresult, hget _ hwidth, Option.some.injEq, shown_eq_one] at hbit
    by_contra htest
    have hset : Bit prefix_ (8 * k) := by
      refine ⟨byte, ?_, ?_⟩
      · rw [Nat.mul_div_cancel_left k (by omega)]
        exact hbyte
      · rw [Nat.mul_mod_right]
        simpa using htest
    exact (hbit.mpr hset).1 ⟨Nat.mul_mod_right 8 k, by omega⟩
  · intro hclear
    refine ⟨_, heq, ?_, by simp, ?_⟩
    · rw [to_binary_string_eq (by rw [List.length_take]; omega), Option.some.injEq]
      apply List.map_congr_left
      intro i hi
      exact shown_take (List.mem_range.mp hi)
    · intro i hi
      rw [hget i hi, Option.some.injEq, shown_eq_one, and_iff_right_iff_imp]
      rintro ⟨byte, hbyte, htest⟩ ⟨hzero, hpos⟩
      rw [hzero] at htest
      have hfalse := hclear (i / 8) byte (by omega) (by omega) hbyte
      rw [hfalse] at htest
      exact Bool.noConfusion htest

/-- Two bytes, the second small. -/
theorem renders_two_bytes : to_binary_string [255, 127] 16 =
      some ("1111111101111111".toList) ∧ ∃ output, Renders [255, 127] 16 output := by
  refine ⟨by decide +kernel, (to_binary_string_renders_iff (by decide)).mpr ?_⟩
  intro k byte hk hwidth hbyte
  obtain rfl : k = 1 := by omega
  cases hbyte
  rfl

/-- The highest bit of the second byte is lost. -/
theorem high_bit_lost : to_binary_string [0, 128] 9 = some ("000000000".toList) ∧
    ¬ ∃ output, Renders [0, 128] 9 output := by
  refine ⟨by decide +kernel, ?_⟩
  rintro ⟨output, hresult, -, -, hbits⟩
  have hshown : to_binary_string [0, 128] 9 = some ("000000000".toList) := by decide +kernel
  rw [hshown, Option.some.injEq] at hresult
  have hbit := hbits 8 (by omega)
  rw [← hresult] at hbit
  exact absurd (hbit.mpr ⟨128, rfl, by decide⟩) (by decide)

end Pfp.Core
