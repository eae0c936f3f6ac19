import PFPSim.Lists.BigEndian
import PFPSim.Cp.RoundTrip

/-!
# Resizing a literal

What the action of a resized literal does to the number it stands for, and which indices
its calls of `std::copy` and `std::fill` touch. Growing copies the bytes to the end of the
new vector and one byte behind it, and then clears one byte more than there were before
(`resize_grown`). Shrinking is right as long as the difference of the sizes is an `int`.
-/

namespace Pfp.Cp

open Lists

/-! ## The offset -/

/-- The absolute value of a difference of sizes, in 32 bits. -/
def offset (d : Nat) : Int := int32 (int32 d).natAbs

theorem delta_eq_offset {size n : Nat} (h : n ≤ size) : delta size n = offset (size - n) := by
  simp only [delta, offset, int32, Int.bmod_sub_bmod, Int.sub_bmod_bmod, ← Int.ofNat_sub h]

theorem delta_grown {size n : Nat} (h : size < n) (hn : n - size < 2 ^ 31) :
    delta size n = (n - size : Nat) := by
  have hsub : int32 (int32 size - int32 n) = -(n - size : Nat) := by
    simp only [int32, Int.bmod_sub_bmod, Int.sub_bmod_bmod]
    rw [show (size : Int) - n = -(n - size : Nat) by omega]
    exact Int.bmod_eq_of_le (by omega) (by omega)
  rw [delta, hsub, Int.natAbs_neg, Int.natAbs_natCast, int32]
  exact Int.bmod_eq_of_le (by omega) (by omega)

/-! ## Growing -/

theorem length_vectorResize {b : Bytes} {n : Nat} (h : b.length ≤ n) :
    (vectorResize b n).length = n := by
  rw [vectorResize, List.take_of_length_le h, List.length_append, List.length_replicate]
  omega

/-- A grown vector has zeros behind its bytes. -/
theorem getD_vectorResize {b : Bytes} {n : Nat} (h : b.length ≤ n) (i : Nat) :
    (vectorResize b n).getD i 0 = b.getD i 0 := by
  rw [vectorResize, List.take_of_length_le h, List.getD_eq_getElem?_getD,
    List.getD_eq_getElem?_getD, List.getElem?_append]
  split
  · rfl
  · rename_i hi
    rw [List.getElem?_replicate, List.getElem?_eq_none (by omega)]
    split <;> rfl

/-- The bytes behind the copy to the offset `d` and the clearing of `k` bytes. -/
theorem getElem_moved {v : Bytes} {d k : Nat} {i : Nat}
    (hi : i < (stdFill (stdCopy v 0 k d) 0 k 0).length) :
    (stdFill (stdCopy v 0 k d) 0 k 0)[i] =
      if i < k then 0 else if d ≤ i ∧ i < d + k then v.getD (i - d) 0 else v.getD i 0 := by
  have hlength : i < v.length := by
    rwa [stdFill, List.length_mapIdx, length_stdCopy] at hi
  have hfill : (0 : Int) ≤ i ∧ (i : Int) < k ↔ i < k := by omega
  have hcopy : (d : Int) ≤ i ∧ (i : Int) < d + (k - 0) ↔ d ≤ i ∧ i < d + k := by omega
  simp only [stdFill, stdCopy, List.getElem_mapIdx, hfill, hcopy]
  split
  · rfl
  · split
    · rename_i hrange
      rw [Int.zero_add, ← Int.ofNat_sub hrange.1, byteAt_natCast]
    · rw [List.getD_eq_getElem _ _ hlength]

/-- Growing puts zeros in front, and clears the bytes that the cleared range has in common
with the copy. -/
theorem resize_grown {b : Bytes} {n : Nat} (h : b.length < n) (hn : n < 2 ^ 31) :
    resize b n = .ok (List.replicate (n - b.length + (2 * b.length + 1 - n)) 0 ++
      b.drop (2 * b.length + 1 - n)) := by
  have hmax : ¬ n > maxSize := by
    rw [maxSize]
    omega
  have hlast : (n : Int) + 1 - (n - b.length : Nat) = (b.length + 1 : Nat) := by omega
  simp only [resize, if_neg (show ¬ n < b.length by omega), if_pos h, if_neg hmax,
    delta_grown h (by omega), hlast, Except.ok.injEq]
  have hlength := length_vectorResize (b := b) h.le
  apply List.ext_getElem
  · simp only [stdFill, List.length_mapIdx, length_stdCopy, hlength, List.length_append,
      List.length_replicate, List.length_drop]
    omega
  · intro i h₁ h₂
    have hi : i < n := by
      rwa [stdFill, List.length_mapIdx, length_stdCopy, hlength] at h₁
    rw [getElem_moved, getD_vectorResize h.le, getD_vectorResize h.le, List.getElem_append]
    simp only [List.length_replicate, List.getElem_replicate, List.getElem_drop]
    by_cases hzero : i < n - b.length + (2 * b.length + 1 - n)
    · rw [dif_pos hzero]
      split
      · rfl
      · rename_i hclear
        rw [if_neg (by omega), List.getD_eq_default _ _ (by omega)]
    · rw [dif_neg hzero, if_neg (by omega), if_pos (by omega), List.getD_eq_getElem _ _ (by omega)]
      congr 1
      omega

/-! ## The value of a resized literal -/

/-- The bytes that resizing moves or clears hold nothing that matters: shrinking finds the
last `n` bytes at its offset, growing clears only zeros. -/
def KeepsValue (b : Bytes) (n : Nat) : Prop :=
  if n ≤ b.length then
    b.length - n < 2 ^ 31 ∨
      ∀ i : Nat, i < n →
        byteAt b (offset (b.length - n) + i) = byteAt b ((b.length - n : Nat) + i)
  else
    ∀ x ∈ b.take (2 * b.length + 1 - n), x = 0

theorem keepsValue_iff_kept {b : Bytes} {n : Nat} (h : n ≤ b.length) :
    KeepsValue b n ↔ Kept b n := by
  rw [KeepsValue, if_pos h, Kept, delta_eq_offset h]

/-- Shrinking, the only bytes of the right length and value are the last ones. -/
theorem shrinks_iff {b : Bytes} {n : Nat} (h : n ≤ b.length) :
    (∃ r, resize b n = .ok r ∧ r.length = n ∧ value r = value b % 256 ^ n) ↔
      resize b n = .ok (b.drop (b.length - n)) := by
  have hlength : (b.drop (b.length - n)).length = n := by
    rw [List.length_drop]
    omega
  constructor
  · intro hr
    obtain ⟨r, hresize, hn, hvalue⟩ := hr
    rw [← value_drop h] at hvalue
    rw [hresize, (value_inj (hn.trans hlength.symm)).mp hvalue]
  · intro hresize
    exact ⟨_, hresize, hlength, value_drop h⟩

theorem value_mod_of_lt {b : Bytes} {n : Nat} (h : b.length < n) :
    value b % 256 ^ n = value b := by
  apply Nat.mod_eq_of_lt
  calc value b < 256 ^ b.length := value_lt b
    _ ≤ 256 ^ n := Nat.pow_le_pow_right (by decide) h.le

/-- Without the first `k` bytes the number is the same when they are zeros. -/
theorem value_drop_eq_iff (b : Bytes) (k : Nat) :
    value (b.drop k) = value b ↔ ∀ x ∈ b.take k, x = 0 := by
  have hsplit := value_append (b.take k) (b.drop k)
  rw [List.take_append_drop] at hsplit
  have hpos : 0 < 256 ^ (b.drop k).length := Nat.pow_pos (by decide)
  rw [hsplit, ← value_eq_zero]
  constructor
  · intro h
    have hzero : value (b.take k) * 256 ^ (b.drop k).length = 0 := by omega
    exact (Nat.mul_eq_zero.mp hzero).resolve_right hpos.ne'
  · intro h
    rw [h, Nat.zero_mul, Nat.zero_add]

theorem grows_iff {b : Bytes} {n : Nat} (h : b.length < n) (hn : n < 2 ^ 31) :
    (∃ r, resize b n = .ok r ∧ r.length = n ∧ value r = value b % 256 ^ n) ↔
      ∀ x ∈ b.take (2 * b.length + 1 - n), x = 0 := by
  rw [resize_grown h hn, value_mod_of_lt h, ← value_drop_eq_iff]
  constructor
  · intro hr
    obtain ⟨r, hresize, -, hvalue⟩ := hr
    rwa [← Except.ok.inj hresize, value_replicate_append] at hvalue
  · intro hvalue
    refine ⟨_, rfl, ?_, ?_⟩
    · rw [List.length_append, List.length_replicate, List.length_drop]
      omega
    · rw [value_replicate_append, hvalue]

/-- A resized literal has the asked length and its value modulo `256 ^ n` exactly when no
byte that matters is moved wrongly or cleared. -/
theorem resize_value_iff (b : Bytes) {n : Nat} (hn : n < 2 ^ 31) :
    (∃ r, resize b n = .ok r ∧ r.length = n ∧ value r = value b % 256 ^ n) ↔
      KeepsValue b n := by
  rcases Nat.lt_or_ge b.length n with hlt | hle
  · rw [grows_iff hlt hn, KeepsValue, if_neg (Nat.not_le_of_lt hlt)]
  · rw [shrinks_iff hle, resize_eq_drop_iff hle, keepsValue_iff_kept hle]

theorem resize_value_one_in_sixteen :
    (∃ r, resize [0, 0, 0, 0, 0, 0, 0, 1] 16 = .ok r ∧ r.length = 16 ∧
        value r = value [0, 0, 0, 0, 0, 0, 0, 1] % 256 ^ 16) ↔
      KeepsValue [0, 0, 0, 0, 0, 0, 0, 1] 16 :=
  resize_value_iff [0, 0, 0, 0, 0, 0, 0, 1] (by decide)

/-- `1'9` is `0`. -/
theorem one_in_nine_lost :
    ¬ ∀ (b : Bytes) (n : Nat), n < 2 ^ 31 →
      ∃ r, resize b n = .ok r ∧ r.length = n ∧ value r = value b % 256 ^ n := by
  intro h
  obtain ⟨r, hr, -, hvalue⟩ := h [0, 0, 0, 0, 0, 0, 0, 1] 9 (by decide)
  have hzeros : resize [0, 0, 0, 0, 0, 0, 0, 1] 9 = .ok [0, 0, 0, 0, 0, 0, 0, 0, 0] := by decide
  rw [hzeros, Except.ok.injEq] at hr
  subst hr
  exact absurd hvalue (by decide +kernel)

/-! ## The indices that are touched -/

/-- The indices from `first` up to `last`, in a vector of `size` bytes. -/
structure Touch where
  first : Int
  last : Int
  size : Nat

def Touch.Inside (t : Touch) : Prop := ∀ i, t.first ≤ i → i < t.last → 0 ≤ i ∧ i < t.size

/-- `stdCopy`, with the indices read and written. -/
def copying (v : Bytes) (first last dest : Int) : Bytes × List Touch :=
  (stdCopy v first last dest,
    [⟨first, last, v.length⟩, ⟨dest, dest + (last - first), v.length⟩])

/-- `stdFill`, with the indices written. -/
def filling (v : Bytes) (first last : Int) (x : UInt8) : Bytes × List Touch :=
  (stdFill v first last x, [⟨first, last, v.length⟩])

/-- `resize`, with the indices that its calls touch. -/
def resizing (bytes : Bytes) (newsize : Nat) : Except Exception (Bytes × List Touch) :=
  let δ := delta bytes.length newsize
  if newsize < bytes.length then
    let copied := copying bytes δ bytes.length 0
    .ok (vectorResize copied.1 newsize, copied.2)
  else if newsize > bytes.length then
    if newsize > maxSize then .error .length_error
    else
      let grown := copying (vectorResize bytes newsize) 0 (newsize + 1 - δ) δ
      let filled := filling grown.1 0 (newsize + 1 - δ) 0
      .ok (filled.1, grown.2 ++ filled.2)
  else
    .ok (bytes, [])

theorem resizing_fst (b : Bytes) (n : Nat) : (resizing b n).map Prod.fst = resize b n := by
  rw [resizing, resize]
  split
  · rfl
  · split
    · split
      · rfl
      · rfl
    · rfl

/-- The indices that resizing touches are all inside the vector. -/
def TouchesInside (b : Bytes) (n : Nat) : Prop :=
  ∃ r ts, resizing b n = .ok (r, ts) ∧ ∀ t ∈ ts, t.Inside

theorem touchesInside_iff {b : Bytes} {n : Nat} {r : Bytes} {ts : List Touch}
    (h : resizing b n = .ok (r, ts)) : TouchesInside b n ↔ ∀ t ∈ ts, t.Inside := by
  constructor
  · intro hin
    obtain ⟨r', ts', h', hts⟩ := hin
    rw [h, Except.ok.injEq, Prod.mk.injEq] at h'
    rwa [h'.2]
  · intro hts
    exact ⟨r, ts, h, hts⟩

/-- A shrinking literal stays inside when its offset is not negative. -/
theorem shrinking_inside_iff {b : Bytes} {n : Nat} (h : n < b.length) :
    TouchesInside b n ↔ 0 ≤ delta b.length n := by
  have hle : delta b.length n ≤ (b.length - n : Nat) := delta_le h.le
  have hresizing : resizing b n = .ok (vectorResize (stdCopy b (delta b.length n) b.length 0) n,
      [⟨delta b.length n, b.length, b.length⟩,
        ⟨0, 0 + (b.length - delta b.length n), b.length⟩]) := by
    rw [resizing]
    exact if_pos h
  rw [touchesInside_iff hresizing]
  generalize delta b.length n = δ at hle ⊢
  constructor
  · intro hin
    by_contra hneg
    have hlt : δ < b.length := by omega
    exact hneg (hin _ (List.mem_cons_self ..) δ le_rfl hlt).1
  · intro hδ t ht i hfirst hlast
    rcases List.mem_cons.mp ht with ht | ht
    · subst ht
      exact ⟨hδ.trans hfirst, hlast⟩
    · obtain rfl := List.mem_singleton.mp ht
      have hwrite : i < 0 + (b.length - δ) := hlast
      exact ⟨hfirst, show i < (b.length : Int) by omega⟩

/-- A growing literal writes one byte behind the vector. -/
theorem growing_outside {b : Bytes} {n : Nat} (h : b.length < n) (hn : n < 2 ^ 31) :
    ¬ TouchesInside b n := by
  have hmax : ¬ n > maxSize := by
    rw [maxSize]
    omega
  have hresizing : ∃ r, resizing b n = .ok (r, [⟨0, n + 1 - delta b.length n, n⟩,
      ⟨delta b.length n, delta b.length n + (n + 1 - delta b.length n - 0), n⟩,
      ⟨0, n + 1 - delta b.length n, n⟩]) := by
    refine ⟨stdFill (stdCopy (vectorResize b n) 0 (n + 1 - delta b.length n) (delta b.length n))
      0 (n + 1 - delta b.length n) 0, ?_⟩
    simp only [resizing, if_neg (show ¬ n < b.length by omega), if_pos h, if_neg hmax, copying,
      filling, length_stdCopy, length_vectorResize h.le, List.cons_append, List.nil_append]
  obtain ⟨r, hresizing⟩ := hresizing
  rw [touchesInside_iff hresizing, delta_grown h (by omega)]
  intro hin
  have hwrite := hin _ (List.mem_cons_of_mem _ (List.mem_cons_self ..))
  have hindex := hwrite n (by simp only; omega) (by simp only; omega)
  exact absurd hindex.2 (by simp only; omega)

/-- The offset is negative only as the absolute value of the least `int`. -/
theorem offset_nonneg_iff (d : Nat) : 0 ≤ offset d ↔ d % 2 ^ 32 ≠ 2 ^ 31 := by
  have hlt := Int.bmod_lt (x := (d : Int)) (m := 2 ^ 32) (by decide)
  have hle := Int.le_bmod (x := (d : Int)) (m := 2 ^ 32) (by decide)
  have hleast : (d : Int).bmod (2 ^ 32) = -2 ^ 31 ↔ d % 2 ^ 32 = 2 ^ 31 := by
    rw [Int.bmod_def]
    split
    · omega
    · omega
  rw [← not_iff_not, not_not, ← hleast, offset, int32, int32]
  by_cases hmin : (d : Int).bmod (2 ^ 32) = -2 ^ 31
  · rw [hmin]
    exact ⟨fun _ => rfl, fun _ => by decide⟩
  · rw [Int.bmod_eq_of_le (by omega) (by omega)]
    omega

/-- A resize touches only bytes of the vector exactly when it does not grow it and the
difference of the sizes is not the `int` without an absolute value. -/
theorem touchesInside_iff_shrinks (b : Bytes) {n : Nat} (hn : n < 2 ^ 31) :
    TouchesInside b n ↔ n ≤ b.length ∧ (b.length - n) % 2 ^ 32 ≠ 2 ^ 31 := by
  rcases Nat.lt_trichotomy b.length n with hlt | heq | hgt
  · have hout := growing_outside hlt hn
    have hle : ¬ n ≤ b.length := Nat.not_le_of_lt hlt
    tauto
  · have hresizing : resizing b n = .ok (b, []) := by
      rw [resizing, if_neg (by omega), if_neg (by omega)]
    rw [touchesInside_iff hresizing]
    refine ⟨fun _ => ⟨heq.ge, ?_⟩, fun _ t ht => absurd ht List.not_mem_nil⟩
    rw [heq, Nat.sub_self]
    decide
  · rw [shrinking_inside_iff hgt, delta_eq_offset hgt.le, offset_nonneg_iff]
    exact ⟨fun h => ⟨hgt.le, h⟩, fun h => h.2⟩

theorem touchesInside_one_in_two :
    TouchesInside [0, 0, 0, 0, 0, 0, 0, 1] 2 ↔
      2 ≤ [0, 0, 0, 0, 0, 0, 0, (1 : UInt8)].length ∧
        ([0, 0, 0, 0, 0, 0, 0, (1 : UInt8)].length - 2) % 2 ^ 32 ≠ 2 ^ 31 :=
  touchesInside_iff_shrinks [0, 0, 0, 0, 0, 0, 0, 1] (by decide)

/-- `1'9` writes the byte with the index 9. -/
theorem one_in_nine_outside :
    ¬ ∀ (b : Bytes) (n : Nat), n < 2 ^ 31 → TouchesInside b n := by
  intro h
  exact growing_outside (by decide) (by decide) (h [0, 0, 0, 0, 0, 0, 0, 1] 9 (by decide))

end Pfp.Cp
