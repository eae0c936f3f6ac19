import PFPSim.Cp.Parser
import PFPSim.Cp.Render

/-!
# Parsing a rendered command

`parse_line` gives the command of a line back, with the chunks as `ChunkText.read` reads
them: a size goes through `resize`, whose offset is computed in `int`. The offset is right
up to `2 ^ 31` dropped bytes (`delta_eq`), and the command is the rendered one exactly when
every longer chunk happens to have the same bytes at the offset taken (`Kept`).
-/

namespace Pfp.Cp

/-! ## Resizing downwards -/

theorem delta_eq {size n : Nat} (h : n ≤ size) (hlt : size - n < 2 ^ 31) :
    delta size n = (size - n : Nat) := by
  have hsub : int32 (int32 size - int32 n) = (size - n : Nat) := by
    simp only [int32, Int.bmod_sub_bmod, Int.sub_bmod_bmod, ← Int.ofNat_sub h]
    exact Int.bmod_eq_of_le (by omega) (by omega)
  rw [delta, hsub, Int.natAbs_natCast, int32]
  exact Int.bmod_eq_of_le (by omega) (by omega)

theorem delta_lt (size n : Nat) : delta size n < 2 ^ 31 := by
  have h := Int.bmod_lt (x := (int32 (int32 size - int32 n)).natAbs) (m := 2 ^ 32) (by decide)
  rw [delta, int32]
  omega

theorem delta_le {size n : Nat} (h : n ≤ size) : delta size n ≤ (size - n : Nat) := by
  rcases lt_or_ge (size - n) (2 ^ 31) with hlt | hge
  · exact (delta_eq h hlt).le
  · have := delta_lt size n
    omega

theorem byteAt_natCast (v : Bytes) (i : Nat) : byteAt v i = v.getD i 0 := by
  simp [byteAt]

theorem drop_eq (v : Bytes) {n : Nat} (h : n ≤ v.length) :
    v.drop (v.length - n) =
      (List.range n).map fun i : Nat => byteAt v ((v.length - n : Nat) + i) := by
  apply List.ext_getElem (by simp; omega)
  intro i h₁ h₂
  simp only [List.length_map, List.length_range] at h₂
  rw [List.getElem_drop, List.getElem_map, List.getElem_range, ← Nat.cast_add,
    byteAt_natCast, List.getD_eq_getElem _ _ (by omega)]

theorem length_stdCopy (v : Bytes) (first last dest : Int) :
    (stdCopy v first last dest).length = v.length := by
  rw [stdCopy, List.length_mapIdx]

theorem getElem_stdCopy {v : Bytes} {δ : Int} {i n : Nat} (h : i < n) (hn : n ≤ v.length)
    (hδ : δ ≤ (v.length - n : Nat)) (hi : i < (stdCopy v δ v.length 0).length) :
    (stdCopy v δ v.length 0)[i] = byteAt v (δ + i) := by
  have hrange : (0 : Int) ≤ i ∧ (i : Int) < 0 + (v.length - δ) := by omega
  simp only [stdCopy, List.getElem_mapIdx]
  rw [if_pos hrange, Int.sub_zero]

theorem take_stdCopy {v : Bytes} {δ : Int} {n : Nat} (h : n ≤ v.length)
    (hδ : δ ≤ (v.length - n : Nat)) : (stdCopy v δ v.length 0).take n =
      (List.range n).map fun i : Nat => byteAt v (δ + i) := by
  apply List.ext_getElem (by simp [length_stdCopy, h])
  intro i h₁ h₂
  have hi : i < n := by simpa using h₂
  rw [List.getElem_take, List.getElem_map, List.getElem_range, getElem_stdCopy hi h hδ]

/-- Downwards, the bytes from the offset on. -/
theorem resize_eq (v : Bytes) {n : Nat} (h : n ≤ v.length) :
    resize v n = .ok ((List.range n).map fun i : Nat => byteAt v (delta v.length n + i)) := by
  rcases Nat.lt_or_eq_of_le h with hlt | rfl
  · have hpad : n - (stdCopy v (delta v.length n) v.length 0).length = 0 := by
      rw [length_stdCopy, Nat.sub_eq_zero_of_le h]
    simp only [resize, if_pos hlt, vectorResize, hpad, List.replicate_zero, List.append_nil,
      take_stdCopy h (delta_le h)]
  · have hdrop := drop_eq v le_rfl
    have hdelta : delta v.length v.length = (v.length - v.length : Nat) :=
      delta_eq le_rfl (by rw [Nat.sub_self]; exact Nat.two_pow_pos 31)
    rw [hdelta, ← hdrop, Nat.sub_self, List.drop_zero, resize, if_neg (Nat.lt_irrefl _),
      if_neg (Nat.lt_irrefl _)]

/-- The bytes that the offset of a resize selects are the last ones. -/
def Kept (v : Bytes) (n : Nat) : Prop :=
  v.length - n < 2 ^ 31 ∨
    ∀ i : Nat, i < n → byteAt v (delta v.length n + i) = byteAt v ((v.length - n : Nat) + i)

theorem resize_eq_drop_iff {v : Bytes} {n : Nat} (h : n ≤ v.length) :
    resize v n = .ok (v.drop (v.length - n)) ↔ Kept v n := by
  rw [resize_eq v h, drop_eq v h, Except.ok.injEq, List.map_inj_left]
  simp only [List.mem_range, Kept]
  refine ⟨.inr, fun hk => hk.elim (fun hlt i _ => by rw [delta_eq h hlt]) id⟩

/-! ## Reading a chunk -/

/-- The bytes of a chunk as the actions of the parser compute them. -/
def ChunkText.read (c : ChunkText) : Bytes :=
  match c.size with
  | none => c.literal.bytes
  | some n => (resize c.literal.bytes n.value).toOption.getD []

theorem ChunkText.read_eq_iff (c : ChunkText) :
    c.read = c.bytes ↔ ∀ n ∈ c.size, Kept c.literal.bytes n.value := by
  obtain ⟨l, size, le⟩ := c
  cases size with
  | none => simp [read, bytes]
  | some n =>
    have hle := le n rfl
    simp only [Option.mem_def, Option.some.injEq, forall_eq', ← resize_eq_drop_iff hle, read,
      bytes, resize_eq _ hle, Except.toOption, Option.getD_some, Except.ok.injEq]

theorem buf_reverse (x : UInt64) : (buf x).reverse = bigEndian 8 x.toNat := by
  simp only [buf, bigEndian, List.range, List.range.loop, List.map_cons, List.map_nil,
    List.reverse_cons, List.reverse_nil, List.nil_append, List.cons_append]

theorem Decimal.toNat (d : Decimal) : (UInt64.ofNat d.value).toNat = d.value := by
  rw [UInt64.toNat_ofNat', Nat.mod_eq_of_lt (show d.value < _ from d.fits)]

theorem Literal.rawBytes (l : Literal) : RawBytes l.tokens l.bytes := by
  cases l with
  | decimal d =>
    have h := RawBytes.decimal (UInt64.ofNat d.value)
    rwa [buf_reverse, d.toNat] at h
  | hexadecimal x => exact .hexadecimal _
  | quad a b c d =>
    have h := RawBytes.ip_addr (UInt64.ofNat a.value) (UInt64.ofNat b.value)
      (UInt64.ofNat c.value) (UInt64.ofNat d.value)
    simpa [Literal.bytes, Literal.tokens, Decimal.token, Decimal.toNat] using h

theorem ChunkText.chunk (c : ChunkText) : Chunk c.tokens c.read := by
  obtain ⟨l, size, le⟩ := c
  cases size with
  | none =>
    rw [tokens, List.append_nil]
    exact .raw l.rawBytes
  | some n =>
    have hread : resize l.bytes (UInt64.ofNat n.value).toNat =
        .ok (ChunkText.read ⟨l, some n, le⟩) := by
      simp only [n.toNat, read, resize_eq _ (le n rfl), Except.toOption, Option.getD_some]
    exact .resized l.rawBytes _ hread

theorem KeyText.isKey (k : KeyText) : Key k.tokens (k.key ChunkText.read) := by
  cases k with
  | exact c => exact .exact c.chunk
  | lpm c n => exact .lpm c.chunk _
  | ternary c m => exact .ternary c.chunk m.chunk

theorem keys_of_texts (k : KeyText) (ks : List (Blanks × KeyText)) :
    Keys (k.tokens ++ ks.flatMap fun p => .BLANK :: p.2.tokens)
      (k.key ChunkText.read :: ks.map fun p => p.2.key ChunkText.read) := by
  induction ks using List.reverseRecOn with
  | nil => simpa using Keys.one k.isKey
  | append_singleton ks p ih => simpa using Keys.snoc ih p.2.isKey

theorem SpecText.isSpec (s : SpecText) : Spec s.tokens (s.action ChunkText.read) := by
  obtain ⟨name, params⟩ := s
  induction params using List.reverseRecOn with
  | nil => exact .name name.text
  | append_singleton params p ih =>
    have h := Spec.param ih p.2.chunk
    simpa [tokens, action, Action.add_param] using h

theorem CommandText.core (c : CommandText) : Core c.tokens (c.command ChunkText.read) := by
  cases c with
  | insert b₁ table b₂ key keys b₃ spec =>
    exact .insert table.text (keys_of_texts key keys) spec.isSpec
  | modify b₁ table b₂ handle b₃ spec => exact .modify table.text _ spec.isSpec
  | delete b₁ table b₂ handle => exact .delete table.text _
  | begin_transaction => exact .begin_transaction
  | end_transaction => exact .end_transaction

/-! ## Commands with the same chunks -/

theorem KeyText.key_eq_iff {f g : ChunkText → Bytes} (k : KeyText) :
    k.key f = k.key g ↔ ∀ c ∈ k.chunks, f c = g c := by
  cases k <;> simp [key, chunks]

theorem SpecText.action_eq_iff {f g : ChunkText → Bytes} (s : SpecText) :
    s.action f = s.action g ↔ ∀ c ∈ s.params.map Prod.snd, f c = g c := by
  simp only [action, Action.mk.injEq, true_and, List.map_inj_left, List.forall_mem_map]

theorem CommandText.command_eq_iff {f g : ChunkText → Bytes} (c : CommandText) :
    c.command f = c.command g ↔ ∀ d ∈ c.chunks, f d = g d := by
  cases c with
  | insert b₁ table b₂ key keys b₃ spec =>
    simp only [command, Command.InsertCommand.injEq, InsertCommand.mk.injEq, true_and,
      Option.some.injEq, List.cons.injEq, List.map_inj_left, KeyText.key_eq_iff,
      SpecText.action_eq_iff, chunks, List.forall_mem_append, List.forall_mem_flatMap,
      and_assoc]
  | modify b₁ table b₂ handle b₃ spec =>
    simp only [command, Command.ModifyCommand.injEq, ModifyCommand.mk.injEq, true_and,
      Option.some.injEq, SpecText.action_eq_iff, chunks]
  | delete b₁ table b₂ handle => simp [command, chunks]
  | begin_transaction => simp [command, chunks]
  | end_transaction => simp [command, chunks]

/-! ## Lines -/

/-- Every line is parsed as its command, with the chunks as the actions read them. -/
theorem parse_line_text (l : Line) :
    parse_line l.text = .ok (some (l.command.command ChunkText.read)) := by
  have hlead : l.lead_tokens ∈ leads := by
    unfold Line.lead_tokens
    split <;> simp [leads]
  have htail : l.tail_tokens ∈ tails ∧ l.tail_tokens ∈ clean := by
    unfold Line.tail_tokens
    split <;> simp [tails, clean]
  rw [parse_line, l.scans.scan_eq]
  exact parse_of_core hlead l.command.core htail.1 (.inr htail.2)

theorem parse_line_eq_iff (l : Line) :
    parse_line l.text = .ok (some (l.command.command ChunkText.bytes)) ↔
      ∀ c ∈ l.command.chunks, c.read = c.bytes := by
  rw [parse_line_text, Except.ok.injEq, Option.some.injEq, CommandText.command_eq_iff]

/-- **Round trip.** A rendered command is parsed as itself exactly when each of its sized
chunks drops fewer than `2 ^ 31` bytes or has the same bytes where the wrapped offset
points. -/
theorem parse_line_text_iff (l : Line) :
    parse_line l.text = .ok (some (l.command.command ChunkText.bytes)) ↔
      ∀ c ∈ l.command.chunks, ∀ n ∈ c.size, Kept c.literal.bytes n.value := by
  rw [parse_line_eq_iff]
  simp only [ChunkText.read_eq_iff]

/-! ## A chunk that is too long -/

/-- `00:` and so on, with `01` as its last byte. -/
def zerosThenOne (k : Nat) : Hexadecimal where
  first := (48, 48)
  others := List.replicate k (48, 48) ++ [(48, 49)]
  two := by simp
  isxdigit p hp := by
    have hp' : p = (48, 48) ∨ p = (48, 49) := by
      simp only [List.mem_cons, List.mem_append, List.mem_replicate, List.not_mem_nil,
        or_false] at hp
      tauto
    rcases hp' with rfl | rfl <;> decide

theorem zerosThenOne_bytes (k : Nat) :
    (Literal.hexadecimal (zerosThenOne k)).bytes = List.replicate (k + 1) 0 ++ [1] := by
  rw [Literal.bytes, zerosThenOne, List.map_cons, List.map_append, List.map_replicate,
    List.replicate_succ, List.cons_append]
  rfl

theorem byteAt_zeros (k i : Nat) :
    byteAt (List.replicate (k + 1) 0 ++ [1]) i = if i = k + 1 then 1 else 0 := by
  rw [byteAt_natCast, List.getD_eq_getElem?_getD]
  rcases Nat.lt_trichotomy i (k + 1) with hi | rfl | hi
  · rw [List.getElem?_append_left (by simpa using hi), List.getElem?_replicate, if_pos hi,
      if_neg (by omega)]
    rfl
  · simp
  · rw [List.getElem?_eq_none (by simp; omega), if_neg (by omega)]
    rfl

def digitText (c : UInt8) (h : isdigit c = true) (hx : digits 10 xvalue [c] < 2 ^ 64) : Decimal :=
  ⟨[c], by simp, by simpa using h, hx⟩

def nameText (c : UInt8) (h : isname c = true) : Name :=
  ⟨[c], ⟨c, [], rfl, h, by simp⟩, by simp [ascii]⟩

def oneBlank : Blanks := ⟨[32], by simp, by decide +kernel⟩

/-- The last two bytes of a literal of `k + 2` bytes. -/
def lastTwo (k : Nat) : ChunkText where
  literal := .hexadecimal (zerosThenOne k)
  size := some (digitText 50 (by decide) (by decide))
  le n hn := by
    obtain rfl : digitText 50 _ _ = n := Option.some.inj hn
    rw [zerosThenOne_bytes, List.length_append, List.length_replicate]
    exact Nat.le_add_left 2 k

theorem lastTwo_read {k : Nat} (hk : ¬ k < 2 ^ 31)
    (hδ : delta (k + 2) 2 + 1 ≠ (k + 1 : Nat)) (hpos : 0 ≤ delta (k + 2) 2) :
    (lastTwo k).read ≠ (lastTwo k).bytes := by
  rw [Ne, ChunkText.read_eq_iff]
  intro h
  have hkept := h _ rfl
  rw [show (lastTwo k).literal = .hexadecimal (zerosThenOne k) from rfl, zerosThenOne_bytes,
    show (digitText 50 _ _).value = 2 from rfl, Kept] at hkept
  have hlen : (List.replicate (k + 1) (0 : UInt8) ++ [1]).length = k + 2 := by
    rw [List.length_append, List.length_replicate]
    rfl
  rw [hlen, Nat.add_sub_cancel] at hkept
  obtain ⟨d, hd⟩ := Int.eq_ofNat_of_zero_le hpos
  -- the second byte read is a zero
  have hsecond := hkept.resolve_left hk 1 (by decide)
  rw [hd, ← Nat.cast_add, ← Nat.cast_add, byteAt_zeros, byteAt_zeros] at hsecond
  rw [hd] at hδ
  rw [if_neg (by omega), if_pos rfl] at hsecond
  cases hsecond

/-- The line `insert_entry t` with a key of `2 ^ 31 + 3` bytes, cut to two. -/
theorem parse_line_text_long : ∃ l : Line,
    parse_line l.text ≠ .ok (some (l.command.command ChunkText.bytes)) := by
  refine ⟨⟨none, .insert oneBlank (nameText 116 (by decide)) oneBlank
    (.exact (lastTwo (2 ^ 31 + 1))) [] oneBlank ⟨nameText 97 (by decide), []⟩, false⟩, ?_⟩
  have hread : (lastTwo (2 ^ 31 + 1)).read ≠ (lastTwo (2 ^ 31 + 1)).bytes :=
    lastTwo_read (by decide) (by decide +kernel) (by decide +kernel)
  rw [Ne, parse_line_eq_iff]
  refine fun h => hread (h _ ?_)
  exact List.mem_append_left _ (List.mem_append_left _ (List.mem_singleton.mpr rfl))

end Pfp.Cp
