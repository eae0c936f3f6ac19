import PFPSim.Cp.Resizing
import PFPSim.Cp.Unambiguity

/-!
# Dotted quads

The four numbers of a quad are decimals of 64 bits, of which the action keeps the last byte.
A quad stands in an accepted line as a literal, perhaps with a size behind it: the command is
a function of the bytes that are left, with different values for different bytes (`Filled`).
So two lines that differ in one quad give the same command exactly when the numbers agree
modulo 256 in the places that the size keeps (`quad_eq_iff`).
-/

namespace Pfp.Cp

open Lr

/-- Four decimals with dots between them. -/
structure Quad where
  a : UInt64
  b : UInt64
  c : UInt64
  d : UInt64
  deriving DecidableEq

namespace Quad

def octets (q : Quad) : List UInt64 := [q.a, q.b, q.c, q.d]

def tokens (q : Quad) : List Token :=
  [.DECIMAL q.a, .char 46, .DECIMAL q.b, .char 46, .DECIMAL q.c, .char 46, .DECIMAL q.d]

def bytes (q : Quad) : Bytes := q.octets.map UInt64.toUInt8

end Quad

/-- The size of the literal that the tokens stand behind. -/
def size : List Token → Option UInt64
  | .char 39 :: .DECIMAL n :: _ => some n
  | _ => none

/-- The bytes of a literal with an optional size. -/
def sized (b : Bytes) : Option UInt64 → Except Exception Bytes
  | none => .ok b
  | some n => resize b n.toNat

/-- Whether four bytes with the given size have kept the one in the place `i`. -/
def Keeps (size : Option UInt64) (i : Nat) : Prop :=
  match size with
  | none => True
  | some n =>
    if n.toNat ≤ 4 then 4 ≤ n.toNat + i else (n.toNat : Int) + 1 ≤ 2 * delta 4 n.toNat + i

instance : (size : Option UInt64) → (i : Nat) → Decidable (Keeps size i)
  | none, _ => .isTrue trivial
  | some n, i => inferInstanceAs (Decidable
      (if n.toNat ≤ 4 then 4 ≤ n.toNat + i else (n.toNat : Int) + 1 ≤ 2 * delta 4 n.toNat + i))

/-! ## Sizes -/

theorem delta_le_grown {size n : Nat} (h : size < n) : delta size n ≤ (n - size : Nat) := by
  rcases lt_or_ge (n - size) (2 ^ 31) with hlt | hge
  · exact (delta_grown h hlt).le
  · have := delta_lt size n
    omega

/-- The bytes of a vector that has grown, for every size. -/
theorem getElem_grown {v r : Bytes} {n : Nat} (h : v.length < n) (hr : resize v n = .ok r) :
    r.length = n ∧ ∀ i (hi : i < r.length), r[i] =
      if (i : Int) < n + 1 - delta v.length n then 0
      else if delta v.length n ≤ i then byteAt v (i - delta v.length n) else v.getD i 0 := by
  have hlt : ¬ n < v.length := by omega
  simp only [resize, if_neg hlt, if_pos h] at hr
  split at hr
  · cases hr
  · cases hr
    have hlength := length_vectorResize (b := v) h.le
    have hbyte : ∀ i : Int, byteAt (vectorResize v n) i = byteAt v i := by
      intro i
      rw [byteAt, byteAt, getD_vectorResize h.le]
    refine ⟨by rw [stdFill, List.length_mapIdx, length_stdCopy, hlength], ?_⟩
    intro i hi
    have hn : i < n := by
      rwa [stdFill, List.length_mapIdx, length_stdCopy, hlength] at hi
    have hfill : (0 : Int) ≤ i ∧ (i : Int) < n + 1 - delta v.length n ↔
        (i : Int) < n + 1 - delta v.length n := by omega
    have hcopy : delta v.length n ≤ i ∧
        (i : Int) < delta v.length n + (n + 1 - delta v.length n - 0) ↔
          delta v.length n ≤ i := by omega
    simp only [stdFill, List.getElem_mapIdx, hfill]
    split
    · rfl
    · simp only [stdCopy, List.getElem_mapIdx, hcopy]
      split
      · rw [Int.zero_add, hbyte]
      · rw [← getD_vectorResize h.le, List.getD_eq_getElem _ _ (by omega)]

variable {b b' r r' : Bytes}

theorem grown_eq_iff {n : Nat} (hb : b.length = 4) (hb' : b'.length = 4) (hn : 4 < n)
    (hr : resize b n = .ok r) (hr' : resize b' n = .ok r') :
    r = r' ↔ ∀ i : Nat, i < 4 → (n : Int) + 1 ≤ 2 * delta 4 n + i →
      b.getD i 0 = b'.getD i 0 := by
  obtain ⟨hlength, hget⟩ := getElem_grown (hb ▸ hn) hr
  obtain ⟨hlength', hget'⟩ := getElem_grown (hb' ▸ hn) hr'
  have hle := delta_le_grown hn
  rw [hb] at hget
  rw [hb'] at hget'
  constructor
  · rintro rfl i hi hkeep
    -- the copy of the byte is behind the zeros
    obtain ⟨j, hj⟩ := Int.eq_ofNat_of_zero_le (a := delta 4 n + i) (by omega)
    have hjr : j < r.length := by omega
    have hbyte := (hget j hjr).symm.trans (hget' j hjr)
    have hfrom : ¬ (j : Int) < n + 1 - delta 4 n := by omega
    have hplace : (j : Int) - delta 4 n = i := by omega
    simp only [if_neg hfrom, if_pos (show delta 4 n ≤ j by omega), hplace,
      byteAt_natCast] at hbyte
    exact hbyte
  · intro h
    apply List.ext_getElem (hlength.trans hlength'.symm)
    intro j h₁ h₂
    rw [hget j h₁, hget' j h₂]
    split
    · rfl
    · split
      · obtain ⟨i, hi⟩ := Int.eq_ofNat_of_zero_le (a := (j : Int) - delta 4 n) (by omega)
        rw [hi, byteAt_natCast, byteAt_natCast]
        rcases Nat.lt_or_ge i 4 with hlt | hge
        · exact h i hlt (by omega)
        · rw [List.getD_eq_default _ _ (by omega), List.getD_eq_default _ _ (by omega)]
      · rw [List.getD_eq_default _ _ (by omega), List.getD_eq_default _ _ (by omega)]

theorem shrunk_eq_iff {n : Nat} (hb : b.length = 4) (hb' : b'.length = 4) (hn : n ≤ 4)
    (hr : resize b n = .ok r) (hr' : resize b' n = .ok r') :
    r = r' ↔ ∀ i < 4, 4 ≤ n + i → b.getD i 0 = b'.getD i 0 := by
  have hdelta : delta 4 n = (4 - n : Nat) := delta_eq hn (by omega)
  rw [resize_eq _ (by omega), hb, hdelta] at hr
  rw [resize_eq _ (by omega), hb', hdelta] at hr'
  cases hr
  cases hr'
  rw [List.map_inj_left]
  simp only [List.mem_range, ← Nat.cast_add, byteAt_natCast]
  constructor
  · intro h i hi hkeep
    have hbyte := h (n + i - 4) (by omega)
    rwa [show 4 - n + (n + i - 4) = i by omega] at hbyte
  · intro h i hi
    exact h _ (by omega) (by omega)

theorem sized_eq_iff {size : Option UInt64} (hb : b.length = 4) (hb' : b'.length = 4)
    (hr : sized b size = .ok r) (hr' : sized b' size = .ok r') :
    r = r' ↔ ∀ i < 4, Keeps size i → b.getD i 0 = b'.getD i 0 := by
  cases size with
  | none =>
    cases hr
    cases hr'
    constructor
    · rintro rfl i - -
      rfl
    · intro h
      apply List.ext_getElem (hb.trans hb'.symm)
      intro i h₁ h₂
      have hi := h i (hb ▸ h₁) trivial
      rwa [List.getD_eq_getElem _ _ h₁, List.getD_eq_getElem _ _ h₂] at hi
  | some n =>
    rcases Nat.lt_or_ge 4 n.toNat with hn | hn
    · simp only [Keeps, if_neg (Nat.not_le_of_lt hn)]
      exact grown_eq_iff hb hb' hn hr hr'
    · simp only [Keeps, if_pos hn]
      exact shrunk_eq_iff hb hb' hn hr hr'

/-! ## A quad among other tokens -/

section Split

variable {α : Type} {sep k x : α} {w y u q v : List α}

theorem split_cons (h : k :: y = u ++ (x :: q ++ v)) (hk : k ≠ x) :
    ∃ u', u = k :: u' ∧ y = u' ++ (x :: q ++ v) := by
  cases u with
  | nil =>
    cases h
    exact absurd rfl hk
  | cons k' u' =>
    cases h
    exact ⟨u', rfl, rfl⟩

/-- A list that a separator is not in lies on one side of it. -/
theorem split_at (h : w ++ sep :: y = u ++ (q ++ v)) (hsep : sep ∉ q) (hq : q ≠ []) :
    (∃ v', w = u ++ (q ++ v') ∧ v = v' ++ sep :: y) ∨
      ∃ u', u = w ++ sep :: u' ∧ y = u' ++ (q ++ v) := by
  rcases List.append_eq_append_iff.mp h with ⟨z, hu, hz⟩ | ⟨z, hw, hz⟩
  · cases z with
    | nil =>
      rw [List.append_nil] at hu
      rw [hu]
      obtain ⟨x, q, rfl⟩ := List.exists_cons_of_ne_nil hq
      cases hz
      exact absurd List.mem_cons_self hsep
    | cons k u' =>
      cases hz
      exact .inr ⟨u', hu, rfl⟩
  · rcases List.append_eq_append_iff.mp hz with ⟨v', hz, hv⟩ | ⟨q', hq', hv⟩
    · exact .inl ⟨v', by rw [hw, hz], hv⟩
    · cases q' with
      | nil =>
        rw [List.append_nil] at hq'
        exact .inl ⟨[], by rw [hw, hq', List.append_nil], hv.symm⟩
      | cons k q' =>
        cases hv
        rw [hq'] at hsep
        exact absurd (List.mem_append_right _ List.mem_cons_self) hsep

end Split

variable {α β : Type} {R : List Token → α → Prop} {S : List Token → β → Prop}
  {u v w front back : List Token} {q : Quad} {x : α}

/-- What `R` makes of the tokens around a quad is a function of the bytes of the literal, with
different values for different bytes. -/
structure Around (R : List Token → α → Prop) (u v : List Token) (f : Bytes → α) : Prop where
  injective : f.Injective
  fits : ∀ (q : Quad) b, sized q.bytes (size v) = .ok b → R (u ++ (q.tokens ++ v)) (f b)

/-- The quad stands as a literal in what `R` makes into `x`. -/
def Filled (R : List Token → α → Prop) (u v : List Token) (q : Quad) (x : α) : Prop :=
  ∃ f b, Around R u v f ∧ sized q.bytes (size v) = .ok b ∧ x = f b

theorem size_append {k : Token} (hk : k.kind ≠ .quote ∧ k.kind ≠ .DECIMAL) (v w : List Token) :
    size (v ++ k :: w) = size v := by
  have hnone : ∀ {v : List Token}, (∀ n v', v ≠ .char 39 :: .DECIMAL n :: v') → size v = none := by
    intro v hv
    unfold size
    split
    · exact absurd rfl (hv _ _)
    · rfl
  cases v with
  | nil =>
    refine hnone fun n v' hv => ?_
    cases hv
    exact hk.1 rfl
  | cons l v =>
    cases v with
    | nil =>
      refine (hnone fun n v' hv => ?_).trans (hnone fun n v' hv => ?_).symm
      · cases hv
        exact hk.2 rfl
      · cases hv
    | cons m v =>
      by_cases hv : ∃ n, l = .char 39 ∧ m = .DECIMAL n
      · obtain ⟨n, rfl, rfl⟩ := hv
        rfl
      · refine (hnone fun n v' h => ?_).trans (hnone fun n v' h => ?_).symm
        · cases h
          exact hv ⟨n, rfl, rfl⟩
        · cases h
          exact hv ⟨n, rfl, rfl⟩

/-- What is made of more tokens around. -/
theorem Filled.map (front back : List Token) (h : Filled R u v q x) {g : α → β} (hg : g.Injective)
    (hR : ∀ w x, R w x → S (front ++ (w ++ back)) (g x)) (hsize : size (v ++ back) = size v) :
    Filled S (front ++ u) (v ++ back) q (g x) := by
  obtain ⟨f, b, ⟨hf, hfits⟩, hb, rfl⟩ := h
  refine ⟨g ∘ f, b, ⟨hg.comp hf, ?_⟩, by rw [hsize, hb], rfl⟩
  intro q' b' hb'
  rw [hsize] at hb'
  have hS := hR _ _ (hfits q' b' hb')
  simpa only [List.append_assoc, Function.comp_apply] using hS

theorem Filled.embed (h : Filled R u v q x) {g : α → β} (hg : g.Injective)
    (hR : ∀ w x, R w x → S w (g x)) : Filled S u v q (g x) := by
  have hmap := h.map [] [] hg (S := S)
    (fun w x hw => by rw [List.nil_append, List.append_nil]; exact hR w x hw)
    (by rw [List.append_nil])
  rwa [List.nil_append, List.append_nil] at hmap

theorem Quad.length_tokens (q : Quad) : q.tokens.length = 7 := rfl

theorem Quad.tokens_ne_nil (q : Quad) : q.tokens ≠ [] := List.cons_ne_nil _ _

/-- The separators of the grammar are not in a quad. -/
theorem Quad.not_mem_tokens (q : Quad) {k : Token} (hk : k.kind ≠ .DECIMAL ∧ k.kind ≠ .dot) :
    k ∉ q.tokens := by
  intro hmem
  simp only [tokens, List.mem_cons, List.not_mem_nil, or_false] at hmem
  rcases hmem with rfl | rfl | rfl | rfl | rfl | rfl | rfl <;> simp [Token.kind] at hk

/-- In front of a quad are the tokens that no quad begins with. -/
theorem split_front (front : List Token) (h : front ++ w = u ++ (q.tokens ++ v))
    (hfront : ∀ k ∈ front, k.kind ≠ .DECIMAL) :
    ∃ u', u = front ++ u' ∧ w = u' ++ (q.tokens ++ v) := by
  induction front generalizing u with
  | nil => exact ⟨u, rfl, h⟩
  | cons k front ih =>
    obtain ⟨hk, hfront⟩ := List.forall_mem_cons.mp hfront
    obtain ⟨u, rfl, hrest⟩ := split_cons h (by rintro rfl; exact hk rfl)
    obtain ⟨u, rfl, hw⟩ := ih hrest hfront
    exact ⟨u, rfl, hw⟩

theorem not_short (h : w = u ++ (q.tokens ++ v)) (hlt : w.length < 7) : False := by
  rw [h, List.length_append, List.length_append, q.length_tokens] at hlt
  omega

/-! ## The sentences around a quad -/

theorem RawBytes.quad {b : Bytes} (h : RawBytes (u ++ (q.tokens ++ v)) b) :
    u = [] ∧ v = [] ∧ b = q.bytes := by
  generalize hw : u ++ (q.tokens ++ v) = w at h
  cases h with
  | decimal | hexadecimal => exact (not_short hw.symm (by simp)).elim
  | ip_addr x y z t =>
    have hlength := congrArg List.length hw
    simp only [List.length_append, q.length_tokens, List.length_cons, List.length_nil] at hlength
    have hu : u = [] := List.length_eq_zero_iff.mp (by omega)
    have hv : v = [] := List.length_eq_zero_iff.mp (by omega)
    rw [hu, hv, List.nil_append, List.append_nil] at hw
    cases hw
    exact ⟨hu, hv, rfl⟩

theorem rawBytes_quad (q : Quad) : RawBytes q.tokens q.bytes := .ip_addr q.a q.b q.c q.d

theorem Chunk.filled {b : Bytes} (h : Chunk (u ++ (q.tokens ++ v)) b) :
    Filled Chunk u v q b := by
  generalize hw : u ++ (q.tokens ++ v) = w at h
  cases h with
  | raw h =>
    rw [← hw] at h
    obtain ⟨rfl, rfl, rfl⟩ := h.quad
    refine ⟨id, q.bytes, ⟨Function.injective_id, ?_⟩, rfl, rfl⟩
    intro q' b' hb'
    cases hb'
    rw [List.nil_append, List.append_nil]
    exact .raw (rawBytes_quad q')
  | @resized w b₀ b' h x hr =>
    rcases split_at hw.symm (q.not_mem_tokens (by simp [Token.kind])) q.tokens_ne_nil with
      ⟨v', rfl, rfl⟩ | ⟨u', -, hshort⟩
    · obtain ⟨rfl, rfl, rfl⟩ := h.quad
      refine ⟨id, b, ⟨Function.injective_id, ?_⟩, hr, rfl⟩
      intro q' b' hb'
      exact .resized (rawBytes_quad q') x hb'
    · exact (not_short hshort (by simp)).elim

theorem Key.filled {k : MatchKey} (h : Key (u ++ (q.tokens ++ v)) k) : Filled Key u v q k := by
  generalize hw : u ++ (q.tokens ++ v) = w at h
  cases h with
  | exact h =>
    rw [← hw] at h
    exact h.filled.embed (fun b b' hb => MatchKey.ExactKey.inj hb) fun w b => .exact
  | @lpm w b h x =>
    rcases split_at hw.symm (q.not_mem_tokens (by simp [Token.kind])) q.tokens_ne_nil with
      ⟨v', rfl, rfl⟩ | ⟨u', -, hshort⟩
    · exact h.filled.map [] _ (g := fun b => MatchKey.LpmKey b x) (S := Key)
        (fun b b' hb => (MatchKey.LpmKey.inj hb).1) (fun w b hw => .lpm hw x)
        (size_append (by simp [Token.kind]) _ _)
    · exact (not_short hshort (by simp)).elim
  | @ternary w t b m h hm =>
    rcases split_at hw.symm (q.not_mem_tokens (by simp [Token.kind])) q.tokens_ne_nil with
      ⟨v', rfl, rfl⟩ | ⟨u', rfl, rfl⟩
    · exact h.filled.map [] _ (g := fun b => MatchKey.TernaryKey b m) (S := Key)
        (fun b b' hb => (MatchKey.TernaryKey.inj hb).1) (fun w b hw => .ternary hw hm)
        (size_append (by simp [Token.kind]) _ _)
    · have hmap := hm.filled.map (w ++ [.char 38]) []
        (g := fun m => MatchKey.TernaryKey b m) (S := Key)
        (fun b b' hb => (MatchKey.TernaryKey.inj hb).2)
        (fun t m ht => by simpa using Key.ternary h ht) (by rw [List.append_nil])
      simpa using hmap

theorem Keys.filled {ks : List MatchKey} (h : Keys (u ++ (q.tokens ++ v)) ks) :
    Filled Keys u v q ks := by
  generalize hw : u ++ (q.tokens ++ v) = w at h
  induction h generalizing u v with
  | nil => exact (not_short hw.symm (by simp)).elim
  | one h =>
    rw [← hw] at h
    exact h.filled.embed (fun k k' hk => (List.cons.inj hk).1) fun w k => .one
  | @snoc w t ks k hs h ih =>
    rcases split_at hw.symm (q.not_mem_tokens (by simp [Token.kind])) q.tokens_ne_nil with
      ⟨v', rfl, rfl⟩ | ⟨u', rfl, rfl⟩
    · exact (ih rfl).map [] _ (g := fun ks => ks ++ [k]) (S := Keys)
        (fun ks ks' hks => List.append_cancel_right hks) (fun w ks hw => .snoc hw h)
        (size_append (by simp [Token.kind]) _ _)
    · have hmap := h.filled.map (w ++ [.BLANK]) []
        (g := fun k => ks ++ [k]) (S := Keys)
        (fun k k' hk => (List.cons.inj (List.append_cancel_left hk)).1)
        (fun t k ht => by simpa using Keys.snoc hs ht) (by rw [List.append_nil])
      simpa using hmap

theorem add_param_inj {a a' : Action} {b b' : Bytes} :
    a.add_param b = a'.add_param b' ↔ a = a' ∧ b = b' := by
  obtain ⟨name, params⟩ := a
  obtain ⟨name', params'⟩ := a'
  simp only [Action.add_param, Action.mk.injEq, List.append_singleton_inj, and_assoc]

theorem Spec.filled {a : Action} (h : Spec (u ++ (q.tokens ++ v)) a) : Filled Spec u v q a := by
  generalize hw : u ++ (q.tokens ++ v) = w at h
  induction h generalizing u v with
  | name s => exact (not_short hw.symm (by simp)).elim
  | @param w t a b ha h ih =>
    rcases split_at hw.symm (q.not_mem_tokens (by simp [Token.kind])) q.tokens_ne_nil with
      ⟨v', rfl, rfl⟩ | ⟨u', rfl, rfl⟩
    · exact (ih rfl).map [] _ (g := fun a => a.add_param b) (S := Spec)
        (fun a a' haa => (add_param_inj.mp haa).1) (fun w a hw => .param hw h)
        (size_append (by simp [Token.kind]) _ _)
    · have hmap := h.filled.map (w ++ [.BLANK]) []
        (g := fun b => a.add_param b) (S := Spec)
        (fun b b' hb => (add_param_inj.mp hb).2)
        (fun t b ht => by simpa using Spec.param ha ht) (by rw [List.append_nil])
      simpa using hmap

/-- A command with a quad has an action. -/
theorem Core.filled {c : Command} (h : Core (u ++ (q.tokens ++ v)) c) :
    Filled Core u v q c ∧ c.hasSpec = true := by
  generalize hw : u ++ (q.tokens ++ v) = w at h
  cases h with
  | @insert w t keys action s hk ha =>
    obtain ⟨u, rfl, hrest⟩ := split_front
      [.INSERT_ENTRY, .BLANK, .IDENTIFIER s, .BLANK]
      hw.symm (by simp [Token.kind])
    refine ⟨?_, rfl⟩
    rcases split_at hrest (q.not_mem_tokens (by simp [Token.kind])) q.tokens_ne_nil with
      ⟨v', rfl, rfl⟩ | ⟨u', rfl, rfl⟩
    · exact hk.filled.map
        [.INSERT_ENTRY, .BLANK, .IDENTIFIER s, .BLANK] _ (g := fun keys =>
          .InsertCommand { table_name := s, keys := some keys, action := some action })
        (S := Core) (fun keys keys' h => by simpa using h) (fun w keys hw => .insert s hw ha)
        (size_append (by simp [Token.kind]) _ _)
    · have hmap := ha.filled.map
        (.INSERT_ENTRY :: .BLANK :: .IDENTIFIER s :: .BLANK :: (w ++ [.BLANK])) []
        (g := fun action =>
          .InsertCommand { table_name := s, keys := some keys, action := some action })
        (S := Core) (fun a a' h => by simpa using h)
        (fun t a ht => by simpa using Core.insert s hk ht) (by rw [List.append_nil])
      simpa using hmap
  | @modify t action s x ha =>
    obtain ⟨u, rfl, hrest⟩ := split_front
      [.MODIFY_ENTRY, .BLANK, .IDENTIFIER s, .BLANK]
      hw.symm (by simp [Token.kind])
    refine ⟨?_, rfl⟩
    have hrest : [.DECIMAL x] ++ .BLANK :: t = u ++ (q.tokens ++ v) := hrest
    rcases split_at hrest (q.not_mem_tokens (by simp [Token.kind])) q.tokens_ne_nil with
      ⟨v', hshort, -⟩ | ⟨u', rfl, rfl⟩
    · exact (not_short hshort (by simp)).elim
    · have hmap := ha.filled.map
        [.MODIFY_ENTRY, .BLANK, .IDENTIFIER s, .BLANK, .DECIMAL x, .BLANK] [] (g := fun action =>
          .ModifyCommand { table_name := s, handle := x, action := some action })
        (S := Core) (fun a a' h => by simpa using h)
        (fun t a ht => by simpa using Core.modify s x ht) (by rw [List.append_nil])
      simpa using hmap
  | delete | begin_transaction | end_transaction => exact (not_short hw.symm (by simp)).elim

/-- A tail is behind the quad. -/
theorem split_tail {core tail : List Token} (htail : tail ∈ tails)
    (h : core ++ tail = u ++ (q.tokens ++ v)) :
    ∃ v', core = u ++ (q.tokens ++ v') ∧ v = v' ++ tail ∧ size v = size v' := by
  cases tail with
  | nil =>
    rw [List.append_nil] at h
    exact ⟨v, h, (List.append_nil v).symm, rfl⟩
  | cons k tail =>
    have hk : (k = .BLANK ∨ k = .EOL) ∧ tail.length < 7 := by
      simp only [tails, List.mem_cons, List.not_mem_nil, or_false] at htail
      rcases htail with h | h | h | h <;> cases h <;> simp
    have hkind : k.kind ≠ .DECIMAL ∧ k.kind ≠ .dot ∧ k.kind ≠ .quote := by
      rcases hk.1 with rfl | rfl <;> simp [Token.kind]
    rcases split_at h (q.not_mem_tokens ⟨hkind.1, hkind.2.1⟩) q.tokens_ne_nil with
      ⟨v', rfl, rfl⟩ | ⟨u', -, hshort⟩
    · exact ⟨v', rfl, rfl, size_append ⟨hkind.2.2, hkind.1⟩ _ _⟩
    · exact (not_short hshort hk.2).elim

theorem Accepts.filled {c : Command} (h : Accepts (u ++ (q.tokens ++ v)) c) :
    Filled Accepts u v q c := by
  obtain ⟨lead, hlead, core, tail, htail, hw, hcore, hclean⟩ := h
  have hblank : ∀ k ∈ lead, k.kind ≠ .DECIMAL := by
    simp only [leads, List.mem_cons, List.not_mem_nil, or_false] at hlead
    rcases hlead with rfl | rfl <;> simp [Token.kind]
  obtain ⟨u, rfl, hrest⟩ := split_front lead hw.symm hblank
  obtain ⟨v, rfl, rfl, hsize⟩ := split_tail htail hrest
  obtain ⟨hfilled, hspec⟩ := hcore.filled
  have htail' : tail ∈ clean := hclean.resolve_left (by rw [hspec]; exact Bool.noConfusion)
  exact hfilled.map lead tail Function.injective_id
    (fun w c hw => ⟨lead, hlead, w, tail, htail, rfl, hw, .inr htail'⟩) hsize

/-! ## Lines that differ in a quad -/

/-- Whether the quads have different bytes in a place that the size keeps. -/
def Quad.Differ (q q' : Quad) (size : Option UInt64) : Prop :=
  ∃ i < 4, Keeps size i ∧ (q.octets.getD i 0).toNat % 256 ≠ (q'.octets.getD i 0).toNat % 256

instance (q q' : Quad) (size : Option UInt64) : Decidable (q.Differ q' size) :=
  inferInstanceAs (Decidable (∃ i < 4, Keeps size i ∧
    (q.octets.getD i 0).toNat % 256 ≠ (q'.octets.getD i 0).toNat % 256))

theorem toUInt8_eq_iff {x y : UInt64} :
    x.toUInt8 = y.toUInt8 ↔ x.toNat % 256 = y.toNat % 256 := by
  rw [← UInt8.toNat_inj, UInt64.toNat_toUInt8, UInt64.toNat_toUInt8]

theorem Quad.getD_bytes (q : Quad) (i : Nat) :
    q.bytes.getD i 0 = (q.octets.getD i 0).toUInt8 := by
  show q.bytes.getD i (UInt64.toUInt8 0) = _
  rw [bytes, List.getD_map]

/-- Sized bytes are the same unless they differ where they are kept. -/
theorem Quad.sized_eq_iff {q q' : Quad} {size : Option UInt64} {r r' : Bytes}
    (hr : sized q.bytes size = .ok r) (hr' : sized q'.bytes size = .ok r') :
    r = r' ↔ ¬ q.Differ q' size := by
  simp only [Cp.sized_eq_iff rfl rfl hr hr', Differ, getD_bytes, toUInt8_eq_iff, not_exists,
    not_and, not_not]

/-- Two accepted lines that differ in a quad only. -/
theorem quad_lines_eq_iff {s s' : Str} {c c' : Command} {q q' : Quad}
    (hs : scan s = u ++ (q.tokens ++ v)) (hs' : scan s' = u ++ (q'.tokens ++ v))
    (hc : parse_line s = .ok (some c)) (hc' : parse_line s' = .ok (some c')) :
    c = c' ↔ ¬ q.Differ q' (size v) := by
  rw [parse_line, hs, parse_eq_iff] at hc
  rw [parse_line, hs', parse_eq_iff] at hc'
  obtain ⟨f, b, ⟨hf, hfits⟩, hb, rfl⟩ := hc.filled
  obtain ⟨-, b', -, hb', -⟩ := hc'.filled
  have hother := hfits q' b' hb'
  have huniq : c' = f b' := by
    rw [← parse_eq_iff] at hc' hother
    rw [hc'] at hother
    cases hother
    rfl
  rw [huniq, hf.eq_iff, Quad.sized_eq_iff hb hb']

/-! ## The bytes of a quad -/

theorem der_quad {q : Quad} {v : Value} :
    Der [nt .ip_addr] q.tokens [v] ↔ v = .BYTES q.bytes := by
  rw [der_ip_addr]
  constructor
  · rintro ⟨x, y, z, u, hw, rfl⟩
    cases hw
    rfl
  · intro hv
    exact ⟨q.a, q.b, q.c, q.d, rfl, hv⟩

/-- The four bytes of a quad are its numbers exactly when these are below 256. -/
theorem quad_keeps_iff (q : Quad) :
    (∀ bs, Der [nt .ip_addr] q.tokens [.BYTES bs] →
      bs.map UInt8.toNat = q.octets.map UInt64.toNat) ↔ ∀ x ∈ q.octets, x.toNat < 256 := by
  have hbyte : ∀ x : UInt64, x.toUInt8.toNat = x.toNat ↔ x.toNat < 256 := by
    intro x
    rw [UInt64.toNat_toUInt8]
    exact ⟨fun h => h ▸ Nat.mod_lt _ (by decide), Nat.mod_eq_of_lt⟩
  simp only [der_quad, Value.BYTES.injEq, forall_eq, Quad.bytes, List.map_map,
    List.map_inj_left, Function.comp_apply, hbyte]

/-- Two quads have the same bytes exactly when their numbers differ by multiples of 256. -/
theorem quad_bytes_eq_iff (q q' : Quad) :
    (∀ v v', Der [nt .ip_addr] q.tokens [v] → Der [nt .ip_addr] q'.tokens [v'] → v = v') ↔
      ¬ q.Differ q' none := by
  simp only [der_quad, forall_eq, forall_eq_apply_imp_iff, Value.BYTES.injEq]
  exact Quad.sized_eq_iff rfl rfl

/-- **Dotted quads.** The four bytes of a quad are its numbers exactly when these are below
256, and two quads have the same bytes exactly when the numbers differ by multiples of 256.
Two accepted lines that differ in a quad only give different commands for different quads
exactly when these differ in a place that the size behind them keeps. -/
theorem quad_eq_iff (q q' : Quad) :
    ((∀ bs, Der [nt .ip_addr] q.tokens [.BYTES bs] →
        bs.map UInt8.toNat = q.octets.map UInt64.toNat) ↔ ∀ x ∈ q.octets, x.toNat < 256) ∧
    ((∀ v v', Der [nt .ip_addr] q.tokens [v] → Der [nt .ip_addr] q'.tokens [v'] → v = v') ↔
      ¬ q.Differ q' none) ∧
    ∀ (s s' : Str) (c c' : Command) (u v : List Token),
      scan s = u ++ (q.tokens ++ v) → scan s' = u ++ (q'.tokens ++ v) →
      parse_line s = .ok (some c) → parse_line s' = .ok (some c') →
      ((q ≠ q' → c ≠ c') ↔ q = q' ∨ q.Differ q' (size v)) := by
  refine ⟨quad_keeps_iff q, quad_bytes_eq_iff q q', ?_⟩
  intro s s' c c' u v hs hs' hc hc'
  rw [Ne, Ne, quad_lines_eq_iff hs hs' hc hc', not_not, or_iff_not_imp_left]

/-- An insert with one exact key. -/
theorem parse_line_key {s : Str} {b : Bytes} (w : List Token)
    (hs : scan s = [.INSERT_ENTRY, .BLANK, .IDENTIFIER [116], .BLANK] ++
      (w ++ [.BLANK, .IDENTIFIER [97]])) (h : Chunk w b) :
    parse_line s = .ok (some (.InsertCommand
      { table_name := [116], keys := some [.ExactKey b], action := some { name := [97] } })) := by
  have hcore := Core.insert [116] (.one (.exact h)) (.name [97])
  rw [parse_line, hs]
  simpa using parse_of_core (show [] ∈ leads by simp [leads]) hcore
    (show [] ∈ tails by simp [tails]) (.inr (by simp [clean]))

/-- A size of two loses the difference of `1.2.3.4` and `5.6.3.4`. -/
theorem quad_eq_iff_sized : ∃ c c',
    parse_line (ascii "insert_entry t 1.2.3.4'2 a") = .ok (some c) ∧
      parse_line (ascii "insert_entry t 5.6.3.4'2 a") = .ok (some c') ∧
      ¬ ((⟨1, 2, 3, 4⟩ : Quad) ≠ ⟨5, 6, 3, 4⟩ → c ≠ c') := by
  have hs : scan (ascii "insert_entry t 1.2.3.4'2 a") =
      [.INSERT_ENTRY, .BLANK, .IDENTIFIER [116], .BLANK] ++ ((⟨1, 2, 3, 4⟩ : Quad).tokens ++
        [.char 39, .DECIMAL 2, .BLANK, .IDENTIFIER [97]]) := by
    decide +kernel
  have hs' : scan (ascii "insert_entry t 5.6.3.4'2 a") =
      [.INSERT_ENTRY, .BLANK, .IDENTIFIER [116], .BLANK] ++ ((⟨5, 6, 3, 4⟩ : Quad).tokens ++
        [.char 39, .DECIMAL 2, .BLANK, .IDENTIFIER [97]]) := by
    decide +kernel
  have hc := parse_line_key (b := [3, 4]) (Quad.tokens ⟨1, 2, 3, 4⟩ ++ [.char 39, .DECIMAL 2]) hs
    (.resized (rawBytes_quad _) 2 (by decide +kernel))
  have hc' := parse_line_key (b := [3, 4]) (Quad.tokens ⟨5, 6, 3, 4⟩ ++ [.char 39, .DECIMAL 2]) hs'
    (.resized (rawBytes_quad _) 2 (by decide +kernel))
  refine ⟨_, _, hc, hc', ?_⟩
  rw [(quad_eq_iff _ _).2.2 _ _ _ _ _ _ hs hs' hc hc']
  decide +kernel

/-- The address `256.0.0.1` is read as `0.0.0.1`. -/
theorem quad_collision : ¬ ∀ (s s' : Str) (c c' : Command) (u v : List Token) (q q' : Quad),
    scan s = u ++ (q.tokens ++ v) → scan s' = u ++ (q'.tokens ++ v) →
    parse_line s = .ok (some c) → parse_line s' = .ok (some c') → q ≠ q' → c ≠ c' := by
  intro h
  have hs : scan (ascii "insert_entry t 256.0.0.1 a") =
      [.INSERT_ENTRY, .BLANK, .IDENTIFIER [116], .BLANK] ++ ((⟨256, 0, 0, 1⟩ : Quad).tokens ++
        [.BLANK, .IDENTIFIER [97]]) := by
    decide +kernel
  have hs' : scan (ascii "insert_entry t 0.0.0.1 a") =
      [.INSERT_ENTRY, .BLANK, .IDENTIFIER [116], .BLANK] ++ ((⟨0, 0, 0, 1⟩ : Quad).tokens ++
        [.BLANK, .IDENTIFIER [97]]) := by
    decide +kernel
  have hc := parse_line_key (b := [0, 0, 0, 1]) _ hs (.raw (rawBytes_quad _))
  have hc' := parse_line_key (b := [0, 0, 0, 1]) _ hs' (.raw (rawBytes_quad _))
  exact h _ _ _ _ _ _ _ _ hs hs' hc hc' (by decide) rfl

end Pfp.Cp
