import Mathlib.Data.List.Basic

/-!
# Reading tokens from a stream

A scanner takes one token after the other from a stream. `Reads` says which tokens it takes
from one state of the stream to another.
-/

namespace Lex

variable {S T : Type*} (scan : S → T × S)

/-- From `s` on the scanner takes the tokens `ts`, which leaves `s'`. -/
def Reads : S → List T → S → Prop
  | s, [], s' => s' = s
  | s, t :: ts, s' => (scan s).1 = t ∧ Reads (scan s).2 ts s'

namespace Reads

variable {scan} {s s' s'' : S} {ts us : List T}

theorem append (h : Reads scan s ts s') (h' : Reads scan s' us s'') :
    Reads scan s (ts ++ us) s'' := by
  induction ts generalizing s with
  | nil =>
    cases h
    exact h'
  | cons t ts ih => exact ⟨h.1, ih h.2⟩

/-- A stream is read in two parts. -/
theorem of_append (h : Reads scan s (ts ++ us) s'') :
    ∃ s', Reads scan s ts s' ∧ Reads scan s' us s'' := by
  induction ts generalizing s with
  | nil => exact ⟨s, rfl, h⟩
  | cons t ts ih =>
    obtain ⟨s', hts, hus⟩ := ih h.2
    exact ⟨s', ⟨h.1, hts⟩, hus⟩

/-- Streams with the same first token, and the same rest behind it, are read alike. -/
theorem congr_head {r : S} (h : scan r = scan s) {t : T} (hs : Reads scan s (t :: ts) s') :
    Reads scan r (t :: ts) s' := by
  show (scan r).1 = t ∧ Reads scan (scan r).2 ts s'
  rw [h]
  exact hs

/-- The tokens and what is left are no more than the stream, if each token takes from it. -/
theorem length_le (size : S → Nat) (Takes : T → Prop)
    (hsize : ∀ s, Takes (scan s).1 → size (scan s).2 < size s) (hts : ∀ t ∈ ts, Takes t)
    (h : Reads scan s ts s') : ts.length + size s' ≤ size s := by
  induction ts generalizing s with
  | nil =>
    cases h
    simp
  | cons t ts ih =>
    obtain ⟨ht, hts⟩ := List.forall_mem_cons.mp hts
    have hlt := hsize s (h.1.symm ▸ ht)
    have hle := ih hts h.2
    rw [List.length_cons]
    omega

/-- Of two readings of one stream the shorter begins the longer. -/
theorem begins (h : Reads scan s ts s') (h' : Reads scan s us s'') :
    (∃ vs, us = ts ++ vs) ∨ ∃ vs, ts = us ++ vs := by
  induction ts generalizing s us with
  | nil => exact .inl ⟨us, rfl⟩
  | cons t ts ih =>
    cases us with
    | nil => exact .inr ⟨t :: ts, rfl⟩
    | cons u us =>
      have hhead : u = t := h'.1.symm.trans h.1
      rcases ih h.2 h'.2 with ⟨vs, hvs⟩ | ⟨vs, hvs⟩
      · exact .inl ⟨vs, by rw [hhead, hvs, List.cons_append]⟩
      · exact .inr ⟨vs, by rw [hhead, hvs, List.cons_append]⟩

end Reads

end Lex
