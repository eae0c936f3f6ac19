import Mathlib.Computability.RegularExpressions

/-!
# Scanning by longest match

A scanner is a list of rules, each with a regular expression. At every position it takes
the longest prefix that some rule matches, and among the rules that match that prefix the
first one of the list.

`Munches` and `Lexes` say this without computing, in terms of the languages of the rules.
`munch` and `lexemes` compute it with derivatives, and `lexemes_eq` and `lexes_lexemes`
connect the two.
-/

namespace Lex

open RegularExpression

variable {α R : Type}

/-! ## Character classes and words -/

/-- One character out of a list. -/
def cls (l : List α) : RegularExpression α := l.foldr (fun a P => char a + P) 0

/-- One word. -/
def word (l : List α) : RegularExpression α := l.foldr (fun a P => char a * P) 1

theorem mem_cls {l x : List α} : x ∈ (cls l).matches' ↔ ∃ a ∈ l, x = [a] := by
  induction l with
  | nil => simp [cls, Language.notMem_zero]
  | cons b l ih =>
    have hcons : cls (b :: l) = char b + cls l := rfl
    have hchar : x ∈ (char b).matches' ↔ x = [b] := Iff.rfl
    rw [hcons, matches'_add, Language.mem_add, ih, hchar]
    simp

theorem mem_word {l x : List α} : x ∈ (word l).matches' ↔ x = l := by
  induction l generalizing x with
  | nil => simp [word, Language.mem_one]
  | cons b l ih =>
    have hcons : word (b :: l) = char b * word l := rfl
    rw [hcons, matches'_mul, Language.mem_mul]
    constructor
    · rintro ⟨y, hy, z, hz, rfl⟩
      rw [ih.mp hz, show y = [b] from hy]
      rfl
    · rintro rfl
      exact ⟨[b], rfl, l, ih.mpr rfl, rfl⟩

theorem mem_star_cls {l x : List α} : x ∈ (star (cls l)).matches' ↔ ∀ a ∈ x, a ∈ l := by
  rw [matches'_star, Language.mem_kstar]
  constructor
  · rintro ⟨xs, rfl, hxs⟩ a ha
    obtain ⟨y, hy, hay⟩ := List.mem_flatten.mp ha
    obtain ⟨b, hb, rfl⟩ := mem_cls.mp (hxs y hy)
    rwa [List.mem_singleton.mp hay]
  · intro h
    refine ⟨x.map fun a => [a], ?_, fun y hy => ?_⟩
    · rw [← List.flatMap_def, List.flatMap_singleton']
    obtain ⟨a, ha, rfl⟩ := List.mem_map.mp hy
    exact mem_cls.mpr ⟨a, h a ha, rfl⟩

theorem mem_cls_mul {l x : List α} {P : RegularExpression α} :
    x ∈ (cls l * P).matches' ↔ ∃ a y, x = a :: y ∧ a ∈ l ∧ y ∈ P.matches' := by
  rw [matches'_mul, Language.mem_mul]
  constructor
  · rintro ⟨y, hy, z, hz, rfl⟩
    obtain ⟨a, ha, rfl⟩ := mem_cls.mp hy
    exact ⟨a, z, rfl, ha, hz⟩
  · rintro ⟨a, y, rfl, ha, hy⟩
    exact ⟨[a], mem_cls.mpr ⟨a, ha, rfl⟩, y, hy, rfl⟩

/-! ## What a scanner has to find -/

variable (rules : List (R × RegularExpression α))

/-- In front of `rest`, the word `x` is the longest match and `r` the first rule for it. -/
structure Munches (r : R) (x rest : List α) : Prop where
  first : ∃ (i : Nat) (P : RegularExpression α), rules[i]? = some (r, P) ∧
    x ∈ P.matches' ∧ ∀ j < i, ∀ p, rules[j]? = some p → x ∉ p.2.matches'
  maximal : ∀ p ∈ rules, ∀ y z, rest = y ++ z → y ≠ [] → x ++ y ∉ p.2.matches'

inductive Lexes : List α → List (R × List α) → Prop
  | nil : Lexes [] []
  | cons {r : R} {x rest : List α} {ls : List (R × List α)} (hx : x ≠ [])
      (h : Munches rules r x rest) (tail : Lexes rest ls) :
      Lexes (x ++ rest) ((r, x) :: ls)

variable {rules}

/-- A further rule that matches no longer prefix, and is not in front, changes nothing. -/
theorem Munches.cons {r r' : R} {P : RegularExpression α} {x rest : List α}
    (h : Munches rules r x rest) (hx : x ∉ P.matches')
    (hP : ∀ y z, rest = y ++ z → y ≠ [] → x ++ y ∉ P.matches') :
    Munches ((r', P) :: rules) r x rest := by
  obtain ⟨⟨i, Q, hi, hQ, hfront⟩, hmax⟩ := h
  refine ⟨⟨i + 1, Q, hi, hQ, ?_⟩, ?_⟩
  · intro j hj p hp
    cases j with
    | zero =>
      cases hp
      exact hx
    | succ j => exact hfront j (by omega) p hp
  · rintro p (_ | ⟨_, hp⟩)
    · exact hP
    · exact hmax p hp

theorem Munches.mem {r : R} {x rest : List α} (h : Munches rules r x rest) :
    ∃ P, (r, P) ∈ rules ∧ x ∈ P.matches' := by
  obtain ⟨i, P, hi, hP, -⟩ := h.first
  exact ⟨P, List.mem_of_getElem? hi, hP⟩

theorem Lexes.nil_inv {ls : List (R × List α)} (h : Lexes rules [] ls) : ls = [] := by
  generalize hs : ([] : List α) = s at h
  cases h with
  | nil => rfl
  | cons hx _ _ => exact absurd (List.append_eq_nil_iff.mp hs.symm).1 hx

/-- The characters of a text are those of its lexemes. -/
theorem Lexes.flatten_eq {s : List α} {ls : List (R × List α)} (h : Lexes rules s ls) :
    (ls.map Prod.snd).flatten = s := by
  induction h with
  | nil => rfl
  | cons _ _ _ ih => simp [ih]

/-! ## Computing it -/

/-- Drop the parts of a derivative that match nothing. -/
def prune : RegularExpression α → RegularExpression α
  | .plus P Q =>
    match prune P, prune Q with
    | .zero, Q' => Q'
    | P', .zero => P'
    | P', Q' => .plus P' Q'
  | .comp P Q =>
    match prune P with
    | .zero => .zero
    | .epsilon => Q
    | P' => .comp P' Q
  | P => P

theorem matches'_prune (P : RegularExpression α) : (prune P).matches' = P.matches' := by
  induction P with
  | plus P Q ihP ihQ =>
    simp only [prune, plus_def, matches'_add, ← ihP, ← ihQ]
    split
    · rename_i hP
      rw [hP]
      exact (zero_add _).symm
    · rename_i hQ _
      rw [hQ]
      exact (add_zero _).symm
    · rfl
  | comp P Q ihP _ =>
    simp only [prune, comp_def, matches'_mul, ← ihP]
    split
    · rename_i hP
      rw [hP]
      exact (zero_mul _).symm
    · rename_i hP
      rw [hP]
      exact (one_mul _).symm
    · rfl
  | _ => rfl

section Compute

variable [DecidableEq α]

/-- The length of the longest prefix that is matched. -/
def longest : RegularExpression α → List α → Option Nat
  | .zero, _ => none
  | P, [] => if P.matchEpsilon then some 0 else none
  | P, a :: s =>
    match longest (prune (P.deriv a)) s with
    | some n => some (n + 1)
    | none => if P.matchEpsilon then some 0 else none

def munch : List (R × RegularExpression α) → List α → Option (R × Nat)
  | [], _ => none
  | (r, P) :: rules, s =>
    match longest P s, munch rules s with
    | some n, some (r', m) => if m ≤ n then some (r, n) else some (r', m)
    | some n, none => some (r, n)
    | none, o => o

def lex (rules : List (R × RegularExpression α)) : Nat → List α → List (R × List α)
  | 0, _ => []
  | fuel + 1, s =>
    match munch rules s with
    | some (r, n + 1) => (r, s.take (n + 1)) :: lex rules fuel (s.drop (n + 1))
    | _ => []

/-- The rules and the matched texts of `s`. -/
def lexemes (rules : List (R × RegularExpression α)) (s : List α) : List (R × List α) :=
  lex rules s.length s

theorem nil_mem_iff {P : RegularExpression α} : [] ∈ P.matches' ↔ P.matchEpsilon = true :=
  (rmatch_iff_matches' P []).symm

theorem cons_mem_iff {P : RegularExpression α} {a : α} {x : List α} :
    a :: x ∈ P.matches' ↔ x ∈ (prune (P.deriv a)).matches' := by
  rw [matches'_prune, ← rmatch_iff_matches', ← rmatch_iff_matches']
  rfl

theorem longest_spec (P : RegularExpression α) (s : List α) :
    match longest P s with
    | some n => n ≤ s.length ∧ s.take n ∈ P.matches' ∧
        ∀ m, n < m → m ≤ s.length → s.take m ∉ P.matches'
    | none => ∀ m, m ≤ s.length → s.take m ∉ P.matches' := by
  fun_induction longest P s with
  | case1 s => exact fun m _ h => h
  | case2 P _ he => exact ⟨le_rfl, nil_mem_iff.mpr he, fun m h h' => by simp at h'; omega⟩
  | case3 P _ he =>
    intro m _ h
    rw [List.take_nil] at h
    exact he (nil_mem_iff.mp h)
  | case4 P a s _ n hn ih =>
    simp only [hn] at ih
    obtain ⟨hle, hmem, hmax⟩ := ih
    refine ⟨by simpa using hle, cons_mem_iff.mpr hmem, ?_⟩
    intro m hm hl h
    obtain ⟨m, rfl⟩ : ∃ k, m = k + 1 := ⟨m - 1, by omega⟩
    exact hmax m (by omega) (by simpa using hl) (cons_mem_iff.mp h)
  | case5 P a s _ hn he ih =>
    simp only [hn] at ih
    refine ⟨Nat.zero_le _, nil_mem_iff.mpr he, ?_⟩
    intro m hm hl h
    obtain ⟨m, rfl⟩ : ∃ k, m = k + 1 := ⟨m - 1, by omega⟩
    exact ih m (by simpa using hl) (cons_mem_iff.mp h)
  | case6 P a s _ hn he ih =>
    simp only [hn] at ih
    intro m hl h
    cases m with
    | zero => exact he (nil_mem_iff.mp h)
    | succ m => exact ih m (by simpa using hl) (cons_mem_iff.mp h)

omit [DecidableEq α] in
/-- No rule matches a prefix of `x ++ rest` that is longer than `x`, in terms of lengths. -/
theorem munches_iff {r : R} {s : List α} {n : Nat} (hn : n ≤ s.length) :
    Munches rules r (s.take n) (s.drop n) ↔
      (∃ (i : Nat) (P : RegularExpression α), rules[i]? = some (r, P) ∧
        s.take n ∈ P.matches' ∧ ∀ j < i, ∀ p, rules[j]? = some p → s.take n ∉ p.2.matches') ∧
      ∀ p ∈ rules, ∀ m, n < m → m ≤ s.length → s.take m ∉ p.2.matches' := by
  constructor
  · rintro ⟨hfirst, hmax⟩
    refine ⟨hfirst, ?_⟩
    intro p hp m hm hl h
    refine hmax p hp ((s.drop n).take (m - n)) ((s.drop n).drop (m - n)) (by simp) ?_ ?_
    · rw [ne_eq, ← List.length_eq_zero_iff, List.length_take, List.length_drop]
      omega
    · rwa [← List.take_add, Nat.add_sub_of_le hm.le]
  · rintro ⟨hfirst, hmax⟩
    refine ⟨hfirst, ?_⟩
    intro p hp y z hyz hy h
    have hlen : n + y.length ≤ s.length := by
      have := congrArg List.length hyz
      rw [List.length_drop, List.length_append] at this
      omega
    have hpos : 0 < y.length := List.length_pos_iff.mpr hy
    apply hmax p hp (n + y.length) (by omega) hlen
    rwa [List.take_add, hyz, List.take_left]

theorem munch_spec (rules : List (R × RegularExpression α)) (s : List α) :
    match munch rules s with
    | some (r, n) => n ≤ s.length ∧ Munches rules r (s.take n) (s.drop n)
    | none => ∀ p ∈ rules, ∀ m, m ≤ s.length → s.take m ∉ p.2.matches' := by
  induction rules with
  | nil => simp [munch]
  | cons p rules ih =>
    obtain ⟨r, P⟩ := p
    have hP := longest_spec P s
    have hlonger : ∀ {r' m}, m ≤ s.length → Munches rules r' (s.take m) (s.drop m) →
        (∀ k, m ≤ k → k ≤ s.length → s.take k ∉ P.matches') →
        Munches ((r, P) :: rules) r' (s.take m) (s.drop m) := by
      intro r' m hm hmun hk
      apply hmun.cons (hk m le_rfl hm)
      intro y z hyz hy h
      have hlen : m + y.length ≤ s.length := by
        have := congrArg List.length hyz
        rw [List.length_drop, List.length_append] at this
        omega
      apply hk (m + y.length) (by omega) hlen
      rwa [List.take_add, hyz, List.take_left]
    simp only [munch]
    cases hl : longest P s with
    | none =>
      rw [hl] at hP
      cases hm : munch rules s with
      | none =>
        rw [hm] at ih
        rintro q (_ | ⟨_, hq⟩)
        · exact hP
        · exact ih q hq
      | some o =>
        obtain ⟨r', m⟩ := o
        rw [hm] at ih
        exact ⟨ih.1, hlonger ih.1 ih.2 fun k _ hk => hP k hk⟩
    | some n =>
      rw [hl] at hP
      obtain ⟨hle, hmem, hmax⟩ := hP
      have hhead : (∀ p ∈ rules, ∀ m, n < m → m ≤ s.length → s.take m ∉ p.2.matches') →
          Munches ((r, P) :: rules) r (s.take n) (s.drop n) := by
        intro h
        refine (munches_iff hle).mpr ⟨⟨0, P, rfl, hmem, by simp⟩, ?_⟩
        rintro q (_ | ⟨_, hq⟩)
        · exact hmax
        · exact h q hq
      cases hm : munch rules s with
      | none =>
        rw [hm] at ih
        exact ⟨hle, hhead fun p hp m _ hl => ih p hp m hl⟩
      | some o =>
        obtain ⟨r', m⟩ := o
        rw [hm] at ih
        obtain ⟨hle', hmun⟩ := ih
        by_cases hmn : m ≤ n
        · simp only [if_pos hmn]
          exact ⟨hle, hhead fun p hp k hk hl =>
            ((munches_iff hle').mp hmun).2 p hp k (by omega) hl⟩
        · simp only [if_neg hmn]
          exact ⟨hle', hlonger hle' hmun fun k hk hl => hmax k (by omega) hl⟩

omit [DecidableEq α] in
theorem Munches.unique {r r' : R} {s : List α} {n n' : Nat} (hn : n ≤ s.length)
    (hn' : n' ≤ s.length) (h : Munches rules r (s.take n) (s.drop n))
    (h' : Munches rules r' (s.take n') (s.drop n')) : r = r' ∧ n = n' := by
  obtain ⟨⟨i, P, hi, hP, hfront⟩, hmax⟩ := (munches_iff hn).mp h
  obtain ⟨⟨i', P', hi', hP', hfront'⟩, hmax'⟩ := (munches_iff hn').mp h'
  have heq : n = n' := by
    rcases Nat.lt_trichotomy n n' with hlt | heq | hlt
    · exact absurd hP' (hmax _ (List.mem_of_getElem? hi') n' hlt hn')
    · exact heq
    · exact absurd hP (hmax' _ (List.mem_of_getElem? hi) n hlt hn)
  subst heq
  -- of two different rules one is in front of the other
  rcases Nat.lt_trichotomy i i' with hlt | rfl | hlt
  · exact absurd hP (hfront' i hlt _ hi)
  · rw [hi] at hi'
    cases hi'
    exact ⟨rfl, rfl⟩
  · exact absurd hP' (hfront i' hlt _ hi')

theorem munch_eq {r : R} {x rest : List α} (h : Munches rules r x rest) :
    munch rules (x ++ rest) = some (r, x.length) := by
  have h₀ : Munches rules r ((x ++ rest).take x.length) ((x ++ rest).drop x.length) := by
    rwa [List.take_left, List.drop_left]
  have hle : x.length ≤ (x ++ rest).length := by simp
  have hspec := munch_spec rules (x ++ rest)
  cases hm : munch rules (x ++ rest) with
  | none =>
    rw [hm] at hspec
    obtain ⟨P, hP, hx⟩ := h.mem
    refine absurd ?_ (hspec (r, P) hP x.length hle)
    rwa [List.take_left]
  | some o =>
    obtain ⟨r', n⟩ := o
    rw [hm] at hspec
    obtain ⟨rfl, rfl⟩ := Munches.unique hspec.1 hle hspec.2 h₀
    rfl

theorem lex_eq {s : List α} {ls : List (R × List α)} (h : Lexes rules s ls) :
    ∀ fuel, s.length ≤ fuel → lex rules fuel s = ls := by
  induction h with
  | nil =>
    intro fuel _
    cases fuel with
    | zero => rfl
    | succ fuel =>
      simp only [lex]
      split
      · rename_i r n hm
        have hspec := munch_spec rules ([] : List α)
        rw [hm] at hspec
        exact absurd hspec.1 (by simp)
      · rfl
  | @cons r x rest ls hx hm _ ih =>
    intro fuel hf
    obtain ⟨n, hn⟩ : ∃ n, x.length = n + 1 :=
      ⟨x.length - 1, by have := List.length_pos_iff.mpr hx; omega⟩
    obtain ⟨fuel, rfl⟩ : ∃ k, fuel = k + 1 := ⟨fuel - 1, by simp at hf; omega⟩
    simp only [lex, munch_eq hm, hn]
    rw [← hn, List.take_left, List.drop_left, ih fuel (by simp at hf; omega)]

/-- What the rules allow is what the scanner computes. -/
theorem lexemes_eq {s : List α} {ls : List (R × List α)} (h : Lexes rules s ls) :
    lexemes rules s = ls :=
  lex_eq h s.length le_rfl

/-- When every character is matched by some rule, the scanner reads the whole text. -/
theorem lexes_lexemes (htotal : ∀ a, ∃ p ∈ rules, [a] ∈ p.2.matches') (s : List α) :
    Lexes rules s (lexemes rules s) := by
  have hlex : ∀ fuel s, s.length ≤ fuel → Lexes rules s (lex rules fuel s) := by
    intro fuel
    induction fuel with
    | zero =>
      intro s hs
      rw [List.length_eq_zero_iff.mp (Nat.le_zero.mp hs)]
      exact .nil
    | succ fuel ih =>
      intro s hs
      have hspec := munch_spec rules s
      simp only [lex]
      split
      · rename_i r n hm
        rw [hm] at hspec
        obtain ⟨hle, hmun⟩ := hspec
        have htail := ih (s.drop (n + 1)) (by rw [List.length_drop]; omega)
        have hne : s.take (n + 1) ≠ [] := by
          rw [ne_eq, ← List.length_eq_zero_iff, List.length_take]
          omega
        have hcons := Lexes.cons hne hmun htail
        rwa [List.take_append_drop] at hcons
      · rename_i hm
        cases s with
        | nil => exact .nil
        | cons a s =>
          obtain ⟨p, hp, ha⟩ := htotal a
          exfalso
          cases hmun : munch rules (a :: s) with
          | none =>
            rw [hmun] at hspec
            exact hspec p hp 1 (by simp) (by simpa using ha)
          | some o =>
            obtain ⟨r, n⟩ := o
            rw [hmun] at hspec
            cases n with
            | zero =>
              exact ((munches_iff hspec.1).mp hspec.2).2 p hp 1 Nat.one_pos (by simp)
                (by simpa using ha)
            | succ n => exact hm r n hmun
  exact hlex s.length s le_rfl

end Compute

end Lex
