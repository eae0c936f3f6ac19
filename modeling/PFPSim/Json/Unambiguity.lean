import PFPSim.Json.Exceptions

/-!
# The meaning of a text

The tokens of a tree are no proper beginning of those of another (`decodable`), so a text is
the layout of one tree at most (`layout_unique`). The parser decides whether there is one
(`parser_correct`), and ends on every text (`parse_invalid_argument`).
-/

namespace Json

open Lexer Json.Tree

variable {F : Type} {s : List Char} {xs ys : List Lexeme}

/-! ## Lists with commas -/

section

variable {α : Type} {code : α → List Lexeme} {close : Lexeme} {l l' : List α}

/-- Items with commas between them. -/
def joined (code : α → List Lexeme) : List α → List Lexeme
  | [] => []
  | a :: l => code a ++ (separator l ++ joined code l)

/-- A list ends where an item cannot begin. -/
theorem joined_inj (hcomma : close ≠ comma) (hfirst : ∀ a xs ys, code a ++ xs ≠ close :: ys)
    (hl : ∀ a ∈ l, ∀ b xs ys, code a ++ xs = code b ++ ys → a = b ∧ xs = ys)
    (h : joined code l ++ close :: xs = joined code l' ++ close :: ys) : l = l' ∧ xs = ys := by
  induction l generalizing l' with
  | nil =>
    cases l' with
    | nil => exact ⟨rfl, (List.cons.inj h).2⟩
    | cons b l' =>
      simp only [joined, List.nil_append, List.append_assoc] at h
      exact (hfirst _ _ _ h.symm).elim
  | cons a l ih =>
    obtain ⟨ha, hl⟩ := List.forall_mem_cons.mp hl
    cases l' with
    | nil =>
      simp only [joined, List.nil_append, List.append_assoc] at h
      exact (hfirst _ _ _ h).elim
    | cons b l' =>
      simp only [joined, List.append_assoc] at h
      obtain ⟨rfl, hrest⟩ := ha b _ _ h
      cases l with
      | nil =>
        cases l' with
        | nil => exact ⟨rfl, (List.cons.inj hrest).2⟩
        | cons c l' => exact absurd (List.cons.inj hrest).1 hcomma
      | cons c l =>
        cases l' with
        | nil => exact absurd (List.cons.inj hrest).1.symm hcomma
        | cons d l' =>
          obtain ⟨htail, hxs⟩ := ih hl (List.cons.inj hrest).2
          exact ⟨by rw [htail], hxs⟩

end

/-- The tokens of a member. -/
def memberCode (m : List Char × Tree) : List Lexeme :=
  (.value_string, m.1) :: colon :: m.2.tokens

theorem elementTokens_eq (ts : List Tree) : elementTokens ts = joined tokens ts := by
  induction ts with
  | nil => rfl
  | cons t ts ih => rw [elementTokens, joined, ih]

theorem memberTokens_eq (ms : List (List Char × Tree)) :
    memberTokens ms = joined memberCode ms := by
  induction ms with
  | nil => rfl
  | cons m ms ih =>
    rw [memberTokens, joined, ih]
    rfl

/-! ## Trees -/

/-- The type of the first token. -/
def Tree.type : Tree → TokenType
  | .null => .literal_null
  | .boolean b => if b then .literal_true else .literal_false
  | .string _ => .value_string
  | .number _ => .value_number
  | .array _ => .begin_array
  | .object _ => .begin_object

theorem tokens_head (t : Tree) : ∃ token ts, t.tokens = (t.type, token) :: ts := by
  cases t with
  | boolean b => cases b <;> exact ⟨_, _, rfl⟩
  | null | string | number | array | object => exact ⟨_, _, rfl⟩

theorem type_eq_of_tokens {t u : Tree} (h : t.tokens ++ xs = u.tokens ++ ys) :
    t.type = u.type := by
  obtain ⟨token, ts, ht⟩ := tokens_head t
  obtain ⟨token', us, hu⟩ := tokens_head u
  rw [ht, hu, List.cons_append, List.cons_append, List.cons.injEq, Prod.mk.injEq] at h
  exact h.1.1

/-- The tokens of the tree are told from those of any tree, whatever follows. -/
def Decodable (t : Tree) : Prop :=
  ∀ (u : Tree) (xs ys : List Lexeme), t.tokens ++ xs = u.tokens ++ ys → t = u ∧ xs = ys

theorem tokens_ne_endArray (t : Tree) (xs ys : List Lexeme) : t.tokens ++ xs ≠ endArray :: ys := by
  intro h
  obtain ⟨token, ts, ht⟩ := tokens_head t
  rw [ht, List.cons_append, List.cons.injEq] at h
  have htype : t.type = .end_array := congrArg Prod.fst h.1
  cases t with
  | boolean b => cases b <;> cases htype
  | null | string | number | array | object => cases htype

theorem decodable (t : Tree) : Decodable t := by
  induction t with
  | null =>
    intro u xs ys h
    have htype := type_eq_of_tokens h
    cases u with
    | null => exact ⟨rfl, (List.cons.inj h).2⟩
    | boolean b => cases b <;> cases htype
    | string | number | array | object => cases htype
  | boolean b =>
    intro u xs ys h
    have htype := type_eq_of_tokens h
    cases u with
    | boolean c =>
      cases b <;> cases c <;> first | exact ⟨rfl, (List.cons.inj h).2⟩ | cases htype
    | null | string | number | array | object => cases b <;> cases htype
  | string token =>
    intro u xs ys h
    have htype := type_eq_of_tokens h
    cases u with
    | string token' =>
      have htoken : token = token' := congrArg Prod.snd (List.cons.inj h).1
      exact ⟨by rw [htoken], (List.cons.inj h).2⟩
    | boolean b => cases b <;> cases htype
    | null | number | array | object => cases htype
  | number token =>
    intro u xs ys h
    have htype := type_eq_of_tokens h
    cases u with
    | number token' =>
      have htoken : token = token' := congrArg Prod.snd (List.cons.inj h).1
      exact ⟨by rw [htoken], (List.cons.inj h).2⟩
    | boolean b => cases b <;> cases htype
    | null | string | array | object => cases htype
  | array elements ih =>
    intro u xs ys h
    have htype := type_eq_of_tokens h
    cases u with
    | array elements' =>
      rw [Tree.tokens, Tree.tokens, List.cons_append, List.cons_append, List.append_assoc,
        List.append_assoc, elementTokens_eq, elementTokens_eq] at h
      obtain ⟨rfl, hxs⟩ := joined_inj (by decide) tokens_ne_endArray ih (List.cons.inj h).2
      exact ⟨rfl, hxs⟩
    | boolean b => cases b <;> cases htype
    | null | string | number | object => cases htype
  | object members ih =>
    intro u xs ys h
    have htype := type_eq_of_tokens h
    cases u with
    | object members' =>
      rw [Tree.tokens, Tree.tokens, List.cons_append, List.cons_append, List.append_assoc,
        List.append_assoc, memberTokens_eq, memberTokens_eq] at h
      have hmember : ∀ m ∈ members, ∀ (n : List Char × Tree) (xs ys : List Lexeme),
          memberCode m ++ xs = memberCode n ++ ys → m = n ∧ xs = ys := by
        intro m hm n xs ys heq
        obtain ⟨hkey, heq⟩ := List.cons.inj heq
        obtain ⟨hvalue, hxs⟩ := ih m hm n.2 xs ys (List.cons.inj heq).2
        exact ⟨Prod.ext (congrArg Prod.snd hkey) hvalue, hxs⟩
      have hfirst : ∀ (m : List Char × Tree) (xs ys : List Lexeme),
          memberCode m ++ xs ≠ endObject :: ys := by
        intro m xs ys heq
        cases congrArg Prod.fst (List.cons.inj heq).1
      obtain ⟨rfl, hxs⟩ := joined_inj (by decide) hfirst hmember (List.cons.inj h).2
      exact ⟨rfl, hxs⟩
    | boolean b => cases b <;> cases htype
    | null | string | number | array => cases htype

/-! ## Texts -/

/-- **Unambiguity.** A text is the layout of one tree at most. -/
theorem layout_unique {t u : Tree} (ht : Layout s t) (hu : Layout s u) : t = u := by
  obtain ⟨_, ht, -⟩ := ht
  obtain ⟨_, hu, -⟩ := hu
  rcases ht.begins hu with ⟨xs, hxs⟩ | ⟨xs, hxs⟩
  · exact (decodable t u xs [] (by rw [List.append_nil, hxs])).1
  · exact (decodable t u [] xs (by rw [List.append_nil, hxs])).1

/-- Blanks are not part of the tree. -/
theorem layout_unique_blanks : ∃! t, Layout "[ null ,1]".toList t := by
  have hlayout : Layout "[ null ,1]".toList (.array [.null, .number ['1']]) :=
    ⟨[], ⟨by decide +kernel, by decide +kernel, by decide +kernel, by decide +kernel,
      by decide +kernel, rfl⟩, by decide +kernel⟩
  exact ⟨_, hlayout, fun u hu => layout_unique hu hlayout⟩

/-- **The parser.** What is parsed is the value of a tree that the text is the layout of, and
where the tree has no value the exception is that of its first bad string. -/
theorem parser_correct (floats : Floats F) (s : List Char) :
    (∀ v, parse floats s = .ok v ↔ ∃ t, Layout s t ∧ t.value floats = .ok v) ∧
    ∀ t, Layout s t → parse floats s = t.value floats :=
  ⟨parse_eq_ok_iff floats s, fun _ => parse_of_layout floats⟩

/-- **Totality.** Every text is parsed, or refused with an `invalid_argument`. -/
theorem parse_invalid_argument (floats : Floats F) (s : List Char) :
    (∃ v, parse floats s = .ok v) ∨
      ∃ what, parse floats s = .error (.invalid_argument what) := by
  cases hparse : parse floats s with
  | ok v => exact .inl ⟨v, rfl⟩
  | error e =>
    obtain ⟨what, rfl⟩ := parse_throws floats s e hparse
    exact .inr ⟨what, rfl⟩

end Json
