import PFPSim.Json.Progress

/-!
# The texts that are parsed

The parser agrees with the grammar. On the layout of a tree it does what the value of the
tree is, also where that is an exception (`parse_of_layout`), and every text that it
accepts is a layout (`parse_eq_ok_iff`).
-/

namespace Json

open Lexer Json.Tree

variable {F : Type} {floats : Floats F} {s s' : List Char} {ts : List Lexeme}

theorem ok_bind {α β : Type} (a : α) (f : α → Except Exception β) : (.ok a >>= f) = f a := rfl

theorem bind_eq_ok {α β : Type} {x : Except Exception α} {f : α → Except Exception β} {b : β} :
    (x >>= f) = .ok b ↔ ∃ a, x = .ok a ∧ f a = .ok b := by
  cases x <;> simp [bind, Except.bind]

theorem map_eq_ok {α β : Type} {x : Except Exception α} {f : α → β} {b : β} :
    x.map f = .ok b ↔ ∃ a, x = .ok a ∧ f a = b := by
  cases x <;> simp [Except.map]

/-! ## Tokens -/

theorem reads_cons {type : TokenType} {token : List Char} :
    Reads s ((type, token) :: ts) s' ↔
      (scan s).type = type ∧ (scan s).token = token ∧ Reads (scan s).input ts s' := by
  show ((scan s).type, (scan s).token) = (type, token) ∧ Reads (scan s).input ts s' ↔ _
  rw [Prod.mk.injEq, and_assoc]

/-- The types of the tokens that a value may begin with. -/
def TokenType.Begins (t : TokenType) : Prop :=
  t ≠ .end_object ∧ t ≠ .end_array ∧ t ≠ .value_separator ∧ t ≠ .end_of_input

theorem tokens_eq_cons (t : Tree) : ∃ x xs, t.tokens = x :: xs ∧ x.1.Begins := by
  cases t with
  | boolean b =>
    cases b with
    | false => exact ⟨_, [], rfl, by simp [TokenType.Begins]⟩
    | true => exact ⟨_, [], rfl, by simp [TokenType.Begins]⟩
  | null | string | number => exact ⟨_, [], rfl, by simp [TokenType.Begins]⟩
  | array => exact ⟨_, _, rfl, by simp [TokenType.Begins, beginArray]⟩
  | object => exact ⟨_, _, rfl, by simp [TokenType.Begins, beginObject]⟩

theorem type_of_reads {t : Tree} (h : Reads s (t.tokens ++ ts) s') : (scan s).type.Begins := by
  obtain ⟨x, xs, hx, hbegins⟩ := tokens_eq_cons t
  rw [hx] at h
  exact (reads_cons.mp h).1 ▸ hbegins

theorem length_tokens_pos (t : Tree) : 0 < t.tokens.length := by
  obtain ⟨x, xs, hx, -⟩ := tokens_eq_cons t
  rw [hx]
  exact Nat.succ_pos _

/-- The types of the tokens that may stand behind a number. -/
def TokenType.Follows (t : TokenType) : Prop := t ≠ .parse_error ∧ t ≠ .value_number

theorem scanNumber_type (sign : List Char) (c : Char) (s : List Char) :
    (scanNumber sign c s).type = .value_number := by
  unfold scanNumber
  split <;> rfl

theorem scan_digit {c : Char} (hc : c.isDigit = true) (s : List Char) :
    (scan (c :: s)).type = .value_number := by
  have hrange := isDigit_iff.mp hc
  have hne : ∀ d : Char, d.toNat < 48 ∨ 57 < d.toNat → c ≠ d := by
    rintro d hd rfl
    omega
  have hblank : isblank c = false := by
    simp [isblank, hne ' ' (by decide), hne '\t' (by decide), hne '\n' (by decide),
      hne '\r' (by decide)]
  rw [scan_token hblank (hne _ (by decide)), scanToken.eq_def]
  split <;> first
    | exact absurd hrange (by decide)
    | rw [if_pos hc, scanNumber_type]

/-- Neither a point nor a digit is in front of what follows a number. -/
theorem head_of_follows (h : (scan s).type.Follows) :
    s.head?.any (fun c => c.isDigit || c = '.') = false := by
  cases s with
  | nil => rfl
  | cons c s =>
    rw [List.head?_cons, Option.any_some, Bool.or_eq_false_iff]
    constructor
    · rw [Bool.eq_false_iff]
      intro hc
      exact h.2 (scan_digit hc s)
    · rw [decide_eq_false_iff_not]
      rintro rfl
      apply h.1
      rw [scan_token rfl (by decide)]
      rfl

theorem any_isDigit_of_any {o : Option Char}
    (h : o.any (fun c => c.isDigit || c = '.') = false) : o.any Char.isDigit = false := by
  cases o with
  | none => rfl
  | some c =>
    rw [Option.any_some, Bool.or_eq_false_iff] at h
    exact h.1

theorem readInteger_of_not_digit {input : List Char} (h : input.head?.any Char.isDigit = false)
    (token : List Char) : (readInteger token input : Option (Primitive F)) = toInteger token := by
  rw [readInteger, h]
  rfl

theorem get_number_eq (token : List Char) {input : List Char}
    (h : input.head?.any (fun c => c.isDigit || c = '.') = false) :
    get_number floats token input = .ok (number floats token) := by
  rw [get_number, readInteger_of_not_digit (any_isDigit_of_any h), readsOn, h, Bool.and_false,
    Lexer.number]
  cases toInteger token with
  | none => rfl
  | some p => rfl

theorem isInteger_of_toInteger {token : List Char} {p : Primitive F}
    (h : toInteger token = some p) : isInteger token = true := by
  have hall : ∀ ds : List Char, ds.all Char.isDigit = true → isInteger ds = true := by
    intro ds hds
    rw [isInteger, List.all_eq_true]
    intro c hc
    exact List.all_eq_true.mp hds c ((List.dropWhile_sublist _).subset hc)
  unfold toInteger at h
  split at h
  · rename_i ds
    simp only at h
    split at h
    · rename_i hds
      exact hall ds hds.1
    · cases h
  · simp only at h
    split at h
    · rename_i hds
      exact hall token hds.1
    · cases h

/-- With a digit behind it, an integer is not a number. -/
theorem get_number_of_digit {input : List Char} (h : input.head?.any Char.isDigit = true)
    (token : List Char) : get_number floats token input =
      if isInteger token then
        .error (.invalid_argument ("parse error - " ++ String.ofList token ++ " is not a number"))
      else .ok (.number_float (floats.strtod token)) := by
  have hreads : readsOn token input = isInteger token := by
    cases hhead : input.head? with
    | none =>
      rw [hhead] at h
      cases h
    | some c =>
      rw [hhead, Option.any_some] at h
      rw [readsOn, hhead, Option.any_some, h, Bool.true_or, Bool.and_true]
  rw [get_number, readInteger, if_pos h, hreads]

theorem get_number_of_ok {token input : List Char} {p : Primitive F}
    (h : get_number floats token input = .ok p) : p = number floats token := by
  rw [Lexer.number]
  cases hdigit : input.head?.any Char.isDigit with
  | true =>
    rw [get_number_of_digit hdigit] at h
    split at h
    · cases h
    · rename_i hinteger
      cases h
      cases hread : (toInteger token : Option (Primitive F)) with
      | some q => exact absurd (isInteger_of_toInteger hread) hinteger
      | none => rfl
  | false =>
    rw [get_number, readInteger_of_not_digit hdigit] at h
    cases hread : (toInteger token : Option (Primitive F)) with
    | some q =>
      rw [hread] at h
      cases h
      rfl
    | none =>
      rw [hread] at h
      simp only at h
      split at h
      · cases h
      · cases h
        rfl

/-! ## Layouts are parsed -/

/-- On the tokens of `t` the parser does what the value of `t` is. -/
def Exact (floats : Floats F) (t : Tree) : Prop :=
  ∀ fuel s s', Reads s t.tokens s' → t.tokens.length ≤ fuel → (scan s').type.Follows →
    parse_internal floats fuel (scan s) = (t.value floats).map fun v => (v, scan s')

theorem parse_elements_eq {es : List Tree} (hes : ∀ t ∈ es, Exact floats t) (hne : es ≠ [])
    {fuel : Nat} {p : Scanned} (hp : p.next = scan s) (h : Reads s (elementTokens es) s')
    (hfuel : (elementTokens es).length < fuel) (hend : (scan s').type = .end_array)
    (result : List (Value F)) :
    parse_elements floats fuel p result =
      (elementValues floats es).map fun vs => (result ++ vs, scan s') := by
  induction es generalizing s fuel p result with
  | nil => exact absurd rfl hne
  | cons t es ih =>
    obtain ⟨ht, hes⟩ := List.forall_mem_cons.mp hes
    cases fuel with
    | zero => exact absurd hfuel (Nat.not_lt_zero _)
    | succ fuel =>
      rw [elementTokens] at h hfuel
      obtain ⟨r, hr, hrest⟩ := h.of_append
      simp only [List.length_append] at hfuel
      cases es with
      | nil =>
        cases hrest
        have hvalue := ht fuel s s' hr (by omega) (by rw [hend]; exact ⟨by decide, by decide⟩)
        rw [parse_elements, hp, hvalue, elementValues, elementValues]
        cases t.value floats with
        | error e => rfl
        | ok v =>
          simp only [Except.map, ok_bind, hend]
          rfl
      | cons t' es =>
        obtain ⟨htype, -, hrest⟩ := reads_cons.mp hrest
        have hvalue := ht fuel s r hr (by omega) (by rw [htype]; exact ⟨by decide, by decide⟩)
        have hnext : (scan r).next = scan (scan r).input := by
          rw [Scanned.next, if_pos htype]
          rfl
        rw [separator_cons, List.length_singleton] at hfuel
        rw [parse_elements, hp, hvalue, elementValues]
        cases t.value floats with
        | error e => rfl
        | ok v =>
          simp only [Except.map, ok_bind, htype, if_true]
          rw [ih hes (List.cons_ne_nil _ _) hnext hrest (by omega)]
          cases elementValues floats (t' :: es) with
          | error e => rfl
          | ok vs =>
            simp only [Except.map, ok_bind, List.append_assoc]
            rfl

theorem parse_members_eq {ms : List (List Char × Tree)} (hms : ∀ m ∈ ms, Exact floats m.2)
    (hne : ms ≠ []) {fuel : Nat} {p : Scanned} (hp : p.next = scan s)
    (h : Reads s (memberTokens ms) s') (hfuel : (memberTokens ms).length < fuel)
    (hend : (scan s').type = .end_object) (result : Members F) :
    parse_members floats fuel p result =
      (memberValues floats ms result).map fun vs => (vs, scan s') := by
  induction ms generalizing s fuel p result with
  | nil => exact absurd rfl hne
  | cons m ms ih =>
    obtain ⟨key, t⟩ := m
    obtain ⟨ht, hms⟩ := List.forall_mem_cons.mp hms
    have ht : Exact floats t := ht
    cases fuel with
    | zero => exact absurd hfuel (Nat.not_lt_zero _)
    | succ fuel =>
      rw [memberTokens] at h hfuel
      obtain ⟨hstring, hkey, h⟩ := reads_cons.mp h
      obtain ⟨hcolon, -, h⟩ := reads_cons.mp h
      obtain ⟨r, hr, hrest⟩ := h.of_append
      simp only [List.length_cons, List.length_append] at hfuel
      have hexpect : (scan s).expect .value_string = .ok () := by
        rw [Scanned.expect, if_neg (by rw [hstring]; simp)]
      have hexpect' : (scan s).get_token.expect .name_separator = .ok () := by
        rw [Scanned.expect, if_neg (by rw [Scanned.get_token, hcolon]; simp)]
      have hget : (scan s).get_string = (Lexer.get_string key).map String.ofList := by
        rw [Scanned.get_string, hkey]
      rw [parse_members, hp, hexpect, ok_bind, hget, memberValues]
      cases Lexer.get_string key with
      | error e => rfl
      | ok k =>
        simp only [Except.map, ok_bind, hexpect']
        cases ms with
        | nil =>
          cases hrest
          have hvalue := ht fuel _ s' hr (by omega) (by rw [hend]; exact ⟨by decide, by decide⟩)
          rw [Scanned.get_token, Scanned.get_token, hvalue]
          cases t.value floats with
          | error e => rfl
          | ok v =>
            simp only [Except.map, ok_bind, hend]
            rfl
        | cons m' ms =>
          obtain ⟨htype, -, hrest⟩ := reads_cons.mp hrest
          have hvalue := ht fuel _ r hr (by omega) (by rw [htype]; exact ⟨by decide, by decide⟩)
          have hnext : (scan r).next = scan (scan r).input := by
            rw [Scanned.next, if_pos htype]
            rfl
          rw [separator_cons, List.length_singleton] at hfuel
          rw [Scanned.get_token, Scanned.get_token, hvalue]
          cases t.value floats with
          | error e => rfl
          | ok v =>
            simp only [Except.map, ok_bind, htype, if_true]
            rw [ih hms (List.cons_ne_nil _ _) hnext hrest (by omega)]
            rfl

theorem exact (floats : Floats F) (t : Tree) : Exact floats t := by
  induction t with
  | null =>
    intro fuel s s' h hfuel _
    obtain ⟨fuel, rfl⟩ := Nat.exists_eq_add_of_lt (Nat.lt_of_lt_of_le (length_tokens_pos _) hfuel)
    obtain ⟨htype, -, h⟩ := reads_cons.mp h
    cases h
    simp only [parse_internal, htype]
    rfl
  | boolean b =>
    intro fuel s s' h hfuel _
    obtain ⟨fuel, rfl⟩ := Nat.exists_eq_add_of_lt (Nat.lt_of_lt_of_le (length_tokens_pos _) hfuel)
    cases b with
    | true =>
      obtain ⟨htype, -, h⟩ := reads_cons.mp h
      cases h
      simp only [parse_internal, htype]
      rfl
    | false =>
      obtain ⟨htype, -, h⟩ := reads_cons.mp h
      cases h
      simp only [parse_internal, htype]
      rfl
  | string token =>
    intro fuel s s' h hfuel _
    obtain ⟨fuel, rfl⟩ := Nat.exists_eq_add_of_lt (Nat.lt_of_lt_of_le (length_tokens_pos _) hfuel)
    obtain ⟨htype, htoken, h⟩ := reads_cons.mp h
    cases h
    simp only [parse_internal, htype, Scanned.get_string, htoken, value]
    cases Lexer.get_string token with
    | error e => rfl
    | ok k => rfl
  | number token =>
    intro fuel s s' h hfuel hend
    obtain ⟨fuel, rfl⟩ := Nat.exists_eq_add_of_lt (Nat.lt_of_lt_of_le (length_tokens_pos _) hfuel)
    obtain ⟨htype, htoken, h⟩ := reads_cons.mp h
    cases h
    simp only [parse_internal, htype, Scanned.get_number, htoken, value,
      get_number_eq token (head_of_follows hend)]
    rfl
  | array es hes =>
    intro fuel s s' h hfuel _
    obtain ⟨fuel, rfl⟩ := Nat.exists_eq_add_of_lt (Nat.lt_of_lt_of_le (length_tokens_pos _) hfuel)
    obtain ⟨htype, -, h⟩ := reads_cons.mp h
    obtain ⟨r, hr, hclose⟩ := h.of_append
    obtain ⟨hend, -, hs'⟩ := reads_cons.mp hclose
    cases hs'
    rw [tokens, List.length_cons, List.length_append, List.length_singleton] at hfuel
    simp only [parse_internal, htype]
    cases es with
    | nil =>
      cases hr
      rw [Scanned.get_token, if_pos hend]
      rfl
    | cons t es =>
      obtain ⟨-, hnot, hcomma, -⟩ := type_of_reads hr
      have hnext : (scan s).get_token.next = scan (scan s).input := by
        rw [Scanned.next, Scanned.get_token, if_neg hcomma]
      have hunexpect : (scan s).get_token.unexpect .value_separator = .ok () := by
        rw [Scanned.unexpect, Scanned.get_token, if_neg (Ne.symm hcomma)]
      have hexpect : (scan r).expect .end_array = .ok () := by
        rw [Scanned.expect, if_neg (by rw [hend]; simp)]
      have hnot : (scan s).get_token.type ≠ .end_array := hnot
      rw [if_neg hnot, hunexpect, ok_bind,
        parse_elements_eq hes (List.cons_ne_nil _ _) hnext hr (by omega) hend, value]
      cases elementValues floats (t :: es) with
      | error e => rfl
      | ok vs =>
        simp only [Except.map, ok_bind, hexpect]
        rfl
  | object ms hms =>
    intro fuel s s' h hfuel _
    obtain ⟨fuel, rfl⟩ := Nat.exists_eq_add_of_lt (Nat.lt_of_lt_of_le (length_tokens_pos _) hfuel)
    obtain ⟨htype, -, h⟩ := reads_cons.mp h
    obtain ⟨r, hr, hclose⟩ := h.of_append
    obtain ⟨hend, -, hs'⟩ := reads_cons.mp hclose
    cases hs'
    rw [tokens, List.length_cons, List.length_append, List.length_singleton] at hfuel
    simp only [parse_internal, htype]
    cases ms with
    | nil =>
      cases hr
      rw [Scanned.get_token, if_pos hend]
      rfl
    | cons m ms =>
      have hstring : (scan s).get_token.type = .value_string := (reads_cons.mp hr).1
      have hnext : (scan s).get_token.next = scan (scan s).input := by
        rw [Scanned.next, if_neg (by rw [hstring]; simp)]
        rfl
      have hunexpect : (scan s).get_token.unexpect .value_separator = .ok () := by
        rw [Scanned.unexpect, if_neg (by rw [hstring]; simp)]
      have hexpect : (scan r).expect .end_object = .ok () := by
        rw [Scanned.expect, if_neg (by rw [hend]; simp)]
      rw [if_neg (by rw [hstring]; simp), hunexpect, ok_bind,
        parse_members_eq hms (List.cons_ne_nil _ _) hnext hr (by omega) hend, value]
      cases memberValues floats (m :: ms) [] with
      | error e => rfl
      | ok vs =>
        simp only [Except.map, ok_bind, hexpect]
        rfl

/-! ## Nothing else is parsed -/

/-- The text of the tokens that have only one. -/
def TokenType.text : TokenType → Option (List Char)
  | .literal_true => some ['t', 'r', 'u', 'e']
  | .literal_false => some ['f', 'a', 'l', 's', 'e']
  | .literal_null => some ['n', 'u', 'l', 'l']
  | .begin_array => some ['[']
  | .begin_object => some ['{']
  | .end_array => some [']']
  | .end_object => some ['}']
  | .name_separator => some [':']
  | .value_separator => some [',']
  | .end_of_input => some ['\x00']
  | .value_string | .value_number | .parse_error => none

theorem scanString_text (s : List Char) : (scanString s).type.text = none := by
  unfold scanString
  split <;> rfl

theorem scanMinus_text (s : List Char) : (scanMinus s).type.text = none := by
  unfold scanMinus
  split
  · rfl
  · split
    · rw [scanNumber_type]
      rfl
    · rfl

theorem scanLiteral_text {type : TokenType} {c : Char} {word : List Char}
    (htype : type.text = some (c :: word)) {s x : List Char}
    (h : (scanLiteral type c word s).type.text = some x) :
    (scanLiteral type c word s).token = x := by
  unfold scanLiteral at h ⊢
  split at h
  · rw [if_pos ‹_›]
    exact Option.some.inj (htype.symm.trans h)
  · cases h

theorem scanToken_text {c : Char} {s x : List Char} (h : (scanToken c s).type.text = some x) :
    (scanToken c s).token = x := by
  unfold scanToken at h ⊢
  split at h
  · exact Option.some.inj h
  · rw [scanString_text] at h
    cases h
  · exact Option.some.inj h
  · rw [scanMinus_text] at h
    cases h
  · exact Option.some.inj h
  · exact Option.some.inj h
  · exact Option.some.inj h
  · exact scanLiteral_text rfl h
  · exact scanLiteral_text rfl h
  · exact scanLiteral_text rfl h
  · exact Option.some.inj h
  · exact Option.some.inj h
  · split at h
    · rw [scanNumber_type] at h
      cases h
    · cases h

/-- What holds of every single token holds of what is scanned. -/
theorem scanFrom_spec {P : Scanned → Prop} (hend : P ⟨.end_of_input, ['\x00'], []⟩)
    (htoken : ∀ c s, P (scanToken c s)) (skip : Nat) (s : List Char) : P (scanFrom skip s) := by
  induction s generalizing skip with
  | nil =>
    cases skip <;> exact hend
  | cons c s ih =>
    cases skip with
    | succ skip => exact ih skip
    | zero =>
      rw [scanFrom]
      split
      · exact ih 0
      · split
        · exact ih 2
        · exact htoken c s

theorem scan_text {type : TokenType} {x : List Char} (htype : (scan s).type = type)
    (hx : type.text = some x) : (scan s).token = x := by
  have h := scanFrom_spec (P := fun r => ∀ x, r.type.text = some x → r.token = x)
    (fun x hx => Option.some.inj hx) (fun c s x hx => scanToken_text hx) 0 s
  exact h x (htype ▸ hx)

theorem expect_eq_ok {p : Scanned} {t : TokenType} {u : Unit} (h : p.expect t = .ok u) :
    p.type = t := by
  unfold Scanned.expect at h
  split at h
  · cases h
  · rename_i hne
    exact (not_not.mp hne).symm

/-- There is no comma in front of the first member or element. -/
theorem next_of_unexpect {p : Scanned} {u : Unit} (h : p.unexpect .value_separator = .ok u) :
    p.next = p := by
  unfold Scanned.unexpect at h
  split at h
  · cases h
  · rename_i hne
    rw [Scanned.next, if_neg (Ne.symm hne)]

theorem get_string_eq_ok {p : Scanned} {k : String} (h : p.get_string = .ok k) :
    ∃ x, Lexer.get_string p.token = .ok x ∧ String.ofList x = k := map_eq_ok.mp h

/-- What the parser has read when it returns. -/
structure Sound (floats : Floats F) (fuel : Nat) : Prop where
  value : ∀ s v q, parse_internal floats fuel (scan s) = .ok (v, q) →
    ∃ (t : Tree) (s' : List Char), Reads s t.tokens s' ∧ t.value floats = .ok v ∧ q = scan s'
  members : ∀ p s result vs q, p.next = scan s →
    parse_members floats fuel p result = .ok (vs, q) → ∃ m ms s',
      Reads s (memberTokens (m :: ms)) s' ∧ memberValues floats (m :: ms) result = .ok vs ∧
      q = scan s'
  elements : ∀ p s result vs q, p.next = scan s →
    parse_elements floats fuel p result = .ok (vs, q) → ∃ t ts s' us,
      Reads s (elementTokens (t :: ts)) s' ∧ elementValues floats (t :: ts) = .ok us ∧
      vs = result ++ us ∧ q = scan s'

variable {fuel : Nat}

theorem Sound.elements_step (h : Sound floats fuel) {p q : Scanned} {result vs : List (Value F)}
    (hp : p.next = scan s) (hparse : parse_elements floats (fuel + 1) p result = .ok (vs, q)) :
    ∃ t ts s' us, Reads s (elementTokens (t :: ts)) s' ∧
      elementValues floats (t :: ts) = .ok us ∧ vs = result ++ us ∧ q = scan s' := by
  rw [parse_elements, hp] at hparse
  obtain ⟨⟨v, q'⟩, hvalue, hparse⟩ := bind_eq_ok.mp hparse
  obtain ⟨t, r, hr, hv, rfl⟩ := h.value s v q' hvalue
  simp only at hparse
  split at hparse
  · rename_i hcomma
    have hnext : (scan r).next = scan (scan r).input := by
      rw [Scanned.next, if_pos hcomma]
      rfl
    obtain ⟨t', ts, s', us, hreads, hus, rfl, rfl⟩ := h.elements _ _ _ _ _ hnext hparse
    have hsep : Reads r (comma :: elementTokens (t' :: ts)) s' :=
      reads_cons.mpr ⟨hcomma, scan_text hcomma rfl, hreads⟩
    refine ⟨t, t' :: ts, s', v :: us, hr.append hsep, ?_, List.append_assoc .., rfl⟩
    rw [elementValues, hv, ok_bind, hus]
    rfl
  · cases hparse
    refine ⟨t, [], r, [v], hr.append rfl, ?_, rfl, rfl⟩
    rw [elementValues, hv, ok_bind]
    rfl

theorem Sound.members_step (h : Sound floats fuel) {p q : Scanned} {result vs : Members F}
    (hp : p.next = scan s) (hparse : parse_members floats (fuel + 1) p result = .ok (vs, q)) :
    ∃ m ms s', Reads s (memberTokens (m :: ms)) s' ∧
      memberValues floats (m :: ms) result = .ok vs ∧ q = scan s' := by
  rw [parse_members, hp] at hparse
  obtain ⟨_, hstring, hparse⟩ := bind_eq_ok.mp hparse
  obtain ⟨k, hget, hparse⟩ := bind_eq_ok.mp hparse
  obtain ⟨x, hkey, hx⟩ := get_string_eq_ok hget
  obtain ⟨_, hname, hparse⟩ := bind_eq_ok.mp hparse
  obtain ⟨⟨v, q'⟩, hvalue, hparse⟩ := bind_eq_ok.mp hparse
  obtain ⟨t, r, hr, hv, rfl⟩ := h.value _ v q' hvalue
  have hcolon := expect_eq_ok hname
  have hfront : ∀ {ts : List Lexeme} {s' : List Char}, Reads r ts s' →
      Reads s ((.value_string, (scan s).token) :: colon :: (t.tokens ++ ts)) s' := by
    intro ts s' hts
    exact reads_cons.mpr ⟨expect_eq_ok hstring, rfl,
      reads_cons.mpr ⟨hcolon, scan_text hcolon rfl, hr.append hts⟩⟩
  simp only at hparse
  split at hparse
  · rename_i hcomma
    have hnext : (scan r).next = scan (scan r).input := by
      rw [Scanned.next, if_pos hcomma]
      rfl
    obtain ⟨m', ms, s', hreads, hvs, rfl⟩ := h.members _ _ _ _ _ hnext hparse
    have hsep : Reads r (comma :: memberTokens (m' :: ms)) s' :=
      reads_cons.mpr ⟨hcomma, scan_text hcomma rfl, hreads⟩
    refine ⟨((scan s).token, t), m' :: ms, s', hfront hsep, ?_, rfl⟩
    rw [memberValues, hkey, ok_bind, hv, ok_bind, hx, hvs]
  · cases hparse
    refine ⟨((scan s).token, t), [], r, hfront rfl, ?_, rfl⟩
    rw [memberValues, hkey, ok_bind, hv, ok_bind, hx]
    rfl

/-- A token that is a value by itself. -/
theorem reads_single {type : TokenType} {token : List Char} (htype : (scan s).type = type)
    (htoken : (scan s).token = token) : Reads s [(type, token)] (scan s).input :=
  reads_cons.mpr ⟨htype, htoken, rfl⟩

theorem Sound.value_step (h : Sound floats fuel) {v : Value F} {q : Scanned}
    (hparse : parse_internal floats (fuel + 1) (scan s) = .ok (v, q)) :
    ∃ (t : Tree) (s' : List Char), Reads s t.tokens s' ∧ t.value floats = .ok v ∧ q = scan s' := by
  rw [parse_internal] at hparse
  split at hparse
  · rename_i htype
    have hopen : ∀ {ts : List Lexeme} {s' : List Char}, Reads (scan s).input ts s' →
        Reads s (beginObject :: ts) s' := fun hts =>
      reads_cons.mpr ⟨htype, scan_text htype rfl, hts⟩
    simp only at hparse
    split at hparse
    · rename_i hend
      cases hparse
      exact ⟨.object [], _, hopen (reads_single hend (scan_text hend rfl)), rfl, rfl⟩
    · obtain ⟨_, hcomma, hparse⟩ := bind_eq_ok.mp hparse
      obtain ⟨⟨vs, q'⟩, hmembers, hparse⟩ := bind_eq_ok.mp hparse
      obtain ⟨_, hend, hparse⟩ := bind_eq_ok.mp hparse
      cases hparse
      have hnext : (scan s).get_token.next = scan (scan s).input := next_of_unexpect hcomma
      obtain ⟨m, ms, r, hr, hvs, rfl⟩ := h.members _ _ _ _ _ hnext hmembers
      have hend := expect_eq_ok hend
      refine ⟨.object (m :: ms), _,
        hopen (hr.append (reads_single hend (scan_text hend rfl))), ?_, rfl⟩
      rw [Tree.value, hvs]
      rfl
  · rename_i htype
    have hopen : ∀ {ts : List Lexeme} {s' : List Char}, Reads (scan s).input ts s' →
        Reads s (beginArray :: ts) s' := fun hts =>
      reads_cons.mpr ⟨htype, scan_text htype rfl, hts⟩
    simp only at hparse
    split at hparse
    · rename_i hend
      cases hparse
      exact ⟨.array [], _, hopen (reads_single hend (scan_text hend rfl)), rfl, rfl⟩
    · obtain ⟨_, hcomma, hparse⟩ := bind_eq_ok.mp hparse
      obtain ⟨⟨vs, q'⟩, helements, hparse⟩ := bind_eq_ok.mp hparse
      obtain ⟨_, hend, hparse⟩ := bind_eq_ok.mp hparse
      cases hparse
      have hnext : (scan s).get_token.next = scan (scan s).input := next_of_unexpect hcomma
      obtain ⟨t, ts, r, us, hr, hus, hvs, rfl⟩ := h.elements _ _ _ _ _ hnext helements
      have hend := expect_eq_ok hend
      refine ⟨.array (t :: ts), _,
        hopen (hr.append (reads_single hend (scan_text hend rfl))), ?_, rfl⟩
      rw [Tree.value, hus, hvs]
      rfl
  · rename_i htype
    cases hparse
    exact ⟨.null, _, reads_single htype (scan_text htype rfl), rfl, rfl⟩
  · rename_i htype
    obtain ⟨k, hget, hparse⟩ := bind_eq_ok.mp hparse
    obtain ⟨x, hx, rfl⟩ := get_string_eq_ok hget
    cases hparse
    refine ⟨.string (scan s).token, _, reads_single htype rfl, ?_, rfl⟩
    rw [Tree.value, hx]
    rfl
  · rename_i htype
    cases hparse
    exact ⟨.boolean true, _, reads_single htype (scan_text htype rfl), rfl, rfl⟩
  · rename_i htype
    cases hparse
    exact ⟨.boolean false, _, reads_single htype (scan_text htype rfl), rfl, rfl⟩
  · rename_i htype
    obtain ⟨number, hget, hparse⟩ := bind_eq_ok.mp hparse
    cases hparse
    refine ⟨.number (scan s).token, _, reads_single htype rfl, ?_, rfl⟩
    rw [Tree.value, get_number_of_ok hget]
  · cases hparse

theorem sound (floats : Floats F) (fuel : Nat) : Sound floats fuel := by
  induction fuel with
  | zero => exact ⟨fun _ _ _ h => (by cases h), fun _ _ _ _ _ _ h => (by cases h),
      fun _ _ _ _ _ _ h => (by cases h)⟩
  | succ fuel ih => exact ⟨fun _ _ _ h => ih.value_step h,
      fun _ _ _ _ _ hp h => ih.members_step hp h, fun _ _ _ _ _ hp h => ih.elements_step hp h⟩

/-- On a layout of `t` the parser does what the value of `t` is. -/
theorem parse_of_layout (floats : Floats F) {t : Tree} (h : Layout s t) :
    parse floats s = t.value floats := by
  obtain ⟨s', hreads, hend⟩ := h
  have hfuel := length_tokens_le hreads
  have hparse := exact floats t (2 * s.length + 2) s s' hreads (by omega)
    (by rw [hend]; exact ⟨by decide, by decide⟩)
  have hexpect : (scan s').expect .end_of_input = .ok () := by
    rw [Scanned.expect, if_neg (by rw [hend]; simp)]
  rw [parse, hparse]
  cases t.value floats with
  | error e => rfl
  | ok v =>
    simp only [Except.map, ok_bind, hexpect]
    rfl

/-- What is parsed is the value of a tree that the text is a layout of. -/
theorem parse_eq_ok_iff (floats : Floats F) (s : List Char) (v : Value F) :
    parse floats s = .ok v ↔ ∃ t, Layout s t ∧ t.value floats = .ok v := by
  constructor
  · intro h
    obtain ⟨⟨v', q⟩, hvalue, h⟩ := bind_eq_ok.mp h
    obtain ⟨t, s', hreads, hv, rfl⟩ := (sound floats _).value s v' q hvalue
    obtain ⟨_, hend, h⟩ := bind_eq_ok.mp h
    cases h
    exact ⟨t, ⟨s', hreads, expect_eq_ok hend⟩, hv⟩
  · rintro ⟨t, hlayout, hv⟩
    rw [parse_of_layout floats hlayout, hv]

end Json
