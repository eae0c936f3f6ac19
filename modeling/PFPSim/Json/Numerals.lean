import PFPSim.Json.Writer

/-!
# The texts of numbers

The grammar of numbers (`Numeral`). A numeral is scanned as one token when nothing behind it
could belong to a number (`scan_numeral`), and a written integer is read as itself
(`toInteger_shown`).
-/

namespace Json.Lexer

/-! ## The grammar -/

def Digits (ds : List Char) : Prop := ds ≠ [] ∧ ∀ c ∈ ds, c.isDigit = true

def IntegerPart (int : List Char) : Prop :=
  int = ['0'] ∨ ∃ c ds, int = c :: ds ∧ c ≠ '0' ∧ ∀ d ∈ int, d.isDigit = true

def FractionPart (frac : List Char) : Prop := frac = [] ∨ ∃ ds, Digits ds ∧ frac = '.' :: ds

def ExponentPart (exp : List Char) : Prop :=
  exp = [] ∨ ∃ e sign ds, (e = 'e' ∨ e = 'E') ∧ (sign = [] ∨ sign = ['+'] ∨ sign = ['-']) ∧
    Digits ds ∧ exp = e :: (sign ++ ds)

def Numeral (token : List Char) : Prop :=
  ∃ sign int frac exp, (sign = [] ∨ sign = ['-']) ∧ IntegerPart int ∧ FractionPart frac ∧
    ExponentPart exp ∧ token = sign ++ (int ++ (frac ++ exp))

/-- A text that does not go on with a number. -/
def Stops (s : List Char) : Prop :=
  ∀ c, s.head? = some c → c.isDigit = false ∧ c ≠ '.' ∧ c ≠ 'e' ∧ c ≠ 'E'

theorem Stops.nil : Stops [] := fun c h => by cases h

theorem Stops.cons {c : Char} {s : List Char}
    (h : c.isDigit = false ∧ c ≠ '.' ∧ c ≠ 'e' ∧ c ≠ 'E') : Stops (c :: s) := by
  intro d hd
  cases hd
  exact h

/-- A text that does not go on with a digit. -/
def Bounded (s : List Char) : Prop := ∀ c, s.head? = some c → c.isDigit = false

theorem Stops.bounded {s : List Char} (h : Stops s) : Bounded s := fun c hc => (h c hc).1

/-! ## Scanning -/

section

variable {ds s rest : List Char}

theorem takeWhile_digits (hds : ∀ c ∈ ds, c.isDigit = true) (hs : Bounded s) :
    (ds ++ s).takeWhile Char.isDigit = ds := by
  rw [List.takeWhile_append_of_pos hds]
  cases s with
  | nil => rw [List.takeWhile_nil, List.append_nil]
  | cons c s =>
    rw [List.takeWhile_cons_of_neg (by rw [hs c rfl]; exact Bool.false_ne_true), List.append_nil]

theorem dropWhile_digits (hds : ∀ c ∈ ds, c.isDigit = true) (hs : Bounded s) :
    (ds ++ s).dropWhile Char.isDigit = s := by
  rw [List.dropWhile_append_of_pos hds]
  cases s with
  | nil => rfl
  | cons c s =>
    rw [List.dropWhile_cons_of_neg (by rw [hs c rfl]; exact Bool.false_ne_true)]

theorem digits_eq (front : List Char) (hds : Digits ds) (hs : Bounded s) :
    digits front (ds ++ s) = some (front ++ ds, s) := by
  rw [digits, takeWhile_digits hds.2 hs, dropWhile_digits hds.2 hs, if_neg hds.1]

theorem exponent_eq_none (hs : Stops s) : exponent s = none := by
  cases s with
  | nil => rfl
  | cons c s =>
    obtain ⟨-, -, he, hE⟩ := hs c rfl
    rw [exponent.eq_def]
    exact if_neg (by simp [he, hE])

theorem exponent_eq {exp : List Char} (hexp : ExponentPart exp) (hs : Stops s) :
    (exponent (exp ++ s)).getD ([], exp ++ s) = (exp, s) := by
  obtain rfl | ⟨e, sign, ds, he, hsign, hds, rfl⟩ := hexp
  · rw [List.nil_append, exponent_eq_none hs]
    rfl
  · suffices h : exponent (e :: (sign ++ ds) ++ s) = some (e :: (sign ++ ds), s) by
      rw [h]
      rfl
    rw [exponent.eq_def]
    simp only [List.cons_append, if_pos he]
    obtain rfl | rfl | rfl := hsign
    · cases ds with
      | nil => exact absurd rfl hds.1
      | cons d ds =>
        have hd : d.isDigit = true := hds.2 d List.mem_cons_self
        have hne : ¬(d = '+' ∨ d = '-') := by
          rintro (rfl | rfl)
          · cases hd
          · cases hd
        simp only [List.nil_append, List.cons_append]
        rw [if_neg hne]
        exact digits_eq [e] hds hs.bounded
    · exact digits_eq [e, '+'] hds hs.bounded
    · exact digits_eq [e, '-'] hds hs.bounded

/-- An exponent does not begin with a digit or a point. -/
theorem head_exponent {exp : List Char} (hexp : ExponentPart exp) (hs : Stops s) {c : Char}
    (hc : (exp ++ s).head? = some c) : c.isDigit = false ∧ c ≠ '.' := by
  obtain rfl | ⟨e, sign, ds, he, -, -, rfl⟩ := hexp
  · exact ⟨(hs c hc).1, (hs c hc).2.1⟩
  · cases hc
    obtain rfl | rfl := he
    · exact ⟨rfl, by decide⟩
    · exact ⟨rfl, by decide⟩

theorem fraction_eq {frac exp : List Char} (hfrac : FractionPart frac) (hexp : ExponentPart exp)
    (hs : Stops s) :
    (fraction (frac ++ (exp ++ s))).getD ([], frac ++ (exp ++ s)) = (frac, exp ++ s) := by
  obtain rfl | ⟨ds, hds, rfl⟩ := hfrac
  · suffices h : fraction (exp ++ s) = none by
      rw [List.nil_append, h]
      rfl
    cases hrest : exp ++ s with
    | nil => rfl
    | cons c rest =>
      have hpoint : c ≠ '.' := (head_exponent hexp hs (hrest ▸ rfl)).2
      rw [fraction, if_neg hpoint]
  · have hbounded : Bounded (exp ++ s) := fun c hc => (head_exponent hexp hs hc).1
    have hfraction : fraction ('.' :: (ds ++ (exp ++ s))) = some ('.' :: ds, exp ++ s) :=
      digits_eq ['.'] hds hbounded
    rw [List.cons_append, hfraction]
    rfl

theorem scanRest_eq (front : List Char) {frac exp : List Char} (hfrac : FractionPart frac)
    (hexp : ExponentPart exp) (hs : Stops s) :
    scanRest front (frac ++ (exp ++ s)) = ⟨.value_number, front ++ (frac ++ exp), s⟩ := by
  rw [scanRest, fraction_eq hfrac hexp hs]
  simp only
  rw [exponent_eq hexp hs, List.append_assoc]

theorem scanNumber_eq (sign : List Char) {int frac exp : List Char} (hint : IntegerPart int)
    (hfrac : FractionPart frac) (hexp : ExponentPart exp) (hs : Stops s) :
    ∃ c ds, int ++ (frac ++ (exp ++ s)) = c :: ds ∧ c.isDigit = true ∧
      scanNumber sign c ds = ⟨.value_number, sign ++ (int ++ (frac ++ exp)), s⟩ := by
  obtain rfl | ⟨c, ds, rfl, hc, hds⟩ := hint
  · refine ⟨'0', frac ++ (exp ++ s), rfl, rfl, ?_⟩
    rw [scanNumber, if_pos rfl, scanRest_eq _ hfrac hexp hs, List.append_assoc]
  · obtain ⟨hdigit, hds⟩ := List.forall_mem_cons.mp hds
    have hbounded : Bounded (frac ++ (exp ++ s)) := by
      obtain rfl | ⟨ds', hds', rfl⟩ := hfrac
      · exact fun c hc => (head_exponent hexp hs hc).1
      · intro c hc
        cases hc
        rfl
    refine ⟨c, ds ++ (frac ++ (exp ++ s)), rfl, hdigit, ?_⟩
    rw [scanNumber, if_neg hc, takeWhile_digits hds hbounded, dropWhile_digits hds hbounded,
      scanRest_eq _ hfrac hexp hs, List.append_assoc]

theorem scanToken_digit {c : Char} (h : c.isDigit = true) (s : List Char) :
    scanToken c s = scanNumber [] c s := by
  unfold scanToken
  split
  case h_13 => rw [if_pos h]
  all_goals cases h

theorem scan_digit {c : Char} (h : c.isDigit = true) (s : List Char) :
    scan (c :: s) = scanNumber [] c s := by
  rw [isDigit_iff] at h
  have hne : ∀ d : Char, (d.toNat < 48 ∨ 57 < d.toNat) → c ≠ d := by
    rintro d hd rfl
    omega
  have hblank : isblank c = false := by
    simp [isblank, hne ' ' (.inl (by decide)), hne '\t' (.inl (by decide)),
      hne '\n' (.inl (by decide)), hne '\r' (.inl (by decide))]
  rw [scan_token hblank (hne _ (.inr (by decide))), scanToken_digit (isDigit_iff.mpr h)]

/-- A numeral is scanned as a whole. -/
theorem scan_numeral {token : List Char} (h : Numeral token) (hs : Stops s) :
    scan (token ++ s) = ⟨.value_number, token, s⟩ := by
  obtain ⟨sign, int, frac, exp, hsign, hint, hfrac, hexp, rfl⟩ := h
  obtain ⟨c, ds, heq, hc, hscan⟩ := scanNumber_eq sign hint hfrac hexp hs
  have happend : sign ++ (int ++ (frac ++ exp)) ++ s = sign ++ c :: ds := by
    rw [← heq]
    simp only [List.append_assoc]
  rw [happend]
  obtain rfl | rfl := hsign
  · exact (scan_digit hc ds).trans hscan
  · have hminus : scan ('-' :: c :: ds) = scanMinus (c :: ds) := rfl
    rw [List.singleton_append, hminus, scanMinus, if_pos hc, hscan]

end

/-! ## Integers -/

open Writer (shown)

theorem digitChar_ne_zero {n : Nat} (hpos : 0 < n) (hlt : n < 10) : n.digitChar ≠ '0' := by
  have hall : ∀ n < 10, 0 < n → Nat.digitChar n ≠ '0' := by decide
  exact hall n hlt hpos

theorem head_toDigits {n : Nat} (h : 0 < n) : (Nat.toDigits 10 n).head? ≠ some '0' := by
  induction n using Nat.strongRecOn with
  | ind n ih =>
    rw [Nat.toDigits_eq_if (by decide)]
    split
    · rename_i hlt
      exact fun heq => digitChar_ne_zero h hlt (Option.some.inj heq)
    · rename_i hge
      have hdiv : 0 < n / 10 := Nat.div_pos (not_lt.mp hge) (by decide)
      rw [List.head?_append_of_ne_nil _ Nat.toDigits_ne_nil]
      exact ih (n / 10) (by omega) hdiv

theorem integerPart_toDigits (n : Nat) : IntegerPart (Nat.toDigits 10 n) := by
  obtain rfl | hpos := Nat.eq_zero_or_pos n
  · exact .inl rfl
  · cases hdigits : Nat.toDigits 10 n with
    | nil => exact absurd hdigits Nat.toDigits_ne_nil
    | cons c ds =>
      refine .inr ⟨c, ds, rfl, ?_, fun d hd => ?_⟩
      · rintro rfl
        exact head_toDigits hpos (by rw [hdigits]; rfl)
      · exact Nat.isDigit_of_mem_toDigits (by decide) (by decide) (hdigits ▸ hd)

theorem numeral_shown (n : Int) : Numeral (shown n) := by
  cases n with
  | ofNat n =>
    exact ⟨[], _, [], [], .inl rfl, integerPart_toDigits n, .inl rfl, .inl rfl,
      (List.append_nil _).symm⟩
  | negSucc n =>
    exact ⟨['-'], _, [], [], .inr rfl, integerPart_toDigits (n + 1), .inl rfl, .inl rfl,
      congrArg (List.cons '-') (List.append_nil _).symm⟩

theorem all_toDigits (n : Nat) : (Nat.toDigits 10 n).all Char.isDigit = true :=
  List.all_eq_true.mpr fun _ hc => Nat.isDigit_of_mem_toDigits (by decide) (by decide) hc

variable {F : Type}

theorem toInteger_toDigits {n : Nat} (h : n < 2 ^ 64) :
    toInteger (Nat.toDigits 10 n) = some (.number_unsigned (UInt64.ofNat n) : Primitive F) := by
  rw [toInteger.eq_def]
  split
  · rename_i ds hds
    have hminus := Nat.isDigit_of_mem_toDigits (b := 10) (n := n) (by decide) (by decide)
      (c := '-') (by rw [hds]; exact List.mem_cons_self)
    cases hminus
  · simp only
    rw [Nat.ofDigitChars_ten_toDigits, if_pos ⟨all_toDigits n, h⟩]

theorem toInteger_minus {n : Nat} (h : n ≤ 2 ^ 63) :
    toInteger ('-' :: Nat.toDigits 10 n) =
      some (.number_integer (Int64.ofInt (-n)) : Primitive F) := by
  rw [toInteger.eq_def]
  simp only
  rw [Nat.ofDigitChars_ten_toDigits, if_pos ⟨all_toDigits n, h⟩]

/-- An integer that is read again: it is unsigned, if it can be. -/
def integer (n : Int64) : Primitive F :=
  if 0 ≤ n.toInt then .number_unsigned (UInt64.ofNat n.toInt.toNat) else .number_integer n

theorem toInteger_integer (n : Int64) :
    toInteger (shown n.toInt) = some (integer n : Primitive F) := by
  have hlt : n.toInt < 2 ^ 63 := n.toInt_lt
  have hle : -2 ^ 63 ≤ n.toInt := n.le_toInt
  have hback : Int64.ofInt n.toInt = n := Int64.ofInt_toInt n
  unfold integer
  cases hn : n.toInt with
  | ofNat m =>
    rw [hn] at hlt
    have hm : m < 2 ^ 63 := Int.ofNat_lt.mp hlt
    rw [if_pos (show 0 ≤ Int.ofNat m from Int.natCast_nonneg m)]
    exact toInteger_toDigits (by omega)
  | negSucc m =>
    rw [hn] at hle hback
    have hm : m + 1 ≤ 2 ^ 63 := by omega
    rw [if_neg (by simp), ← hback]
    exact toInteger_minus hm

theorem toInteger_unsigned (n : UInt64) :
    toInteger (shown n.toNat) = some (.number_unsigned n : Primitive F) := by
  have h : toInteger (shown n.toNat) =
      some (.number_unsigned (UInt64.ofNat n.toNat) : Primitive F) :=
    toInteger_toDigits n.toNat_lt
  rw [h, UInt64.ofNat_toNat]

end Json.Lexer
