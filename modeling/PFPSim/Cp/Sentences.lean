import PFPSim.Cp.Grammar

/-!
# Sentences of the grammar

What each nonterminal derives. `Der` is unfolded symbol by symbol (`der_nt`, and a lemma
for each token), so that the rows of the grammar give an equivalence for every
nonterminal. `Core` is the result for `command`, and `sentence_iff` that a sentence is a
command with optional blanks around it and an optional newline.
-/

namespace Pfp.Cp

open Lr

/-! ## Unfolding derivations -/

theorem der_any {a b : Terminal} {Xs : List (Symbol Terminal Nonterminal)} {w : List Token}
    {vs : Values} (h : Derives grammar (fun _ _ => True) a Xs w vs) :
    Derives grammar (fun _ _ => True) b Xs w vs :=
  h.change (fun _ => True) (fun _ _ _ _ => ⟨fun _ => trivial, fun _ _ => trivial⟩)
    (fun _ _ => trivial) b

theorem der_nil {w : List Token} {vs : Values} : Der [] w vs ↔ w = [] ∧ vs = [] :=
  ⟨Derives.nil_inv, fun ⟨h₁, h₂⟩ => by rw [h₁, h₂]; exact .nil _⟩

theorem der_cons {X : Symbol Terminal Nonterminal} {Xs : List (Symbol Terminal Nonterminal)}
    {w : List Token} {vs : Values} : Der (X :: Xs) w vs ↔
      ∃ w₁ w₂ v vs', w = w₁ ++ w₂ ∧ vs = v :: vs' ∧ Der [X] w₁ [v] ∧ Der Xs w₂ vs' := by
  constructor
  · intro h
    obtain ⟨w₁, w₂, v, vs', hw, hvs, h₁, h₂⟩ := h.cons_inv
    exact ⟨w₁, w₂, v, vs', hw, hvs, der_any h₁, h₂⟩
  · rintro ⟨w₁, w₂, v, vs', rfl, rfl, h₁, h₂⟩
    exact Derives.cons (der_any h₁) h₂

theorem der_tm {a : Terminal} {w : List Token} {v : Value} :
    Der [tm a] w [v] ↔ ∃ k : Token, w = [k] ∧ v = k.value ∧ k.kind = a := by
  constructor
  · intro h
    obtain ⟨k, w', vs', rfl, hvs, hk, htail⟩ := h.token_inv
    obtain ⟨rfl, rfl⟩ := htail.nil_inv
    cases hvs
    exact ⟨k, rfl, rfl, hk⟩
  · rintro ⟨k, rfl, rfl, rfl⟩
    exact .token k (.nil _)

def rowsOf (m : Nonterminal) : List Row := rows.filter fun row => row.lhs = m

theorem der_nt {m : Nonterminal} {w : List Token} {v : Value} :
    Der [nt m] w [v] ↔ ∃ row ∈ rowsOf m, ∃ us, Der row.rhs w us ∧ row.action us = .ok v := by
  constructor
  · intro h
    cases h with
    | @node _ _ _ u _ us i p _ hp _ children hv tail =>
      obtain ⟨row, hrow, rfl⟩ := getElem?_productions.mp hp
      obtain ⟨rfl, -⟩ := tail.nil_inv
      have hact : executeAction i us = row.action us := by simp only [executeAction, hrow]
      refine ⟨row, List.mem_filter.mpr ⟨List.mem_of_getElem? hrow, by simp⟩, us, ?_, ?_⟩
      · rw [List.append_nil]
        exact der_any children
      · rw [← hact]
        exact hv
  · rintro ⟨row, hrow, us, hd, hv⟩
    obtain ⟨hmem, hlhs⟩ := List.mem_filter.mp hrow
    obtain ⟨i, hi⟩ := List.mem_iff_getElem?.mp hmem
    have hlhs' : row.lhs = m := by simpa using hlhs
    subst hlhs'
    have hact : executeAction i us = row.action us := by simp only [executeAction, hi]
    have hnode : Der [nt row.lhs] (w ++ []) [v] :=
      .node (getElem?_productions.mpr ⟨row, hi, rfl⟩) trivial (der_any hd) (hact.trans hv)
        (.nil Terminal.EOF)
    rwa [List.append_nil] at hnode

/-! ## Tokens by kind -/

theorem kind_IDENTIFIER {k : Token} : k.kind = .IDENTIFIER ↔ ∃ s, k = .IDENTIFIER s := by
  cases k <;> simp [Token.kind]; grind

theorem kind_DECIMAL {k : Token} : k.kind = .DECIMAL ↔ ∃ v, k = .DECIMAL v := by
  cases k <;> simp [Token.kind]; grind

theorem kind_HEXADECIMAL {k : Token} : k.kind = .HEXADECIMAL ↔ ∃ b, k = .HEXADECIMAL b := by
  cases k <;> simp [Token.kind]; grind

/-- The tokens of the other kinds are determined by their kind. -/
def ofKind : Terminal → Option Token
  | .INSERT_ENTRY => some .INSERT_ENTRY
  | .MODIFY_ENTRY => some .MODIFY_ENTRY
  | .DELETE_ENTRY => some .DELETE_ENTRY
  | .BEGIN_TRANSACTION => some .BEGIN_TRANSACTION
  | .END_TRANSACTION => some .END_TRANSACTION
  | .BLANK => some .BLANK
  | .EOL => some .EOL
  | .COMMENT => some .COMMENT
  | .slash => some (.char 47)
  | .ampersand => some (.char 38)
  | .quote => some (.char 39)
  | .dot => some (.char 46)
  | _ => none

theorem kind_ofKind {k k' : Token} {a : Terminal} (h : ofKind a = some k') :
    k.kind = a ↔ k = k' := by
  cases a <;> cases h <;> cases k <;> simp [Token.kind] <;> grind

theorem der_IDENTIFIER {w : List Token} {v : Value} :
    Der [tm .IDENTIFIER] w [v] ↔ ∃ s, w = [.IDENTIFIER s] ∧ v = .STRING s := by
  simp only [der_tm, kind_IDENTIFIER]
  grind [Token.value]

theorem der_DECIMAL {w : List Token} {v : Value} :
    Der [tm .DECIMAL] w [v] ↔ ∃ x, w = [.DECIMAL x] ∧ v = .INTEGER x := by
  simp only [der_tm, kind_DECIMAL]
  grind [Token.value]

theorem der_HEXADECIMAL {w : List Token} {v : Value} :
    Der [tm .HEXADECIMAL] w [v] ↔ ∃ b, w = [.HEXADECIMAL b] ∧ v = .BYTES b := by
  simp only [der_tm, kind_HEXADECIMAL]
  grind [Token.value]

theorem der_ofKind {a : Terminal} {k : Token} (h : ofKind a = some k) {w : List Token}
    {v : Value} : Der [tm a] w [v] ↔ w = [k] ∧ v = k.value := by
  simp only [der_tm, kind_ofKind h]
  grind

/-! ## Blanks and newlines -/

/-- A row with one symbol. -/
theorem der_one {X : Symbol Terminal Nonterminal} {w : List Token} {v : Value}
    {f : Values → Except Exception Value} :
    (∃ us, Der [X] w us ∧ f us = .ok v) ↔ ∃ x, Der [X] w [x] ∧ f [x] = .ok v := by
  constructor
  · rintro ⟨us, hd, hv⟩
    obtain ⟨x, rfl⟩ := List.length_eq_one_iff.mp hd.length_eq
    exact ⟨x, hd, hv⟩
  · rintro ⟨x, hd, hv⟩
    exact ⟨[x], hd, hv⟩

/-- A row with one symbol that passes its value on. -/
theorem der_pass {X : Symbol Terminal Nonterminal} {w : List Token} {v : Value} :
    (∃ us, Der [X] w us ∧ Except.ok (Values.arg us 1) = (.ok v : Except Exception Value)) ↔
      Der [X] w [v] := by
  rw [der_one (f := fun us => .ok (Values.arg us 1))]
  constructor
  · rintro ⟨x, hd, ha⟩
    cases ha
    exact hd
  · intro hd
    exact ⟨v, hd, rfl⟩

/-- A row with a token between two symbols. -/
theorem der_three {X Y : Symbol Terminal Nonterminal} {a : Terminal} {k : Token}
    (h : ofKind a = some k) {w : List Token} {v : Value}
    {f : Values → Except Exception Value} :
    (∃ us, Der [X, tm a, Y] w us ∧ f us = .ok v) ↔ ∃ w₁ u x y, w = w₁ ++ k :: u ∧
      Der [X] w₁ [x] ∧ Der [Y] u [y] ∧ f [x, k.value, y] = .ok v := by
  constructor
  · rintro ⟨us, hd, hv⟩
    obtain ⟨w₁, _, x, _, rfl, rfl, hX, hd⟩ := der_cons.mp hd
    obtain ⟨_, u, _, _, rfl, rfl, hk, hY⟩ := der_cons.mp hd
    obtain ⟨rfl, rfl⟩ := (der_ofKind h).mp hk
    obtain ⟨y, rfl⟩ := List.length_eq_one_iff.mp hY.length_eq
    exact ⟨w₁, u, x, y, rfl, hX, hY, hv⟩
  · rintro ⟨w₁, u, x, y, rfl, hX, hY, hv⟩
    exact ⟨_, der_cons.mpr ⟨w₁, k :: u, x, [k.value, y], rfl, rfl, hX, der_cons.mpr
      ⟨[k], u, _, _, rfl, rfl, (der_ofKind h).mpr ⟨rfl, rfl⟩, hY⟩⟩, hv⟩

theorem der_empty {w : List Token} {v : Value} :
    Der [nt .empty] w [v] ↔ w = [] ∧ v = .none := by
  rw [der_nt, show rowsOf .empty = [⟨.empty, [], fun _ => .ok .none⟩] from rfl]
  simp only [List.mem_singleton, exists_eq_left, der_nil]
  grind

/-- The nonterminals with one token or nothing. -/
theorem der_optional {m : Nonterminal} {a : Terminal} {k : Token} (hk : ofKind a = some k)
    (hv : k.value = .none)
    (hm : rowsOf m = [⟨m, [tm a], fun v => .ok (v.arg 1)⟩,
      ⟨m, [nt .empty], fun v => .ok (v.arg 1)⟩]) {w : List Token} {v : Value} :
    Der [nt m] w [v] ↔ (w = [] ∨ w = [k]) ∧ v = .none := by
  rw [der_nt, hm]
  simp only [List.mem_cons, List.not_mem_nil, or_false, exists_eq_or_imp, exists_eq_left,
    der_one, der_ofKind hk, der_empty, hv]
  constructor
  · rintro (⟨x, ⟨rfl, rfl⟩, h⟩ | ⟨x, ⟨rfl, rfl⟩, h⟩)
    · cases h
      exact ⟨.inr rfl, rfl⟩
    · cases h
      exact ⟨.inl rfl, rfl⟩
  · rintro ⟨rfl | rfl, rfl⟩
    · exact .inr ⟨.none, ⟨rfl, rfl⟩, rfl⟩
    · exact .inl ⟨.none, ⟨rfl, rfl⟩, rfl⟩

theorem der_optional_space {w : List Token} {v : Value} :
    Der [nt .optional_space] w [v] ↔ (w = [] ∨ w = [.BLANK]) ∧ v = .none :=
  der_optional (a := .BLANK) rfl rfl rfl

/-- What may follow a command. -/
def tails : List (List Token) := [[], [.EOL], [.BLANK], [.BLANK, .EOL]]

theorem der_optional_EOL {w : List Token} {v : Value} :
    Der [nt .optional_EOL] w [v] ↔ w ∈ tails ∧ v = .none := by
  rw [der_nt, show rowsOf .optional_EOL =
    [⟨.optional_EOL, [nt .optional_space, tm .EOL], fun v => .ok (v.arg 1)⟩,
      ⟨.optional_EOL, [nt .optional_space], fun v => .ok (v.arg 1)⟩] from rfl]
  simp only [List.mem_cons, List.not_mem_nil, or_false, exists_eq_or_imp, exists_eq_left,
    der_one, der_optional_space]
  constructor
  · rintro (⟨us, hd, ha⟩ | ⟨x, ⟨hw, rfl⟩, ha⟩)
    · obtain ⟨w₁, w₂, x, us', rfl, rfl, h₁, h₂⟩ := der_cons.mp hd
      obtain ⟨hw, rfl⟩ := der_optional_space.mp h₁
      obtain ⟨y, rfl⟩ := List.length_eq_one_iff.mp h₂.length_eq
      obtain ⟨rfl, -⟩ := (der_ofKind (k := .EOL) rfl).mp h₂
      cases ha
      refine ⟨?_, rfl⟩
      rcases hw with rfl | rfl <;> simp [tails]
    · cases ha
      refine ⟨?_, rfl⟩
      rcases hw with rfl | rfl <;> simp [tails]
  · rintro ⟨hw, rfl⟩
    have hEOL : ∀ w₁, (w₁ = [] ∨ w₁ = [.BLANK]) →
        Der [nt .optional_space, tm .EOL] (w₁ ++ [.EOL]) [.none, .none] := fun w₁ h =>
      der_cons.mpr ⟨w₁, [.EOL], .none, [.none], rfl, rfl, der_optional_space.mpr ⟨h, rfl⟩,
        (der_ofKind rfl).mpr ⟨rfl, rfl⟩⟩
    simp only [tails, List.mem_cons, List.not_mem_nil, or_false] at hw
    rcases hw with rfl | rfl | rfl | rfl
    · exact .inr ⟨.none, ⟨.inl rfl, rfl⟩, rfl⟩
    · exact .inl ⟨[.none, .none], hEOL [] (.inl rfl), rfl⟩
    · exact .inr ⟨.none, ⟨.inr rfl, rfl⟩, rfl⟩
    · exact .inl ⟨[.none, .none], hEOL [.BLANK] (.inr rfl), rfl⟩

/-! ## Literals -/

/-- What `raw_bytes` derives. -/
inductive RawBytes : List Token → Bytes → Prop
  | decimal (x : UInt64) : RawBytes [.DECIMAL x] (buf x).reverse
  | hexadecimal (b : Bytes) : RawBytes [.HEXADECIMAL b] b
  | ip_addr (x y z u : UInt64) :
      RawBytes [.DECIMAL x, .char 46, .DECIMAL y, .char 46, .DECIMAL z, .char 46, .DECIMAL u]
        [x.toUInt8, y.toUInt8, z.toUInt8, u.toUInt8]

/-- What `bytes` derives. -/
inductive Chunk : List Token → Bytes → Prop
  | raw {w : List Token} {b : Bytes} (h : RawBytes w b) : Chunk w b
  | resized {w : List Token} {b b' : Bytes} (h : RawBytes w b) (x : UInt64)
      (hr : resize b x.toNat = .ok b') : Chunk (w ++ [.char 39, .DECIMAL x]) b'

/-- What `match_key` derives. -/
inductive Key : List Token → MatchKey → Prop
  | exact {w : List Token} {b : Bytes} (h : Chunk w b) : Key w (.ExactKey b)
  | lpm {w : List Token} {b : Bytes} (h : Chunk w b) (x : UInt64) :
      Key (w ++ [.char 47, .DECIMAL x]) (.LpmKey b x)
  | ternary {w u : List Token} {b m : Bytes} (h : Chunk w b) (hm : Chunk u m) :
      Key (w ++ .char 38 :: u) (.TernaryKey b m)

/-- What `match_keys` derives. -/
inductive Keys : List Token → List MatchKey → Prop
  | nil : Keys [] []
  | one {w : List Token} {k : MatchKey} (h : Key w k) : Keys w [k]
  | snoc {w u : List Token} {ks : List MatchKey} {k : MatchKey} (hs : Keys w ks)
      (h : Key u k) : Keys (w ++ .BLANK :: u) (ks ++ [k])

/-- What `action_spec` derives. -/
inductive Spec : List Token → Action → Prop
  | name (s : Str) : Spec [.IDENTIFIER s] { name := s }
  | param {w u : List Token} {a : Action} {b : Bytes} (ha : Spec w a) (h : Chunk u b) :
      Spec (w ++ .BLANK :: u) (a.add_param b)

/-- What `command` derives. -/
inductive Core : List Token → Command → Prop
  | insert {w u : List Token} {keys : List MatchKey} {action : Action} (s : Str)
      (hk : Keys w keys) (ha : Spec u action) :
      Core (.INSERT_ENTRY :: .BLANK :: .IDENTIFIER s :: .BLANK :: (w ++ .BLANK :: u))
        (.InsertCommand { table_name := s, keys := some keys, action := some action })
  | modify {u : List Token} {action : Action} (s : Str) (x : UInt64) (ha : Spec u action) :
      Core (.MODIFY_ENTRY :: .BLANK :: .IDENTIFIER s :: .BLANK :: .DECIMAL x :: .BLANK :: u)
        (.ModifyCommand { table_name := s, handle := x, action := some action })
  | delete (s : Str) (x : UInt64) :
      Core [.DELETE_ENTRY, .BLANK, .IDENTIFIER s, .BLANK, .DECIMAL x]
        (.DeleteCommand { table_name := s, handle := x })
  | begin_transaction : Core [.BEGIN_TRANSACTION] .BeginTransactionCommand
  | end_transaction : Core [.END_TRANSACTION] .EndTransactionCommand

theorem der_cons₂ {X Y : Symbol Terminal Nonterminal}
    {Xs : List (Symbol Terminal Nonterminal)} {w : List Token} {vs : Values} :
    Der (X :: Y :: Xs) w vs ↔ ∃ w₁ w₂ v vs', w = w₁ ++ w₂ ∧ vs = v :: vs' ∧
      Der [X] w₁ [v] ∧ Der (Y :: Xs) w₂ vs' :=
  der_cons

/-- A row that begins with a token. -/
theorem der_cons_ofKind {a : Terminal} {k : Token} (h : ofKind a = some k)
    {X : Symbol Terminal Nonterminal} {Xs : List (Symbol Terminal Nonterminal)}
    {w : List Token} {vs : Values} : Der (tm a :: X :: Xs) w vs ↔
      ∃ w' vs', w = k :: w' ∧ vs = k.value :: vs' ∧ Der (X :: Xs) w' vs' := by
  rw [der_cons]
  simp only [der_ofKind h]
  constructor
  · rintro ⟨_, w', _, vs', rfl, rfl, ⟨rfl, rfl⟩, hd⟩
    exact ⟨w', vs', rfl, rfl, hd⟩
  · rintro ⟨w', vs', rfl, rfl, hd⟩
    exact ⟨[k], w', _, vs', rfl, rfl, ⟨rfl, rfl⟩, hd⟩

theorem der_cons_DECIMAL {X : Symbol Terminal Nonterminal}
    {Xs : List (Symbol Terminal Nonterminal)} {w : List Token} {vs : Values} :
    Der (tm .DECIMAL :: X :: Xs) w vs ↔ ∃ x w' vs', w = .DECIMAL x :: w' ∧
      vs = .INTEGER x :: vs' ∧ Der (X :: Xs) w' vs' := by
  rw [der_cons]
  simp only [der_DECIMAL]
  constructor
  · rintro ⟨_, w', _, vs', rfl, rfl, ⟨x, rfl, rfl⟩, hd⟩
    exact ⟨x, w', vs', rfl, rfl, hd⟩
  · rintro ⟨x, w', vs', rfl, rfl, hd⟩
    exact ⟨[_], w', _, vs', rfl, rfl, ⟨x, rfl, rfl⟩, hd⟩

theorem der_ip_addr {w : List Token} {v : Value} :
    Der [nt .ip_addr] w [v] ↔ ∃ x y z u : UInt64,
      w = [.DECIMAL x, .char 46, .DECIMAL y, .char 46, .DECIMAL z, .char 46, .DECIMAL u] ∧
      v = .BYTES [x.toUInt8, y.toUInt8, z.toUInt8, u.toUInt8] := by
  rw [der_nt, show rowsOf .ip_addr = [⟨.ip_addr, [tm .DECIMAL, tm .dot, tm .DECIMAL, tm .dot,
    tm .DECIMAL, tm .dot, tm .DECIMAL], fun v => .ok (.BYTES [(v.integer 1).toUInt8,
      (v.integer 3).toUInt8, (v.integer 5).toUInt8, (v.integer 7).toUInt8])⟩] from rfl]
  have hdot : ofKind .dot = some (.char 46) := rfl
  simp only [List.mem_singleton, exists_eq_left, der_cons_DECIMAL, der_cons_ofKind hdot]
  constructor
  · rintro ⟨_, ⟨x, _, _, rfl, rfl, _, _, rfl, rfl, y, _, _, rfl, rfl, _, _, rfl, rfl,
      z, _, _, rfl, rfl, _, _, rfl, rfl, hd⟩, ha⟩
    obtain ⟨v, rfl⟩ := List.length_eq_one_iff.mp hd.length_eq
    obtain ⟨u, rfl, rfl⟩ := der_DECIMAL.mp hd
    cases ha
    exact ⟨x, y, z, u, rfl, rfl⟩
  · rintro ⟨x, y, z, u, rfl, rfl⟩
    exact ⟨_, ⟨x, _, _, rfl, rfl, _, _, rfl, rfl, y, _, _, rfl, rfl, _, _, rfl, rfl,
      z, _, _, rfl, rfl, _, _, rfl, rfl, der_DECIMAL.mpr ⟨u, rfl, rfl⟩⟩, rfl⟩

theorem der_raw_bytes {w : List Token} {v : Value} :
    Der [nt .raw_bytes] w [v] ↔ ∃ b, v = .BYTES b ∧ RawBytes w b := by
  rw [der_nt, show rowsOf .raw_bytes =
    [⟨.raw_bytes, [tm .DECIMAL], fun v => .ok (.BYTES (buf (v.integer 1)).reverse)⟩,
      ⟨.raw_bytes, [tm .HEXADECIMAL], fun v => .ok (v.arg 1)⟩,
      ⟨.raw_bytes, [nt .ip_addr], fun v => .ok (v.arg 1)⟩] from rfl]
  simp only [List.mem_cons, List.not_mem_nil, or_false, exists_eq_or_imp, exists_eq_left,
    der_pass]
  simp only [der_one, der_DECIMAL, der_HEXADECIMAL, der_ip_addr]
  constructor
  · rintro (⟨_, ⟨x, rfl, rfl⟩, ha⟩ | ⟨b, rfl, rfl⟩ | ⟨x, y, z, u, rfl, rfl⟩)
    · cases ha
      exact ⟨_, rfl, .decimal x⟩
    · exact ⟨_, rfl, .hexadecimal b⟩
    · exact ⟨_, rfl, .ip_addr x y z u⟩
  · rintro ⟨b, rfl, h⟩
    cases h with
    | decimal x => exact .inl ⟨_, ⟨x, rfl, rfl⟩, rfl⟩
    | hexadecimal b => exact .inr (.inl ⟨b, rfl, rfl⟩)
    | ip_addr x y z u => exact .inr (.inr ⟨x, y, z, u, rfl, rfl⟩)

theorem der_bytes {w : List Token} {v : Value} :
    Der [nt .bytes] w [v] ↔ ∃ b, v = .BYTES b ∧ Chunk w b := by
  rw [der_nt, show rowsOf .bytes =
    [⟨.bytes, [nt .raw_bytes], fun v => .ok (v.arg 1)⟩,
      ⟨.bytes, [nt .raw_bytes, tm .quote, tm .DECIMAL],
        fun v => (resize (v.bytes 1) (v.integer 3).toNat).map .BYTES⟩] from rfl]
  have hquote : ofKind .quote = some (.char 39) := rfl
  simp only [List.mem_cons, List.not_mem_nil, or_false, exists_eq_or_imp, exists_eq_left,
    der_pass, der_three hquote, der_raw_bytes, der_DECIMAL]
  constructor
  · rintro (⟨b, rfl, h⟩ | ⟨w₁, _, _, _, rfl, ⟨b, rfl, h⟩, ⟨x, rfl, rfl⟩, ha⟩)
    · exact ⟨b, rfl, .raw h⟩
    · change (resize b x.toNat).map Value.BYTES = .ok v at ha
      cases hr : resize b x.toNat with
      | error e => rw [hr] at ha; cases ha
      | ok b' =>
        rw [hr] at ha
        cases ha
        exact ⟨b', rfl, .resized h x hr⟩
  · rintro ⟨b, rfl, h⟩
    cases h with
    | raw h => exact .inl ⟨b, rfl, h⟩
    | @resized w₁ b₀ _ h x hr =>
      refine .inr ⟨w₁, _, _, _, rfl, ⟨b₀, rfl, h⟩, ⟨x, rfl, rfl⟩, ?_⟩
      change (resize b₀ x.toNat).map Value.BYTES = _
      rw [hr]
      rfl

/-! ## Keys and actions -/

theorem der_exact_match_key {w : List Token} {v : Value} :
    Der [nt .exact_match_key] w [v] ↔ ∃ b, Chunk w b ∧ v = .MATCH_KEY (.ExactKey b) := by
  rw [der_nt, show rowsOf .exact_match_key = [⟨.exact_match_key, [nt .bytes],
    fun v => .ok (.MATCH_KEY (.ExactKey (v.bytes 1)))⟩] from rfl]
  simp only [List.mem_singleton, exists_eq_left, der_one, der_bytes]
  constructor
  · rintro ⟨_, ⟨b, rfl, h⟩, ha⟩
    cases ha
    exact ⟨b, h, rfl⟩
  · rintro ⟨b, h, rfl⟩
    exact ⟨_, ⟨b, rfl, h⟩, rfl⟩

theorem der_lpm_match_key {w : List Token} {v : Value} :
    Der [nt .lpm_match_key] w [v] ↔ ∃ w₁ b x, w = w₁ ++ [.char 47, .DECIMAL x] ∧
      Chunk w₁ b ∧ v = .MATCH_KEY (.LpmKey b x) := by
  have hslash : ofKind .slash = some (.char 47) := rfl
  rw [der_nt, show rowsOf .lpm_match_key = [⟨.lpm_match_key,
    [nt .bytes, tm .slash, tm .DECIMAL],
    fun v => .ok (.MATCH_KEY (.LpmKey (v.bytes 1) (v.integer 3)))⟩] from rfl]
  simp only [List.mem_singleton, exists_eq_left, der_three hslash, der_bytes, der_DECIMAL]
  constructor
  · rintro ⟨w₁, _, _, _, rfl, ⟨b, rfl, h⟩, ⟨x, rfl, rfl⟩, ha⟩
    cases ha
    exact ⟨w₁, b, x, rfl, h, rfl⟩
  · rintro ⟨w₁, b, x, rfl, h, rfl⟩
    exact ⟨w₁, _, _, _, rfl, ⟨b, rfl, h⟩, ⟨x, rfl, rfl⟩, rfl⟩

theorem der_ternary_match_key {w : List Token} {v : Value} :
    Der [nt .ternary_match_key] w [v] ↔ ∃ w₁ u b m, w = w₁ ++ .char 38 :: u ∧
      Chunk w₁ b ∧ Chunk u m ∧ v = .MATCH_KEY (.TernaryKey b m) := by
  have hampersand : ofKind .ampersand = some (.char 38) := rfl
  rw [der_nt, show rowsOf .ternary_match_key = [⟨.ternary_match_key,
    [nt .bytes, tm .ampersand, nt .bytes],
    fun v => .ok (.MATCH_KEY (.TernaryKey (v.bytes 1) (v.bytes 3)))⟩] from rfl]
  simp only [List.mem_singleton, exists_eq_left, der_three hampersand, der_bytes]
  constructor
  · rintro ⟨w₁, u, _, _, rfl, ⟨b, rfl, h⟩, ⟨m, rfl, hm⟩, ha⟩
    cases ha
    exact ⟨w₁, u, b, m, rfl, h, hm, rfl⟩
  · rintro ⟨w₁, u, b, m, rfl, h, hm, rfl⟩
    exact ⟨w₁, u, _, _, rfl, ⟨b, rfl, h⟩, ⟨m, rfl, hm⟩, rfl⟩

theorem der_match_key {w : List Token} {v : Value} :
    Der [nt .match_key] w [v] ↔ ∃ k, v = .MATCH_KEY k ∧ Key w k := by
  rw [der_nt, show rowsOf .match_key =
    [⟨.match_key, [nt .exact_match_key], fun v => .ok (v.arg 1)⟩,
      ⟨.match_key, [nt .lpm_match_key], fun v => .ok (v.arg 1)⟩,
      ⟨.match_key, [nt .ternary_match_key], fun v => .ok (v.arg 1)⟩] from rfl]
  simp only [List.mem_cons, List.not_mem_nil, or_false, exists_eq_or_imp, exists_eq_left,
    der_pass, der_exact_match_key, der_lpm_match_key, der_ternary_match_key]
  constructor
  · rintro (⟨b, h, rfl⟩ | ⟨w₁, b, x, rfl, h, rfl⟩ | ⟨w₁, u, b, m, rfl, h, hm, rfl⟩)
    · exact ⟨_, rfl, .exact h⟩
    · exact ⟨_, rfl, .lpm h x⟩
    · exact ⟨_, rfl, .ternary h hm⟩
  · rintro ⟨k, rfl, h⟩
    cases h with
    | exact h => exact .inl ⟨_, h, rfl⟩
    | lpm h x => exact .inr (.inl ⟨_, _, x, rfl, h, rfl⟩)
    | ternary h hm => exact .inr (.inr ⟨_, _, _, _, rfl, h, hm, rfl⟩)

theorem rowsOf_match_keys : rowsOf .match_keys =
    [⟨.match_keys, [nt .empty], fun _ => .ok (.MATCH_KEYS [])⟩,
      ⟨.match_keys, [nt .match_key], fun v => .ok (.MATCH_KEYS ([] ++ [v.match_key 1]))⟩,
      ⟨.match_keys, [nt .match_keys, tm .BLANK, nt .match_key],
        fun v => .ok (.MATCH_KEYS (v.match_keys 1 ++ [v.match_key 3]))⟩] := rfl

theorem der_match_keys_iff {w : List Token} {v : Value} :
    Der [nt .match_keys] w [v] ↔ (w = [] ∧ v = .MATCH_KEYS []) ∨
      (∃ k, Key w k ∧ v = .MATCH_KEYS [k]) ∨
      ∃ w₁ x u k, w = w₁ ++ .BLANK :: u ∧ Der [nt .match_keys] w₁ [x] ∧ Key u k ∧
        v = .MATCH_KEYS (Values.match_keys [x] 1 ++ [k]) := by
  have hblank : ofKind .BLANK = some .BLANK := rfl
  rw [der_nt, rowsOf_match_keys]
  simp only [List.mem_cons, List.not_mem_nil, or_false, exists_eq_or_imp, exists_eq_left,
    der_one, der_three hblank, der_empty, der_match_key]
  constructor
  · rintro (⟨_, ⟨rfl, rfl⟩, ha⟩ | ⟨_, ⟨k, rfl, h⟩, ha⟩ | ⟨w₁, u, x, _, rfl, hd, ⟨k, rfl, h⟩,
      ha⟩)
    · cases ha
      exact .inl ⟨rfl, rfl⟩
    · cases ha
      exact .inr (.inl ⟨k, h, rfl⟩)
    · cases ha
      exact .inr (.inr ⟨w₁, x, u, k, rfl, hd, h, rfl⟩)
  · rintro (⟨rfl, rfl⟩ | ⟨k, h, rfl⟩ | ⟨w₁, x, u, k, rfl, hd, h, rfl⟩)
    · exact .inl ⟨_, ⟨rfl, rfl⟩, rfl⟩
    · exact .inr (.inl ⟨_, ⟨k, rfl, h⟩, rfl⟩)
    · exact .inr (.inr ⟨w₁, u, x, _, rfl, hd, ⟨k, rfl, h⟩, rfl⟩)

theorem der_match_keys {w : List Token} {v : Value} :
    Der [nt .match_keys] w [v] ↔ ∃ ks, v = .MATCH_KEYS ks ∧ Keys w ks := by
  constructor
  · intro h
    generalize hn : w.length = n
    induction n using Nat.strong_induction_on generalizing w v with
    | _ n ih =>
      rcases der_match_keys_iff.mp h with ⟨rfl, rfl⟩ | ⟨k, hk, rfl⟩ |
        ⟨w₁, x, u, k, rfl, hd, hk, rfl⟩
      · exact ⟨[], rfl, .nil⟩
      · exact ⟨[k], rfl, .one hk⟩
      · obtain ⟨ks, rfl, hs⟩ := ih w₁.length (by simp at hn; omega) hd rfl
        exact ⟨ks ++ [k], rfl, .snoc hs hk⟩
  · rintro ⟨ks, rfl, h⟩
    induction h with
    | nil => exact der_match_keys_iff.mpr (.inl ⟨rfl, rfl⟩)
    | one h => exact der_match_keys_iff.mpr (.inr (.inl ⟨_, h, rfl⟩))
    | snoc _ h ih => exact der_match_keys_iff.mpr (.inr (.inr ⟨_, _, _, _, rfl, ih, h, rfl⟩))

theorem rowsOf_action_spec : rowsOf .action_spec =
    [⟨.action_spec, [tm .IDENTIFIER], fun v => .ok (.ACTION_SPEC { name := v.string 1 })⟩,
      ⟨.action_spec, [nt .action_spec, tm .BLANK, nt .action_param],
        fun v => .ok (.ACTION_SPEC ((v.action_spec 1).add_param (v.bytes 3)))⟩] := rfl

theorem der_action_spec_iff {w : List Token} {v : Value} :
    Der [nt .action_spec] w [v] ↔
      (∃ s, w = [.IDENTIFIER s] ∧ v = .ACTION_SPEC { name := s }) ∨
      ∃ w₁ x u b, w = w₁ ++ .BLANK :: u ∧ Der [nt .action_spec] w₁ [x] ∧ Chunk u b ∧
        v = .ACTION_SPEC ((Values.action_spec [x] 1).add_param b) := by
  have hblank : ofKind .BLANK = some .BLANK := rfl
  have hparam : ∀ {u v}, Der [nt .action_param] u [v] ↔ ∃ b, v = .BYTES b ∧ Chunk u b := by
    intro u v
    rw [der_nt, show rowsOf .action_param =
      [⟨.action_param, [nt .bytes], fun v => .ok (v.arg 1)⟩] from rfl]
    simp only [List.mem_singleton, exists_eq_left, der_pass, der_bytes]
  rw [der_nt, rowsOf_action_spec]
  simp only [List.mem_cons, List.not_mem_nil, or_false, exists_eq_or_imp, exists_eq_left,
    der_one, der_three hblank, der_IDENTIFIER, hparam]
  constructor
  · rintro (⟨_, ⟨s, rfl, rfl⟩, ha⟩ | ⟨w₁, u, x, _, rfl, hd, ⟨b, rfl, h⟩, ha⟩)
    · cases ha
      exact .inl ⟨s, rfl, rfl⟩
    · cases ha
      exact .inr ⟨w₁, x, u, b, rfl, hd, h, rfl⟩
  · rintro (⟨s, rfl, rfl⟩ | ⟨w₁, x, u, b, rfl, hd, h, rfl⟩)
    · exact .inl ⟨_, ⟨s, rfl, rfl⟩, rfl⟩
    · exact .inr ⟨w₁, u, x, _, rfl, hd, ⟨b, rfl, h⟩, rfl⟩

theorem der_action_spec {w : List Token} {v : Value} :
    Der [nt .action_spec] w [v] ↔ ∃ a, v = .ACTION_SPEC a ∧ Spec w a := by
  constructor
  · intro h
    generalize hn : w.length = n
    induction n using Nat.strong_induction_on generalizing w v with
    | _ n ih =>
      rcases der_action_spec_iff.mp h with ⟨s, rfl, rfl⟩ | ⟨w₁, x, u, b, rfl, hd, hb, rfl⟩
      · exact ⟨_, rfl, .name s⟩
      · obtain ⟨a, rfl, ha⟩ := ih w₁.length (by simp at hn; omega) hd rfl
        exact ⟨_, rfl, .param ha hb⟩
  · rintro ⟨a, rfl, h⟩
    induction h with
    | name s => exact der_action_spec_iff.mpr (.inl ⟨s, rfl, rfl⟩)
    | param _ h ih => exact der_action_spec_iff.mpr (.inr ⟨_, _, _, _, rfl, ih, h, rfl⟩)

/-! ## Commands -/

theorem der_cons_IDENTIFIER {X : Symbol Terminal Nonterminal}
    {Xs : List (Symbol Terminal Nonterminal)} {w : List Token} {vs : Values} :
    Der (tm .IDENTIFIER :: X :: Xs) w vs ↔ ∃ s w' vs', w = .IDENTIFIER s :: w' ∧
      vs = .STRING s :: vs' ∧ Der (X :: Xs) w' vs' := by
  rw [der_cons]
  simp only [der_IDENTIFIER]
  constructor
  · rintro ⟨_, w', _, vs', rfl, rfl, ⟨s, rfl, rfl⟩, hd⟩
    exact ⟨s, w', vs', rfl, rfl, hd⟩
  · rintro ⟨s, w', vs', rfl, rfl, hd⟩
    exact ⟨[_], w', _, vs', rfl, rfl, ⟨s, rfl, rfl⟩, hd⟩

theorem der_insert_entry_command {w : List Token} {v : Value} :
    Der [nt .insert_entry_command] w [v] ↔ ∃ s w₁ u keys action,
      w = .INSERT_ENTRY :: .BLANK :: .IDENTIFIER s :: .BLANK :: (w₁ ++ .BLANK :: u) ∧
      Keys w₁ keys ∧ Spec u action ∧
      v = .INSERT_COMMAND { table_name := s, keys := some keys, action := some action } := by
  have hinsert : ofKind .INSERT_ENTRY = some .INSERT_ENTRY := rfl
  have hblank : ofKind .BLANK = some .BLANK := rfl
  rw [der_nt, show rowsOf .insert_entry_command = [⟨.insert_entry_command,
    [tm .INSERT_ENTRY, tm .BLANK, tm .IDENTIFIER, tm .BLANK, nt .match_keys, tm .BLANK,
      nt .action_spec],
    fun v => .ok (.INSERT_COMMAND ((((v.insert_command 1).set_table_name
      (v.string 3)).set_match_keys (v.match_keys 5)).set_action (v.action_spec 7)))⟩] from rfl]
  simp only [List.mem_singleton, exists_eq_left, der_cons_ofKind hinsert,
    der_cons_ofKind hblank, der_cons_IDENTIFIER, der_cons₂ (X := nt .match_keys), der_match_keys]
  constructor
  · rintro ⟨_, ⟨_, _, rfl, rfl, _, _, rfl, rfl, s, _, _, rfl, rfl, _, _, rfl, rfl, w₁, _, _,
      _, rfl, rfl, ⟨keys, rfl, hk⟩, u, _, rfl, rfl, hd⟩, ha⟩
    obtain ⟨v, rfl⟩ := List.length_eq_one_iff.mp hd.length_eq
    obtain ⟨action, rfl, hs⟩ := der_action_spec.mp hd
    cases ha
    exact ⟨s, w₁, u, keys, action, rfl, hk, hs, rfl⟩
  · rintro ⟨s, w₁, u, keys, action, rfl, hk, hs, rfl⟩
    exact ⟨_, ⟨_, _, rfl, rfl, _, _, rfl, rfl, s, _, _, rfl, rfl, _, _, rfl, rfl, w₁, _, _,
      _, rfl, rfl, ⟨keys, rfl, hk⟩, u, _, rfl, rfl, der_action_spec.mpr ⟨action, rfl, hs⟩⟩,
      rfl⟩

theorem der_modify_entry_command {w : List Token} {v : Value} :
    Der [nt .modify_entry_command] w [v] ↔ ∃ s x u action,
      w = .MODIFY_ENTRY :: .BLANK :: .IDENTIFIER s :: .BLANK :: .DECIMAL x :: .BLANK :: u ∧
      Spec u action ∧
      v = .MODIFY_COMMAND { table_name := s, handle := x, action := some action } := by
  have hmodify : ofKind .MODIFY_ENTRY = some .MODIFY_ENTRY := rfl
  have hblank : ofKind .BLANK = some .BLANK := rfl
  rw [der_nt, show rowsOf .modify_entry_command = [⟨.modify_entry_command,
    [tm .MODIFY_ENTRY, tm .BLANK, tm .IDENTIFIER, tm .BLANK, tm .DECIMAL, tm .BLANK,
      nt .action_spec],
    fun v => .ok (.MODIFY_COMMAND ((((v.modify_command 1).set_table_name
      (v.string 3)).set_handle (v.integer 5)).set_action (v.action_spec 7)))⟩] from rfl]
  simp only [List.mem_singleton, exists_eq_left, der_cons_ofKind hmodify,
    der_cons_ofKind hblank, der_cons_IDENTIFIER, der_cons_DECIMAL]
  constructor
  · rintro ⟨_, ⟨_, _, rfl, rfl, _, _, rfl, rfl, s, _, _, rfl, rfl, _, _, rfl, rfl, x, _, _,
      rfl, rfl, u, _, rfl, rfl, hd⟩, ha⟩
    obtain ⟨v, rfl⟩ := List.length_eq_one_iff.mp hd.length_eq
    obtain ⟨action, rfl, hs⟩ := der_action_spec.mp hd
    cases ha
    exact ⟨s, x, u, action, rfl, hs, rfl⟩
  · rintro ⟨s, x, u, action, rfl, hs, rfl⟩
    exact ⟨_, ⟨_, _, rfl, rfl, _, _, rfl, rfl, s, _, _, rfl, rfl, _, _, rfl, rfl, x, _, _,
      rfl, rfl, u, _, rfl, rfl, der_action_spec.mpr ⟨action, rfl, hs⟩⟩, rfl⟩

theorem der_delete_entry_command {w : List Token} {v : Value} :
    Der [nt .delete_entry_command] w [v] ↔ ∃ s x,
      w = [.DELETE_ENTRY, .BLANK, .IDENTIFIER s, .BLANK, .DECIMAL x] ∧
      v = .DELETE_COMMAND { table_name := s, handle := x } := by
  have hdelete : ofKind .DELETE_ENTRY = some .DELETE_ENTRY := rfl
  have hblank : ofKind .BLANK = some .BLANK := rfl
  rw [der_nt, show rowsOf .delete_entry_command = [⟨.delete_entry_command,
    [tm .DELETE_ENTRY, tm .BLANK, tm .IDENTIFIER, tm .BLANK, tm .DECIMAL],
    fun v => .ok (.DELETE_COMMAND (((v.delete_command 1).set_table_name
      (v.string 3)).set_handle (v.integer 5)))⟩] from rfl]
  simp only [List.mem_singleton, exists_eq_left, der_cons_ofKind hdelete,
    der_cons_ofKind hblank, der_cons_IDENTIFIER]
  constructor
  · rintro ⟨_, ⟨_, _, rfl, rfl, _, _, rfl, rfl, s, _, _, rfl, rfl, _, _, rfl, rfl, hd⟩, ha⟩
    obtain ⟨v, rfl⟩ := List.length_eq_one_iff.mp hd.length_eq
    obtain ⟨x, rfl, rfl⟩ := der_DECIMAL.mp hd
    cases ha
    exact ⟨s, x, rfl, rfl⟩
  · rintro ⟨s, x, rfl, rfl⟩
    exact ⟨_, ⟨_, _, rfl, rfl, _, _, rfl, rfl, s, _, _, rfl, rfl, _, _, rfl, rfl,
      der_DECIMAL.mpr ⟨x, rfl, rfl⟩⟩, rfl⟩

/-- The commands of one reserved phrase. -/
theorem der_transaction {m : Nonterminal} {a : Terminal} {k : Token}
    (hk : ofKind a = some k) (hm : rowsOf m = [⟨m, [tm a], fun v => .ok (v.arg 1)⟩])
    {w : List Token} {v : Value} : Der [nt m] w [v] ↔ w = [k] ∧ v = k.value := by
  rw [der_nt, hm]
  simp only [List.mem_singleton, exists_eq_left, der_pass, der_ofKind hk]

theorem der_command {w : List Token} {v : Value} :
    Der [nt .command] w [v] ↔ ∃ c, v = .COMMAND c ∧ Core w c := by
  rw [der_nt, show rowsOf .command =
    [⟨.command, [nt .insert_entry_command],
        fun v => .ok (.COMMAND (.InsertCommand (v.insert_command 1)))⟩,
      ⟨.command, [nt .modify_entry_command],
        fun v => .ok (.COMMAND (.ModifyCommand (v.modify_command 1)))⟩,
      ⟨.command, [nt .delete_entry_command],
        fun v => .ok (.COMMAND (.DeleteCommand (v.delete_command 1)))⟩,
      ⟨.command, [nt .begin_transaction_command], fun v => .ok (v.arg 1)⟩,
      ⟨.command, [nt .end_transaction_command], fun v => .ok (v.arg 1)⟩] from rfl]
  have hbegin : ∀ {w v}, Der [nt .begin_transaction_command] w [v] ↔
      w = [Token.BEGIN_TRANSACTION] ∧ v = Token.BEGIN_TRANSACTION.value :=
    der_transaction (a := .BEGIN_TRANSACTION) rfl rfl
  have hend : ∀ {w v}, Der [nt .end_transaction_command] w [v] ↔
      w = [Token.END_TRANSACTION] ∧ v = Token.END_TRANSACTION.value :=
    der_transaction (a := .END_TRANSACTION) rfl rfl
  simp only [List.mem_cons, List.not_mem_nil, or_false, exists_eq_or_imp, exists_eq_left,
    der_pass, hbegin, hend]
  simp only [der_one, der_insert_entry_command, der_modify_entry_command,
    der_delete_entry_command]
  constructor
  · rintro (⟨_, ⟨s, w₁, u, keys, action, rfl, hk, hs, rfl⟩, ha⟩ |
      ⟨_, ⟨s, x, u, action, rfl, hs, rfl⟩, ha⟩ | ⟨_, ⟨s, x, rfl, rfl⟩, ha⟩ | ⟨rfl, rfl⟩ |
      ⟨rfl, rfl⟩)
    · cases ha
      exact ⟨_, rfl, .insert s hk hs⟩
    · cases ha
      exact ⟨_, rfl, .modify s x hs⟩
    · cases ha
      exact ⟨_, rfl, .delete s x⟩
    · exact ⟨_, rfl, .begin_transaction⟩
    · exact ⟨_, rfl, .end_transaction⟩
  · rintro ⟨c, rfl, h⟩
    cases h with
    | @insert w u keys action s hk hs =>
      exact .inl ⟨_, ⟨s, w, u, keys, action, rfl, hk, hs, rfl⟩, rfl⟩
    | @modify u action s x hs =>
      exact .inr (.inl ⟨_, ⟨s, x, u, action, rfl, hs, rfl⟩, rfl⟩)
    | delete s x => exact .inr (.inr (.inl ⟨_, ⟨s, x, rfl, rfl⟩, rfl⟩))
    | begin_transaction => exact .inr (.inr (.inr (.inl ⟨rfl, rfl⟩)))
    | end_transaction => exact .inr (.inr (.inr (.inr ⟨rfl, rfl⟩)))

/-- What may come before a command. -/
def leads : List (List Token) := [[], [.BLANK]]

/-- A sentence is a command with an optional blank in front and a tail. -/
theorem sentence_iff {w : List Token} {c : Command} :
    Sentence w c ↔ ∃ lead ∈ leads, ∃ core, ∃ tail ∈ tails,
      w = lead ++ (core ++ tail) ∧ Core core c := by
  constructor
  · rintro ⟨v₁, v₃, h⟩
    obtain ⟨lead, _, _, _, rfl, hvs, h₁, h⟩ := der_cons.mp h
    obtain ⟨core, tail, _, _, rfl, rfl, h₂, h₃⟩ := der_cons.mp h
    cases hvs
    obtain ⟨hlead, -⟩ := der_optional_space.mp h₁
    obtain ⟨c', hc, hcore⟩ := der_command.mp h₂
    cases hc
    obtain ⟨htail, -⟩ := der_optional_EOL.mp h₃
    exact ⟨lead, by simpa [leads] using hlead, core, tail, htail, rfl, hcore⟩
  · rintro ⟨lead, hlead, core, tail, htail, rfl, hcore⟩
    have h₁ : Der [nt .optional_space] lead [.none] :=
      der_optional_space.mpr ⟨by simpa [leads] using hlead, rfl⟩
    have h₂ : Der [nt .command] core [.COMMAND c] := der_command.mpr ⟨c, rfl, hcore⟩
    have h₃ : Der [nt .optional_EOL] tail [.none] := der_optional_EOL.mpr ⟨htail, rfl⟩
    exact ⟨.none, .none, der_cons.mpr ⟨lead, _, _, _, rfl, rfl, h₁,
      der_cons.mpr ⟨core, tail, _, _, rfl, rfl, h₂, h₃⟩⟩⟩

/-! ## Ends of a command -/

/-- The tokens that may end a command are none of these. -/
def Token.closes (k : Token) : Prop := k ≠ .BLANK ∧ k ≠ .EOL ∧ k ≠ .COMMENT

theorem RawBytes.last {w : List Token} {b : Bytes} (h : RawBytes w b) :
    ∃ k, w.getLast? = some k ∧ k.closes := by
  cases h <;> exact ⟨_, rfl, by simp [Token.closes]⟩

theorem Chunk.last {w : List Token} {b : Bytes} (h : Chunk w b) :
    ∃ k, w.getLast? = some k ∧ k.closes := by
  cases h with
  | raw h => exact h.last
  | resized _ x _ => exact ⟨.DECIMAL x, by simp, by simp [Token.closes]⟩

theorem Spec.first {w : List Token} {a : Action} (h : Spec w a) :
    ∃ k u, w = k :: u ∧ k.kind = .IDENTIFIER := by
  induction h with
  | name s => exact ⟨_, _, rfl, rfl⟩
  | param _ _ ih =>
    obtain ⟨k, u, rfl, hk⟩ := ih
    exact ⟨k, _, rfl, hk⟩

theorem Spec.last {w : List Token} {a : Action} (h : Spec w a) :
    ∃ k, w.getLast? = some k ∧ k.closes := by
  cases h with
  | name s => exact ⟨_, rfl, by simp [Token.closes]⟩
  | param _ h =>
    obtain ⟨k, hk, hne⟩ := h.last
    exact ⟨k, by rw [List.getLast?_append, List.getLast?_cons, hk]; rfl, hne⟩

/-- A command does not end with a blank, a newline or a comment. -/
theorem Core.last {w : List Token} {c : Command} (h : Core w c) :
    ∃ k, w.getLast? = some k ∧ k.closes := by
  cases h with
  | insert s _ ha =>
    obtain ⟨k, hk, hne⟩ := ha.last
    exact ⟨k, by simp [List.getLast?_cons, List.getLast?_append, hk], hne⟩
  | modify s x ha =>
    obtain ⟨k, hk, hne⟩ := ha.last
    exact ⟨k, by simp [List.getLast?_cons, hk], hne⟩
  | delete s x => exact ⟨_, rfl, by simp [Token.closes]⟩
  | begin_transaction => exact ⟨_, rfl, by simp [Token.closes]⟩
  | end_transaction => exact ⟨_, rfl, by simp [Token.closes]⟩

end Pfp.Cp
