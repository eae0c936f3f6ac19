import PFPSim.Json.Accepted
import PFPSim.Json.Numerals

/-!
# What is written is read again

The text that `dump` writes of a document, whatever its indentation, is a layout of the
document's tree, and the parser reads the document from it again (`parse_dump`), with its
numbers as they read: an integer that is not negative becomes unsigned.
-/

namespace Json

open Lexer Writer

/-! ## Strings -/

/-- The state behind characters that do not close the string. -/
def Lexer.StringState.pass : StringState → List Char → Option StringState
  | state, [] => some state
  | state, c :: w =>
    if state = .chars ∧ c = '"' then none else (state.next c).bind fun state => state.pass w

theorem pass_append {state state' : StringState} {w : List Char} (h : state.pass w = some state')
    (w' : List Char) : state.pass (w ++ w') = state'.pass w' := by
  induction w generalizing state with
  | nil =>
    cases h
    rfl
  | cons c w ih =>
    rw [StringState.pass] at h
    split at h
    · cases h
    · rename_i hquote
      obtain ⟨next, hnext, h⟩ := Option.bind_eq_some_iff.mp h
      rw [List.cons_append, StringState.pass, if_neg hquote, hnext]
      exact ih h

theorem stringEnd_pass {state state' : StringState} {w : List Char}
    (h : state.pass w = some state') (s : List Char) :
    stringEnd state (w ++ s) = (stringEnd state' s).map fun r => (w ++ r.1, r.2) := by
  induction w generalizing state with
  | nil =>
    cases h
    exact Option.map_id'.symm
  | cons c w ih =>
    rw [StringState.pass] at h
    split at h
    · cases h
    · rename_i hquote
      obtain ⟨next, hnext, h⟩ := Option.bind_eq_some_iff.mp h
      rw [List.cons_append, stringEnd, if_neg hquote, hnext]
      simp only [ih h, Option.map_map]
      rfl

theorem pass_escaped (c : Char) : StringState.chars.pass (escaped c) = some .chars := by
  unfold escaped
  split
  case h_8 hquote hslash _ _ _ _ _ =>
    split
    · rename_i hle
      have hall : ∀ n ≤ 0x1f, StringState.chars.pass
          ['\\', 'u', '0', '0', hexify (n >>> 4), hexify (n &&& 0x0f)] = some .chars := by
        decide
      exact hall _ hle
    · rename_i hlt
      rw [StringState.pass, if_neg (fun h => hquote h.2), StringState.next, if_neg hslash,
        if_neg (by omega)]
      rfl
  all_goals rfl

theorem pass_escape_string (s : List Char) :
    StringState.chars.pass (escape_string s) = some .chars := by
  rw [escape_string_eq]
  induction s with
  | nil => rfl
  | cons c s ih => rw [List.flatMap_cons, pass_append (pass_escaped c), ih]

/-- A written string is one token. -/
theorem scan_quoted (s : String) (rest : List Char) :
    scan (quoted s ++ rest) = ⟨.value_string, quoted s, rest⟩ := by
  have hend : stringEnd .chars (escape_string s.toList ++ '"' :: rest) =
      some (escape_string s.toList, rest) := by
    rw [stringEnd_pass (pass_escape_string _)]
    show some (_ ++ [], rest) = _
    rw [List.append_nil]
  have hscan : scan (quoted s ++ rest) = scanString (escape_string s.toList ++ '"' :: rest) := by
    rw [quoted, List.cons_append, List.append_assoc]
    rfl
  rw [hscan, scanString, hend]
  rfl

theorem unicodeEscape_control {c : Char} (h : c.toNat ≤ 0x1f) (s : List Char) :
    unicodeEscape ('0' :: '0' :: hexify (c.toNat >>> 4) :: hexify (c.toNat &&& 0x0f) :: s) =
      .ok ([c], 5) := by
  have hall : ∀ n ≤ 0x1f, strtoul ['0', '0', hexify (n >>> 4), hexify (n &&& 0x0f)] = n := by
    decide
  have hcode := hall _ h
  have hbyte : byte c.toNat = c := Char.ofNat_toNat c
  unfold unicodeEscape
  simp only [List.take_succ_cons, List.take_zero, hcode]
  rw [if_neg (by omega), to_unicode, if_neg (by omega), encode, if_pos (by omega), hbyte]
  rfl

/-- The escape of a character is read as the character. -/
theorem unescape_escaped (c : Char) (s : List Char) :
    unescape 0 (escaped c ++ s) = (do let rest ← unescape 0 s; return c :: rest) := by
  unfold escaped
  split
  case h_8 _ hslash _ _ _ _ _ =>
    split
    · rename_i hle
      rw [List.cons_append, List.cons_append, unescape_escape, escapeValue]
      simp only [List.cons_append, List.nil_append]
      rw [unicodeEscape_control hle]
      rfl
    · exact unescape_char hslash s
  all_goals rw [List.cons_append, List.singleton_append, unescape_escape]; rfl

/-- A written string is read as itself. -/
theorem get_string_quoted (s : String) : Lexer.get_string (quoted s) = .ok s.toList := by
  have hall : ∀ l : List Char, unescape 0 (l.flatMap escaped) = .ok l := by
    intro l
    induction l with
    | nil => rfl
    | cons c l ih =>
      rw [List.flatMap_cons, unescape_escaped, ih]
      rfl
  rw [Lexer.get_string, quoted, List.drop_one, List.tail_cons, List.dropLast_concat,
    escape_string_eq, hall]

/-! ## Trees of values -/

section

variable {F : Type} (floats : Floats F)

/-- A primitive when its text is read. -/
def Primitive.reread : Primitive F → Primitive F
  | .number_integer n => integer n
  | .number_float x => number floats (floats.print x)
  | p => p

def Primitive.tree : Primitive F → Tree
  | .null => .null
  | .boolean b => .boolean b
  | .string s => .string (quoted s)
  | p => .number (primitive floats p)

mutual

def Value.reread : Value F → Value F
  | .primitive p => .primitive (p.reread floats)
  | .array es => .array (rereadElements es)
  | .object ms => .object (rereadMembers ms)

def rereadElements : List (Value F) → List (Value F)
  | [] => []
  | e :: es => e.reread :: rereadElements es

def rereadMembers : Members F → Members F
  | [] => []
  | (key, v) :: ms => (key, v.reread) :: rereadMembers ms

end

mutual

/-- What is written of a value. -/
def Value.tree : Value F → Tree
  | .primitive p => p.tree floats
  | .array es => .array (elementTrees es)
  | .object ms => .object (memberTrees ms)

def elementTrees : List (Value F) → List Tree
  | [] => []
  | e :: es => e.tree :: elementTrees es

def memberTrees : Members F → List (List Char × Tree)
  | [] => []
  | (key, v) :: ms => (quoted key, v.tree) :: memberTrees ms

end

theorem value_primitive (p : Primitive F) :
    (p.tree floats).value floats = .ok (.primitive (p.reread floats)) := by
  have hnumber : ∀ token,
      (Tree.number token).value floats = .ok (.primitive (number floats token)) :=
    fun token => by rw [Tree.value]
  cases p with
  | null => rfl
  | boolean b => rfl
  | string s =>
    rw [Primitive.tree, Tree.value, get_string_quoted]
    show Except.ok (Value.primitive (Primitive.string (String.ofList s.toList))) = _
    rw [String.ofList_toList]
    rfl
  | number_integer n =>
    refine (hnumber _).trans ?_
    rw [number, primitive, toInteger_integer]
    rfl
  | number_unsigned n =>
    refine (hnumber _).trans ?_
    rw [number, primitive, toInteger_unsigned]
    rfl
  | number_float x => exact hnumber _

/-- A key behind all the others is assigned at the end. -/
theorem assign_of_forall_lt {ms : Members F} {key : String} (v : Value F)
    (h : ∀ m ∈ ms, m.1 < key) : ms.assign key v = ms ++ [(key, v)] := by
  induction ms with
  | nil => rfl
  | cons m ms ih =>
    obtain ⟨hm, hms⟩ := List.forall_mem_cons.mp h
    rw [Members.assign, if_neg (ne_of_lt hm), if_neg (lt_asymm hm), ih hms]
    rfl

theorem elementValues_trees {es : List (Value F)}
    (h : ∀ e ∈ es, (e.tree floats).value floats = .ok (e.reread floats)) :
    Tree.elementValues floats (elementTrees floats es) = .ok (rereadElements floats es) := by
  induction es with
  | nil => rfl
  | cons e es ih =>
    obtain ⟨he, hes⟩ := List.forall_mem_cons.mp h
    rw [elementTrees, Tree.elementValues, he, ok_bind, ih hes]
    rfl

theorem memberValues_trees {ms result : Members F} (hms : ms.Ordered)
    (hresult : ∀ m ∈ result, ∀ m' ∈ ms, m.1 < m'.1)
    (h : ∀ m ∈ ms, (m.2.tree floats).value floats = .ok (m.2.reread floats)) :
    Tree.memberValues floats (memberTrees floats ms) result =
      .ok (result ++ rereadMembers floats ms) := by
  induction ms generalizing result with
  | nil =>
    rw [rereadMembers, List.append_nil]
    rfl
  | cons m ms ih =>
    obtain ⟨key, v⟩ := m
    obtain ⟨hv, hvs⟩ := List.forall_mem_cons.mp h
    obtain ⟨hkey, hms⟩ := List.pairwise_cons.mp hms
    have hv : (v.tree floats).value floats = .ok (v.reread floats) := hv
    rw [memberTrees, Tree.memberValues, get_string_quoted, ok_bind, hv, ok_bind,
      String.ofList_toList, assign_of_forall_lt _ fun m hm => hresult m hm _ List.mem_cons_self]
    have hnext : ∀ m ∈ result ++ [(key, v.reread floats)], ∀ m' ∈ ms, m.1 < m'.1 := by
      intro m hm m' hm'
      obtain hm | hm := List.mem_append.mp hm
      · exact hresult m hm m' (List.mem_cons_of_mem _ hm')
      · rw [List.mem_singleton.mp hm]
        exact hkey m' hm'
    rw [ih hms hnext hvs, List.append_assoc]
    rfl

/-- What is written of a document has the document's value. -/
theorem value_tree {v : Value F} (hv : v.WellFormed) :
    (v.tree floats).value floats = .ok (v.reread floats) := by
  induction v with
  | primitive p => exact value_primitive floats p
  | array es ih =>
    cases hv with
    | array hes =>
      rw [Value.tree, Tree.value, elementValues_trees floats fun e he => ih e he (hes e he)]
      rfl
  | object ms ih =>
    cases hv with
    | object hkeys hms =>
      have hnil : ∀ m ∈ ([] : Members F), ∀ m' ∈ ms, m.1 < m'.1 :=
        fun _ h => absurd h List.not_mem_nil
      rw [Value.tree, Tree.value,
        memberValues_trees floats hkeys hnil fun m hm => ih m hm (hms m hm)]
      rfl

/-! ## Layouts of documents -/

variable {floats} {s rest : List Char} {ts : List Lexeme}

theorem stops_blanks (indent : UInt32) (h : Stops s) : Stops (blanks indent ++ s) := by
  unfold blanks
  cases indent.toNat with
  | zero => exact h
  | succ n => exact .cons (by decide)

theorem stops_newline (pretty_print : Bool) (h : Stops s) : Stops (newline pretty_print ++ s) := by
  cases pretty_print with
  | false => exact h
  | true => exact .cons (by decide)

theorem scan_replicate (n : Nat) (s : List Char) : scan (List.replicate n ' ' ++ s) = scan s := by
  induction n with
  | zero => rfl
  | succ n ih => exact (scan_blank rfl _).trans ih

theorem scan_blanks (indent : UInt32) (s : List Char) : scan (blanks indent ++ s) = scan s :=
  scan_replicate _ s

theorem scan_newline (pretty_print : Bool) (s : List Char) :
    scan (newline pretty_print ++ s) = scan s := by
  cases pretty_print with
  | false => rfl
  | true => exact scan_blank rfl s

/-- Texts that are scanned alike are read alike. -/
theorem reads_congr {s' r : List Char} (hne : ts ≠ []) (h : scan r = scan s)
    (hs : Reads s ts s') : Reads r ts s' := by
  cases ts with
  | nil => exact absurd rfl hne
  | cons x ts => exact Lex.Reads.congr_head (by unfold Lexer.read; rw [h]) hs

theorem reads_scan {type : TokenType} {token s' : List Char}
    (h : scan s = ⟨type, token, rest⟩) (hs : Reads rest ts s') :
    Reads s ((type, token) :: ts) s' := by
  rw [reads_cons, h]
  exact ⟨rfl, rfl, hs⟩

/-- The numbers that are written are numerals. -/
def Printed (floats : Floats F) (p : Primitive F) : Prop :=
  ∀ x, p = .number_float x → Numeral (floats.print x)

theorem reads_primitive {p : Primitive F} (hp : Printed floats p) (hrest : Stops rest) :
    Reads (primitive floats p ++ rest) (p.tree floats).tokens rest := by
  have hnumeral : ∀ token, Numeral token →
      Reads (token ++ rest) (Tree.number token).tokens rest :=
    fun token h => reads_scan (scan_numeral h hrest) rfl
  cases p with
  | null => exact reads_scan rfl rfl
  | boolean b =>
    cases b with
    | false => exact reads_scan rfl rfl
    | true => exact reads_scan rfl rfl
  | string s => exact reads_scan (scan_quoted s rest) rfl
  | number_integer n => exact hnumeral _ (numeral_shown _)
  | number_unsigned n => exact hnumeral _ (numeral_shown n.toNat)
  | number_float x => exact hnumeral _ (hp x rfl)

/-- All primitives of a value have the property `P`. -/
inductive Value.All (P : Primitive F → Prop) : Value F → Prop
  | primitive {p : Primitive F} (h : P p) : All P (.primitive p)
  | array {elements : List (Value F)} (h : ∀ e ∈ elements, All P e) : All P (.array elements)
  | object {members : Members F} (h : ∀ m ∈ members, All P m.2) : All P (.object members)

variable {pretty_print : Bool} {indent_step : UInt32}

/-- The text of a value reads as its tree. -/
def Written (floats : Floats F) (pretty_print : Bool) (indent_step : UInt32) (v : Value F) : Prop :=
  ∀ indent rest, Stops rest →
    Reads (Writer.dump floats pretty_print indent_step indent v ++ rest) (v.tree floats).tokens rest

theorem stops_elements (indent : UInt32) (es : List (Value F)) (h : Stops rest) :
    Stops (dumpElements floats pretty_print indent_step indent false es ++ rest) := by
  cases es with
  | nil => exact h
  | cons e es => exact .cons (by decide)

theorem stops_members (indent : UInt32) (ms : Members F) (h : Stops rest) :
    Stops (dumpMembers floats pretty_print indent_step indent false ms ++ rest) := by
  cases ms with
  | nil => exact h
  | cons m ms => exact .cons (by decide)

/-- The comma in front of an element and the blanks behind it. -/
theorem reads_between {α : Type} (isFirst : Bool) (indent : UInt32) (a : α) (l : List α)
    {s' : List Char} (hne : ts ≠ []) (h : Reads s ts s') :
    Reads (between pretty_print isFirst indent ++ s)
      ((if isFirst then [] else Tree.separator (a :: l)) ++ ts) s' := by
  have hblanks : Reads (newline pretty_print ++ (blanks indent ++ s)) ts s' :=
    reads_congr hne ((scan_newline _ _).trans (scan_blanks _ _)) h
  cases isFirst with
  | true => exact reads_congr hne (scan_blanks indent s) h
  | false =>
    have hcomma : between pretty_print false indent ++ s =
        ',' :: (newline pretty_print ++ (blanks indent ++ s)) := by simp [between]
    rw [hcomma]
    exact reads_scan rfl hblanks

/-- The elements or members between their brackets. -/
theorem reads_brackets {type type' : TokenType} {c c' : Char} (outer : UInt32) {body : List Char}
    (hopen : ∀ s, scan (c :: s) = ⟨type, [c], s⟩) (hclose : ∀ s, scan (c' :: s) = ⟨type', [c'], s⟩)
    (hc' : c'.isDigit = false ∧ c' ≠ '.' ∧ c' ≠ 'e' ∧ c' ≠ 'E')
    (hbody : ∀ rest, Stops rest → Reads (body ++ rest) ts rest) :
    Reads (c :: (newline pretty_print ++ (body ++ (newline pretty_print ++
      (blanks outer ++ [c'])))) ++ rest) ((type, [c]) :: (ts ++ [(type', [c'])])) rest := by
  have hstops : Stops (newline pretty_print ++ (blanks outer ++ c' :: rest)) :=
    stops_newline _ (stops_blanks _ (.cons hc'))
  have hend : Reads (newline pretty_print ++ (blanks outer ++ c' :: rest)) [(type', [c'])] rest :=
    reads_congr (List.cons_ne_nil _ _) ((scan_newline _ _).trans (scan_blanks _ _))
      (reads_scan (hclose rest) rfl)
  have hread := reads_congr (List.append_ne_nil_of_right_ne_nil _ (List.cons_ne_nil _ _))
    (scan_newline pretty_print _) ((hbody _ hstops).append hend)
  have hall := reads_scan (hopen _) hread
  simp only [List.cons_append, List.append_assoc] at hall ⊢
  exact hall

theorem tokens_ne_nil (t : Tree) : t.tokens ≠ [] := List.length_pos_iff.mp (length_tokens_pos t)

theorem reads_elements {es : List (Value F)}
    (h : ∀ e ∈ es, Written floats pretty_print indent_step e) (indent : UInt32) (isFirst : Bool)
    (hrest : Stops rest) :
    Reads (dumpElements floats pretty_print indent_step indent isFirst es ++ rest)
      ((if isFirst then [] else Tree.separator es) ++ Tree.elementTokens (elementTrees floats es))
      rest := by
  induction es generalizing isFirst with
  | nil => cases isFirst <;> exact rfl
  | cons e es ih =>
    obtain ⟨he, hes⟩ := List.forall_mem_cons.mp h
    have hread := (he indent _ (stops_elements indent es hrest)).append (ih hes false)
    have hseparator : Tree.separator (elementTrees floats es) = Tree.separator es := by
      cases es <;> rfl
    rw [dumpElements, elementTrees, Tree.elementTokens, List.append_assoc, List.append_assoc,
      hseparator]
    exact reads_between isFirst indent e es
      (List.append_ne_nil_of_left_ne_nil (tokens_ne_nil _) _) hread

theorem reads_members {ms : Members F}
    (h : ∀ m ∈ ms, Written floats pretty_print indent_step m.2) (indent : UInt32) (isFirst : Bool)
    (hrest : Stops rest) :
    Reads (dumpMembers floats pretty_print indent_step indent isFirst ms ++ rest)
      ((if isFirst then [] else Tree.separator ms) ++ Tree.memberTokens (memberTrees floats ms))
      rest := by
  induction ms generalizing isFirst with
  | nil => cases isFirst <;> exact rfl
  | cons m ms ih =>
    obtain ⟨key, v⟩ := m
    obtain ⟨hv, hms⟩ := List.forall_mem_cons.mp h
    have hread := (hv indent _ (stops_members indent ms hrest)).append (ih hms false)
    have hseparator : Tree.separator (memberTrees floats ms) = Tree.separator ms := by
      cases ms with
      | nil => rfl
      | cons m ms => rfl
    have hblank : ∀ s, scan ((if pretty_print then [' '] else []) ++ s) = scan s := by
      intro s
      cases pretty_print with
      | false => rfl
      | true => exact scan_blank rfl s
    have hvalue := reads_congr (List.append_ne_nil_of_left_ne_nil (tokens_ne_nil _) _)
      (hblank _) hread
    have hcolon := reads_scan (s := ':' :: _) rfl hvalue
    have hkey := reads_scan (scan_quoted key _) hcolon
    rw [dumpMembers, memberTrees, Tree.memberTokens, hseparator]
    simp only [List.append_assoc, List.cons_append] at hkey ⊢
    exact reads_between isFirst indent (key, v) ms (List.cons_ne_nil _ _) hkey

/-- The text of a value reads as its tree, if its numbers are written as numerals. -/
theorem written {v : Value F} (hv : v.All (Printed floats)) :
    Written floats pretty_print indent_step v := by
  induction v with
  | primitive p =>
    intro indent rest hrest
    cases hv with
    | primitive hp => exact reads_primitive hp hrest
  | array es ih =>
    intro indent rest hrest
    cases hv with
    | array hes =>
      cases es with
      | nil => exact reads_scan rfl (reads_scan rfl rfl)
      | cons e es =>
        rw [Writer.dump]
        exact reads_brackets _ (fun _ => rfl) (fun _ => rfl) (by decide) fun rest hrest =>
          reads_elements (fun e he => ih e he (hes e he)) _ true hrest
  | object ms ih =>
    intro indent rest hrest
    cases hv with
    | object hms =>
      cases ms with
      | nil => exact reads_scan rfl (reads_scan rfl rfl)
      | cons m ms =>
        rw [Writer.dump]
        exact reads_brackets _ (fun _ => rfl) (fun _ => rfl) (by decide) fun rest hrest =>
          reads_members (fun m hm => ih m hm (hms m hm)) _ true hrest

/-- What is written is a layout of the tree of the value. -/
theorem layout_dump {v : Value F} (hv : v.All (Printed floats)) (indent : Int32) :
    Layout (dump floats indent v) (v.tree floats) := by
  unfold dump
  split
  · have hread := (written hv : Written floats true indent.toUInt32 v) 0 [] .nil
    rw [List.append_nil] at hread
    exact ⟨[], hread, rfl⟩
  · have hread := (written hv : Written floats false 0 v) 0 [] .nil
    rw [List.append_nil] at hread
    exact ⟨[], hread, rfl⟩

/-! ## What is read is written again -/

theorem dumpElements_reread {es : List (Value F)}
    (h : ∀ e ∈ es, ∀ indent, Writer.dump floats pretty_print indent_step indent (e.reread floats) =
      Writer.dump floats pretty_print indent_step indent e) (indent : UInt32) (isFirst : Bool) :
    dumpElements floats pretty_print indent_step indent isFirst (rereadElements floats es) =
      dumpElements floats pretty_print indent_step indent isFirst es := by
  induction es generalizing isFirst with
  | nil => rfl
  | cons e es ih =>
    obtain ⟨he, hes⟩ := List.forall_mem_cons.mp h
    rw [rereadElements, dumpElements, dumpElements, he indent, ih hes]

theorem dumpMembers_reread {ms : Members F}
    (h : ∀ m ∈ ms, ∀ indent, Writer.dump floats pretty_print indent_step indent
      (m.2.reread floats) = Writer.dump floats pretty_print indent_step indent m.2)
    (indent : UInt32) (isFirst : Bool) :
    dumpMembers floats pretty_print indent_step indent isFirst (rereadMembers floats ms) =
      dumpMembers floats pretty_print indent_step indent isFirst ms := by
  induction ms generalizing isFirst with
  | nil => rfl
  | cons m ms ih =>
    obtain ⟨key, v⟩ := m
    obtain ⟨hv, hms⟩ := List.forall_mem_cons.mp h
    have hv : Writer.dump floats pretty_print indent_step indent (v.reread floats) = _ := hv indent
    rw [rereadMembers, dumpMembers, dumpMembers, hv, ih hms]

/-- The text of the number is that of the number that is read from it. -/
def Stable (floats : Floats F) (p : Primitive F) : Prop :=
  ∀ x, p = .number_float x → primitive floats (number floats (floats.print x)) = floats.print x

theorem primitive_reread {p : Primitive F} (hp : Stable floats p) :
    primitive floats (p.reread floats) = primitive floats p := by
  cases p with
  | number_integer n =>
    rw [Primitive.reread, integer]
    split
    · rename_i hn
      have hlt : n.toInt.toNat < 2 ^ 64 := by
        have := n.toInt_lt
        omega
      rw [primitive, primitive, UInt64.toNat_ofNat_of_lt' hlt, Int.toNat_of_nonneg hn]
    · rfl
  | number_float x => exact hp x rfl
  | null | string s | boolean b | number_unsigned n => rfl

theorem dump_reread_at {v : Value F} (hv : v.All (Stable floats)) (indent : UInt32) :
    Writer.dump floats pretty_print indent_step indent (v.reread floats) =
      Writer.dump floats pretty_print indent_step indent v := by
  induction v generalizing indent with
  | primitive p =>
    cases hv with
    | primitive hp => exact primitive_reread hp
  | array es ih =>
    cases hv with
    | array hes =>
      cases es with
      | nil => rfl
      | cons e es =>
        have h := dumpElements_reread fun e he => ih e he (hes e he)
        rw [rereadElements] at h
        rw [Value.reread, rereadElements, Writer.dump, Writer.dump, h]
  | object ms ih =>
    cases hv with
    | object hms =>
      cases ms with
      | nil => rfl
      | cons m ms =>
        have h := dumpMembers_reread fun m hm => ih m hm (hms m hm)
        rw [rereadMembers] at h
        rw [Value.reread, rereadMembers, Writer.dump, Writer.dump, h]

/-- The document that is read is written as the first one is. -/
theorem dump_reread {v : Value F} (hv : v.All (Stable floats)) (indent : Int32) :
    dump floats indent (v.reread floats) = dump floats indent v := by
  unfold dump
  split
  · exact dump_reread_at hv 0
  · exact dump_reread_at hv 0

/-- What is written of a document is read as the document, with its numbers as they read, and
that document is written as the first one is. -/
theorem parse_dump (floats : Floats F) (indent : Int32) {v : Value F} (hv : v.WellFormed)
    (hfloats : v.All (Printed floats)) :
    parse floats (dump floats indent v) = .ok (v.reread floats) ∧
      (v.All (Stable floats) →
        ∀ indent', dump floats indent' (v.reread floats) = dump floats indent' v) := by
  constructor
  · rw [parse_of_layout floats (layout_dump hfloats indent), value_tree floats hv]
  · exact fun hstable indent' => dump_reread hstable indent'

/-- Whole numbers are printed with one digit behind the point. -/
def wholeFloats : Floats Int where
  strtod token :=
    match token with
    | '-' :: ds => -(Nat.ofDigitChars 10 (ds.takeWhile Char.isDigit) 0 : Int)
    | ds => Nat.ofDigitChars 10 (ds.takeWhile Char.isDigit) 0
  print x := shown x ++ ['.', '0']

/-- An object with a number, and another one in an array. -/
def twoNumbers (p : Primitive Int) : Value Int :=
  .object [("a\n", .primitive p), ("b", .array [.primitive (.number_float (-3))])]

/-- The number `7` is read as an unsigned one, and is written as before. -/
theorem parse_dump_object :
    parse wholeFloats (dump wholeFloats 2 (twoNumbers (.number_integer 7))) =
      .ok (twoNumbers (.number_unsigned 7)) ∧
    dump wholeFloats (-1) (twoNumbers (.number_unsigned 7)) =
      dump wholeFloats (-1) (twoNumbers (.number_integer 7)) := by
  have hprinted : Printed wholeFloats (.number_float (-3)) := by
    intro x hx
    cases hx
    have hint : IntegerPart ['3'] :=
      .inr ⟨'3', [], rfl, by decide, List.forall_mem_singleton.mpr rfl⟩
    have hfrac : FractionPart ['.', '0'] :=
      .inr ⟨['0'], ⟨by decide, List.forall_mem_singleton.mpr rfl⟩, rfl⟩
    exact ⟨['-'], ['3'], ['.', '0'], [], .inr rfl, hint, hfrac, .inl rfl, by decide⟩
  have hstable : Stable wholeFloats (.number_float (-3)) := by
    intro x hx
    cases hx
    decide +kernel
  have hwellFormed : (twoNumbers (.number_integer 7)).WellFormed :=
    .object (by decide) (List.forall_mem_cons.mpr ⟨.primitive _, List.forall_mem_singleton.mpr
      (.array (List.forall_mem_singleton.mpr (.primitive _)))⟩)
  have hall : ∀ P : Primitive Int → Prop, P (.number_integer 7) → P (.number_float (-3)) →
      (twoNumbers (.number_integer 7)).All P := fun P hint hfloat =>
    .object (List.forall_mem_cons.mpr ⟨.primitive hint, List.forall_mem_singleton.mpr
      (.array (List.forall_mem_singleton.mpr (.primitive hfloat)))⟩)
  obtain ⟨hparse, hdump⟩ := parse_dump wholeFloats 2 hwellFormed (hall _ nofun hprinted)
  exact ⟨hparse, hdump (hall _ nofun hstable) (-1)⟩

end

end Json
