import PFPSim.Json.Parser
import Mathlib.Algebra.GroupWithZero.Nat

/-!
# The writer of the JSON library

`dump` of a value. `escape_string` fills a string of backslashes in place; it is the string
with every character escaped (`escape_string_eq`).
-/

namespace Json

/-! ## Escapes -/

namespace Writer

/-- What the character `c` needs in addition to itself. -/
def extra (c : Char) : Nat :=
  match c with
  | '"' | '\\' | '\x08' | '\x0c' | '\n' | '\r' | '\t' => 1
  | c => if c.toNat ≤ 0x1f then 5 else 0

def extra_space (s : List Char) : Nat := s.foldl (fun result c => result + extra c) 0

def hexify (v : Nat) : Char := if v < 10 then Char.ofNat (48 + v) else Char.ofNat (97 + v - 10)

/-- The string that is filled, and the position behind what is filled. -/
abbrev Filled := List Char × Nat

/-- A character behind the one at the position. -/
def advance (r : Filled) (m : Char) : Filled := (r.1.set (r.2 + 1) m, r.2 + 1)

def step (r : Filled) (c : Char) : Filled :=
  match c with
  | '"' => (r.1.set (r.2 + 1) '"', r.2 + 2)
  | '\\' => (r.1, r.2 + 2)
  | '\x08' => (r.1.set (r.2 + 1) 'b', r.2 + 2)
  | '\x0c' => (r.1.set (r.2 + 1) 'f', r.2 + 2)
  | '\n' => (r.1.set (r.2 + 1) 'n', r.2 + 2)
  | '\r' => (r.1.set (r.2 + 1) 'r', r.2 + 2)
  | '\t' => (r.1.set (r.2 + 1) 't', r.2 + 2)
  | c =>
    if c.toNat ≤ 0x1f then
      let r := ['u', '0', '0', hexify (c.toNat >>> 4), hexify (c.toNat &&& 0x0f)].foldl advance r
      (r.1, r.2 + 1)
    else (r.1.set r.2 c, r.2 + 1)

def escape_string (s : List Char) : List Char :=
  let space := extra_space s
  if space = 0 then s
  else (s.foldl step (List.replicate (s.length + space) '\\', 0)).1

/-- The escape of one character. -/
def escaped (c : Char) : List Char :=
  match c with
  | '"' => ['\\', '"']
  | '\\' => ['\\', '\\']
  | '\x08' => ['\\', 'b']
  | '\x0c' => ['\\', 'f']
  | '\n' => ['\\', 'n']
  | '\r' => ['\\', 'r']
  | '\t' => ['\\', 't']
  | c =>
    if c.toNat ≤ 0x1f then
      ['\\', 'u', '0', '0', hexify (c.toNat >>> 4), hexify (c.toNat &&& 0x0f)]
    else [c]

theorem length_escaped (c : Char) : (escaped c).length = 1 + extra c := by
  unfold escaped extra
  split
  case h_8 => split <;> rfl
  all_goals rfl

theorem escaped_eq_singleton {c : Char} (h : extra c = 0) : escaped c = [c] := by
  unfold extra at h
  unfold escaped
  split at h
  case h_8 =>
    rename_i hne
    split at h
    · cases h
    · rename_i hle
      simp only [if_neg hle]
  all_goals cases h

theorem extra_space_eq (s : List Char) : extra_space s = (s.map extra).sum := by
  have hfold : ∀ n, s.foldl (fun result c => result + extra c) n = n + (s.map extra).sum := by
    induction s with
    | nil => exact fun n => rfl
    | cons c s ih =>
      intro n
      rw [List.foldl_cons, ih, List.map_cons, List.sum_cons, Nat.add_assoc]
  rw [extra_space, hfold, Nat.zero_add]

theorem length_flatMap_escaped (s : List Char) :
    (s.flatMap escaped).length = s.length + extra_space s := by
  rw [extra_space_eq]
  induction s with
  | nil => rfl
  | cons c s ih =>
    rw [List.flatMap_cons, List.length_append, ih, length_escaped, List.map_cons, List.sum_cons,
      List.length_cons]
    omega

theorem set_append (front l : List Char) (k : Nat) (c : Char) :
    (front ++ l).set (front.length + k) c = front ++ l.set k c := by
  rw [List.set_append_right _ _ (Nat.le_add_right _ _), Nat.add_sub_cancel_left]

theorem advance_append (front l : List Char) (m c d : Char) :
    advance (front ++ m :: d :: l, front.length) c =
      ((front ++ [m]) ++ c :: l, (front ++ [m]).length) := by
  rw [advance, set_append, List.append_assoc, List.length_append]
  rfl

/-- A step fills in the escape of its character. -/
theorem step_eq (front : List Char) (c : Char) (n : Nat) :
    step (front ++ List.replicate ((escaped c).length + n) '\\', front.length) c =
      (front ++ escaped c ++ List.replicate n '\\', (front ++ escaped c).length) := by
  have htwo : List.replicate (2 + n) '\\' = '\\' :: '\\' :: List.replicate n '\\' := by
    rw [Nat.add_comm]
    rfl
  have hshort : ∀ m, ((front ++ List.replicate (2 + n) '\\').set (front.length + 1) m,
      front.length + 2) =
        (front ++ ['\\', m] ++ List.replicate n '\\', (front ++ ['\\', m]).length) := by
    intro m
    rw [htwo, set_append, List.append_assoc, List.length_append]
    rfl
  unfold step
  split
  · exact hshort '"'
  · rw [List.append_assoc, List.length_append, show escaped '\\' = ['\\', '\\'] from rfl,
      List.length_cons, List.length_singleton, htwo]
    rfl
  · exact hshort 'b'
  · exact hshort 'f'
  · exact hshort 'n'
  · exact hshort 'r'
  · exact hshort 't'
  · rename_i h₁ h₂ h₃ h₄ h₅ h₆ h₇
    rw [escaped.eq_8 c h₁ h₂ h₃ h₄ h₅ h₆ h₇]
    split
    · have hsix : List.replicate (6 + n) '\\' = '\\' :: '\\' :: '\\' :: '\\' :: '\\' :: '\\' ::
          List.replicate n '\\' := by
        rw [Nat.add_comm]
        rfl
      rw [show List.length _ = 6 from rfl, hsix]
      simp only [List.foldl_cons, List.foldl_nil, advance_append]
      simp
    · have hone : List.replicate (1 + n) '\\' = '\\' :: List.replicate n '\\' := by
        rw [Nat.add_comm]
        rfl
      have hset := set_append front ('\\' :: List.replicate n '\\') 0 c
      rw [List.length_singleton, hone, List.append_assoc, List.length_append]
      exact Prod.ext hset rfl

theorem foldl_step (s front : List Char) (n : Nat) :
    (s.foldl step (front ++ List.replicate ((s.flatMap escaped).length + n) '\\', front.length)).1 =
      front ++ s.flatMap escaped ++ List.replicate n '\\' := by
  induction s generalizing front with
  | nil => rw [List.foldl_nil, List.flatMap_nil, List.length_nil, Nat.zero_add, List.append_nil]
  | cons c s ih =>
    rw [List.foldl_cons, List.flatMap_cons, List.length_append, Nat.add_assoc, step_eq, ih,
      List.append_assoc front]

/-- The string that is filled in place is the escape of every character. -/
theorem escape_string_eq (s : List Char) : escape_string s = s.flatMap escaped := by
  unfold escape_string
  simp only
  split
  · rename_i hspace
    rw [extra_space_eq, List.sum_eq_zero_iff_forall_eq_nat] at hspace
    have hsingle : ∀ c ∈ s, escaped c = [c] := fun c hc =>
      escaped_eq_singleton (hspace _ (List.mem_map_of_mem hc))
    rw [List.flatMap_congr hsingle, List.flatMap_singleton']
  · have hfill := foldl_step s [] 0
    rw [List.nil_append, Nat.add_zero, length_flatMap_escaped] at hfill
    rw [show (0 : Nat) = ([] : List Char).length from rfl, hfill]
    simp

/-! ## Values -/

/-- What a stream prints of an integer. -/
def shown : Int → List Char
  | .ofNat n => Nat.toDigits 10 n
  | .negSucc n => '-' :: Nat.toDigits 10 (n + 1)

variable {F : Type} (floats : Floats F)

def quoted (s : String) : List Char := '"' :: (escape_string s.toList ++ ['"'])

def primitive : Primitive F → List Char
  | .null => ['n', 'u', 'l', 'l']
  | .string s => quoted s
  | .boolean true => ['t', 'r', 'u', 'e']
  | .boolean false => ['f', 'a', 'l', 's', 'e']
  | .number_integer n => shown n.toInt
  | .number_unsigned n => shown n.toNat
  | .number_float x => floats.print x

/-- `string_t(indent, ' ')`. -/
def blanks (indent : UInt32) : List Char := List.replicate indent.toNat ' '

variable (pretty_print : Bool) (indent_step : UInt32)

def newline : List Char := if pretty_print then ['\n'] else []

/-- The indentation of the elements of a value with `current_indent`. -/
def deeper (current_indent : UInt32) : UInt32 :=
  if pretty_print then current_indent + indent_step else current_indent

/-- The indentation in front of the closing bracket. -/
def back (new_indent : UInt32) : UInt32 :=
  if pretty_print then new_indent - indent_step else new_indent

/-- What is in front of an element. -/
def between (isFirst : Bool) (new_indent : UInt32) : List Char :=
  (if isFirst then [] else ',' :: newline pretty_print) ++ blanks new_indent

mutual

def dump (current_indent : UInt32) : Value F → List Char
  | .primitive p => primitive floats p
  | .array [] => ['[', ']']
  | .array (e :: es) =>
    let new_indent := deeper pretty_print indent_step current_indent
    '[' :: (newline pretty_print ++ (dumpElements new_indent true (e :: es) ++
      (newline pretty_print ++ (blanks (back pretty_print indent_step new_indent) ++ [']']))))
  | .object [] => ['{', '}']
  | .object (m :: ms) =>
    let new_indent := deeper pretty_print indent_step current_indent
    '{' :: (newline pretty_print ++ (dumpMembers new_indent true (m :: ms) ++
      (newline pretty_print ++ (blanks (back pretty_print indent_step new_indent) ++ ['}']))))

def dumpElements (new_indent : UInt32) (isFirst : Bool) : List (Value F) → List Char
  | [] => []
  | e :: es => between pretty_print isFirst new_indent ++ (dump new_indent e ++
      dumpElements new_indent false es)

def dumpMembers (new_indent : UInt32) (isFirst : Bool) : Members F → List Char
  | [] => []
  | (key, v) :: ms => between pretty_print isFirst new_indent ++ (quoted key ++
      (':' :: ((if pretty_print then [' '] else []) ++ (dump new_indent v ++
        dumpMembers new_indent false ms))))

end

end Writer

/-- The public `dump`. -/
def dump {F : Type} (floats : Floats F) (indent : Int32) (v : Value F) : List Char :=
  if 0 ≤ indent then Writer.dump floats true indent.toUInt32 0 v
  else Writer.dump floats false 0 0 v

example : dump (F := Unit) ⟨fun _ => (), fun _ => []⟩ 2
    (.object [("a", .array [.primitive (.number_integer (-7)), .array []])]) =
      "\x7b\n  \"a\": [\n    -7,\n    []\n  ]\n\x7d".toList := by
  decide +kernel

end Json
