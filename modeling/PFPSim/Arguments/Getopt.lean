import Mathlib.Data.List.Basic

/-!
# `getopt_long`

The interface of `getopt_long` as a parameter, with the part of its documentation that
programs rely on (`Documented`), and a function of that interface which ends the scan at the
first element that is no option (`posix`).
-/

namespace Arguments

inductive HasArg where
  | no_argument
  | required_argument
  | optional_argument
  deriving DecidableEq

/-- An `option` with no `flag`. -/
structure LongOption where
  name : String
  has_arg : HasArg
  val : Char

/-- What a call returns, with `none` for `-1`, and leaves in `optarg`, `optind` and `argv`. -/
structure Report (State : Type) where
  c : Option Char
  optarg : Option String
  optind : Nat
  argv : List String
  state : State

/-- The function, with its own variables. -/
structure Getopt where
  State : Type
  init : State
  getopt_long (state : State) (argv : List String) (optind : Nat) (optstring : String)
    (longopts : List LongOption) : Report State

/-- What an option letter takes, by the colons behind it. -/
def letter (optstring : String) (c : Char) : Option HasArg :=
  if c = ':' then none
  else
    match optstring.toList.dropWhile (· ≠ c) with
    | [] => none
    | _ :: ':' :: ':' :: _ => some .optional_argument
    | _ :: ':' :: _ => some .required_argument
    | _ => some .no_argument

/-- The element with one option letter. -/
def shortOption (c : Char) : String := String.ofList ['-', c]

namespace Getopt

variable (g : Getopt) (optstring : String) (longopts : List LongOption)

/-- The scan is at element `i`, behind options that took their argument from the next
element, and elements that the caller took. -/
inductive Between (argv : List String) : g.State → Nat → Prop
  | start : Between argv g.init 1
  | option {state : g.State} {i : Nat} {c : Char} (h : Between argv state i)
      (hletter : letter optstring c = some .required_argument)
      (hoption : argv[i]? = some (shortOption c)) (hargument : i + 1 < argv.length) :
      Between argv (g.getopt_long state argv i optstring longopts).state (i + 2)
  | advance {state : g.State} {i : Nat} (h : Between argv state i) (hi : i < argv.length) :
      Between argv state (i + 1)

/-- What is documented of the scan. -/
structure Documented : Prop where
  /-- An option letter with an argument, where its element ends: the argument is the next
  element, and `optind` the index of the one after it. -/
  separate : ∀ {argv state i c a}, g.Between optstring longopts argv state i →
    letter optstring c = some .required_argument → argv[i]? = some (shortOption c) →
    argv[i + 1]? = some a → ∃ state', g.getopt_long state argv i optstring longopts =
      ⟨some c, some a, i + 2, argv, state'⟩
  /-- No element is left. -/
  exhausted : ∀ {argv state}, g.Between optstring longopts argv state argv.length →
    ∃ state', g.getopt_long state argv argv.length optstring longopts =
      ⟨none, none, argv.length, argv, state'⟩

end Getopt

/-! ## A scan that ends at the first element that is no option -/

namespace Posix

variable (argv : List String) (next : Nat)

/-- An option letter in an element whose further letters are `cs`, with the index of the
next element. -/
def short (optstring : String) (c : Char) (cs : List Char) : Report (List Char) :=
  match letter optstring c with
  | none => ⟨some '?', none, if cs = [] then next else next - 1, argv, cs⟩
  | some .no_argument => ⟨some c, none, if cs = [] then next else next - 1, argv, cs⟩
  | some .required_argument =>
    if cs = [] then
      match argv[next]? with
      | some a => ⟨some c, some a, next + 1, argv, []⟩
      | none => ⟨some '?', none, next, argv, []⟩
    else ⟨some c, some (String.ofList cs), next, argv, []⟩
  | some .optional_argument =>
    ⟨some c, if cs = [] then none else some (String.ofList cs), next, argv, []⟩

/-- A long option in full, or the only one that a name abbreviates. -/
def find (longopts : List LongOption) (name : List Char) : Option LongOption :=
  (longopts.find? fun o => o.name.toList = name).or
    (match longopts.filter fun o => name.isPrefixOf o.name.toList with
      | [o] => some o
      | _ => none)

/-- An element of two hyphens and `word`. -/
def long (longopts : List LongOption) (word : List Char) : Report (List Char) :=
  match find longopts (word.takeWhile (· ≠ '=')), word.dropWhile (· ≠ '=') with
  | none, _ => ⟨some '?', none, next, argv, []⟩
  | some o, [] =>
    if o.has_arg = .required_argument then
      match argv[next]? with
      | some a => ⟨some o.val, some a, next + 1, argv, []⟩
      | none => ⟨some '?', none, next, argv, []⟩
    else ⟨some o.val, none, next, argv, []⟩
  | some o, _ :: value =>
    if o.has_arg = .no_argument then ⟨some '?', none, next, argv, []⟩
    else ⟨some o.val, some (String.ofList value), next, argv, []⟩

/-- The state are the letters that are left of the element at `optind`. -/
def getopt_long (nextchar : List Char) (argv : List String) (optind : Nat) (optstring : String)
    (longopts : List LongOption) : Report (List Char) :=
  match nextchar with
  | c :: cs => short argv (optind + 1) optstring c cs
  | [] =>
    match (argv[optind]?).map String.toList with
    | some ['-', '-'] => ⟨none, none, optind + 1, argv, []⟩
    | some ('-' :: '-' :: word) => long argv (optind + 1) longopts word
    | some ('-' :: c :: cs) => short argv (optind + 1) optstring c cs
    | _ => ⟨none, none, optind, argv, []⟩

end Posix

/-- `getopt_long` where `POSIXLY_CORRECT` is set. -/
def posix : Getopt := ⟨List Char, [], Posix.getopt_long⟩

section

variable {optstring : String} {longopts : List LongOption} {argv : List String} {i : Nat}
  {c : Char} {a : String}

theorem posix_separate (hdash : letter optstring '-' = none)
    (hletter : letter optstring c = some .required_argument)
    (hoption : argv[i]? = some (shortOption c)) (hargument : argv[i + 1]? = some a) :
    Posix.getopt_long [] argv i optstring longopts = ⟨some c, some a, i + 2, argv, []⟩ := by
  have hne : c ≠ '-' := by
    rintro rfl
    rw [hdash] at hletter
    cases hletter
  have hlist : (argv[i]?).map String.toList = some ['-', c] := by
    rw [hoption, Option.map_some, shortOption, String.toList_ofList]
  simp only [Posix.getopt_long, hlist]
  split
  next heq => exact absurd (List.cons.inj (List.cons.inj (Option.some.inj heq)).2).1 hne
  next heq => exact absurd (List.cons.inj (List.cons.inj (Option.some.inj heq)).2).1 hne
  next heq =>
    obtain ⟨rfl, rfl⟩ := List.cons.inj (List.cons.inj (Option.some.inj heq)).2
    simp only [Posix.short, hletter, hargument, if_true]
  next hother => exact absurd rfl (hother c [])

theorem posix_exhausted (h : argv[i]? = none) :
    Posix.getopt_long [] argv i optstring longopts = ⟨none, none, i, argv, []⟩ := by
  simp only [Posix.getopt_long, h, Option.map_none]

/-- Between elements no letters are left. -/
theorem posix_between (hdash : letter optstring '-' = none) {nextchar : posix.State}
    (h : posix.Between optstring longopts argv nextchar i) : nextchar = ([] : List Char) := by
  induction h with
  | start => rfl
  | option h hletter hoption hargument ih =>
    subst ih
    exact congrArg Report.state (posix_separate hdash hletter hoption
      (List.getElem?_eq_getElem hargument))
  | advance h hi ih => exact ih

theorem posix_documented (hdash : letter optstring '-' = none) :
    posix.Documented optstring longopts := by
  constructor
  · intro argv nextchar i c a h hletter hoption hargument
    obtain rfl := posix_between hdash h
    exact ⟨[], posix_separate hdash hletter hoption hargument⟩
  · intro argv nextchar h
    obtain rfl := posix_between hdash h
    exact ⟨[], posix_exhausted (List.getElem?_length argv)⟩

end

end Arguments
