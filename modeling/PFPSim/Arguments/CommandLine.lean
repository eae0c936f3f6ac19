import PFPSim.Arguments.ParseArgs
import PFPSim.Maps.Enumeration
import Mathlib.Data.List.Induction

/-!
# The arguments of the user

The words of the user options are joined by `parse_args`, and split at the first equals sign
by `set_command_line_arg_vector`. With keys that have no such sign the last option of a key
decides (`delivered`).
-/

namespace Pfp.Core

open Arguments

/-! ## The configuration -/

abbrev ArgMap := Std.ExtTreeMap String String compare

def set_command_line_arg (argMap : ArgMap) (arg : String) : Except String ArgMap :=
  match arg.toList.findIdx? (· = '=') with
  | none => .error ("Invalid key-value pair syntax " ++ arg ++ " in command line args")
  | some equals => .ok (argMap.insert (String.ofList (arg.toList.take equals))
      (String.ofList (arg.toList.drop (equals + 1))))

def set_command_line_arg_vector (argMap : ArgMap) (args : List String) : Except String ArgMap :=
  args.foldlM set_command_line_arg argMap

def get_command_line_arg (argMap : ArgMap) (key : String) : Except String String :=
  match argMap[key]? with
  | none => .error ("Missing required command line arg " ++ key)
  | some val => .ok val

theorem set_command_line_arg_join (argMap : ArgMap) {key : String} (hkey : '=' ∉ key.toList)
    (value : String) :
    set_command_line_arg argMap (key ++ "=" ++ value) = .ok (argMap.insert key value) := by
  have hlist : (key ++ "=" ++ value).toList = key.toList ++ '=' :: value.toList := by
    simp
  have hindex : (key ++ "=" ++ value).toList.findIdx? (· = '=') = some key.toList.length := by
    have hnone : key.toList.findIdx? (· = '=') = none := by
      rw [List.findIdx?_eq_none_iff]
      intro c hc
      exact decide_eq_false fun heq => hkey (heq ▸ hc)
    rw [hlist, List.findIdx?_append, hnone, List.findIdx?_cons]
    simp
  rw [set_command_line_arg, hindex, hlist]
  simp

/-- The options in their order. -/
theorem set_command_line_arg_vector_join (l : List (String × String))
    (hkeys : ∀ o ∈ l, '=' ∉ o.1.toList) (argMap : ArgMap) :
    set_command_line_arg_vector argMap (l.map fun o => o.1 ++ "=" ++ o.2) =
      .ok (l.foldl (fun m o => m.insert o.1 o.2) argMap) := by
  induction l generalizing argMap with
  | nil => rfl
  | cons o l ih =>
    obtain ⟨hkey, hkeys⟩ := List.forall_mem_cons.mp hkeys
    rw [set_command_line_arg_vector, List.map_cons, List.foldlM_cons,
      set_command_line_arg_join argMap hkey]
    exact ih hkeys _

/-- The value of the last option of a key. -/
def lastOption (l : List (String × String)) (key : String) : Option String :=
  ((l.filter fun o => o.1 = key).getLast?).map Prod.snd

theorem get_options (l : List (String × String)) (key : String) :
    (l.foldl (fun m o => m.insert o.1 o.2) (∅ : ArgMap))[key]? = lastOption l key := by
  unfold lastOption
  induction l using List.reverseRecOn with
  | nil => simp
  | append_singleton l o ih =>
    rw [List.foldl_append, List.foldl_cons, List.foldl_nil, Maps.get_insert, List.filter_append]
    by_cases hkey : o.1 = key
    · simp [hkey]
    · simp [hkey, ih]

/-! ## User options -/

/-- The words of a user option. -/
def words (o : String × String) : List String := ["-X", o.1, o.2]

theorem length_words (l : List (String × String)) : (l.flatMap words).length = 3 * l.length := by
  induction l with
  | nil => rfl
  | cons o l ih =>
    rw [List.flatMap_cons, List.length_append, ih, List.length_cons]
    simp only [words, List.length_cons, List.length_nil]
    omega

theorem get_behind (prog : String) (l : List (String × String)) (rest : List String) (r : Nat) :
    (prog :: (l.flatMap words ++ rest))[1 + 3 * l.length + r]? = rest[r]? := by
  rw [show 1 + 3 * l.length + r = 3 * l.length + r + 1 by omega, List.getElem?_cons_succ,
    List.getElem?_append_right (by rw [length_words]; omega), length_words,
    show 3 * l.length + r - 3 * l.length = r by omega]

theorem letter_X : letter optstring 'X' = some .required_argument := by decide

variable {g : Getopt}

namespace ParseLoop

/-- The variables behind the user options `l`. -/
def behind (g : Getopt) (argv : List String) (l : List (String × String)) (state : g.State) :
    ParseLoop g :=
  { start g argv with
    state
    optind := 1 + 3 * l.length
    user_args := l.map fun o => o.1 ++ "=" ++ o.2 }

section

variable {prog key value : String} {l : List (String × String)} {rest argv : List String}
  {state : g.State} (hg : g.Documented optstring long_options)

include hg

/-- The next user option is read. -/
theorem call_behind
    (h : g.Between optstring long_options argv state (1 + 3 * l.length))
    (hargv : argv = prog :: (l.flatMap words ++ "-X" :: key :: rest)) :
    ∃ state', (behind g argv l state).call =
        ⟨some 'X', some key, 1 + 3 * l.length + 2, argv, state'⟩ ∧
      g.Between optstring long_options argv state' (1 + 3 * l.length + 2) := by
  have hoption := get_behind prog l ("-X" :: key :: rest) 0
  have hargument := get_behind prog l ("-X" :: key :: rest) 1
  rw [← hargv] at hoption hargument
  obtain ⟨state', hcall⟩ := hg.separate h letter_X hoption hargument
  have hbetween := h.option letter_X hoption (List.getElem?_eq_some_iff.mp hargument).1
  rw [hcall] at hbetween
  exact ⟨state', hcall, hbetween⟩

theorem turn_behind
    (h : g.Between optstring long_options argv state (1 + 3 * l.length))
    (hargv : argv = prog :: (l.flatMap words ++ "-X" :: key :: value :: rest)) :
    ∃ state', (behind g argv l state).turn = .ok (behind g argv (l ++ [(key, value)]) state') ∧
      g.Between optstring long_options argv state' (1 + 3 * (l ++ [(key, value)]).length) := by
  obtain ⟨state', hcall, hbetween⟩ := call_behind hg h hargv
  have hvalue := get_behind prog l ("-X" :: key :: value :: rest) 2
  rw [← hargv] at hvalue
  have hoptind : 1 + 3 * (l ++ [(key, value)]).length = 1 + 3 * l.length + 2 + 1 := by
    rw [List.length_append, List.length_singleton]
    omega
  refine ⟨state', ?_, ?_⟩
  · rw [turn_option hcall hvalue]
    simp only [behind, hoptind, List.map_append, List.map_cons, List.map_nil]
    rfl
  · rw [hoptind]
    exact hbetween.advance (List.getElem?_eq_some_iff.mp hvalue).1

/-- The loop over the user options. -/
theorem turns_options (hargv : argv = prog :: (l.flatMap words ++ rest)) :
    ∃ state, turns l.length (start g argv) = .ok (behind g argv l state) ∧
      g.Between optstring long_options argv state (1 + 3 * l.length) := by
  induction l using List.reverseRecOn generalizing rest with
  | nil => exact ⟨g.init, rfl, .start⟩
  | append_singleton l o ih =>
    have hsplit : argv = prog :: (l.flatMap words ++ "-X" :: o.1 :: o.2 :: rest) := by
      simpa [words] using hargv
    obtain ⟨state, hturns, hbetween⟩ := ih hsplit
    obtain ⟨state', hturn, hbetween'⟩ := turn_behind hg hbetween hsplit
    refine ⟨state', ?_, hbetween'⟩
    rw [List.length_append, List.length_singleton, turns, hturns]
    exact hturn

/-- A user option at the end, of which the value is missing. -/
theorem key_at_end (hargv : argv = prog :: (l.flatMap words ++ ["-X", key])) :
    turns (l.length + 1) (start g argv) = .error .fault := by
  obtain ⟨state, hturns, hbetween⟩ := turns_options hg hargv
  obtain ⟨state', hcall, -⟩ := call_behind hg hbetween hargv
  have hvalue := get_behind prog l ["-X", key] 2
  rw [← hargv] at hvalue
  rw [turns, hturns]
  refine (turn_fault _).mpr ?_
  intro hsupplied
  have hlt := (hsupplied (by rw [hcall])).2
  rw [hcall] at hlt
  rw [List.getElem?_eq_getElem hlt] at hvalue
  cases hvalue

end

end ParseLoop

/-! ## Delivery -/

/-- `parse_args` returns the user options `l`, which are stored: a key has the value of its
last option, and a request for a key without an option is refused. -/
def Delivered (g : Getopt) (argv : List String) (l : List (String × String)) : Prop :=
  ∃ n user_args argMap,
    ParseLoop.turns n (.start g argv) =
      .error (.returned "./Configs/" "normal" "./" user_args false) ∧
    set_command_line_arg_vector ∅ user_args = .ok argMap ∧
    ∀ key, get_command_line_arg argMap key = match lastOption l key with
      | some value => .ok value
      | none => .error ("Missing required command line arg " ++ key)

theorem delivered (hg : g.Documented optstring long_options) {prog : String}
    {l : List (String × String)} {argv : List String} (hargv : argv = prog :: l.flatMap words)
    (hkeys : ∀ o ∈ l, '=' ∉ o.1.toList) : Delivered g argv l := by
  have hlength : 1 + 3 * l.length = argv.length := by
    rw [hargv, List.length_cons, length_words, Nat.add_comm]
  have hnil : argv = prog :: (l.flatMap words ++ []) := by
    rw [hargv, List.append_nil]
  obtain ⟨state, hturns, hbetween⟩ := ParseLoop.turns_options hg hnil
  rw [hlength] at hbetween
  obtain ⟨state', hend⟩ := hg.exhausted hbetween
  have hcall : (ParseLoop.behind g argv l state).call =
      ⟨none, none, argv.length, argv, state'⟩ := by
    rw [ParseLoop.call, ParseLoop.behind, hlength]
    exact hend
  refine ⟨l.length + 1, l.map fun o => o.1 ++ "=" ++ o.2, _, ?_,
    set_command_line_arg_vector_join l hkeys ∅, ?_⟩
  · rw [ParseLoop.turns, hturns]
    refine (ParseLoop.turn_end hcall).trans ?_
    simp only [ParseLoop.finish, List.getElem?_length]
    rfl
  · intro key
    rw [get_command_line_arg, get_options]
    cases lastOption l key with
    | none => rfl
    | some value => rfl

/-- The command line is read without a fault, and user options are delivered. -/
structure CommandLine (g : Getopt) (argv : List String) : Prop where
  safe : ∀ n, ParseLoop.turns n (.start g argv) ≠ .error .fault
  delivered : ∀ prog l, argv = prog :: l.flatMap words → (∀ o ∈ l, '=' ∉ o.1.toList) →
    Delivered g argv l

/-- The options are parsed safely exactly if each user option that `getopt_long` reports
comes with an argument and is not at the end of `argv`. -/
theorem command_line_iff (hg : g.Documented optstring long_options) (argv : List String) :
    CommandLine g argv ↔ ∀ n s, ParseLoop.turns n (.start g argv) = .ok s → s.Supplied := by
  rw [← ParseLoop.turns_fault]
  constructor
  · exact CommandLine.safe
  · intro hsafe
    refine ⟨hsafe, ?_⟩
    intro prog l hargv hkeys
    exact Pfp.Core.delivered hg hargv hkeys

/-- A user option in full. -/
theorem option_delivered : CommandLine posix ["model", "-X", "key", "value"] := by
  have hdoc : posix.Documented optstring long_options := posix_documented (by decide)
  refine (command_line_iff hdoc _).mpr ((ParseLoop.turns_fault _).mp ?_)
  obtain ⟨n, user_args, argMap, hreturned, -⟩ :=
    delivered (l := [("key", "value")]) hdoc rfl (by decide)
  exact ParseLoop.safe_of_returned hreturned Parsed.noConfusion

/-- A user option at the end without its value, and one without an argument. -/
theorem missing_words : ¬ CommandLine posix ["model", "-X", "key"] ∧
    ¬ CommandLine posix ["model", "--UserOpt"] := by
  have hdoc : posix.Documented optstring long_options := posix_documented (by decide)
  constructor
  · intro h
    exact h.safe 1 (ParseLoop.key_at_end (l := []) hdoc rfl)
  · intro h
    apply h.safe 1
    rfl

end Pfp.Core
