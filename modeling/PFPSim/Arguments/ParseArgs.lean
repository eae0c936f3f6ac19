import PFPSim.Arguments.Getopt

/-!
# The options on the command line

`parse_args` with `getopt_long` as a parameter, which comes with its own variables and is
handed `argv` and `optind`. A user option takes the argument that is reported and the next
element of `argv` as well. Neither is checked to be there (`turns_fault`).
-/

namespace Pfp.Core

open Arguments

def optstring : String := "hc:X:v:o:d"

def long_options : List LongOption :=
  [⟨"config-root", .required_argument, 'c'⟩, ⟨"verbosity", .required_argument, 'v'⟩,
    ⟨"help", .no_argument, 'h'⟩, ⟨"output", .required_argument, 'o'⟩,
    ⟨"debugger", .no_argument, 'd'⟩, ⟨"UserOpt", .optional_argument, 'X'⟩]

/-- What `exit_usage` prints. -/
def usage (name : String) : String :=
  "PFPSim-generated simulation model:\nUsage:\n   " ++ name ++
    " [(-c|--config-root) <path>] [(-v|--verbosity) ] [-X<option>]+\n   " ++ name ++
    " --help|-h\n"

inductive Parsed where
  | returned (config verbose_level outputdir : String) (user_args : List String)
    (debugger_enabled : Bool)
  /-- `exit(1)` behind the text. -/
  | exit_usage (printed : String)
  /-- A string is built from a null pointer, or from beyond `argv`. -/
  | fault
  deriving DecidableEq

/-- The variables of the loop. -/
structure ParseLoop (g : Getopt) where
  state : g.State
  argv : List String
  optind : Nat := 1
  config_root : Option String := none
  verbosity : Option String := none
  output : Option String := none
  user_args : List String := []
  debugger_enabled : Bool := false
  printed : String := ""

variable {g : Getopt}

namespace ParseLoop

def start (g : Getopt) (argv : List String) : ParseLoop g := { state := g.init, argv }

def call (s : ParseLoop g) : Report g.State :=
  g.getopt_long s.state s.argv s.optind optstring long_options

def exit_usage (s : ParseLoop g) : Parsed :=
  .exit_usage (s.printed ++ usage ((s.argv[0]?).getD ""))

/-- What follows the loop. -/
def finish (s : ParseLoop g) : Parsed :=
  match s.argv[s.optind]? with
  | some arg => exit_usage { s with
      printed := s.printed ++ "Unexpected argument " ++ arg ++ "\n" }
  | none => .returned (s.config_root.getD "./Configs/") (s.verbosity.getD "normal")
      (s.output.getD "./") s.user_args s.debugger_enabled

/-- The variables behind the call. -/
def called (s : ParseLoop g) : ParseLoop g :=
  { s with state := s.call.state, argv := s.call.argv, optind := s.call.optind }

/-- One turn of the loop, which is left with `error`. -/
def turn (s : ParseLoop g) : Except Parsed (ParseLoop g) :=
  match s.call.c with
  | some 'h' => .error s.called.exit_usage
  | some 'c' =>
    if s.config_root.isNone then .ok { s.called with config_root := s.call.optarg }
    else .error s.called.exit_usage
  | some 'v' =>
    if s.verbosity.isNone then .ok { s.called with verbosity := s.call.optarg }
    else .error s.called.exit_usage
  | some 'o' =>
    if s.output.isNone then .ok { s.called with output := s.call.optarg }
    else .error s.called.exit_usage
  | some 'X' =>
    match s.call.optarg, s.call.argv[s.call.optind]? with
    | some key, some value => .ok { s.called with
        user_args := s.user_args ++ [key ++ "=" ++ value], optind := s.call.optind + 1 }
    | _, _ => .error .fault
  | some 'd' => .ok { s.called with debugger_enabled := true }
  | some '?' => .error s.called.exit_usage
  | none => .error s.called.finish
  | some c => .ok { s.called with
      printed := s.printed ++ "Internal Error. ?? getopt returned " ++ toString c.toNat ++ "\n" }

def turns : Nat → ParseLoop g → Except Parsed (ParseLoop g)
  | 0, s => .ok s
  | n + 1, s => (turns n s).bind turn

theorem turn_option {s : ParseLoop g} {key value : String} {optind : Nat} {argv : List String}
    {state : g.State} (hcall : s.call = ⟨some 'X', some key, optind, argv, state⟩)
    (hvalue : argv[optind]? = some value) : s.turn = .ok { s with
      state
      argv
      optind := optind + 1
      user_args := s.user_args ++ [key ++ "=" ++ value] } := by
  simp only [turn, called, hcall, hvalue]

theorem turn_end {s : ParseLoop g} {optarg : Option String} {optind : Nat} {argv : List String}
    {state : g.State} (hcall : s.call = ⟨none, optarg, optind, argv, state⟩) :
    s.turn = .error (finish { s with state, argv, optind }) := by
  simp only [turn, called, hcall]

/-! ## Faults -/

/-- A user option comes with an argument, and there is an element after it. -/
def Supplied (s : ParseLoop g) : Prop :=
  s.call.c = some 'X' → s.call.optarg.isSome ∧ s.call.optind < s.call.argv.length

theorem finish_ne_fault (s : ParseLoop g) : s.finish ≠ .fault := by
  unfold finish
  split
  · exact Parsed.noConfusion
  · exact Parsed.noConfusion

/-- Nothing but a user option builds a string from what may be missing. -/
theorem turn_ne_fault {s : ParseLoop g} (h : s.call.c ≠ some 'X') : s.turn ≠ .error .fault := by
  have hexit : ∀ s : ParseLoop g, (.error s.exit_usage : Except Parsed (ParseLoop g)) ≠
      .error .fault := fun _ heq => Parsed.noConfusion (Except.error.inj heq)
  have hok : ∀ s : ParseLoop g, (.ok s : Except Parsed (ParseLoop g)) ≠ .error .fault :=
    fun _ heq => by cases heq
  unfold turn
  split
  case h_5 hX => exact absurd hX h
  case h_8 => exact fun heq => finish_ne_fault _ (Except.error.inj heq)
  case h_2 | h_3 | h_4 =>
    split
    · exact hok _
    · exact hexit _
  case h_1 | h_7 => exact hexit _
  case h_6 | h_9 => exact hok _

theorem turn_fault (s : ParseLoop g) : s.turn = .error .fault ↔ ¬ s.Supplied := by
  by_cases hX : s.call.c = some 'X'
  · simp only [turn, hX, Supplied, true_implies]
    cases s.call.optarg with
    | none => simp
    | some key =>
      cases hvalue : s.call.argv[s.call.optind]? with
      | none => simpa using hvalue
      | some value =>
        have hlt := (List.getElem?_eq_some_iff.mp hvalue).1
        simp [hlt]
  · have hsupplied : s.Supplied := fun h => absurd h hX
    exact iff_of_false (turn_ne_fault hX) (not_not.mpr hsupplied)

/-- The loop is safe exactly if every user option that it comes to is supplied. -/
theorem turns_fault (s : ParseLoop g) : (∀ n, turns n s ≠ .error .fault) ↔
    ∀ n s', turns n s = .ok s' → s'.Supplied := by
  constructor
  · intro hsafe n s' hs'
    by_contra hsupplied
    apply hsafe (n + 1)
    rw [turns, hs']
    exact (turn_fault s').mpr hsupplied
  · intro hsupplied n
    induction n with
    | zero => nofun
    | succ n ih =>
      rw [turns]
      cases hs' : turns n s with
      | error o =>
        rw [hs'] at ih
        exact ih
      | ok s' => exact fun hfault => (turn_fault s').mp hfault (hsupplied n s' hs')

/-- The loop is left once. -/
theorem turns_left {s : ParseLoop g} {n : Nat} {o : Parsed} (h : turns n s = .error o) (k : Nat) :
    turns (n + k) s = .error o := by
  induction k with
  | zero => exact h
  | succ k ih =>
    rw [← Nat.add_assoc, turns, ih]
    rfl

theorem safe_of_returned {s : ParseLoop g} {n : Nat} {o : Parsed} (h : turns n s = .error o)
    (ho : o ≠ .fault) (m : Nat) : turns m s ≠ .error .fault := by
  intro hfault
  have hleft := turns_left h m
  have hfault := turns_left hfault n
  rw [Nat.add_comm, hleft] at hfault
  exact ho (Except.error.inj hfault)

end ParseLoop

end Pfp.Core
