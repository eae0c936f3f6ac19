import PFPSim.Arguments.CommandLine
import Mathlib.Data.List.TakeWhile

/-!
# The start of a model

What `pfp_elab_and_sim` makes of the parsed command line before it calls `pfp_main`. Every
argument of the user that `parse_args` returns has an equals sign (`user_args_joined`), so
the configuration takes all of them, and the model starts exactly if the level of verbosity
is known (`starts`).
-/

namespace Pfp.Core

open Arguments

inductive Verbosity where
  | normal
  | minimal
  | p4profile
  | profile
  | debugger
  | debug
  deriving DecidableEq

/-- `verbosity_levels_map`, in the order of `verbositylevels`. -/
def verbositylevels : List (String × Verbosity) :=
  [("normal", .normal), ("minimal", .minimal), ("p4profile", .p4profile), ("profile", .profile),
    ("debugger", .debugger), ("debug", .debug)]

structure PFPConfig where
  verbo : Verbosity
  ConfigFilePath : String
  OutputDirPath : String
  argMap : ArgMap
  debugger_flag : Bool

inductive StartUp where
  /-- `pfp_main` is called. -/
  | main (config : PFPConfig)
  | exit_usage (printed : String)
  /-- `exit(USER_ERROR_FATAL)` behind the text. -/
  | exit_fatal (printed : String)
  | runtime_error (what : String)
  | fault

/-- The last line of the message, with the file and the line that declare the levels, is left
out. -/
def set_verbose_level (verbosity_level : String) : Except String Verbosity :=
  match verbositylevels.lookup verbosity_level with
  | some level => .ok level
  | none => .error ("Error: Setting Verbose Level: " ++ verbosity_level ++ " is invalid\n" ++
      "Valid verbose levels are: " ++
      String.join (verbositylevels.map fun l => l.1 ++ ", ") ++ "\n")

/-- The position of the last `c`. -/
def rfind (s : String) (c : Char) : Option Nat :=
  (s.toList.reverse.findIdx? (· = c)).map fun i => s.toList.length - 1 - i

/-- The directory of the configuration, with a slash at its end. -/
def withSlash (config_root : String) : String :=
  let slash_pos := rfind config_root '/'
  if slash_pos = none ∨ slash_pos ≠ some (config_root.toList.length - 1) then config_root ++ "/"
  else config_root

def pfp_elab_and_sim : Parsed → StartUp
  | .exit_usage printed => .exit_usage printed
  | .fault => .fault
  | .returned config_root verbosity_level output_dir user_args debugger_enabled =>
    match set_verbose_level verbosity_level with
    | .error printed => .exit_fatal printed
    | .ok verbo =>
      match set_command_line_arg_vector ∅ user_args with
      | .error what => .runtime_error what
      | .ok argMap => .main ⟨verbo, withSlash config_root, output_dir, argMap, debugger_enabled⟩

/-! ## The directory -/

theorem rfind_eq_last_iff (s : String) (c : Char) :
    rfind s c = some (s.toList.length - 1) ↔ s.toList.getLast? = some c := by
  rw [rfind, List.getLast?_eq_head?_reverse, ← List.length_reverse]
  cases s.toList.reverse with
  | nil => simp
  | cons x l =>
    by_cases hx : x = c
    · simp [List.findIdx?_cons, hx]
    · simp only [List.findIdx?_cons, hx, decide_false, List.head?_cons, Option.some.injEq,
        iff_false]
      intro h
      obtain ⟨i, hi, heq⟩ := Option.map_eq_some_iff.mp h
      obtain ⟨j, hj, rfl⟩ := Option.map_eq_some_iff.mp hi
      have hlt := (List.findIdx?_eq_some_iff_getElem.mp hj).1
      rw [List.length_cons] at heq
      omega

theorem withSlash_eq (config_root : String) : ∃ dir, withSlash config_root = dir ++ "/" ∧
    (config_root = dir ∨ config_root = dir ++ "/") := by
  by_cases hlast : config_root.toList.getLast? = some '/'
  · obtain ⟨l, hl⟩ := List.getLast?_eq_some_iff.mp hlast
    have hroot : config_root = String.ofList l ++ "/" := by
      rw [← String.toList_inj, hl]
      simp
    have hfind := (rfind_eq_last_iff config_root '/').mpr hlast
    refine ⟨String.ofList l, ?_, .inr hroot⟩
    rw [withSlash, hfind]
    simpa using hroot
  · have hfind : rfind config_root '/' ≠ some (config_root.toList.length - 1) :=
      fun h => hlast ((rfind_eq_last_iff config_root '/').mp h)
    exact ⟨config_root, if_pos (.inr hfind), .inl rfl⟩

/-! ## The arguments of the user -/

/-- An argument at its first equals sign. -/
def splitArg (arg : String) : String × String :=
  (String.ofList (arg.toList.takeWhile (· ≠ '=')),
    String.ofList ((arg.toList.dropWhile (· ≠ '=')).drop 1))

theorem splitArg_join {arg : String} (h : '=' ∈ arg.toList) :
    arg = (splitArg arg).1 ++ "=" ++ (splitArg arg).2 ∧ '=' ∉ (splitArg arg).1.toList := by
  constructor
  · have hlist := List.takeWhile_append_dropWhile (p := fun c => decide (c ≠ '=')) (l := arg.toList)
    rw [← String.toList_inj, splitArg, String.toList_append, String.toList_append,
      String.toList_ofList, String.toList_ofList]
    cases hdrop : arg.toList.dropWhile (· ≠ '=') with
    | nil =>
      have hall := List.dropWhile_eq_nil_iff.mp hdrop '=' h
      simp at hall
    | cons c l =>
      have hc : c = '=' := by
        have hhead := List.head?_dropWhile_not (fun c => decide (c ≠ '=')) arg.toList
        rw [hdrop] at hhead
        simpa using hhead
      rw [hdrop, hc] at hlist
      rw [List.drop_one, List.tail_cons, String.toList_ofList, List.append_assoc]
      exact hlist.symm
  · intro hmem
    rw [splitArg, String.toList_ofList] at hmem
    have hne := List.mem_takeWhile_imp hmem
    simp at hne

/-- Arguments with equals signs are stored one after the other. -/
theorem set_command_line_arg_vector_split {l : List String} (hl : ∀ arg ∈ l, '=' ∈ arg.toList)
    (argMap : ArgMap) : set_command_line_arg_vector argMap l =
      .ok ((l.map splitArg).foldl (fun m o => m.insert o.1 o.2) argMap) := by
  have hjoin : (l.map splitArg).map (fun o => o.1 ++ "=" ++ o.2) = l := by
    rw [List.map_map]
    exact (List.map_congr_left fun arg harg => (splitArg_join (hl arg harg)).1.symm).trans
      (List.map_id l)
  have hkeys : ∀ o ∈ l.map splitArg, '=' ∉ o.1.toList := by
    intro o ho
    obtain ⟨arg, harg, rfl⟩ := List.mem_map.mp ho
    exact (splitArg_join (hl arg harg)).2
  rw [← set_command_line_arg_vector_join _ hkeys, hjoin]

variable {g : Getopt} {s s' : ParseLoop g} {argv : List String}
  {o : Parsed} {n : Nat}

namespace ParseLoop

theorem turn_joined (hs : ∀ arg ∈ s.user_args, '=' ∈ arg.toList) (h : s.turn = .ok s') :
    ∀ arg ∈ s'.user_args, '=' ∈ arg.toList := by
  unfold turn at h
  split at h
  case h_5 =>
    split at h
    · cases h
      intro arg harg
      rcases List.mem_append.mp harg with harg | harg
      · exact hs arg harg
      · rw [List.mem_singleton.mp harg]
        simp
    · cases h
  case h_1 | h_7 | h_8 => cases h
  case h_2 | h_3 | h_4 =>
    split at h
    · cases h
      exact hs
    · cases h
  case h_6 | h_9 =>
    cases h
    exact hs

/-- Every argument that is collected has an equals sign. -/
theorem user_args_joined (hs : ∀ arg ∈ s.user_args, '=' ∈ arg.toList) (h : turns n s = .ok s') :
    ∀ arg ∈ s'.user_args, '=' ∈ arg.toList := by
  induction n generalizing s' with
  | zero =>
    cases h
    exact hs
  | succ n ih =>
    rw [turns] at h
    cases ht : turns n s with
    | error o =>
      rw [ht] at h
      cases h
    | ok t =>
      rw [ht] at h
      exact turn_joined (ih ht) h

/-- The arguments that are returned have been collected by the loop. -/
theorem turn_returned {config verbose_level outputdir : String} {user_args : List String}
    {debugger_enabled : Bool} (h : s.turn = .error (.returned config verbose_level outputdir
      user_args debugger_enabled)) : user_args = s.user_args := by
  unfold turn at h
  split at h
  case h_8 =>
    have hfinish := Except.error.inj h
    unfold finish at hfinish
    split at hfinish
    · cases hfinish
    · cases hfinish
      rfl
  case h_5 => split at h <;> cases h
  case h_2 | h_3 | h_4 => split at h <;> cases h
  all_goals cases h

theorem returned_joined {config verbose_level outputdir : String} {user_args : List String}
    {debugger_enabled : Bool} (hs : ∀ arg ∈ s.user_args, '=' ∈ arg.toList)
    (h : turns n s = .error (.returned config verbose_level outputdir user_args debugger_enabled)) :
    ∀ arg ∈ user_args, '=' ∈ arg.toList := by
  induction n with
  | zero => cases h
  | succ n ih =>
    rw [turns] at h
    cases ht : turns n s with
    | error o =>
      rw [ht] at h
      cases h
      exact ih ht
    | ok t =>
      rw [ht] at h
      rw [turn_returned h]
      exact user_args_joined hs ht

end ParseLoop

/-! ## Starts -/

theorem set_verbose_level_isOk_iff (verbosity_level : String) :
    (∃ level, set_verbose_level verbosity_level = .ok level) ↔
      verbosity_level ∈ verbositylevels.map Prod.fst := by
  unfold set_verbose_level
  cases hlookup : verbositylevels.lookup verbosity_level with
  | none =>
    have hnone := List.lookup_eq_none_iff.mp hlookup
    refine iff_of_false (fun ⟨level, h⟩ => by cases h) ?_
    intro hmem
    obtain ⟨p, hp, rfl⟩ := List.mem_map.mp hmem
    simpa using hnone p hp
  | some level =>
    obtain ⟨l, l', hl, -⟩ := List.lookup_eq_some_iff.mp hlookup
    refine iff_of_true ⟨level, rfl⟩ (List.mem_map.mpr ⟨(verbosity_level, level), ?_, rfl⟩)
    rw [hl]
    exact List.mem_append_right _ List.mem_cons_self

/-- **Start.** However `getopt_long` reports the words, the arguments of the user do not keep the
model from its start: it starts exactly if the level of verbosity is known. It then has a
directory with a slash at its end, and for each key the value of the last argument that has the
key in front of its first equals sign. -/
theorem starts {config verbose_level outputdir : String} {user_args : List String}
    {debugger_enabled : Bool} (h : ParseLoop.turns n (.start g argv) =
      .error (.returned config verbose_level outputdir user_args debugger_enabled)) :
    (verbose_level ∈ verbositylevels.map Prod.fst → ∃ c,
      pfp_elab_and_sim (.returned config verbose_level outputdir user_args debugger_enabled) =
        .main c ∧
      (∃ dir, c.ConfigFilePath = dir ++ "/" ∧ (config = dir ∨ config = dir ++ "/")) ∧
      ∀ key, get_command_line_arg c.argMap key =
        match lastOption (user_args.map splitArg) key with
        | some value => .ok value
        | none => .error ("Missing required command line arg " ++ key)) ∧
    (verbose_level ∉ verbositylevels.map Prod.fst → ∃ printed,
      pfp_elab_and_sim (.returned config verbose_level outputdir user_args debugger_enabled) =
        .exit_fatal printed) := by
  constructor
  · intro hknown
    obtain ⟨verbo, hverbo⟩ := (set_verbose_level_isOk_iff verbose_level).mpr hknown
    have hjoined := ParseLoop.returned_joined (fun _ hmem => absurd hmem List.not_mem_nil) h
    have hstored := set_command_line_arg_vector_split hjoined ∅
    refine ⟨_, by rw [pfp_elab_and_sim, hverbo, hstored], withSlash_eq config, fun key => ?_⟩
    rw [get_command_line_arg, get_options]
    cases lastOption (user_args.map splitArg) key <;> rfl
  · intro hunknown
    cases hverbo : set_verbose_level verbose_level with
    | ok verbo => exact absurd ((set_verbose_level_isOk_iff _).mp ⟨verbo, hverbo⟩) hunknown
    | error printed => exact ⟨printed, by rw [pfp_elab_and_sim, hverbo]⟩

/-- An argument with two equals signs. -/
theorem starts_posix : ∃ c, pfp_elab_and_sim (.returned "conf" "debug" "./" ["a=b=c"] false) =
      .main c ∧ c.ConfigFilePath = "conf/" ∧ get_command_line_arg c.argMap "a" = .ok "b=c" := by
  have hreturned : ParseLoop.turns 4 (.start posix ["model", "-c", "conf", "-v", "debug", "-X",
      "a=b", "c"]) = .error (.returned "conf" "debug" "./" ["a=b=c"] false) := rfl
  obtain ⟨c, hc, -, hargs⟩ := (starts hreturned).1 (by decide)
  refine ⟨c, hc, ?_, ?_⟩
  · have hmain : pfp_elab_and_sim (.returned "conf" "debug" "./" ["a=b=c"] false) = .main _ := rfl
    cases hc.symm.trans hmain
    decide +kernel
  · rw [hargs]
    decide +kernel

end Pfp.Core
