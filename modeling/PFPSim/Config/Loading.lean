import PFPSim.Config.Overlay
import PFPSim.Json.Exceptions
import PFPSim.Json.Parsed
import PFPSim.Json.RoundTrip
import PFPSim.Modules.NodeSearch

/-!
# Loading the configuration of a module

The constructors that read a module's configuration from its files. A module has what its
base file says, with what its instance file says laid over it (`construct_iff`), and a
parameter is what the files of the nearest module say that have it (`parameter_of_files`).
-/

namespace Pfp.Core

open Json

variable {F : Type}

/-- What ends the construction of a module. -/
inductive LoadFailure (F : Type) where
  | failure (f : Failure F)
  | thrown (e : Json.Exception)

/-- The contents of the files that can be opened. -/
abbrev Files := String → Option (List Char)

section

variable [DecidableEq F] (floats : Floats F) (files : Files)

/-- The node of a file. -/
def ConfigurationParameterNode (filename : String) : Except (LoadFailure F) (Value F) :=
  match files filename with
  | some content => (Json.parse floats content).mapError .thrown
  | none => .error (.failure (.exit ⟨-1, "Could not open file: " ++ filename, none⟩))

def LoadBaseConfiguration (BaseConfigurationFile : String) :
    Except (LoadFailure F) (Value F) :=
  ConfigurationParameterNode floats files BaseConfigurationFile

/-- The name of the file without the global path. -/
def searchstring (GlobalConfigPath InstanceConfigurationFile : String) : String :=
  match find InstanceConfigurationFile GlobalConfigPath with
  | some i => String.ofList (InstanceConfigurationFile.toList.take i ++
      InstanceConfigurationFile.toList.drop (i + GlobalConfigPath.toList.length))
  | none => InstanceConfigurationFile

def LoadInstanceConfiguration (GlobalConfigPath : String) (SimulationParameters : Value F)
    (InstanceConfigurationFile : String) : Except (LoadFailure F) (Value F) :=
  if searchstring GlobalConfigPath InstanceConfigurationFile ≠ "" then do
    let InstanceParameters ← ConfigurationParameterNode floats files InstanceConfigurationFile
    (MatchandFill SimulationParameters InstanceParameters).mapError .failure
  else .ok SimulationParameters

/-- The parameters of a module that is constructed from its files. -/
def construct (GlobalConfigPath BaseConfigFile InstanceConfigFile : String) :
    Except (LoadFailure F) (Value F) := do
  let SimulationParameters ← LoadBaseConfiguration floats files BaseConfigFile
  LoadInstanceConfiguration floats files GlobalConfigPath SimulationParameters InstanceConfigFile

end

/-! ## The name of the instance file -/

theorem findFrom_eq_some {text s : List Char} {i j : Nat} (h : findFrom text i s = some j) :
    ∃ n, j = i + n ∧ text <+: s.drop n := by
  induction s generalizing i with
  | nil =>
    rw [findFrom] at h
    split at h
    · rename_i hprefix
      cases h
      exact ⟨0, rfl, List.isPrefixOf_iff_prefix.mp hprefix⟩
    · cases h
  | cons c s ih =>
    rw [findFrom] at h
    split at h
    · rename_i hprefix
      cases h
      exact ⟨0, rfl, List.isPrefixOf_iff_prefix.mp hprefix⟩
    · obtain ⟨n, rfl, hprefix⟩ := ih h
      exact ⟨n + 1, by omega, hprefix⟩

/-- A module has no instance file when its name is the global path, or empty. -/
theorem searchstring_eq_empty_iff {path file : String} :
    searchstring path file = "" ↔ file = path ∨ file = "" := by
  unfold searchstring
  cases hfind : find file path with
  | none =>
    have hne : file ≠ path := by
      rintro rfl
      exact findFrom_eq_none.mp hfind List.infix_rfl
    simp [hne]
  | some i =>
    obtain ⟨n, hn, post, hpost⟩ := findFrom_eq_some hfind
    rw [Nat.zero_add] at hn
    subst hn
    have hfile : file.toList = file.toList.take i ++ (path.toList ++ post) := by
      rw [hpost, List.take_append_drop]
    have hdrop : file.toList.drop (i + path.toList.length) = post := by
      rw [← List.drop_drop, ← hpost, List.drop_left]
    have hempty : ∀ l : List Char, String.ofList l = "" ↔ l = [] := by
      intro l
      rw [← String.toList_inj, String.toList_ofList]
      rfl
    show String.ofList (file.toList.take i ++ _) = "" ↔ _
    rw [hempty, hdrop, List.append_eq_nil_iff]
    constructor
    · rintro ⟨htake, rfl⟩
      rw [htake, List.nil_append, List.append_nil] at hfile
      exact .inl (String.toList_inj.mp hfile)
    · rintro (rfl | rfl)
      · have hlength := congrArg List.length hfile
        rw [List.length_append, List.length_append] at hlength
        exact ⟨List.length_eq_zero_iff.mp (by omega), List.length_eq_zero_iff.mp (by omega)⟩
      · have hnil : path.toList ++ post = [] := by simpa using hpost
        exact ⟨by simp, (List.append_eq_nil_iff.mp hnil).2⟩

/-! ## What a module is constructed with -/

section

variable (floats : Floats F) (files : Files)

/-- The file can be opened, and its text is that of the document. -/
def Holds (filename : String) (v : Value F) : Prop :=
  ∃ s t, files filename = some s ∧ Layout s t ∧ t.value floats = .ok v

/-- What a module has at each path, from its two files. -/
def Configures (path base inst : String) (labels : List PathStep → Option (Label F)) : Prop :=
  ∃ g, Holds floats files base g ∧
    if inst = path ∨ inst = "" then ∀ p, labels p = g.labelAt p
    else ∃ c, Holds floats files inst c ∧ Fits c g ∧
      ∀ p, labels p = override (c.labelAt p) (g.labelAt p)

variable {floats files} {v : Value F} {filename : String}

theorem mapError_eq_ok_iff {α ε ε' : Type} {f : ε → ε'} {x : Except ε α} {a : α} :
    x.mapError f = .ok a ↔ x = .ok a := by
  cases x <;> simp [Except.mapError]

theorem mapError_eq_error_iff {α ε ε' : Type} {f : ε → ε'} {x : Except ε α} {e' : ε'} :
    x.mapError f = .error e' ↔ ∃ e, x = .error e ∧ f e = e' := by
  cases x <;> simp [Except.mapError]

theorem node_eq_ok_iff :
    ConfigurationParameterNode floats files filename = .ok v ↔ Holds floats files filename v := by
  unfold ConfigurationParameterNode Holds
  cases files filename with
  | none => simp
  | some s =>
    simp only [mapError_eq_ok_iff, parse_eq_ok_iff, Option.some.injEq, exists_and_left,
      exists_eq_left']

theorem Holds.wellFormed (h : Holds floats files filename v) : v.WellFormed := by
  obtain ⟨s, t, -, -, ht⟩ := h
  exact wellFormed_value ht

theorem bind_eq_ok_iff {α β : Type} {x : Except (LoadFailure F) α}
    {f : α → Except (LoadFailure F) β} {b : β} :
    (x >>= f) = .ok b ↔ ∃ a, x = .ok a ∧ f a = .ok b := by
  cases x <;> simp [bind, Except.bind]

variable [DecidableEq F]

theorem load_instance_iff {path inst : String} {g : Value F} (hg : g.WellFormed) :
    LoadInstanceConfiguration floats files path g inst = .ok v ↔
      if inst = path ∨ inst = "" then v = g
      else ∃ c, Holds floats files inst c ∧ Fits c g ∧ Filled c g v := by
  unfold LoadInstanceConfiguration
  by_cases hnone : inst = path ∨ inst = ""
  · rw [if_pos hnone, if_neg (not_not.mpr (searchstring_eq_empty_iff.mpr hnone)), Except.ok.injEq,
      eq_comm]
  · rw [if_neg hnone, if_pos (fun h => hnone (searchstring_eq_empty_iff.mp h)), bind_eq_ok_iff]
    refine exists_congr fun c => ?_
    rw [node_eq_ok_iff, mapError_eq_ok_iff]
    refine and_congr_right fun hc => ?_
    exact MatchandFill_eq_ok_iff (g := ⟨g, hg⟩) (c := ⟨c, hc.wellFormed⟩)

/-- A module is constructed exactly with the document that its files describe. -/
theorem construct_eq_ok_iff {path base inst : String} :
    construct floats files path base inst = .ok v ↔
      v.WellFormed ∧ Configures floats files path base inst v.labelAt := by
  unfold construct LoadBaseConfiguration Configures
  rw [bind_eq_ok_iff]
  constructor
  · rintro ⟨g, hg, hinst⟩
    have hg := node_eq_ok_iff.mp hg
    rw [load_instance_iff hg.wellFormed] at hinst
    by_cases hnone : inst = path ∨ inst = ""
    · rw [if_pos hnone] at hinst
      subst hinst
      exact ⟨hg.wellFormed, v, hg, by rw [if_pos hnone]; exact fun p => rfl⟩
    · rw [if_neg hnone] at hinst
      obtain ⟨c, hc, hfits, hfilled⟩ := hinst
      exact ⟨hfilled.wellFormed, g, hg, by rw [if_neg hnone]; exact ⟨c, hc, hfits, hfilled.labels⟩⟩
  · rintro ⟨hv, g, hg, hlabels⟩
    refine ⟨g, node_eq_ok_iff.mpr hg, ?_⟩
    rw [load_instance_iff hg.wellFormed]
    by_cases hnone : inst = path ∨ inst = ""
    · rw [if_pos hnone] at hlabels ⊢
      exact Value.ext_labels hv hg.wellFormed hlabels
    · rw [if_neg hnone] at hlabels ⊢
      obtain ⟨c, hc, hfits, hlabels⟩ := hlabels
      exact ⟨c, hc, hfits, hv, hlabels⟩

end

/-! ## How the program ends -/

section

variable {floats : Floats F} {files : Files} {filename : String}

/-- Whatever ends it is an exit with one of the two statuses. -/
def Exits {α : Type} (x : Except (Failure F) α) : Prop :=
  ∀ f, x = .error f → ∃ e, f = .exit e ∧ (e.status = 0 ∨ e.status = EXIT_FAILURE)

namespace Exits

variable {α β : Type}

theorem ok (a : α) : Exits (.ok a : Except (Failure F) α) := fun f h => by cases h

theorem raiseError (message : String) (compare golden : Value F) :
    Exits (raiseError message compare golden : Except (Failure F) α) := by
  intro f h
  cases h
  exact ⟨_, rfl, .inr rfl⟩

theorem raiseMessage (message : String) :
    Exits (raiseMessage message : Except (Failure F) α) := by
  intro f h
  cases h
  exact ⟨_, rfl, .inr rfl⟩

theorem bind {x : Except (Failure F) α} {f : α → Except (Failure F) β} (hx : Exits x)
    (hf : ∀ a, x = .ok a → Exits (f a)) : Exits (x >>= f) := by
  intro e h
  cases hxe : x with
  | error e' =>
    rw [hxe] at h
    cases h
    exact hx e hxe
  | ok a =>
    rw [hxe] at h
    exact hf a hxe e h

end Exits

section

variable [DecidableEq F]

theorem compareMembers_exits (compare : Value F) {rest : Members F}
    (h : ∀ m ∈ rest, ∀ g, Exits (CompareStructure m.2 g)) (golden : Members F) :
    Exits (compareMembers compare rest golden) := by
  induction rest generalizing golden with
  | nil => exact .ok _
  | cons m rest ih =>
    obtain ⟨key, value⟩ := m
    obtain ⟨hm, hrest⟩ := List.forall_mem_cons.mp h
    rw [compareMembers]
    cases golden.find key with
    | none => exact .raiseError _ _ _
    | some goldenValue => exact (hm goldenValue).bind fun result _ => ih hrest _

theorem compareElements_exits {compares : List (Value F)}
    (h : ∀ c ∈ compares, ∀ g, Exits (CompareStructure c g)) (goldens : List (Value F)) :
    Exits (compareElements compares goldens) := by
  induction compares generalizing goldens with
  | nil => exact .ok _
  | cons c compares ih =>
    obtain ⟨hc, hrest⟩ := List.forall_mem_cons.mp h
    cases goldens with
    | nil => exact .ok _
    | cons g goldens =>
      exact (hc g).bind fun result _ => (ih hrest goldens).bind fun rest _ => .ok _

theorem CompareStructure_exits (c g : Value F) : Exits (CompareStructure c g) := by
  have hunsupported : Exits (.error
      (.exit ⟨0, "JSON FILE ERRORUNSUPPORTED TYPES IN PARSING", none⟩) :
      Except (Failure F) (CompareResult F)) := by
    intro f h
    cases h
    exact ⟨_, rfl, .inl rfl⟩
  induction c generalizing g with
  | primitive x =>
    cases g with
    | primitive y =>
      rw [CompareStructure]
      split
      · split
        · exact .ok _
        · exact .ok _
      · exact .raiseError _ _ _
    | array => exact hunsupported
    | object => exact hunsupported
  | array cs ih =>
    cases g with
    | primitive => exact hunsupported
    | array gs =>
      rw [CompareStructure]
      split
      · exact (compareElements_exits ih gs).bind fun golden _ => .ok _
      · exact .raiseError _ _ _
    | object => exact .raiseMessage _
  | object cs ih =>
    cases g with
    | primitive => exact hunsupported
    | array => exact .raiseMessage _
    | object gs =>
      rw [CompareStructure]
      exact (compareMembers_exits _ ih gs).bind fun golden _ => .ok _

theorem MatchandFill_exits (g c : Value F) : Exits (MatchandFill g c) := by
  unfold MatchandFill
  refine (CompareStructure_exits c g).bind fun result _ => ?_
  split
  · exact .ok _
  · exact .raiseMessage _

end

/-- Why a module is not constructed: one of its files cannot be opened, or has no document, or
the documents do not fit. -/
inductive Refuses (floats : Floats F) (files : Files) (base inst : String) : LoadFailure F → Prop
  | missing {filename : String} (hname : filename = base ∨ filename = inst)
      (h : files filename = none) : Refuses floats files base inst
        (.failure (.exit ⟨-1, "Could not open file: " ++ filename, none⟩))
  | invalid {filename : String} (what : String) (hname : filename = base ∨ filename = inst)
      (h : ¬ ∃ v, Holds floats files filename v) :
      Refuses floats files base inst (.thrown (.invalid_argument what))
  | unfit {g c : Value F} {e : Exit F} (hg : Holds floats files base g)
      (hc : Holds floats files inst c) (h : ¬ Fits c g)
      (he : e.status = 0 ∨ e.status = EXIT_FAILURE) :
      Refuses floats files base inst (.failure (.exit e))

theorem node_error {base inst : String} (hname : filename = base ∨ filename = inst)
    {x : LoadFailure F} (h : ConfigurationParameterNode floats files filename = .error x) :
    Refuses floats files base inst x := by
  have hnot : ¬ ∃ v, Holds floats files filename v := by
    rintro ⟨v, hv⟩
    cases h.symm.trans (node_eq_ok_iff.mpr hv)
  unfold ConfigurationParameterNode at h
  cases hfile : files filename with
  | none =>
    rw [hfile] at h
    cases h
    exact .missing hname hfile
  | some s =>
    rw [hfile] at h
    obtain ⟨e, he, rfl⟩ := mapError_eq_error_iff.mp h
    obtain ⟨what, rfl⟩ := parse_throws floats s e he
    exact .invalid what hname hnot

variable [DecidableEq F]

theorem construct_error {path base inst : String} {x : LoadFailure F}
    (h : construct floats files path base inst = .error x) : Refuses floats files base inst x := by
  unfold construct LoadBaseConfiguration at h
  cases hbase : ConfigurationParameterNode floats files base with
  | error e =>
    rw [hbase] at h
    cases h
    exact node_error (.inl rfl) hbase
  | ok g =>
    rw [hbase] at h
    have hg := node_eq_ok_iff.mp hbase
    replace h : LoadInstanceConfiguration floats files path g inst = .error x := h
    unfold LoadInstanceConfiguration at h
    split at h
    · cases hinst : ConfigurationParameterNode floats files inst with
      | error e =>
        rw [hinst] at h
        cases h
        exact node_error (.inr rfl) hinst
      | ok c =>
        rw [hinst] at h
        have hc := node_eq_ok_iff.mp hinst
        replace h : (MatchandFill g c).mapError LoadFailure.failure = .error x := h
        obtain ⟨f, hf, rfl⟩ := mapError_eq_error_iff.mp h
        obtain ⟨e, rfl, he⟩ := MatchandFill_exits g c f hf
        refine .unfit hg hc (fun hfits => ?_) he
        obtain ⟨r, hr⟩ := exists_filled (g := ⟨g, hg.wellFormed⟩) (c := ⟨c, hc.wellFormed⟩) hfits
        cases hf.symm.trans (MatchandFill_eq_ok_iff (g := ⟨g, hg.wellFormed⟩)
          (c := ⟨c, hc.wellFormed⟩) |>.mpr ⟨hfits, hr⟩)
    · cases h

/-- **Construction.** A module is constructed exactly with the document that its files
describe, and what ends the program instead is that a file is missing, that one has no
document, or that the documents do not fit. -/
theorem construct_iff (floats : Floats F) (files : Files) (path base inst : String) :
    (∀ v, construct floats files path base inst = .ok v ↔
      v.WellFormed ∧ Configures floats files path base inst v.labelAt) ∧
    ∀ x, construct floats files path base inst = .error x → Refuses floats files base inst x :=
  ⟨fun _ => construct_eq_ok_iff, fun _ => construct_error⟩

end

/-! ## Parameters -/

section

variable {floats : Floats F} {files : Files}

theorem Holds.unique {filename : String} {v w : Value F} (hv : Holds floats files filename v)
    (hw : Holds floats files filename w) : v = w :=
  Except.ok.inj ((node_eq_ok_iff.mpr hv).symm.trans (node_eq_ok_iff.mpr hw))

theorem Configures.unique {path base inst : String}
    {labels labels' : List PathStep → Option (Label F)}
    (h : Configures floats files path base inst labels)
    (h' : Configures floats files path base inst labels') : labels = labels' := by
  obtain ⟨g, hg, hlabels⟩ := h
  obtain ⟨g', hg', hlabels'⟩ := h'
  obtain rfl := hg.unique hg'
  funext p
  by_cases hnone : inst = path ∨ inst = ""
  · rw [if_pos hnone] at hlabels hlabels'
    rw [hlabels, hlabels']
  · rw [if_neg hnone] at hlabels hlabels'
    obtain ⟨c, hc, -, hlabels⟩ := hlabels
    obtain ⟨c', hc', -, hlabels'⟩ := hlabels'
    obtain rfl := hc.unique hc'
    rw [hlabels, hlabels']

/-- A module with an object as its base file has an object. -/
theorem Configures.object {path base inst : String} {ms : Members F} {v : Value F}
    (hbase : Holds floats files base (.object ms))
    (h : Configures floats files path base inst v.labelAt) : ∃ ms, v = .object ms := by
  obtain ⟨g, hg, hlabels⟩ := h
  obtain rfl := hbase.unique hg
  have hroot : v.labelAt [] = some (.object (Members.keys ms)) := by
    by_cases hnone : inst = path ∨ inst = ""
    · rw [if_pos hnone] at hlabels
      exact hlabels []
    · rw [if_neg hnone] at hlabels
      obtain ⟨c, -, hfits, hlabels⟩ := hlabels
      rw [hlabels]
      cases hfits
      rfl
  cases v with
  | primitive p => cases hroot
  | array es => cases hroot
  | object ms' => exact ⟨ms', rfl⟩

namespace Hierarchy

open Lists

variable {A : Type} {h : Hierarchy A F} {param : String} {a b : A} {v : Value F}

theorem value_of_object {ms : Members F} (hms : h.SimulationParameters a = .object ms) :
    h.value param a = (ms.find param).getD nullptr := by
  rw [value, binding, hms]

/-- What a module binds a parameter to, by its labels. -/
theorem value_eq_iff {ms : Members F} (hms : h.SimulationParameters b = .object ms)
    (hwf : (h.SimulationParameters b).WellFormed) (hv : is_null v = false) :
    h.value param b = v ↔
      v.WellFormed ∧ ∀ p, v.labelAt p = (h.SimulationParameters b).labelAt (.key param :: p) := by
  rw [value_of_object hms]
  rw [hms] at hwf ⊢
  have hbelow : ∀ p, (Value.object ms).labelAt (.key param :: p) =
      (ms.find param).bind fun w => w.labelAt p := fun p => Value.labelAt_cons _ _ p
  simp only [hbelow]
  cases hfind : ms.find param with
  | none =>
    constructor
    · rintro rfl
      cases hv
    · rintro ⟨-, hlabels⟩
      cases hlabels []
  | some w =>
    have hw : w.WellFormed := hwf.child (s := .key param) hfind
    constructor
    · rintro rfl
      exact ⟨hw, fun p => rfl⟩
    · rintro ⟨hv, hlabels⟩
      exact Value.ext_labels hw hv fun p => (hlabels p).symm

/-- A module passes a search on, by its labels. -/
theorem not_bound_iff {ms : Members F} (hms : h.SimulationParameters a = .object ms) :
    h.bound param a = false ↔ (h.SimulationParameters a).labelAt [.key param] = none ∨
      (h.SimulationParameters a).labelAt [.key param] = some (.primitive .null) := by
  rw [bound, Bool.not_eq_false', is_null_iff, value_of_object hms, hms, Value.labelAt_cons]
  show _ ↔ (ms.find param).bind _ = none ∨ (ms.find param).bind _ = _
  cases ms.find param with
  | none => simp
  | some w => cases w <;> simp [Value.labelAt_nil, Value.label, nullptr]

/-- A value that is not null is the first one up to a module named `top`. -/
theorem GetParameter_eq_ok_iff (hconf : h.Configured) (hv : is_null v = false) :
    h.GetParameter param a = .ok v ↔
      h.firstBound param (searchFailed F param) (upTo h.isNamedTop (h.path a)) = .ok v := by
  rw [GetParameter_eq hconf]
  split
  · rename_i hname
    have htop : h.isNamedTop a = true := decide_eq_true hname
    obtain ⟨rest, hpath⟩ : ∃ rest, h.path a = a :: rest := by
      cases hp : h.parent a with
      | none => exact ⟨[], by rw [h.parent_eq_none.mp hp, path_top]⟩
      | some p => exact ⟨_, h.path_of_parent hp⟩
    rw [hpath, upTo, if_pos htop, firstBound_cons]
    split
    · rename_i hnull
      constructor
      · intro heq
        cases heq
        rw [hv] at hnull
        cases hnull
      · intro heq
        cases heq
    · rfl
  · rfl

/-- The files of a module on the list have `v` at the key, and those of the modules in front
of it have nothing there, or null. -/
def FilesGive (floats : Floats F) (files : Files) (path : String) (base inst : A → String)
    (param : String) (l : List A) (v : Value F) : Prop :=
  ∃ front b back, l = front ++ b :: back ∧
    (∀ x ∈ front, ∃ labels, Configures floats files path (base x) (inst x) labels ∧
      (labels [.key param] = none ∨ labels [.key param] = some (.primitive .null))) ∧
    ∃ labels, Configures floats files path (base b) (inst b) labels ∧
      v.WellFormed ∧ ∀ p, v.labelAt p = labels (.key param :: p)

/-- **Parameters.** In a hierarchy that is loaded from files, a parameter is what the files of
the nearest module say at its key that do not leave it out or say null. -/
theorem parameter_of_files [DecidableEq F] {path : String} {base inst : A → String}
    (hload : ∀ a, construct floats files path (base a) (inst a) = .ok (h.SimulationParameters a))
    (hobject : ∀ a, ∃ ms, Holds floats files (base a) (.object ms)) (param : String) (a : A)
    (hv : is_null v = false) :
    h.GetParameter param a = .ok v ↔
      FilesGive floats files path base inst param (upTo h.isNamedTop (h.path a)) v := by
  have hfiles := fun a => construct_eq_ok_iff.mp (hload a)
  have hobjects : ∀ a, ∃ ms, h.SimulationParameters a = .object ms := fun a =>
    (hfiles a).2.object (hobject a).choose_spec
  rw [GetParameter_eq_ok_iff (fun a => .inr (hobjects a)) hv, firstBound_eq_ok_iff,
    Option.map_eq_some_iff]
  constructor
  · rintro ⟨b, hfind, hvalue⟩
    obtain ⟨-, front, back, hsplit, hfront⟩ := List.find?_eq_some_iff_append.mp hfind
    refine ⟨front, b, back, hsplit, fun x hx => ?_, _, (hfiles b).2, ?_⟩
    · have hnot : h.bound param x = false := by simpa using hfront x hx
      exact ⟨_, (hfiles x).2, (not_bound_iff (hobjects x).choose_spec).mp hnot⟩
    · exact (value_eq_iff (hobjects b).choose_spec (hfiles b).1 hv).mp hvalue
  · rintro ⟨front, b, back, hsplit, hfront, labels, hb, hwf, hlabels⟩
    obtain rfl := hb.unique (hfiles b).2
    have hvalue := (value_eq_iff (hobjects b).choose_spec (hfiles b).1 hv).mpr ⟨hwf, hlabels⟩
    refine ⟨b, List.find?_eq_some_iff_append.mpr ⟨?_, front, back, hsplit, fun x hx => ?_⟩, hvalue⟩
    · rw [bound_iff, hvalue, hv]
    · obtain ⟨labels, hx, hnull⟩ := hfront x hx
      obtain rfl := hx.unique (hfiles x).2
      rw [(not_bound_iff (hobjects x).choose_spec).mpr hnull]
      rfl

/-- The texts of numbers that are not there. -/
def noFloats : Floats Unit := ⟨fun _ => (), fun _ => []⟩

def topFile : Value Unit := .object [("p", one)]

def moduleFile : Value Unit := .object [("q", one)]

def baseFile (a : Fin 2) : String := if a.val = 0 then "top.cfg" else "m.cfg"

/-- The base files of a module and the top above it. -/
def twoFiles : Files := fun filename =>
  if filename = "top.cfg" then some (dump noFloats (-1) topFile)
  else if filename = "m.cfg" then some (dump noFloats (-1) moduleFile)
  else none

theorem holds_dump {filename : String} {k : String}
    (hfile : files filename =
      some (dump floats (-1) (.object [(k, .primitive (.number_unsigned 1))]))) :
    Holds floats files filename (.object [(k, .primitive (.number_unsigned 1))]) := by
  refine ⟨_, _, hfile, layout_dump (.object ?_) _, value_tree floats (.object ?_ ?_)⟩
  · exact List.forall_mem_singleton.mpr (.primitive nofun)
  · exact List.pairwise_singleton _ _
  · exact List.forall_mem_singleton.mpr (.primitive _)

theorem topFile_parameter : FilesGive noFloats twoFiles "conf/" baseFile (fun _ => "conf/") "p"
    (upTo (chain topFile [("m", moduleFile)]).isNamedTop
      ((chain topFile [("m", moduleFile)]).path 1)) one := by
  have hbase : ∀ a, ∃ k, Holds noFloats twoFiles (baseFile a) (.object [(k, one)]) ∧
      (chain topFile [("m", moduleFile)]).SimulationParameters a = .object [(k, one)] := by
    intro a
    match a with
    | 0 => exact ⟨"p", holds_dump (if_pos rfl), rfl⟩
    | 1 => exact ⟨"q", holds_dump (by decide +kernel), rfl⟩
  refine (parameter_of_files (fun a => ?_) (fun a => ?_) "p" 1 rfl).mp ?_
  · obtain ⟨k, hk, hparameters⟩ := hbase a
    rw [hparameters, construct_eq_ok_iff]
    exact ⟨hk.wellFormed, _, hk, by rw [if_pos (.inl rfl)]; exact fun p => rfl⟩
  · obtain ⟨k, hk, -⟩ := hbase a
    exact ⟨_, hk⟩
  · with_unfolding_all rfl

end Hierarchy

end

end Pfp.Core
