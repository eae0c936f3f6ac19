import PFPSim.Modules.Hierarchy

/-!
# The lookups of a parameter

What both lookups find, as functions of the path from a module to the top: the first value
that is not null, up to the module where they stop. `GetParameter` stops at a module named
`top`, `Searchinparent` at one whose name contains `top`.
-/

namespace Pfp.Core

open Json Lists

/-- An object, or the value of a node that has loaded no file. -/
def IsConfiguration {F : Type} (v : Value F) : Prop := v = nullptr ∨ ∃ ms, v = .object ms

namespace Hierarchy

variable {A F : Type} (h : Hierarchy A F)

/-- Whether every module has an object for its parameters, or none yet. -/
def Configured : Prop := ∀ a, IsConfiguration (h.SimulationParameters a)

/-- What a module binds a parameter to. -/
def binding (param : String) (a : A) : Option (Value F) :=
  match h.SimulationParameters a with
  | .object ms => Members.find param ms
  | _ => none

/-- What the local search gives. -/
def value (param : String) (a : A) : Value F := (h.binding param a).getD nullptr

/-- Whether the module binds the parameter, and not to null. -/
def bound (param : String) (a : A) : Bool := !is_null (h.value param a)

def isNamedTop (a : A) : Bool := h.module_name a = "top"

def containsTop (a : A) : Bool := ContainsTop (h.module_name a)

/-- The end of a search without a result. -/
def searchFailed (F : Type) (param : String) : Failure F :=
  .exit ⟨0, "Parameter Heirarchy Search Failed: " ++ "top" ++ " for: " ++ param, none⟩

def notFound (F : Type) (param : String) : Failure F :=
  .exit ⟨USER_ERROR_FATAL, "Parameter: " ++ param ++
    " not found in Hierarchal Search. Please check configuration files", none⟩

/-- The first value on a list of modules. -/
def firstBound (param : String) (none : Failure F) (l : List A) : Except (Failure F) (Value F) :=
  match l.find? (h.bound param) with
  | some b => .ok (h.value param b)
  | Option.none => .error none

variable {h}

theorem localSearch_eq (hconf : h.Configured) (param : String) (a : A) :
    LocalSearch (h.SimulationParameters a) param = .ok (h.value param a) := by
  rw [value, binding]
  rcases hconf a with hnull | ⟨ms, hms⟩
  · rw [hnull]
    rfl
  · rw [hms]
    rfl

theorem bound_iff {param : String} {a : A} :
    h.bound param a = true ↔ is_null (h.value param a) = false := by
  rw [bound, Bool.not_eq_true']

theorem firstBound_cons (param : String) (e : Failure F) (a : A) (l : List A) :
    h.firstBound param e (a :: l) =
      if is_null (h.value param a) = true then h.firstBound param e l
      else .ok (h.value param a) := by
  rw [firstBound, List.find?_cons, bound]
  cases is_null (h.value param a) <;> rfl

theorem containsTop_of_isNamedTop {a : A} (ha : h.isNamedTop a = true) :
    h.containsTop a = true := by
  rw [isNamedTop, decide_eq_true_eq] at ha
  rw [containsTop, decide_eq_true_eq, ha]
  exact List.infix_rfl

theorem isNamedTop_top : h.isNamedTop h.top = true := by
  rw [isNamedTop, decide_eq_true_eq, top_name]

/-- The local searches of a list of modules, up to a value that is not null. -/
def walk (h : Hierarchy A F) (param : String) (none : Failure F) :
    List A → Except (Failure F) (Value F)
  | [] => .error none
  | a :: l => do
    let result ← LocalSearch (h.SimulationParameters a) param
    if is_null result then walk h param none l else return result

theorem walk_eq (hconf : h.Configured) (param : String) (e : Failure F) (l : List A) :
    h.walk param e l = h.firstBound param e l := by
  induction l with
  | nil => rfl
  | cons a l ih =>
    rw [walk, localSearch_eq hconf, firstBound_cons, ← ih]
    rfl

/-- A search above a module ends at the first one named `top`. -/
theorem GetParameterfromParent_eq_walk (param : String) (a : A) :
    h.GetParameterfromParent param a =
      h.walk param (searchFailed F param) (upTo h.isNamedTop (h.path a)) := by
  induction a using h.induct with
  | top =>
    rw [GetParameterfromParent, path_top, upTo, if_pos isNamedTop_top, top_name]
    rfl
  | below a p hp _ ih =>
    rw [GetParameterfromParent, h.path_of_parent hp, upTo]
    simp only [isNamedTop, decide_eq_true_eq]
    by_cases hname : h.module_name a = "top"
    · rw [if_pos hname, hname]
      rfl
    · rw [if_neg hname, walk]
      refine bind_congr fun result => ?_
      rw [if_pos hname, ← ih]
      split
      · split
        · rename_i hnone
          cases hnone.symm.trans hp
        · rename_i hp'
          cases hp.symm.trans hp'
          rfl
      · rfl

theorem GetParameterfromParent_eq (hconf : h.Configured) (param : String) (a : A) :
    h.GetParameterfromParent param a =
      h.firstBound param (searchFailed F param) (upTo h.isNamedTop (h.path a)) := by
  rw [GetParameterfromParent_eq_walk, walk_eq hconf]

/-- The other search ends at the first module whose name contains `top`. -/
theorem Searchinparent_eq_walk (param : String) (a : A) :
    h.Searchinparent param a =
      h.walk param (notFound F param) (upTo h.containsTop (h.path a)) := by
  induction a using h.induct with
  | top =>
    have htop : h.containsTop h.top = true := containsTop_of_isNamedTop isNamedTop_top
    rw [Searchinparent, path_top, upTo, if_pos htop]
    rw [containsTop, decide_eq_true_eq] at htop
    rw [if_neg fun hnone => find_top.mp hnone htop]
    rfl
  | below a p hp _ ih =>
    rw [Searchinparent, h.path_of_parent hp, upTo]
    by_cases hname : h.containsTop a = true
    · rw [if_pos hname]
      rw [containsTop, decide_eq_true_eq] at hname
      rw [if_neg fun hnone => find_top.mp hnone hname]
      rfl
    · rw [if_neg hname, walk]
      rw [containsTop, decide_eq_true_eq] at hname
      rw [if_pos (find_top.mpr hname)]
      refine bind_congr fun result => ?_
      rw [← ih]
      split
      · split
        · rename_i hnone
          cases hnone.symm.trans hp
        · rename_i hp'
          cases hp.symm.trans hp'
          rfl
      · rfl

theorem Searchinparent_eq (hconf : h.Configured) (param : String) (a : A) :
    h.Searchinparent param a =
      h.firstBound param (notFound F param) (upTo h.containsTop (h.path a)) := by
  rw [Searchinparent_eq_walk, walk_eq hconf]

/-- A module that is named `top` does not search above itself, and gives null. -/
theorem GetParameter_eq (hconf : h.Configured) (param : String) (a : A) :
    h.GetParameter param a =
      if h.module_name a = "top" then .ok (h.value param a)
      else h.firstBound param (searchFailed F param) (upTo h.isNamedTop (h.path a)) := by
  rw [GetParameter, localSearch_eq hconf]
  show (if is_null (h.value param a) = true ∧ h.module_name a ≠ "top" then _ else _) = _
  by_cases hname : h.module_name a = "top"
  · rw [if_pos hname, if_neg fun hboth => hboth.2 hname]
    rfl
  · have hne : a ≠ h.top := fun heq => hname (heq ▸ h.top_name)
    cases hp : h.parent a with
    | none => exact absurd (h.parent_eq_none.mp hp) hne
    | some p =>
      have htop : ¬ h.isNamedTop a = true := by
        rw [isNamedTop, decide_eq_true_eq]
        exact hname
      rw [if_neg hname, h.path_of_parent hp, upTo, if_neg htop, firstBound_cons,
        ← GetParameterfromParent_eq hconf]
      by_cases hnull : is_null (h.value param a) = true
      · rw [if_pos ⟨hnull, hname⟩, if_pos hnull]
      · rw [if_neg fun hboth => hnull hboth.1, if_neg hnull]
        rfl

/-! ## Agreement -/

/-- The value that is not null and comes first on a list comes first on a longer one. -/
theorem firstBound_prefix {param : String} {l l' : List A} (hl : l <+: l')
    (hbound : ∃ b ∈ l, h.bound param b = true) (e e' : Failure F) :
    ∃ v, h.firstBound param e l = .ok v ∧ h.firstBound param e' l' = .ok v := by
  obtain ⟨rest, rfl⟩ := hl
  obtain ⟨b, hb, hbound⟩ := hbound
  cases hfind : l.find? (h.bound param) with
  | none => exact absurd hbound (List.find?_eq_none.mp hfind b hb)
  | some c =>
    refine ⟨h.value param c, ?_, ?_⟩
    · rw [firstBound, hfind]
    · rw [firstBound, List.find?_append, hfind]
      rfl

theorem firstBound_none {param : String} {l : List A}
    (hnone : ¬ ∃ b ∈ l, h.bound param b = true) (e : Failure F) :
    h.firstBound param e l = .error e := by
  have hfind : l.find? (h.bound param) = none :=
    List.find?_eq_none.mpr fun b hb hbound => hnone ⟨b, hb, hbound⟩
  rw [firstBound, hfind]

/-- The program has ended with one of the errors of the searches. -/
def NotFound (param : String) (x : Except (Failure F) (Value F)) : Prop :=
  x = .error (searchFailed F param) ∨ x = .error (notFound F param)

/-- The same value, or an error of a search on both sides. -/
def Agree (param : String) (x y : Except (Failure F) (Value F)) : Prop :=
  (∃ v, x = .ok v ∧ y = .ok v) ∨ NotFound param x ∧ NotFound param y

theorem not_agree_ok_error {param : String} {v : Value F} {e : Failure F} :
    ¬ Agree param (.ok v) (.error e) := by
  rintro (⟨w, -, hw⟩ | ⟨hok | hok, -⟩)
  · cases hw
  · cases hok
  · cases hok

/-- **Agreement.** The two lookups agree for a parameter exactly if the module is not named
`top` or binds it, and if the modules up to the first whose name contains `top` bind it
whenever those up to the first named `top` do. -/
theorem lookups_agree_iff (hconf : h.Configured) (param : String) (a : A) :
    Agree param (h.GetParameter param a) (h.Searchinparent param a) ↔
      (h.module_name a = "top" → h.bound param a = true) ∧
      ((∃ b ∈ upTo h.isNamedTop (h.path a), h.bound param b = true) →
        ∃ b ∈ upTo h.containsTop (h.path a), h.bound param b = true) := by
  rw [GetParameter_eq hconf, Searchinparent_eq hconf]
  by_cases hname : h.module_name a = "top"
  · have htop : h.isNamedTop a = true := decide_eq_true hname
    obtain ⟨rest, hpath⟩ : ∃ rest, h.path a = a :: rest := by
      cases hp : h.parent a with
      | none => exact ⟨[], by rw [h.parent_eq_none.mp hp, path_top]⟩
      | some p => exact ⟨_, h.path_of_parent hp⟩
    rw [if_pos hname, hpath, upTo, upTo, if_pos htop, if_pos (containsTop_of_isNamedTop htop),
      firstBound_cons]
    by_cases hnull : is_null (h.value param a) = true
    · have hbound : ¬ h.bound param a = true := by simp [bound, hnull]
      rw [if_pos hnull]
      exact ⟨fun hagree => absurd hagree not_agree_ok_error,
        fun hboth => absurd (hboth.1 hname) hbound⟩
    · have hbound : h.bound param a = true := by simp [bound, hnull]
      rw [if_neg hnull]
      exact ⟨fun _ => ⟨fun _ => hbound, id⟩, fun _ => .inl ⟨_, rfl, rfl⟩⟩
  · have hprefix := upTo_prefix_upTo (p := h.isNamedTop) (q := h.containsTop)
      (fun b hb => containsTop_of_isNamedTop hb) (h.path a)
    rw [if_neg hname]
    by_cases hnear : ∃ b ∈ upTo h.containsTop (h.path a), h.bound param b = true
    · obtain ⟨v, hnear', hfar⟩ := firstBound_prefix hprefix hnear (notFound F param)
        (searchFailed F param)
      rw [hnear', hfar]
      exact ⟨fun _ => ⟨fun heq => absurd heq hname, fun _ => hnear⟩, fun _ => .inl ⟨v, rfl, rfl⟩⟩
    · rw [firstBound_none hnear]
      by_cases hfar : ∃ b ∈ upTo h.isNamedTop (h.path a), h.bound param b = true
      · obtain ⟨v, hfound, -⟩ := firstBound_prefix List.prefix_rfl hfar (searchFailed F param)
          (notFound F param)
        rw [hfound]
        exact ⟨fun hagree => absurd hagree not_agree_ok_error,
          fun hboth => absurd (hboth.2 hfar) hnear⟩
      · rw [firstBound_none hfar]
        exact ⟨fun _ => ⟨fun heq => absurd heq hname, fun hex => absurd hex hfar⟩,
          fun _ => .inr ⟨.inl rfl, .inr rfl⟩⟩

/-- A value, for runs on fixed inputs. -/
def one : Value Unit := .primitive (.number_unsigned 1)

/-- The top binds `p`; the module between has `top` in its name. -/
def stopper : Hierarchy (Fin 3) Unit :=
  chain (.object [("p", one)]) [("stopper", .object []), ("m", .object [])]

/-- One lookup gives the value of the top, the other one ends the program. -/
theorem stopper_disagrees : stopper.GetParameter "p" 2 = .ok one ∧
    stopper.Searchinparent "p" 2 = .error (notFound Unit "p") ∧
    ¬ Agree "p" (stopper.GetParameter "p" 2) (stopper.Searchinparent "p" 2) := by
  have hget : stopper.GetParameter "p" 2 = .ok one := by with_unfolding_all rfl
  have hsearch : stopper.Searchinparent "p" 2 = .error (notFound Unit "p") := by
    with_unfolding_all rfl
  refine ⟨hget, hsearch, ?_⟩
  rw [hget, hsearch]
  exact not_agree_ok_error

/-- The lookups agree where no module between has `top` in its name. -/
def plain : Hierarchy (Fin 3) Unit :=
  chain (.object [("p", one)]) [("a", .object [("p", nullptr)]), ("m", .object [])]

theorem configured_plain : plain.Configured := by
  intro a
  match a with
  | 0 => exact .inr ⟨_, rfl⟩
  | 1 => exact .inr ⟨_, rfl⟩
  | 2 => exact .inr ⟨_, rfl⟩

theorem plain_agrees :
    Agree "p" (plain.GetParameter "p" 2) (plain.Searchinparent "p" 2) := by
  refine (lookups_agree_iff configured_plain "p" 2).mpr ⟨?_, ?_⟩
  · intro hname
    exact absurd hname (by decide)
  · intro _
    exact ⟨0, by decide +kernel, by decide⟩

/-! ## The nearest definition -/

/-- The value of the first module from `a` up that binds the parameter. -/
def nearest (h : Hierarchy A F) (param : String) (a : A) : Option (Value F) :=
  (h.path a).findSome? (h.binding param)

theorem is_null_iff {v : Value F} : is_null v = true ↔ v = nullptr := by
  cases v with
  | primitive p => cases p <;> simp [is_null, nullptr]
  | array => simp [is_null, nullptr]
  | object => simp [is_null, nullptr]

/-- A search passes over modules without the key and modules that bind it to null. -/
theorem firstBound_of_nearest (param : String) (l : List A) (e : Failure F) :
    match l.findSome? (h.binding param) with
    | some v => if is_null v = true then h.firstBound param e l ≠ .ok v
        else h.firstBound param e l = .ok v
    | none => h.firstBound param e l = .error e := by
  have hnotnull : ∀ (l : List A) v, is_null v = true → h.firstBound param e l ≠ .ok v := by
    intro l v hv hfirst
    induction l with
    | nil => cases hfirst
    | cons b l ih =>
      rw [firstBound_cons] at hfirst
      split at hfirst
      · exact ih hfirst
      · cases hfirst
        exact absurd hv ‹_›
  induction l with
  | nil => rfl
  | cons b l ih =>
    rw [List.findSome?_cons]
    cases hbinding : h.binding param b with
    | some v =>
      have hvalue : h.value param b = v := by rw [value, hbinding, Option.getD_some]
      simp only
      split
      · rename_i hv
        exact hnotnull _ v hv
      · rename_i hv
        rw [firstBound_cons, hvalue, if_neg hv]
    | none =>
      have hvalue : is_null (h.value param b) = true := by
        rw [value, hbinding, Option.getD_none]
        rfl
      simp only [firstBound_cons, if_pos hvalue]
      exact ih

theorem upTo_isNamedTop (hnames : ∀ b, h.module_name b = "top" → b = h.top) (a : A) :
    upTo h.isNamedTop (h.path a) = h.path a := by
  rw [h.path_eq]
  refine upTo_append ?_ isNamedTop_top
  intro b hb
  rw [isNamedTop, decide_eq_false_iff_not]
  exact fun hname => h.ne_top_of_mem_below hb (hnames b hname)

/-- **Nearest definition.** Where only the top is named so, `GetParameter` gives the value of
the first module on the path that has the key, and ends the program if there is none,
exactly if there is one or the module is not the top, and the value is not null or the
module is the top. -/
theorem nearest_wins_iff (hconf : h.Configured)
    (hnames : ∀ b, h.module_name b = "top" → b = h.top) (param : String) (a : A) :
    (match h.nearest param a with
      | some v => h.GetParameter param a = .ok v
      | none => NotFound param (h.GetParameter param a)) ↔
      (h.nearest param a = none → a ≠ h.top) ∧ (h.nearest param a = some nullptr → a = h.top) := by
  rw [GetParameter_eq hconf]
  by_cases htop : a = h.top
  · subst htop
    have hnearest : h.nearest param h.top = h.binding param h.top := by
      rw [nearest, path_top]
      cases hbinding : h.binding param h.top <;> simp [hbinding]
    rw [if_pos h.top_name, hnearest, value]
    cases hbinding : h.binding param h.top with
    | some v => simp
    | none => simp [NotFound]
  · have hname : ¬ h.module_name a = "top" := fun heq => htop (hnames a heq)
    rw [if_neg hname, upTo_isNamedTop hnames]
    have hfirst := firstBound_of_nearest (h := h) param (h.path a) (searchFailed F param)
    rw [← nearest] at hfirst
    cases hnearest : h.nearest param a with
    | none =>
      rw [hnearest] at hfirst
      exact ⟨fun _ => ⟨fun _ => htop, fun heq => (by cases heq)⟩, fun _ => .inl hfirst⟩
    | some v =>
      rw [hnearest] at hfirst
      simp only at hfirst ⊢
      split at hfirst
      · rename_i hv
        rw [is_null_iff.mp hv] at hfirst ⊢
        exact ⟨fun hok => absurd hok hfirst, fun hboth => absurd (hboth.2 rfl) htop⟩
      · rename_i hv
        refine ⟨fun _ => ⟨fun heq => (by cases heq), ?_⟩, fun _ => hfirst⟩
        intro heq
        exact absurd (is_null_iff.mpr (Option.some.inj heq)) hv

/-- The value of the module is null, and that of the top is given. -/
theorem null_passed_over : plain.nearest "p" 1 = some nullptr ∧
    plain.GetParameter "p" 1 = .ok one ∧ one ≠ nullptr := by
  refine ⟨by with_unfolding_all rfl, by with_unfolding_all rfl, ?_⟩
  intro heq
  cases heq

theorem nearest_of_top : plain.nearest "p" 0 = some one ∧ plain.GetParameter "p" 0 = .ok one := by
  have hnames : ∀ b, plain.module_name b = "top" → b = plain.top := by decide
  have hnearest : plain.nearest "p" 0 = some one := by with_unfolding_all rfl
  have hwins := (nearest_wins_iff configured_plain hnames "p" 0).mpr ⟨fun hnone => ?_, fun _ => rfl⟩
  · rw [hnearest] at hwins
    exact ⟨hnearest, hwins⟩
  · rw [hnearest] at hnone
    cases hnone

end Hierarchy

end Pfp.Core
