import PFPSim.Modules.Lookup

/-!
# Qualified names

`ModuleHierarchy` stops at the first module whose name contains `top`, so a qualified name
is that of the path from the top only if no module below the top has such a name.
-/

namespace Pfp.Core

open Json Lists

def dotted (names : List String) : String := ".".intercalate names

theorem joinNames_false (ss : String) (names : List String) :
    Hierarchy.joinNames false ss names = dotted (ss :: names) := by
  induction names generalizing ss with
  | nil => exact String.intercalate_singleton.symm
  | cons name names ih =>
    rw [Hierarchy.joinNames, ih]
    show dotted ((ss ++ "." ++ name) :: names) = _
    rw [dotted, dotted, String.intercalate_cons_append, String.intercalate_cons_cons]

/-- The loop puts a dot between the names. -/
theorem joinNames_eq (names : List String) : Hierarchy.joinNames true "" names = dotted names := by
  cases names with
  | nil => rfl
  | cons name names =>
    rw [Hierarchy.joinNames, joinNames_false]
    simp

/-- Names without a dot can be read off. -/
theorem dotted_inj {l l' : List String} (hl : ∀ n ∈ l, '.' ∉ n.toList)
    (hl' : ∀ n ∈ l', '.' ∉ n.toList) (hne : l ≠ []) (hne' : l' ≠ [])
    (h : dotted l = dotted l') : l = l' := by
  have hread : ∀ k : List String, (∀ n ∈ k, '.' ∉ n.toList) → k ≠ [] →
      (dotted k).toList.splitOn '.' = k.map String.toList := by
    intro k hk hne
    rw [dotted, String.toList_intercalate]
    refine List.splitOn_intercalate '.' ?_ (by simpa using hne)
    intro x hx
    obtain ⟨n, hn, rfl⟩ := List.mem_map.mp hx
    exact hk n hn
  have hmap : l.map String.toList = l'.map String.toList := by
    rw [← hread l hl hne, ← hread l' hl' hne', h]
  exact List.map_injective_iff.mpr (fun _ _ heq => String.toList_inj.mp heq) hmap

namespace Hierarchy

variable {A F : Type} {h : Hierarchy A F}

/-- The names from below the top down to a module. -/
def names (h : Hierarchy A F) (a : A) : List String := ((h.below a).map h.module_name).reverse

theorem ModuleHierarchy_eq (a : A) :
    h.ModuleHierarchy a = some ((upTo h.containsTop (h.path a)).map h.module_name) := by
  induction a using h.induct with
  | top =>
    have htop : h.containsTop h.top = true := containsTop_of_isNamedTop isNamedTop_top
    rw [ModuleHierarchy, path_top, upTo, if_pos htop]
    rw [containsTop, decide_eq_true_eq] at htop
    rw [if_neg fun hnone => find_top.mp hnone htop]
    rfl
  | below a p hp _ ih =>
    rw [ModuleHierarchy, h.path_of_parent hp, upTo]
    by_cases hname : h.containsTop a = true
    · rw [if_pos hname]
      rw [containsTop, decide_eq_true_eq] at hname
      rw [if_neg fun hnone => find_top.mp hnone hname]
      rfl
    · rw [if_neg hname]
      rw [containsTop, decide_eq_true_eq] at hname
      rw [if_pos (find_top.mpr hname)]
      split
      · rename_i hnone
        cases hnone.symm.trans hp
      · rename_i hp'
        cases hp.symm.trans hp'
        rw [ih]
        rfl

/-- A first call gives the names up to the module where the walk stops, without that one. -/
theorem fully_qualified_module_name_eq (a : A) : h.fully_qualified_module_name a "" =
    some (dotted (((upTo h.containsTop (h.path a)).dropLast.map h.module_name).reverse)) := by
  rw [fully_qualified_module_name, if_pos rfl, ModuleHierarchy_eq, Option.map_some, joinNames_eq,
    List.drop_one, List.tail_reverse, List.map_dropLast]

theorem containsTop_ne_empty {name : String} (hname : ContainsTop name) : name ≠ "" := by
  rintro rfl
  exact absurd hname (by decide)

/-- The name is that of the path exactly if no module on it, below the top, has `top` in its
name. -/
theorem qualified_name_iff (hdots : ∀ a, '.' ∉ (h.module_name a).toList) (a : A) :
    h.fully_qualified_module_name a "" = some (dotted (h.names a)) ↔
      ∀ b ∈ h.below a, ¬ ContainsTop (h.module_name b) := by
  have hfree : ∀ l : List A, ∀ n ∈ (l.map h.module_name).reverse, '.' ∉ n.toList := by
    intro l n hn
    obtain ⟨b, -, rfl⟩ := List.mem_map.mp (List.mem_reverse.mp hn)
    exact hdots b
  have htop : h.containsTop h.top = true := containsTop_of_isNamedTop isNamedTop_top
  rw [fully_qualified_module_name_eq, Option.some.injEq, names]
  rcases split_first h.containsTop (h.below a) with hnone | ⟨front, x, back, hsplit, hfront, hx⟩
  · rw [h.path_eq, upTo_append hnone htop, List.dropLast_concat]
    refine ⟨?_, fun _ => rfl⟩
    intro _ b hb
    simpa [containsTop] using hnone b hb
  · rw [h.path_eq, hsplit, List.append_assoc, List.cons_append, upTo_append hfront hx,
      List.dropLast_concat]
    rw [containsTop, decide_eq_true_eq] at hx
    refine ⟨?_, fun hall => absurd hx (hall x (by simp))⟩
    intro heq
    have hfull : ((front ++ x :: back).map h.module_name).reverse ≠ [] := by simp
    cases front with
    | nil =>
      -- the walk stops at the module itself, and the name is empty
      have hempty : [""] = ((x :: back).map h.module_name).reverse :=
        dotted_inj (by simp) (hfree _) (by simp) (by simp) heq
      have hmem : h.module_name x ∈ [""] := by
        rw [hempty]
        simp
      exact absurd (List.mem_singleton.mp hmem) (containsTop_ne_empty hx)
    | cons y front =>
      have heq := dotted_inj (hfree _) (hfree _) (by simp) hfull heq
      have hlength := congrArg List.length heq
      simp only [List.length_reverse, List.length_map, List.length_append, List.length_cons]
        at hlength
      omega

/-- Modules whose names differ from those of their siblings are told apart by their paths. -/
theorem names_inj (hsiblings : ∀ a b, h.parent a = h.parent b →
    h.module_name a = h.module_name b → a = b) {a b : A} (hnames : h.names a = h.names b) :
    a = b := by
  have hmap : (h.below a).map h.module_name = (h.below b).map h.module_name :=
    List.reverse_injective hnames
  induction a using h.induct generalizing b with
  | top =>
    cases hp : h.parent b with
    | none => exact (h.parent_eq_none.mp hp).symm
    | some q =>
      rw [below_top, h.below_of_parent hp] at hmap
      cases hmap
  | below a p hp _ ih =>
    rw [h.below_of_parent hp] at hmap
    cases hq : h.parent b with
    | none =>
      rw [h.parent_eq_none.mp hq, below_top] at hmap
      cases hmap
    | some q =>
      rw [h.below_of_parent hq] at hmap
      obtain ⟨hname, hrest⟩ := List.cons.inj hmap
      have heq : p = q := ih (congrArg List.reverse hrest) hrest
      exact hsiblings a b (hp.trans (heq ▸ hq.symm)) hname

/-- **Qualified names.** Where the names have no dots and siblings have different names, all
qualified names are those of the paths from the top, and those of different modules below
the top differ, exactly if no name below the top contains `top`. -/
theorem qualified_names_iff (hdots : ∀ a, '.' ∉ (h.module_name a).toList)
    (hsiblings : ∀ a b, h.parent a = h.parent b → h.module_name a = h.module_name b → a = b) :
    ((∀ a, h.fully_qualified_module_name a "" = some (dotted (h.names a))) ∧
      ∀ a b, a ≠ h.top → b ≠ h.top →
        h.fully_qualified_module_name a "" = h.fully_qualified_module_name b "" → a = b) ↔
      ∀ a, a ≠ h.top → ¬ ContainsTop (h.module_name a) := by
  constructor
  · rintro ⟨hall, -⟩ a ha
    cases hp : h.parent a with
    | none => exact absurd (h.parent_eq_none.mp hp) ha
    | some p =>
      refine (qualified_name_iff hdots a).mp (hall a) a ?_
      rw [h.below_of_parent hp]
      exact List.mem_cons_self
  · intro hfree
    have hall : ∀ a, h.fully_qualified_module_name a "" = some (dotted (h.names a)) := fun a =>
      (qualified_name_iff hdots a).mpr fun b hb => hfree b (h.ne_top_of_mem_below hb)
    refine ⟨hall, fun a b ha hb heq => names_inj hsiblings ?_⟩
    have hnonempty : ∀ a, a ≠ h.top → h.names a ≠ [] := by
      intro a ha
      cases hp : h.parent a with
      | none => exact absurd (h.parent_eq_none.mp hp) ha
      | some p => simp [names, h.below_of_parent hp]
    have hdotfree : ∀ a, ∀ n ∈ h.names a, '.' ∉ n.toList := by
      intro a n hn
      obtain ⟨b, -, rfl⟩ := List.mem_map.mp (List.mem_reverse.mp hn)
      exact hdots b
    rw [hall, hall, Option.some.injEq] at heq
    exact dotted_inj (hdotfree a) (hdotfree b) (hnonempty a ha) (hnonempty b hb) heq

/-- A module `m`, a module `stopper` in it, and another module `m` in that. -/
def nested : Hierarchy (Fin 4) Unit :=
  chain nullptr [("m", nullptr), ("stopper", nullptr), ("m", nullptr)]

/-- Both modules `m` have the name `m`. -/
theorem nested_names : (∀ a, '.' ∉ (nested.module_name a).toList) ∧
    (∀ a b, nested.parent a = nested.parent b → nested.module_name a = nested.module_name b →
      a = b) ∧
    nested.fully_qualified_module_name 1 "" = some "m" ∧
    nested.fully_qualified_module_name 3 "" = some "m" ∧
    dotted (nested.names 3) = "m.stopper.m" := by
  decide +kernel

theorem plain_names : plain.fully_qualified_module_name 2 "" = some "a.m" := by
  have hdots : ∀ a, '.' ∉ (plain.module_name a).toList := by decide
  have hsiblings : ∀ a b, plain.parent a = plain.parent b →
      plain.module_name a = plain.module_name b → a = b := by decide
  have hnames : dotted (plain.names 2) = "a.m" := by decide +kernel
  rw [← hnames]
  exact ((qualified_names_iff hdots hsiblings).mpr (by decide)).1 2

end Hierarchy

end Pfp.Core
