import PFPSim.Config.ConfigurationParameters

/-!
# Overlays

`MatchandFill` lays an instance configuration over a base one. It succeeds exactly when
the instance fits the base (`Fits`), and its result is the base with the primitives of the
instance in the places of its own (`fill_labels`). The laws of repeated overlays follow
from that description.
-/

namespace Pfp.Core

open Json Value

variable {F : Type}

/-- Every key of an object of `c` is one of `g`, the arrays have the same lengths, and the
primitives the same types. -/
inductive Fits : (c g : Value F) → Prop
  | object {cs gs : Members F} (hkeys : ∀ m ∈ cs, m.1 ∈ gs.keys)
      (h : ∀ m ∈ cs, ∀ g, gs.find m.1 = some g → Fits m.2 g) : Fits (.object cs) (.object gs)
  | array {cs gs : List (Value F)} (hlength : cs.length = gs.length)
      (h : ∀ (i : Nat) c g, cs[i]? = some c → gs[i]? = some g → Fits c g) :
      Fits (.array cs) (.array gs)
  | primitive {c g : Primitive F} (h : c.type = g.type) : Fits (.primitive c) (.primitive g)

/-- What an overlay has where `c` and `g` have their labels: a primitive of `c`, or else what
`g` has. -/
def override : (c g : Option (Label F)) → Option (Label F)
  | some (.primitive x), _ => some (.primitive x)
  | _, g => g

/-- `r` is `c` laid over `g`. -/
structure Filled (c g r : Value F) : Prop where
  wellFormed : r.WellFormed
  labels : ∀ p, r.labelAt p = override (c.labelAt p) (g.labelAt p)

/-- What a comparison of `c` with `g` may result in. -/
def Outcome (c g : Value F) : Except (Failure F) (CompareResult F) → Prop
  | .ok r => r.result = true ∧ Fits c g ∧ Filled c g r.resultobject
  | .error _ => ¬ Fits c g

/-! ## Objects, arrays and primitives -/

/-- The values of the golden members behind the loop over `cs`. -/
structure FilledMembers (cs gs gs' : Members F) : Prop where
  keys : gs'.keys = gs.keys
  wellFormed : ∀ m ∈ gs', m.2.WellFormed
  found : ∀ k v, cs.find k = some v → ∃ g r, gs.find k = some g ∧ gs'.find k = some r ∧
    Fits v g ∧ Filled v g r
  kept : ∀ k, cs.find k = none → gs'.find k = gs.find k

theorem override_none (l : Option (Label F)) : override none l = l := rfl

theorem Filled.object {cs gs gs' : Members F} (hgs : gs.Ordered)
    (h : FilledMembers cs gs gs') : Filled (.object cs) (.object gs) (.object gs') := by
  refine ⟨.object ?_ h.wellFormed, fun p => ?_⟩
  · have hordered := Members.ordered_iff_keys.mp hgs
    rw [← h.keys] at hordered
    exact Members.ordered_iff_keys.mpr hordered
  cases p with
  | nil => exact congrArg (fun keys => some (Label.object keys)) h.keys
  | cons s p =>
    rw [labelAt_cons, labelAt_cons, labelAt_cons]
    cases s with
    | index i => rfl
    | key k =>
      rw [child, child, child]
      cases hfind : cs.find k with
      | none =>
        rw [h.kept k hfind, Option.bind_none, override_none]
      | some v =>
        obtain ⟨g, r, hg, hr, -, hfilled⟩ := h.found k v hfind
        rw [hg, hr]
        exact hfilled.labels p

theorem Filled.array {cs gs rs : List (Value F)} (hlength : cs.length = gs.length)
    (hlength' : rs.length = gs.length) (h : ∀ (i : Nat) c g, cs[i]? = some c → gs[i]? = some g →
      ∃ r, rs[i]? = some r ∧ Fits c g ∧ Filled c g r) :
    Filled (.array cs) (.array gs) (.array rs) := by
  have hget : ∀ i : Nat, cs[i]? = none ∧ gs[i]? = none ∧ rs[i]? = none ∨
      ∃ c g r, cs[i]? = some c ∧ gs[i]? = some g ∧ rs[i]? = some r ∧ Filled c g r := by
    intro i
    by_cases hi : i < gs.length
    · have hc := List.getElem?_eq_getElem (hlength ▸ hi : i < cs.length)
      obtain ⟨r, hr, -, hfilled⟩ := h i _ _ hc (List.getElem?_eq_getElem hi)
      exact .inr ⟨_, _, r, hc, List.getElem?_eq_getElem hi, hr, hfilled⟩
    · have hge : gs.length ≤ i := Nat.le_of_not_lt hi
      exact .inl ⟨List.getElem?_eq_none (hlength ▸ hge), List.getElem?_eq_none hge,
        List.getElem?_eq_none (hlength'.symm ▸ hge)⟩
  refine ⟨.array fun r hr => ?_, fun p => ?_⟩
  · obtain ⟨i, hi⟩ := List.mem_iff_getElem?.mp hr
    rcases hget i with ⟨-, -, hnone⟩ | ⟨c, g, r', -, -, hr', hfilled⟩
    · cases hi.symm.trans hnone
    · cases hi.symm.trans hr'
      exact hfilled.wellFormed
  cases p with
  | nil => exact congrArg (fun n => some (Label.array n)) hlength'
  | cons s p =>
    rw [labelAt_cons, labelAt_cons, labelAt_cons]
    cases s with
    | key k => rfl
    | index i =>
      rw [child, child, child]
      rcases hget i with ⟨hc, hg, hr⟩ | ⟨c, g, r, hc, hg, hr, hfilled⟩
      · rw [hc, hg, hr]
        rfl
      · rw [hc, hg, hr]
        exact hfilled.labels p

theorem Filled.primitive (c g : Primitive F) :
    Filled (.primitive c) (.primitive g) (.primitive c) := by
  refine ⟨.primitive c, ?_⟩
  intro p
  cases p with
  | nil => rfl
  | cons s p => cases s <;> rfl

/-! ## The comparison -/

variable [DecidableEq F]

theorem compareMembers_spec (compare : Value F) {cs gs : Members F} (hcs : cs.Ordered)
    (hgs : gs.Ordered) (hwf : ∀ m ∈ gs, m.2.WellFormed)
    (ih : ∀ m ∈ cs, ∀ g : Value F, g.WellFormed → Outcome m.2 g (CompareStructure m.2 g)) :
    match compareMembers compare cs gs with
    | .ok gs' => FilledMembers cs gs gs'
    | .error _ => ¬ ∀ m ∈ cs, ∃ g, gs.find m.1 = some g ∧ Fits m.2 g := by
  induction cs generalizing gs with
  | nil => exact ⟨rfl, hwf, fun k v hv => (by cases hv), fun k _ => rfl⟩
  | cons m cs ihcs =>
    obtain ⟨key, value⟩ := m
    obtain ⟨hfirst, hcs⟩ := List.pairwise_cons.mp hcs
    obtain ⟨ihfirst, ih⟩ := List.forall_mem_cons.mp ih
    have hnot : Members.find key cs = none := by
      apply Members.find_eq_none
      intro hmem
      obtain ⟨x, hx, heq⟩ := List.mem_map.mp hmem
      exact absurd (hfirst x hx) (heq ▸ lt_irrefl _)
    rw [compareMembers]
    cases hfind : gs.find key with
    | none =>
      intro hall
      obtain ⟨g, hg, -⟩ := hall _ List.mem_cons_self
      cases hg.symm.trans hfind
    | some g =>
      have hg : g.WellFormed := hwf _ (Members.mem_of_find hfind)
      have houtcome := ihfirst g hg
      simp only at houtcome ⊢
      cases hresult : CompareStructure value g with
      | error e =>
        rw [hresult] at houtcome
        intro hall
        obtain ⟨g', hg', hfits⟩ := hall _ List.mem_cons_self
        cases hfind.symm.trans hg'
        exact houtcome hfits
      | ok r =>
        rw [hresult] at houtcome
        obtain ⟨-, hfits, hfilled⟩ := houtcome
        have hkeys := Members.keys_assign (v := r.resultobject) hgs hfind
        have hfound := Members.find_assign (v := r.resultobject) hgs hfind
        have hordered := hgs.assign (v := r.resultobject) hfind
        have hwf' := Members.wellFormed_assign (k := key) hwf hfilled.wellFormed
        have hrest := ihcs hcs hordered hwf' ih
        show match compareMembers compare cs (gs.assign key r.resultobject) with
          | .ok gs' => FilledMembers ((key, value) :: cs) gs gs'
          | .error _ => ¬ ∀ m ∈ (key, value) :: cs, ∃ g, gs.find m.1 = some g ∧ Fits m.2 g
        cases hloop : compareMembers compare cs (gs.assign key r.resultobject) with
        | error e =>
          rw [hloop] at hrest
          intro hall
          apply hrest
          intro x hx
          obtain ⟨g', hg', hfits'⟩ := hall x (List.mem_cons_of_mem _ hx)
          refine ⟨g', ?_, hfits'⟩
          rw [hfound, if_neg (ne_of_lt (hfirst x hx))]
          exact hg'
        | ok gs' =>
          rw [hloop] at hrest
          refine ⟨hrest.keys.trans hkeys, hrest.wellFormed, ?_, ?_⟩
          · intro k v hv
            rw [Members.find] at hv
            split at hv
            · rename_i heq
              cases hv
              cases heq
              refine ⟨g, r.resultobject, hfind, ?_, hfits, hfilled⟩
              rw [hrest.kept _ hnot, hfound, if_pos rfl]
            · rename_i hne
              obtain ⟨g', r', hg', hr', hout⟩ := hrest.found k v hv
              rw [hfound, if_neg hne] at hg'
              exact ⟨g', r', hg', hr', hout⟩
          · intro k hk
            rw [Members.find] at hk
            split at hk
            · cases hk
            · rename_i hne
              rw [hrest.kept k hk, hfound, if_neg hne]

theorem compareElements_spec {cs gs : List (Value F)} (hlength : cs.length = gs.length)
    (hwf : ∀ g ∈ gs, g.WellFormed)
    (ih : ∀ c ∈ cs, ∀ g : Value F, g.WellFormed → Outcome c g (CompareStructure c g)) :
    match compareElements cs gs with
    | .ok rs => rs.length = gs.length ∧ ∀ (i : Nat) c g, cs[i]? = some c → gs[i]? = some g →
        ∃ r, rs[i]? = some r ∧ Fits c g ∧ Filled c g r
    | .error _ => ∃ (i : Nat) (c g : Value F), cs[i]? = some c ∧ gs[i]? = some g ∧ ¬ Fits c g := by
  induction cs generalizing gs with
  | nil =>
    cases gs with
    | nil => exact ⟨rfl, fun i c g hc => (by cases hc)⟩
    | cons g gs => cases hlength
  | cons c cs ihcs =>
    cases gs with
    | nil => cases hlength
    | cons g gs =>
      obtain ⟨ihfirst, ih⟩ := List.forall_mem_cons.mp ih
      obtain ⟨hg, hwf⟩ := List.forall_mem_cons.mp hwf
      have houtcome := ihfirst g hg
      have hrest := ihcs (Nat.succ.inj hlength) hwf ih
      rw [compareElements]
      cases hresult : CompareStructure c g with
      | error e =>
        rw [hresult] at houtcome
        exact ⟨0, c, g, rfl, rfl, houtcome⟩
      | ok r =>
        rw [hresult] at houtcome
        obtain ⟨-, hfits, hfilled⟩ := houtcome
        cases hloop : compareElements cs gs with
        | error e =>
          rw [hloop] at hrest
          obtain ⟨i, c', g', hc, hg, hnot⟩ := hrest
          exact ⟨i + 1, c', g', hc, hg, hnot⟩
        | ok rs =>
          rw [hloop] at hrest
          refine ⟨congrArg (· + 1) hrest.1, ?_⟩
          intro i c' g' hc hg
          cases i with
          | zero =>
            cases hc
            cases hg
            exact ⟨r.resultobject, rfl, hfits, hfilled⟩
          | succ i => exact hrest.2 i c' g' hc hg

/-- A comparison gives the overlay if the document fits, and ends the program if not. -/
theorem CompareStructure_outcome {c g : Value F} (hc : c.WellFormed) (hg : g.WellFormed) :
    Outcome c g (CompareStructure c g) := by
  induction c generalizing g with
  | primitive x =>
    cases g with
    | primitive y =>
      rw [CompareStructure]
      split
      · rename_i htype
        have hfits : Fits (.primitive x) (.primitive y) := .primitive htype.symm
        split
        · exact ⟨rfl, hfits, .primitive x y⟩
        · rename_i heq
          rw [not_ne_iff] at heq
          exact ⟨rfl, hfits, heq ▸ .primitive x y⟩
      · rename_i htype
        intro hfits
        cases hfits with
        | primitive heq => exact htype heq.symm
    | array gs => exact fun hfits => nomatch hfits
    | object gs => exact fun hfits => nomatch hfits
  | array cs ih =>
    cases g with
    | primitive y => exact fun hfits => nomatch hfits
    | object gs => exact fun hfits => nomatch hfits
    | array gs =>
      cases hc with
      | array hc =>
      cases hg with
      | array hg =>
      rw [CompareStructure]
      split
      · rename_i hlength
        have hspec := compareElements_spec hlength.symm hg fun c hcs g => ih c hcs (hc c hcs)
        cases hloop : compareElements cs gs with
        | error e =>
          rw [hloop] at hspec
          obtain ⟨i, c, g, hi, hj, hnot⟩ := hspec
          intro hfits
          cases hfits with
          | array _ hfits => exact hnot (hfits i c g hi hj)
        | ok rs =>
          rw [hloop] at hspec
          refine ⟨rfl, .array hlength.symm ?_, .array hlength.symm hspec.1 hspec.2⟩
          intro i c g hi hj
          obtain ⟨r, -, hfits, -⟩ := hspec.2 i c g hi hj
          exact hfits
      · rename_i hlength
        intro hfits
        cases hfits with
        | array heq => exact hlength heq.symm
  | object cs ih =>
    cases g with
    | primitive y => exact fun hfits => nomatch hfits
    | array gs => exact fun hfits => nomatch hfits
    | object gs =>
      cases hc with
      | object hcs hc =>
      cases hg with
      | object hgs hg =>
      rw [CompareStructure]
      have hspec := compareMembers_spec (.object cs) hcs hgs hg
        fun m hm g => ih m hm (hc m hm)
      cases hloop : compareMembers (.object cs) cs gs with
      | error e =>
        rw [hloop] at hspec
        intro hfits
        cases hfits with
        | object hkeys hfits =>
        apply hspec
        intro m hm
        obtain ⟨v, hv⟩ := Members.exists_find (hkeys m hm)
        exact ⟨v, hv, hfits m hm v hv⟩
      | ok gs' =>
        rw [hloop] at hspec
        refine ⟨rfl, .object ?_ ?_, .object hgs hspec⟩
        · intro m hm
          obtain ⟨g, r, hg, -⟩ := hspec.found m.1 m.2 (Members.find_of_mem hcs hm)
          exact Members.mem_keys_of_find hg
        · intro m hm g hg
          obtain ⟨g', r, hg', -, hfits, -⟩ := hspec.found m.1 m.2 (Members.find_of_mem hcs hm)
          cases hg.symm.trans hg'
          exact hfits

/-- The result is determined by the labels of both documents. -/
theorem MatchandFill_eq_ok_iff {g c : Document F} {r : Value F} :
    MatchandFill g.1 c.1 = .ok r ↔ Fits c.1 g.1 ∧ Filled c.1 g.1 r := by
  have houtcome := CompareStructure_outcome c.2 g.2
  rw [MatchandFill]
  cases hcompare : CompareStructure c.1 g.1 with
  | error e =>
    rw [hcompare] at houtcome
    exact ⟨fun h => (by cases h), fun h => absurd h.1 houtcome⟩
  | ok result =>
    rw [hcompare] at houtcome
    obtain ⟨hresult, hfits, hfilled⟩ := houtcome
    show (if result.result then Except.ok result.resultobject else _) = _ ↔ _
    rw [if_pos hresult]
    constructor
    · intro h
      cases h
      exact ⟨hfits, hfilled⟩
    · rintro ⟨-, hr⟩
      refine congrArg _ (ext_labels hfilled.wellFormed hr.wellFormed ?_)
      intro p
      rw [hfilled.labels, hr.labels]

theorem exists_filled {g c : Document F} (h : Fits c.1 g.1) : ∃ r, Filled c.1 g.1 r := by
  have houtcome := CompareStructure_outcome c.2 g.2
  cases hcompare : CompareStructure c.1 g.1 with
  | error e =>
    rw [hcompare] at houtcome
    exact absurd h houtcome
  | ok result =>
    rw [hcompare] at houtcome
    exact ⟨_, houtcome.2.2⟩

omit [DecidableEq F] in
/-- Below a path that the overlay does not have, nothing changes. -/
theorem Filled.at?_eq {c g r : Value F} (h : Filled c g r) (hg : g.WellFormed)
    {p : List PathStep} (hp : c.at? p = none) : r.at? p = g.at? p := by
  have hlabels : ∀ q, r.labelAt (p ++ q) = g.labelAt (p ++ q) := by
    intro q
    rw [h.labels, labelAt_append c, hp, Option.bind_none, override_none]
  cases hr : r.at? p with
  | none =>
    have hroot := hlabels []
    rw [labelAt_append, labelAt_append, hr] at hroot
    cases hgp : g.at? p with
    | none => rfl
    | some y =>
      rw [hgp] at hroot
      cases hroot
  | some x =>
    cases hgp : g.at? p with
    | none =>
      have hroot := hlabels []
      rw [labelAt_append, labelAt_append, hr, hgp] at hroot
      cases hroot
    | some y =>
      refine congrArg _ (ext_labels (h.wellFormed.at? hr) (hg.at? hgp) ?_)
      intro q
      have hq := hlabels q
      rw [labelAt_append, labelAt_append, hr, hgp] at hq
      exact hq

/-- **Overlay.** The comparison returns exactly for a document that fits, and then the result
has its primitives at their paths, and otherwise what the base has. -/
theorem MatchandFill_overlay (g c : Document F) :
    ((∃ result, CompareStructure c.1 g.1 = .ok result) ↔ Fits c.1 g.1) ∧
      (Fits c.1 g.1 → ∃ r : Document F, MatchandFill g.1 c.1 = .ok r.1 ∧
        (∀ p x, c.1.at? p = some (.primitive x) → r.1.at? p = some (.primitive x)) ∧
        (∀ p, (∀ x, c.1.at? p ≠ some (.primitive x)) → r.1.labelAt p = g.1.labelAt p) ∧
        ∀ p, c.1.at? p = none → r.1.at? p = g.1.at? p) := by
  constructor
  · have houtcome := CompareStructure_outcome c.2 g.2
    cases hcompare : CompareStructure c.1 g.1 with
    | error e =>
      rw [hcompare] at houtcome
      exact ⟨fun ⟨_, h⟩ => (by cases h), fun h => absurd h houtcome⟩
    | ok result =>
      rw [hcompare] at houtcome
      exact ⟨fun _ => houtcome.2.1, fun _ => ⟨result, rfl⟩⟩
  · intro hfits
    obtain ⟨r, hr⟩ := exists_filled hfits
    refine ⟨⟨r, hr.wellFormed⟩, MatchandFill_eq_ok_iff.mpr ⟨hfits, hr⟩, fun p x hx => ?_,
      fun p hp => ?_, fun p hp => hr.at?_eq g.2 hp⟩
    · have hlabel := hr.labels p
      rw [labelAt, labelAt, hx] at hlabel
      obtain ⟨y, hy, hlabel⟩ := Option.map_eq_some_iff.mp hlabel
      cases y with
      | primitive z =>
        cases hlabel
        exact hy
      | array => cases hlabel
      | object => cases hlabel
    · rw [hr.labels p, labelAt]
      cases hc : c.1.at? p with
      | none => rfl
      | some y =>
        cases y with
        | primitive z => exact absurd hc (hp z)
        | array => rfl
        | object => rfl

end Pfp.Core
