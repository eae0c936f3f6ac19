import PFPSim.Config.Overlay

/-!
# Laws of repeated overlays

Whether a document fits, and what the result is, depends on the labels only: the fit on the
shape of the base (`fits_iff_labels`), which an overlay does not change.
-/

namespace Pfp.Core

open Json Value

variable {F : Type} {c d g r : Value F}

/-- A label without the value of a primitive. -/
inductive Shape where
  | primitive (type : PrimitiveType)
  | array (length : Nat)
  | object (keys : List String)
  deriving DecidableEq

def shapeOf : Label F → Shape
  | .primitive p => .primitive p.type
  | .array length => .array length
  | .object keys => .object keys

def shapeAt (v : Value F) (p : List PathStep) : Option Shape := (v.labelAt p).map shapeOf

/-- What a fit asks for at one path. -/
def LabelFits : (c : Option (Label F)) → (g : Option Shape) → Prop
  | none, _ => True
  | some (.primitive x), some (.primitive type) => x.type = type
  | some (.array n), some (.array length) => n = length
  | some (.object _), some (.object _) => True
  | some _, _ => False

theorem shapeAt_cons (v : Value F) (s : PathStep) (p : List PathStep) :
    shapeAt v (s :: p) = (v.child s).bind fun w => shapeAt w p := by
  rw [shapeAt, labelAt_cons, Option.map_bind]
  rfl

theorem Fits.labels (h : Fits c g) (p : List PathStep) : LabelFits (c.labelAt p) (shapeAt g p) := by
  induction c generalizing g p with
  | primitive x =>
    cases h with
    | primitive htype =>
    cases p with
    | nil => exact htype
    | cons s p => cases s <;> trivial
  | array cs ih =>
    cases h with
    | @array _ gs hlength hfits =>
    cases p with
    | nil => exact hlength
    | cons s p =>
      rw [labelAt_cons, shapeAt_cons]
      cases s with
      | key k => trivial
      | index i =>
        rw [child, child]
        by_cases hi : i < cs.length
        · have hi' : i < gs.length := hlength ▸ hi
          have hc := List.getElem?_eq_getElem hi
          have hg := List.getElem?_eq_getElem hi'
          rw [hc, hg]
          exact ih _ (List.getElem_mem hi) (hfits i _ _ hc hg) p
        · rw [List.getElem?_eq_none (Nat.le_of_not_lt hi)]
          trivial
  | object cs ih =>
    cases h with
    | @object _ gs hkeys hfits =>
    cases p with
    | nil => trivial
    | cons s p =>
      rw [labelAt_cons, shapeAt_cons]
      cases s with
      | index i => trivial
      | key k =>
        rw [child, child]
        cases hv : Members.find k cs with
        | none => trivial
        | some v =>
          have hmem := Members.mem_of_find hv
          obtain ⟨w, hw⟩ := Members.exists_find (hkeys _ hmem)
          rw [hw]
          exact ih _ hmem (hfits _ hmem w hw) p

theorem fits_of_labels (hc : c.WellFormed) (h : ∀ p, LabelFits (c.labelAt p) (shapeAt g p)) :
    Fits c g := by
  have hroot := h []
  induction c generalizing g with
  | primitive x =>
    cases g with
    | primitive y => exact .primitive hroot
    | array => exact hroot.elim
    | object => exact hroot.elim
  | array cs ih =>
    cases hc with
    | array hc =>
    cases g with
    | primitive y => exact hroot.elim
    | object => exact hroot.elim
    | array gs =>
      refine .array hroot fun i x y hx hy => ?_
      have hbelow : ∀ p, LabelFits (x.labelAt p) (shapeAt y p) := by
        intro p
        have hp := h (.index i :: p)
        rw [labelAt_cons, shapeAt_cons, child, child, hx, hy] at hp
        exact hp
      have hmem := List.mem_of_getElem? hx
      exact ih x hmem (hc x hmem) hbelow (hbelow [])
  | object cs ih =>
    cases hc with
    | object hcs hc =>
    cases g with
    | primitive y => exact hroot.elim
    | array => exact hroot.elim
    | object gs =>
      have hfind : ∀ m ∈ cs, Members.find m.1 cs = some m.2 := fun m hm =>
        Members.find_of_mem hcs hm
      refine .object ?_ ?_
      · intro m hm
        have hp := h [.key m.1]
        rw [labelAt_cons, shapeAt_cons, child, child, hfind m hm] at hp
        by_contra hkey
        rw [Members.find_eq_none hkey] at hp
        cases hv : m.2 <;> rw [hv] at hp <;> exact hp
      · intro m hm y hy
        have hbelow : ∀ p, LabelFits (m.2.labelAt p) (shapeAt y p) := by
          intro p
          have hp := h (.key m.1 :: p)
          rw [labelAt_cons, shapeAt_cons, child, child, hfind m hm, hy] at hp
          exact hp
        exact ih m hm (hc m hm) hbelow (hbelow [])

/-- A fit depends on the shape of the base. -/
theorem fits_iff_labels (hc : c.WellFormed) :
    Fits c g ↔ ∀ p, LabelFits (c.labelAt p) (shapeAt g p) :=
  ⟨Fits.labels, fits_of_labels hc⟩

theorem fits_refl (hg : g.WellFormed) : Fits g g := by
  apply fits_of_labels hg
  intro p
  rw [shapeAt]
  cases g.labelAt p with
  | none => trivial
  | some l => cases l <;> trivial

/-- An overlay keeps the shape of the base. -/
theorem Filled.shape (h : Filled c g r) (hfits : Fits c g) (p : List PathStep) :
    shapeAt r p = shapeAt g p := by
  have hp := hfits.labels p
  rw [shapeAt, h.labels, shapeAt]
  rw [shapeAt] at hp
  cases hc : c.labelAt p with
  | none => rfl
  | some l =>
    cases l with
    | array => rfl
    | object => rfl
    | primitive x =>
      rw [hc] at hp
      cases hg : g.labelAt p with
      | none =>
        rw [hg] at hp
        exact hp.elim
      | some l' =>
        rw [hg] at hp
        cases l' with
        | array => exact hp.elim
        | object => exact hp.elim
        | primitive y => exact congrArg (fun type => some (Shape.primitive type)) hp

theorem Filled.fits_iff (h : Filled c g r) (hfits : Fits c g) (hd : d.WellFormed) :
    Fits d r ↔ Fits d g := by
  rw [fits_iff_labels hd, fits_iff_labels hd]
  simp only [h.shape hfits]

theorem override_self (l : Option (Label F)) : override l l = l := by
  cases l with
  | none => rfl
  | some l => cases l <;> rfl

theorem override_twice (c g : Option (Label F)) : override c (override c g) = override c g := by
  cases c with
  | none => rfl
  | some l => cases l <;> rfl

/-- Not both have a primitive at the path. -/
def DisjointAt (c d : Option (Label F)) : Prop :=
  ∀ x y, ¬ (c = some (.primitive x) ∧ d = some (.primitive y))

theorem override_comm {c d : Option (Label F)} (h : DisjointAt c d) (g : Option (Label F)) :
    override d (override c g) = override c (override d g) := by
  cases c with
  | none => rfl
  | some l =>
    cases l with
    | array => rfl
    | object => rfl
    | primitive x =>
      cases d with
      | none => rfl
      | some l' =>
        cases l' with
        | array => rfl
        | object => rfl
        | primitive y => exact absurd ⟨rfl, rfl⟩ (h x y)

variable [DecidableEq F]

/-- **Laws of overlays.** A document laid over itself stays as it is; an overlay keeps the
shape, may be repeated, and leaves the fits as they are; of two overlays the later one
counts, and overlays without a common primitive commute. -/
theorem overlay_laws (g : Document F) :
    MatchandFill g.1 g.1 = .ok g.1 ∧
      (∀ (c : Document F) r, MatchandFill g.1 c.1 = .ok r →
        (∀ p, shapeAt r p = shapeAt g.1 p) ∧ MatchandFill r c.1 = .ok r ∧
        ∀ d : Document F, Fits d.1 r ↔ Fits d.1 g.1) ∧
      ∀ c₁ c₂ : Document F, Fits c₁.1 g.1 → Fits c₂.1 g.1 →
        ∃ r₁ r₂ r, MatchandFill g.1 c₁.1 = .ok r₁ ∧ MatchandFill g.1 c₂.1 = .ok r₂ ∧
          MatchandFill r₁ c₂.1 = .ok r ∧
          (∀ p, r.labelAt p = override (c₂.1.labelAt p)
            (override (c₁.1.labelAt p) (g.1.labelAt p))) ∧
          ((∀ p, DisjointAt (c₁.1.labelAt p) (c₂.1.labelAt p)) → MatchandFill r₂ c₁.1 = .ok r) := by
  refine ⟨?_, ?_, ?_⟩
  · exact MatchandFill_eq_ok_iff.mpr ⟨fits_refl g.2, g.2, fun p => (override_self _).symm⟩
  · intro c r hr
    obtain ⟨hfits, hr⟩ := MatchandFill_eq_ok_iff.mp hr
    refine ⟨hr.shape hfits, ?_, fun d => hr.fits_iff hfits d.2⟩
    refine (MatchandFill_eq_ok_iff (g := ⟨r, hr.wellFormed⟩)).mpr
      ⟨(hr.fits_iff hfits c.2).mpr hfits, hr.wellFormed, ?_⟩
    intro p
    rw [hr.labels, override_twice]
  · intro c₁ c₂ hfits₁ hfits₂
    obtain ⟨r₁, hr₁⟩ := exists_filled hfits₁
    obtain ⟨r₂, hr₂⟩ := exists_filled hfits₂
    have hfits₂₁ : Fits c₂.1 r₁ := (hr₁.fits_iff hfits₁ c₂.2).mpr hfits₂
    have hfits₁₂ : Fits c₁.1 r₂ := (hr₂.fits_iff hfits₂ c₁.2).mpr hfits₁
    obtain ⟨r, hr⟩ := exists_filled (g := ⟨r₁, hr₁.wellFormed⟩) hfits₂₁
    refine ⟨r₁, r₂, r, MatchandFill_eq_ok_iff.mpr ⟨hfits₁, hr₁⟩,
      MatchandFill_eq_ok_iff.mpr ⟨hfits₂, hr₂⟩,
      (MatchandFill_eq_ok_iff (g := ⟨r₁, hr₁.wellFormed⟩)).mpr ⟨hfits₂₁, hr⟩, ?_,
      ?_⟩
    · intro p
      rw [hr.labels, hr₁.labels]
    · intro hdisjoint
      refine (MatchandFill_eq_ok_iff (g := ⟨r₂, hr₂.wellFormed⟩)).mpr ⟨hfits₁₂, hr.wellFormed, ?_⟩
      intro p
      rw [hr.labels, hr₁.labels, hr₂.labels]
      exact override_comm (hdisjoint p) _

end Pfp.Core
