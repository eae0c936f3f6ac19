import Mathlib.Data.List.Induction

/-!
# Histories

A machine takes calls and answers them. Its state after a history of calls is described by
the history alone: what holds of the empty history and is kept by one more call holds of
every history and the state behind it (`Machine.invariant`). `splits` are the occurrences
of the calls of a history, each with the calls before and after it.
-/

namespace Runs

structure Machine (S C R : Type*) where
  init : S
  step : C → S → R × S

namespace Machine

variable {S C R : Type*} (m : Machine S C R)

/-- The state after the calls of a history. -/
def after (h : List C) : S := h.foldl (fun s c => (m.step c s).2) m.init

/-- The answer to a call after a history. -/
def answer (h : List C) (c : C) : R := (m.step c (m.after h)).1

/-- The calls from a state on, with their answers. -/
def answersFrom : S → List C → List (C × R)
  | _, [] => []
  | s, c :: h => (c, (m.step c s).1) :: answersFrom (m.step c s).2 h

def answers (h : List C) : List (C × R) := m.answersFrom m.init h

@[simp] theorem after_nil : m.after [] = m.init := rfl

@[simp] theorem after_concat (h : List C) (c : C) :
    m.after (h ++ [c]) = (m.step c (m.after h)).2 := by
  rw [after, List.foldl_append]
  rfl

theorem answersFrom_concat (s : S) (h : List C) (c : C) : m.answersFrom s (h ++ [c]) =
    m.answersFrom s h ++ [(c, (m.step c (h.foldl (fun s c => (m.step c s).2) s)).1)] := by
  induction h generalizing s with
  | nil => rfl
  | cons d h ih =>
    rw [List.cons_append, answersFrom, ih, answersFrom, List.cons_append, List.foldl_cons]

@[simp] theorem answers_concat (h : List C) (c : C) :
    m.answers (h ++ [c]) = m.answers h ++ [(c, m.answer h c)] :=
  m.answersFrom_concat m.init h c

/-- What holds at first and is kept by every call holds after every history. -/
theorem invariant {I : List C → S → Prop} (hinit : I [] m.init)
    (hstep : ∀ h c, I h (m.after h) → I (h ++ [c]) (m.step c (m.after h)).2) (h : List C) :
    I h (m.after h) := by
  induction h using List.reverseRecOn with
  | nil => exact hinit
  | append_singleton h c ih =>
    rw [after_concat]
    exact hstep h c ih

end Machine

/-! ## Occurrences -/

theorem filterMap_concat {C β : Type*} (f : C → Option β) (h : List C) (c : C) :
    (h ++ [c]).filterMap f = h.filterMap f ++ (f c).toList := by
  rw [List.filterMap_append]
  cases hc : f c with
  | none => rw [List.filterMap_cons_none hc, List.filterMap_nil, Option.toList_none]
  | some b => rw [List.filterMap_cons_some hc, List.filterMap_nil, Option.toList_some]

/-- A call of a history, with what is before and after it. -/
structure Occurrence (C : Type*) where
  before : List C
  call : C
  after : List C

variable {C : Type*}

def splits : List C → List (Occurrence C)
  | [] => []
  | c :: h => ⟨[], c, h⟩ :: (splits h).map fun x => { x with before := c :: x.before }

theorem mem_splits {h : List C} {x : Occurrence C} :
    x ∈ splits h ↔ h = x.before ++ x.call :: x.after := by
  obtain ⟨before, c, after⟩ := x
  induction h generalizing before with
  | nil => simp [splits]
  | cons d h ih =>
    rw [splits, List.mem_cons, List.mem_map]
    constructor
    · rintro (heq | ⟨⟨before', c', after'⟩, hx, heq⟩)
      · cases heq
        rfl
      · cases heq
        rw [ih] at hx
        exact congrArg (d :: ·) hx
    · intro heq
      cases before with
      | nil =>
        cases heq
        exact .inl rfl
      | cons b before =>
        obtain ⟨rfl, htail⟩ := List.cons.inj heq
        exact .inr ⟨⟨before, c, after⟩, (ih before).mpr htail, rfl⟩

/-- One more call comes behind all others. -/
theorem splits_concat (h : List C) (c : C) : splits (h ++ [c]) =
    (splits h).map (fun x => { x with after := x.after ++ [c] }) ++ [⟨h, c, []⟩] := by
  induction h with
  | nil => rfl
  | cons d h ih =>
    simp only [List.cons_append, splits, ih, List.map_append, List.map_cons, List.map_nil,
      List.map_map]
    rfl

end Runs
