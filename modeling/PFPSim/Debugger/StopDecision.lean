import PFPSim.Debugger.Observer

/-!
# The stop decision

When `checkBreakpointHit` stops. A breakpoint is satisfied by an event when all its
conditions are; `findHit` takes the first breakpoint that is satisfied, whether it is
enabled or not, and throws at a time that `stof` rejects and that is tested before
(`findHit_cases`). A disabled breakpoint that is satisfied therefore hides the enabled
ones behind it.
-/

namespace Pfp.Db

open Lists

variable {cv : Conversions} {a : Access}

/-! ## Breakpoints and events -/

/-- The event meets a condition. -/
def Meets (cv : Conversions) (a : Access) : BreakpointCondition → String → Prop
  | .BREAK_ON_MODULE_READ, v => a.read = true ∧ v = a.mod
  | .BREAK_ON_MODULE_WRITE, v => a.read = false ∧ v = a.mod
  | .BREAK_AT_TIME, v => ∃ t, cv.stof v = some t ∧ t ≤ a.sim_time
  | .BREAK_ON_PACKET_ID, v => v = toString a.packet_id

/-- The event meets all conditions of the breakpoint. -/
def Satisfied (cv : Conversions) (a : Access) (b : Breakpoint) : Prop :=
  ∀ c v, b.conditions c = some v → Meets cv a c v

/-- The event meets the conditions before a time that is no number. -/
def Raises (cv : Conversions) (a : Access) (b : Breakpoint) : Prop :=
  ∃ front v back, b.conditions.entries = front ++ (.BREAK_AT_TIME, v) :: back ∧
    (∀ p ∈ front, Meets cv a p.1 p.2) ∧ cv.stof v = none

/-- The breakpoint is tested and does not hold. -/
def Passed (cv : Conversions) (a : Access) (b : Breakpoint) : Prop :=
  ¬ Satisfied cv a b ∧ ¬ Raises cv a b

theorem Satisfied.not_raises {b : Breakpoint} (h : Satisfied cv a b) : ¬ Raises cv a b := by
  rintro ⟨front, v, back, hsplit, -, hv⟩
  have hmem : (.BREAK_AT_TIME, v) ∈ b.conditions.entries := by
    rw [hsplit]
    simp
  obtain ⟨t, ht, -⟩ := h .BREAK_AT_TIME v (Conditions.mem_entries.mp hmem)
  rw [hv] at ht
  cases ht

/-! ## The inner loop -/

theorem testConditions_cons {c : BreakpointCondition} {v : String} (h : Meets cv a c v)
    (rest : List (BreakpointCondition × String)) :
    testConditions cv a true ((c, v) :: rest) = testConditions cv a true rest := by
  cases c with
  | BREAK_ON_MODULE_READ =>
    obtain ⟨hread, hmod⟩ := h
    simp [testConditions, hread, hmod]
  | BREAK_ON_MODULE_WRITE =>
    obtain ⟨hread, hmod⟩ := h
    simp [testConditions, hread, hmod]
  | BREAK_AT_TIME =>
    obtain ⟨t, ht, hle⟩ := h
    simp only [testConditions, ht, ofOption, gt_iff_lt, Rat.not_lt.mpr hle, if_false, bind,
      Except.bind]
  | BREAK_ON_PACKET_ID =>
    have hv : v = toString a.packet_id := h
    simp [testConditions, hv]

/-- A condition that is not met ends the loop, with an exception if its value is a time
that is no number. -/
theorem testConditions_stop {c : BreakpointCondition} {v : String} (h : ¬ Meets cv a c v)
    (rest : List (BreakpointCondition × String)) :
    testConditions cv a true ((c, v) :: rest) =
      if c = .BREAK_AT_TIME ∧ cv.stof v = none then .error .conversion else .ok false := by
  cases c with
  | BREAK_ON_MODULE_READ =>
    have hcond : (!a.read) = true ∨ v ≠ a.mod := by
      by_cases hread : a.read = true
      · exact .inr fun hv => h ⟨hread, hv⟩
      · exact .inl (by simpa using hread)
    rw [testConditions, if_pos hcond, if_neg (by simp)]
  | BREAK_ON_MODULE_WRITE =>
    have hcond : a.read = true ∨ v ≠ a.mod := by
      by_cases hread : a.read = true
      · exact .inl hread
      · exact .inr fun hv => h ⟨by simpa using hread, hv⟩
    rw [testConditions, if_pos hcond, if_neg (by simp)]
  | BREAK_AT_TIME =>
    cases ht : cv.stof v with
    | none => simp [testConditions, ht, ofOption, bind, Except.bind]
    | some t =>
      have hlt : t > a.sim_time := by
        by_contra hle
        exact h ⟨t, ht, Rat.not_lt.mp hle⟩
      simp [testConditions, ht, ofOption, bind, Except.bind, hlt]
  | BREAK_ON_PACKET_ID =>
    have hv : v ≠ toString a.packet_id := h
    rw [testConditions, if_pos hv, if_neg (by simp)]

theorem testConditions_append {front : List (BreakpointCondition × String)}
    (h : ∀ p ∈ front, Meets cv a p.1 p.2) (rest : List (BreakpointCondition × String)) :
    testConditions cv a true (front ++ rest) = testConditions cv a true rest := by
  induction front with
  | nil => rfl
  | cons p front ih =>
    rw [List.cons_append, testConditions_cons (h p List.mem_cons_self)]
    exact ih fun q hq => h q (List.mem_cons_of_mem _ hq)

/-- A breakpoint is satisfied, or a test of it throws, or it is passed. -/
theorem testConditions_cases (cv : Conversions) (a : Access) (b : Breakpoint) :
    (Satisfied cv a b ∧ testConditions cv a true b.conditions.entries = .ok true) ∨
      (Raises cv a b ∧ testConditions cv a true b.conditions.entries = .error .conversion) ∨
      (Passed cv a b ∧ testConditions cv a true b.conditions.entries = .ok false) := by
  have hsat : Satisfied cv a b ↔ ∀ p ∈ b.conditions.entries, Meets cv a p.1 p.2 := by
    simp only [Conditions.mem_entries, Prod.forall, Satisfied]
  by_cases hs : Satisfied cv a b
  · have happ := testConditions_append (hsat.mp hs) []
    rw [List.append_nil] at happ
    exact .inl ⟨hs, happ⟩
  · by_cases hr : Raises cv a b
    · obtain ⟨front, v, back, hsplit, hfront, hv⟩ := hr
      refine .inr (.inl ⟨⟨front, v, back, hsplit, hfront, hv⟩, ?_⟩)
      have hnot : ¬ Meets cv a .BREAK_AT_TIME v := by
        rintro ⟨t, ht, -⟩
        rw [hv] at ht
        cases ht
      rw [hsplit, testConditions_append hfront, testConditions_stop hnot, if_pos ⟨rfl, hv⟩]
    · refine .inr (.inr ⟨⟨hs, hr⟩, ?_⟩)
      rw [hsat] at hs
      obtain ⟨front, p, back, hsplit, hfront, hp⟩ := exists_first hs
      obtain ⟨c, v⟩ := p
      rw [hsplit, testConditions_append hfront, testConditions_stop hp, if_neg]
      rintro ⟨rfl, hv⟩
      exact hr ⟨front, v, back, hsplit, hfront, hv⟩

/-! ## The loop over the breakpoints -/

theorem findHit_append {front : List Breakpoint} (h : ∀ x ∈ front, Passed cv a x) (i : Nat)
    (rest : List Breakpoint) :
    findHit cv a true i (front ++ rest) = findHit cv a true (i + front.length) rest := by
  induction front generalizing i with
  | nil => rfl
  | cons b front ih =>
    obtain ⟨hb, hfront⟩ := List.forall_mem_cons.mp h
    rcases testConditions_cases cv a b with ⟨hs, -⟩ | ⟨hr, -⟩ | ⟨-, ht⟩
    · exact absurd hs hb.1
    · exact absurd hr hb.2
    · simp only [List.cons_append, findHit, ht, bind, Except.bind, Bool.false_eq_true, if_false,
        ih hfront, List.length_cons, Nat.add_assoc, Nat.add_comm 1]

theorem findHit_satisfied {b : Breakpoint} (h : Satisfied cv a b) (i : Nat)
    (back : List Breakpoint) : findHit cv a true i (b :: back) = .ok (some (i, b)) := by
  rcases testConditions_cases cv a b with ⟨-, ht⟩ | ⟨hr, -⟩ | ⟨hp, -⟩
  · simp only [findHit, ht, bind, Except.bind, if_true]
  · exact absurd hr h.not_raises
  · exact absurd h hp.1

theorem findHit_raises {b : Breakpoint} (h : Raises cv a b) (i : Nat)
    (back : List Breakpoint) : findHit cv a true i (b :: back) = .error .conversion := by
  rcases testConditions_cases cv a b with ⟨hs, -⟩ | ⟨-, ht⟩ | ⟨hp, -⟩
  · exact absurd h hs.not_raises
  · simp only [findHit, ht, bind, Except.bind]
  · exact absurd h hp.2

theorem findHit_start (l : List Breakpoint) :
    findHit cv a (!l.isEmpty) 0 l = findHit cv a true 0 l := by
  cases l <;> rfl

/-! ## The stop -/

/-- The first breakpoint that is not passed is satisfied and enabled. -/
structure HitAt (cv : Conversions) (a : Access) (l front : List Breakpoint) (b : Breakpoint)
    (back : List Breakpoint) : Prop where
  split : l = front ++ b :: back
  passed : ∀ x ∈ front, Passed cv a x
  satisfied : Satisfied cv a b
  enabled : b.disabled = false

/-- The server is notified and the simulation waits for it. -/
def Shared.Announced (s : Shared) : Prop := s.stopped = true ∧ s.simulation = .paused none

theorem HitAt.findHit {l front back : List Breakpoint} {b : Breakpoint}
    (h : HitAt cv a l front b back) : findHit cv a true 0 l = .ok (some (front.length, b)) := by
  rw [h.split, findHit_append h.passed, findHit_satisfied h.satisfied, Nat.zero_add]

/-- The search ends at the first breakpoint that is not passed. -/
theorem hitAt_iff_of_first {l front back : List Breakpoint} {x : Breakpoint}
    (hsplit : l = front ++ x :: back) (hfront : ∀ y ∈ front, Passed cv a y)
    (hx : ¬ Passed cv a x) :
    (∃ front b back, HitAt cv a l front b back) ↔ Satisfied cv a x ∧ x.disabled = false := by
  constructor
  · rintro ⟨front', b, back', hit⟩
    have hfind := hit.findHit
    rw [hsplit, findHit_append hfront] at hfind
    by_cases hsat : Satisfied cv a x
    · rw [findHit_satisfied hsat] at hfind
      obtain ⟨-, rfl⟩ : 0 + front.length = front'.length ∧ x = b := by simpa using hfind
      exact ⟨hsat, hit.enabled⟩
    · have hraises : Raises cv a x := by
        by_contra hnot
        exact hx ⟨hsat, hnot⟩
      rw [findHit_raises hraises] at hfind
      cases hfind
  · rintro ⟨hsat, hen⟩
    exact ⟨front, x, back, hsplit, hfront, hsat, hen⟩

theorem checkBreakpointHit_hit {s : Shared} {front back : List Breakpoint} {b : Breakpoint}
    (h : HitAt cv a s.data_manager.breakpoint_list front b back) :
    checkBreakpointHit cv a s = .ok (breakpointStop a front.length b s) := by
  simp only [checkBreakpointHit, findHit_start, h.findHit, bind, Except.bind, h.enabled, if_true]

/-- Otherwise it throws or changes nothing. -/
theorem checkBreakpointHit_cases (cv : Conversions) (a : Access) (s : Shared) :
    (∃ front b back, HitAt cv a s.data_manager.breakpoint_list front b back) ∨
      checkBreakpointHit cv a s = .ok s ∨
      (∃ b ∈ s.data_manager.breakpoint_list, Raises cv a b) ∧
        checkBreakpointHit cv a s = .error .conversion := by
  by_cases hall : ∀ b ∈ s.data_manager.breakpoint_list, Passed cv a b
  · have hfind : findHit cv a true 0 s.data_manager.breakpoint_list = .ok none := by
      have happ := findHit_append hall 0 []
      rw [List.append_nil] at happ
      exact happ
    refine .inr (.inl ?_)
    simp only [checkBreakpointHit, findHit_start, hfind, bind, Except.bind]
  · obtain ⟨front, b, back, hsplit, hfront, hb⟩ := exists_first hall
    have hfind := findHit_append hfront 0 (b :: back)
    rw [← hsplit] at hfind
    by_cases hsat : Satisfied cv a b
    · by_cases hen : b.disabled = false
      · exact .inl ⟨front, b, back, hsplit, hfront, hsat, hen⟩
      · refine .inr (.inl ?_)
        rw [findHit_satisfied hsat] at hfind
        simp only [checkBreakpointHit, findHit_start, hfind, bind, Except.bind, if_neg hen]
    · have hraise : Raises cv a b := by
        by_contra hr
        exact hb ⟨hsat, hr⟩
      rw [findHit_raises hraise] at hfind
      refine .inr (.inr ⟨⟨b, by rw [hsplit]; simp, hraise⟩, ?_⟩)
      simp only [checkBreakpointHit, findHit_start, hfind, bind, Except.bind]

/-- The simulation is stopped by the event. -/
def Stops (cv : Conversions) (a : Access) (s : Shared) : Prop :=
  ∃ s', checkBreakpointHit cv a s = .ok s' ∧ s'.Announced

theorem stops_iff_hitAt {s : Shared} (hs : s.simulation = .running) :
    Stops cv a s ↔ ∃ front b back, HitAt cv a s.data_manager.breakpoint_list front b back := by
  constructor
  · rintro ⟨s', hcheck, -, hpaused⟩
    rcases checkBreakpointHit_cases cv a s with hit | hno | ⟨-, herr⟩
    · exact hit
    · rw [hno] at hcheck
      cases hcheck
      rw [hs] at hpaused
      cases hpaused
    · rw [herr] at hcheck
      cases hcheck
  · rintro ⟨front, b, back, hit⟩
    exact ⟨_, checkBreakpointHit_hit hit, rfl, rfl⟩

/-- **The stop decision.** The simulation stops exactly when an enabled breakpoint is
satisfied, if and only if there is no such breakpoint, or the first breakpoint that is
satisfied or raises an exception is one. -/
theorem stops_iff_enabled_iff {s : Shared} (hs : s.simulation = .running) (a : Access) :
    (Stops cv a s ↔
      ∃ b ∈ s.data_manager.breakpoint_list, b.disabled = false ∧ Satisfied cv a b) ↔
    (∀ b ∈ s.data_manager.breakpoint_list, b.disabled = false → ¬ Satisfied cv a b) ∨
      ∃ front b back, HitAt cv a s.data_manager.breakpoint_list front b back := by
  rw [stops_iff_hitAt hs]
  constructor
  · intro h
    by_cases hex : ∃ b ∈ s.data_manager.breakpoint_list, b.disabled = false ∧ Satisfied cv a b
    · exact .inr (h.mpr hex)
    · exact .inl fun b hb hen hsat => hex ⟨b, hb, hen, hsat⟩
  · rintro (hnone | ⟨front, b, back, hit⟩)
    · refine ⟨fun ⟨front, b, back, hit⟩ => ?_, fun ⟨b, hb, hen, hsat⟩ => ?_⟩
      · exact absurd hit.satisfied (hnone b (by rw [hit.split]; simp) hit.enabled)
      · exact absurd hsat (hnone b hb hen)
    · refine ⟨fun _ => ?_, fun _ => ⟨front, b, back, hit⟩⟩
      exact ⟨b, by rw [hit.split]; simp, hit.enabled, hit.satisfied⟩

/-- A breakpoint on packet `7`. -/
def onPacket (id : Int) : Breakpoint :=
  { id, conditions := fun c => if c = .BREAK_ON_PACKET_ID then some "7" else none }

theorem satisfied_onPacket (id : Int) : Satisfied decimal ⟨"m", 7, 0, true⟩ (onPacket id) := by
  intro c v hv
  cases c with
  | BREAK_ON_PACKET_ID =>
    cases hv
    rfl
  | _ => cases hv

/-- A disabled breakpoint on reads of `m` in front of an enabled one on packet `7`. -/
def hiddenBreakpoint : Shared :=
  { simulation := .running
    data_manager := { breakpoint_list :=
      [{ id := 0, disabled := true, conditions := fun c =>
          if c = .BREAK_ON_MODULE_READ then some "m" else none }, onPacket 1] } }

/-- The simulation runs over an enabled breakpoint that is satisfied. -/
theorem not_stops_of_hidden :
    (∃ b ∈ hiddenBreakpoint.data_manager.breakpoint_list,
      b.disabled = false ∧ Satisfied decimal ⟨"m", 7, 0, true⟩ b) ∧
      ¬ Stops decimal ⟨"m", 7, 0, true⟩ hiddenBreakpoint := by
  refine ⟨⟨onPacket 1, List.mem_cons_of_mem _ List.mem_cons_self, rfl, satisfied_onPacket 1⟩, ?_⟩
  rintro ⟨s', hs', -, hpaused⟩
  cases hs'
  cases hpaused

/-- The breakpoint on packet `7` alone stops the simulation. -/
theorem stops_onPacket : Stops decimal ⟨"m", 7, 0, true⟩
    { simulation := .running, data_manager := { breakpoint_list := [onPacket 1] } } :=
  ((stops_iff_enabled_iff rfl _).mpr (.inr ⟨[], onPacket 1, [], rfl, by simp,
    satisfied_onPacket 1, rfl⟩)).mpr ⟨onPacket 1, List.mem_cons_self, rfl, satisfied_onPacket 1⟩

end Pfp.Db
