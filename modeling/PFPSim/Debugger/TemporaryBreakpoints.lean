import PFPSim.Debugger.StopDecision
import PFPSim.Debugger.BreakpointList

/-!
# Temporary breakpoints

Which breakpoints are gone after a stop. A stop at a user's breakpoint removes the first
internal one before it reads `hit_bkpt`. If that one was in front of the hit breakpoint,
`hit_bkpt` now sees the next breakpoint of the list, or its own old slot at the end of the
list (`slot_moved`), and the removal is decided by that one.
-/

namespace Pfp.Db

variable {cv : Conversions} {a : Access} {l front back : List Breakpoint} {b c : Breakpoint}

/-! ## Removals -/

theorem mem_removeFirst {k : Int} (h : c.id ≠ k) :
    c ∈ removeFirst Breakpoint.id k l ↔ c ∈ l :=
  List.mem_eraseP_of_neg (by simpa using h)

theorem removeFirst_append_right {k : Int} (h : ∀ x ∈ front, x.id ≠ k) :
    removeFirst Breakpoint.id k (front ++ l) = front ++ removeFirst Breakpoint.id k l :=
  List.eraseP_append_right _ fun x hx => by simpa using h x hx

theorem removeFirst_append_left {k : Int} (h : ∃ x ∈ front, x.id = k) :
    removeFirst Breakpoint.id k (front ++ l) = removeFirst Breakpoint.id k front ++ l := by
  obtain ⟨x, hx, hk⟩ := h
  exact List.eraseP_append_left (a := x) (by simpa using hk) _ hx

/-- The element `b` of a list without repetitions is the only one that goes. -/
theorem removeFirst_hit (h : ∀ x ∈ front, x.id ≠ b.id) :
    removeFirst Breakpoint.id b.id (front ++ b :: back) = front ++ back := by
  rw [removeFirst_append_right h, removeFirst, List.eraseP_cons_of_pos (by simp)]

/-- In a valid list the identifier of a user's breakpoint is its own. -/
theorem Table.Valid.id_ne {n : Int} (h : Table.Valid ⟨front ++ b :: back, n⟩)
    (hb : ¬ b.stealth) : ∀ x ∈ front, x.id ≠ b.id := by
  intro x hx heq
  have hlt := (List.pairwise_append.mp h.ordered).2.2 x hx b List.mem_cons_self
  have hxs : ¬ x.stealth := by
    intro hs
    exact hb (heq.symm.trans hs)
  exact absurd heq (Int.ne_of_lt (hlt hxs hb))

theorem Table.Valid.not_mem {n : Int} (h : Table.Valid ⟨front ++ b :: back, n⟩) :
    b ∉ front ++ back := by
  have hnodup := h.nodup
  simp only [List.nodup_append, List.nodup_cons] at hnodup
  obtain ⟨-, ⟨hback, -⟩, hdisj⟩ := hnodup
  intro hmem
  rcases List.mem_append.mp hmem with hfront | hb
  · exact hdisj b hfront b List.mem_cons_self rfl
  · exact hback hb

/-! ## The slot of the hit breakpoint -/

/-- The list that `hit_bkpt` points into after the message of a stop at `b`. -/
def listAtHit (b : Breakpoint) (l : List Breakpoint) : List Breakpoint :=
  if b.id ≠ -1 then removeFirst Breakpoint.id (-1) l else l

theorem listAtHit_user (hb : ¬ b.stealth) :
    listAtHit b l = removeFirst Breakpoint.id (-1) l := if_pos hb

theorem listAtHit_stealth (hb : b.stealth) : listAtHit b l = l := if_neg fun h => h hb

theorem replyHit_list (a : Access) (b : Breakpoint) (s : Shared) :
    (replyHit a b s).data_manager.breakpoint_list =
      listAtHit b s.data_manager.breakpoint_list := by
  unfold replyHit listAtHit
  split <;> rfl

/-- The list after a stop at `b` whose pointer sees `hit`. -/
def listAfter (b hit : Breakpoint) (l : List Breakpoint) : List Breakpoint :=
  if hit.temp then removeFirst Breakpoint.id hit.id (listAtHit b l) else listAtHit b l

theorem breakpointStop_list (a : Access) (i : Nat) (b : Breakpoint) (s : Shared) :
    (breakpointStop a i b s).data_manager.breakpoint_list =
      listAfter b (slot (listAtHit b s.data_manager.breakpoint_list) i b)
        s.data_manager.breakpoint_list := by
  simp only [breakpointStop, listAfter, ← replyHit_list a]
  split <;> rfl

theorem slot_kept (h : ∀ x ∈ front, ¬ x.stealth) :
    slot (listAtHit b (front ++ b :: back)) front.length b = b := by
  unfold listAtHit slot
  split
  · rename_i hb
    rw [removeFirst_append_right h, removeFirst, List.eraseP_cons_of_neg (by simpa using hb)]
    simp
  · simp

/-- With an internal breakpoint in front, the next one has moved into the slot. -/
theorem slot_moved (h : ∃ x ∈ front, x.stealth) (hb : ¬ b.stealth) :
    slot (listAtHit b (front ++ b :: back)) front.length b = back.head?.getD b := by
  obtain ⟨x, hx, hs⟩ := h
  have hlen : (removeFirst Breakpoint.id (-1) front).length = front.length - 1 :=
    List.length_eraseP_of_mem hx (decide_eq_true hs)
  have hpos : 0 < front.length := List.length_pos_of_mem hx
  rw [listAtHit_user hb, removeFirst_append_left ⟨x, hx, hs⟩, slot, List.getD_eq_getElem?_getD,
    List.getElem?_append_right (by omega), hlen,
    show front.length - (front.length - 1) = 1 by omega, List.getElem?_cons_succ,
    List.head?_eq_getElem?]

/-! ## The breakpoints after a stop -/

/-- The stop at `b` has removed `b` if it is temporary, and no other breakpoint of the user. -/
def RemovesHit (b : Breakpoint) (l l' : List Breakpoint) : Prop :=
  (b ∈ l' ↔ b.temp = false) ∧ ∀ c ∈ l, ¬ c.stealth → c ≠ b → c ∈ l'

/-- No internal breakpoint is in front of `b`, or `b` is the user's and the breakpoint that
moves into its slot decides as `b` does. -/
def Undisturbed (front : List Breakpoint) (b : Breakpoint) (back : List Breakpoint) : Prop :=
  (∀ x ∈ front, ¬ x.stealth) ∨
    ¬ b.stealth ∧ ∀ c, back.head? = some c → (c.temp = false ∨ c.stealth) ∧ b.temp = false

/-- A user's breakpoint outlives the removal of an internal one. -/
theorem mem_listAtHit (hc : ¬ c.stealth) : c ∈ listAtHit b l ↔ c ∈ l := by
  unfold listAtHit
  split
  · exact mem_removeFirst hc
  · exact Iff.rfl

/-- The pointer sees the hit breakpoint of the user. -/
theorem removesHit_user {n : Int} (hv : Table.Valid ⟨front ++ b :: back, n⟩)
    (hb : ¬ b.stealth) :
    RemovesHit b (front ++ b :: back) (listAfter b b (front ++ b :: back)) := by
  have hmem : b ∈ front ++ b :: back := List.mem_append_right _ List.mem_cons_self
  unfold listAfter
  split
  · rename_i htemp
    have hv' : Table.Valid ⟨listAtHit b (front ++ b :: back), n⟩ := by
      rw [listAtHit_user hb]
      exact hv.sublist removeFirst_sublist
    obtain ⟨f, g, hsplit⟩ := List.append_of_mem ((mem_listAtHit (b := b) hb).mpr hmem)
    rw [hsplit] at hv' ⊢
    rw [removeFirst_hit (hv'.id_ne hb)]
    refine ⟨⟨fun h => absurd h hv'.not_mem, fun h => ?_⟩, fun c hc hcs hne => ?_⟩
    · rw [htemp] at h
      cases h
    · have hc' := (mem_listAtHit (b := b) hcs).mpr hc
      rw [hsplit] at hc'
      rcases List.mem_append.mp hc' with h | h
      · exact List.mem_append_left _ h
      · rcases List.mem_cons.mp h with rfl | h
        · exact absurd rfl hne
        · exact List.mem_append_right _ h
  · rename_i htemp
    refine ⟨⟨fun _ => by simpa using htemp, fun _ => (mem_listAtHit hb).mpr hmem⟩, ?_⟩
    exact fun c hc hcs _ => (mem_listAtHit hcs).mpr hc

/-- The first internal breakpoint is the hit one. -/
theorem removesHit_stealth {n : Int} (hv : Table.Valid ⟨front ++ b :: back, n⟩)
    (hb : b.stealth) (hfront : ∀ x ∈ front, ¬ x.stealth) :
    RemovesHit b (front ++ b :: back) (listAfter b b (front ++ b :: back)) := by
  have htemp : b.temp = true :=
    hv.temp b (List.mem_append_right _ List.mem_cons_self) hb
  have hne : ∀ x ∈ front, x.id ≠ b.id := fun x hx heq => hfront x hx (heq.trans hb)
  rw [listAfter, if_pos htemp, listAtHit_stealth hb, removeFirst_hit hne]
  refine ⟨⟨fun h => absurd h hv.not_mem, fun h => ?_⟩, fun c hc hcs _ => ?_⟩
  · rw [htemp] at h
    cases h
  · rcases List.mem_append.mp hc with h | h
    · exact List.mem_append_left _ h
    · rcases List.mem_cons.mp h with rfl | h
      · exact absurd hb hcs
      · exact List.mem_append_right _ h

/-- With an internal breakpoint in front of it, an internal breakpoint stays. -/
theorem not_removesHit_stealth {n : Int} (hv : Table.Valid ⟨front ++ b :: back, n⟩)
    (hb : b.stealth) (hfront : ∃ x ∈ front, x.stealth) :
    ¬ RemovesHit b (front ++ b :: back) (listAfter b b (front ++ b :: back)) := by
  have htemp : b.temp = true :=
    hv.temp b (List.mem_append_right _ List.mem_cons_self) hb
  have hid : b.id = -1 := hb
  rw [listAfter, if_pos htemp, listAtHit_stealth hb, hid, removeFirst_append_left hfront]
  rintro ⟨hiff, -⟩
  have hfalse := hiff.mp (List.mem_append_right _ List.mem_cons_self)
  rw [htemp] at hfalse
  cases hfalse

/-- The pointer sees another breakpoint `c`. -/
theorem removesHit_moved {n : Int} (hv : Table.Valid ⟨front ++ b :: c :: back, n⟩)
    (hb : ¬ b.stealth) :
    RemovesHit b (front ++ b :: c :: back) (listAfter b c (front ++ b :: c :: back)) ↔
      (c.temp = false ∨ c.stealth) ∧ b.temp = false := by
  have hmem : b ∈ front ++ b :: c :: back := List.mem_append_right _ List.mem_cons_self
  have hcmem : c ∈ front ++ b :: c :: back :=
    List.mem_append_right _ (List.mem_cons_of_mem _ List.mem_cons_self)
  by_cases htemp : c.temp = true
  · rw [listAfter, if_pos htemp]
    by_cases hc : c.stealth
    · -- an internal breakpoint goes
      have hid : c.id = -1 := hc
      have hiff {x : Breakpoint} (hx : ¬ x.stealth) :
          x ∈ removeFirst Breakpoint.id c.id (listAtHit b (front ++ b :: c :: back)) ↔
            x ∈ front ++ b :: c :: back := by
        rw [hid, mem_removeFirst hx, mem_listAtHit hx]
      refine ⟨fun h => ⟨.inr hc, h.1.mp ((hiff hb).mpr hmem)⟩, fun h => ⟨?_, ?_⟩⟩
      · exact ⟨fun _ => h.2, fun _ => (hiff hb).mpr hmem⟩
      · exact fun x hx hxs _ => (hiff hxs).mpr hx
    · -- the user's breakpoint `c` goes
      have hv' : Table.Valid ⟨listAtHit b (front ++ b :: c :: back), n⟩ := by
        rw [listAtHit_user hb]
        exact hv.sublist removeFirst_sublist
      obtain ⟨f, g, hsplit⟩ := List.append_of_mem ((mem_listAtHit (b := b) hc).mpr hcmem)
      rw [hsplit] at hv' ⊢
      rw [removeFirst_hit (hv'.id_ne hc)]
      have hne : c ≠ b := by
        rintro rfl
        exact hv.not_mem (List.mem_append_right _ List.mem_cons_self)
      refine ⟨fun h => absurd (h.2 c hcmem hc hne) hv'.not_mem, ?_⟩
      intro h
      rcases h.1 with h | h
      · rw [htemp] at h
        cases h
      · exact absurd h hc
  · rw [listAfter, if_neg htemp]
    refine ⟨fun h => ⟨.inl (by simpa using htemp), ?_⟩, fun h => ⟨?_, ?_⟩⟩
    · exact h.1.mp ((mem_listAtHit hb).mpr hmem)
    · exact ⟨fun _ => h.2, fun _ => (mem_listAtHit hb).mpr hmem⟩
    · exact fun x hx hxs _ => (mem_listAtHit hxs).mpr hx

theorem removesHit_iff {n : Int} (hv : Table.Valid ⟨front ++ b :: back, n⟩) :
    RemovesHit b (front ++ b :: back)
        (listAfter b (slot (listAtHit b (front ++ b :: back)) front.length b)
          (front ++ b :: back)) ↔
      Undisturbed front b back := by
  by_cases hfront : ∀ x ∈ front, ¬ x.stealth
  · rw [slot_kept hfront]
    by_cases hb : b.stealth
    · exact ⟨fun _ => .inl hfront, fun _ => removesHit_stealth hv hb hfront⟩
    · exact ⟨fun _ => .inl hfront, fun _ => removesHit_user hv hb⟩
  · have hex : ∃ x ∈ front, x.stealth := by
      push Not at hfront
      exact hfront
    by_cases hb : b.stealth
    · have hslot : slot (listAtHit b (front ++ b :: back)) front.length b = b := by
        rw [listAtHit_stealth hb]
        simp [slot]
      rw [hslot]
      refine ⟨fun h => absurd h (not_removesHit_stealth hv hb hex), ?_⟩
      rintro (h | ⟨h, -⟩)
      · exact absurd h hfront
      · exact absurd hb h
    · rw [slot_moved hex hb]
      cases back with
      | nil =>
        refine ⟨fun _ => .inr ⟨hb, ?_⟩, fun _ => removesHit_user hv hb⟩
        intro c hc
        cases hc
      | cons c back =>
        rw [List.head?_cons, Option.getD_some, removesHit_moved hv hb]
        refine ⟨fun h => .inr ⟨hb, ?_⟩, ?_⟩
        · intro c' hc'
          cases hc'
          exact h
        · rintro (h | ⟨-, h⟩)
          · exact absurd h hfront
          · exact h c rfl

/-- **Exactly the hit temporary breakpoint goes**, in a reachable state, if and only if the
hit breakpoint is undisturbed by internal breakpoints in front of it. -/
theorem stop_removesHit_iff {cp : Option CPDebuggerInterface} {s : Session} {s' : Shared}
    (hs : (session cv cp).Reachable s)
    (hit : HitAt cv a s.data_manager.breakpoint_list front b back)
    (hstop : checkBreakpointHit cv a s.shared = .ok s') :
    RemovesHit b s.data_manager.breakpoint_list s'.data_manager.breakpoint_list ↔
      Undisturbed front b back := by
  rw [checkBreakpointHit_hit hit] at hstop
  cases hstop
  have hv : Table.Valid ⟨s.data_manager.breakpoint_list, _⟩ := reachable_valid hs
  rw [breakpointStop_list]
  rw [hit.split] at hv ⊢
  exact removesHit_iff hv

/-! ## Two runs -/

/-- What a client sees of a breakpoint. -/
def Breakpoint.values (b : Breakpoint) : BreakpointValues :=
  ⟨b.id, flag b.temp, flag b.disabled, b.conditions.entries⟩

theorem flag_inj {x y : Bool} (h : flag x = flag y) : x = y := by
  cases x <;> cases y <;> first | rfl | simp [flag] at h

theorem satisfied_of_test (h : testConditions cv a true b.conditions.entries = .ok true) :
    Satisfied cv a b := by
  rcases testConditions_cases cv a b with ⟨hs, -⟩ | ⟨-, ht⟩ | ⟨-, ht⟩
  · exact hs
  · rw [h] at ht
    cases ht
  · rw [h] at ht
    cases ht

theorem passed_of_test (h : testConditions cv a true b.conditions.entries = .ok false) :
    Passed cv a b := by
  rcases testConditions_cases cv a b with ⟨-, ht⟩ | ⟨-, ht⟩ | ⟨hp, -⟩
  · rw [h] at ht
    cases ht
  · rw [h] at ht
    cases ht
  · exact hp

/-- A temporary breakpoint on reads of a module. -/
def setTemporary (mod : String) : Step :=
  .request (.SetBreakpoint
    { condition_list := [.BREAK_ON_MODULE_READ], value_list := [mod], temporary := "1" })

def beginRun (time_ns : Option String) : List Step := [.request (.Run time_ns), .start]

/-- A stop at a watchpoint leaves the internal breakpoint of the run in the list, and the
user sets two breakpoints behind it. -/
def disturbedRun : List Step :=
  .request (.SetWatchpoint "c" "") :: beginRun (some "100") ++
    [.event (.counter_added "c" 0), .event (.counter_updated "c" 1 1), .reply,
      setTemporary "m", setTemporary "n", .request (.Continue none), .resume]

/-- The stop at the breakpoint on `m` removes the breakpoint on `n` instead. -/
theorem stop_disturbed : ∃ s front b back s', (session decimal none).Reachable s ∧
    s.shared.simulation = .running ∧
    HitAt decimal ⟨"m", 7, 2, true⟩ s.data_manager.breakpoint_list front b back ∧
    checkBreakpointHit decimal ⟨"m", 7, 2, true⟩ s.shared = .ok s' ∧
    ¬ RemovesHit b s.data_manager.breakpoint_list s'.data_manager.breakpoint_list := by
  have hrun : ((session decimal none).replay (session decimal none).init disturbedRun).map
      (fun s => (s.shared.simulation, s.data_manager.breakpoint_list.map Breakpoint.values)) =
      some (.running, [⟨-1, "1", "0", [(.BREAK_AT_TIME, "100.000000")]⟩,
        ⟨0, "1", "0", [(.BREAK_ON_MODULE_READ, "m")]⟩,
        ⟨1, "1", "0", [(.BREAK_ON_MODULE_READ, "n")]⟩]) := by
    decide +kernel
  obtain ⟨s, hreplay, hs⟩ := Option.map_eq_some_iff.mp hrun
  obtain ⟨hsim, hlist⟩ := Prod.mk.inj hs
  obtain ⟨x, l, hl, hx, htail⟩ := List.map_eq_cons_iff.mp hlist
  obtain ⟨b, l, rfl, hb, htail⟩ := List.map_eq_cons_iff.mp htail
  obtain ⟨c, l, rfl, hc, htail⟩ := List.map_eq_cons_iff.mp htail
  rw [List.map_eq_nil_iff] at htail
  subst htail
  obtain ⟨hxid, -, -, hxc⟩ := BreakpointValues.mk.inj hx
  obtain ⟨hbid, hbtemp, hben, hbc⟩ := BreakpointValues.mk.inj hb
  have hreach := Runs.System.reachable_of_replay hreplay
  have hit : HitAt decimal ⟨"m", 7, 2, true⟩ s.data_manager.breakpoint_list [x] b [c] := by
    refine ⟨hl, ?_, satisfied_of_test (by rw [hbc]; decide +kernel), flag_inj hben⟩
    intro y hy
    rw [List.mem_singleton.mp hy]
    exact passed_of_test (by rw [hxc]; decide +kernel)
  have hbs : ¬ b.stealth := by
    rw [Breakpoint.stealth, hbid]
    decide
  have hv : Table.Valid ⟨s.data_manager.breakpoint_list, _⟩ := reachable_valid hreach
  rw [hl] at hv
  refine ⟨s, [x], b, [c], _, hreach, hsim, hit, checkBreakpointHit_hit hit, ?_⟩
  rw [breakpointStop_list, hl]
  intro hremoves
  have hundisturbed : Undisturbed [x] b [c] := (removesHit_iff hv).mp hremoves
  rcases hundisturbed with h | ⟨-, h⟩
  · exact h x List.mem_cons_self hxid
  · obtain ⟨-, hfalse⟩ := h c rfl
    have htemp := flag_inj (y := true) hbtemp
    rw [htemp] at hfalse
    cases hfalse

/-- The breakpoint on `m` goes, and the internal one of the run; those in front of it and
behind it stay. -/
theorem stop_removesHit_temporary : ∃ s front b back s', (session decimal none).Reachable s ∧
    HitAt decimal ⟨"m", 7, 2, true⟩ s.data_manager.breakpoint_list front b back ∧
    (front.length, b.temp, back.length) = (1, true, 2) ∧
    checkBreakpointHit decimal ⟨"m", 7, 2, true⟩ s.shared = .ok s' ∧
    RemovesHit b s.data_manager.breakpoint_list s'.data_manager.breakpoint_list := by
  have hrun : ((session decimal none).replay (session decimal none).init
      ([setTemporary "k", setTemporary "m", setTemporary "n"] ++ beginRun (some "100"))).map
      (fun s => s.data_manager.breakpoint_list.map Breakpoint.values) =
      some [⟨0, "1", "0", [(.BREAK_ON_MODULE_READ, "k")]⟩,
        ⟨1, "1", "0", [(.BREAK_ON_MODULE_READ, "m")]⟩,
        ⟨2, "1", "0", [(.BREAK_ON_MODULE_READ, "n")]⟩,
        ⟨-1, "1", "0", [(.BREAK_AT_TIME, "100.000000")]⟩] := by
    decide +kernel
  obtain ⟨s, hreplay, hlist⟩ := Option.map_eq_some_iff.mp hrun
  obtain ⟨x, l, hl, hx, htail⟩ := List.map_eq_cons_iff.mp hlist
  obtain ⟨b, back, rfl, hb, htail⟩ := List.map_eq_cons_iff.mp htail
  have hlength := congrArg List.length htail
  rw [List.length_map] at hlength
  obtain ⟨hxid, -, -, hxc⟩ := BreakpointValues.mk.inj hx
  obtain ⟨-, hbtemp, hben, hbc⟩ := BreakpointValues.mk.inj hb
  have hit : HitAt decimal ⟨"m", 7, 2, true⟩ s.data_manager.breakpoint_list [x] b back := by
    refine ⟨hl, ?_, satisfied_of_test (by rw [hbc]; decide +kernel), flag_inj hben⟩
    intro y hy
    rw [List.mem_singleton.mp hy]
    exact passed_of_test (by rw [hxc]; decide +kernel)
  have hundisturbed : Undisturbed [x] b back := by
    refine .inl fun y hy => ?_
    rw [List.mem_singleton.mp hy, Breakpoint.stealth, hxid]
    decide
  have hreach := Runs.System.reachable_of_replay hreplay
  have hstop := checkBreakpointHit_hit hit
  refine ⟨s, [x], b, back, _, hreach, hit, ?_, hstop,
    (stop_removesHit_iff hreach hit hstop).mpr hundisturbed⟩
  rw [flag_inj (y := true) hbtemp, hlength]
  rfl

end Pfp.Db
