import PFPSim.Debugger.BreakpointList
import PFPSim.Debugger.Replies

/-!
# Requested breakpoints

Which breakpoints are in the list behind an acknowledged `SetBreakpoint`. The test of
`addBreakpoint` is not whether a listed breakpoint has the requested conditions, but whether
it has some of them and no others (`Conditions.Within`), so a request is dropped if a
listed breakpoint asks for less (`setBreakpoint_listed_iff`).
-/

namespace Pfp.Db

namespace Conditions

/-- Every condition of `m` is one of `m'`. -/
def Within (m m' : Conditions) : Prop := ∀ c v, m c = some v → m' c = some v

theorem Within.refl (m : Conditions) : m.Within m := fun _ _ h => h

theorem Within.antisymm {m m' : Conditions} (h : m.Within m') (h' : m'.Within m) : m = m' := by
  funext c
  apply Option.ext
  intro v
  exact ⟨h c v, h' c v⟩

end Conditions

open Conditions

theorem Breakpoint.isEqual_iff_within {b br : Breakpoint} :
    b.isEqual br = true ↔ b.conditions.Within br.conditions := isEqual_iff

/-- The test is symmetric for breakpoints with the same conditions, and for those of which
neither has only conditions of the other. -/
theorem Breakpoint.isEqual_comm_iff {b br : Breakpoint} :
    b.isEqual br = br.isEqual b ↔ b.conditions = br.conditions ∨
      ¬ b.conditions.Within br.conditions ∧ ¬ br.conditions.Within b.conditions := by
  rw [Bool.eq_iff_iff, isEqual_iff_within, isEqual_iff_within]
  constructor
  · intro hiff
    by_cases h : b.conditions.Within br.conditions
    · exact .inl (h.antisymm (hiff.mp h))
    · exact .inr ⟨h, fun h' => h (hiff.mpr h')⟩
  · rintro (heq | ⟨h, h'⟩)
    · rw [heq]
    · exact ⟨fun hb => absurd hb h, fun hbr => absurd hbr h'⟩

/-! ## Requests -/

/-- The conditions that a request asks for. -/
def SetBreakpointMsg.requested (msg : SetBreakpointMsg) : Conditions :=
  fun c => (msg.condition_list.zip msg.value_list).lookup c

theorem handleSetBreakpoint_ok {msg : SetBreakpointMsg}
    (h : msg.condition_list.length = msg.value_list.length) (s : Session) :
    ∃ s' br, handleSetBreakpoint msg s = .ok s' ∧ br.conditions = msg.requested ∧
      s'.data_manager.breakpoint_list = insertNew s.data_manager.breakpoint_list br ∧
      s'.sent = s.sent ++ [.GenericAcknowledge .SUCCESS] := by
  obtain ⟨br, hbr, hconds⟩ := setConditions_ok (Nat.le_of_eq h)
    { id := s.data_manager.breakpoint_next_id, temp := msg.temporary = "1",
      disabled := msg.disabled = "1" }
  refine ⟨(s.manage (s.data_manager.newBreakpoint.2.addBreakpoint br)).sendGenericReply, br, ?_,
    funext hconds, ?_, rfl⟩
  · exact bind_eq_ok.mpr ⟨br, hbr, rfl⟩
  · exact congrArg Table.list (addBreakpoint_table s.data_manager.newBreakpoint.2 br)

/-! ## The list behind a request -/

/-- A breakpoint of the list has these conditions. -/
def Lists (l : List Breakpoint) (m : Conditions) : Prop := ∃ b ∈ l, b.conditions = m

theorem insertNew_eq_iff {l : List Breakpoint} {br : Breakpoint} :
    insertNew l br = l ↔ ∃ b ∈ l, b.conditions.Within br.conditions := by
  simp only [← Breakpoint.isEqual_iff_within, ← List.any_eq_true]
  unfold insertNew
  split
  · rename_i hany
    exact ⟨fun _ => hany, fun _ => rfl⟩
  · rename_i hany
    exact ⟨fun h => absurd h (by simp), fun h => absurd h hany⟩

/-- The request is in the list if and only if it was, or no breakpoint of the list hides it. -/
theorem lists_insertNew_iff {l : List Breakpoint} {br : Breakpoint} :
    Lists (insertNew l br) br.conditions ↔
      Lists l br.conditions ∨ ∀ b ∈ l, ¬ b.conditions.Within br.conditions := by
  by_cases hany : ∃ b ∈ l, b.conditions.Within br.conditions
  · rw [insertNew_eq_iff.mpr hany]
    refine ⟨.inl, fun h => h.resolve_right fun hnone => ?_⟩
    obtain ⟨b, hb, hwithin⟩ := hany
    exact hnone b hb hwithin
  · have hnew : insertNew l br = l ++ [br] := by
      unfold insertNew
      rw [if_neg]
      intro h
      obtain ⟨b, hb, heq⟩ := List.any_eq_true.mp h
      exact hany ⟨b, hb, Breakpoint.isEqual_iff_within.mp heq⟩
    rw [hnew]
    refine ⟨fun _ => .inr fun b hb hwithin => hany ⟨b, hb, hwithin⟩, ?_⟩
    intro _
    exact ⟨br, List.mem_append_right _ List.mem_cons_self, rfl⟩

/-- **Acknowledged breakpoints.** Every request is acknowledged, and no two breakpoints of
the list have the same conditions. The list has the requested breakpoint afterwards, and had
it if the request was dropped, if and only if it had it or no listed breakpoint asks for some
of the requested conditions and no others. -/
theorem setBreakpoint_listed_iff {cv : Conversions} {cp : Option CPDebuggerInterface}
    {s : Session} (hs : (session cv cp).Reachable s) {msg : SetBreakpointMsg}
    (hlen : msg.condition_list.length = msg.value_list.length) :
    ∃ s', parseRequest cv (.SetBreakpoint msg) s = .ok s' ∧
      s'.sent = s.sent ++ [.GenericAcknowledge .SUCCESS] ∧
      (s.data_manager.breakpoint_list.Pairwise fun x y => x.conditions ≠ y.conditions) ∧
      (∀ b ∈ s.data_manager.breakpoint_list, ∀ br : Breakpoint, br.conditions = msg.requested →
        (b.isEqual br = br.isEqual b ↔ b.conditions = msg.requested ∨
          ¬ b.conditions.Within msg.requested ∧ ¬ msg.requested.Within b.conditions)) ∧
      ((Lists s'.data_manager.breakpoint_list msg.requested ∧
          (s'.data_manager.breakpoint_list = s.data_manager.breakpoint_list →
            Lists s.data_manager.breakpoint_list msg.requested)) ↔
        Lists s.data_manager.breakpoint_list msg.requested ∨
          ∀ b ∈ s.data_manager.breakpoint_list, ¬ b.conditions.Within msg.requested) := by
  obtain ⟨s', br, hok, hconds, hlist, hsent⟩ := handleSetBreakpoint_ok hlen s
  refine ⟨s', hok, hsent, ?_, ?_, ?_⟩
  · apply (reachable_valid hs).distinct.imp
    intro x y hxy heq
    rw [← Bool.not_eq_true, Breakpoint.isEqual_iff_within, heq] at hxy
    exact hxy (.refl _)
  · intro b _ br' hbr'
    rw [← hbr']
    exact Breakpoint.isEqual_comm_iff
  · rw [hlist, ← hconds, lists_insertNew_iff]
    refine ⟨fun h => h.1, fun h => ⟨h, fun heq => h.resolve_right fun hnone => ?_⟩⟩
    obtain ⟨b, hb, hwithin⟩ := insertNew_eq_iff.mp heq
    exact hnone b hb hwithin

/-- Reads of packet `7` in the module. -/
def onPacketRead (mod : String) : SetBreakpointMsg :=
  { condition_list := [.BREAK_ON_MODULE_READ, .BREAK_ON_PACKET_ID], value_list := [mod, "7"] }

/-- A breakpoint on all reads of `m` is in the list. -/
def setAllReads : List Step :=
  [.request (.SetBreakpoint { condition_list := [.BREAK_ON_MODULE_READ], value_list := ["m"] })]

/-- The breakpoint on packet `7` is dropped, and acknowledged. The test in the other direction
would not have dropped it. -/
theorem dropped_acknowledged : (onPacketRead "m").condition_list.Nodup ∧
    ∃ s s', (session decimal none).Reachable s ∧
      parseRequest decimal (.SetBreakpoint (onPacketRead "m")) s = .ok s' ∧
      s'.sent = s.sent ++ [.GenericAcknowledge .SUCCESS] ∧
      ¬ Lists s'.data_manager.breakpoint_list (onPacketRead "m").requested ∧
      ∃ b ∈ s.data_manager.breakpoint_list, ∃ br : Breakpoint,
        br.conditions = (onPacketRead "m").requested ∧ b.isEqual br ≠ br.isEqual b := by
  have hrun : ((session decimal none).replay (session decimal none).init setAllReads).map
      (fun s => s.data_manager.breakpoint_list.map fun b => b.conditions.entries) =
      some [[(.BREAK_ON_MODULE_READ, "m")]] := by
    decide +kernel
  obtain ⟨s, hreplay, hlist⟩ := Option.map_eq_some_iff.mp hrun
  obtain ⟨b, l, hl, hb, htail⟩ := List.map_eq_cons_iff.mp hlist
  rw [List.map_eq_nil_iff] at htail
  subst htail
  have hentries : (onPacketRead "m").requested.entries =
      [(.BREAK_ON_MODULE_READ, "m"), (.BREAK_ON_PACKET_ID, "7")] := by
    decide +kernel
  have hne : b.conditions ≠ (onPacketRead "m").requested := by
    intro heq
    rw [heq, hentries] at hb
    cases hb
  have hwithin : b.conditions.Within (onPacketRead "m").requested := by
    intro c v hv
    rw [← Conditions.mem_entries (p := (c, v)), hentries]
    rw [← Conditions.mem_entries (p := (c, v)), hb] at hv
    exact List.mem_cons.mpr (.inl (List.mem_singleton.mp hv))
  have hlen : (onPacketRead "m").condition_list.length = (onPacketRead "m").value_list.length := rfl
  obtain ⟨s', br, hok, hconds, hlist', hsent⟩ := handleSetBreakpoint_ok hlen s
  refine ⟨by decide, s, s', Runs.System.reachable_of_replay hreplay, hok, hsent, ?_, b, ?_, br,
    hconds, ?_⟩
  · rw [hlist', hl, ← hconds, lists_insertNew_iff, hconds]
    rintro (⟨c, hc, heq⟩ | hnone)
    · rw [List.mem_singleton.mp hc] at heq
      exact hne heq
    · exact hnone b List.mem_cons_self hwithin
  · rw [hl]
    exact List.mem_cons_self
  · rw [Ne, Breakpoint.isEqual_comm_iff, hconds]
    rintro (heq | ⟨hnot, -⟩)
    · exact hne heq
    · exact hnot hwithin

/-- Behind the breakpoint on `m`, one on packet `7` in `n` is in the list. -/
theorem second_listed : ∃ s s', (session decimal none).Reachable s ∧
    s.data_manager.breakpoint_list.length = 1 ∧
    parseRequest decimal (.SetBreakpoint (onPacketRead "n")) s = .ok s' ∧
      Lists s'.data_manager.breakpoint_list (onPacketRead "n").requested := by
  have hrun : ((session decimal none).replay (session decimal none).init setAllReads).map
      (fun s => s.data_manager.breakpoint_list.map fun b => b.conditions.entries) =
      some [[(.BREAK_ON_MODULE_READ, "m")]] := by
    decide +kernel
  obtain ⟨s, hreplay, hlist⟩ := Option.map_eq_some_iff.mp hrun
  obtain ⟨b, l, hl, hb, htail⟩ := List.map_eq_cons_iff.mp hlist
  rw [List.map_eq_nil_iff] at htail
  subst htail
  have hnone : ∀ c ∈ s.data_manager.breakpoint_list,
      ¬ c.conditions.Within (onPacketRead "n").requested := by
    intro c hc hwithin
    rw [hl] at hc
    rw [List.mem_singleton.mp hc] at hwithin
    have hmem : (.BREAK_ON_MODULE_READ, "m") ∈ b.conditions.entries := by
      rw [hb]
      exact List.mem_cons_self
    have hread := hwithin _ _ (Conditions.mem_entries.mp hmem)
    exact absurd hread (by decide +kernel)
  have hreach := Runs.System.reachable_of_replay hreplay
  have hlen : (onPacketRead "n").condition_list.length = (onPacketRead "n").value_list.length := rfl
  obtain ⟨s', hok, -, -, -, hiff⟩ := setBreakpoint_listed_iff hreach hlen
  exact ⟨s, s', hreach, congrArg List.length hl, hok, (hiff.mpr (.inr hnone)).1⟩

end Pfp.Db
