import PFPSim.Debugger.Stops

/-!
# Next

`Next` adds an internal breakpoint on the packet that is followed, and continues. The
breakpoint may be dropped as a duplicate, and the first breakpoint that an event satisfies
decides, whether it is enabled or not. What happens at an event of the packet is thus
decided by the breakpoints that were listed before (`next_stops_iff`).
-/

namespace Pfp.Db

open Runs Lists

variable {cv : Conversions} {cp : Option CPDebuggerInterface} {a : Access} {l : List Breakpoint}
  {s s' : Session}

/-! ## The breakpoint of the request -/

/-- With a breakpoint at the end that the event satisfies, the search ends at a breakpoint
that was there before, or all of them are passed. -/
theorem hitAt_insertNew_iff {br : Breakpoint} (hbr : Satisfied cv a br)
    (hen : br.disabled = false) :
    (∃ front b back, HitAt cv a (insertNew l br) front b back) ↔
      (∃ front b back, HitAt cv a l front b back) ∨ ∀ b ∈ l, Passed cv a b := by
  by_cases hall : ∀ b ∈ l, Passed cv a b
  · refine ⟨fun _ => .inr hall, fun _ => ⟨l, br, [], ?_, hall, hbr, hen⟩⟩
    -- a breakpoint that drops `br` is satisfied as `br` is
    unfold insertNew
    rw [if_neg]
    intro hany
    obtain ⟨b, hb, heq⟩ := List.any_eq_true.mp hany
    exact (hall b hb).1 fun c v hv => hbr c v (Breakpoint.isEqual_iff.mp heq c v hv)
  · obtain ⟨front, x, back, hsplit, hfront, hx⟩ := exists_first hall
    obtain ⟨back', hsplit'⟩ : ∃ back', insertNew l br = front ++ x :: back' := by
      unfold insertNew
      split
      · exact ⟨back, hsplit⟩
      · exact ⟨back ++ [br], by rw [hsplit, List.append_assoc, List.cons_append]⟩
    rw [hitAt_iff_of_first hsplit hfront hx, hitAt_iff_of_first hsplit' hfront hx]
    exact (or_iff_left hall).symm

/-- The breakpoint of `Next` is satisfied by the events of the packet. -/
theorem satisfied_followed (a : Access) :
    Satisfied cv a (stealthBreakpoint .BREAK_ON_PACKET_ID (toString a.packet_id)) := by
  intro c v hv
  cases c with
  | BREAK_ON_PACKET_ID => exact (Option.some.inj hv).symm
  | _ => cases hv

/-! ## The way to the event -/

/-- The steps that are none of the client's. -/
def Step.Own : Step → Prop
  | .request _ => False
  | _ => True

/-- Since the simulation was permitted to go on with the breakpoints `l`, it has not stopped
and has them still, or it has stopped and stands. -/
def Underway (l : List Breakpoint) (s : Session) : Prop :=
  (∃ loop, s.shared.simulation = .paused loop) ∧
      (s.shared.continue_command = true → s.shared.breakpoints = l) ∨
    s.shared.simulation = .running ∧ s.shared.continue_command = false ∧
      s.shared.breakpoints = l

theorem Underway.running (h : Underway l s) (hs : s.shared.simulation = .running) :
    s.shared.breakpoints = l := by
  rcases h with ⟨⟨loop, hpaused⟩, -⟩ | ⟨-, -, hlist⟩
  · rw [hs] at hpaused
    cases hpaused
  · exact hlist

/-- A stop, wherever it was. -/
theorem underway_of_halt {t : Threads} {m : DebuggerMessage} {loop : Option WatchLoop}
    (h : s.shared.threads = t.halt m loop) (ht : t.continue_command = false) : Underway l s := by
  refine .inl ⟨⟨loop, congrArg Threads.simulation h⟩, fun hgo => ?_⟩
  rw [show s.shared.continue_command = false from
    (congrArg Threads.continue_command h).trans ht] at hgo
  cases hgo

theorem Underway.event {e : Event} {sh : Shared} (h : Underway l s)
    (hs : s.shared.simulation = .running) (hsh : observe cv e s.shared = .ok sh) :
    Underway l { s with shared := sh } := by
  rcases h with ⟨⟨loop, hpaused⟩, -⟩ | ⟨-, hgo, hlist⟩
  · rw [hs] at hpaused
    cases hpaused
  · cases observe_outcome hsh with
    | runs quiet threads list =>
      refine .inr ⟨?_, ?_, list.trans hlist⟩
      · exact (congrArg Threads.simulation threads).trans hs
      · exact (congrArg Threads.continue_command threads).trans hgo
    | breakpoint a front b back m quiet hit threads list => exact underway_of_halt threads hgo
    | interrupt m loop why threads list ends message => exact underway_of_halt threads hgo

theorem Underway.step {x : Step} (h : Underway l s) (hx : x.Own)
    (hstep : (session cv cp).step s x = some s') : Underway l s' := by
  obtain ⟨hen, hexec⟩ := step_eq_some.mp hstep
  cases x with
  | request r => cases hx
  | start =>
    simp only [enabled, decide_eq_true_eq] at hen
    rcases h with ⟨⟨loop, hpaused⟩, -⟩ | ⟨hrunning, -, -⟩
    · rw [hen.1] at hpaused
      cases hpaused
    · rw [hen.1] at hrunning
      cases hrunning
  | event e =>
    obtain ⟨sh, hsh, hexec⟩ := bind_eq_ok.mp hexec
    cases hexec
    exact h.event (by simpa [enabled] using hen) hsh
  | resume =>
    simp only [enabled, decide_eq_true_eq] at hen
    obtain ⟨-, hrunning, hgo⟩ := hen
    rcases h with ⟨⟨loop, hpaused⟩, hlist⟩ | ⟨hrun, -, -⟩
    · simp only [exec, hpaused] at hexec
      cases hexec
      rcases resume_stopping loop s.shared with hthreads | ⟨m, loop', hthreads⟩
      · refine .inr ⟨congrArg Threads.simulation hthreads,
          congrArg Threads.continue_command hthreads, ?_⟩
        exact (congrArg DebugDataManager.breakpoint_list
          (resume_data_manager loop s.shared)).trans (hlist hgo)
      · exact underway_of_halt hthreads rfl
    · exact absurd hrun hrunning
  | reply =>
    cases hexec
    exact h

theorem Underway.replay {es : List Step} (h : Underway l s) (hes : ∀ x ∈ es, x.Own)
    (hrun : (session cv cp).replay s es = some s') : Underway l s' := by
  induction es generalizing s with
  | nil =>
    cases hrun
    exact h
  | cons x es ih =>
    obtain ⟨t, ht, hrun⟩ := Option.bind_eq_some_iff.mp hrun
    obtain ⟨hx, hes⟩ := List.forall_mem_cons.mp hes
    exact ih (h.step hx ht) hes hrun

theorem underway_next (hstopped : ∃ loop, s.shared.simulation = .paused loop)
    (hnext : (session cv cp).step s (.request .Next) = some s') :
    Underway (insertNew s.shared.breakpoints
      (stealthBreakpoint .BREAK_ON_PACKET_ID (toString s.data_manager.whoami))) s' := by
  obtain ⟨-, hexec⟩ := step_eq_some.mp hnext
  cases hexec
  exact .inl ⟨hstopped, fun _ => addBreakpoint_list ..⟩

/-! ## The event -/

/-- A read or write event. -/
def accessEvent (read : Bool) (mod : String) (data : TrType) (time : ℚ) : Event :=
  if read then .data_read mod data time else .data_written mod data time

theorem observe_access (read : Bool) (mod : String) (data : TrType) (time : ℚ) (sh : Shared) :
    observe cv (accessEvent read mod data time) sh = data_access cv read mod data time sh := by
  cases read <;> rfl

theorem access_checkIgnoreModules (sh : Shared) (read : Bool) (mod : String) (data : TrType)
    (time : ℚ) (m : String) : (sh.access read mod data time).data_manager.checkIgnoreModules m =
      sh.data_manager.checkIgnoreModules m := by
  rw [Shared.access, Shared.updateTrace_foldl_data_manager]
  simp only
  rw [DebugDataManager.updatePacket_eq, Shared.updateSimulationTime_data_manager]
  rfl

theorem event_stops_iff (hs : s.shared.simulation = .running) {read : Bool} {mod : String}
    {data : TrType} {time : ℚ} (hdebug : data.debuggable = true)
    (hmod : s.data_manager.checkIgnoreModules mod = false) :
    (∃ s', (session cv cp).step s (.event (accessEvent read mod data time)) = some s' ∧
        s'.shared.Announced) ↔
      ∃ front b back, HitAt cv ⟨mod, int32 data.id.toNat, time, read⟩ s.shared.breakpoints
        front b back := by
  have hrunning : (s.shared.access read mod data time).simulation = .running :=
    (congrArg Threads.simulation (s.shared.access_threads read mod data time)).trans hs
  rw [← s.shared.access_breakpoints read mod data time]
  refine .trans ?_ (stops_iff_hitAt hrunning)
  have hobserve : observe cv (accessEvent read mod data time) s.shared =
      checkBreakpointHit cv ⟨mod, int32 data.id.toNat, time, read⟩
        (s.shared.access read mod data time) := by
    rw [observe_access, data_access_eq, if_neg (by simp [hdebug]),
      if_pos (by rw [access_checkIgnoreModules, hmod])]
  constructor
  · rintro ⟨s', hstep, hannounced⟩
    obtain ⟨-, hexec⟩ := step_eq_some.mp hstep
    obtain ⟨sh, hsh, hexec⟩ := bind_eq_ok.mp hexec
    cases hexec
    rw [hobserve] at hsh
    exact ⟨sh, hsh, hannounced⟩
  · rintro ⟨sh, hsh, hannounced⟩
    rw [← hobserve] at hsh
    refine ⟨{ s with shared := sh }, step_eq_some.mpr ⟨?_, ?_⟩, hannounced⟩
    · simpa [enabled] using hs
    · exact bind_eq_ok.mpr ⟨sh, hsh, rfl⟩

/-- **Next.** When the simulation has not stopped before, an event of the followed packet in a
module that is not ignored stops it if and only if the first breakpoint of the list that was
not passed by the event is enabled and satisfied, or all breakpoints are passed. -/
theorem next_stops_iff {s₁ s₂ : Session}
    (hstopped : ∃ loop, s.shared.simulation = .paused loop)
    (hnext : (session cv cp).step s (.request .Next) = some s₁) {es : List Step}
    (hes : ∀ x ∈ es, x.Own) (hrun : (session cv cp).replay s₁ es = some s₂)
    (hrunning : s₂.shared.simulation = .running) {read : Bool} {mod : String} {data : TrType}
    {time : ℚ} (hdebug : data.debuggable = true)
    (hid : int32 data.id.toNat = s.data_manager.whoami)
    (hmod : s₂.data_manager.checkIgnoreModules mod = false) :
    (∃ s₃, (session cv cp).step s₂ (.event (accessEvent read mod data time)) = some s₃ ∧
        s₃.shared.Announced) ↔
      (∃ front b back, HitAt cv ⟨mod, s.data_manager.whoami, time, read⟩
        s.data_manager.breakpoint_list front b back) ∨
      ∀ b ∈ s.data_manager.breakpoint_list,
        Passed cv ⟨mod, s.data_manager.whoami, time, read⟩ b := by
  have hlist := ((underway_next hstopped hnext).replay hes hrun).running hrunning
  rw [event_stops_iff hrunning hdebug hmod, hlist, hid]
  exact hitAt_insertNew_iff (satisfied_followed ⟨mod, s.data_manager.whoami, time, read⟩) rfl

def setBreakpoint (c : BreakpointCondition) (value disabled : String) : Step :=
  .request (.SetBreakpoint { condition_list := [c], value_list := [value], disabled })

/-- A stop at packet `7` in `m`. -/
def stopAtPacket : List Step :=
  [.request (.Run none), .start, .event (accessEvent true "m" ⟨7, true, none⟩ 1), .reply]

/-- With a disabled breakpoint on the packet, the simulation runs over the next event of the
packet that `Next` follows. -/
theorem next_not_stopped : ∃ s s', (session decimal none).Reachable s ∧
    s.data_manager.whoami = 7 ∧ s.shared.simulation = .paused none ∧
    (session decimal none).replay s [.request .Next, .resume,
      .event (accessEvent true "n" ⟨7, true, none⟩ 2)] = some s' ∧
      s'.shared.simulation = .running := by
  have hrun : ((session decimal none).replay (session decimal none).init
      (setBreakpoint .BREAK_ON_MODULE_READ "m" "" ::
        setBreakpoint .BREAK_ON_PACKET_ID "7" "1" :: stopAtPacket)).map
      (fun s => (s.data_manager.whoami, s.shared.simulation)) = some (7, .paused none) := by
    decide +kernel
  have hrun' : ((session decimal none).replay (session decimal none).init
      ((setBreakpoint .BREAK_ON_MODULE_READ "m" "" ::
        setBreakpoint .BREAK_ON_PACKET_ID "7" "1" :: stopAtPacket) ++ [.request .Next, .resume,
      .event (accessEvent true "n" ⟨7, true, none⟩ 2)])).map
      (fun s => s.shared.simulation) = some .running := by
    decide +kernel
  obtain ⟨s, hs, hstopped⟩ := Option.map_eq_some_iff.mp hrun
  rw [System.replay_append, hs, Option.bind_some] at hrun'
  obtain ⟨s', hs', hrunning⟩ := Option.map_eq_some_iff.mp hrun'
  obtain ⟨hwhoami, hpaused⟩ := Prod.mk.inj hstopped
  exact ⟨s, s', System.reachable_of_replay hs, hwhoami, hpaused, hs', hrunning⟩

/-- A stop at packet `7` in `m`, with a breakpoint on `n`. -/
def stopBesideOther : List Step :=
  setBreakpoint .BREAK_ON_MODULE_READ "m" "" :: setBreakpoint .BREAK_ON_MODULE_WRITE "n" "" ::
    stopAtPacket

/-- The simulation goes on over an event of another packet, and stops at the next event of the
packet, which passes both breakpoints. -/
theorem next_stopped : ∃ s s₁ s₂ s₃, (session decimal none).Reachable s ∧
    s.data_manager.breakpoint_list.length = 2 ∧
    (session decimal none).step s (.request .Next) = some s₁ ∧
    (session decimal none).replay s₁
      [.resume, .event (accessEvent true "n" ⟨9, true, none⟩ 2)] = some s₂ ∧
    (session decimal none).step s₂ (.event (accessEvent true "n" ⟨7, true, none⟩ 3)) = some s₃ ∧
      s₃.shared.Announced := by
  have hrun : ((session decimal none).replay (session decimal none).init stopBesideOther).map
      (fun s => (s.data_manager.whoami, s.shared.simulation,
        s.data_manager.breakpoint_list.map fun b => b.conditions.entries)) =
      some (7, .paused none,
        [[(.BREAK_ON_MODULE_READ, "m")], [(.BREAK_ON_MODULE_WRITE, "n")]]) := by
    decide +kernel
  have hrun' : ((session decimal none).replay (session decimal none).init
      (stopBesideOther ++
        [.request .Next, .resume, .event (accessEvent true "n" ⟨9, true, none⟩ 2)])).map
      (fun s => (s.shared.simulation, s.data_manager.ignore_module_list)) =
      some (.running, []) := by
    decide +kernel
  obtain ⟨s, hs, hstopped⟩ := Option.map_eq_some_iff.mp hrun
  rw [System.replay_append, hs, Option.bind_some] at hrun'
  obtain ⟨s₂, hs₂, hrunning⟩ := Option.map_eq_some_iff.mp hrun'
  obtain ⟨s₁, hs₁, hs₂⟩ := Option.bind_eq_some_iff.mp hs₂
  obtain ⟨hwhoami, hstopped⟩ := Prod.mk.inj hstopped
  obtain ⟨hpaused, hlist⟩ := Prod.mk.inj hstopped
  obtain ⟨hrunning, hignored⟩ := Prod.mk.inj hrunning
  have hlength := congrArg List.length hlist
  rw [List.length_map] at hlength
  have hown : ∀ x ∈ [Step.resume, .event (accessEvent true "n" ⟨9, true, none⟩ 2)], x.Own :=
    List.forall_mem_cons.mpr ⟨trivial, List.forall_mem_singleton.mpr trivial⟩
  have hpassed : ∀ b ∈ s.data_manager.breakpoint_list, Passed decimal ⟨"n", 7, 3, true⟩ b := by
    intro b hb
    have hmem := List.mem_map_of_mem (f := fun b : Breakpoint => b.conditions.entries) hb
    rw [hlist] at hmem
    apply passed_of_test
    simp only [List.mem_cons, List.not_mem_nil, or_false] at hmem
    rcases hmem with hmem | hmem <;> rw [hmem] <;> decide +kernel
  have hstops : ∃ s₃, (session decimal none).step s₂
      (.event (accessEvent true "n" ⟨7, true, none⟩ 3)) = some s₃ ∧ s₃.shared.Announced := by
    refine (next_stops_iff ⟨none, hpaused⟩ hs₁ hown hs₂ hrunning rfl ?_ ?_).mpr (.inr ?_)
    · rw [hwhoami]
      decide
    · simp [DebugDataManager.checkIgnoreModules, hignored]
    · rw [hwhoami]
      exact hpassed
  obtain ⟨s₃, hs₃, hannounced⟩ := hstops
  exact ⟨s, s₁, s₂, s₃, System.reachable_of_replay hs, hlength, hs₁, hs₂, hs₃, hannounced⟩

end Pfp.Db
