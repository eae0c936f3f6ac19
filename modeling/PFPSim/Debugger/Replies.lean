import PFPSim.Debugger.Server

/-!
# Replies

How often a request is answered. A well-formed request is handled without an exception; it
leaves the server waiting for a stop or sends its reply. Two sorts of requests are answered
twice (`Doubled`): a request for a part of a packet, which goes on to the failure behind a
reply, and the start of a trace, whose case runs on into the next one.
-/

namespace Pfp.Db

variable {cv : Conversions} {s : Session}

/-- The numbers of the request are numbers, and each condition has a value. -/
def WellFormed (cv : Conversions) : Request → Prop
  | .Run time_ns => ∀ t ∈ time_ns, (cv.stod t).isSome
  | .Continue time_ns => ∀ t ∈ time_ns, (cv.stod t).isSome
  | .SetBreakpoint msg => msg.condition_list.length = msg.value_list.length
  | .RemoveBreakpoint id => (stoi id).isSome
  | .RemoveWatchpoint id => (stoi id).isSome
  | .Backtrace packet_id => ∀ id ∈ packet_id, (stoi id).isSome
  | .EnableDisableBreakpoint id _ => (stoi id).isSome
  | .EnableDisableWatchpoint id _ => (stoi id).isSome
  | _ => True

/-- The packet is known and shows its content. -/
def HasInfo (dm : DebugDataManager) (id : Int) : Prop :=
  ∃ pk, dm.getPacket id = some pk ∧ pk.debug_info.isSome

/-- The requests with two answers. -/
def Doubled (dm : DebugDataManager) : Request → Prop
  | .GetPacketField id _ => HasInfo dm id
  | .GetRawPacket id => HasInfo dm id
  | .GetParsedPacket id => HasInfo dm id
  | .StartTracing _ => True
  | _ => False

/-- The request leaves the server waiting for a stop. -/
def Resumes (s : Session) : Request → Prop
  | .Run _ => s.run_called = false
  | .Continue _ => True
  | .Next => True
  | _ => False

/-! ## Handlers -/

theorem breakAfter_frame (cv : Conversions) (time : ℚ) (s : Session) :
    (breakAfter cv time s).sent = s.sent ∧ (breakAfter cv time s).waiting = s.waiting := by
  unfold breakAfter
  split <;> exact ⟨rfl, rfl⟩

theorem handleRun_frame (cv : Conversions) (time : ℚ) (s : Session) :
    (handleRun cv time s).sent = s.sent ∧ (handleRun cv time s).waiting = true :=
  ⟨(breakAfter_frame cv time s).1, rfl⟩

theorem handleContinue_frame (cv : Conversions) (time : ℚ) (s : Session) :
    (handleContinue cv time s).sent = s.sent ∧ (handleContinue cv time s).waiting = true :=
  ⟨(breakAfter_frame cv time s).1, rfl⟩

theorem requestTime_ok {time_ns : Option String} (h : ∀ t ∈ time_ns, (cv.stod t).isSome) :
    ∃ t, requestTime cv time_ns = .ok t := by
  cases time_ns with
  | none => exact ⟨-1, rfl⟩
  | some t =>
    obtain ⟨x, hx⟩ := Option.isSome_iff_exists.mp (h t rfl)
    exact ⟨x, by rw [requestTime, hx]; rfl⟩

/-- With a value for each condition the loop runs through, and the breakpoint gets the
conditions that it does not have yet. -/
theorem setConditions_ok {cs : List BreakpointCondition} {vs : List String}
    (h : cs.length ≤ vs.length) (br : Breakpoint) : ∃ br', setConditions cs vs br = .ok br' ∧
      ∀ c, br'.conditions c = (br.conditions c).or ((cs.zip vs).lookup c) := by
  induction cs generalizing vs br with
  | nil => exact ⟨br, rfl, fun c => by simp⟩
  | cons c cs ih =>
    cases vs with
    | nil => simp at h
    | cons v vs =>
      obtain ⟨br', hbr', hconds⟩ := ih (Nat.le_of_succ_le_succ h)
        (if c = .BREAK_AT_TIME then { br.addCondition c v with temp := true }
          else br.addCondition c v)
      refine ⟨br', hbr', ?_⟩
      intro c'
      rw [hconds, List.zip_cons_cons, List.lookup_cons]
      have hadd : (if c = .BREAK_AT_TIME then { br.addCondition c v with temp := true }
          else br.addCondition c v).conditions = br.conditions.insert c v := by
        split <;> rfl
      rw [hadd, Conditions.insert]
      by_cases hc : c' = c
      · rw [if_pos hc, hc]
        cases hv : br.conditions c <;> simp
      · rw [if_neg hc, show (c' == c) = false by simpa using hc]

/-- `s'` is `s` with `n` replies behind its own. -/
def Answered (s s' : Session) (n : Nat) : Prop :=
  s'.waiting = s.waiting ∧ ∃ l : List DebuggerMessage, s'.sent = s.sent ++ l ∧ l.length = n

theorem Answered.send {s s' : Session} {n : Nat} (h : Answered s s' n) (m : DebuggerMessage) :
    Answered s (s'.send m) (n + 1) := by
  obtain ⟨hwait, l, hl, hn⟩ := h
  exact ⟨hwait, l ++ [m], by rw [Session.send, hl, List.append_assoc], by simp [hn]⟩

theorem Answered.refl (s : Session) : Answered s s 0 := ⟨rfl, [], by simp, rfl⟩

theorem answered_send (s : Session) (m : DebuggerMessage) : Answered s (s.send m) 1 :=
  (Answered.refl s).send m

theorem answered_manage (s : Session) (dm : DebugDataManager) (m : DebuggerMessage) :
    Answered s ((s.manage dm).send m) 1 := ⟨rfl, [m], rfl, rfl⟩

theorem handleId_answered {id : String} (h : (stoi id).isSome) (f : Int → DebugDataManager)
    (s : Session) : ∃ s', handleId id f s = .ok s' ∧ Answered s s' 1 := by
  obtain ⟨x, hx⟩ := Option.isSome_iff_exists.mp h
  refine ⟨(s.manage (f x)).sendGenericReply, ?_, answered_manage s (f x) _⟩
  rw [handleId, hx]
  rfl

theorem handleSetBreakpoint_answered {msg : SetBreakpointMsg}
    (h : msg.condition_list.length ≤ msg.value_list.length) (s : Session) :
    ∃ s', handleSetBreakpoint msg s = .ok s' ∧ Answered s s' 1 := by
  obtain ⟨br, hbr, -⟩ := setConditions_ok h { s.data_manager.newBreakpoint.1 with
    temp := msg.temporary = "1", disabled := msg.disabled = "1" }
  refine ⟨(s.manage (s.data_manager.newBreakpoint.2.addBreakpoint br)).sendGenericReply, ?_,
    answered_manage s _ _⟩
  simp only [handleSetBreakpoint, hbr, bind, Except.bind, pure, Except.pure]

theorem backtraceId_ok {packet_id : Option String} (h : ∀ id ∈ packet_id, (stoi id).isSome)
    (s : Session) : ∃ id, backtraceId packet_id s = .ok id := by
  cases packet_id with
  | none => exact ⟨_, rfl⟩
  | some text =>
    obtain ⟨x, hx⟩ := Option.isSome_iff_exists.mp (h text rfl)
    exact ⟨x, by rw [backtraceId, hx]; rfl⟩

theorem handleBacktrace_answered {packet_id : Option String}
    (h : ∀ id ∈ packet_id, (stoi id).isSome) (s : Session) :
    ∃ s', handleBacktrace packet_id s = .ok s' ∧ Answered s s' 1 := by
  obtain ⟨id, hid⟩ := backtraceId_ok h s
  simp only [handleBacktrace, hid, bind, Except.bind, pure, Except.pure]
  cases s.data_manager.getPacket id with
  | none => exact ⟨_, rfl, answered_send s _⟩
  | some pk => exact ⟨_, rfl, answered_send s _⟩

/-- Twice if there is something to show, and once otherwise. -/
theorem handlePacketValue_answered (id : Int) (value : DebugInfo → DebuggerMessage) (s : Session) :
    (HasInfo s.data_manager id → Answered s (handlePacketValue id value s) 2) ∧
      (¬ HasInfo s.data_manager id → Answered s (handlePacketValue id value s) 1) := by
  rw [handlePacketValue]
  cases hpk : s.data_manager.getPacket id with
  | none =>
    refine ⟨fun ⟨pk, hpk', _⟩ => ?_, fun _ => answered_send s _⟩
    rw [hpk] at hpk'
    cases hpk'
  | some pk =>
    cases hinfo : pk.debug_info with
    | none =>
      refine ⟨fun ⟨pk', hpk', hsome⟩ => ?_, ?_⟩
      · rw [hpk] at hpk'
        cases hpk'
        rw [hinfo] at hsome
        cases hsome
      · intro _
        simp only [hinfo]
        exact answered_send s _
    | some di =>
      refine ⟨?_, fun h => absurd ⟨pk, hpk, by simp [hinfo]⟩ h⟩
      intro _
      simp only [hinfo]
      exact (answered_send s (value di)).send _

theorem handleStartTracing_answered (msg : StartTracingMsg) (s : Session) :
    Answered s (handleStartTracing msg s) 1 := by
  simp only [handleStartTracing]
  split <;> split <;> exact answered_manage s _ _

/-! ## Requests -/

/-- A well-formed request is handled: it is answered, or the server waits for a stop. -/
theorem parseRequest_answered {r : Request} (hr : WellFormed cv r)
    (hcp : s.control_plane.isSome) : ∃ s', parseRequest cv r s = .ok s' ∧
      (Resumes s r ∧ s'.sent = s.sent ∧ s'.waiting = true ∨
        ¬ Resumes s r ∧ (Doubled s.data_manager r → Answered s s' 2) ∧
          (¬ Doubled s.data_manager r → Answered s s' 1)) := by
  have once : ∀ {s'}, Answered s s' 1 → ∀ {r : Request}, ¬ Resumes s r →
      ¬ Doubled s.data_manager r → ∃ s'', Except.ok (ε := Fault) s' = .ok s'' ∧
      (Resumes s r ∧ s''.sent = s.sent ∧ s''.waiting = true ∨
        ¬ Resumes s r ∧ (Doubled s.data_manager r → Answered s s'' 2) ∧
          (¬ Doubled s.data_manager r → Answered s s'' 1)) :=
    fun h _ hres hdbl => ⟨_, rfl, .inr ⟨hres, fun hd => absurd hd hdbl, fun _ => h⟩⟩
  obtain ⟨cp, hcp⟩ := Option.isSome_iff_exists.mp hcp
  cases r with
  | Run time_ns =>
    by_cases hrun : s.run_called = false
    · obtain ⟨t, ht⟩ := requestTime_ok hr
      obtain ⟨hsent, hwait⟩ := handleRun_frame cv t { s with run_called := true }
      refine ⟨_, ?_, .inl ⟨hrun, hsent, hwait⟩⟩
      simp only [parseRequest, if_pos hrun, ht, bind, Except.bind, pure, Except.pure]
    · simp only [parseRequest, if_neg hrun]
      exact once (answered_send s _) hrun id
  | Continue time_ns =>
    obtain ⟨t, ht⟩ := requestTime_ok hr
    obtain ⟨hsent, hwait⟩ := handleContinue_frame cv t s
    refine ⟨_, ?_, .inl ⟨trivial, hsent, hwait⟩⟩
    simp only [parseRequest, ht, bind, Except.bind, pure, Except.pure]
  | Next =>
    obtain ⟨hsent, hwait⟩ := handleContinue_frame cv (-1) (s.manage (s.data_manager.addBreakpoint
      (stealthBreakpoint .BREAK_ON_PACKET_ID (toString s.data_manager.whoami))))
    exact ⟨_, rfl, .inl ⟨trivial, hsent, hwait⟩⟩
  | SetBreakpoint msg =>
    obtain ⟨s', hs', ha⟩ := handleSetBreakpoint_answered (Nat.le_of_eq hr) s
    rw [parseRequest, hs']
    exact once ha id id
  | RemoveBreakpoint i =>
    obtain ⟨s', hs', ha⟩ := handleId_answered hr s.data_manager.removeBreakpoint s
    rw [parseRequest, handleRemoveBreakpoint, hs']
    exact once ha id id
  | RemoveWatchpoint i =>
    obtain ⟨s', hs', ha⟩ := handleId_answered hr s.data_manager.removeWatchpoint s
    rw [parseRequest, handleRemoveWatchpoint, hs']
    exact once ha id id
  | Backtrace packet_id =>
    obtain ⟨s', hs', ha⟩ := handleBacktrace_answered hr s
    rw [parseRequest, hs']
    exact once ha id id
  | EnableDisableBreakpoint i enable =>
    obtain ⟨s', hs', ha⟩ := handleId_answered hr (if enable = "0" then
      s.data_manager.disableBreakpoint else s.data_manager.enableBreakpoint) s
    rw [parseRequest, handleEnableDisableBreakpoint, hs']
    exact once ha id id
  | EnableDisableWatchpoint i enable =>
    obtain ⟨s', hs', ha⟩ := handleId_answered hr (if enable = "0" then
      s.data_manager.disableWatchpoint else s.data_manager.enableWatchpoint) s
    rw [parseRequest, handleEnableDisableWatchpoint, hs']
    exact once ha id id
  | CPCommand command =>
    simp only [parseRequest, handleCPCommand, hcp, ofOption, bind, Except.bind, pure, Except.pure]
    refine once (r := .CPCommand command) ?_ id id
    exact ⟨rfl, [_], rfl, rfl⟩
  | GetTableEntries =>
    simp only [parseRequest, handleGetTableEntries, hcp, ofOption, bind, Except.bind, pure,
      Except.pure]
    exact once (answered_send s _) id id
  | GetPacketField i field_name =>
    exact ⟨_, rfl, .inr ⟨id, handlePacketValue_answered i _ s⟩⟩
  | GetRawPacket i => exact ⟨_, rfl, .inr ⟨id, handlePacketValue_answered i _ s⟩⟩
  | GetParsedPacket i => exact ⟨_, rfl, .inr ⟨id, handlePacketValue_answered i _ s⟩⟩
  | StartTracing msg =>
    exact ⟨_, rfl, .inr ⟨id, fun _ => (handleStartTracing_answered msg s).send _,
      fun h => absurd trivial h⟩⟩
  | SetWatchpoint => exact once (answered_manage s _ _) id id
  | IgnoreModule => exact once (answered_manage s _ _) id id
  | BreakOnPacketDrop => exact once (answered_manage s _ _) id id
  | GetCounter => exact once (answered_send s _) id id
  | GetAllCounters => exact once (answered_send s _) id id
  | GetAllBreakpoints => exact once (answered_send s _) id id
  | WhoAmI => exact once (answered_send s _) id id
  | GetPacketList => exact once (answered_send s _) id id
  | GetAllWatchpoints => exact once (answered_send s _) id id
  | GetAllIgnoreModules => exact once (answered_send s _) id id
  | GetSimulationTime => exact once (answered_send s _) id id
  | GetDroppedPackets => exact once (answered_send s _) id id
  | other => exact once (answered_send s _) id id

/-- The request is answered by one message. -/
def RepliesOnce (cv : Conversions) (simulate : Shared → Shared) (r : Request) (s : Session) :
    Prop :=
  ∃ s' m, serve cv simulate r s = .ok s' ∧ s'.sent = s.sent ++ [m]

/-- **One reply a request.** Whatever the simulation does until it stops, a well-formed
request is answered exactly once if and only if it is not one of the doubled ones. -/
theorem repliesOnce_iff {r : Request} (hr : WellFormed cv r) (hcp : s.control_plane.isSome)
    (hs : s.waiting = false) (simulate : Shared → Shared) :
    RepliesOnce cv simulate r s ↔ ¬ Doubled s.data_manager r := by
  obtain ⟨t, ht, hcase⟩ := parseRequest_answered hr hcp
  have hserve : serve cv simulate r s =
      .ok (if t.waiting then { t with shared := simulate t.shared }.replyStop else t) := by
    simp only [serve, ht, bind, Except.bind, pure, Except.pure]
  rw [RepliesOnce, hserve]
  rcases hcase with ⟨hres, hsent, hwait⟩ | ⟨-, htwo, hone⟩
  · have hnot : ¬ Doubled s.data_manager r := by
      cases r <;> first | exact id | exact absurd hres id
    refine ⟨fun _ => hnot, fun _ =>
      ⟨_, (simulate t.shared).reply_message.getD (.GenericAcknowledge .SUCCESS), rfl, ?_⟩⟩
    rw [if_pos hwait, Session.replyStop, Session.send, hsent]
  · by_cases hd : Doubled s.data_manager r
    · obtain ⟨hwait, l, hl, hlen⟩ := htwo hd
      refine ⟨?_, fun h => absurd hd h⟩
      rintro ⟨s', m, hs', hsent⟩
      rw [if_neg (by simp [hwait, hs])] at hs'
      cases hs'
      rw [hl, List.append_cancel_left_eq] at hsent
      rw [hsent] at hlen
      cases hlen
    · obtain ⟨hwait, l, hl, hlen⟩ := hone hd
      obtain ⟨m, rfl⟩ := List.length_eq_one_iff.mp hlen
      refine ⟨fun _ => hd, fun _ => ⟨t, m, ?_, hl⟩⟩
      rw [if_neg (by simp [hwait, hs])]

/-- A session in front of the start of the simulation. -/
def oneCounter : Session :=
  { control_plane := some { table_entries := ∅, do_command := fun _ t => t }
    shared := { data_manager := ({} : DebugDataManager).addCounter "c" } }

/-- The start of a trace is answered twice. -/
theorem startTracing_replies : WellFormed decimal (.StartTracing ⟨some 3, "c", ""⟩) ∧
    ¬ RepliesOnce decimal id (.StartTracing ⟨some 3, "c", ""⟩) oneCounter := by
  refine ⟨trivial, ?_⟩
  rintro ⟨s', m, hs', hsent⟩
  cases hs'
  have hlen := congrArg List.length hsent
  rw [List.length_append, List.length_singleton] at hlen
  revert hlen
  decide +kernel

/-- A request for a counter. -/
theorem repliesOnce_getCounter :
    RepliesOnce decimal id (.GetCounter "c") oneCounter :=
  (repliesOnce_iff (show WellFormed decimal (.GetCounter "c") from trivial) rfl rfl id).mpr id

end Pfp.Db
