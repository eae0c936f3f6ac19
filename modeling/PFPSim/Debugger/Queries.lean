import PFPSim.Debugger.Changes

/-!
# Requests that only ask

What a handler does, and what it sends, does not depend on the messages sent before
(`exec_framed`), and the requests that only ask change nothing but these. So a client that
asks sees the same session as one that does not (`queries_unseen`).
-/

namespace Pfp.Db

open Runs

/-- The requests that only ask. -/
def asks : Request → Bool
  | .GetCounter _ | .GetAllCounters | .GetAllBreakpoints | .WhoAmI | .GetPacketList _
  | .GetAllWatchpoints | .Backtrace _ | .GetAllIgnoreModules | .GetSimulationTime
  | .GetDroppedPackets | .GetTableEntries | .GetPacketField _ _ | .GetRawPacket _
  | .GetParsedPacket _ | .other _ => true
  | _ => false

def Step.asks : Step → Bool
  | .request r => Db.asks r
  | _ => false

variable {cv : Conversions} {s s' : Session}

namespace Session

def withSent (s : Session) (l : List DebuggerMessage) : Session := { s with sent := l }

end Session

/-- From `s` to `s'` the messages `ms` are sent, whatever has been sent before. -/
def Framed (f : Session → Except Fault Session) (s s' : Session) : Prop :=
  ∃ ms, s'.sent = s.sent ++ ms ∧ ∀ l, f (s.withSent l) = .ok (s'.withSent (l ++ ms))

theorem Framed.sends {f : Session → Except Fault Session} {m : DebuggerMessage}
    (hsent : s'.sent = s.sent ++ [m]) (h : ∀ l, f (s.withSent l) = .ok (s'.withSent (l ++ [m]))) :
    Framed f s s' := ⟨[m], hsent, h⟩

theorem Framed.silent {f : Session → Except Fault Session} (hsent : s'.sent = s.sent)
    (h : ∀ l, f (s.withSent l) = .ok (s'.withSent l)) : Framed f s s' := by
  refine ⟨[], by rw [hsent, List.append_nil], fun l => ?_⟩
  rw [h, List.append_nil]

theorem breakAfter_withSent (cv : Conversions) (time : ℚ) (s : Session)
    (l : List DebuggerMessage) :
    breakAfter cv time (s.withSent l) = (breakAfter cv time s).withSent l := by
  unfold breakAfter
  split <;> rfl

theorem breakAfter_sent (cv : Conversions) (time : ℚ) (s : Session) :
    (breakAfter cv time s).sent = s.sent := by
  unfold breakAfter
  split <;> rfl

theorem handleContinue_framed (cv : Conversions) (time : ℚ) (s : Session) :
    Framed (fun s => .ok (handleContinue cv time s)) s (handleContinue cv time s) := by
  refine .silent (breakAfter_sent cv time s) fun l => ?_
  simp only [handleContinue, breakAfter_withSent]
  rfl

theorem handleId_framed {id : String} {f : DebugDataManager → Int → DebugDataManager}
    (h : handleId id (f s.data_manager) s = .ok s') :
    Framed (fun s => handleId id (f s.data_manager) s) s s' := by
  obtain ⟨x, hx, h⟩ := bind_eq_ok.mp h
  cases h
  exact .sends rfl fun l => bind_eq_ok.mpr ⟨x, hx, rfl⟩

/-- The messages of the handlers that show a part of a packet. -/
theorem handlePacketValue_withSent (id : Int) (value : DebugInfo → DebuggerMessage) (s : Session) :
    ∃ ms, ∀ l, handlePacketValue id value (s.withSent l) = s.withSent (l ++ ms) := by
  have hdm : ∀ l, (s.withSent l).data_manager = s.data_manager := fun l => rfl
  cases hpk : s.data_manager.getPacket id with
  | none => exact ⟨[_], fun l => by simp only [handlePacketValue, hdm, hpk]; rfl⟩
  | some pk =>
    cases hdi : pk.debug_info with
    | none => exact ⟨[_], fun l => by simp only [handlePacketValue, hdm, hpk, hdi]; rfl⟩
    | some di =>
      refine ⟨[value di, .GenericAcknowledge .FAILED], fun l => ?_⟩
      simp only [handlePacketValue, hdm, hpk, hdi]
      exact congrArg s.withSent (List.append_assoc ..)

theorem handlePacketValue_framed (id : Int) (value : DebugInfo → DebuggerMessage) (s : Session) :
    Framed (fun s => .ok (handlePacketValue id value s)) s (handlePacketValue id value s) := by
  obtain ⟨ms, hms⟩ := handlePacketValue_withSent id value s
  have hself : handlePacketValue id value s = s.withSent (s.sent ++ ms) := hms s.sent
  rw [hself]
  exact ⟨ms, rfl, fun l => congrArg Except.ok (hms l)⟩

theorem handleStartTracing_framed (msg : StartTracingMsg) (s : Session) :
    Framed (fun s => .ok (handleStartTracing msg s).sendRequestFailed) s
      (handleStartTracing msg s).sendRequestFailed := by
  have hdm : ∀ l, (s.withSent l).data_manager = s.data_manager := fun l => rfl
  have hmanage : ∀ (id : Int) (dm : DebugDataManager), ∃ ms, ∀ s : Session,
      (if id < 0 then (s.manage dm).sendRequestFailed
        else (s.manage dm).send (.StartTracingStatus id)).sendRequestFailed =
      (s.manage dm).withSent (s.sent ++ ms) := by
    intro id dm
    by_cases hid : id < 0
    · refine ⟨[.GenericAcknowledge .FAILED, .GenericAcknowledge .FAILED], fun s => ?_⟩
      rw [if_pos hid]
      exact congrArg (s.manage dm).withSent (List.append_assoc ..)
    · refine ⟨[.StartTracingStatus id, .GenericAcknowledge .FAILED], fun s => ?_⟩
      rw [if_neg hid]
      exact congrArg (s.manage dm).withSent (List.append_assoc ..)
  have hframed : ∀ (id : Int) (dm : DebugDataManager), ∃ ms,
      (if id < 0 then (s.manage dm).sendRequestFailed
        else (s.manage dm).send (.StartTracingStatus id)).sendRequestFailed.sent = s.sent ++ ms ∧
      ∀ l, Except.ok (ε := Fault) (if id < 0 then ((s.withSent l).manage dm).sendRequestFailed
        else ((s.withSent l).manage dm).send (.StartTracingStatus id)).sendRequestFailed =
      .ok ((if id < 0 then (s.manage dm).sendRequestFailed
        else (s.manage dm).send (.StartTracingStatus id)).sendRequestFailed.withSent
          (l ++ ms)) := by
    intro id dm
    obtain ⟨ms, hms⟩ := hmanage id dm
    exact ⟨ms, by rw [hms]; rfl, fun l => by rw [hms, hms]; rfl⟩
  simp only [Framed, handleStartTracing, hdm]
  split
  · exact hframed _ _
  · exact hframed _ _
  · exact hframed _ _

/-- What a request does does not depend on what has been sent. -/
theorem parseRequest_framed {r : Request} (h : parseRequest cv r s = .ok s') :
    Framed (parseRequest cv r) s s' := by
  cases r with
  | Run time_ns =>
    simp only [parseRequest] at h
    split at h
    · rename_i hrun
      obtain ⟨t, ht, h⟩ := bind_eq_ok.mp h
      cases h
      refine .silent (breakAfter_sent cv t _) fun l => ?_
      show (if s.run_called = false then _ else _) = _
      rw [if_pos hrun, ht]
      exact congrArg (fun s : Session => Except.ok (ε := Fault)
        { s with shared := { s.shared with run_lock := false } }.waitForStop)
        (breakAfter_withSent cv t { s with run_called := true } l)
    · rename_i hrun
      cases h
      refine .sends rfl fun l => ?_
      exact if_neg hrun
  | Continue time_ns =>
    obtain ⟨t, ht, h⟩ := bind_eq_ok.mp h
    cases h
    obtain ⟨ms, hms, hall⟩ := handleContinue_framed cv t s
    exact ⟨ms, hms, fun l => bind_eq_ok.mpr ⟨t, ht, hall l⟩⟩
  | Next =>
    cases h
    exact handleContinue_framed cv (-1) _
  | SetBreakpoint msg =>
    obtain ⟨br, hbr, h⟩ := bind_eq_ok.mp h
    cases h
    exact .sends rfl fun l => bind_eq_ok.mpr ⟨br, hbr, rfl⟩
  | RemoveBreakpoint id => exact handleId_framed (f := DebugDataManager.removeBreakpoint) h
  | EnableDisableBreakpoint id enable =>
    exact handleId_framed (f := fun dm => if enable = "0" then dm.disableBreakpoint
      else dm.enableBreakpoint) h
  | RemoveWatchpoint id => exact handleId_framed (f := DebugDataManager.removeWatchpoint) h
  | EnableDisableWatchpoint id enable =>
    exact handleId_framed (f := fun dm => if enable = "0" then dm.disableWatchpoint
      else dm.enableWatchpoint) h
  | Backtrace packet_id =>
    obtain ⟨id, hid, h⟩ := bind_eq_ok.mp h
    have hget : ∀ l, (s.withSent l).data_manager.getPacket id = s.data_manager.getPacket id :=
      fun l => rfl
    split at h
    · rename_i pk hpk
      cases h
      refine .sends rfl fun l => bind_eq_ok.mpr ⟨id, hid, ?_⟩
      rw [hget, hpk]
      rfl
    · rename_i hpk
      cases h
      refine .sends rfl fun l => bind_eq_ok.mpr ⟨id, hid, ?_⟩
      rw [hget, hpk]
      rfl
  | CPCommand command =>
    obtain ⟨cp, hcp, h⟩ := bind_eq_ok.mp h
    cases h
    exact .sends rfl fun l => bind_eq_ok.mpr ⟨cp, hcp, rfl⟩
  | GetTableEntries =>
    obtain ⟨cp, hcp, h⟩ := bind_eq_ok.mp h
    cases h
    exact .sends rfl fun l => bind_eq_ok.mpr ⟨cp, hcp, rfl⟩
  | GetPacketField id field_name =>
    cases h
    exact handlePacketValue_framed id _ s
  | GetRawPacket id =>
    cases h
    exact handlePacketValue_framed id _ s
  | GetParsedPacket id =>
    cases h
    exact handlePacketValue_framed id _ s
  | StartTracing msg =>
    cases h
    exact handleStartTracing_framed msg s
  | _ =>
    cases h
    exact .sends rfl fun l => rfl

/-- A request that only asks sends its reply and does nothing else. -/
theorem parseRequest_of_asks {r : Request} (hr : asks r = true)
    (h : parseRequest cv r s = .ok s') : s' = s.withSent s'.sent := by
  cases r with
  | Backtrace packet_id =>
    obtain ⟨id, -, h⟩ := bind_eq_ok.mp h
    split at h <;> cases h <;> rfl
  | GetTableEntries =>
    obtain ⟨cp, -, h⟩ := bind_eq_ok.mp h
    cases h
    rfl
  | GetPacketField id field_name =>
    cases h
    obtain ⟨ms, hms⟩ := handlePacketValue_withSent id (fun di => .PacketFieldValue
      (di.field_value field_name)) s
    have hself := hms s.sent
    exact hself.trans (congrArg s.withSent (congrArg Session.sent hself).symm)
  | GetRawPacket id =>
    cases h
    obtain ⟨ms, hms⟩ := handlePacketValue_withSent id (fun di => .RawPacketValue di.raw_data) s
    have hself := hms s.sent
    exact hself.trans (congrArg s.withSent (congrArg Session.sent hself).symm)
  | GetParsedPacket id =>
    cases h
    obtain ⟨ms, hms⟩ := handlePacketValue_withSent id (fun di => .ParsedPacketValue
      di.parsed_data) s
    have hself := hms s.sent
    exact hself.trans (congrArg s.withSent (congrArg Session.sent hself).symm)
  | GetCounter | GetAllCounters | GetAllBreakpoints | WhoAmI | GetPacketList | GetAllWatchpoints
  | GetAllIgnoreModules | GetSimulationTime | GetDroppedPackets | other =>
    cases h
    rfl
  | _ => cases hr

/-! ## Sessions -/

theorem exec_framed {x : Step} (h : exec cv s x = .ok s') : Framed (fun s => exec cv s x) s s' := by
  cases x with
  | request r => exact parseRequest_framed h
  | start =>
    cases h
    exact .silent rfl fun l => rfl
  | event e =>
    obtain ⟨sh, hsh, h⟩ := bind_eq_ok.mp h
    cases h
    exact .silent rfl fun l => bind_eq_ok.mpr ⟨sh, hsh, rfl⟩
  | resume =>
    simp only [exec] at h
    split at h
    · rename_i loop hloop
      cases h
      refine .silent rfl fun l => ?_
      simp only [exec, Session.withSent, hloop]
    · rename_i hpaused
      cases h
      refine .silent rfl fun l => ?_
      simp only [exec, Session.withSent]
  | reply =>
    cases h
    exact .sends rfl fun l => rfl

theorem enabled_withSent (s : Session) (l : List DebuggerMessage) (x : Step) :
    enabled (s.withSent l) x = enabled s x := by
  cases x <;> rfl

theorem step_framed {cp : Option CPDebuggerInterface} {x : Step}
    (h : (session cv cp).step s x = some s') : ∃ ms, s'.sent = s.sent ++ ms ∧
      ∀ l, (session cv cp).step (s.withSent l) x = some (s'.withSent (l ++ ms)) := by
  obtain ⟨hen, h⟩ := step_eq_some.mp h
  obtain ⟨ms, hms, hall⟩ := exec_framed h
  exact ⟨ms, hms, fun l => step_eq_some.mpr ⟨(enabled_withSent s l x).trans hen, hall l⟩⟩

/-- The steps of a run, each with the messages that it sends, and the state behind them. -/
def transcript (sys : System Session Step) :
    Session → List Step → Option (List (Step × List DebuggerMessage) × Session)
  | s, [] => some ([], s)
  | s, x :: xs => do
    let t ← sys.step s x
    let (rest, s') ← transcript sys t xs
    return ((x, t.sent.drop s.sent.length) :: rest, s')

theorem transcript_cons {sys : System Session Step} {x : Step} {xs : List Step}
    {log : List (Step × List DebuggerMessage)} :
    transcript sys s (x :: xs) = some (log, s') ↔ ∃ t rest, sys.step s x = some t ∧
      transcript sys t xs = some (rest, s') ∧ log = (x, t.sent.drop s.sent.length) :: rest := by
  rw [transcript]
  constructor
  · intro h
    obtain ⟨t, ht, h⟩ := Option.bind_eq_some_iff.mp h
    obtain ⟨⟨rest, s''⟩, hrest, h⟩ := Option.bind_eq_some_iff.mp h
    cases h
    exact ⟨t, rest, ht, hrest, rfl⟩
  · rintro ⟨t, rest, ht, hrest, rfl⟩
    rw [ht, Option.bind_eq_bind, Option.bind_some, hrest]
    rfl

theorem transcript_filter {cp : Option CPDebuggerInterface} {es : List Step}
    {log : List (Step × List DebuggerMessage)}
    (h : transcript (session cv cp) s es = some (log, s')) (l : List DebuggerMessage) :
    ∃ l', transcript (session cv cp) (s.withSent l) (es.filter fun x => !x.asks) =
      some (log.filter fun a => !a.1.asks, s'.withSent l') := by
  induction es generalizing s log l with
  | nil =>
    cases h
    exact ⟨l, rfl⟩
  | cons x es ih =>
    obtain ⟨t, rest, ht, hrest, rfl⟩ := transcript_cons.mp h
    cases hx : x.asks with
    | true =>
      -- the state behind it is the same without its reply
      have hsame : t.withSent l = s.withSent l := by
        cases x with
        | request r =>
          obtain ⟨-, hexec⟩ := step_eq_some.mp ht
          rw [parseRequest_of_asks hx hexec]
          rfl
        | _ => cases hx
      obtain ⟨l', hl'⟩ := ih hrest l
      refine ⟨l', ?_⟩
      rw [List.filter_cons_of_neg (by simp [hx]), List.filter_cons_of_neg (by simp [hx]), ← hsame]
      exact hl'
    | false =>
      obtain ⟨ms, hms, hall⟩ := step_framed ht
      obtain ⟨l', hl'⟩ := ih hrest (l ++ ms)
      refine ⟨l', ?_⟩
      rw [List.filter_cons_of_pos (by simp [hx]), List.filter_cons_of_pos (by simp [hx])]
      refine transcript_cons.mpr ⟨_, _, hall l, hl', ?_⟩
      have hdrop : t.sent.drop s.sent.length = ms := by rw [hms, List.drop_left]
      have hdrop' : (t.withSent (l ++ ms)).sent.drop (s.withSent l).sent.length = ms :=
        List.drop_left
      rw [hdrop, hdrop']

/-- **Queries.** A session without the requests that only ask goes the same way: the steps that
are left have the same replies, and lead to the same state. -/
theorem queries_unseen {cp : Option CPDebuggerInterface} {es : List Step}
    {log : List (Step × List DebuggerMessage)}
    (h : transcript (session cv cp) (session cv cp).init es = some (log, s)) :
    ∃ sent, transcript (session cv cp) (session cv cp).init (es.filter fun x => !x.asks) =
      some (log.filter fun a => !a.1.asks, { s with sent }) :=
  transcript_filter h []

/-- A request between two that only ask. -/
def asked : List Step :=
  [.request .WhoAmI, .request (.BreakOnPacketDrop true), .request .GetSimulationTime]

theorem queries_unseen_asked : ∃ s sent, transcript (session decimal none) {} asked = some
      ([(.request .WhoAmI, [.WhoAmIReply (-1)]),
        (.request (.BreakOnPacketDrop true), [.GenericAcknowledge .SUCCESS]),
        (.request .GetSimulationTime, [.SimulationTime 0])], s) ∧
    transcript (session decimal none) {} [.request (.BreakOnPacketDrop true)] = some
      ([(.request (.BreakOnPacketDrop true), [.GenericAcknowledge .SUCCESS])],
        { s with sent }) := by
  have hrun : transcript (session decimal none) {} asked = some (_, _) := rfl
  obtain ⟨sent, h⟩ := queries_unseen hrun
  exact ⟨_, sent, hrun, h⟩

end Pfp.Db
