import PFPSim.Debugger.Records
import PFPSim.Debugger.Reported
import PFPSim.Debugger.PacketList

/-!
# What a client is told of packets and counters

The answers about packets and counters, from the steps of the session alone. A backtrace
tells the reads and writes of its packet (`backtrace_told`), the list of packets has the
packets with an event, in modules that are not ignored (`packets_told`), and a counter has
the value of its last update (`counters_told`).
-/

namespace Pfp.Db

open Runs

variable {cv : Conversions} {cp : Option CPDebuggerInterface} {s s' : Session} {es : List Step}

/-- The server takes requests. -/
theorem step_request {r : Request} (hwaiting : s.waiting = false)
    (h : parseRequest cv r s = .ok s') : (session cv cp).step s (.request r) = some s' :=
  step_eq_some.mpr ⟨by rw [enabled, hwaiting]; rfl, h⟩

/-! ## Backtraces -/

theorem packet_list_of_replay (h : (session cv cp).replay { control_plane := cp } es = some s) :
    s.data_manager.packet_list = (dataManager.after (calls es)).packet_list :=
  congrArg Records.packet_list (records_of_replay h)

/-- **Backtraces.** A packet without an event has no backtrace. That of any other tells the
reads and writes of the packet in the session, if their times do not decrease. -/
theorem backtrace_told (h : (session cv cp).replay { control_plane := cp } es = some s)
    (hwaiting : s.waiting = false) {packet_id : Option String} {p : Int}
    (hp : backtraceId packet_id s = .ok p) :
    (events p (calls es) = [] →
      (session cv cp).step s (.request (.Backtrace packet_id)) = some s.sendRequestFailed) ∧
    (events p (calls es) ≠ [] → ∃ tr,
      (session cv cp).step s (.request (.Backtrace packet_id)) =
        some (s.send (.BacktraceReply p tr)) ∧
      (Timely (events p (calls es)) → Faithful (events p (calls es)) tr)) := by
  have hget : s.data_manager.getPacket p = (dataManager.after (calls es)).getPacket p :=
    congrArg (·[p]?) (packet_list_of_replay h)
  have hsome := getPacket_isSome (calls es) p
  rw [← hget] at hsome
  constructor
  · intro hnone
    have hpacket : s.data_manager.getPacket p = none := by
      rw [← Option.not_isSome_iff_eq_none, hsome]
      exact not_not_intro hnone
    refine step_request hwaiting ?_
    simp only [parseRequest, handleBacktrace, hp, bind, Except.bind, hpacket]
    rfl
  · intro hne
    obtain ⟨pk, hpk⟩ := Option.isSome_iff_exists.mp (hsome.mpr hne)
    refine ⟨pk.trace, step_request hwaiting ?_, fun htimes => ?_⟩
    · simp only [parseRequest, handleBacktrace, hp, bind, Except.bind, hpk]
      rfl
    · have hfaithful := faithful_of_timely (calls es) p htimes
      rw [hget, DebugDataManager.getPacket] at hpk
      rw [backtrace, hpk] at hfaithful
      exact hfaithful

/-! ## The list of packets -/

theorem touched_packet_id (di : Option DebugInfo) (mod : String) (time : ℚ) (read : Bool)
    (pk : DebuggerPacket) :
    (DebugDataManager.touched di mod time read pk).packet_id = pk.packet_id := by
  cases read with
  | true => rfl
  | false =>
    show ((pk.setDebugInfo di).updateTraceWriteTime mod time).packet_id = pk.packet_id
    unfold DebuggerPacket.updateTraceWriteTime
    split
    · rfl
    · rfl

/-- A packet is stored under its identifier. -/
theorem packet_id_eq (h : List Call) {p : Int} {pk : DebuggerPacket}
    (hpk : (dataManager.after h).packet_list[p]? = some pk) : pk.packet_id = p := by
  induction h using List.reverseRecOn generalizing pk with
  | nil => simp [dataManager] at hpk
  | append_singleton h c ih =>
    rw [dataManager.after_concat] at hpk
    change (perform c _).2.packet_list[p]? = some pk at hpk
    cases hc : c.event p with
    | none =>
      rw [perform_packet_list hc] at hpk
      exact ih hpk
    | some e =>
      cases c with
      | updatePacket id di mod time read =>
        simp only [Call.event, Option.ite_none_right_eq_some, Option.some.injEq] at hc
        obtain ⟨rfl, rfl⟩ := hc
        simp only [perform, updatePacket_packet_list, if_true, Option.some.injEq] at hpk
        rw [← hpk, touched_packet_id, DebugDataManager.packet]
        cases hold : (dataManager.after h).packet_list[id]? with
        | none => rfl
        | some old => exact ih hold
      | _ => cases hc

/-- The row of a packet in the list. -/
def DebuggerPacket.row (pk : DebuggerPacket) : Int × String × ℚ :=
  (pk.packet_id, pk.current_location, pk.last_notify_time)

/-- A row is that of the packet with its identifier. -/
theorem row_eq_iff (h : List Call) (p : Int) (loc : String) (time : ℚ) :
    (∃ pk, (dataManager.after h).packet_list[p]? = some pk ∧ pk.row = (p, loc, time)) ↔
      (located (events p h)).map PacketEvent.shows = some (loc, time) := by
  rw [← packet_shows h p, Option.map_eq_some_iff]
  constructor
  · rintro ⟨pk, hpk, hrow⟩
    exact ⟨pk, hpk, congrArg Prod.snd hrow⟩
  · rintro ⟨pk, hpk, hshows⟩
    exact ⟨pk, hpk, Prod.ext (packet_id_eq h hpk) hshows⟩

/-- **The list of packets.** In the order of the identifiers it has the packets with an event,
each where it was read last, or was seen first, and left out if that module is not the one
that is asked for, or is ignored. -/
theorem packets_told (h : (session cv cp).replay { control_plane := cp } es = some s)
    (hwaiting : s.waiting = false) (mod : Option String) : ∃ rows,
    (session cv cp).step s (.request (.GetPacketList mod)) =
      some (s.send (.PacketListValues rows)) ∧
    (rows.map Prod.fst).Pairwise (· < ·) ∧
    ∀ p loc time, (p, loc, time) ∈ rows ↔
      (located (events p (calls es))).map PacketEvent.shows = some (loc, time) ∧
      (mod.getD "" = "" ∨ loc = mod.getD "") ∧
      ((es.filterMap (Step.ignores loc)).getLast?).getD false = false := by
  have hlist := packet_list_of_replay h
  have hid : ∀ x ∈ s.data_manager.packet_list.toList, x.2.packet_id = x.1 := by
    intro x hx
    rw [hlist] at hx
    exact packet_id_eq (calls es) (Maps.mem_toList.mp hx)
  refine ⟨_, step_request hwaiting rfl, ?_, fun p loc time => ?_⟩
  · have hordered : (s.data_manager.packet_list.toList.map Prod.snd).Pairwise
        fun pk pk' => pk.packet_id < pk'.packet_id := by
      refine List.pairwise_map.mpr ?_
      refine s.data_manager.packet_list.ordered_keys_toList.imp_of_mem fun {x y} hx hy hlt => ?_
      rw [hid x hx, hid y hy]
      exact Int.compare_eq_lt.mp hlt
    rw [List.map_map]
    exact List.pairwise_map.mpr (hordered.filter _)
  · rw [← row_eq_iff, ← hlist, ← checkIgnoreModules_of_replay h]
    simp only [List.mem_map, List.mem_filter, decide_eq_true_eq]
    constructor
    · rintro ⟨pk, ⟨⟨x, hx, rfl⟩, hmod, hignored⟩, heq⟩
      cases heq
      exact ⟨⟨x.2, (hid x hx).symm ▸ Maps.mem_toList.mp hx, rfl⟩, hmod, hignored⟩
    · rintro ⟨⟨pk, hpk, heq⟩, hmod, hignored⟩
      cases heq
      exact ⟨pk, ⟨⟨(pk.packet_id, pk), Maps.mem_toList.mpr hpk, rfl⟩, hmod, hignored⟩, rfl⟩

/-! ## Counters -/

/-- What a call says of a counter. -/
inductive News where
  | added
  | removed
  | updated (value : Int)
  deriving DecidableEq

namespace News

def value : News → Option Int
  | .updated value => some value
  | _ => none

/-- The news since the last removal, the last first. -/
def current (news : List News) : List News := news.reverse.takeWhile fun n => n ≠ .removed

/-- The last update since the last removal, and 0 without one. -/
def told (news : List News) : Option Int :=
  if current news = [] then none else some (((current news).findSome? value).getD 0)

def after (v : Option Int) : News → Option Int
  | .added => some (v.getD 0)
  | .removed => none
  | .updated value => some value

theorem current_concat (news : List News) (n : News) : current (news ++ [n]) =
    if n = .removed then [] else n :: current news := by
  rw [current, List.reverse_concat, List.takeWhile_cons]
  by_cases hn : n = .removed
  · simp [hn]
  · simp [hn, current]

theorem told_concat (news : List News) (n : News) :
    told (news ++ [n]) = after (told news) n := by
  cases n with
  | removed =>
    rw [told, current_concat]
    rfl
  | updated value =>
    rw [told, current_concat]
    rfl
  | added =>
    have hcurrent : current (news ++ [.added]) = .added :: current news :=
      current_concat news .added
    rw [told, hcurrent, if_neg (List.cons_ne_nil _ _), List.findSome?_cons_of_isNone rfl, told]
    split
    · rename_i hnone
      rw [hnone]
      rfl
    · rfl

end News

/-- What a call says of the counter `name`. -/
def Call.news (name : String) : Call → Option News
  | .addCounter other => if other = name then some .added else none
  | .removeCounter other => if other = name then some .removed else none
  | .updateCounter other value => if other = name then some (.updated value) else none
  | _ => none

/-- The news of a counter in a session. -/
def news (name : String) (es : List Step) : List News := (calls es).filterMap (Call.news name)

theorem counters_called {dm : DebugDataManager} {c : Call} (hc : (perform c dm).1 ≠ .thrown)
    (name : String) : (perform c dm).2.counters[name]? =
      ((c.news name).map (News.after dm.counters[name]?)).getD dm.counters[name]? := by
  cases c with
  | addCounter other =>
    show (dm.counters.insertIfNew other 0)[name]? = _
    rw [Maps.get_insertIfNew, Call.news]
    by_cases hname : other = name
    · rw [if_pos hname, if_pos hname, hname]
      rfl
    · rw [if_neg hname, if_neg hname]
      rfl
  | removeCounter other =>
    show (dm.counters.erase other)[name]? = _
    rw [Maps.get_erase, Call.news]
    by_cases hname : other = name
    · rw [if_pos hname, if_pos hname]
      rfl
    · rw [if_neg hname, if_neg hname]
      rfl
  | updateCounter other value =>
    simp only [perform, DebugDataManager.updateCounter] at hc ⊢
    by_cases hother : dm.counters[other]?.isSome = true
    · rw [if_pos hother, Call.news]
      show (dm.counters.insert other value)[name]? = _
      rw [Maps.get_insert]
      by_cases hname : other = name
      · rw [if_pos hname, if_pos hname]
        rfl
      · rw [if_neg hname, if_neg hname]
        rfl
    · rw [if_neg hother] at hc
      exact absurd rfl hc
  | addCounterTrace other =>
    rw [perform_addCounterTrace]
    rfl
  | updatePacket id di mod time read =>
    rw [perform, DebugDataManager.updatePacket_eq]
    rfl
  | addLatencyTrace from_module_name to_module_name => rfl
  | addThroughputTrace module_name => rfl

/-- No step makes a call that throws. -/
theorem step_not_thrown {x : Step} {c : Call} (hx : x.call = some c)
    (h : (session cv cp).step s x = some s') : (perform c s.data_manager).1 ≠ .thrown := by
  obtain ⟨-, h⟩ := step_eq_some.mp h
  cases x with
  | request r =>
    cases r with
    | StartTracing msg =>
      cases hx
      obtain ⟨id, hid, -⟩ := handleStartTracing_eq msg s
      rw [hid]
      simp
    | _ => cases hx
  | event e =>
    cases e with
    | counter_updated name value time =>
      cases hx
      obtain ⟨sh, hsh, -⟩ := bind_eq_ok.mp h
      obtain ⟨dm, hdm, -⟩ := bind_eq_ok.mp hsh
      have hupdated : s.data_manager.updateCounter name (int32 value.toNat) = some dm := by
        have hdm := ofOption_eq_ok.mp hdm
        split at hdm <;> exact hdm
      rw [perform, hupdated]
      simp
    | data_written mod data time | data_read mod data time =>
      simp only [Step.call, Event.call, Option.ite_none_right_eq_some, Option.some.injEq] at hx
      rw [← hx.2]
      simp [perform]
    | counter_added name time | counter_removed name time =>
      cases hx
      simp [perform]
    | data_dropped mod data reason time | activity kind time | simulation_end => cases hx
  | start | resume | reply => cases hx

/-- A counter is what the news of it tell. -/
theorem counters_of_replay (h : (session cv cp).replay { control_plane := cp } es = some s)
    (name : String) : s.data_manager.counters[name]? = News.told (news name es) := by
  induction es using List.reverseRecOn generalizing s with
  | nil =>
    cases h
    simp [news, calls, News.told, News.current]
  | append_singleton es x ih =>
    rw [System.replay_append] at h
    obtain ⟨t, ht, h⟩ := Option.bind_eq_some_iff.mp h
    obtain ⟨t', hx, heq⟩ := Option.bind_eq_some_iff.mp h
    cases heq
    have hcounters := congrArg Records.counters (step_records hx)
    change s.data_manager.counters = (t.data_manager.called x.call).counters at hcounters
    rw [hcounters, news, calls, filterMap_concat, List.filterMap_append]
    cases hcall : x.call with
    | none =>
      rw [Option.toList_none, List.filterMap_nil, List.append_nil]
      exact ih ht
    | some c =>
      have hcalled := counters_called (step_not_thrown hcall hx) name
      rw [ih ht] at hcalled
      refine hcalled.trans ?_
      rw [Option.toList_some]
      cases hnews : c.news name with
      | none =>
        rw [List.filterMap_cons_none hnews, List.filterMap_nil, List.append_nil]
        rfl
      | some n =>
        rw [List.filterMap_cons_some hnews, List.filterMap_nil]
        exact (News.told_concat _ n).symm

/-- **Counters.** The list has the counters in the order of their names. The value of a counter
is that of its last update since it was last removed, 0 without one, and -1 if it is not
there. -/
theorem counters_told (h : (session cv cp).replay { control_plane := cp } es = some s)
    (hwaiting : s.waiting = false) :
    (∀ name, (session cv cp).step s (.request (.GetCounter name)) =
      some (s.send (.CounterValue name ((News.told (news name es)).getD (-1))))) ∧
    ∃ rows, (session cv cp).step s (.request .GetAllCounters) =
        some (s.send (.AllCounterValues rows)) ∧
      rows.Pairwise (fun x y => compare x.1 y.1 = .lt) ∧
      ∀ name value, (name, value) ∈ rows ↔ News.told (news name es) = some value := by
  refine ⟨fun name => ?_, _, step_request hwaiting rfl, ?_, fun name value => ?_⟩
  · rw [← counters_of_replay h]
    exact step_request hwaiting rfl
  · exact s.data_manager.counters.ordered_keys_toList
  · rw [← counters_of_replay h]
    exact Maps.mem_toList

/-- A counter and a packet, up to the end of the simulation. -/
def visited : List Step :=
  [.request (.Run none), .start, .event (.counter_added "c" 1), .event (.counter_updated "c" 5 2),
    .event (.data_read "m" ⟨7, true, none⟩ 3), .event (.data_written "m" ⟨7, true, none⟩ 4),
    .event .simulation_end, .reply]

theorem visited_waits : ∃ s, (session decimal none).replay {} visited = some s ∧
    s.waiting = false := by
  have hrun : ((session decimal none).replay {} visited).map Session.waiting = some false := by
    decide +kernel
  exact Option.map_eq_some_iff.mp hrun

theorem visited_events : events 7 (calls visited) = [⟨"m", 3, true⟩, ⟨"m", 4, false⟩] := by
  have hid : int32 (7 : UInt64).toNat = 7 := by decide +kernel
  have hcalls : calls visited = [.addCounter "c", .updateCounter "c" (int32 (5 : UInt64).toNat),
      .updatePacket (int32 (7 : UInt64).toNat) none "m" 3 true,
      .updatePacket (int32 (7 : UInt64).toNat) none "m" 4 false] := rfl
  rw [hcalls, hid]
  rfl

theorem counters_told_visited : ∃ s, (session decimal none).replay {} visited = some s ∧
    (session decimal none).step s (.request (.GetCounter "c")) =
      some (s.send (.CounterValue "c" 5)) := by
  obtain ⟨s, hs, hwaiting⟩ := visited_waits
  have htold : (News.told (news "c" visited)).getD (-1) = 5 := by decide +kernel
  have hcounter := (counters_told hs hwaiting).1 "c"
  rw [htold] at hcounter
  exact ⟨s, hs, hcounter⟩

theorem packets_told_visited : ∃ s rows, (session decimal none).replay {} visited = some s ∧
    (session decimal none).step s (.request (.GetPacketList none)) =
      some (s.send (.PacketListValues rows)) ∧ (7, "m", 3) ∈ rows := by
  obtain ⟨s, hs, hwaiting⟩ := visited_waits
  obtain ⟨rows, hstep, -, hrows⟩ := packets_told hs hwaiting none
  refine ⟨s, rows, hs, hstep, (hrows 7 "m" 3).mpr ⟨?_, .inl rfl, by decide +kernel⟩⟩
  rw [visited_events]
  rfl

theorem backtrace_told_visited : ∃ s tr, (session decimal none).replay {} visited = some s ∧
    (session decimal none).step s (.request (.Backtrace (some "7"))) =
      some (s.send (.BacktraceReply 7 tr)) ∧
    Faithful [⟨"m", 3, true⟩, ⟨"m", 4, false⟩] tr := by
  obtain ⟨s, hs, hwaiting⟩ := visited_waits
  have hid : backtraceId (some "7") s = .ok 7 := by rfl
  obtain ⟨tr, hstep, hfaithful⟩ := (backtrace_told hs hwaiting hid).2 (by rw [visited_events]; simp)
  refine ⟨s, tr, hs, hstep, visited_events ▸ hfaithful ?_⟩
  rw [visited_events]
  constructor
  · rw [List.pairwise_pair]
    decide
  · simp only [List.mem_cons, List.not_mem_nil, or_false, forall_eq_or_imp, forall_eq]
    decide

end Pfp.Db
