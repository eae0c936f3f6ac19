import PFPSim.Debugger.Backtraces

/-!
# The list of packets

What a packet shows of itself is its location and the time of its last update. A read sets
both and a write sets neither, so they are those of the last read, or of the first event
while there is no read (`packet_shows`). The location is as it should be, and the time is
that of the last update exactly if no later write came at another time
(`packet_list_latest_iff`).
-/

namespace Pfp.Db

open Runs

/-- `getLocation` and `getTime`. -/
def DebuggerPacket.shows (pk : DebuggerPacket) : String × ℚ :=
  (pk.current_location, pk.last_notify_time)

def PacketEvent.shows (e : PacketEvent) : String × ℚ := (e.mod, e.time)

/-- The last read, or the first event if there is no read. -/
def located (es : List PacketEvent) : Option PacketEvent :=
  ((es.filter PacketEvent.read).getLast?).or es.head?

theorem located_concat (es : List PacketEvent) (e : PacketEvent) :
    located (es ++ [e]) = if e.read then some e else (located es).or (some e) := by
  unfold located
  rw [List.filter_append, List.head?_append, List.head?_singleton]
  cases hread : e.read with
  | true => simp [hread]
  | false => simp [hread]

theorem located_eq_none {es : List PacketEvent} : located es = none ↔ es = [] := by
  rw [located, Option.or_eq_none_iff, List.head?_eq_none_iff, and_iff_right_iff_imp]
  rintro rfl
  rfl

/-! ## One call -/

variable {dm : DebugDataManager} {p : Int}

theorem updateTraceWriteTime_shows (pk : DebuggerPacket) (mod : String) (time : ℚ) :
    (pk.updateTraceWriteTime mod time).shows = pk.shows := by
  unfold DebuggerPacket.updateTraceWriteTime
  split
  · rfl
  · rfl

/-- A read is shown, a write is not. -/
theorem touched_shows (di : Option DebugInfo) (mod : String) (time : ℚ) (read : Bool)
    (pk : DebuggerPacket) : (DebugDataManager.touched di mod time read pk).shows =
      if read then (mod, time) else pk.shows := by
  cases read with
  | true => rfl
  | false => exact updateTraceWriteTime_shows (pk.setDebugInfo di) mod time

theorem packet_shows_new (mod : String) (time : ℚ) : (dm.packet p mod time).shows =
    ((dm.packet_list[p]?).map DebuggerPacket.shows).getD (mod, time) := by
  unfold DebugDataManager.packet
  cases dm.packet_list[p]? with
  | none => rfl
  | some pk => rfl

theorem perform_shows {c : Call} {e : PacketEvent} (hc : c.event p = some e) :
    ((perform c dm).2.packet_list[p]?).map DebuggerPacket.shows =
      some (if e.read then e.shows
        else ((dm.packet_list[p]?).map DebuggerPacket.shows).getD e.shows) := by
  cases c with
  | updatePacket id di mod time read =>
    simp only [Call.event, Option.ite_none_right_eq_some, Option.some.injEq] at hc
    obtain ⟨rfl, rfl⟩ := hc
    simp only [perform, updatePacket_packet_list, if_true, Option.map_some, touched_shows,
      packet_shows_new, PacketEvent.shows]
  | _ => cases hc

/-! ## Histories -/

/-- The packet shows the last read, or the first event. -/
theorem packet_shows (h : List Call) (p : Int) :
    ((dataManager.after h).packet_list[p]?).map DebuggerPacket.shows =
      (located (events p h)).map PacketEvent.shows := by
  induction h using List.reverseRecOn with
  | nil => simp [dataManager, events, located]
  | append_singleton h c ih =>
    rw [dataManager.after_concat, events_concat]
    show ((perform c _).2.packet_list[p]?).map _ = _
    cases hc : c.event p with
    | none => rw [perform_packet_list hc, ih, Option.toList_none, List.append_nil]
    | some e =>
      rw [perform_shows hc, ih, Option.toList_some, located_concat]
      split
      · rfl
      · cases located (events p h) with
        | none => rfl
        | some e' => rfl

/-- What the list is documented to show of a packet, after its events. -/
structure Latest (es : List PacketEvent) (pk : DebuggerPacket) : Prop where
  time : (es.getLast?).map PacketEvent.time = some pk.last_notify_time
  location : (located es).map PacketEvent.mod = some pk.current_location

/-- The packets of a history are those with an event. -/
theorem getPacket_isSome (h : List Call) (p : Int) :
    ((dataManager.after h).getPacket p).isSome ↔ events p h ≠ [] := by
  have hshows := congrArg Option.isSome (packet_shows h p)
  rw [Option.isSome_map, Option.isSome_map] at hshows
  rw [DebugDataManager.getPacket, hshows, Option.isSome_iff_ne_none, Ne, located_eq_none]

/-- The location is always right. -/
theorem packet_location {h : List Call} {pk : DebuggerPacket}
    (hpk : (dataManager.after h).getPacket p = some pk) :
    (located (events p h)).map PacketEvent.mod = some pk.current_location := by
  have hshows := congrArg (Option.map Prod.fst) (packet_shows h p)
  rw [DebugDataManager.getPacket] at hpk
  rw [hpk, Option.map_map, Option.map_map] at hshows
  exact hshows.symm

/-- The list shows the last update of a packet exactly if the last event of the packet has
the time of its last read, or of its first event if it was never read. -/
theorem packet_list_latest_iff (h : List Call) (p : Int) :
    (events p h ≠ [] → ∃ pk, (dataManager.after h).getPacket p = some pk ∧
        Latest (events p h) pk) ↔
      (events p h).getLast?.map PacketEvent.time = (located (events p h)).map PacketEvent.time := by
  have hshows := packet_shows h p
  cases hes : events p h with
  | nil => simp [located]
  | cons e es =>
    rw [← hes]
    have hne : events p h ≠ [] := by
      rw [hes]
      exact List.cons_ne_nil e es
    obtain ⟨pk, hpk⟩ := Option.isSome_iff_exists.mp ((getPacket_isSome h p).mpr hne)
    have hlocation := packet_location hpk
    have htime : (located (events p h)).map PacketEvent.time = some pk.last_notify_time := by
      have hsnd := congrArg (Option.map Prod.snd) hshows
      rw [DebugDataManager.getPacket] at hpk
      rw [hpk, Option.map_map, Option.map_map] at hsnd
      exact hsnd.symm
    rw [htime, hpk]
    constructor
    · intro hlatest
      obtain ⟨pk', heq, hlast⟩ := hlatest hne
      rw [Option.some.inj heq]
      exact hlast.time
    · intro hlast _
      exact ⟨pk, rfl, hlast, hlocation⟩

/-- A packet that is read at one time and written at a later one. -/
def readAndWritten : List Call :=
  [.updatePacket 7 none "m" 1 true, .updatePacket 7 none "m" 2 false]

theorem write_not_shown : Timely (events 7 readAndWritten) ∧ events 7 readAndWritten ≠ [] ∧
    ¬ ∃ pk, (dataManager.after readAndWritten).getPacket 7 = some pk ∧
      Latest (events 7 readAndWritten) pk := by
  have hevents : events 7 readAndWritten = [⟨"m", 1, true⟩, ⟨"m", 2, false⟩] := rfl
  have hshows := packet_shows readAndWritten 7
  rw [hevents] at hshows ⊢
  refine ⟨⟨?_, ?_⟩, List.cons_ne_nil _ _, ?_⟩
  · rw [List.pairwise_pair]
    decide
  · simp only [List.mem_cons, List.not_mem_nil, or_false, forall_eq_or_imp, forall_eq]
    decide
  · rintro ⟨pk, hpk, htime, -⟩
    rw [DebugDataManager.getPacket] at hpk
    rw [hpk] at hshows
    have hread : pk.last_notify_time = 1 := congrArg Prod.snd (Option.some.inj hshows)
    have hwritten : (2 : ℚ) = pk.last_notify_time := Option.some.inj htime
    rw [hread] at hwritten
    exact absurd hwritten (by decide)

end Pfp.Db
