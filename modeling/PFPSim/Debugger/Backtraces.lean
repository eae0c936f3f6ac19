import PFPSim.Debugger.Calls

/-!
# Backtraces

The trace of a packet against the reads and writes of the packet (`Faithful`). A write
closes the last entry of its module that is open, found by a search from the end, or makes
an entry of its own (`Attached`).
-/

namespace Pfp.Db

open Runs

/-- A read or write of a packet. -/
structure PacketEvent where
  mod : String
  time : ℚ
  read : Bool

def Call.event (p : Int) : Call → Option PacketEvent
  | .updatePacket id _ mod time read => if id = p then some ⟨mod, time, read⟩ else none
  | _ => none

/-- The events of packet `p`. -/
def events (p : Int) (h : List Call) : List PacketEvent := h.filterMap (Call.event p)

theorem events_concat (p : Int) (h : List Call) (c : Call) :
    events p (h ++ [c]) = events p h ++ (c.event p).toList := filterMap_concat ..

/-- The recorded trace of packet `p`. -/
def backtrace (dm : DebugDataManager) (p : Int) : List PacketLocation :=
  ((dm.packet_list[p]?).map DebuggerPacket.trace).getD []

/-- The entry has no write time yet and is one of the module. -/
def Open (mod : String) (pl : PacketLocation) : Prop := pl.module_name = mod ∧ pl.write_time = -1

/-- The trace behind a write: the last open entry of the module is closed, or there is none. -/
inductive Attached (mod : String) (time : ℚ) (tr : List PacketLocation) :
    List PacketLocation → Prop
  | closes {front back : List PacketLocation} {pl : PacketLocation}
      (htr : tr = front ++ pl :: back) (hopen : Open mod pl) (hlast : ∀ x ∈ back, ¬ Open mod x) :
      Attached mod time tr (front ++ { pl with write_time := time } :: back)
  | writes (hnone : ∀ x ∈ tr, ¬ Open mod x) :
      Attached mod time tr (tr ++ [{ module_name := mod, write_time := time }])

theorem closeLast_eq_some {mod : String} {time : ℚ} {l l' : List PacketLocation}
    (h : DebuggerPacket.closeLast mod time l = some l') : ∃ front pl back,
      l = front ++ pl :: back ∧ Open mod pl ∧ (∀ x ∈ front, ¬ Open mod x) ∧
        l' = front ++ { pl with write_time := time } :: back := by
  induction l generalizing l' with
  | nil => cases h
  | cons pl rest ih =>
    rw [DebuggerPacket.closeLast] at h
    split at h
    · rename_i hopen
      cases h
      exact ⟨[], pl, rest, rfl, hopen, by simp, rfl⟩
    · rename_i hopen
      obtain ⟨l'', hl'', rfl⟩ := Option.map_eq_some_iff.mp h
      obtain ⟨front, x, back, rfl, hx, hfront, rfl⟩ := ih hl''
      exact ⟨pl :: front, x, back, rfl, hx, List.forall_mem_cons.mpr ⟨hopen, hfront⟩, rfl⟩

theorem closeLast_eq_none {mod : String} {time : ℚ} {l : List PacketLocation}
    (h : DebuggerPacket.closeLast mod time l = none) : ∀ x ∈ l, ¬ Open mod x := by
  induction l with
  | nil => simp
  | cons pl rest ih =>
    rw [DebuggerPacket.closeLast] at h
    split at h
    · cases h
    · rename_i hopen
      exact List.forall_mem_cons.mpr ⟨hopen, ih (Option.map_eq_none_iff.mp h)⟩

theorem updateTraceWriteTime_attached (pk : DebuggerPacket) (mod : String) (time : ℚ) :
    Attached mod time pk.trace (pk.updateTraceWriteTime mod time).trace := by
  unfold DebuggerPacket.updateTraceWriteTime
  split
  · rename_i l hl
    obtain ⟨front, pl, back, htr, hopen, hfront, rfl⟩ := closeLast_eq_some hl
    have htrace : pk.trace = back.reverse ++ pl :: front.reverse := by
      have hreverse := congrArg List.reverse htr
      rw [List.reverse_reverse] at hreverse
      simp [hreverse]
    simp only [List.reverse_append, List.reverse_cons, List.append_assoc, List.singleton_append]
    exact .closes htrace hopen fun x hx => hfront x (List.mem_reverse.mp hx)
  · rename_i hnone
    exact .writes fun x hx => closeLast_eq_none hnone x (List.mem_reverse.mpr hx)

/-! ## Calls -/

theorem backtrace_eq (dm : DebugDataManager) (id : Int) (mod : String) (time : ℚ) :
    backtrace dm id = (dm.packet id mod time).trace := by
  unfold backtrace DebugDataManager.packet
  cases dm.packet_list[id]? <;> rfl

theorem updatePacket_packet_list (dm : DebugDataManager) (id p : Int) (di : Option DebugInfo)
    (mod : String) (time : ℚ) (read : Bool) :
    (dm.updatePacket id di mod time read).2.packet_list[p]? = if id = p then
      some (DebugDataManager.touched di mod time read (dm.packet id mod time))
      else dm.packet_list[p]? := by
  rw [DebugDataManager.updatePacket_eq]
  exact Maps.get_insert ..

/-- The packets without an event stay as they are. -/
theorem perform_packet_list {c : Call} {p : Int} (hc : c.event p = none) (dm : DebugDataManager) :
    (perform c dm).2.packet_list[p]? = dm.packet_list[p]? := by
  cases c with
  | updatePacket id di mod time read =>
    have hid : ¬ id = p := by simpa [Call.event] using hc
    exact (updatePacket_packet_list ..).trans (if_neg hid)
  | updateCounter name val => rw [perform_updateCounter]
  | addCounterTrace name => rw [perform_addCounterTrace]
  | _ => rfl

theorem updatePacket_backtrace (dm : DebugDataManager) (id : Int) (di : Option DebugInfo)
    (mod : String) (time : ℚ) (read : Bool) :
    backtrace (dm.updatePacket id di mod time read).2 id =
      (DebugDataManager.touched di mod time read (dm.packet id mod time)).trace := by
  rw [backtrace, updatePacket_packet_list, if_pos rfl]
  rfl

theorem perform_backtrace {c : Call} {p : Int} (hc : c.event p = none) (dm : DebugDataManager) :
    backtrace (perform c dm).2 p = backtrace dm p := by
  rw [backtrace, backtrace, perform_packet_list hc]

theorem read_backtrace (dm : DebugDataManager) (p : Int) (di : Option DebugInfo) (mod : String)
    (time : ℚ) : backtrace (perform (.updatePacket p di mod time true) dm).2 p =
      backtrace dm p ++ [{ module_name := mod, read_time := time }] := by
  refine (updatePacket_backtrace ..).trans ?_
  rw [backtrace_eq dm p mod time]
  rfl

theorem write_backtrace (dm : DebugDataManager) (p : Int) (di : Option DebugInfo) (mod : String)
    (time : ℚ) : Attached mod time (backtrace dm p)
      (backtrace (perform (.updatePacket p di mod time false) dm).2 p) := by
  have hwrite : backtrace (perform (.updatePacket p di mod time false) dm).2 p =
      (((dm.packet p mod time).setDebugInfo di).updateTraceWriteTime mod time).trace :=
    updatePacket_backtrace ..
  rw [hwrite, backtrace_eq dm p mod time]
  exact updateTraceWriteTime_attached ((dm.packet p mod time).setDebugInfo di) mod time

/-! ## Histories of a packet -/

/-- The times do not decrease and are not negative. -/
def Timely (es : List PacketEvent) : Prop :=
  es.Pairwise (fun e e' => e.time ≤ e'.time) ∧ ∀ e ∈ es, 0 ≤ e.time

/-- The entries with a read time and those with a write time, as module and time. -/
def readsOf (tr : List PacketLocation) : List (String × ℚ) :=
  (tr.filter fun x => x.read_time ≠ -1).map fun x => (x.module_name, x.read_time)

def writesOf (tr : List PacketLocation) : List (String × ℚ) :=
  (tr.filter fun x => x.write_time ≠ -1).map fun x => (x.module_name, x.write_time)

/-- The trace tells the events, and no others. -/
structure Faithful (es : List PacketEvent) (tr : List PacketLocation) : Prop where
  reads : readsOf tr = (es.filter fun e => e.read).map fun e => (e.mod, e.time)
  writes : (writesOf tr).Perm ((es.filter fun e => !e.read).map fun e => (e.mod, e.time))
  ordered : ∀ x ∈ tr, x.read_time ≠ -1 → x.write_time ≠ -1 → x.read_time ≤ x.write_time
  visited : ∀ x ∈ tr, x.read_time ≠ -1 ∨ x.write_time ≠ -1

theorem ne_sentinel {t : ℚ} (h : 0 ≤ t) : t ≠ -1 := by
  rintro rfl
  exact absurd h (by decide)

namespace Faithful

variable {es : List PacketEvent} {tr tr' : List PacketLocation} {mod : String} {time : ℚ}

theorem read (h : Faithful es tr) (htime : 0 ≤ time) :
    Faithful (es ++ [⟨mod, time, true⟩]) (tr ++ [{ module_name := mod, read_time := time }]) where
  reads := by
    have hreads := h.reads
    unfold readsOf at hreads ⊢
    simpa [ne_sentinel htime] using hreads
  writes := by
    have hwrites := h.writes
    unfold writesOf at hwrites ⊢
    simpa using hwrites
  ordered := by
    simpa [or_imp, forall_and] using h.ordered
  visited := by
    simpa [or_imp, forall_and, ne_sentinel htime] using h.visited

/-- A read of the trace is one of the events. -/
theorem read_le (h : Faithful es tr) (hlast : ∀ e ∈ es, e.time ≤ time) {x : PacketLocation}
    (hx : x ∈ tr) (hread : x.read_time ≠ -1) : x.read_time ≤ time := by
  have hmem : (x.module_name, x.read_time) ∈ readsOf tr :=
    List.mem_map.mpr ⟨x, List.mem_filter.mpr ⟨hx, by simpa using hread⟩, rfl⟩
  rw [h.reads] at hmem
  obtain ⟨e, he, heq⟩ := List.mem_map.mp hmem
  obtain ⟨-, htime⟩ := Prod.mk.inj heq
  rw [← htime]
  exact hlast e (List.mem_filter.mp he).1

theorem write (h : Faithful es tr) (htime : 0 ≤ time) (hlast : ∀ e ∈ es, e.time ≤ time)
    (hattached : Attached mod time tr tr') : Faithful (es ++ [⟨mod, time, false⟩]) tr' := by
  cases hattached with
  | @closes front back pl htr hopen hback =>
    subst htr
    obtain ⟨rfl, hwrite⟩ := hopen
    have hpl : pl ∈ front ++ pl :: back := List.mem_append_right _ List.mem_cons_self
    refine ⟨?_, ?_, ?_, ?_⟩
    · have hreads := h.reads
      unfold readsOf at hreads ⊢
      by_cases hread : pl.read_time = -1 <;> simpa [hread] using hreads
    · have hwrites := h.writes
      unfold writesOf at hwrites ⊢
      simp only [List.filter_append, List.filter_cons, hwrite, ne_sentinel htime, ne_eq,
        not_true_eq_false, not_false_eq_true, decide_true, decide_false, if_true, if_false,
        Bool.false_eq_true, List.map_append, List.map_cons] at hwrites ⊢
      refine List.perm_middle.trans ((hwrites.cons _).trans ?_)
      simpa using (List.perm_append_singleton _ _).symm
    · intro x hx hread hwritten
      rcases List.mem_append.mp hx with hx | hx
      · exact h.ordered x (List.mem_append_left _ hx) hread hwritten
      · rcases List.mem_cons.mp hx with rfl | hx
        · exact h.read_le (x := pl) hlast hpl hread
        · exact h.ordered x (List.mem_append_right _ (List.mem_cons_of_mem _ hx)) hread hwritten
    · intro x hx
      rcases List.mem_append.mp hx with hx | hx
      · exact h.visited x (List.mem_append_left _ hx)
      · rcases List.mem_cons.mp hx with rfl | hx
        · exact .inr (ne_sentinel htime)
        · exact h.visited x (List.mem_append_right _ (List.mem_cons_of_mem _ hx))
  | writes hnone =>
    refine ⟨?_, ?_, ?_, ?_⟩
    · have hreads := h.reads
      unfold readsOf at hreads ⊢
      simpa using hreads
    · have hwrites := h.writes
      unfold writesOf at hwrites ⊢
      simpa [ne_sentinel htime] using hwrites.append_right [(mod, time)]
    · simpa [or_imp, forall_and] using h.ordered
    · simpa [or_imp, forall_and, ne_sentinel htime] using h.visited

end Faithful

theorem Timely.concat {es : List PacketEvent} {e : PacketEvent} (h : Timely (es ++ [e])) :
    Timely es ∧ 0 ≤ e.time ∧ ∀ e' ∈ es, e'.time ≤ e.time := by
  obtain ⟨hsorted, hnonneg⟩ := h
  obtain ⟨hes, -, hle⟩ := List.pairwise_append.mp hsorted
  refine ⟨⟨hes, fun e' he' => hnonneg e' (List.mem_append_left _ he')⟩, ?_, ?_⟩
  · exact hnonneg e (List.mem_append_right _ List.mem_cons_self)
  · exact fun e' he' => hle e' he' e List.mem_cons_self

theorem faithful_of_timely (h : List Call) (p : Int) (htimes : Timely (events p h)) :
    Faithful (events p h) (backtrace (dataManager.after h) p) := by
  induction h using List.reverseRecOn with
  | nil =>
    have hnil : backtrace (dataManager.after []) p = [] := by simp [backtrace, dataManager]
    rw [hnil]
    exact ⟨rfl, .refl _, by simp, by simp⟩
  | append_singleton h c ih =>
    rw [dataManager.after_concat]
    rw [events_concat] at htimes ⊢
    cases hc : c.event p with
    | none =>
      rw [hc, Option.toList_none, List.append_nil] at htimes
      rw [Option.toList_none, List.append_nil]
      show Faithful _ (backtrace (perform c _).2 p)
      rw [perform_backtrace hc]
      exact ih htimes
    | some e =>
      rw [hc, Option.toList_some] at htimes
      obtain ⟨hes, htime, hlast⟩ := htimes.concat
      have ih := ih hes
      cases c with
      | updatePacket id di mod time read =>
        simp only [Call.event, Option.ite_none_right_eq_some, Option.some.injEq] at hc
        obtain ⟨rfl, rfl⟩ := hc
        rw [Option.toList_some]
        show Faithful _ (backtrace (perform (.updatePacket id di mod time read) _).2 id)
        cases read with
        | true =>
          rw [read_backtrace]
          exact ih.read htime
        | false => exact ih.write htime hlast (write_backtrace ..)
      | _ => cases hc

/-- **The trace of a packet** tells its reads in order and its writes, each write attached
to the last open entry of its module. -/
theorem backtrace_faithful (h : List Call) (p : Int) (htimes : Timely (events p h)) :
    Faithful (events p h) (backtrace (dataManager.after h) p) ∧
      ∀ before di mod time after, h = before ++ .updatePacket p di mod time false :: after →
        Attached mod time (backtrace (dataManager.after before) p)
          (backtrace (dataManager.after (before ++ [.updatePacket p di mod time false])) p) := by
  refine ⟨faithful_of_timely h p htimes, fun before di mod time after _ => ?_⟩
  rw [dataManager.after_concat]
  exact write_backtrace ..

/-- A packet that comes to `m` twice before it leaves it, and leaves `n` where it never was. -/
def revisit : List Call :=
  [.updatePacket 7 none "m" 0 true, .updatePacket 7 none "m" 1 true,
    .updatePacket 7 none "m" 2 false, .updatePacket 7 none "n" 3 false]

theorem backtrace_revisit : Timely (events 7 revisit) ∧
    Faithful (events 7 revisit) (backtrace (dataManager.after revisit) 7) := by
  have htimes : Timely (events 7 revisit) := by
    show Timely [⟨"m", 0, true⟩, ⟨"m", 1, true⟩, ⟨"m", 2, false⟩, ⟨"n", 3, false⟩]
    constructor
    · simp only [List.pairwise_cons, List.mem_cons, List.not_mem_nil, or_false, forall_eq_or_imp,
        forall_eq, IsEmpty.forall_iff, implies_true, List.Pairwise.nil, and_true]
      decide
    · simp only [List.mem_cons, List.not_mem_nil, or_false, forall_eq_or_imp, forall_eq]
      decide
  exact ⟨htimes, (backtrace_faithful revisit 7 htimes).1⟩

end Pfp.Db
