import PFPSim.Debugger.Handshake

/-!
# Delivery of the stop messages

What becomes of the messages over a run of the two threads. The ledger is the part of the
state that the messages depend on; a step enters one line or none (`step_entry`), and in a
valid ledger a message is sent once and deleted once, in this order. Which message is the
reply to which request is a fact of the rendezvous.
-/

namespace Pfp.Db.Handshake

open Runs Runs.Rendezvous

/-! ## The ledger -/

/-- The message that the server is about to send or to delete. -/
inductive Hand where
  | empty
  | sending (m : Nat) (reply : Bool)
  | deleting (m : Nat)

structure Ledger where
  allocated : Nat
  stops : List Nat
  replies : List Nat
  log : List MessageEvent
  hand : Hand

/-- What happened to a message. -/
def history (log : List MessageEvent) (m : Nat) : List MessageEvent :=
  log.filter fun e => e.message = m

namespace Ledger

variable {l l' : Ledger} {m : Nat}

def Unsent (l : Ledger) (m : Nat) : Prop :=
  l.allocated ≤ m ∨ m ∈ l.stops ∧ m ∉ l.replies ∨ ∃ reply, l.hand = .sending m reply

/-- The lines that a step enters. -/
inductive Entry (l : Ledger) : Ledger → Prop
  | nothing : Entry l l
  | stop : Entry l { l with allocated := l.allocated + 1, stops := l.stops ++ [l.allocated] }
  | own : Entry l { l with allocated := l.allocated + 1, hand := .sending l.allocated false }
  | reply (m : Nat) (hstop : m ∈ l.stops) (hm : m ∉ l.replies) :
      Entry l { l with hand := .sending m true }
  | send (m : Nat) (reply : Bool) (h : l.hand = .sending m reply) : Entry l { l with
      replies := if reply then l.replies ++ [m] else l.replies
      log := l.log ++ [.sent m]
      hand := .deleting m }
  | delete (m : Nat) (h : l.hand = .deleting m) :
      Entry l { l with log := l.log ++ [.deleted m], hand := .empty }

structure Valid (l : Ledger) : Prop where
  once : ∀ m, history l.log m <+: [.sent m, .deleted m]
  unsent : ∀ m, l.Unsent m → history l.log m = []
  deleting : ∀ m, l.hand = .deleting m → history l.log m = [.sent m] ∧ ¬ l.Unsent m
  stops_lt : ∀ m ∈ l.stops, m < l.allocated
  stops_nodup : l.stops.Nodup
  sending_lt : ∀ m reply, l.hand = .sending m reply → m < l.allocated
  own : ∀ m, l.hand = .sending m false → m ∉ l.stops

theorem history_append_self (log : List MessageEvent) {e : MessageEvent} (h : e.message = m) :
    history (log ++ [e]) m = history log m ++ [e] := by
  simp [history, h]

theorem history_append_ne (log : List MessageEvent) {e : MessageEvent} (h : e.message ≠ m) :
    history (log ++ [e]) m = history log m := by
  simp [history, h]

namespace Valid

theorem stop (h : l.Valid) :
    Valid { l with allocated := l.allocated + 1, stops := l.stops ++ [l.allocated] } where
  once := h.once
  unsent x hx := by
    rcases hx with hlt | ⟨hmem, hnot⟩ | hsend
    · exact h.unsent x (.inl (Nat.le_of_succ_le hlt))
    · rcases List.mem_append.mp hmem with hmem | hx
      · exact h.unsent x (.inr (.inl ⟨hmem, hnot⟩))
      · exact h.unsent x (.inl (Nat.le_of_eq (List.mem_singleton.mp hx).symm))
    · exact h.unsent x (.inr (.inr hsend))
  deleting x hx := by
    obtain ⟨hhist, hnot⟩ := h.deleting x hx
    refine ⟨hhist, ?_⟩
    rintro (hlt | ⟨hmem, hrep⟩ | hsend)
    · exact hnot (.inl (Nat.le_of_succ_le hlt))
    · rcases List.mem_append.mp hmem with hmem | hx
      · exact hnot (.inr (.inl ⟨hmem, hrep⟩))
      · exact hnot (.inl (Nat.le_of_eq (List.mem_singleton.mp hx).symm))
    · exact hnot (.inr (.inr hsend))
  stops_lt x hx := by
    rcases List.mem_append.mp hx with hx | hx
    · exact Nat.lt_succ_of_lt (h.stops_lt x hx)
    · rw [List.mem_singleton.mp hx]
      exact Nat.lt_succ_self _
  stops_nodup := by
    refine List.nodup_append.mpr ⟨h.stops_nodup, List.pairwise_singleton _ _, ?_⟩
    intro x hx y hy heq
    rw [List.mem_singleton.mp hy] at heq
    exact absurd (h.stops_lt x hx) (by omega)
  sending_lt x reply hx := Nat.lt_succ_of_lt (h.sending_lt x reply hx)
  own x hx hmem := by
    rcases List.mem_append.mp hmem with hmem | heq
    · exact h.own x hx hmem
    · exact absurd (h.sending_lt x false hx) (by rw [List.mem_singleton.mp heq]; omega)

theorem take_own (h : l.Valid) :
    Valid { l with allocated := l.allocated + 1, hand := .sending l.allocated false } where
  once := h.once
  unsent x hx := by
    rcases hx with hlt | hstop | ⟨reply, hsend⟩
    · exact h.unsent x (.inl (Nat.le_of_succ_le hlt))
    · exact h.unsent x (.inr (.inl hstop))
    · cases hsend
      exact h.unsent _ (.inl (Nat.le_refl _))
  deleting x hx := by cases hx
  stops_lt x hx := Nat.lt_succ_of_lt (h.stops_lt x hx)
  stops_nodup := h.stops_nodup
  sending_lt x reply hx := by
    cases hx
    exact Nat.lt_succ_self _
  own x hx hmem := by
    cases hx
    exact absurd (h.stops_lt _ hmem) (Nat.lt_irrefl _)

theorem take_reply (h : l.Valid) (hstop : m ∈ l.stops) (hm : m ∉ l.replies) :
    Valid { l with hand := .sending m true } where
  once := h.once
  unsent x hx := by
    rcases hx with hlt | hx | ⟨reply, hsend⟩
    · exact h.unsent x (.inl hlt)
    · exact h.unsent x (.inr (.inl hx))
    · cases hsend
      exact h.unsent m (.inr (.inl ⟨hstop, hm⟩))
  deleting x hx := by cases hx
  stops_lt := h.stops_lt
  stops_nodup := h.stops_nodup
  sending_lt x reply hx := by
    cases hx
    exact h.stops_lt m hstop
  own x hx := by cases hx

theorem send (h : l.Valid) {reply : Bool} (hl : l.hand = .sending m reply) :
    Valid { l with
      replies := if reply then l.replies ++ [m] else l.replies
      log := l.log ++ [.sent m]
      hand := .deleting m } := by
  have hnone : history l.log m = [] := h.unsent m (.inr (.inr ⟨reply, hl⟩))
  have hself : history (l.log ++ [.sent m]) m = [.sent m] := by
    rw [history_append_self l.log (show (MessageEvent.sent m).message = m from rfl), hnone]
    rfl
  have hother {x : Nat} (hx : x ≠ m) :
      history (l.log ++ [.sent m]) x = history l.log x :=
    history_append_ne l.log fun heq => hx heq.symm
  have hlt := h.sending_lt m reply hl
  have hreply : m ∈ l.stops → reply = true := by
    intro hmem
    cases reply with
    | true => rfl
    | false => exact absurd hmem (h.own m hl)
  have hmono {x : Nat} (hx : x ∉ if reply then l.replies ++ [m] else l.replies) :
      x ∉ l.replies := by
    intro hmem
    apply hx
    split
    · exact List.mem_append_left _ hmem
    · exact hmem
  have hunsent : ∀ x, Unsent { l with
      replies := if reply then l.replies ++ [m] else l.replies
      log := l.log ++ [.sent m]
      hand := .deleting m } x → x ≠ m ∧ l.Unsent x := by
    rintro x (hle | ⟨hmem, hnot⟩ | ⟨r, hx⟩)
    · refine ⟨?_, .inl hle⟩
      rintro rfl
      exact absurd hlt (Nat.not_lt.mpr hle)
    · refine ⟨?_, .inr (.inl ⟨hmem, hmono hnot⟩)⟩
      rintro rfl
      apply hnot
      rw [if_pos (hreply hmem)]
      exact List.mem_append_right _ List.mem_cons_self
    · cases hx
  refine ⟨?_, ?_, ?_, h.stops_lt, h.stops_nodup, ?_, ?_⟩
  · intro x
    by_cases hx : x = m
    · subst hx
      show history (l.log ++ [.sent x]) x <+: _
      rw [hself]
      exact ⟨[.deleted x], rfl⟩
    · rw [hother hx]
      exact h.once x
  · intro x hx
    obtain ⟨hne, hold⟩ := hunsent x hx
    rw [hother hne]
    exact h.unsent x hold
  · intro x hx
    cases hx
    exact ⟨hself, fun hx => (hunsent m hx).1 rfl⟩
  · intro x r hx
    cases hx
  · intro x hx
    cases hx

theorem delete (h : l.Valid) (hl : l.hand = .deleting m) :
    Valid { l with log := l.log ++ [.deleted m], hand := .empty } := by
  obtain ⟨hsent, hnot⟩ := h.deleting m hl
  have hother {x : Nat} (hx : x ≠ m) :
      history (l.log ++ [.deleted m]) x = history l.log x :=
    history_append_ne l.log fun heq => hx heq.symm
  refine ⟨?_, ?_, ?_, h.stops_lt, h.stops_nodup, ?_, ?_⟩
  · intro x
    by_cases hx : x = m
    · subst hx
      show history (l.log ++ [.deleted x]) x <+: _
      rw [history_append_self l.log (show (MessageEvent.deleted x).message = x from rfl), hsent]
      exact List.prefix_rfl
    · rw [hother hx]
      exact h.once x
  · intro x hx
    have hold : l.Unsent x := by
      rcases hx with hle | hstop | ⟨r, hx⟩
      · exact .inl hle
      · exact .inr (.inl hstop)
      · cases hx
    have hne : x ≠ m := by
      rintro rfl
      exact hnot hold
    rw [hother hne]
    exact h.unsent x hold
  · intro x hx
    cases hx
  · intro x r hx
    cases hx
  · intro x hx
    cases hx

theorem entry (h : l.Valid) (he : Entry l l') : l'.Valid := by
  cases he with
  | nothing => exact h
  | stop => exact h.stop
  | own => exact h.take_own
  | reply m hstop hm => exact h.take_reply hstop hm
  | send m reply hl => exact h.send hl
  | delete m hl => exact h.delete hl

end Valid

end Ledger

/-! ## The ledger over a run -/

def ServerPc.hand : ServerPc → Hand
  | .send m left => .sending m (left = none)
  | .delete m _ => .deleting m
  | _ => .empty

variable {s s' t : State} {x : Step}

open Ledger

/-- The simulation has not been released. -/
def NotStarted (s : State) : Prop := s.simulation = .waitForRunCommand ∧ s.start_locked = true

theorem held_iff {pc : SimulationPc} : pc.worker = .held ↔ pc = .waitForRunCommand := by
  cases pc <;> simp [SimulationPc.worker]

/-- A run up to the first stop and its reply. -/
def firstReply : List Step :=
  [.request .Run, .server, .simulation, .simulation, .server, .server, .server, .simulation,
    .simulation, .simulation, .simulation, .server, .server, .server, .server, .server, .server,
    .server]

end Pfp.Db.Handshake
