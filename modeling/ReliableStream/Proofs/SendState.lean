import ReliableStream.Proofs.Motion

namespace ReliableStream

def Phase.sends (p : Phase) : Prop :=
  p = .synSent ∨ p = .established ∨ p = .stopReceived ∨ p = .stopSent ∨ p = .closing

theorem Phase.sends_iff {p : Phase} : p.sends ↔ ¬(p = .closed ∨ p = .synReceived) := by
  cases p <;> simp [sends]

namespace Side

variable {cfg : Settings} {room : Nat} {k : SocketPair} {op : Station.Op} {r : Station.Reply}
  {e e' : Side} {s : Segment} {kind : Kind}

def Stopping (e : Side) : Prop :=
  e.win.stopped = true → e.phase = .stopReceived ∨ e.phase = .closing

namespace Stopping

theorem of_running (h : e.win.stopped = false) : e.Stopping := by
  intro hs
  rw [h] at hs
  cases hs

theorem of_phase (h : e.phase = .stopReceived ∨ e.phase = .closing) : e.Stopping := fun _ => h

theorem of_same (h : e.Stopping) (hw : e'.win.stopped = e.win.stopped) (hp : e'.phase = e.phase) :
    e'.Stopping := by
  rw [Stopping, hw, hp]
  exact h

theorem running (h : e.Stopping) (hp : ¬(e.phase = .stopReceived ∨ e.phase = .closing)) :
    e.win.stopped = false :=
  Bool.eq_false_iff.2 fun hs => hp (h hs)

theorem swept (h : e.Stopping) : e.swept.Stopping := h.of_same rfl (phase_swept e)

end Stopping

theorem stopped_acked (e : Side) (seq : SequenceNumber) :
    (e.acked seq).win.stopped = e.win.stopped := by
  rw [win_acked]

theorem stopping_forgotten (e : Side) : e.forgotten.Stopping := .of_running rfl

theorem Hears.stopping (hs : Hears room k s kind e e') (h : e.Stopping) : e'.Stopping := by
  cases hs with
  | noted => exact Stopping.swept (h.of_same (stopped_acked e s.seq) rfl)
  | opened hc hp =>
    refine .of_running ((stopped_acked e s.seq).trans (h.running ?_))
    simp [phase_of_entry hc, hp]
  | drained => exact .of_phase (.inr rfl)
  | ended => exact stopping_forgotten _
  | knocked hp => exact .of_running (h.running (by simp [hp]))
  | kept hc => exact h.of_same rfl (phase_of_entry hc).symm
  | discarded hc => exact h.of_same rfl (phase_of_entry hc).symm
  | halted => exact .of_phase (.inl rfl)
  | crossed => exact .of_phase (.inr rfl)
  | greeted hc => exact h.of_same rfl (phase_of_entry hc).symm
  | repeated hc => exact h.of_same rfl (phase_of_entry hc).symm
  | collided => exact stopping_forgotten _
  | finished => exact Stopping.swept (.of_running rfl)
  | finishedAgain hc => exact Stopping.swept (h.of_same rfl (phase_of_entry hc).symm)
  | misplaced => exact h.swept
  | strange | strangeFin | stale | early | full => exact h

theorem Step.stopping (hs : Step cfg k op r e e') (h : e.Stopping) : e'.Stopping := by
  cases hs with
  | heard _ _ _ hh => exact hh.stopping h
  | dialled he =>
    have hp : e.phase = .closed := phase_of_none he
    exact .of_running (h.running (by simp [hp]))
  | forgot | expired => exact stopping_forgotten _
  | accepted hc hp => exact .of_running (h.running (by simp [phase_of_entry hc, hp]))
  | read hc => exact Stopping.swept (h.of_same rfl (phase_of_entry hc).symm)
  | wrote => exact h.of_same (by rw [win_pushData]; rfl) (phase_pushData _ _)
  | closedDrained => exact .of_phase (.inr rfl)
  | closedBusy hc hp => exact .of_running (h.running (by simp [phase_of_entry hc, hp]))
  | closedStopped => exact .of_phase (.inr rfl)
  | tickedClosing _ hp => exact .of_phase (.inr hp)
  | readRefused | writeRefused | closedIdle | tickedIdle => exact h.swept
  | polled => exact h.of_same (by simp) rfl
  | apart | passed | readNothing | closeRefused | ticked => exact h

end Side

namespace Station

variable {s : Station} {k : SocketPair}

structure Orderly (s : Station) : Prop where
  filed : s.host.Filed
  sound : ∀ k, (s.host.side k).Sound
  stopping : ∀ k, (s.host.side k).Stopping

theorem orderly_fresh (address : HostId) (recvWindow sendWindow patience : Nat) :
    (fresh address recvWindow sendWindow patience).Orderly :=
  ⟨filed_fresh address recvWindow sendWindow patience, fun _ => Side.Sound.blank,
    fun _ => .of_running rfl⟩

theorem Orderly.step (h : s.Orderly) (op : Op) : (s.step op).1.Orderly where
  filed := (s.step_steady op).filed h.filed
  sound k := (s.step_side h.filed op k).sound (h.sound k)
  stopping k := (s.step_side h.filed op k).stopping (h.stopping k)

theorem Orderly.run (h : s.Orderly) (ops : List Op) : (s.run ops).Orderly := by
  induction ops generalizing s with
  | nil => exact h
  | cons op rest ih => exact ih (h.step op)

structure SendState (s : Station) (k : SocketPair) : Prop where
  sends : s.host.outbox.windows.get? k ≠ none ∨ (∃ x ∈ s.host.outbox.resends, x.senderPair = k) →
    ∃ c, s.host.table.get? k = some c ∧ c.phase.sends
  stopped : ∀ w, s.host.outbox.windows.get? k = some w → w.stopped = true →
    ∃ c, s.host.table.get? k = some c ∧ (c.phase = .stopReceived ∨ c.phase = .closing)
  idle : (∀ c, s.host.table.get? k = some c → c.phase = .closed ∨ c.phase = .synReceived) →
    s.host.outbox.windows.get? k = none ∧ ∀ x ∈ s.host.outbox.resends, x.senderPair ≠ k
  writes : ∀ c, s.host.table.get? k = some c → c.phase = .established →
    ∀ data, (s.write k data).2 = .ok data.length

theorem side_resends_eq_nil :
    (s.host.side k).resends = [] ↔ ∀ x ∈ s.host.outbox.resends, x.senderPair ≠ k := by
  simp [Host.side, Side.of]

theorem exists_entry_of_phase {P : Phase → Prop} (hc : ¬P .closed)
    (hp : P (s.host.side k).phase) : ∃ c, s.host.table.get? k = some c ∧ P c.phase := by
  obtain ⟨c, he, hcp⟩ := Side.exists_entry (e := s.host.side k) fun h => hc (h ▸ hp)
  exact ⟨c, he, hcp ▸ hp⟩

theorem write_ok (hp : (s.host.side k).phase = .established)
    (hw : (s.host.side k).win.stopped = false) (data : List UInt8) :
    (s.write k data).2 = .ok data.length := by
  obtain ⟨-, hr⟩ := s.host.sendAll_open (l := payloads data) hp hw
  unfold write
  rw [← Prod.eta (sendAll s.host k (payloads data)), hr]

theorem Orderly.sendState (h : s.Orderly) (k : SocketPair) : s.SendState k := by
  have hsound := h.sound k
  have hstop := h.stopping k
  constructor
  case sends =>
    intro hsend
    refine exists_entry_of_phase (P := Phase.sends) (by simp [Phase.sends]) ?_
    rw [Phase.sends_iff]
    intro hshut
    obtain ⟨hw, hr⟩ := hsound.shut hshut
    rcases hsend with hwin | ⟨x, hx, hk⟩
    · exact hwin hw
    · exact side_resends_eq_nil.1 hr x hx hk
  case stopped =>
    intro w hw hstopped
    refine exists_entry_of_phase (P := fun p => p = .stopReceived ∨ p = .closing) (by simp) ?_
    refine hstop ?_
    rw [Side.win, show (s.host.side k).window = some w from hw]
    exact hstopped
  case idle =>
    intro hidle
    have hshut : (s.host.side k).phase = .closed ∨ (s.host.side k).phase = .synReceived := by
      cases hc : s.host.table.get? k with
      | none => exact .inl (Side.phase_of_none hc)
      | some c =>
        rw [Side.phase_of_entry (e := s.host.side k) hc]
        exact hidle c hc
    obtain ⟨hw, hr⟩ := hsound.shut hshut
    exact ⟨hw, side_resends_eq_nil.1 hr⟩
  case writes =>
    intro c hc hp data
    have hphase : (s.host.side k).phase = .established := (Side.phase_of_entry hc).trans hp
    exact write_ok hphase (hstop.running (by simp [hphase])) data

/-- In every run of a station and for every connection, the windows and what goes out again agree
with the connections: nothing is left behind when a connection ends. -/
theorem send_state_consistent (address : HostId) (recvWindow sendWindow patience : Nat)
    (ops : List Op) (k : SocketPair) :
    ((fresh address recvWindow sendWindow patience).run ops).SendState k :=
  ((orderly_fresh address recvWindow sendWindow patience).run ops).sendState k

end Station

end ReliableStream
