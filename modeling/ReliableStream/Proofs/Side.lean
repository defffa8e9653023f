import ReliableStream.Proofs.Outbox
import ReliableStream.Proofs.Table
import ReliableStream.Station.Call

/-!
One host's side of one connection: what the host holds of it, and what an operation of a station
may do to it. `Side.Hears` lists what the arrival of a segment does, `Side.Step` what any operation
does. That these lists are complete is `Station.step_side`.
-/

namespace ReliableStream

structure Settings where
  room : Nat
  limit : Nat
  patience : Nat

/-- The entry, the window, the replies and the segments that go out again, and the SYNs that wait
to be accepted. -/
structure Side where
  entry : Option Connection := none
  window : Option Window := none
  replies : List Segment := []
  resends : List Segment := []
  waiting : List Segment := []

def Side.of (t : Table) (o : Outbox) (k : SocketPair) : Side where
  entry := t.get? k
  window := o.windows.get? k
  replies := o.replies.filter (fun s => s.senderPair = k)
  resends := o.resends.filter (fun s => s.senderPair = k)
  waiting := (t.pending k.near.port).filter (fun s => s.receiverPair = k)

def Host.side (h : Host) (k : SocketPair) : Side := .of h.table h.outbox k

def Phase.again (phase : Phase) : Kind → Option Kind
  | .data | .stp => some .ack
  | .fin => some .finAck
  | .syn => if phase = .established ∨ phase = .closing then some .synAck else none
  | _ => none

def Phase.keeps (phase : Phase) : Prop := phase = .established ∨ phase = .stopReceived

/-- Phases in which the near end has closed and data that arrive are acknowledged and dropped. -/
def Phase.discards (phase : Phase) : Prop := phase = .stopSent ∨ phase = .closing

namespace Station.Op

def wrote (k : SocketPair) : Op → Reply → List UInt8
  | .call (.write j data), .written (.ok _) => if j = k then data else []
  | _, _ => []

def took (k : SocketPair) : Op → Reply → List UInt8
  | .call (.read j _), .filled (.ok filled) =>
    if j = k then filled.buffer.take filled.count else []
  | _, _ => []

def arrival? : Op → Option Segment
  | .receive s => some s
  | .receiveFrame f => (Segment.ofFrame f).toOption
  | _ => none

def settles : Op → Bool
  | .call (.resume _) | .call .resumeAll | .expire _ => true
  | _ => false

end Station.Op

namespace Side

def conn (e : Side) : Connection := e.entry.getD {}

def phase (e : Side) : Phase := e.entry.elim .closed Connection.phase

def win (e : Side) : Window := e.window.getD {}

def enter (e : Side) (c : Connection) : Side := { e with entry := some c }

def push (e : Side) (s : Segment) : Side := { e with window := some (e.win.push s) }

def pushData (e : Side) (k : SocketPair) (payloads : List (List UInt8)) : Side :=
  payloads.foldl (fun e p => e.push (.data k p)) e

def answer (e : Side) (s : Segment) : Side := { e with replies := e.replies ++ [s] }

def acked (e : Side) (seq : SequenceNumber) : Side :=
  { e with window := e.window.map fun w => { w with unacked := w.unacked.erase seq } }

def stopped (e : Side) : Side := { e with window := some { e.win with stopped := true } }

def released (e : Side) : Side := { e with window := none, resends := [] }

def resent (e : Side) : Side :=
  { e with resends := Outbox.addMissing e.resends e.win.unacked.values }

def forgotten (e : Side) : Side := { e.released with entry := none }

def swept (e : Side) : Side := { e with entry := e.entry.filter (fun c => !c.isIdle) }

def sent (e : Side) (limit : Nat) : Side :=
  { e with replies := [], resends := [], window := e.window.map (Window.advance limit) }

def inPhase (e : Side) (p : Phase) : Side :=
  { e with entry := e.entry.map fun c => { c with phase := p } }

def advanced (e : Side) (seq : SequenceNumber) : Side :=
  { e with entry := e.entry.map fun c => { c with expected := seq + 1 } }

def greeted (e : Side) (s : Segment) : Side := { e with waiting := e.waiting ++ [s] }

/-- What the arrival of a segment of this kind does to the side it is for. `room` is how many
segments may be unread. -/
inductive Hears (room : Nat) (k : SocketPair) (s : Segment) : Kind → Side → Side → Prop
  | noted {kind e} : kind.isReply →
      (kind = .synAck → e.phase ≠ .synSent) →
      (kind = .ack → e.phase = .stopSent → (e.acked s.seq).win.isDrained = false) →
      (kind = .finAck → e.phase ≠ .closing ∧ e.phase ≠ .closed) →
      Hears room k s kind e (e.acked s.seq).swept
  | opened {e c} : e.entry = some c → c.phase = .synSent →
      Hears room k s .synAck e
        ((e.acked s.seq).enter { c with phase := .established, waiter := none })
  | drained {e c} : e.entry = some c → c.phase = .stopSent →
      (e.acked s.seq).win.isDrained = true →
      Hears room k s .ack e
        (((e.acked s.seq).push (.control k .fin)).enter { c with phase := .closing })
  | ended {e} : e.phase = .closing ∨ e.phase = .closed →
      Hears room k s .finAck e (e.acked s.seq).forgotten
  | knocked {e} : e.phase = .closed →
      Hears room k s .syn e
        ((e.greeted s).enter
          { e.conn with phase := .synReceived, expected := s.seq + 1, closingTicks := 0 })
  | strange {kind e} : kind = .data ∨ kind = .stp → e.entry = none → Hears room k s kind e e
  | strangeFin {e} : e.entry = none → Hears room k s .fin e (e.answer (s.answer .finAck))
  | stale {kind e c} : kind.isReply = false → e.entry = some c →
      (kind = .syn → c.phase ≠ .closed) → s.seq < c.expected →
      Hears room k s kind e { e with
        replies := e.replies ++ (c.phase.again kind).toList.map s.answer }
  | early {kind e c} : kind.isReply = false → e.entry = some c →
      (kind = .syn → c.phase ≠ .closed) → c.expected < s.seq → Hears room k s kind e e
  | collided {e c} : e.entry = some c → c.phase = .synSent → s.seq = c.expected →
      Hears room k s .syn e e.forgotten
  | kept {e c} : e.entry = some c → c.phase.keeps → s.seq = c.expected → c.unread.length < room →
      Hears room k s .data e ((e.answer (s.answer .ack)).enter
        { c with unread := c.unread ++ [s], expected := s.seq + 1 })
  | full {e c} : e.entry = some c → c.phase.keeps → s.seq = c.expected → room ≤ c.unread.length →
      Hears room k s .data e e
  | discarded {kind e c} : e.entry = some c → s.seq = c.expected →
      kind = .data ∧ c.phase.discards ∨ kind = .stp ∧ c.phase = .closing →
      Hears room k s kind e ((e.answer (s.answer .ack)).enter { c with expected := s.seq + 1 })
  | halted {e c} : e.entry = some c → c.phase = .established → s.seq = c.expected →
      Hears room k s .stp e ((e.answer (s.answer .ack)).stopped.enter
        { c with phase := .stopReceived, expected := s.seq + 1 })
  | crossed {e c} : e.entry = some c → c.phase = .stopSent → s.seq = c.expected →
      Hears room k s .stp e (((e.answer (s.answer .ack)).push (.control k .fin)).enter
        { c with phase := .closing, expected := s.seq + 1 })
  | greeted {e c} : e.entry = some c → c.phase = .established ∨ c.phase = .closing →
      s.seq = c.expected → Hears room k s .syn e
        ((e.answer (s.answer .synAck)).enter { c with expected := s.seq + 1 })
  | repeated {e c} : e.entry = some c → c.phase = .synReceived → s.seq = c.expected →
      Hears room k s .syn e (e.enter { c with expected := s.seq + 1 })
  | finished {e c} : e.entry = some c → c.phase.keeps ∨ c.phase.discards → s.seq = c.expected →
      Hears room k s .fin e ((e.answer (s.answer .finAck)).released.enter
        { c with phase := .closed, expected := s.seq + 1 }).swept
  | finishedAgain {e c} : e.entry = some c → c.phase = .closed → s.seq = c.expected →
      Hears room k s .fin e
        ((e.answer (s.answer .finAck)).enter { c with expected := s.seq + 1 }).swept
  | misplaced {kind e c} : kind.isReply = false → e.entry = some c → s.seq = c.expected →
      (kind = .syn → c.phase ≠ .closed ∧ c.phase ≠ .synSent) →
      (∀ facts, c.phase.move? (.arrival kind) facts = none) → Hears room k s kind e e.swept

@[simp] theorem phase_enter (e : Side) (c : Connection) : (e.enter c).phase = c.phase := rfl

/-- What any operation of a station, with its reply, does to the side of a connection. -/
inductive Step (cfg : Settings) (k : SocketPair) :
    Station.Op → Station.Reply → Side → Side → Prop
  | apart {op r e} : op.wrote k r = [] → op.took k r = [] → r ≠ .accepted (.ok (some k)) →
      Step cfg k op r e e
  | heard {op s kind e e'} : op.arrival? = some s → s.kind? = some kind → s.receiverPair = k →
      Hears cfg.room k s kind e e' → Step cfg k op .none e e'
  | dialled {e ticket} : e.entry = none →
      Step cfg k (.call (.connect k.far.host k.far.port)) (.dialled (.ok ticket)) e
        ((e.enter { phase := .synSent, waiter := some ticket }).push (.control k .syn))
  | forgot {op r e} : op.settles → op.wrote k r = [] → op.took k r = [] →
      r ≠ .accepted (.ok (some k)) → Step cfg k op r e e.forgotten
  | accepted {e c syn rest} : e.entry = some c → c.phase = .synReceived →
      e.waiting = syn :: rest →
      Step cfg k (.call (.accept k.near.port)) (.accepted (.ok (some k))) e
        (({ e with waiting := rest }.answer (syn.answer .synAck)).enter
          { c with phase := .established })
  | passed {e p r waiting} : e.phase ≠ .synReceived → waiting <:+ e.waiting →
      r ≠ .ok (some k) → Step cfg k (.call (.accept p)) (.accepted r) e { e with waiting }
  | read {e c s rest buffer n} : e.entry = some c → c.unread = s :: rest →
      n = min buffer.length s.payload.length →
      Step cfg k (.call (.read k buffer))
        (.filled (.ok ⟨n, s.payload.take n ++ buffer.drop n⟩)) e
        (e.enter { c with
          unread := if n < s.payload.length then s.dropPayload n :: rest else rest }).swept
  | readNothing {e c buffer} : e.entry = some c → c.unread = [] → c.phase ≠ .closed →
      Step cfg k (.call (.read k buffer)) (.filled (.ok ⟨0, buffer⟩)) e e
  | readRefused {e buffer} : e.conn.unread = [] → e.phase = .closed →
      Step cfg k (.call (.read k buffer)) (.filled (.error (.call .connectionClosed))) e e.swept
  | wrote {e data} : (data ≠ [] → e.phase = .established ∧ e.win.stopped = false) →
      Step cfg k (.call (.write k data)) (.written (.ok data.length)) e
        (e.pushData k (Station.payloads data))
  | writeRefused {e data f} : data ≠ [] → ¬(e.phase = .established ∧ e.win.stopped = false) →
      Step cfg k (.call (.write k data)) (.written (.error f)) e e.swept
  | closedDrained {e c} : e.entry = some c → c.phase = .established → e.win.isDrained = true →
      Step cfg k (.call (.close k)) (.closed (.ok ())) e
        ((e.push (.control k .fin)).enter { c with phase := .closing })
  | closedBusy {e c} : e.entry = some c → c.phase = .established → e.win.isDrained = false →
      Step cfg k (.call (.close k)) (.closed (.ok ())) e
        ((e.push (.control k .stp)).enter { c with phase := .stopSent })
  | closedStopped {e c} : e.entry = some c → c.phase = .stopReceived →
      Step cfg k (.call (.close k)) (.closed (.ok ())) e
        ((e.push (.control k .fin)).enter { c with phase := .closing })
  | closedIdle {e} : e.phase = .closed → Step cfg k (.call (.close k)) (.closed (.ok ())) e e.swept
  | closeRefused {e f} : e.phase ≠ .closed → e.phase ≠ .established → e.phase ≠ .stopReceived →
      Step cfg k (.call (.close k)) (.closed (.error f)) e e
  | ticked {e} : e.phase = .synSent ∨ e.phase.keeps ∨ e.phase = .stopSent →
      Step cfg k .tick .none e e.resent
  | tickedClosing {e c} : e.entry = some c → c.phase = .closing → c.closingTicks < cfg.patience →
      Step cfg k .tick .none e
        (e.enter { c with closingTicks := c.closingTicks + 1 }).resent
  | expired {e c} : e.entry = some c → c.phase = .closing → cfg.patience ≤ c.closingTicks →
      Step cfg k .tick .none e e.forgotten
  | tickedIdle {e} : e.phase = .closed ∨ e.phase = .synReceived → Step cfg k .tick .none e e.swept
  | polled {op e segments} : op = .poll ∨ op = .sendRound →
      Step cfg k op (.sent segments) e (e.sent cfg.limit)

theorem enter_conn {e : Side} {c : Connection} (h : e.entry = some c) : e.enter c = e := by
  cases e
  exact congrArg (Side.mk · _ _ _ _) h.symm

theorem conn_of_entry {e : Side} {c : Connection} (h : e.entry = some c) : e.conn = c := by
  rw [conn, h]
  rfl

theorem phase_of_entry {e : Side} {c : Connection} (h : e.entry = some c) : e.phase = c.phase := by
  rw [phase, h]
  rfl

theorem absurd_phase {e : Side} {c : Connection} {p q : Phase} {P : Prop} (hq : e.phase = q)
    (hc : e.entry = some c) (hp : c.phase = p) (hne : p ≠ q) : P :=
  absurd (hp.symm.trans ((phase_of_entry hc).symm.trans hq)) hne

theorem exists_entry {e : Side} (h : e.phase ≠ .closed) :
    ∃ c, e.entry = some c ∧ c.phase = e.phase := by
  cases hc : e.entry with
  | none =>
    rw [phase, hc] at h
    exact absurd rfl h
  | some c => exact ⟨c, rfl, (phase_of_entry hc).symm⟩

theorem swept_of_open {e : Side} (h : e.phase ≠ .closed) : e.swept = e := by
  obtain ⟨entry, _⟩ := e
  cases entry with
  | none => rfl
  | some c => simp_all [swept, phase, Option.filter, Connection.isIdle]

theorem phase_of_none {e : Side} (h : e.entry = none) : e.phase = .closed := by
  rw [phase, h]
  rfl

theorem conn_of_none {e : Side} (h : e.entry = none) : e.conn = {} := by
  rw [conn, h]
  rfl

theorem swept_of_none {e : Side} (h : e.entry = none) : e.swept = e := by
  obtain ⟨_, _⟩ := e
  subst h
  rfl

theorem inPhase_of_entry {e : Side} {c : Connection} (h : e.entry = some c) (p : Phase) :
    e.inPhase p = e.enter { c with phase := p } := by
  simp [inPhase, enter, h]

theorem advanced_swept (e : Side) (seq : SequenceNumber) :
    e.swept.advanced seq = (e.advanced seq).swept := by
  obtain ⟨entry, _⟩ := e
  cases entry with
  | none => rfl
  | some c => cases hi : c.isIdle <;> simp_all [swept, advanced, Option.filter, Connection.isIdle]

@[simp] theorem phase_swept (e : Side) : e.swept.phase = e.phase := by
  obtain ⟨entry, _⟩ := e
  cases entry with
  | none => rfl
  | some c =>
    cases hi : c.isIdle with
    | true => simp_all [swept, phase, Option.filter, Connection.isIdle]
    | false => simp [swept, phase, Option.filter, hi]

theorem swept_conn (e : Side) :
    e.swept.conn.unread = e.conn.unread ∧ e.swept.conn.waiter = e.conn.waiter := by
  obtain ⟨entry, _⟩ := e
  cases entry with
  | none => exact ⟨rfl, rfl⟩
  | some c =>
    cases hi : c.isIdle with
    | false => simp [swept, conn, Option.filter, hi]
    | true =>
      simp only [Connection.isIdle, Bool.and_eq_true, List.isEmpty_iff, Option.isNone_iff_eq_none] at hi
      simp [swept, conn, Option.filter, Connection.isIdle, hi]

@[simp] theorem win_acked (e : Side) (seq : SequenceNumber) :
    (e.acked seq).win = { e.win with unacked := e.win.unacked.erase seq } := by
  simp only [win, acked]
  cases e.window <;> rfl

@[simp] theorem win_sent (e : Side) (limit : Nat) : (e.sent limit).win = e.win.advance limit := by
  simp only [win, sent]
  cases e.window <;> rfl

@[simp] theorem win_push (e : Side) (s : Segment) : (e.push s).win = e.win.push s := rfl

theorem pushData_eq {e : Side} (k : SocketPair) (l : List (List UInt8)) :
    (e.pushData k l).entry = e.entry ∧ (e.pushData k l).replies = e.replies ∧
      (e.pushData k l).waiting = e.waiting ∧ (e.pushData k l).resends = e.resends := by
  induction l generalizing e with
  | nil => exact ⟨rfl, rfl, rfl, rfl⟩
  | cons payload rest ih => exact ih

theorem win_pushData (e : Side) (k : SocketPair) (l : List (List UInt8)) :
    (e.pushData k l).win = e.win.extend (Segment.numbered k e.win.next l) := by
  induction l generalizing e with
  | nil => exact e.win.extend_nil.symm
  | cons payload rest ih => exact (ih (e.push (.data k payload))).trans (Window.push_extend _ _ _)

section Of

variable (t : Table) (o : Outbox) {k : SocketPair}

@[simp] theorem entry_of (k : SocketPair) : (of t o k).entry = t.get? k := rfl

@[simp] theorem of_put (k : SocketPair) (c : Connection) :
    of (t.put k c) o k = (of t o k).enter c := by
  simp [of, enter]

@[simp] theorem of_reap (k : SocketPair) : of (t.reap k) o k = (of t o k).swept := by
  simp [of, swept]

@[simp] theorem of_phase (k : SocketPair) (p : Phase) :
    of (t.adjust k fun c => { c with phase := p }) o k = (of t o k).inPhase p := by
  simp [of, inPhase]

@[simp] theorem of_advance (k : SocketPair) (seq : SequenceNumber) :
    of (t.advance k seq) o k = (of t o k).advanced seq := by
  simp [of, advanced]

theorem of_pushPending {s : Segment} (hs : s.receiverPair = k) :
    of (t.pushPending s) o k = (of t o k).greeted s := by
  subst hs
  have : (t.pushPending s).pending s.receiverPair.near.port =
      t.pending s.receiverPair.near.port ++ [s] := t.pending_pushPending_self s
  simp [of, greeted, this]

theorem of_reply {s : Segment} (hs : s.senderPair = k) :
    of t (o.reply s) k = (of t o k).answer s := by
  simp [of, answer, Outbox.reply, hs]

@[simp] theorem of_push (k : SocketPair) (s : Segment) :
    of t (o.put k ((o.window k).push s)) k = (of t o k).push s := by
  simp [of, push, win, Outbox.window, Outbox.put]

@[simp] theorem of_acknowledge (k : SocketPair) (seq : SequenceNumber) :
    of t (o.acknowledge k seq) k = (of t o k).acked seq := by
  simp only [of, acked, Outbox.windows_acknowledge_self]
  rfl

@[simp] theorem of_stop (k : SocketPair) : of t (o.stop k) k = (of t o k).stopped := by
  simp only [of, stopped, Outbox.windows_stop_self]
  rfl

@[simp] theorem of_release (k : SocketPair) : of t (o.release k) k = (of t o k).released := by
  simp [of, released, Outbox.release]

@[simp] theorem of_forget (k : SocketPair) :
    of (t.remove k) (o.release k) k = (of t o k).forgotten := by
  simp [of, forgotten, released, Outbox.release]

theorem of_resend (ho : o.Filed) (k : SocketPair) : of t (o.resend k) k = (of t o k).resent := by
  have hv : ∀ s ∈ (o.window k).unacked.values, s.senderPair = k := by
    intro s hs
    obtain ⟨i, hi⟩ := SortedMap.mem_values_iff.1 hs
    exact (ho.window k).2 i s hi
  simp only [of, resent, win, Outbox.resend, ← Outbox.window_eq]
  rw [Outbox.filter_addMissing fun s hs => by simpa using hv s hs]

@[simp] theorem of_afterSending (k : SocketPair) :
    of t o.afterSending k = (of t o k).sent o.limit := by
  simp only [of, sent, Outbox.windows_afterSending]
  rfl

end Of

end Side

end ReliableStream
