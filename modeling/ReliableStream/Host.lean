import ReliableStream.Lifecycle
import ReliableStream.Outbox
import ReliableStream.Table

/-!
A host: its connections and what they have to send, moved by events. `Host.apply` makes one event
of one connection happen, `Host.receive` takes a segment that has arrived, `Host.tick` lets the
retransmission timer fire.
-/

namespace ReliableStream

inductive Answer where
  | opened
  | collided
  deriving DecidableEq, Repr, Inhabited

inductive Handshake where
  | waiting
  | answered (answer : Answer)
  | dropped
  deriving DecidableEq, Repr

structure Host where
  table : Table
  outbox : Outbox
  /-- How many ticks a connection may be closing for. -/
  patience : Nat
  /-- Something may have to be sent. -/
  nudged : Bool := false
  answers : List (Ticket × Answer) := []
  issued : Ticket := 0
  deriving DecidableEq

/-- What came of an event: the phase it led to, and whether the segment it was about is dealt
with. -/
structure Outcome where
  next : Phase
  accepted : Bool
  deriving DecidableEq, Repr

namespace Host

def fresh (recvWindow sendWindow patience : Nat) : Host :=
  { table := .empty recvWindow, outbox := .empty sendWindow, patience }

def nudge (h : Host) : Host := { h with nudged := true }

def tell (h : Host) (k : SocketPair) (a : Answer) : Host :=
  match (h.table.get k).waiter with
  | none => h
  | some ticket =>
    { h with
      table := h.table.adjust k fun c => { c with waiter := none }
      answers := h.answers ++ [(ticket, a)] }

def await (h : Host) (k : SocketPair) : Host × Ticket :=
  ({ h with
      table := h.table.put k { h.table.get k with waiter := some h.issued }
      issued := h.issued + 1 }, h.issued)

def handshake (h : Host) (ticket : Ticket) : Handshake :=
  match h.answers.lookup ticket with
  | some a => .answered a
  | none => if h.table.connections.values.any (fun c => c.waiter = some ticket) then .waiting
    else .dropped

def collect (h : Host) (ticket : Ticket) : Host :=
  { h with answers := h.answers.filter (fun a => a.1 ≠ ticket) }

def enqueue (h : Host) (s : Segment) : Host × Except CallFault Bool :=
  let (outbox, result) := h.outbox.enqueue s
  ({ h with outbox }, result.map fun _ => true)

/-- Does one thing for a connection. The segment is the one that has arrived, or the one that the
application sends, or the SYN that it accepts. The flag says whether the segment is dealt with; it
is not if there is no room for its data. -/
def act (h : Host) (k : SocketPair) (segment : Option Segment) :
    Action → Host × Except CallFault Bool
  | .transmit kind => h.enqueue (.control k kind)
  | .reply kind =>
    (match segment with
    | some s => { h with outbox := h.outbox.reply (s.answer kind) }
    | none => h, .ok true)
  | .queueForAccept =>
    (match segment with
    | some s => { h with table := h.table.pushPending s }
    | none => h, .ok true)
  | .wakeConnect => (h.tell k .opened, .ok true)
  | .enqueue =>
    match segment with
    | some s => h.enqueue s
    | none => (h, .ok true)
  | .deliver =>
    match segment with
    | some s =>
      let table := h.table.deliver k s
      if h.table.hasRoom k then
        ({ h with table, outbox := h.outbox.reply (s.answer .ack) }, .ok true)
      else ({ h with table }, .ok false)
    | none => (h, .ok true)
  | .stopSending => ({ h with outbox := h.outbox.stop k }, .ok true)
  | .releaseSender => ({ h with outbox := h.outbox.release k }, .ok true)
  | .release => ({ h with outbox := h.outbox.release k, table := h.table.remove k }, .ok true)
  | .retransmit => ({ h with outbox := h.outbox.resend k }, .ok true)

def actAll (h : Host) (k : SocketPair) (segment : Option Segment) :
    List Action → Host × Except CallFault Bool
  | [] => (h, .ok true)
  | a :: rest =>
    match h.act k segment a with
    | (h, .error fault) => (h, .error fault)
    | (h, .ok accepted) =>
      match h.actAll k segment rest with
      | (h, .error fault) => (h, .error fault)
      | (h, .ok others) => (h, .ok (accepted && others))

def reap (h : Host) (k : SocketPair) : Host := { h with table := h.table.reap k }

/-- Makes an event of a connection happen. A pair without entry gets one for the actions. Whatever
comes of them, an entry that is idle in the end goes. -/
def apply (h : Host) (k : SocketPair) (event : Event) (segment : Option Segment) (facts : Facts) :
    Host × Except Failure Outcome :=
  match (h.table.phase k).move event facts with
  | .error e => (h.reap k, .error e)
  | .ok move =>
    match { h with table := h.table.ensure k }.actAll k segment move.actions with
    | (h, .error fault) => (h.reap k, .error (.call fault))
    | (h, .ok accepted) =>
      let table := h.table.adjust k fun c => { c with phase := move.next }
      ({ h with table }.reap k, .ok ⟨move.next, accepted⟩)

def facts (h : Host) (k : SocketPair) : Facts := { drained := h.outbox.isDrained k }

/-- Answers a segment that is dealt with already. The far end may have missed the first answer. -/
def answerAgain (h : Host) (s : Segment) (kind : Kind) : Host :=
  match kind with
  | .data | .stp => { h with outbox := h.outbox.reply (s.answer .ack) }
  | .fin => { h with outbox := h.outbox.reply (s.answer .finAck) }
  | .syn =>
    match h.table.phase s.receiverPair with
    | .established | .closing => { h with outbox := h.outbox.reply (s.answer .synAck) }
    | _ => h
  | _ => h

def giveUp (h : Host) (k : SocketPair) : Host :=
  let h := h.tell k .collided
  { h with table := h.table.remove k, outbox := h.outbox.release k }

def arrive (h : Host) (s : Segment) (kind : Kind) : Host :=
  let k := s.receiverPair
  match h.apply k (.arrival kind) (some s) (h.facts k) with
  | (h, .ok outcome) =>
    if outcome.accepted && !kind.isReply then { h with table := h.table.advance k s.seq } else h
  | (h, .error .simultaneousOpen) => h.giveUp k
  | (h, .error _) => h

/-- Takes a segment of this kind. A reply acknowledges. Any other segment has its turn: one that is
dealt with already is answered again, one that comes too early is dropped. A SYN for a closed
connection starts a new one. -/
def receiveKind (h : Host) (s : Segment) (kind : Kind) : Host :=
  let k := s.receiverPair
  if kind.isReply then
    ({ h with outbox := h.outbox.acknowledge k s.seq }.arrive s kind).nudge
  else if kind = .syn ∧ h.table.phase k = .closed then
    ({ h with table := h.table.restart k }.arrive s kind).nudge
  else
    match h.table.get? k with
    | none => (h.arrive s kind).nudge
    | some c =>
      if s.seq < c.expected then (h.answerAgain s kind).nudge
      else if c.expected < s.seq then h
      else (h.arrive s kind).nudge

/-- Takes a segment that has arrived. One whose flags mean nothing is dropped. -/
def receive (h : Host) (s : Segment) : Host :=
  match s.kind? with
  | none => h
  | some kind => h.receiveKind s kind

def receiveFrame (h : Host) (f : Frame) : Host :=
  match Segment.ofFrame f with
  | .error _ => h
  | .ok s => h.receive s

def tickOne (h : Host) (k : SocketPair) : Host :=
  match h.table.get? k with
  | none => h
  | some c =>
    let counting : Bool := c.phase = .closing
    let ticks := if counting then c.closingTicks + 1 else c.closingTicks
    let h := { h with table := h.table.put k { c with closingTicks := ticks } }
    (h.apply k .timer none
      { drained := h.outbox.isDrained k, expired := counting && h.patience < ticks }).1

def tickIn (h : Host) (order : List SocketPair) : Host := order.foldl tickOne h

def tick (h : Host) : Host := (h.tickIn h.table.connections.keys).nudge

def poll (h : Host) : Host × List Segment :=
  ({ h with outbox := h.outbox.afterSending }, h.outbox.outgoing)

end Host

end ReliableStream
