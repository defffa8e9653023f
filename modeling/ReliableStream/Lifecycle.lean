import ReliableStream.Failure

/-!
The life of a connection as a table: in each phase, what an event leads to and what has to be done.

```
             connect / SYN         SYN-ACK / -
  closed ------------------> synSent ----------> established
    |   SYN / -                              accept / SYN-ACK ^
    +------------------------> synReceived -------------------+

  established --close / STP--> stopSent --ACK (drained) / FIN--+
       |   \                                                   v
       |    +-------------close (drained) / FIN------------> closing
       |  STP / ACK                                            ^
       +---------> stopReceived ----------close / FIN----------+

  FIN / FIN-ACK leads from established, stopReceived, stopSent and closing to closed, and so does
  FIN-ACK from closing.
```
-/

namespace ReliableStream

inductive Action where
  | transmit (kind : Kind)
  | reply (kind : Kind)
  | queueForAccept
  | wakeConnect
  | enqueue
  /-- Keep the data that have arrived until the application reads, and acknowledge them. -/
  | deliver
  | stopSending
  | releaseSender
  | release
  | retransmit
  deriving DecidableEq, Repr, Inhabited

structure Facts where
  /-- Nothing is left to send, and everything sent is acknowledged. -/
  drained : Bool := false
  expired : Bool := false
  deriving DecidableEq, Repr, Inhabited

/-- Where an event leads, and what has to be done on the way, in order. -/
structure Move where
  next : Phase
  actions : List Action
  deriving DecidableEq, Repr

/-- Why an event has no place in a phase. A call is told what is missing. -/
def Phase.refusal (phase : Phase) : Event → Failure
  | .connect => .call .alreadyExists
  | .accept => .call .nothingPending
  | .send => if phase = .stopReceived then .call .peerStopped else .call .notOpenForSending
  | .close => .call .notOpen
  | event => if phase = .synSent ∧ event = .arrival .syn then .simultaneousOpen
    else .misplaced phase event

def Phase.move? (phase : Phase) (event : Event) (facts : Facts) : Option Move :=
  match phase, event with
  | .closed, .connect => some ⟨.synSent, [.transmit .syn]⟩
  | .closed, .arrival .syn => some ⟨.synReceived, [.queueForAccept]⟩
  | .closed, .arrival .fin => some ⟨.closed, [.reply .finAck]⟩
  | .closed, .arrival .finAck => some ⟨.closed, [.release]⟩
  | .closed, .close => some ⟨.closed, []⟩
  | .closed, .timer => some ⟨.closed, []⟩

  | .synSent, .arrival .synAck => some ⟨.established, [.wakeConnect]⟩
  | .synSent, .timer => some ⟨.synSent, [.retransmit]⟩

  | .synReceived, .accept => some ⟨.established, [.reply .synAck]⟩
  | .synReceived, .arrival .syn => some ⟨.synReceived, []⟩
  | .synReceived, .timer => some ⟨.synReceived, []⟩

  | .established, .send => some ⟨.established, [.enqueue]⟩
  | .established, .arrival .data => some ⟨.established, [.deliver]⟩
  | .established, .arrival .ack => some ⟨.established, []⟩
  | .established, .arrival .synAck => some ⟨.established, []⟩
  | .established, .close =>
    if facts.drained then some ⟨.closing, [.transmit .fin]⟩
    else some ⟨.stopSent, [.transmit .stp]⟩
  | .established, .arrival .stp => some ⟨.stopReceived, [.reply .ack, .stopSending]⟩
  | .established, .arrival .syn => some ⟨.established, [.reply .synAck]⟩
  | .established, .arrival .fin => some ⟨.closed, [.reply .finAck, .releaseSender]⟩
  | .established, .timer => some ⟨.established, [.retransmit]⟩

  | .stopReceived, .close => some ⟨.closing, [.transmit .fin]⟩
  | .stopReceived, .arrival .data => some ⟨.stopReceived, [.deliver]⟩
  | .stopReceived, .arrival .ack => some ⟨.stopReceived, []⟩
  | .stopReceived, .arrival .fin => some ⟨.closed, [.reply .finAck, .releaseSender]⟩
  | .stopReceived, .timer => some ⟨.stopReceived, [.retransmit]⟩

  | .stopSent, .arrival .ack =>
    if facts.drained then some ⟨.closing, [.transmit .fin]⟩ else some ⟨.stopSent, []⟩
  -- The far end keeps its STP until it is acknowledged.
  | .stopSent, .arrival .stp => some ⟨.closing, [.reply .ack, .transmit .fin]⟩
  | .stopSent, .arrival .data => some ⟨.stopSent, [.reply .ack]⟩
  | .stopSent, .arrival .fin => some ⟨.closed, [.reply .finAck, .releaseSender]⟩
  | .stopSent, .timer => some ⟨.stopSent, [.retransmit]⟩

  | .closing, .arrival .finAck => some ⟨.closed, [.release]⟩
  | .closing, .arrival .syn => some ⟨.closing, [.reply .synAck]⟩
  | .closing, .arrival .data => some ⟨.closing, [.reply .ack]⟩
  | .closing, .arrival .stp => some ⟨.closing, [.reply .ack]⟩
  | .closing, .arrival .ack => some ⟨.closing, []⟩
  | .closing, .arrival .fin => some ⟨.closed, [.reply .finAck, .releaseSender]⟩
  | .closing, .timer =>
    if facts.expired then some ⟨.closed, [.release]⟩ else some ⟨.closing, [.retransmit]⟩

  | _, _ => none

/-- The move that an event makes in a phase, or why it has no place there. -/
def Phase.move (phase : Phase) (event : Event) (facts : Facts) : Except Failure Move :=
  match phase.move? event facts with
  | some m => .ok m
  | none => .error (phase.refusal event)

end ReliableStream
