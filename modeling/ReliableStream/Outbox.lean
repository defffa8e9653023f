import ReliableStream.Failure

/-!
What a host has to send. Each connection has a window of numbered segments: `pending` ones wait
until the window admits them, `unacked` ones are sent and wait for a reply with their number.
Replies are not numbered and pass the windows by.
-/

namespace ReliableStream

structure Window where
  next : SequenceNumber := 0
  pending : List Segment := []
  unacked : SortedMap SequenceNumber Segment := {}
  stopped : Bool := false
  deriving DecidableEq, Inhabited

namespace Window

def isDrained (w : Window) : Bool := w.pending.isEmpty && w.unacked.isEmpty

/-- Admits segments, the oldest first, while fewer than `limit` are unacknowledged. The result is
the unacknowledged segments, the ones admitted and the ones left. -/
def admitFrom (limit : Nat) (unacked : SortedMap SequenceNumber Segment) :
    List Segment → SortedMap SequenceNumber Segment × List Segment × List Segment
  | [] => (unacked, [], [])
  | s :: rest =>
    if unacked.size < limit then
      let r := admitFrom limit (unacked.insert s.seq s) rest
      (r.1, s :: r.2.1, r.2.2)
    else (unacked, [], s :: rest)

def admitted (limit : Nat) (w : Window) : List Segment := (admitFrom limit w.unacked w.pending).2.1

def advance (limit : Nat) (w : Window) : Window :=
  let r := admitFrom limit w.unacked w.pending
  { w with unacked := r.1, pending := r.2.2 }

def push (w : Window) (s : Segment) : Window :=
  { w with next := w.next + 1, pending := w.pending ++ [{ s with seq := w.next }] }

end Window

structure Outbox where
  limit : Nat
  limit_pos : 0 < limit
  windows : SortedMap SocketPair Window := {}
  replies : List Segment := []
  resends : List Segment := []
  deriving DecidableEq

namespace Outbox

/-- An outbox that lets `window` segments of a connection be unacknowledged, but at least one. -/
def empty (window : Nat) : Outbox := { limit := max window 1, limit_pos := by omega }

def window (o : Outbox) (k : SocketPair) : Window := (o.windows.get? k).getD {}

def isDrained (o : Outbox) (k : SocketPair) : Bool := (o.window k).isDrained

def inFlight (o : Outbox) (k : SocketPair) : Nat := (o.window k).unacked.size

def pending (o : Outbox) (k : SocketPair) : Nat := (o.window k).pending.length

/-- Gives a segment the next number of its connection and queues it. A window that is stopped
refuses data. A connection without a window gets one, whatever comes of the segment. -/
def enqueue (o : Outbox) (s : Segment) : Outbox × Except CallFault SequenceNumber :=
  let w := o.window s.senderPair
  if w.stopped ∧ s.kind? = some .data then
    ({ o with windows := o.windows.insert s.senderPair w }, .error .sendingStopped)
  else ({ o with windows := o.windows.insert s.senderPair (w.push s) }, .ok w.next)

def reply (o : Outbox) (s : Segment) : Outbox := { o with replies := o.replies ++ [s] }

/-- What may go out now: replies, then what is sent again, then what the windows admit. -/
def outgoing (o : Outbox) : List Segment :=
  o.replies ++ o.resends ++ o.windows.values.flatMap (Window.admitted o.limit)

def afterSending (o : Outbox) : Outbox :=
  { o with replies := [], resends := [], windows := o.windows.mapValues (Window.advance o.limit) }

def poll (o : Outbox) : Outbox × List Segment := (o.afterSending, o.outgoing)

def awaits (o : Outbox) (k : SocketPair) (seq : SequenceNumber) : Bool :=
  (o.window k).unacked.contains seq

def acknowledge (o : Outbox) (k : SocketPair) (seq : SequenceNumber) : Outbox :=
  { o with windows := o.windows.adjust k fun w => { w with unacked := w.unacked.erase seq } }

/-- Takes no more data for the connection. What is queued is still sent. -/
def stop (o : Outbox) (k : SocketPair) : Outbox :=
  { o with windows := o.windows.insert k { o.window k with stopped := true } }

def release (o : Outbox) (k : SocketPair) : Outbox :=
  { o with
    windows := o.windows.erase k
    resends := o.resends.filter (fun s => s.senderPair ≠ k) }

def addMissing (queue : List Segment) (segments : List Segment) : List Segment :=
  segments.foldl (fun q s => if s ∈ q then q else q ++ [s]) queue

/-- Schedules what is unacknowledged for sending again, in the order of the numbers. -/
def resend (o : Outbox) (k : SocketPair) : Outbox :=
  { o with resends := addMissing o.resends (o.window k).unacked.values }

def resendAll (o : Outbox) : Outbox := o.windows.keys.foldl resend o

def inFlightAll (o : Outbox) : Nat :=
  o.windows.values.foldl (fun n w => n + w.unacked.size) 0

end Outbox

/-- Puts a segment into a batch before the first segment of the leading run of segments that are no
replies whose connection is not smaller. -/
def placeInRun (s : Segment) : List Segment → List Segment
  | [] => [s]
  | t :: rest =>
    if t.isReply ∨ s.senderPair.rank ≤ t.senderPair.rank then s :: t :: rest
    else t :: placeInRun s rest

/-- The order in which a batch goes out: each run of segments that are no replies is sorted by
connection, the segments of a connection keep their order, and replies keep their place. -/
def inSendingOrder : List Segment → List Segment
  | [] => []
  | s :: rest =>
    if s.isReply then s :: inSendingOrder rest else placeInRun s (inSendingOrder rest)

end ReliableStream
