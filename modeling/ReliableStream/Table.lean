import ReliableStream.Failure

/-!
What a host knows of its connections: the phase, the data that have arrived and not been read, the
next number in order, and the SYNs that wait for the application to accept them.
-/

namespace ReliableStream

abbrev Ticket := Nat

structure Connection where
  phase : Phase := .closed
  /-- The data segments that have arrived and not been read, the oldest first. -/
  unread : List Segment := []
  expected : SequenceNumber := 0
  waiter : Option Ticket := none
  closingTicks : Nat := 0
  deriving DecidableEq, Repr, Inhabited

def Connection.isIdle (c : Connection) : Bool :=
  c.phase = .closed && c.unread.isEmpty && c.waiter.isNone

structure Table where
  capacity : Nat
  connections : SortedMap SocketPair Connection := {}
  /-- The SYNs that wait on each port, the earliest first. A port stays here once a SYN has waited
  on it. -/
  backlog : SortedMap Port (List Segment) := {}
  listening : SortedMap Port Unit := {}
  deriving DecidableEq

namespace Table

def empty (capacity : Nat) : Table := { capacity }

def get? (t : Table) (k : SocketPair) : Option Connection := t.connections.get? k

def phase (t : Table) (k : SocketPair) : Phase := (t.get? k).elim .closed Connection.phase

def get (t : Table) (k : SocketPair) : Connection := (t.get? k).getD {}

def put (t : Table) (k : SocketPair) (c : Connection) : Table :=
  { t with connections := t.connections.insert k c }

def ensure (t : Table) (k : SocketPair) : Table := t.put k (t.get k)

def adjust (t : Table) (k : SocketPair) (f : Connection → Connection) : Table :=
  { t with connections := t.connections.adjust k f }

def remove (t : Table) (k : SocketPair) : Table :=
  { t with connections := t.connections.erase k }

def reap (t : Table) (k : SocketPair) : Table :=
  if (t.get? k).any Connection.isIdle then t.remove k else t

/-- Counts the arriving segments from 0 again, as the far end does. Unread data stay. -/
def restart (t : Table) (k : SocketPair) : Table :=
  t.adjust k fun c => { c with expected := 0, closingTicks := 0 }

/-- Notes that the segment with this number is dealt with. -/
def advance (t : Table) (k : SocketPair) (seq : SequenceNumber) : Table :=
  t.adjust k fun c => { c with expected := seq + 1 }

def hasRoom (t : Table) (k : SocketPair) : Bool := (t.get k).unread.length < t.capacity

def deliver (t : Table) (k : SocketPair) (s : Segment) : Table :=
  let c := t.get k
  if t.hasRoom k then t.put k { c with unread := c.unread ++ [s] } else t.ensure k

/-- What a read gives: the number of bytes read, and the buffer with these in front. -/
structure Filled where
  count : Nat
  buffer : List UInt8
  deriving DecidableEq, Repr

/-- Copies unread bytes of the oldest segment into the front of a buffer. What does not fit stays
unread. There is nothing to read from a connection that is open and has no unread data; from one
that is closed this is an error. -/
def read (t : Table) (k : SocketPair) (buffer : List UInt8) :
    Table × Except CallFault Filled :=
  match t.get? k with
  | none => (t, .error .connectionClosed)
  | some c =>
    match c.unread with
    | [] =>
      if c.phase = .closed then (t.reap k, .error .connectionClosed) else (t, .ok ⟨0, buffer⟩)
    | s :: rest =>
      let n := min buffer.length s.payload.length
      let left := if n < s.payload.length then s.dropPayload n :: rest else rest
      ((t.put k { c with unread := left }).reap k,
        .ok ⟨n, s.payload.take n ++ buffer.drop n⟩)

def pushPending (t : Table) (s : Segment) : Table :=
  { t with
    backlog := t.backlog.insert s.dest.port ((t.backlog.get? s.dest.port).getD [] ++ [s]) }

def pending (t : Table) (p : Port) : List Segment := (t.backlog.get? p).getD []

def popPending (t : Table) (p : Port) : Table × Option Segment :=
  match t.pending p with
  | [] => (t, none)
  | s :: rest => ({ t with backlog := t.backlog.insert p rest }, some s)

def listen (t : Table) (p : Port) : Table := { t with listening := t.listening.insert p () }

def inUse (t : Table) (p : Port) : Bool :=
  t.connections.keys.any (fun k => k.near.port = p) || t.listening.contains p ||
    t.backlog.contains p

def usablePorts : List Port := (List.range (portLimit.toNat + 1)).map UInt8.ofNat

def freePort? (t : Table) : Option Port := usablePorts.find? (fun p => !t.inUse p)

end Table

end ReliableStream
