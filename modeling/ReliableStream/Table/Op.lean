import ReliableStream.Table

namespace ReliableStream

namespace Table

inductive Op where
  | deliver (pair : SocketPair) (segment : Segment)
  | read (pair : SocketPair) (buffer : List UInt8)
  | reap (pair : SocketPair)
  | remove (pair : SocketPair)
  | restart (pair : SocketPair)
  | advance (pair : SocketPair) (seq : SequenceNumber)
  | set (pair : SocketPair) (phase : Phase) (expected : SequenceNumber) (waiter : Option Ticket)
    (closingTicks : Nat)
  | pushPending (syn : Segment)
  | popPending (port : Port)
  | listen (port : Port)
  deriving DecidableEq, Repr

inductive Reply where
  | none
  | delivered (kept : Bool)
  | filled (result : Except CallFault Filled)
  | popped (syn : Option Segment)

def step (t : Table) : Op → Table × Reply
  | .deliver k s => (t.deliver k s, .delivered (t.hasRoom k))
  | .read k buffer => let (t, result) := t.read k buffer; (t, .filled result)
  | .reap k => (t.reap k, .none)
  | .remove k => (t.remove k, .none)
  | .restart k => (t.restart k, .none)
  | .advance k seq => (t.advance k seq, .none)
  | .set k phase expected waiter closingTicks =>
    (t.put k { t.get k with phase, expected, waiter, closingTicks }, .none)
  | .pushPending s => (t.pushPending s, .none)
  | .popPending p => let (t, s) := t.popPending p; (t, .popped s)
  | .listen p => (t.listen p, .none)

def run (t : Table) (ops : List Op) : Table := ops.foldl (fun t op => (t.step op).1) t

def history (t : Table) : List Op → List (Op × Reply)
  | [] => []
  | op :: rest => (op, (t.step op).2) :: (t.step op).1.history rest

/-- The data that an operation has added to a connection. -/
def Op.kept (k : SocketPair) : Op → Reply → List Segment
  | .deliver j s, .delivered true => if j = k then [s] else []
  | _, _ => []

/-- The bytes that an operation has read from a connection. -/
def Op.took (k : SocketPair) : Op → Reply → List UInt8
  | .read j _, .filled (.ok filled) => if j = k then filled.buffer.take filled.count else []
  | _, _ => []

def kept (t : Table) (k : SocketPair) (ops : List Op) : List Segment :=
  (t.history ops).flatMap fun x => x.1.kept k x.2

def taken (t : Table) (k : SocketPair) (ops : List Op) : List UInt8 :=
  (t.history ops).flatMap fun x => x.1.took k x.2

end Table

end ReliableStream
