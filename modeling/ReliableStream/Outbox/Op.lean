import ReliableStream.Outbox

namespace ReliableStream

namespace Outbox

inductive Op where
  | enqueue (segment : Segment)
  | reply (segment : Segment)
  | poll
  | acknowledge (pair : SocketPair) (seq : SequenceNumber)
  | stop (pair : SocketPair)
  | release (pair : SocketPair)
  | resend (pair : SocketPair)
  | resendAll
  deriving DecidableEq, Repr

inductive Reply where
  | none
  | numbered (result : Except CallFault SequenceNumber)
  | sent (segments : List Segment)
  | acknowledged (awaited : Bool)
  | scheduled (count : Nat)

def step (o : Outbox) : Op → Outbox × Reply
  | .enqueue s => let (o, result) := o.enqueue s; (o, .numbered result)
  | .reply s => (o.reply s, .none)
  | .poll => let (o, out) := o.poll; (o, .sent out)
  | .acknowledge k seq => (o.acknowledge k seq, .acknowledged (o.awaits k seq))
  | .stop k => (o.stop k, .none)
  | .release k => (o.release k, .none)
  | .resend k => (o.resend k, .scheduled (o.inFlight k))
  | .resendAll => (o.resendAll, .scheduled o.inFlightAll)

def run (o : Outbox) (ops : List Op) : Outbox := ops.foldl (fun o op => (o.step op).1) o

def history (o : Outbox) : List Op → List (Op × Reply)
  | [] => []
  | op :: rest => (op, (o.step op).2) :: (o.step op).1.history rest

theorem run_append (o : Outbox) (a b : List Op) : o.run (a ++ b) = (o.run a).run b := by
  simp [run]

theorem history_append (o : Outbox) (a b : List Op) :
    o.history (a ++ b) = o.history a ++ (o.run a).history b := by
  induction a generalizing o with
  | nil => rfl
  | cons op rest ih => simp [history, ih, run]

end Outbox

end ReliableStream
