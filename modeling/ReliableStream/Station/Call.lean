import ReliableStream.Station

namespace ReliableStream

inductive Call where
  | connect (host : HostId) (port : Port)
  | resume (ticket : Ticket)
  | resumeAll
  | cancel (ticket : Ticket)
  | accept (port : Port)
  | read (pair : SocketPair) (buffer : List UInt8)
  | write (pair : SocketPair) (data : List UInt8)
  | close (pair : SocketPair)
  deriving DecidableEq, Repr

namespace Station

inductive Reply where
  | none
  | dialled (result : Except Failure Ticket)
  | ended (endings : List Ending)
  | accepted (result : Except Failure (Option SocketPair))
  | filled (result : Except Failure Table.Filled)
  | written (result : Except Failure Nat)
  | closed (result : Except Failure Unit)
  | sent (segments : List Segment)

def call (s : Station) : Call → Station × Reply
  | .connect host port => let (s, r) := s.connect host port; (s, .dialled r)
  | .resume ticket => let (s, r) := s.resume ticket; (s, .ended r.toList)
  | .resumeAll => let (s, r) := s.resumeAll; (s, .ended r)
  | .cancel ticket => (s.cancel ticket, .none)
  | .accept port => let (s, r) := s.accept port; (s, .accepted r)
  | .read pair buffer => let (s, r) := s.read pair buffer; (s, .filled r)
  | .write pair data => let (s, r) := s.write pair data; (s, .written r)
  | .close pair => let (s, r) := s.close pair; (s, .closed r)

inductive Op where
  | call (c : Call)
  | receive (segment : Segment)
  | receiveFrame (frame : Frame)
  | tick
  | expire (ticket : Ticket)
  | poll
  /-- A poll, but only if something may have to be sent. -/
  | sendRound
  deriving DecidableEq, Repr

def step (s : Station) : Op → Station × Reply
  | .call c => s.call c
  | .receive segment => (s.receive segment, .none)
  | .receiveFrame f => (s.receiveFrame f, .none)
  | .tick => (s.tick, .none)
  | .expire ticket => (s.expire ticket, .none)
  | .poll => let (s, out) := s.poll; (s, .sent out)
  | .sendRound => let (s, out) := s.sendRound; (s, .sent out)

def run (s : Station) (ops : List Op) : Station := ops.foldl (fun s op => (s.step op).1) s

def history (s : Station) : List Op → List (Op × Reply)
  | [] => []
  | op :: rest => (op, (s.step op).2) :: (s.step op).1.history rest

theorem run_append (s : Station) (a b : List Op) : s.run (a ++ b) = (s.run a).run b := by
  simp [run]

end Station

end ReliableStream
