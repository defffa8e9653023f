import ReliableStream.Station.Call

/-!
Stations on a wire. What a station sends is appended to the wire; a frame on it may be delivered
out of turn, delivered and kept, or lost. `Network.step` takes one operation, a run is a fold of
steps.
-/

namespace ReliableStream

structure Network where
  stations : List Station
  wire : List Frame := []
  deriving DecidableEq

namespace Network

def adjust (n : Network) (i : Nat) (f : Station → Station) : Network :=
  { n with stations := n.stations.modify i f }

def stationAt? (n : Network) (address : HostId) : Option Nat :=
  n.stations.findIdx? (fun s => s.address = address)

def hand (n : Network) (f : Frame) : Network :=
  match n.stationAt? f.dest with
  | none => n
  | some i => n.adjust i (·.receiveFrame f)

def lose (n : Network) (i : Nat) : Network := { n with wire := n.wire.eraseIdx i }

def duplicate (n : Network) (i : Nat) : Network :=
  match n.wire[i]? with
  | none => n
  | some f => n.hand f

def deliver (n : Network) (i : Nat) : Network :=
  match n.wire[i]? with
  | none => n
  | some f => (n.lose i).hand f

def frames (segments : List Segment) : List (Except SegmentFault Frame) :=
  (inSendingOrder segments).map Segment.toFrame

def made (frames : List (Except SegmentFault Frame)) : List Frame :=
  frames.filterMap Except.toOption

def flush (n : Network) (i : Nat) : Network × List (Except SegmentFault Frame) :=
  match n.stations[i]? with
  | none => (n, [])
  | some s =>
    let (s, segments) := s.poll
    let out := frames segments
    ({ stations := n.stations.set i s, wire := n.wire ++ made out }, out)

def flushAll (n : Network) : Network :=
  (List.range n.stations.length).foldl (fun n i => (n.flush i).1) n

/-- Lets the stations send and delivers the oldest frame, again and again, until nothing is on the
wire or `limit` frames have been delivered. The result is with the number of frames delivered. -/
def deliverAll (n : Network) : Nat → Network × Nat
  | 0 => (n.flushAll, 0)
  | limit + 1 =>
    let n := n.flushAll
    if n.wire.isEmpty then (n, 0)
    else
      let (n, count) := (n.deliver 0).deliverAll limit
      (n, count + 1)

inductive Op where
  | call (station : Nat) (c : Call)
  | tick (station : Nat)
  | expire (station : Nat) (ticket : Ticket)
  | flush (station : Nat)
  | deliver (frame : Nat)
  | duplicate (frame : Nat)
  | lose (frame : Nat)
  deriving DecidableEq, Repr

def call (n : Network) (i : Nat) (c : Call) : Network × Station.Reply :=
  match n.stations[i]? with
  | none => (n, .none)
  | some s =>
    let (s, reply) := s.call c
    ({ n with stations := n.stations.set i s }, reply)

def step (n : Network) : Op → Network × Station.Reply
  | .call i c => n.call i c
  | .tick i => (n.adjust i (·.tick), .none)
  | .expire i ticket => (n.adjust i (·.expire ticket), .none)
  | .flush i => ((n.flush i).1, .none)
  | .deliver i => (n.deliver i, .none)
  | .duplicate i => (n.duplicate i, .none)
  | .lose i => (n.lose i, .none)

def run (n : Network) (ops : List Op) : Network := ops.foldl (fun n op => (n.step op).1) n

def history (n : Network) : List Op → List (Op × Station.Reply)
  | [] => []
  | op :: rest => (op, (n.step op).2) :: (n.step op).1.history rest

theorem run_append (n : Network) (a b : List Op) : n.run (a ++ b) = (n.run a).run b := by
  simp [run]

theorem history_append (n : Network) (a b : List Op) :
    n.history (a ++ b) = n.history a ++ (n.run a).history b := by
  induction a generalizing n with
  | nil => rfl
  | cons op rest ih => simp [history, ih, run]

end Network

end ReliableStream
