import ReliableStream.Host

/-!
A station: a host at an address, and what its application asks of it. `connect` starts to dial, and
a later `resume` tells how the dial has ended; every other call is answered at once.
-/

namespace ReliableStream

structure Dial where
  ticket : Ticket
  pair : SocketPair
  deriving DecidableEq, Repr

structure Ending where
  ticket : Ticket
  result : Except Failure SocketPair

structure Station where
  address : HostId
  host : Host
  dials : List Dial := []
  deriving DecidableEq

namespace Station

def defaultSendWindow : Nat := 16

def defaultRecvWindow : Nat := 16

def defaultPatience : Nat := 4

def fresh (address : HostId) (recvWindow sendWindow patience : Nat) : Station :=
  { address, host := .fresh recvWindow sendWindow patience }

def connect (s : Station) (farHost : HostId) (farPort : Port) : Station × Except Failure Ticket :=
  if !validPort farPort then (s, .error (.call .invalidPort))
  else match s.host.table.freePort? with
    | none => (s, .error .noFreePort)
    | some port =>
      let k : SocketPair := ⟨⟨farHost, farPort⟩, ⟨s.address, port⟩⟩
      let (host, ticket) := s.host.await k
      match host.apply k .connect none {} with
      | (host, .error e) =>
        ({ s with host := { host with table := host.table.remove k } }, .error e)
      | (host, .ok _) =>
        ({ s with host := host.nudge, dials := s.dials ++ [⟨ticket, k⟩] }, .ok ticket)

def cleanUp (s : Station) (k : SocketPair) : Station :=
  { s with
    host := { s.host with table := s.host.table.remove k, outbox := s.host.outbox.release k } }

def cancel (s : Station) (ticket : Ticket) : Station :=
  { s with
    host := s.host.collect ticket
    dials := s.dials.filter (fun d => d.ticket ≠ ticket) }

def expire (s : Station) (ticket : Ticket) : Station :=
  match s.dials.find? (fun d => d.ticket = ticket) with
  | none => s
  | some d => (s.cancel ticket).cleanUp d.pair

/-- Ends a dial if it is answered or nobody will answer it. -/
def settle (s : Station) (d : Dial) : Station × Option Ending :=
  match s.host.handshake d.ticket with
  | .waiting => (s, none)
  | .answered .opened => (s.cancel d.ticket, some ⟨d.ticket, .ok d.pair⟩)
  | .answered .collided =>
    ((s.cancel d.ticket).cleanUp d.pair, some ⟨d.ticket, .error .simultaneousOpen⟩)
  | .dropped => ((s.cancel d.ticket).cleanUp d.pair, some ⟨d.ticket, .error .shutDown⟩)

def settleAll (s : Station) : List Dial → Station × List Ending
  | [] => (s, [])
  | d :: rest =>
    let (s, ending) := s.settle d
    let (s, endings) := s.settleAll rest
    (s, ending.toList ++ endings)

def resume (s : Station) (ticket : Ticket) : Station × Option Ending :=
  match s.dials.find? (fun d => d.ticket = ticket) with
  | none => (s, none)
  | some d => s.settle d

def resumeAll (s : Station) : Station × List Ending := s.settleAll s.dials

/-- Takes SYNs off a backlog until one is still waiting to be accepted. -/
def nextPending (t : Table) (p : Port) : Nat → Table × Option Segment
  | 0 => (t, none)
  | n + 1 =>
    match t.popPending p with
    | (t, none) => (t, none)
    | (t, some syn) =>
      if t.phase syn.receiverPair = .synReceived then (t, some syn) else nextPending t p n

/-- Accepts the connection that has waited longest on a port, if there is one. -/
def accept (s : Station) (p : Port) : Station × Except Failure (Option SocketPair) :=
  if !validPort p then (s, .error (.call .invalidPort))
  else
    let table := s.host.table.listen p
    match nextPending table p (table.pending p).length with
    | (table, none) => ({ s with host := { s.host with table } }, .ok none)
    | (table, some syn) =>
      let k := syn.receiverPair
      match { s.host with table }.apply k .accept (some syn) {} with
      | (host, .error e) => ({ s with host }, .error e)
      | (host, .ok _) => ({ s with host := host.nudge }, .ok (some k))

def read (s : Station) (k : SocketPair) (buffer : List UInt8) :
    Station × Except Failure Table.Filled :=
  let (table, result) := s.host.table.read k buffer
  ({ s with host := { s.host with table } }, result.mapError .call)

/-- A count as a bare number: -1 stands for any failure. -/
def bare (result : Except Failure Nat) : Int :=
  match result with
  | .ok n => n
  | .error _ => -1

def pieces : Nat → List UInt8 → List (List UInt8)
  | 0, _ => []
  | n + 1, data => data.take payloadLength :: pieces n (data.drop payloadLength)

/-- Data as payloads, all but the last one of the greatest length. -/
def payloads (data : List UInt8) : List (List UInt8) :=
  pieces ((data.length + payloadLength - 1) / payloadLength) data

def sendAll (h : Host) (k : SocketPair) : List (List UInt8) → Host × Option Failure
  | [] => (h, none)
  | payload :: rest =>
    match h.apply k .send (some (.data k payload)) {} with
    | (h, .error e) => (h, some e)
    | (h, .ok _) => sendAll h k rest

/-- Queues data for the far end. The answer is the number of bytes. -/
def write (s : Station) (k : SocketPair) (data : List UInt8) : Station × Except Failure Nat :=
  match sendAll s.host k (payloads data) with
  | (host, some e) => ({ s with host }, .error e)
  | (host, none) => ({ s with host := host.nudge }, .ok data.length)

/-- Closes a connection. What is queued is still sent. -/
def close (s : Station) (k : SocketPair) : Station × Except Failure Unit :=
  match s.host.apply k .close none (s.host.facts k) with
  | (host, .error e) => ({ s with host }, .error e)
  | (host, .ok _) => ({ s with host := host.nudge }, .ok ())

def receiveFrame (s : Station) (f : Frame) : Station := { s with host := s.host.receiveFrame f }

def receive (s : Station) (segment : Segment) : Station :=
  { s with host := s.host.receive segment }

def tick (s : Station) : Station := { s with host := s.host.tick }

def poll (s : Station) : Station × List Segment :=
  let (host, out) := s.host.poll
  ({ s with host }, out)

def sendRound (s : Station) : Station × List Segment :=
  if s.host.nudged then { s with host := { s.host with nudged := false } }.poll else (s, [])

end Station

end ReliableStream
