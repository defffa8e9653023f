import ReliableStream.Segment

namespace ReliableStream

inductive Phase where
  | closed
  /-- A SYN is sent, its answer is awaited. -/
  | synSent
  /-- A SYN is received, the application has yet to accept. -/
  | synReceived
  /-- Both directions are open. -/
  | established
  /-- The far end has stopped sending. -/
  | stopReceived
  /-- The near end has stopped sending, its queue drains. -/
  | stopSent
  /-- A FIN is sent, its answer is awaited. -/
  | closing
  deriving DecidableEq, Repr, Inhabited

namespace Phase

def all : List Phase :=
  [.closed, .synSent, .synReceived, .established, .stopReceived, .stopSent, .closing]

def name : Phase → String
  | .closed => "Closed"
  | .synSent => "SynSent"
  | .synReceived => "SynRcvd"
  | .established => "Established"
  | .stopReceived => "StpRcvd"
  | .stopSent => "StpSent"
  | .closing => "Closing"

end Phase

inductive Event where
  | connect
  | accept
  | send
  | close
  | timer
  | arrival (kind : Kind)
  deriving DecidableEq, Repr, Inhabited

def Kind.name : Kind → String
  | .data => "Data"
  | .syn => "Syn"
  | .synAck => "SynAck"
  | .ack => "Ack"
  | .stp => "Stp"
  | .fin => "Fin"
  | .finAck => "FinAck"

namespace Event

def all : List Event :=
  [.connect, .accept, .send, .close, .timer, .arrival .syn, .arrival .synAck, .arrival .data,
    .arrival .ack, .arrival .stp, .arrival .fin, .arrival .finAck]

def isCall : Event → Bool
  | .connect | .accept | .send | .close => true
  | _ => false

def name : Event → String
  | .connect => "Connect"
  | .accept => "Accept"
  | .send => "Send"
  | .close => "Close"
  | .timer => "Timer"
  | .arrival kind => kind.name

end Event

end ReliableStream
