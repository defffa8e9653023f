import ReliableStream.Phase
import ReliableStream.Segment.Wire

namespace ReliableStream

inductive LinkFault where
  | foreignSource
  | detached
  | frame (fault : FrameFault)
  deriving DecidableEq, Repr

def LinkFault.message : LinkFault → String
  | .foreignSource => "foreign source host"
  | .detached => "link detached"
  | .frame fault => fault.message

inductive CallFault where
  | invalidPort
  | alreadyExists
  | nothingPending
  | notOpenForSending
  | notOpen
  | peerStopped
  | sendingStopped
  | connectionClosed
  deriving DecidableEq, Repr

def CallFault.message : CallFault → String
  | .invalidPort => "invalid port"
  | .alreadyExists => "connection already exists"
  | .nothingPending => "no pending connection"
  | .notOpenForSending => "connection is not open for sending"
  | .notOpen => "connection is not open"
  | .peerStopped => "peer stopped the connection"
  | .sendingStopped => "sending was stopped"
  | .connectionClosed => "connection closed"

inductive Failure where
  | malformed (fault : SegmentFault)
  | misplaced (phase : Phase) (event : Event)
  | simultaneousOpen
  | call (fault : CallFault)
  | noFreePort
  | timedOut
  | link (fault : LinkFault)
  | shutDown
  deriving DecidableEq, Repr

def Failure.message : Failure → String
  | .malformed fault => fault.message
  | .misplaced phase event => "protocol error: " ++ event.name ++ " in state " ++ phase.name
  | .simultaneousOpen => "protocol deadlock: simultaneous open"
  | .call fault => "syscall failed: " ++ fault.message
  | .noFreePort => "out of local ports"
  | .timedOut => "connect timed out"
  | .link fault => "link error: " ++ fault.message
  | .shutDown => "transport shut down"

end ReliableStream
