import ReliableStream.Hub
import ReliableStream.Odds

/-!
A hub whose links pass, hold back or lose what is sent on them. Frames held back come out behind
the next frame that passes, or all at once when the hub is flushed.
-/

namespace ReliableStream

structure LossyHub where
  hub : Hub := {}
  odds : Odds
  delayed : List Frame := []

namespace LossyHub

def putAll (h : Hub) (frames : List Frame) : Hub := frames.foldl Hub.put h

def attach (l : LossyHub) (host : HostId) : LossyHub × LinkId :=
  let (hub, link) := l.hub.attach host
  ({ l with hub }, link)

def flush (l : LossyHub) : LossyHub := { l with hub := putAll l.hub l.delayed, delayed := [] }

/-- Sends a frame over a link with a given fate. Only a frame that passes has its source looked
at. -/
def sendWith (l : LossyHub) (link : LinkId) (f : Frame) : Fate → LossyHub × Except LinkFault Unit
  | .pass =>
    match l.hub.send link f with
    | (hub, .error fault) => ({ l with hub }, .error fault)
    | (hub, .ok ()) => ({ l with hub }.flush, .ok ())
  | .hold => ({ l with delayed := l.delayed ++ [f] }, .ok ())
  | .lose => (l, .ok ())

def send (l : LossyHub) (link : LinkId) (f : Frame) (first second : Draw) :
    LossyHub × Except LinkFault Unit :=
  l.sendWith link f (l.odds.fate first second)

def receive (l : LossyHub) (link : LinkId) : LossyHub × Except LinkFault (Option Frame) :=
  let (hub, result) := l.hub.receive link
  ({ l with hub }, result)

end LossyHub

end ReliableStream
