import ReliableStream.LossyHub
import ReliableStream.Station

/-!
A conversation of two stations from one `connect` to the last FIN. The stations send whatever they
have to; the timer fires whenever both have fallen silent. Frames take no time, so that time passes
by ticks alone.
-/

namespace ReliableStream

/-- Which frames a link loses, by their number on it. -/
abbrev Losses := Nat → Bool

/-- Frames are lost on a link with such odds, if the draws come out least. Then only certain loss
loses anything for good. -/
def Odds.losses (o : Odds) : Losses := fun _ => o.fate 0 0 ≠ .pass

structure Conversation where
  caller : Station
  callee : Station
  callerLosses : Losses
  calleeLosses : Losses
  period : Nat
  ticks : Nat := 0
  callerSent : Nat := 0
  calleeSent : Nat := 0
  attached : Bool := true

namespace Conversation

def survivors (losses : Losses) (sent : Nat) (segments : List Segment) : List Frame :=
  let frames := (inSendingOrder segments).filterMap fun s => s.toFrame.toOption
  (frames.zipIdx sent).filterMap fun (f, number) => if losses number then none else some f

def frameCount (segments : List Segment) : Nat :=
  (segments.filterMap fun s => s.toFrame.toOption).length

def fromCaller (c : Conversation) : Conversation :=
  let (caller, segments) := c.caller.sendRound
  let frames := survivors c.callerLosses c.callerSent segments
  { c with
    caller
    callerSent := c.callerSent + frameCount segments
    callee := if c.attached then frames.foldl Station.receiveFrame c.callee else c.callee }

def fromCallee (c : Conversation) : Conversation :=
  let (callee, segments) := c.callee.sendRound
  let frames := survivors c.calleeLosses c.calleeSent segments
  { c with
    callee
    calleeSent := c.calleeSent + frameCount segments
    caller := if c.attached then frames.foldl Station.receiveFrame c.caller else c.caller }

def tick (c : Conversation) : Conversation :=
  { c with caller := c.caller.tick, callee := c.callee.tick, ticks := c.ticks + 1 }

def busy (c : Conversation) : Bool := c.caller.host.nudged || c.callee.host.nudged

/-- The moment `limit` milliseconds after the start has come. It comes before the next tick if both
stations are silent and that tick is later. -/
def overdue (c : Conversation) (limit : Nat) : Bool :=
  limit ≤ c.ticks * c.period || (!c.busy && limit < (c.ticks + 1) * c.period)

def exchange (c : Conversation) : Conversation :=
  (if c.busy then c else c.tick).fromCaller.fromCallee

structure Opening where
  ending : Option (Except Failure SocketPair) := none
  accepted : Option SocketPair := none

/-- Exchanges frames, and accepts on a port unless nobody listens, until both ends are connected or
the call has failed or has waited for as many milliseconds as it may. -/
def establish (listen : Option Port) (timeout : Option Nat) :
    Nat → Conversation → Opening → Conversation × Opening
  | 0, c, o => (c, o)
  | rounds + 1, c, o =>
    match o with
    | ⟨some (.ok _), some _⟩ => (c, o)
    | ⟨some (.error _), _⟩ => (c, o)
    | _ =>
      if o.ending.isNone && timeout.any c.overdue then (c, o)
      else
        let c := c.exchange
        let (caller, endings) := c.caller.resumeAll
        let ending := o.ending.orElse fun _ => endings.head?.map (·.result)
        let (callee, accepted) :=
          match listen, o.accepted with
          | some port, none =>
            let (callee, result) := c.callee.accept port
            (callee, result.toOption.join)
          | _, accepted => (c.callee, accepted)
        establish listen timeout rounds { c with caller, callee } { ending, accepted }

def drain (length : Nat) (k : SocketPair) : Nat → Station → List UInt8 → Station × List UInt8
  | 0, s, got => (s, got)
  | more + 1, s, got =>
    match s.read k (List.replicate length 0) with
    | (s, .ok ⟨n + 1, buffer⟩) => drain length k more s (got ++ buffer.take (n + 1))
    | (s, _) => (s, got)

structure Heard where
  caller : List UInt8 := []
  callee : List UInt8 := []

/-- Exchanges frames and reads until each end has read as much as it waits for. -/
def listen (length : Nat) (k : SocketPair) (callerWants calleeWants : Nat) :
    Nat → Conversation → Heard → Conversation × Heard
  | 0, c, heard => (c, heard)
  | rounds + 1, c, heard =>
    if callerWants ≤ heard.caller.length ∧ calleeWants ≤ heard.callee.length then (c, heard)
    else
      let c := c.exchange
      let (caller, callerGot) := drain length k (callerWants + 1) c.caller []
      let (callee, calleeGot) := drain length k.swap (calleeWants + 1) c.callee []
      listen length k callerWants calleeWants rounds { c with caller, callee }
        ⟨heard.caller ++ callerGot, heard.callee ++ calleeGot⟩

def await (holds : Conversation → Bool) : Nat → Conversation → Conversation
  | 0, c => c
  | rounds + 1, c => if holds c then c else await holds rounds c.exchange

def bothClosed (c : Conversation) : Bool :=
  c.caller.host.table.connections.isEmpty && c.callee.host.table.connections.isEmpty

end Conversation

end ReliableStream
