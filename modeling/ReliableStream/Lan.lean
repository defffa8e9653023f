import ReliableStream.Network

/-!
Stations that run by themselves: whenever something may have to be sent it is, and every dial that
can end does. Links may refuse to send or be cut, and stations may be gone.
-/

namespace ReliableStream

structure Condition where
  refusing : Bool := false
  /-- The link is dead: nothing arrives, nothing leaves. -/
  cut : Bool := false
  gone : Bool := false
  deriving DecidableEq, Repr, Inhabited

structure Lan where
  network : Network
  conditions : List Condition
  /-- For each dial, its station and its ticket there; no ticket if it failed at once. -/
  dials : List (Nat × Option Ticket) := []

structure Lan.Done where
  dial : Nat
  result : Except Failure SocketPair

structure Lan.Deeds where
  sent : List Frame := []
  done : List Lan.Done := []

namespace Lan

def Deeds.append (a b : Deeds) : Deeds := ⟨a.sent ++ b.sent, a.done ++ b.done⟩

def fresh (stations : List Station) : Lan :=
  { network := { stations }, conditions := stations.map (fun _ => {}) }

def condition (l : Lan) (i : Nat) : Condition := l.conditions.getD i {}

def station? (l : Lan) (i : Nat) : Option Station :=
  if (l.condition i).gone then none else l.network.stations[i]?

def putStation (l : Lan) (i : Nat) (s : Station) : Lan :=
  { l with network := { l.network with stations := l.network.stations.set i s } }

def setCondition (l : Lan) (i : Nat) (f : Condition → Condition) : Lan :=
  { l with conditions := l.conditions.modify i f }

def dialNumber (l : Lan) (i : Nat) (ticket : Ticket) : Nat :=
  l.dials.findIdx (fun d => d = (i, some ticket))

def settle (l : Lan) (i : Nat) : Lan × Deeds :=
  match l.station? i with
  | none => (l, {})
  | some s =>
    let condition := l.condition i
    let (s, segments) := if condition.cut then (s, []) else s.sendRound
    let frames := if condition.refusing then [] else Network.made (Network.frames segments)
    let (s, endings) := s.resumeAll
    let l := { l with network.wire := l.network.wire ++ frames }
    (l.putStation i s, ⟨frames, endings.map fun e => ⟨l.dialNumber i e.ticket, e.result⟩⟩)

def connect (l : Lan) (i : Nat) (host : HostId) (port : Port) : Option (Lan × Nat × Deeds) :=
  (l.station? i).map fun s =>
    let (s, result) := s.connect host port
    let number := l.dials.length
    let failed := match result with
      | .ok _ => []
      | .error e => [⟨number, .error e⟩]
    let l := { l.putStation i s with dials := l.dials ++ [(i, result.toOption)] }
    let (l, deeds) := l.settle i
    (l, number, Deeds.append ⟨[], failed⟩ deeds)

def cancel (l : Lan) (number : Nat) : Lan × Bool :=
  match l.dials[number]? with
  | some (i, some ticket) =>
    match l.station? i with
    | some s => (l.putStation i (s.cancel ticket), s.dials.any (fun d => d.ticket = ticket))
    | none => (l, false)
  | _ => (l, false)

def call (l : Lan) (i : Nat) (c : Call) : Option (Lan × Station.Reply × Deeds) :=
  (l.station? i).map fun s =>
    let (s, reply) := s.call c
    let (l, deeds) := (l.putStation i s).settle i
    (l, reply, deeds)

def arrive (l : Lan) (i : Nat) (frames : List Frame) : Lan × Deeds :=
  match l.station? i with
  | none => (l, {})
  | some s =>
    if (l.condition i).cut then (l, {})
    else (l.putStation i (frames.foldl Station.receiveFrame s)).settle i

def hand (l : Lan) (f : Frame) : Lan × Deeds :=
  match l.network.stationAt? f.dest with
  | none => (l, {})
  | some i => l.arrive i [f]

def lose (l : Lan) (i : Nat) : Lan := { l with network := l.network.lose i }

def duplicate (l : Lan) (i : Nat) : Lan × Deeds :=
  match l.network.wire[i]? with
  | none => (l, {})
  | some f => l.hand f

def deliver (l : Lan) (i : Nat) : Lan × Deeds :=
  match l.network.wire[i]? with
  | none => (l, {})
  | some f => (l.lose i).hand f

def deliverAll (l : Lan) : Nat → Lan × Nat × Deeds
  | 0 => (l, 0, {})
  | limit + 1 =>
    if l.network.wire.isEmpty then (l, 0, {})
    else
      let (l, first) := l.deliver 0
      let (l, count, deeds) := l.deliverAll limit
      (l, count + 1, first.append deeds)

end Lan

end ReliableStream
