import ReliableStream.Conversation

/-!
Conversations by plan: who says what, and who closes. `Plan.hold` holds the conversation and
reports what each end saw.
-/

namespace ReliableStream

inductive Farewell where
  | none
  | caller
  | callee
  | both
  | alone
  deriving DecidableEq, Repr, Inhabited

structure Plan where
  callerAddress : HostId
  calleeAddress : HostId
  recvWindow : Nat
  sendWindow : Nat
  patience : Nat
  period : Nat
  /-- How many milliseconds the call may wait for its answer, if there is a limit. -/
  timeout : Option Nat := .none
  port : Port
  listen : Bool
  callerData : List UInt8
  calleeData : List UInt8
  readLength : Nat
  callerLosses : Losses
  calleeLosses : Losses
  rounds : Nat
  farewell : Farewell

structure Aftermath where
  closed : Bool
  callerClose : Option (Except Failure Unit) := .none
  calleeClose : Option (Except Failure Unit) := .none
  callerRead : Int
  calleeRead : Int
  callerWrite : Except Failure Nat

inductive Parting where
  | open
  | closed (aftermath : Aftermath)
  | reaped (close : Except Failure Unit) (closed : Bool)

structure Exchanged where
  caller : SocketPair
  callee : Option SocketPair
  callerWritten : Int
  calleeWritten : Int
  heard : Conversation.Heard
  parting : Parting

inductive Report where
  | failed (failure : Failure) (entries inFlight : Nat)
  | held (exchanged : Exchanged)

namespace Plan

def start (p : Plan) : Conversation where
  caller := .fresh p.callerAddress p.recvWindow p.sendWindow p.patience
  callee := .fresh p.calleeAddress p.recvWindow p.sendWindow p.patience
  callerLosses := p.callerLosses
  calleeLosses := p.calleeLosses
  period := p.period

def failed (p : Plan) (s : Station) (e : Failure) : Report :=
  .failed e s.host.table.connections.size
    (s.host.outbox.inFlight ⟨⟨p.calleeAddress, p.port⟩, ⟨p.callerAddress, 0⟩⟩)

def aftermath (c : Conversation) (k : SocketPair)
    (callerClose calleeClose : Option (Except Failure Unit)) : Aftermath where
  closed := c.bothClosed
  callerClose
  calleeClose
  callerRead := Station.bare ((c.caller.read k [0]).2.map (·.count))
  calleeRead := Station.bare ((c.callee.read k.swap [0]).2.map (·.count))
  callerWrite := (c.caller.write k [0]).2

def closeEnds (p : Plan) (c : Conversation) (k : SocketPair) (callerCloses calleeCloses : Bool) :
    Aftermath :=
  let (caller, callerClose) :=
    if callerCloses then (c.caller.close k).map id some else (c.caller, .none)
  let (callee, calleeClose) :=
    if calleeCloses then (c.callee.close k.swap).map id some else (c.callee, .none)
  let c := Conversation.await Conversation.bothClosed p.rounds { c with caller, callee }
  aftermath c k callerClose calleeClose

/-- Waits until everything of the caller is acknowledged, cuts the callee off, closes and waits
until the caller knows of no connection. -/
def closeAlone (p : Plan) (c : Conversation) (k : SocketPair) : Parting :=
  let c := Conversation.await (fun c => c.caller.host.outbox.isDrained k) p.rounds c
  let (caller, close) := c.caller.close k
  let reaped (c : Conversation) : Bool := c.caller.host.table.connections.isEmpty
  let c := Conversation.await reaped p.rounds { c with caller, attached := false }
  .reaped close (reaped c)

def part (p : Plan) (c : Conversation) (k : SocketPair) : Parting :=
  match p.farewell with
  | .none => .open
  | .caller => .closed (p.closeEnds c k true false)
  | .callee => .closed (p.closeEnds c k false true)
  | .both => .closed (p.closeEnds c k true true)
  | .alone => p.closeAlone c k

def talk (p : Plan) (c : Conversation) (k : SocketPair) (callee : Option SocketPair) : Exchanged :=
  let (callerStation, callerWritten) := c.caller.write k p.callerData
  let (calleeStation, calleeWritten) := c.callee.write k.swap p.calleeData
  let (c, heard) := Conversation.listen p.readLength k p.calleeData.length p.callerData.length
    p.rounds { c with caller := callerStation, callee := calleeStation } {}
  { caller := k
    callee
    callerWritten := Station.bare callerWritten
    calleeWritten := Station.bare calleeWritten
    heard
    parting := p.part c k }

def hold (p : Plan) : Report :=
  let c := p.start
  match c.caller.connect p.calleeAddress p.port with
  | (caller, .error e) => p.failed caller e
  | (caller, .ok ticket) =>
    let listen := if p.listen then some p.port else .none
    let (c, opening) := Conversation.establish listen p.timeout p.rounds { c with caller } {}
    match opening.ending with
    | some (.ok k) => .held (p.talk c k opening.accepted)
    | some (.error e) => p.failed c.caller e
    | .none => p.failed (c.caller.expire ticket) .timedOut

end Plan

end ReliableStream
