import ReliableStream.Decimal
import ReliableStream.Endpoint

/-!
Endpoints as text: `/host/1/port/7`. The port may be left out when reading and is 0 then; it is
always written.
-/

namespace ReliableStream

inductive AddressFault where
  | unknownProtocol
  | number (fault : Decimal.Fault)
  | portLimit (port : Port)
  deriving DecidableEq, Repr

def AddressFault.message : AddressFault → String
  | .unknownProtocol => "Unknown protocol."
  | .number fault => fault.message
  | .portLimit port => "port " ++ Decimal.text port.toNat ++ " exceeds the port limit"

namespace Endpoint

def chars (e : Endpoint) : List Char :=
  "/host/".toList ++ Decimal.digits e.host.toNat ++ "/port/".toList ++ Decimal.digits e.port.toNat

def text (e : Endpoint) : String := String.ofList e.chars

def parts : List Char → List (List Char)
  | [] => [[]]
  | '/' :: rest => [] :: parts rest
  | c :: rest =>
    match parts rest with
    | [] => [[c]]
    | part :: others => (c :: part) :: others

def number? (cs : List Char) : Except AddressFault UInt8 :=
  (Decimal.byte? cs).mapError .number

def port? (cs : List Char) : Except AddressFault Port := do
  let port ← number? cs
  if validPort port then .ok port else .error (.portLimit port)

def portParts? : List (List Char) → Except AddressFault Port
  | [] => .ok 0
  | ['p', 'o', 'r', 't'] :: port :: rest => do
    let port ← port? port
    if rest.isEmpty then .ok port else .error .unknownProtocol
  | _ => .error .unknownProtocol

/-- Reads an endpoint from the parts of its text. Each number is judged before what follows it. -/
def ofParts? : List (List Char) → Except AddressFault Endpoint
  | [] :: ['h', 'o', 's', 't'] :: host :: rest => do
    let host ← number? host
    let port ← portParts? rest
    return ⟨host, port⟩
  | _ => .error .unknownProtocol

def ofChars? (cs : List Char) : Except AddressFault Endpoint := ofParts? (parts cs)

def ofText? (s : String) : Except AddressFault Endpoint := ofChars? s.toList

end Endpoint

def SocketPair.text (k : SocketPair) : String := k.near.text ++ " <- " ++ k.far.text

end ReliableStream
