import ReliableStream.Decimal
import ReliableStream.Frame
import ReliableStream.Segment

/-!
Segments in frames. The hosts and the length are those of the frame; its contents are the two
ports, a zero byte, the flags, the sequence number with its most significant byte first, and the
payload.
-/

namespace ReliableStream

def headerLength : Nat := 8

def payloadLength : Nat := contentsLength - headerLength

inductive SegmentFault where
  | truncated (length : Nat)
  | reserved (byte : UInt8)
  | flags (byte : UInt8)
  | port (value : Port)
  | tooLong (length : Nat)
  | frame (fault : FrameFault)
  deriving DecidableEq, Repr

def hexByte (b : UInt8) : String :=
  String.ofList ['0', 'x', Nat.digitChar (b.toNat / 16), Nat.digitChar (b.toNat % 16)]

def SegmentFault.message : SegmentFault → String
  | .truncated length => "truncated segment header (" ++ Decimal.text length ++ " bytes)"
  | .reserved byte => "reserved byte is " ++ hexByte byte
  | .flags byte => "undefined flag bits in " ++ hexByte byte
  | .port p => "port " ++ Decimal.text p.toNat ++ " exceeds the port limit"
  | .tooLong length => "payload of " ++ Decimal.text length ++ " bytes does not fit a frame"
  | .frame fault => "invalid frame: " ++ fault.message

def numberBytes (n : UInt32) : List UInt8 :=
  [(n >>> 24).toUInt8, (n >>> 16).toUInt8, (n >>> 8).toUInt8, n.toUInt8]

def ofNumberBytes (a b c d : UInt8) : UInt32 :=
  (a.toUInt32 <<< 24) ||| (b.toUInt32 <<< 16) ||| (c.toUInt32 <<< 8) ||| d.toUInt32

namespace Segment

def contents (s : Segment) : List UInt8 :=
  s.dest.port :: s.src.port :: 0 :: s.flags.bits :: (numberBytes s.seq ++ s.payload)

theorem length_contents (s : Segment) : s.contents.length = headerLength + s.payload.length := by
  simp [contents, numberBytes, headerLength]
  omega

def toFrame (s : Segment) : Except SegmentFault Frame :=
  if !validPort s.dest.port then .error (.port s.dest.port)
  else if !validPort s.src.port then .error (.port s.src.port)
  else if h : s.payload.length ≤ payloadLength then
    .ok ⟨s.dest.host, s.src.host, s.contents, by
      rw [length_contents]
      simp only [payloadLength, contentsLength, frameLength, linkHeaderLength, headerLength] at h ⊢
      omega⟩
  else .error (.tooLong s.payload.length)

def ofFrame (f : Frame) : Except SegmentFault Segment :=
  match f.contents with
  | destPort :: srcPort :: reserved :: bits :: a :: b :: c :: d :: payload =>
    if reserved ≠ 0 then .error (.reserved reserved)
    else match Flags.ofBits? bits with
      | none => .error (.flags bits)
      | some flags =>
        if !validPort destPort then .error (.port destPort)
        else if !validPort srcPort then .error (.port srcPort)
        else .ok ⟨⟨f.dest, destPort⟩, ⟨f.src, srcPort⟩, flags, ofNumberBytes a b c d, payload⟩
  | short => .error (.truncated short.length)

def ofBytes (raw : List UInt8) : Except SegmentFault Segment :=
  match Frame.ofBytes raw with
  | .error fault => .error (.frame fault)
  | .ok f => ofFrame f

def describeEnd (e : Endpoint) : String :=
  Decimal.text e.host.toNat ++ ":" ++ Decimal.text e.port.toNat

def describe (s : Segment) : String :=
  "Segment \x7b src: " ++ describeEnd s.src ++ ", dest: " ++ describeEnd s.dest ++
    ", flags: " ++ s.flags.describe ++ ", seq: " ++ Decimal.text s.seq.toNat ++
    ", payload: " ++ Decimal.text s.payload.length ++ " \x7d"

end Segment

end ReliableStream
