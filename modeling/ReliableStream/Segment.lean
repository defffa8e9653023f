import ReliableStream.Endpoint

/-!
Segments, what two endpoints of a connection say to each other: four flags, a sequence number and
a payload. Seven of the sixteen sets of flags have a meaning, the `Kind` of the segment.
-/

namespace ReliableStream

structure Flags where
  syn : Bool := false
  ack : Bool := false
  stp : Bool := false
  fin : Bool := false
  deriving DecidableEq, Repr, Inhabited

namespace Flags

def bits (f : Flags) : UInt8 :=
  (if f.syn then 1 else 0) + (if f.ack then 2 else 0) + (if f.stp then 4 else 0) +
    (if f.fin then 8 else 0)

/-- The flags of a byte that has none but the four defined bits. -/
def ofBits? (b : UInt8) : Option Flags :=
  if b < 16 then some ⟨b &&& 1 ≠ 0, b &&& 2 ≠ 0, b &&& 4 ≠ 0, b &&& 8 ≠ 0⟩ else none

def contains (f g : Flags) : Bool :=
  (!g.syn || f.syn) && (!g.ack || f.ack) && (!g.stp || f.stp) && (!g.fin || f.fin)

def union (f g : Flags) : Flags :=
  ⟨f.syn || g.syn, f.ack || g.ack, f.stp || g.stp, f.fin || g.fin⟩

def isEmpty (f : Flags) : Bool := f = {}

def describe (f : Flags) : String :=
  if f.isEmpty then "DATA"
  else "|".intercalate
    ((if f.syn then ["SYN"] else []) ++ (if f.ack then ["ACK"] else []) ++
      (if f.stp then ["STP"] else []) ++ (if f.fin then ["FIN"] else []))

theorem bits_lt (f : Flags) : f.bits < 16 := by
  obtain ⟨s, a, p, n⟩ := f
  cases s <;> cases a <;> cases p <;> cases n <;> decide

@[simp] theorem ofBits?_bits (f : Flags) : ofBits? f.bits = some f := by
  obtain ⟨s, a, p, n⟩ := f
  cases s <;> cases a <;> cases p <;> cases n <;> decide

theorem lt_sixteen {b : UInt8} : b < 16 ↔ b ≤ 15 := by
  rw [UInt8.lt_iff_toNat_lt, UInt8.le_iff_toNat_le]
  exact Nat.lt_succ_iff

theorem bits_ofBits? {b : UInt8} {f : Flags} (h : ofBits? b = some f) : f.bits = b := by
  have each : ∀ n < 16, (ofBits? (UInt8.ofNat n)).map bits = some (UInt8.ofNat n) := by decide
  have hb : b < 16 := by
    unfold ofBits? at h
    split at h
    · assumption
    · cases h
  have hmap := each b.toNat (UInt8.lt_iff_toNat_lt.1 hb)
  rw [UInt8.ofNat_toNat, h] at hmap
  exact Option.some.inj hmap

end Flags

inductive Kind where
  | data
  | syn
  | synAck
  | ack
  | stp
  | fin
  | finAck
  deriving DecidableEq, Repr, Inhabited

namespace Kind

def flags : Kind → Flags
  | .data => {}
  | .syn => { syn := true }
  | .synAck => { syn := true, ack := true }
  | .ack => { ack := true }
  | .stp => { stp := true }
  | .fin => { fin := true }
  | .finAck => { fin := true, ack := true }

def ofFlags? : Flags → Option Kind
  | ⟨false, false, false, false⟩ => some .data
  | ⟨true, false, false, false⟩ => some .syn
  | ⟨true, true, false, false⟩ => some .synAck
  | ⟨false, true, false, false⟩ => some .ack
  | ⟨false, false, true, false⟩ => some .stp
  | ⟨false, false, false, true⟩ => some .fin
  | ⟨false, true, false, true⟩ => some .finAck
  | _ => none

/-- Replies answer a segment. They are not numbered, not kept and not sent again. -/
def isReply : Kind → Bool
  | .ack | .synAck | .finAck => true
  | _ => false

@[simp] theorem ofFlags?_flags (k : Kind) : ofFlags? k.flags = some k := by
  cases k <;> rfl

end Kind

abbrev SequenceNumber := UInt32

structure Segment where
  dest : Endpoint
  src : Endpoint
  flags : Flags
  seq : SequenceNumber := 0
  payload : List UInt8 := []
  deriving DecidableEq, Repr, Inhabited

namespace Segment

def data (k : SocketPair) (payload : List UInt8) : Segment :=
  { dest := k.far, src := k.near, flags := Kind.data.flags, payload }

/-- The segment without payload that says `kind` along the connection, from the near end. -/
def control (k : SocketPair) (kind : Kind) : Segment :=
  { dest := k.far, src := k.near, flags := kind.flags }

/-- The answer to a segment goes back with the number of the segment and no payload. -/
def answer (s : Segment) (kind : Kind) : Segment :=
  { dest := s.src, src := s.dest, flags := kind.flags, seq := s.seq }

def kind? (s : Segment) : Option Kind := Kind.ofFlags? s.flags

/-- The connection as the receiver of the segment names it. -/
def receiverPair (s : Segment) : SocketPair := ⟨s.src, s.dest⟩

/-- The connection as the sender of the segment names it. -/
def senderPair (s : Segment) : SocketPair := ⟨s.dest, s.src⟩

def dropPayload (s : Segment) (n : Nat) : Segment := { s with payload := s.payload.drop n }

def isReply (s : Segment) : Bool := s.kind?.any Kind.isReply

@[simp] theorem senderPair_swap (s : Segment) : s.senderPair.swap = s.receiverPair := rfl

@[simp] theorem senderPair_data (k : SocketPair) (p : List UInt8) : (data k p).senderPair = k := rfl

@[simp] theorem senderPair_control (k : SocketPair) (kind : Kind) :
    (control k kind).senderPair = k := rfl

@[simp] theorem senderPair_answer (s : Segment) (kind : Kind) :
    (s.answer kind).senderPair = s.receiverPair := rfl

@[simp] theorem kind?_control (k : SocketPair) (kind : Kind) :
    (control k kind).kind? = some kind := Kind.ofFlags?_flags kind

@[simp] theorem kind?_data (k : SocketPair) (p : List UInt8) : (data k p).kind? = some .data := rfl

@[simp] theorem kind?_answer (s : Segment) (kind : Kind) : (s.answer kind).kind? = some kind :=
  Kind.ofFlags?_flags kind

end Segment

end ReliableStream
