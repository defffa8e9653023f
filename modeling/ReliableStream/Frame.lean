import ReliableStream.Decimal
import ReliableStream.Endpoint

/-!
Frames, what a link carries. A raw frame is the destination, the source, a zero byte, the length of
the contents and the contents, at most 32 bytes in all.
-/

namespace ReliableStream

def linkHeaderLength : Nat := 4

def frameLength : Nat := 32

def contentsLength : Nat := frameLength - linkHeaderLength

structure Frame where
  dest : HostId
  src : HostId
  contents : List UInt8
  fits : contents.length ≤ contentsLength
  deriving DecidableEq, Repr

inductive FrameFault where
  | tooLong
  | truncated
  | reserved
  | lengthMismatch
  deriving DecidableEq, Repr

def FrameFault.message : FrameFault → String
  | .tooLong => "frame contents too long"
  | .truncated => "truncated frame header"
  | .reserved => "reserved byte must be zero"
  | .lengthMismatch => "frame length mismatch"

namespace Frame

def make (dest src : HostId) (contents : List UInt8) : Except FrameFault Frame :=
  if h : contents.length ≤ contentsLength then .ok ⟨dest, src, contents, h⟩ else .error .tooLong

def ofBytes : List UInt8 → Except FrameFault Frame
  | dest :: src :: reserved :: length :: contents =>
    if reserved ≠ 0 then .error .reserved
    else if length.toNat ≠ contents.length then .error .lengthMismatch
    else make dest src contents
  | _ => .error .truncated

def toBytes (f : Frame) : List UInt8 :=
  f.dest :: f.src :: 0 :: UInt8.ofNat f.contents.length :: f.contents

theorem ofBytes_toBytes (f : Frame) : ofBytes f.toBytes = .ok f := by
  have h := f.fits
  simp only [contentsLength, frameLength, linkHeaderLength] at h
  have hl : (UInt8.ofNat f.contents.length).toNat = f.contents.length :=
    UInt8.toNat_ofNat_of_lt' (by simp [UInt8.size]; omega)
  simp [ofBytes, toBytes, make, hl, f.fits]

theorem toBytes_ofBytes {raw : List UInt8} {f : Frame} (h : ofBytes raw = .ok f) :
    f.toBytes = raw := by
  unfold ofBytes at h
  split at h
  · split at h
    · cases h
    rename_i hreserved
    split at h
    · cases h
    rename_i hlength
    unfold make at h
    split at h
    · cases h
      rw [Decidable.not_not] at hreserved hlength
      rw [toBytes, hreserved, ← hlength, UInt8.ofNat_toNat]
    · cases h
  · cases h

theorem length_toBytes_le (f : Frame) : f.toBytes.length ≤ frameLength :=
  Nat.add_le_add_right f.fits linkHeaderLength

def describe (f : Frame) : String :=
  "Frame \x7b dest: " ++ Decimal.text f.dest.toNat ++ ", src: " ++ Decimal.text f.src.toNat ++
    ", contents: " ++ Decimal.text f.contents.length ++ " \x7d"

end Frame

end ReliableStream
