import Mathlib.Algebra.Group.Nat.Defs
import ReliableStream.Segment.Wire

namespace ReliableStream

theorem toNat_ofNumberBytes (a b c d : UInt8) : (ofNumberBytes a b c d).toNat =
    a.toNat * 2 ^ 24 + (b.toNat * 2 ^ 16 + (c.toNat * 2 ^ 8 + d.toNat)) := by
  have ha := a.toNat_lt
  have hb := b.toNat_lt
  have hc := c.toNat_lt
  have hd := d.toNat_lt
  have shifted_a : (a.toUInt32 <<< 24).toNat = a.toNat * 2 ^ 24 := by
    simp [UInt32.toNat_shiftLeft, Nat.shiftLeft_eq]
    omega
  have shifted_b : (b.toUInt32 <<< 16).toNat = b.toNat * 2 ^ 16 := by
    simp [UInt32.toNat_shiftLeft, Nat.shiftLeft_eq]
    omega
  have shifted_c : (c.toUInt32 <<< 8).toNat = c.toNat * 2 ^ 8 := by
    simp [UInt32.toNat_shiftLeft, Nat.shiftLeft_eq]
    omega
  -- Each byte lies above all bits of the bytes after it, so there is nothing to carry.
  have join {i x y : Nat} (h : y < 2 ^ i) : x * 2 ^ i ||| y = x * 2 ^ i + y := by
    rw [← Nat.shiftLeft_eq, Nat.shiftLeft_add_eq_or_of_lt h]
  have hcd : c.toNat * 2 ^ 8 ||| d.toNat = c.toNat * 2 ^ 8 + d.toNat := join hd
  have hbcd : b.toNat * 2 ^ 16 ||| (c.toNat * 2 ^ 8 + d.toNat) =
      b.toNat * 2 ^ 16 + (c.toNat * 2 ^ 8 + d.toNat) := join (by omega)
  rw [ofNumberBytes, UInt32.toNat_or, UInt32.toNat_or, UInt32.toNat_or, shifted_a, shifted_b,
    shifted_c, UInt8.toNat_toUInt32, Nat.or_assoc, Nat.or_assoc, hcd, hbcd, join (by omega)]

theorem ofNumberBytes_numberBytes (n : UInt32) :
    ofNumberBytes (n >>> 24).toUInt8 (n >>> 16).toUInt8 (n >>> 8).toUInt8 n.toUInt8 = n := by
  have hn := n.toNat_lt
  apply UInt32.toNat_inj.1
  simp only [toNat_ofNumberBytes, UInt32.toNat_toUInt8, UInt32.toNat_shiftRight,
    Nat.shiftRight_eq_div_pow, UInt32.reduceToNat, Nat.reduceMod]
  omega

theorem numberBytes_ofNumberBytes (a b c d : UInt8) :
    numberBytes (ofNumberBytes a b c d) = [a, b, c, d] := by
  have h := toNat_ofNumberBytes a b c d
  have ha := a.toNat_lt
  have hb := b.toNat_lt
  have hc := c.toNat_lt
  have hd := d.toNat_lt
  simp only [numberBytes, List.cons.injEq, and_true, ← UInt8.toNat_inj, UInt32.toNat_toUInt8,
    UInt32.toNat_shiftRight, Nat.shiftRight_eq_div_pow, h, UInt32.reduceToNat, Nat.reduceMod]
  omega

namespace Segment

def Fits (s : Segment) : Prop :=
  validPort s.dest.port = true ∧ validPort s.src.port = true ∧ s.payload.length ≤ payloadLength

instance (s : Segment) : Decidable s.Fits :=
  inferInstanceAs (Decidable (validPort s.dest.port = true ∧ validPort s.src.port = true ∧
    s.payload.length ≤ payloadLength))

theorem fits_of_pair {s : Segment} {k : SocketPair} (hk : s.senderPair = k)
    (hp : validPort k.near.port = true ∧ validPort k.far.port = true)
    (hl : s.payload.length ≤ payloadLength) : s.Fits := by
  subst hk
  exact ⟨hp.2, hp.1, hl⟩

theorem fits_answer {s : Segment} (h : s.Fits) (kind : Kind) : (s.answer kind).Fits :=
  ⟨h.2.1, h.1, Nat.zero_le _⟩

theorem toFrame_of_fits {s : Segment} (h : s.Fits) : ∃ f, s.toFrame = .ok f := by
  obtain ⟨hd, hs, hp⟩ := h
  simp [toFrame, hd, hs, hp]

theorem toFrame_of_not_fits {s : Segment} (h : ¬ s.Fits) : ∃ fault, s.toFrame = .error fault := by
  unfold toFrame
  split
  · exact ⟨_, rfl⟩
  rename_i hd
  split
  · exact ⟨_, rfl⟩
  rename_i hs
  split
  · rename_i hp
    exact absurd ⟨by simpa using hd, by simpa using hs, hp⟩ h
  · exact ⟨_, rfl⟩

theorem fits_of_toFrame {s : Segment} {f : Frame} (h : s.toFrame = .ok f) : s.Fits := by
  refine Classical.byContradiction fun hn => ?_
  obtain ⟨fault, hf⟩ := toFrame_of_not_fits hn
  cases h.symm.trans hf

theorem toBytes_of_toFrame {s : Segment} {f : Frame} (h : s.toFrame = .ok f) :
    f.toBytes = s.dest.host :: s.src.host :: 0 ::
      UInt8.ofNat (headerLength + s.payload.length) :: s.contents := by
  obtain ⟨hd, hs, hp⟩ := fits_of_toFrame h
  simp only [toFrame, hd, hs, hp, Bool.not_true, Bool.false_eq_true, if_false, dif_pos,
    Except.ok.injEq] at h
  rw [← h, Frame.toBytes, length_contents]

theorem ofFrame_toFrame {s : Segment} {f : Frame} (h : s.toFrame = .ok f) :
    ofFrame f = .ok s := by
  unfold toFrame at h
  split at h
  · cases h
  · rename_i hd
    split at h
    · cases h
    · rename_i hs
      split at h
      · cases h
        simp [ofFrame, contents, numberBytes, ofNumberBytes_numberBytes, Flags.ofBits?_bits, hd, hs]
      · cases h

theorem toFrame_ofFrame {s : Segment} {f : Frame} (h : ofFrame f = .ok s) : s.toFrame = .ok f := by
  obtain ⟨dest, src, bytes, fits⟩ := f
  unfold ofFrame at h
  split at h
  · rename_i destPort srcPort reserved bits a b c d payload hbytes
    dsimp only at hbytes
    subst hbytes
    split at h
    · cases h
    rename_i hreserved
    split at h
    · cases h
    rename_i flags hflags
    split at h
    · cases h
    rename_i hd
    split at h
    · cases h
    rename_i hs
    cases h
    have hp : payload.length ≤ payloadLength := by
      simp only [List.length_cons, payloadLength, headerLength] at fits ⊢
      omega
    rw [Decidable.not_not] at hreserved
    simp [toFrame, hd, hs, hp, contents, numberBytes_ofNumberBytes, Flags.bits_ofBits? hflags,
      hreserved]
  · cases h

theorem ports_of_ofFrame {s : Segment} {f : Frame} (h : ofFrame f = .ok s) :
    validPort s.dest.port = true ∧ validPort s.src.port = true :=
  have hfits := fits_of_toFrame (toFrame_ofFrame h)
  ⟨hfits.1, hfits.2.1⟩

theorem dest_of_ofFrame {s : Segment} {f : Frame} (h : ofFrame f = .ok s) :
    s.dest.host = f.dest := by
  unfold ofFrame at h
  split at h
  · split at h
    · cases h
    · split at h
      · cases h
      · split at h
        · cases h
        · split at h
          · cases h
          · cases h
            rfl
  · cases h

theorem ofBytes_of_toFrame {s : Segment} {f : Frame} (h : s.toFrame = .ok f) :
    ofBytes f.toBytes = .ok s := by
  rw [ofBytes, Frame.ofBytes_toBytes]
  exact ofFrame_toFrame h

theorem toFrame_of_ofBytes {raw : List UInt8} {s : Segment} (h : ofBytes raw = .ok s) :
    ∃ f, s.toFrame = .ok f ∧ f.toBytes = raw := by
  unfold ofBytes at h
  split at h
  · cases h
  · rename_i f hf
    exact ⟨f, toFrame_ofFrame h, Frame.toBytes_ofBytes hf⟩

structure WellFormed (raw : List UInt8) : Prop where
  long : 12 ≤ raw.length
  short : raw.length ≤ 32
  linkReserved : raw[2] = 0
  length : raw[3].toNat = raw.length - 4
  destPort : raw[4] ≤ 127
  srcPort : raw[5] ≤ 127
  reserved : raw[6] = 0
  flags : raw[7] ≤ 15

theorem wellFormed_of_toFrame {s : Segment} {f : Frame} (h : s.toFrame = .ok f) :
    WellFormed f.toBytes := by
  obtain ⟨hd, hs, hp⟩ := fits_of_toFrame h
  have hp : s.payload.length ≤ 20 := hp
  have hlength : (UInt8.ofNat (headerLength + s.payload.length)).toNat =
      headerLength + s.payload.length :=
    UInt8.toNat_ofNat_of_lt' (by simp only [headerLength, UInt8.size]; omega)
  rw [toBytes_of_toFrame h]
  constructor
  case long => simp [length_contents, headerLength]
  case short =>
    simp only [List.length_cons, length_contents, headerLength]
    omega
  case length =>
    simp only [List.getElem_cons_succ, List.getElem_cons_zero, hlength, List.length_cons,
      length_contents]
    omega
  case linkReserved | reserved => rfl
  case destPort => exact of_decide_eq_true hd
  case srcPort => exact of_decide_eq_true hs
  case flags => exact Flags.lt_sixteen.1 s.flags.bits_lt

theorem exists_header {raw : List UInt8} (h : 12 ≤ raw.length) :
    ∃ dest src reserved length destPort srcPort reserved' bits a b c d payload,
      raw = dest :: src :: reserved :: length :: destPort :: srcPort :: reserved' :: bits ::
        a :: b :: c :: d :: payload := by
  match raw, h with
  | _ :: _ :: _ :: _ :: _ :: _ :: _ :: _ :: _ :: _ :: _ :: _ :: _, _ =>
    exact ⟨_, _, _, _, _, _, _, _, _, _, _, _, _, rfl⟩

theorem WellFormed.ofBytes {raw : List UInt8} (h : WellFormed raw) :
    ∃ s, Segment.ofBytes raw = .ok s := by
  obtain ⟨dest, src, linkReserved, length, destPort, srcPort, reserved, bits, a, b, c, d, payload,
    rfl⟩ := exists_header h.long
  obtain ⟨_, hshort, hlinkReserved, hlength, hd, hs, hreserved, hflags⟩ := h
  simp only [List.getElem_cons_succ, List.getElem_cons_zero,
    List.length_cons] at hshort hlength hlinkReserved hreserved hflags hd hs
  have hlength : length.toNat = payload.length + 8 := by omega
  have hfits : payload.length + 8 ≤ contentsLength := by
    simp only [contentsLength, frameLength, linkHeaderLength]
    omega
  have hbits : bits < 16 := Flags.lt_sixteen.2 hflags
  simp [Segment.ofBytes, Frame.ofBytes, Frame.make, ofFrame, Flags.ofBits?, validPort, portLimit,
    hlinkReserved, hlength, hfits, hreserved, hbits, hd, hs]

/-- The segments that fit a frame and the well-formed byte strings stand for each other. -/
theorem wire_bijective :
    (∀ s : Segment, s.Fits →
      ∃ f, s.toFrame = .ok f ∧ f.toBytes.length ≤ frameLength ∧ ofBytes f.toBytes = .ok s) ∧
    (∀ s : Segment, ¬ s.Fits → ∃ fault, s.toFrame = .error fault) ∧
    (∀ raw, (∃ s, ofBytes raw = .ok s) ↔ WellFormed raw) ∧
    ∀ raw s, ofBytes raw = .ok s → ∃ f, s.toFrame = .ok f ∧ f.toBytes = raw := by
  refine ⟨fun s hs => ?_, fun _ => toFrame_of_not_fits, fun raw => ⟨fun ⟨s, hs⟩ => ?_, fun h => ?_⟩,
    fun _ _ => toFrame_of_ofBytes⟩
  · obtain ⟨f, hf⟩ := toFrame_of_fits hs
    exact ⟨f, hf, f.length_toBytes_le, ofBytes_of_toFrame hf⟩
  · obtain ⟨f, hf, rfl⟩ := toFrame_of_ofBytes hs
    exact wellFormed_of_toFrame hf
  · exact h.ofBytes

theorem wire_bijective_letters :
    let s : Segment := ⟨⟨2, 127⟩, ⟨1, 0⟩, Kind.data.flags, 2, [104, 105]⟩
    let raw : List UInt8 := [2, 1, 0, 10, 127, 0, 0, 0, 0, 0, 0, 2, 104, 105]
    s.Fits ∧ WellFormed raw ∧ ofBytes raw = .ok s ∧
      ∃ f, s.toFrame = .ok f ∧ f.toBytes.length ≤ frameLength ∧ ofBytes f.toBytes = .ok s := by
  intro s raw
  have hs : s.Fits := by decide
  exact ⟨hs, (wire_bijective.2.2.1 raw).1 ⟨s, rfl⟩, rfl, wire_bijective.1 s hs⟩

end Segment

end ReliableStream
