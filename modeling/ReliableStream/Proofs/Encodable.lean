import ReliableStream.Proofs.Ledger
import ReliableStream.Proofs.Relay
import ReliableStream.Proofs.SendState

namespace ReliableStream

open Side

namespace Segment

def Encodable (s : Segment) : Prop := s.Fits ∧ ∃ kind, s.kind? = some kind

theorem Encodable.back {s : Segment} (h : s.Encodable) :
    ∃ f, s.toFrame = .ok f ∧ ofBytes f.toBytes = .ok s := by
  obtain ⟨f, hf⟩ := toFrame_of_fits h.1
  exact ⟨f, hf, ofBytes_of_toFrame hf⟩

theorem ports_of_fits {s : Segment} {k : SocketPair} (h : s.Fits) (hk : s.receiverPair = k) :
    validPort k.near.port = true ∧ validPort k.far.port = true := by
  subst hk
  exact ⟨h.1, h.2.1⟩

end Segment

namespace Side

variable {cfg : Settings} {k : SocketPair} {op : Station.Op} {r : Station.Reply} {e e' : Side}

structure Own (k : SocketPair) (e : Side) : Prop where
  held : ∀ x, e.held x → x.senderPair = k
  replies : ∀ x ∈ e.replies, x.senderPair = k
  waiting : ∀ x ∈ e.waiting, x.receiverPair = k

/-- All that the side may send, now or later, can be encoded. -/
structure Encodable (k : SocketPair) (e : Side) : Prop where
  ported : e.entry ≠ none → validPort k.near.port = true ∧ validPort k.far.port = true
  held : ∀ x, e.held x → x.Encodable
  replies : ∀ x ∈ e.replies, x.Encodable
  waiting : ∀ x ∈ e.waiting, x.Fits ∧ x.kind? = some .syn

theorem Encodable.blank : Encodable k {} where
  ported h := absurd rfl h
  held x hx := by rcases hx with (hx | ⟨i, hx⟩) | hx <;> cases hx
  replies x hx := by cases hx
  waiting x hx := by cases hx

theorem Encodable.step (h : e.Encodable k) (hs : e.Sound) (ho : e.Own k) (ho' : e'.Own k)
    (hst : Step cfg k op r e e') (ha : ∀ x, Arrives k op x → x.Fits)
    (hp : e'.entry ≠ none → validPort k.near.port = true ∧ validPort k.far.port = true) :
    e'.Encodable k where
  ported := hp
  held x hx := by
    have hk := ho'.held x hx
    by_cases hd : ∀ ticket, r ≠ .dialled (.ok ticket)
    · have hsends := hst.sends hd
      refine (hst.held hs hd hx).elim (h.held x) fun hq => ⟨?_, hsends.queues.known hq⟩
      refine Segment.fits_of_pair hk (h.ported fun hn => ?_) (hsends.length_payload hq)
      have hclosed : e.phase = .closed := phase_of_none hn
      rw [hsends.queues.eq_nil (by simp [hclosed])] at hq
      cases hq
    · obtain ⟨ticket, hr⟩ := Classical.not_forall.1 hd
      rcases hst.of_dialled (Classical.not_not.1 hr) with rfl | rfl | ⟨hn, -, rfl⟩
      · exact h.held x hx
      · rcases hx with (hx | ⟨i, hx⟩) | hx <;> cases hx
      · obtain rfl := hs.held_dialled hn hx
        exact ⟨Segment.fits_of_pair hk (hp (Option.some_ne_none _)) (Nat.zero_le _), .syn, rfl⟩
  replies y hy := by
    rcases hst.echoes (fun x hx => (h.waiting x hx).2) hy with hold | ⟨x, hx, -, hnil, kind, -, hy'⟩
    · exact h.replies y hold
    · -- The ports of the answered segment are those of the connection.
      have hport : validPort k.near.port = true ∧ validPort k.far.port = true := by
        rcases hx with ⟨hx, -⟩ | hx
        · exact Segment.ports_of_fits (ha x hx) hx.2
        · exact Segment.ports_of_fits (h.waiting x hx).1 (ho.waiting x hx)
      refine ⟨Segment.fits_of_pair (ho'.replies y hy) hport ?_, _, hy'⟩
      rw [hnil]
      exact Nat.zero_le _
  waiting x hx := by
    rcases hst.waiting hx with hx | ⟨hx, hk⟩
    · exact h.waiting x hx
    · exact ⟨ha x hx, hk⟩

end Side

theorem Host.side_own {h : Host} (hf : h.Filed) (k : SocketPair) : (h.side k).Own k where
  held x hx := by
    obtain ⟨hp, hu⟩ := hf.outbox.window k
    rcases hx with (hx | ⟨i, hx⟩) | hx
    · exact hp x hx
    · exact hu i x hx
    · simpa using (List.mem_filter.1 hx).2
  replies x hx := by simpa using (List.mem_filter.1 hx).2
  waiting x hx := by simpa using (List.mem_filter.1 hx).2

namespace Station

variable {s : Station}

def Op.framed : Op → Bool
  | .receive _ => false
  | _ => true

theorem Op.fits_of_framed {op : Op} (h : op.framed = true) {x : Segment}
    (hx : op.arrival? = some x) : x.Fits := by
  cases op with
  | receive => cases h
  | receiveFrame f =>
    rw [arrival?] at hx
    cases hf : Segment.ofFrame f with
    | error => cases hf ▸ hx
    | ok y =>
      obtain rfl : y = x := by simpa [hf, Except.toOption] using hx
      exact Segment.fits_of_toFrame (Segment.toFrame_ofFrame hf)
  | _ => cases hx

structure Encodes (s : Station) : Prop where
  orderly : s.Orderly
  sides : ∀ k, (s.host.side k).Encodable k

theorem Encodes.step (h : s.Encodes) {op : Op} (hop : op.framed = true) : (s.step op).1.Encodes where
  orderly := h.orderly.step op
  sides k := by
    have hf := h.orderly.filed
    refine (h.sides k).step (h.orderly.sound k) (Host.side_own hf k)
      (Host.side_own (h.orderly.step op).filed k) (s.step_side hf op k)
      (fun x hx => Op.fits_of_framed hop hx.1) fun he => ?_
    by_cases hn : (s.host.side k).entry = none
    · refine ports_of_enters hf (fun x hx => ?_) hn he
      have hfits := Op.fits_of_framed hop hx
      exact ⟨hfits.1, hfits.2.1⟩
    · exact (h.sides k).ported hn

theorem Encodes.run (h : s.Encodes) {ops : List Op} (hops : ∀ op ∈ ops, op.framed = true) :
    (s.run ops).Encodes := by
  induction ops generalizing s with
  | nil => exact h
  | cons op rest ih =>
    rw [List.forall_mem_cons] at hops
    exact ih (h.step hops.1) hops.2

theorem encodes_fresh (address : HostId) (recvWindow sendWindow patience : Nat) :
    (fresh address recvWindow sendWindow patience).Encodes :=
  ⟨orderly_fresh address recvWindow sendWindow patience, fun _ => .blank⟩

theorem Encodes.outgoing (h : s.Encodes) {x : Segment} (hx : x ∈ s.host.outbox.outgoing) :
    x.Encodable := by
  have hside := h.sides x.senderPair
  have own (l : List Segment) (hl : x ∈ l) : x ∈ l.filter fun y => y.senderPair = x.senderPair :=
    List.mem_filter.2 ⟨hl, by simp⟩
  rcases Outbox.mem_outgoing h.orderly.filed.outbox hx with hx | hx | hx
  · exact hside.replies x (own _ hx)
  · exact hside.held x (.inr (own _ hx))
  · exact hside.held x (.inl (.inl hx))

theorem mem_outgoing_of_sent {op : Op} {out : List Segment} (h : (s.step op).2 = .sent out)
    {x : Segment} (hx : x ∈ out) : x ∈ s.host.outbox.outgoing := by
  cases op with
  | call c => cases c <;> cases h
  | poll =>
    obtain rfl := Reply.sent.inj h
    exact hx
  | sendRound =>
    have h : s.sendRound.2 = out := Reply.sent.inj h
    rw [← h, sendRound] at hx
    split at hx
    · exact hx
    · cases hx
  | _ => cases h

/-- Whatever frames arrive and whatever the application asks for, all that a station sends has a
meaning and is what its far end reads from the wire: no segment is dropped for want of a frame. -/
theorem sends_encodable (address : HostId) (recvWindow sendWindow patience : Nat) {ops : List Op}
    (hops : ∀ op ∈ ops, op.framed = true) {op : Op} {out : List Segment}
    (h : (((fresh address recvWindow sendWindow patience).run ops).step op).2 = .sent out) :
    (∀ x ∈ out, (∃ kind, x.kind? = some kind) ∧
      ∃ f, x.toFrame = .ok f ∧ Segment.ofBytes f.toBytes = .ok x) ∧
    ∀ frame ∈ Network.frames out, ∃ f, frame = .ok f := by
  have hencodes := (encodes_fresh address recvWindow sendWindow patience).run hops
  have encodable {x : Segment} (hx : x ∈ out) : x.Encodable :=
    hencodes.outgoing (mem_outgoing_of_sent h hx)
  refine ⟨fun x hx => ⟨(encodable hx).2, (encodable hx).back⟩, fun frame hframe => ?_⟩
  obtain ⟨x, hx, rfl⟩ := List.mem_map.1 hframe
  exact Segment.toFrame_of_fits (encodable ((Network.inSendingOrder_perm out).mem_iff.1 hx)).1

def callback : List Op :=
  [.receiveFrame ⟨1, 2, [80, 9, 0, 1, 0, 0, 0, 0], by decide⟩, .call (.accept 80),
    .call (.write ⟨⟨2, 9⟩, ⟨1, 80⟩⟩ (List.replicate 21 7)), .call (.connect 3 5)]

theorem sends_encodable_callback : ∃ out, out.length = 4 ∧
    (((fresh 1 4 4 4).run callback).step .poll).2 = .sent out ∧
    (∀ x ∈ out, (∃ kind, x.kind? = some kind) ∧
      ∃ f, x.toFrame = .ok f ∧ Segment.ofBytes f.toBytes = .ok x) ∧
    ∀ frame ∈ Network.frames out, ∃ f, frame = .ok f := by
  have hsent : (((fresh 1 4 4 4).run callback).step .poll).2 =
      .sent ((fresh 1 4 4 4).run callback).poll.2 := rfl
  exact ⟨_, by decide +kernel, hsent, sends_encodable 1 4 4 4 (by decide) hsent⟩

end Station

end ReliableStream
