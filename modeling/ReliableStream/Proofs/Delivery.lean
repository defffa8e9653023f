import ReliableStream.Proofs.Laps
import ReliableStream.Proofs.Refusal

namespace ReliableStream

theorem Phase.ne_closed_of_keeps {p : Phase} (hp : p.keeps) : p ≠ .closed := by
  rcases hp with rfl | rfl <;> decide

namespace Host

variable {h : Host} {s : Segment} {c : Connection}

theorem receiveKind_due (kind : Kind) (hc : h.table.get? s.receiverPair = some c)
    (hk : kind.isReply = false) (hsyn : kind = .syn → c.phase ≠ .closed)
    (hs : s.seq = c.expected) : h.receiveKind s kind = (h.arrive s kind).nudge := by
  have hknock : ¬(kind = .syn ∧ h.table.phase s.receiverPair = .closed) := by
    rw [Table.phase_of_some hc]
    exact fun hn => hsyn hn.1 hn.2
  rw [receiveKind, if_neg (by simp [hk]), if_neg hknock]
  simp [hc, hs]

section Open

variable (hc : h.table.get? s.receiverPair = some c) (hp : c.phase.keeps)

include hc hp

theorem arrive_of_deliver {h' : Host} {c' : Connection} {accepted : Bool}
    (ha : h.actAll s.receiverPair (some s) [.deliver] = (h', .ok accepted))
    (hc' : h'.table.get? s.receiverPair = some c') (hp' : c'.phase = c.phase) :
    h.arrive s .data = if accepted then { h' with
      table := h'.table.put s.receiverPair { c' with expected := s.seq + 1 } } else h' := by
  have hm : (h.table.phase s.receiverPair).move? (.arrival .data) (h.facts s.receiverPair) =
      some ⟨c'.phase, [.deliver]⟩ := by
    rw [Table.phase_of_some hc, hp']
    rcases hp with hp | hp <;> rw [hp] <;> rfl
  have ha' : actAll { h with table := h.table.ensure s.receiverPair } s.receiverPair (some s)
      [.deliver] = (h', .ok accepted) := by
    rw [h.table.ensure_of_some hc]
    exact ha
  have hsame :
      h'.table.adjust s.receiverPair (fun c => { c with phase := c'.phase }) = h'.table := by
    rw [Table.adjust_of_some hc', Table.put_of_some hc']
  have hopen : c'.phase ≠ .closed := hp' ▸ Phase.ne_closed_of_keeps hp
  unfold arrive
  simp only [apply_of_some h hm ha', hsame, reap, Table.reap_of_open hc' hopen]
  cases accepted
  · rfl
  · simp [Kind.isReply, Table.advance, Table.adjust_of_some hc']

theorem arrive_kept (hroom : c.unread.length < h.table.capacity) : h.arrive s .data = { h with
    table := h.table.put s.receiverPair { c with unread := c.unread ++ [s], expected := s.seq + 1 }
    outbox := h.outbox.reply (s.answer .ack) } := by
  have ha : h.actAll s.receiverPair (some s) [.deliver] = ({ h with
      table := h.table.put s.receiverPair { c with unread := c.unread ++ [s] }
      outbox := h.outbox.reply (s.answer .ack) }, .ok true) := by
    simp [actAll, act, Table.hasRoom, Table.deliver, Table.get_of_some hc, hroom]
  rw [arrive_of_deliver hc hp ha (Table.get?_put_self _ _ _) rfl, if_pos rfl]
  simp only [Table.put_put]

theorem arrive_full (hfull : h.table.capacity ≤ c.unread.length) : h.arrive s .data = h := by
  have ha : h.actAll s.receiverPair (some s) [.deliver] = (h, .ok false) := by
    simp [actAll, act, Table.hasRoom, Table.deliver, Table.get_of_some hc, Nat.not_lt.2 hfull,
      h.table.ensure_of_some hc]
  exact arrive_of_deliver hc hp ha hc rfl

end Open

structure TakesData (h : Host) (s : Segment) (c : Connection) : Prop where
  stale : s.seq < c.expected →
    h.receive s = { h with outbox := h.outbox.reply (s.answer .ack) }.nudge
  early : c.expected < s.seq → h.receive s = h
  kept : s.seq = c.expected → c.unread.length < h.table.capacity → h.receive s = { h with
    table := h.table.put s.receiverPair { c with unread := c.unread ++ [s], expected := s.seq + 1 }
    outbox := h.outbox.reply (s.answer .ack) }.nudge
  full : s.seq = c.expected → h.table.capacity ≤ c.unread.length → h.receive s = h.nudge
  acknowledged : (h.receive s).outbox.replies = h.outbox.replies ++
    if s.seq < c.expected ∨ ((h.receive s).table.get s.receiverPair).unread = c.unread ++ [s]
      then [s.answer .ack] else []

/-- Data that arrive on a connection that is open for them are acknowledged if and only if they are
kept, and nothing else changes. -/
theorem data_acknowledged_iff_kept (hc : h.table.get? s.receiverPair = some c) (hp : c.phase.keeps)
    (hk : s.kind? = some .data) : h.TakesData s c := by
  have due (hs : s.seq = c.expected) : h.receive s = (h.arrive s .data).nudge := by
    rw [receive, hk]
    exact receiveKind_due .data hc rfl (by simp) hs
  have kept (hs : s.seq = c.expected) (hroom : c.unread.length < h.table.capacity) :=
    (due hs).trans (congrArg nudge (arrive_kept hc hp hroom))
  have full (hs : s.seq = c.expected) (hfull : h.table.capacity ≤ c.unread.length) :=
    (due hs).trans (congrArg nudge (arrive_full hc hp hfull))
  refine ⟨receive_of_stale hc hk, receive_of_early hc hk, kept, full, ?_⟩
  have hnot : c.unread ≠ c.unread ++ [s] := by simp
  rcases Nat.lt_trichotomy s.seq.toNat c.expected.toNat with hlt | heq | hgt
  · rw [if_pos (.inl (UInt32.lt_iff_toNat_lt.2 hlt)), receive_of_stale hc hk
      (UInt32.lt_iff_toNat_lt.2 hlt)]
    rfl
  · have hs : s.seq = c.expected := UInt32.toNat_inj.1 heq
    have hnlt : ¬s.seq < c.expected := hs ▸ UInt32.lt_irrefl _
    by_cases hroom : c.unread.length < h.table.capacity
    · rw [kept hs hroom, if_pos (.inr (by simp [nudge, Table.get]))]
      rfl
    · rw [full hs (Nat.le_of_not_lt hroom), if_neg (by simp [nudge, Table.get_of_some hc, hnlt]),
        List.append_nil]
      rfl
  · have hnlt : ¬s.seq < c.expected := by
      rw [UInt32.lt_iff_toNat_lt]
      omega
    rw [receive_of_early hc hk (UInt32.lt_iff_toNat_lt.2 hgt),
      if_neg (by simp [Table.get_of_some hc, hnlt]), List.append_nil]

theorem data_acknowledged_iff_kept_greeting :
    (Station.afterSyn 0).host.table.get? ⟨⟨1, 0⟩, ⟨2, 7⟩⟩ =
        some { phase := .established, expected := 1 } ∧
      (Station.afterSyn 0).host.TakesData (.datum 1) { phase := .established, expected := 1 } ∧
      ((Station.afterSyn 0).host.receive (.datum 1)).outbox.replies =
        [(Segment.datum 1).answer .ack] := by
  have hentry : (Station.afterSyn 0).host.table.get? ⟨⟨1, 0⟩, ⟨2, 7⟩⟩ =
      some { phase := .established, expected := 1 } := by decide +kernel
  have htakes := data_acknowledged_iff_kept (s := .datum 1) hentry (.inl rfl) rfl
  refine ⟨hentry, htakes, ?_⟩
  rw [htakes.kept rfl (by decide +kernel)]
  decide +kernel

end Host

end ReliableStream
