import Mathlib.Algebra.Group.Nat.Defs
import ReliableStream.Outbox.Op
import ReliableStream.Proofs.Arrival
import ReliableStream.Station.Call

namespace ReliableStream

/-- How often the numbers have started again before the `n`-th segment. -/
def lap (n : Nat) : Nat := n / UInt32.size

section Arithmetic

variable {n m : Nat}

theorem ofNat_lt_ofNat : UInt32.ofNat n < UInt32.ofNat m ↔ n % UInt32.size < m % UInt32.size := by
  rw [UInt32.lt_iff_toNat_lt, UInt32.toNat_ofNat', UInt32.toNat_ofNat']

theorem ofNat_lt_of_same_lap (hl : lap n = lap m) (h : n < m) :
    UInt32.ofNat n < UInt32.ofNat m := by
  rw [ofNat_lt_ofNat]
  simp only [lap, UInt32.size] at *
  omega

theorem ofNat_lt_of_next_lap (hl : lap n ≠ lap m) (h : m < n) (hn : n < m + UInt32.size) :
    UInt32.ofNat n < UInt32.ofNat m := by
  rw [ofNat_lt_ofNat]
  simp only [lap, UInt32.size] at *
  omega

end Arithmetic

namespace Outbox

variable {o : Outbox} {k : SocketPair} {op : Op} {ops : List Op}

def Op.numbered? (k : SocketPair) : Op → Reply → Option SequenceNumber
  | .enqueue s, .numbered (.ok seq) => if s.senderPair = k then some seq else none
  | _, _ => none

def numbers (o : Outbox) (k : SocketPair) (ops : List Op) : List SequenceNumber :=
  (o.history ops).filterMap fun x => x.1.numbered? k x.2

theorem numbers_cons (o : Outbox) (k : SocketPair) (op : Op) (ops : List Op) :
    o.numbers k (op :: ops) =
      (op.numbered? k (o.step op).2).toList ++ (o.step op).1.numbers k ops := by
  simp only [numbers, history, List.filterMap_cons]
  cases op.numbered? k (o.step op).2 <;> rfl

theorem windows_resendAll (o : Outbox) : o.resendAll.windows = o.windows := by
  unfold resendAll
  generalize o.windows.keys = l
  induction l generalizing o with
  | nil => rfl
  | cons j rest ih => exact ih _

theorem window_congr {o' : Outbox} (h : o'.windows.get? k = o.windows.get? k) :
    o'.window k = o.window k := by
  rw [window, h, window]

theorem next_step (hop : op ≠ .release k) :
    op.numbered? k (o.step op).2 = none ∧ ((o.step op).1.window k).next = (o.window k).next ∨
    op.numbered? k (o.step op).2 = some (o.window k).next ∧
      ((o.step op).1.window k).next = (o.window k).next + 1 := by
  cases op with
  | enqueue s =>
    by_cases hs : (o.window s.senderPair).stopped ∧ s.kind? = some .data
    · simp [step, o.enqueue_of_stopped hs, Op.numbered?]
    · simp only [step, o.enqueue_of_open hs, Op.numbered?]
      by_cases hk : s.senderPair = k
      · subst hk
        simp [window]
      · simp [hk, window, windows_put_of_ne o _ hk]
  | acknowledge j seq =>
    refine .inl ⟨rfl, ?_⟩
    by_cases hj : j = k
    · subst hj
      simp only [step, window, windows_acknowledge_self]
      cases o.windows.get? j <;> rfl
    · rw [step, window_congr (o.windows_acknowledge_of_ne seq hj)]
  | stop j =>
    refine .inl ⟨rfl, ?_⟩
    by_cases hj : j = k
    · subst hj
      simp [step, window]
    · rw [step, window_congr (o.windows.get?_insert_of_ne _ hj)]
  | release j =>
    have hj : j ≠ k := fun hj => hop (by rw [hj])
    exact .inl ⟨rfl, by rw [step, window_congr (o.windows_release_of_ne hj)]⟩
  | poll =>
    refine .inl ⟨rfl, ?_⟩
    simp only [step, poll, window, windows_afterSending]
    cases o.windows.get? k <;> rfl
  | resendAll =>
    have hw : o.resendAll.windows.get? k = o.windows.get? k := by rw [windows_resendAll]
    exact .inl ⟨rfl, by rw [step, window_congr hw]⟩
  | reply | resend => exact .inl ⟨rfl, rfl⟩

theorem numbers_from {n i : Nat} {seq : SequenceNumber} (hnext : (o.window k).next = .ofNat n)
    (hops : .release k ∉ ops) (h : (o.numbers k ops)[i]? = some seq) : seq = .ofNat (n + i) := by
  induction ops generalizing o n i with
  | nil => cases h
  | cons op rest ih =>
    obtain ⟨hop, hrest⟩ := not_or.1 (mt List.mem_cons.2 hops)
    rcases o.next_step (Ne.symm hop) with ⟨hnum, hn⟩ | ⟨hnum, hn⟩
    · rw [numbers_cons, hnum] at h
      exact ih (hn.trans hnext) hrest h
    · rw [numbers_cons, hnum] at h
      cases i with
      | zero => exact (Option.some.inj h).symm.trans hnext
      | succ i =>
        have hn' : ((o.step op).1.window k).next = .ofNat (n + 1) := by
          rw [hn, hnext, UInt32.ofNat_add]
          rfl
        rw [ih hn' hrest h, Nat.add_assoc, Nat.add_comm 1 i]

end Outbox

namespace Host

variable {h : Host} {s : Segment} {c : Connection}

theorem receive_of_stale (hc : h.table.get? s.receiverPair = some c) (hk : s.kind? = some .data)
    (hs : s.seq < c.expected) :
    h.receive s = { h with outbox := h.outbox.reply (s.answer .ack) }.nudge := by
  simp [receive, receiveKind, hk, hc, hs, Kind.isReply, answerAgain]

theorem receive_of_early (hc : h.table.get? s.receiverPair = some c) (hk : s.kind? = some .data)
    (hs : c.expected < s.seq) : h.receive s = h := by
  have hns : ¬s.seq < c.expected := by
    rw [UInt32.lt_iff_toNat_lt] at hs ⊢
    omega
  simp [receive, receiveKind, hk, hc, hs, hns, Kind.isReply]

theorem receive_of_due (hc : h.table.get? s.receiverPair = some c) (hk : s.kind? = some .data)
    (hs : s.seq = c.expected) (hp : c.phase = .established) :
    (h.receive s).side s.receiverPair =
      if c.unread.length < h.table.capacity then
        ((h.side s.receiverPair).answer (s.answer .ack)).enter
          { c with unread := c.unread ++ [s], expected := s.seq + 1 }
      else h.side s.receiverPair := by
  have hhears := h.receiveKind_side s .data
  rw [show h.receive s = h.receiveKind s .data by simp [receive, hk]]
  have he : (h.side s.receiverPair).entry = some c := hc
  generalize h.side s.receiverPair = e at *
  generalize (h.receiveKind s .data).side s.receiverPair = e' at *
  cases hhears with
  | kept hc' _ _ hroom =>
    obtain rfl := Option.some.inj (he.symm.trans hc')
    rw [if_pos hroom]
  | full hc' _ _ hroom =>
    obtain rfl := Option.some.inj (he.symm.trans hc')
    rw [if_neg (by omega)]
  | stale _ hc' _ hlt =>
    obtain rfl := Option.some.inj (he.symm.trans hc')
    rw [hs] at hlt
    exact absurd hlt (UInt32.lt_irrefl _)
  | early _ hc' _ hlt =>
    obtain rfl := Option.some.inj (he.symm.trans hc')
    rw [hs] at hlt
    exact absurd hlt (UInt32.lt_irrefl _)
  | discarded hc' _ hd =>
    obtain rfl := Option.some.inj (he.symm.trans hc')
    simp [hp, Phase.discards] at hd
  | misplaced _ hc' _ _ hm =>
    obtain rfl := Option.some.inj (he.symm.trans hc')
    rw [hp] at hm
    cases hm {}
  | noted hr => cases hr
  | strange _ hn => simp [he] at hn

end Host

/-- The `n`-th segment of a connection, with data, reaches a host that has the connection open and
has taken the first `m` segments; `n` and `m` are less than half of the numbers apart. If `n = m`,
the data are kept and acknowledged while there is room for them. If the numbers have started again
as often before both, an old segment is acknowledged once more and an early one is dropped. If they
have started again between the two, it is the other way around. -/
theorem data_by_lap {o : Outbox} {k : SocketPair} {ops : List Outbox.Op} {n m : Nat}
    {seq : SequenceNumber} (hnew : o.windows.get? k = none) (hops : .release k ∉ ops)
    (hseq : (o.numbers k ops)[n]? = some seq) {h : Host} {c : Connection} {s : Segment}
    (hc : h.table.get? k.swap = some c) (hp : c.phase = .established) (hm : c.expected = .ofNat m)
    (hs : s.seq = seq) (hk : s.receiverPair = k.swap) (hkind : s.kind? = some .data)
    (hnear : n < m + 2 ^ 31) (hnear' : m < n + 2 ^ 31) :
    (n = m → (h.receive s).side k.swap =
      if c.unread.length < h.table.capacity then
        ((h.side k.swap).answer (s.answer .ack)).enter
          { c with unread := c.unread ++ [s], expected := .ofNat (m + 1) }
      else h.side k.swap) ∧
    (lap n = lap m →
      (n < m → h.receive s = { h with outbox := h.outbox.reply (s.answer .ack) }.nudge) ∧
      (m < n → h.receive s = h)) ∧
    (lap n ≠ lap m →
      (n < m → h.receive s = h) ∧
      (m < n → h.receive s = { h with outbox := h.outbox.reply (s.answer .ack) }.nudge)) := by
  have hnext : (o.window k).next = .ofNat 0 := by
    rw [Outbox.window, hnew]
    rfl
  have hn : s.seq = .ofNat n := by
    rw [hs, Outbox.numbers_from hnext hops hseq, Nat.zero_add]
  rw [← hk] at hc ⊢
  have stale (hlt : UInt32.ofNat n < UInt32.ofNat m) :
      h.receive s = { h with outbox := h.outbox.reply (s.answer .ack) }.nudge :=
    Host.receive_of_stale hc hkind (by rw [hn, hm]; exact hlt)
  have early (hlt : UInt32.ofNat m < UInt32.ofNat n) : h.receive s = h :=
    Host.receive_of_early hc hkind (by rw [hn, hm]; exact hlt)
  refine ⟨?_, fun hl => ⟨fun hlt => ?_, fun hlt => ?_⟩, fun hl => ⟨fun hlt => ?_, fun hlt => ?_⟩⟩
  · rintro rfl
    rw [Host.receive_of_due hc hkind (by rw [hn, hm]) hp, hn, UInt32.ofNat_add]
    rfl
  · exact stale (ofNat_lt_of_same_lap hl hlt)
  · exact early (ofNat_lt_of_same_lap hl.symm hlt)
  · exact early (ofNat_lt_of_next_lap (Ne.symm hl) hlt (by simp only [UInt32.size]; omega))
  · exact stale (ofNat_lt_of_next_lap hl hlt (by simp only [UInt32.size]; omega))

def Station.afterSyn (seq : SequenceNumber) : Station :=
  (fresh 2 4 4 4).run
    [.receive { dest := ⟨2, 7⟩, src := ⟨1, 0⟩, flags := Kind.syn.flags, seq }, .call (.accept 7),
      .poll]

def Segment.datum (seq : SequenceNumber) : Segment :=
  { dest := ⟨2, 7⟩, src := ⟨1, 0⟩, flags := Kind.data.flags, seq, payload := [seq.toUInt8] }

theorem data_by_lap_first :
    ((Station.afterSyn 0).host.receive (.datum 1)).side ⟨⟨1, 0⟩, ⟨2, 7⟩⟩ =
      (((Station.afterSyn 0).host.side ⟨⟨1, 0⟩, ⟨2, 7⟩⟩).answer
        ((Segment.datum 1).answer .ack)).enter
          { phase := .established, expected := 2, unread := [.datum 1] } := by
  have hnumbers : ((Outbox.empty 4).numbers ⟨⟨2, 7⟩, ⟨1, 0⟩⟩
      [.enqueue (.control ⟨⟨2, 7⟩, ⟨1, 0⟩⟩ .syn), .enqueue (.data ⟨⟨2, 7⟩, ⟨1, 0⟩⟩ [1])])[1]? =
        some 1 := by decide +kernel
  have hentry : (Station.afterSyn 0).host.table.get? ⟨⟨1, 0⟩, ⟨2, 7⟩⟩ =
      some { phase := .established, expected := 1 } := by decide +kernel
  obtain ⟨hdue, -, -⟩ := data_by_lap (by decide) (by decide) hnumbers hentry rfl
    (m := 1) rfl (s := .datum 1) rfl rfl rfl (by decide) (by decide)
  exact (hdue rfl).trans (if_pos (by decide +kernel))

theorem wrong_between_laps :
    ((Station.afterSyn 0xFFFFFFFE).host.side ⟨⟨1, 0⟩, ⟨2, 7⟩⟩).phase = .established ∧
      ((Station.afterSyn 0xFFFFFFFE).host.side ⟨⟨1, 0⟩, ⟨2, 7⟩⟩).conn.expected =
        .ofNat (2 ^ 32 - 1) ∧
      (((Station.afterSyn 0xFFFFFFFE).host.receive (.datum (.ofNat (2 ^ 32)))).side
        ⟨⟨1, 0⟩, ⟨2, 7⟩⟩).replies = [(Segment.datum (.ofNat (2 ^ 32))).answer .ack] ∧
      (((Station.afterSyn 0xFFFFFFFE).host.receive (.datum (.ofNat (2 ^ 32)))).side
        ⟨⟨1, 0⟩, ⟨2, 7⟩⟩).conn.unread = [] ∧
      (((Station.afterSyn 0xFFFFFFFE).host.receive (.datum (.ofNat (2 ^ 32 - 1)))).side
        ⟨⟨1, 0⟩, ⟨2, 7⟩⟩).conn.unread = [.datum (.ofNat (2 ^ 32 - 1))] ∧
      ((Station.afterSyn 0xFFFFFFFE).host.receive (.datum (.ofNat (2 ^ 32 - 1)))).receive
          (.datum (.ofNat (2 ^ 32 - 1))) =
        (Station.afterSyn 0xFFFFFFFE).host.receive (.datum (.ofNat (2 ^ 32 - 1))) := by
  decide +kernel

end ReliableStream
