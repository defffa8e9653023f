import ReliableStream.Proofs.Resending

namespace ReliableStream

structure Window.Retired (w : Window) (seq : SequenceNumber) : Prop where
  unacked : seq ∉ w.unacked.keys
  pending : ∀ s ∈ w.pending, s.seq ≠ seq

theorem Window.Accounts.retired {w : Window} {sent : List Segment} {acked : List SequenceNumber}
    (h : w.Accounts sent acked) (hl : (sent ++ w.pending).length ≤ UInt32.size)
    {seq : SequenceNumber} (hs : seq ∈ acked) : w.Retired seq := by
  have hnodup := h.counts.nodup hl
  rw [List.map_append] at hnodup
  obtain ⟨hsent, -, hwait⟩ := List.nodup_append.1 hnodup
  obtain ⟨-, -, hdone⟩ := List.nodup_append.1 (h.split.nodup_iff.2 hsent)
  have hmem : seq ∈ sent.map Segment.seq := h.split.subset (List.mem_append_right _ hs)
  exact ⟨fun hin => hdone seq hin seq hs rfl,
    fun s hp heq => hwait seq hmem s.seq (List.mem_map_of_mem hp) heq.symm⟩

namespace Outbox

variable {o : Outbox} {k : SocketPair} {op : Op} {ops : List Op} {s : Segment}
  {seq : SequenceNumber}

def tracked (o : Outbox) : List Segment := o.poll.2.drop o.replies.length

theorem count_tracked (hf : o.Filed) (s : Segment) : o.tracked.count s =
    o.resends.count s + ((o.window s.senderPair).admitted o.limit).count s := by
  rw [tracked, poll, outgoing, List.append_assoc, List.drop_left, List.count_append,
    ← hf.filter_admitted, List.count_filter (by simp)]

theorem InOrder.count_tracked (h : o.InOrder)
    (hr : (o.window s.senderPair).Retired s.seq) :
    o.tracked.count s = if s ∈ o.resends then 1 else 0 := by
  have hwaits : s ∉ (o.window s.senderPair).admitted o.limit := fun hin =>
    hr.pending s (Window.mem_pending_of_admitted hin) rfl
  rw [Outbox.count_tracked h.filed, List.count_eq_zero.2 hwaits, h.nodup.count, Nat.add_zero]

theorem Filed.retired (hf : o.Filed) (hnew : o.windows.get? k = none) (hops : .release k ∉ ops)
    (hfew : (o.queued k ops).length < UInt32.size) (hack : seq ∈ o.acknowledged k ops) :
    ((o.run ops).window k).Retired seq := by
  obtain ⟨h, hlog⟩ := hf.accounts hnew hops (Nat.le_of_lt hfew)
  exact h.retired (by rw [hlog]; exact Nat.le_of_lt hfew) hack

theorem Filed.retired_after (hf : o.Filed) (hnew : o.windows.get? k = none)
    (hops : .release k ∉ ops)
    (hack : ((o.run ops).step (.acknowledge k seq)).2 = .acknowledged true) {later l : List Op}
    (hlater : .release k ∉ later)
    (hfew : (o.numbers k (ops ++ .acknowledge k seq :: later)).length < UInt32.size)
    (hl : l <+: later) : ((((o.run ops).acknowledge k seq).run l).window k).Retired seq := by
  obtain ⟨rest, rfl⟩ := hl
  have hquiet : .release k ∉ ops ++ .acknowledge k seq :: l := by
    simp only [List.mem_append, List.mem_cons, not_or] at hlater ⊢
    exact ⟨hops, nofun, hlater.1⟩
  have hmem : seq ∈ o.acknowledged k (ops ++ .acknowledge k seq :: l) := by
    rw [acknowledged_append, acknowledged_cons, hack]
    simp [Op.acknowledged?]
  rw [numbers_eq, List.length_map, ← List.cons_append, ← List.append_assoc, queued_append,
    List.length_append] at hfew
  have hall := hf.retired hnew hquiet (by omega) hmem
  rwa [run_append] at hall

theorem mem_resends_step (hf : o.Filed) (hop : op ≠ .release s.senderPair)
    (hs : s ∉ (o.window s.senderPair).unacked.values) :
    s ∈ (o.step op).1.resends ↔ s ∈ o.resends ∧ op ≠ .poll := by
  by_cases hpoll : op = .poll
  · subst hpoll
    simp [step, poll, afterSending]
  · have hstirs := step_stirs hf op s.senderPair
    rw [← mem_resends_side, ← mem_resends_side o, and_iff_left hpoll]
    generalize (o.step op).1.side s.senderPair = e at hstirs ⊢
    cases hstirs with
    | less hres => rw [hres]
    | resent => exact mem_addMissing.trans (or_iff_left hs)
    | released hr => exact absurd hr hop
    | sent _ hp => exact absurd hp hpoll

theorem mem_resends_run (hf : o.Filed) (hops : .release s.senderPair ∉ ops)
    (hs : ∀ l, l <+: ops → s ∉ ((o.run l).window s.senderPair).unacked.values) :
    s ∈ (o.run ops).resends ↔ s ∈ o.resends ∧ .poll ∉ ops := by
  induction ops using List.reverseRecOn with
  | nil => simp [run]
  | append_singleton ops op ih =>
    rw [List.mem_append, not_or] at hops
    have hprev := ih hops.1 fun l hl => hs l (hl.trans (List.prefix_append _ _))
    have hop : op ≠ .release s.senderPair := fun h => hops.2 (h ▸ List.mem_singleton_self _)
    have hlast := mem_resends_step (hf.run ops) hop (hs ops (List.prefix_append _ _))
    rw [run_append, show (o.run ops).run [op] = ((o.run ops).step op).1 from rfl, hlast, hprev,
      List.mem_append, not_or, List.mem_singleton, and_assoc, ne_comm]

/-- A segment whose acknowledgment has been taken goes out once more if a copy of it was to be sent
again, with the next poll, and otherwise never, as long as its connection is not released. -/
theorem copy_outlives_acknowledgment (window : Nat) (before ops : List Op) (k : SocketPair)
    (seq : SequenceNumber) (hnew : ((empty window).run before).windows.get? k = none)
    (hops : .release k ∉ ops)
    (hack : ((((empty window).run before).run ops).step (.acknowledge k seq)).2 =
      .acknowledged true) :
    let o := ((empty window).run before).run ops
    ∃ s, (o.window k).unacked.get? seq = some s ∧ ∀ later, .release k ∉ later →
      (((empty window).run before).numbers k (ops ++ .acknowledge k seq :: later)).length <
        UInt32.size →
      ((o.acknowledge k seq).run later).tracked.count s =
        if s ∈ o.resends ∧ .poll ∉ later then 1 else 0 := by
  have h := (InOrder.blank window).run before
  generalize (empty window).run before = o at h hnew hack ⊢
  have hawaits : (o.run ops).awaits k seq = true := Reply.acknowledged.inj hack
  obtain ⟨s, hs⟩ := SortedMap.mem_keys_iff.1 (SortedMap.contains_iff.1 hawaits)
  refine ⟨s, hs, fun later hlater hfew => ?_⟩
  obtain rfl : s.senderPair = k := ((h.filed.run ops).window k).2 seq s hs
  obtain rfl : s.seq = seq := (h.run ops).numbered _ _ _ hs
  have hacked : ((o.run ops).acknowledge s.senderPair s.seq).InOrder :=
    (h.run ops).step (.acknowledge s.senderPair s.seq)
  have hretired {l : List Op} (hl : l <+: later) :=
    h.filed.retired_after hnew hops hack hlater hfew hl
  have hcopy : s ∈ (((o.run ops).acknowledge s.senderPair s.seq).run later).resends ↔
      s ∈ (o.run ops).resends ∧ .poll ∉ later := by
    refine mem_resends_run hacked.filed hlater fun l hl hin => ?_
    obtain ⟨i, hi⟩ := SortedMap.mem_values_iff.1 hin
    have hseq : s.seq = i := (hacked.run l).numbered _ i s hi
    exact (hretired hl).unacked (SortedMap.mem_keys_iff.2 ⟨s, by rwa [← hseq] at hi⟩)
  rw [(hacked.run later).count_tracked (hretired List.prefix_rfl), if_congr hcopy rfl rfl]

def askedAgain (k : SocketPair) : List Op := [.enqueue (.data k [1]), .poll, .resend k]

theorem copy_outlives_acknowledgment_askedAgain :
    let k : SocketPair := ⟨⟨2, 7⟩, ⟨1, 3⟩⟩
    let o := ((empty 4).run (askedAgain k)).acknowledge k 0
    o.tracked.count (.data k [1]) = 1 ∧ (o.run [.poll]).tracked.count (.data k [1]) = 0 := by
  intro k o
  obtain ⟨s, hs, h⟩ := copy_outlives_acknowledgment 4 [] (askedAgain k) k 0 (by decide +kernel)
    (by decide +kernel) (congrArg Reply.acknowledged (by decide +kernel))
  have hdata : some s = some (.data k [1]) := hs.symm.trans (by decide +kernel)
  obtain rfl := Option.some.inj hdata
  refine ⟨(h [] nofun (by decide +kernel)).trans (if_pos (by decide +kernel)), ?_⟩
  exact (h [.poll] (by decide +kernel) (by decide +kernel)).trans (if_neg (by decide +kernel))

theorem acknowledged_goes_out_again : ¬∀ (window : Nat) (before ops later : List Op)
    (k : SocketPair) (seq : SequenceNumber) (s : Segment),
    ((empty window).run before).windows.get? k = none → .release k ∉ ops ++ later →
    (((empty window).run before).numbers k (ops ++ .acknowledge k seq :: later)).length <
      UInt32.size →
    ((((empty window).run before).run ops).step (.acknowledge k seq)).2 = .acknowledged true →
    ((((empty window).run before).run ops).window k).unacked.get? seq = some s →
    s ∉ ((((empty window).run before).run ops).acknowledge k seq |>.run later).tracked := by
  intro h
  let k : SocketPair := ⟨⟨2, 7⟩, ⟨1, 3⟩⟩
  exact h 4 [] (askedAgain k) [] k 0 (.data k [1]) (by decide +kernel) (by decide +kernel)
    (by decide +kernel) (congrArg Reply.acknowledged (by decide +kernel)) (by decide +kernel)
    (by decide +kernel)

end Outbox

end ReliableStream
