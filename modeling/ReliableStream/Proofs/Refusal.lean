import ReliableStream.Proofs.Operations

namespace ReliableStream

namespace Side

variable {cfg : Settings} {room : Nat} {k : SocketPair} {op : Station.Op} {r : Station.Reply}
  {e e' : Side} {s : Segment} {kind : Kind} {c : Connection}

def Needed (e : Side) : Prop := ∀ c, e.entry = some c → c.isIdle = false

namespace Needed

theorem of_none (h : e.entry = none) : e.Needed := by
  intro c hc
  rw [h] at hc
  cases hc

theorem of_open (h : e.phase ≠ .closed) : e.Needed := by
  intro c hc
  rw [phase_of_entry hc] at h
  simp [Connection.isIdle, h]

theorem congr (h : e.Needed) (he : e'.entry = e.entry) : e'.Needed := by
  rw [Needed, he]
  exact h

end Needed

theorem entry_swept_eq_some :
    e.swept.entry = some c ↔ e.entry = some c ∧ c.isIdle = false := by
  rw [swept, Option.filter_eq_some_iff]
  simp

theorem needed_swept (e : Side) : e.swept.Needed := fun _ hc => (entry_swept_eq_some.1 hc).2

theorem Hears.needed (hs : Hears room k s kind e e') (h : e.Needed) : e'.Needed := by
  cases hs with
  | noted | misplaced | finished | finishedAgain => exact needed_swept _
  | strange | strangeFin | stale | early | full => exact h
  | ended | collided => exact .of_none rfl
  | opened | drained | knocked | halted | crossed => exact .of_open (by simp)
  | kept hc hp => exact .of_open (by rcases hp with hp | hp <;> simp [hp])
  | discarded hc _ hp =>
    rcases hp with ⟨-, hp | hp⟩ | ⟨-, hp⟩ <;> exact .of_open (by simp [hp])
  | greeted hc hp => exact .of_open (by rcases hp with hp | hp <;> simp [hp])
  | repeated hc hp => exact .of_open (by simp [hp])

theorem Step.needed (hs : Step cfg k op r e e') (h : e.Needed) : e'.Needed := by
  cases hs with
  | heard _ _ _ hh => exact hh.needed h
  | read | readRefused | writeRefused | closedIdle | tickedIdle => exact needed_swept _
  | forgot | expired => exact .of_none rfl
  | dialled => exact .of_open (by simp [push, phase, enter])
  | accepted | closedDrained | closedBusy | closedStopped => exact .of_open (by simp)
  | tickedClosing _ hp => exact .of_open (by simp [resent, phase, enter, hp])
  | wrote => exact h.congr (pushData_eq _ _).1
  | apart | passed | readNothing | closeRefused | ticked | polled => exact h

end Side

namespace Phase

variable {phase : Phase} {kind : Kind}

theorem isSome_move? (phase : Phase) (kind : Kind) (facts facts' : Facts) :
    (phase.move? (.arrival kind) facts).isSome = (phase.move? (.arrival kind) facts').isSome := by
  by_cases hk : phase = .stopSent ∧ kind = .ack
  · obtain ⟨rfl, rfl⟩ := hk
    simp only [move?, apply_ite Option.isSome, Option.isSome_some, ite_self]
  · cases phase <;> cases kind <;> simp_all [move?]

theorem misplaced_iff {facts : Facts} :
    (∃ p event, phase.move (.arrival kind) facts = .error (.misplaced p event)) ↔
      phase.move? (.arrival kind) facts = none ∧ ¬(phase = .synSent ∧ kind = .syn) := by
  unfold move
  cases hm : phase.move? (.arrival kind) facts with
  | some m => simp
  | none =>
    by_cases hc : phase = .synSent ∧ kind = .syn
    · obtain ⟨rfl, rfl⟩ := hc
      simp [refusal]
    · simp [refusal, hc]

end Phase

theorem Outbox.acknowledge_of_unawaited {o : Outbox} {k : SocketPair} {seq : SequenceNumber}
    (h : o.awaits k seq = false) : o.acknowledge k seq = o := by
  have hw : (o.acknowledge k seq).windows = o.windows := by
    apply SortedMap.ext_get?
    intro j
    by_cases hj : k = j
    · subst hj
      rw [windows_acknowledge_self]
      cases hw : o.windows.get? k with
      | none => rfl
      | some w =>
        rw [awaits, window_eq, hw] at h
        have hseq : seq ∉ w.unacked.keys := mt SortedMap.contains_iff.2 (Bool.eq_false_iff.1 h)
        rw [Option.map_some, SortedMap.erase_of_not_mem hseq]
    · exact o.windows_acknowledge_of_ne seq hj
  exact congrArg (fun windows => { o with windows }) hw

namespace Host

variable {h : Host} {x : Segment} {kind : Kind}

def Refuses (h : Host) (x : Segment) (kind : Kind) : Prop :=
  x.kind? = some kind ∧ ∃ phase event, (h.table.phase x.receiverPair).move (.arrival kind)
    (h.facts x.receiverPair) = .error (.misplaced phase event)

theorem refuses_iff : h.Refuses x kind ↔ x.kind? = some kind ∧
    (h.table.phase x.receiverPair).move? (.arrival kind) (h.facts x.receiverPair) = none ∧
      ¬(h.table.phase x.receiverPair = .synSent ∧ kind = .syn) :=
  and_congr_right fun _ => Phase.misplaced_iff

instance : Decidable (h.Refuses x kind) := decidable_of_iff _ refuses_iff.symm

theorem Refuses.move?_eq_none (hx : h.Refuses x kind) (facts : Facts) :
    (h.table.phase x.receiverPair).move? (.arrival kind) facts = none := by
  have hsome := Phase.isSome_move? (h.table.phase x.receiverPair) kind facts (h.facts x.receiverPair)
  rw [(refuses_iff.1 hx).2.1] at hsome
  exact Option.not_isSome_iff_eq_none.1 (Bool.eq_false_iff.1 hsome)

def repeats (h : Host) (x : Segment) (kind : Kind) : List Segment :=
  match h.table.get? x.receiverPair with
  | none => []
  | some c => if x.seq < c.expected then (c.phase.again kind).toList.map x.answer else []

/-- The arrival of the segment leaves the connections as they are. Of what the host has to send it
may add the answer to a segment that is dealt with already, and what it does with a number that a
reply carries and that its connection awaits is left open. -/
structure Leaves (h : Host) (x : Segment) (kind : Kind) : Prop where
  table : (h.receive x).table = h.table
  tracked : kind.isReply = false → (h.receive x).outbox =
    { h.outbox with replies := h.outbox.replies ++ h.repeats x kind }
  unawaited : kind.isReply = true → h.outbox.awaits x.receiverPair x.seq = false →
    (h.receive x).outbox = h.outbox
  replies : kind.isReply = true → (h.receive x).outbox.replies = h.outbox.replies
  resends : (h.receive x).outbox.resends = h.outbox.resends
  others : ∀ k, k ≠ x.receiverPair →
    (h.receive x).outbox.windows.get? k = h.outbox.windows.get? k
  window : ∀ w, h.outbox.windows.get? x.receiverPair = some w →
    ∃ w', (h.receive x).outbox.windows.get? x.receiverPair = some w' ∧ w'.next = w.next ∧
      w'.pending = w.pending ∧ w'.stopped = w.stopped ∧
      ∀ seq, seq ≠ x.seq → w'.unacked.get? seq = w.unacked.get? seq

theorem Refuses.arrive_eq (hx : h.Refuses x kind) (hn : (h.side x.receiverPair).Needed) :
    h.arrive x kind = h := by
  obtain ⟨-, hm, hr⟩ := refuses_iff.1 hx
  rw [arrive_of_none h rfl hm hr, reap, Table.reap_of_needed hn]

theorem answerAgain_eq (h : Host) (x : Segment) (kind : Kind) : h.answerAgain x kind =
    { h with outbox := { h.outbox with replies := h.outbox.replies ++
      ((h.table.phase x.receiverPair).again kind).toList.map x.answer } } := by
  cases kind with
  | syn =>
    cases hp : h.table.phase x.receiverPair <;>
      simp [answerAgain, hp, Phase.again, Outbox.reply]
  | data | stp | fin => rfl
  | synAck | ack | finAck => simp [answerAgain, Phase.again]

theorem receive_refused_reply (hx : h.Refuses x kind) (hn : (h.side x.receiverPair).Needed)
    (hk : kind.isReply = true) : (h.receive x).table = h.table ∧
      (h.receive x).outbox = h.outbox.acknowledge x.receiverPair x.seq := by
  let h' : Host := { h with outbox := h.outbox.acknowledge x.receiverPair x.seq }
  have hx' : h'.Refuses x kind := by
    obtain ⟨hkind, -, hr⟩ := refuses_iff.1 hx
    exact refuses_iff.2 ⟨hkind, hx.move?_eq_none (h'.facts x.receiverPair), hr⟩
  have hreceive : h.receive x = (h'.arrive x kind).nudge := by
    simp [h', receive, receiveKind, hx.1, hk]
  rw [hreceive, hx'.arrive_eq hn]
  exact ⟨rfl, rfl⟩

theorem receive_refused_tracked (hx : h.Refuses x kind) (hn : (h.side x.receiverPair).Needed)
    (hk : kind.isReply = false) : (h.receive x).table = h.table ∧
      (h.receive x).outbox =
        { h.outbox with replies := h.outbox.replies ++ h.repeats x kind } := by
  have harrive := hx.arrive_eq hn
  -- A SYN is never refused by a connection that is closed.
  have hsyn : ¬(kind = .syn ∧ h.table.phase x.receiverPair = .closed) := by
    rintro ⟨rfl, hp⟩
    have hnone := hx.move?_eq_none {}
    rw [hp] at hnone
    cases hnone
  have hreceive : h.receive x = h.receiveKind x kind := by simp [receive, hx.1]
  rw [hreceive, receiveKind, if_neg (by simp [hk]), if_neg hsyn]
  cases hc : h.table.get? x.receiverPair with
  | none => simp [harrive, repeats, hc, nudge]
  | some c =>
    have hp : h.table.phase x.receiverPair = c.phase := Table.phase_of_some hc
    by_cases hstale : x.seq < c.expected
    · simp [hstale, answerAgain_eq, repeats, hc, hp, nudge]
    · by_cases hearly : c.expected < x.seq
      · simp [hstale, hearly, repeats, hc]
      · simp [hstale, hearly, harrive, repeats, hc, nudge]

theorem Refuses.leaves (hx : h.Refuses x kind) (hn : (h.side x.receiverPair).Needed) :
    h.Leaves x kind := by
  cases hk : kind.isReply with
  | false =>
    obtain ⟨htable, houtbox⟩ := receive_refused_tracked hx hn hk
    constructor
    case table => exact htable
    case tracked => exact fun _ => houtbox
    case resends => rw [houtbox]
    case others => exact fun k _ => by rw [houtbox]
    case window =>
      intro w hw
      rw [houtbox]
      exact ⟨w, hw, rfl, rfl, rfl, fun _ _ => rfl⟩
    all_goals
      intro htrue
      rw [hk] at htrue
      cases htrue
  | true =>
    obtain ⟨htable, houtbox⟩ := receive_refused_reply hx hn hk
    constructor
    case table => exact htable
    case tracked =>
      intro hfalse
      rw [hk] at hfalse
      cases hfalse
    case unawaited => exact fun _ hno => houtbox.trans (Outbox.acknowledge_of_unawaited hno)
    case replies => exact fun _ => by rw [houtbox]; rfl
    case resends => rw [houtbox]; rfl
    case others =>
      intro k hne
      rw [houtbox]
      exact h.outbox.windows_acknowledge_of_ne x.seq (Ne.symm hne)
    case window =>
      intro w hw
      refine ⟨{ w with unacked := w.unacked.erase x.seq }, ?_, rfl, rfl, rfl, fun seq hne => ?_⟩
      · rw [houtbox, Outbox.windows_acknowledge_self, hw]
        rfl
      · exact w.unacked.get?_erase_of_ne (Ne.symm hne)

end Host

namespace Station

/-- In every run, a segment whose arrival is a protocol error leaves the connections as they are, and
of what the host has to send all but a number that a reply carries. A segment that is dealt with
already is answered again all the same. -/
theorem refused_segment_leaves (address : HostId) (recvWindow sendWindow patience : Nat)
    (ops : List Op) (x : Segment) (kind : Kind)
    (hx : ((fresh address recvWindow sendWindow patience).run ops).host.Refuses x kind) :
    ((fresh address recvWindow sendWindow patience).run ops).host.Leaves x kind := by
  have hfiled : (fresh address recvWindow sendWindow patience).host.Filed :=
    ⟨Outbox.filed_empty sendWindow, Table.filed_empty recvWindow⟩
  exact hx.leaves (side_run _ Side.Step.needed hfiled (fun _ => .of_none rfl) ops x.receiverPair)

def stoppedGuest : List Op :=
  [.receive (.control ⟨⟨2, 9⟩, ⟨1, 7⟩⟩ .syn), .call (.accept 9),
    .receive { Segment.control ⟨⟨2, 9⟩, ⟨1, 7⟩⟩ .stp with seq := 1 }, .poll]

def dialSent : List Op := [.call (.connect 2 7), .poll]

theorem refused_segment_leaves_dialSent :
    ((fresh 1 4 4 4).run dialSent).host.Refuses (.control ⟨⟨1, 0⟩, ⟨2, 7⟩⟩ .stp) .stp ∧
      ((fresh 1 4 4 4).run dialSent).host.Leaves (.control ⟨⟨1, 0⟩, ⟨2, 7⟩⟩ .stp) .stp := by
  have hx : ((fresh 1 4 4 4).run dialSent).host.Refuses (.control ⟨⟨1, 0⟩, ⟨2, 7⟩⟩ .stp) .stp := by
    decide +kernel
  exact ⟨hx, refused_segment_leaves 1 4 4 4 dialSent _ _ hx⟩

theorem refused_segment_changes :
    (let x := { Segment.control ⟨⟨2, 9⟩, ⟨1, 7⟩⟩ .stp with seq := 1 }
     ((fresh 2 4 4 4).run stoppedGuest).host.Refuses x .stp ∧
      ((fresh 2 4 4 4).run stoppedGuest).host.outbox.replies = [] ∧
      (((fresh 2 4 4 4).run stoppedGuest).host.receive x).outbox.replies = [x.answer .ack]) ∧
    (let x := Segment.control ⟨⟨1, 0⟩, ⟨2, 7⟩⟩ .ack
     ((fresh 1 4 4 4).run dialSent).host.Refuses x .ack ∧
      ((fresh 1 4 4 4).run dialSent).host.outbox.inFlight x.receiverPair = 1 ∧
      (((fresh 1 4 4 4).run dialSent).host.receive x).outbox.inFlight x.receiverPair = 0) := by
  decide +kernel

end Station

end ReliableStream
