import ReliableStream.Proofs.Delivery
import ReliableStream.Proofs.Sound

/-!
A segment that arrives more than once. The first copy leaves its connection such that any further
one is dealt with already, or has no place, or finds no room (`Side.Dealt`); a further copy is at
most answered again. The exception is a SYN that collides with a dial: it ends the dial, and its
copy starts a new connection.
-/

namespace ReliableStream

theorem ne_succ (seq : SequenceNumber) : seq ≠ seq + 1 := by
  intro h
  have hsub : seq + 1 - seq = seq - seq := congrArg (· - seq) h.symm
  rw [UInt32.sub_self, UInt32.add_comm, UInt32.add_sub_cancel] at hsub
  cases hsub

namespace Side

def Collides (e : Side) (s : Segment) : Prop :=
  ∃ c, e.entry = some c ∧ c.phase = .synSent ∧ s.seq = c.expected

/-- A segment of this kind can at most be answered again. -/
inductive Dealt (room : Nat) (s : Segment) : Kind → Side → Prop
  | noted {kind e} : kind.isReply = true → e.win.unacked.get? s.seq = none → e.Needed →
      (kind = .synAck → e.phase ≠ .synSent) →
      (kind = .ack → e.phase = .stopSent → e.win.isDrained = false) →
      (kind = .finAck → e.phase ≠ .closing ∧ e.phase ≠ .closed) → Dealt room s kind e
  | forgotten {e} : e.entry = none → e.window = none → e.resends = [] → Dealt room s .finAck e
  | unknown {kind e} : kind = .data ∨ kind = .stp ∨ kind = .fin → e.entry = none →
      Dealt room s kind e
  | passed {kind e c} : kind.isReply = false → e.entry = some c →
      (kind = .syn → c.phase ≠ .closed) → s.seq ≠ c.expected → Dealt room s kind e
  | full {e c} : e.entry = some c → c.phase.keeps → s.seq = c.expected →
      room ≤ c.unread.length → Dealt room s .data e
  | misplaced {kind e c} : kind.isReply = false → e.entry = some c → c.isIdle = false →
      s.seq = c.expected → (kind = .syn → c.phase ≠ .closed ∧ c.phase ≠ .synSent) →
      (∀ facts, c.phase.move? (.arrival kind) facts = none) → Dealt room s kind e

variable {room : Nat} {k : SocketPair} {s : Segment} {kind : Kind} {e e' : Side} {c : Connection}

theorem Dealt.answered (h : e.Dealt room s kind) (replies : List Segment) :
    Dealt room s kind { e with replies } := by
  cases h with
  | noted hk hw hn h₁ h₂ h₃ => exact .noted hk hw hn h₁ h₂ h₃
  | forgotten hc hw hr => exact .forgotten hc hw hr
  | unknown hk hc => exact .unknown hk hc
  | passed hk hc ho hs => exact .passed hk hc ho hs
  | full hc hp hs hr => exact .full hc hp hs hr
  | misplaced hk hc hi hs ho hm => exact .misplaced hk hc hi hs ho hm

theorem Dealt.taken (hk : kind.isReply = false) (hc : e.entry = some c)
    (hp : kind = .syn → c.phase ≠ .closed) (hs : c.expected = s.seq + 1) : e.Dealt room s kind :=
  .passed hk hc hp (hs ▸ ne_succ s.seq)

theorem Dealt.taken_fin (hs : c.expected = s.seq + 1) :
    (e.enter c).swept.Dealt room s .fin := by
  cases hc : (e.enter c).swept.entry with
  | none => exact .unknown (.inr (.inr rfl)) hc
  | some c' =>
    obtain ⟨hc', -⟩ := entry_swept_eq_some.1 hc
    obtain rfl := Option.some.inj hc'
    exact .taken rfl hc nofun hs

theorem Hears.dealt (h : Hears room k s kind e e') (hn : ¬(kind = .syn ∧ e.Collides s)) :
    e'.Dealt room s kind := by
  cases h with
  | noted hk hsynAck hack hfinAck =>
    refine .noted hk ?_ (needed_swept _) ?_ ?_ ?_
    · exact (congrArg (·.unacked.get? s.seq) (win_acked e s.seq)).trans
        (SortedMap.get?_erase_self _ _)
    · rw [phase_swept]
      exact hsynAck
    · rw [phase_swept]
      exact hack
    · rw [phase_swept]
      exact hfinAck
  | opened | drained =>
    refine .noted rfl ?_ (.of_open (by simp)) (by simp) (by simp) (by simp)
    exact (congrArg (·.unacked.get? s.seq) (win_acked e s.seq)).trans
      (SortedMap.get?_erase_self _ _)
  | ended => exact .forgotten rfl rfl rfl
  | knocked => exact .taken rfl rfl (by simp) rfl
  | strange hk hc => exact .unknown (hk.imp_right .inl) hc
  | strangeFin hc => exact .unknown (.inr (.inr rfl)) hc
  | stale hk hc ho hlt => exact .passed hk hc ho (UInt32.ne_of_lt hlt)
  | early hk hc ho hgt => exact .passed hk hc ho (UInt32.ne_of_lt hgt).symm
  | collided hc hp hs => exact absurd ⟨rfl, _, hc, hp, hs⟩ hn
  | kept | halted | crossed => exact .taken rfl rfl nofun rfl
  | full hc hp hs hroom => exact .full hc hp hs hroom
  | discarded _ _ hk => rcases hk with ⟨rfl, -⟩ | ⟨rfl, -⟩ <;> exact .taken rfl rfl nofun rfl
  | greeted _ hp => exact .taken rfl rfl (fun _ => by rcases hp with hp | hp <;> simp [hp]) rfl
  | repeated _ hp => exact .taken rfl rfl (by simp [hp]) rfl
  | finished | finishedAgain => exact .taken_fin rfl
  | @misplaced _ _ c hk hc hs ho hm =>
    -- An idle entry goes with the first copy, so that the second one finds none.
    cases hi : c.isIdle with
    | false => exact .misplaced hk (entry_swept_eq_some.2 ⟨hc, hi⟩) hi hs ho hm
    | true =>
      have hp : c.phase = .closed := by
        simp only [Connection.isIdle, Bool.and_eq_true, decide_eq_true_eq] at hi
        exact hi.1.1
      have hgone : e.swept.entry = none := by
        rw [swept, hc]
        simp [Option.filter, hi]
      refine .unknown ?_ hgone
      cases kind with
      | data => exact .inl rfl
      | stp => exact .inr (.inl rfl)
      | fin => exact .inr (.inr rfl)
      | syn => exact absurd hp (ho rfl).1
      | _ => cases hk

end Side

namespace Host

variable {h : Host} {s : Segment} {kind : Kind} {c : Connection}

def Collides (h : Host) (s : Segment) : Prop :=
  s.kind? = some .syn ∧ (h.side s.receiverPair).Collides s

def answering (h : Host) (s : Segment) (again : List Kind) : Host :=
  { h with outbox := { h.outbox with replies := h.outbox.replies ++ again.map s.answer } }

@[simp] theorem answering_nil (h : Host) (s : Segment) : h.answering s [] = h := by
  simp [answering]

theorem answering_append (h : Host) (s : Segment) (l m : List Kind) :
    (h.answering s l).answering s m = h.answering s (l ++ m) := by
  simp [answering]

def AtMostAnswered (h : Host) (s : Segment) (h' : Host) : Prop :=
  ∃ again : Option Kind, (∀ reply ∈ again, reply.isReply = true) ∧
    h' = h.answering s again.toList

theorem AtMostAnswered.refl (h : Host) (s : Segment) : h.AtMostAnswered s h :=
  ⟨none, nofun, (h.answering_nil s).symm⟩

theorem receive_of_collides (hs : h.Collides s) : h.receive s = (h.giveUp s.receiverPair).nudge := by
  obtain ⟨hk, c, hc, hp, he⟩ := hs
  have hph : h.table.phase s.receiverPair = .synSent := (Table.phase_of_some hc).trans hp
  have hm : (h.table.phase s.receiverPair).move? (.arrival .syn) (h.facts s.receiverPair) = none := by
    rw [hph]
    rfl
  have hreap : h.reap s.receiverPair = h := by
    rw [reap, Table.reap_of_open hc (by simp [hp])]
  rw [receive, hk]
  simp only [receiveKind_due .syn hc rfl (by simp [hp]) he]
  unfold arrive
  simp only [apply_of_none h hm, hph, Phase.refusal, and_self, if_true, hreap]

theorem receive_syn_gone (hk : s.kind? = some .syn) (hc : h.table.get? s.receiverPair = none) :
    (h.receive s).table.get? s.receiverPair =
      some { phase := .synReceived, expected := s.seq + 1 } := by
  have hp : h.table.phase s.receiverPair = .closed := Table.phase_of_none hc
  have hreceive : h.receive s =
      (arrive { h with table := h.table.restart s.receiverPair } s .syn).nudge := by
    simp [receive, receiveKind, hk, hp, Kind.isReply]
  have hconn : (h.side s.receiverPair).conn = {} := Side.conn_of_none hc
  have hside := arrive_knocked h rfl hp
  rw [hconn] at hside
  rw [hreceive]
  exact congrArg Side.entry hside

theorem arrive_finAck_gone (hc : h.table.get? s.receiverPair = none)
    (hw : h.outbox.windows.get? s.receiverPair = none)
    (hr : h.outbox.resends.filter (fun x => x.senderPair = s.receiverPair) = []) :
    h.arrive s .finAck = h := by
  have hm : (h.table.phase s.receiverPair).move? (.arrival .finAck) (h.facts s.receiverPair) =
      some ⟨.closed, [.release]⟩ := by
    rw [Table.phase_of_none hc]
    rfl
  have hneeded : ∀ c, h.table.get? s.receiverPair = some c → c.isIdle = false := by simp [hc]
  unfold arrive
  simp only [apply_of_some h hm rfl, Table.ensure, Table.remove_put_of_none hc,
    Table.adjust_of_none hc, h.outbox.release_of_none hw hr, reap, Table.reap_of_needed hneeded]
  rfl

theorem receiveKind_unawaited (hk : kind.isReply = true)
    (hs : h.outbox.awaits s.receiverPair s.seq = false) :
    h.receiveKind s kind = (h.arrive s kind).nudge := by
  rw [receiveKind, if_pos hk, Outbox.acknowledge_of_unawaited hs]

theorem receiveKind_gone (kind : Kind) (hk : kind.isReply = false) (hsyn : kind ≠ .syn)
    (hc : h.table.get? s.receiverPair = none) :
    h.receiveKind s kind = (h.arrive s kind).nudge := by
  simp [receiveKind, hk, hsyn, hc]

theorem receiveKind_passed (hk : kind.isReply = false)
    (hc : h.table.get? s.receiverPair = some c) (hsyn : kind = .syn → c.phase ≠ .closed)
    (hs : s.seq ≠ c.expected) : h.receiveKind s kind =
      if s.seq < c.expected then (h.answering s (c.phase.again kind).toList).nudge else h := by
  have hknock : ¬(kind = .syn ∧ h.table.phase s.receiverPair = .closed) := by
    rw [Table.phase_of_some hc]
    exact fun hn => hsyn hn.1 hn.2
  rw [receiveKind, if_neg (by simp [hk]), if_neg hknock]
  simp only [hc, answerAgain_eq, Table.phase_of_some hc]
  by_cases hlt : s.seq < c.expected
  · simp [hlt, answering]
  · have hgt : c.expected < s.seq := by
      rw [UInt32.lt_iff_toNat_lt] at hlt ⊢
      exact Nat.lt_of_le_of_ne (Nat.le_of_not_lt hlt) fun he => hs (UInt32.toNat_inj.1 he.symm)
    simp [hlt, hgt]

theorem receiveKind_of_dealt (hd : (h.side s.receiverPair).Dealt h.table.capacity s kind) :
    h.receiveKind s kind = h ∨ h.nudge.AtMostAnswered s (h.receiveKind s kind) := by
  have unanswered (ha : h.receiveKind s kind = h.nudge) :
      h.nudge.AtMostAnswered s (h.receiveKind s kind) := ha ▸ .refl h.nudge s
  cases hd with
  | noted hk hw hn hsynAck hack hfinAck =>
    have hawaits : h.outbox.awaits s.receiverPair s.seq = false := by
      rw [Outbox.awaits, SortedMap.contains, Outbox.window_eq]
      exact congrArg Option.isSome hw
    refine .inr (unanswered ?_)
    rw [receiveKind_unawaited hk hawaits,
      arrive_idle h rfl hk fun m => Phase.idle_of_reply hk hsynAck hack hfinAck, reap,
      Table.reap_of_needed hn]
  | forgotten hc hw hr =>
    have hawaits : h.outbox.awaits s.receiverPair s.seq = false := by
      rw [Outbox.awaits, Outbox.window_eq, show h.outbox.windows.get? s.receiverPair = none from hw]
      rfl
    refine .inr (unanswered ?_)
    rw [receiveKind_unawaited rfl hawaits, arrive_finAck_gone hc hw hr]
  | unknown hk hc =>
    have hneeded : (h.side s.receiverPair).Needed := .of_none hc
    have strange (hk : kind = .data ∨ kind = .stp) : h.arrive s kind = h := by
      have hm : (h.table.phase s.receiverPair).move? (.arrival kind) (h.facts s.receiverPair) =
          none := by
        rw [Table.phase_of_none hc]
        rcases hk with rfl | rfl <;> rfl
      rw [arrive_of_none h rfl hm (by rcases hk with rfl | rfl <;> simp), reap,
        Table.reap_of_needed hneeded]
    rcases hk with rfl | rfl | rfl
    · refine .inr (unanswered ?_)
      rw [receiveKind_gone .data rfl (by decide) hc, strange (.inl rfl)]
    · refine .inr (unanswered ?_)
      rw [receiveKind_gone .stp rfl (by decide) hc, strange (.inr rfl)]
    · refine .inr ⟨some .finAck, by simp [Kind.isReply], ?_⟩
      rw [receiveKind_gone .fin rfl (by decide) hc, arrive_strangeFin h rfl hc]
      rfl
  | @passed _ _ c hk hc hsyn hs =>
    rw [receiveKind_passed hk hc hsyn hs]
    by_cases hlt : s.seq < c.expected
    · exact .inr ⟨_, fun _ => Side.isReply_again, if_pos hlt⟩
    · exact .inl (if_neg hlt)
  | full hc hp hs hr =>
    refine .inr (unanswered ?_)
    rw [receiveKind_due .data hc rfl (by simp) hs, arrive_full hc hp hr]
  | misplaced hk hc hi hs ho hm =>
    have hneeded : (h.side s.receiverPair).Needed := fun c' hc' => by
      obtain rfl := Option.some.inj (hc.symm.trans hc')
      exact hi
    have hph := Table.phase_of_some hc
    refine .inr (unanswered ?_)
    rw [receiveKind_due _ hc hk (fun hsyn => (ho hsyn).1) hs,
      arrive_of_none h rfl (hph ▸ hm _) (fun hn => (ho hn.2).2 (hph ▸ hn.1)), reap,
      Table.reap_of_needed hneeded]

theorem receive_nudged (h : Host) (s : Segment) :
    h.receive s = h ∨ (h.receive s).nudge = h.receive s := by
  unfold receive
  cases s.kind? with
  | none => exact .inl rfl
  | some kind =>
    simp only [receiveKind]
    repeat' split
    all_goals first
      | exact .inl rfl
      | exact .inr rfl

structure Settled (h : Host) (s : Segment) : Prop where
  dealt : ∀ kind, s.kind? = some kind →
    (h.side s.receiverPair).Dealt h.table.capacity s kind
  quiet : h.receive s = h ∨ h.nudge = h

theorem settled_receive (hs : ¬h.Collides s) : (h.receive s).Settled s where
  dealt kind hk := by
    have hreceive : h.receive s = h.receiveKind s kind := by rw [receive, hk]
    have hcapacity : (h.receive s).table.capacity = h.table.capacity :=
      congrArg Settings.room (h.confined_receive s).settings
    rw [hcapacity, hreceive]
    exact (h.receiveKind_side s kind).dealt fun hc => hs ⟨hc.1 ▸ hk, hc.2⟩
  quiet := (h.receive_nudged s).imp_left fun heq => by rw [heq, heq]

namespace Settled

theorem answering (hd : h.Settled s) (hn : h.nudge = h) (again : List Kind) :
    (h.answering s again).Settled s where
  dealt kind hk := (hd.dealt kind hk).answered _
  quiet := .inr (congrArg (fun g : Host => { h.answering s again with nudged := g.nudged }) hn)

theorem receive (hd : h.Settled s) :
    h.AtMostAnswered s (h.receive s) ∧ (h.receive s).Settled s := by
  have unchanged (heq : h.receive s = h) :
      h.AtMostAnswered s (h.receive s) ∧ (h.receive s).Settled s :=
    heq.symm ▸ ⟨.refl h s, hd⟩
  rcases hd.quiet with heq | hn
  · exact unchanged heq
  · cases hk : s.kind? with
    | none => exact unchanged (by rw [Host.receive, hk])
    | some kind =>
      have hreceive : h.receive s = h.receiveKind s kind := by rw [Host.receive, hk]
      rcases receiveKind_of_dealt (hd.dealt kind hk) with heq | ⟨again, hreply, heq⟩
      · exact unchanged (hreceive.trans heq)
      · rw [hreceive, heq, hn]
        exact ⟨⟨again, hreply, rfl⟩, hd.answering hn again.toList⟩

theorem receive_replicate (hd : h.Settled s) (n : Nat) : ∃ again : List Kind,
    again.length ≤ n ∧ (∀ reply ∈ again, reply.isReply = true) ∧
      (List.replicate n s).foldl Host.receive h = h.answering s again := by
  induction n generalizing h with
  | zero => exact ⟨[], Nat.le_refl 0, nofun, by simp⟩
  | succ n ih =>
    obtain ⟨⟨first, hfirst, hreceive⟩, hd'⟩ := hd.receive
    obtain ⟨again, hlength, hreply, hrun⟩ := ih hd'
    refine ⟨first.toList ++ again, ?_, ?_, ?_⟩
    · have : first.toList.length ≤ 1 := by cases first <;> simp
      simp only [List.length_append]
      omega
    · intro reply hr
      rcases List.mem_append.1 hr with hr | hr
      · exact hfirst reply (Option.mem_toList.1 hr)
      · exact hreply reply hr
    · rw [List.replicate_succ, List.foldl_cons, hrun, hreceive, answering_append]

end Settled

/-- A segment that arrives twice does what it does once, but for at most one more reply, unless it
is a SYN that collides with a dial. -/
theorem duplicate_changes_nothing (h : Host) (s : Segment) :
    ¬h.Collides s ↔ (h.receive s).AtMostAnswered s ((h.receive s).receive s) := by
  constructor
  · exact fun hs => (settled_receive hs).receive.1
  · rintro ⟨again, -, heq⟩ hs
    have hgone : (h.receive s).table.get? s.receiverPair = none := by
      rw [receive_of_collides hs]
      exact Table.get?_remove_self _ _
    have hknock := receive_syn_gone hs.1 hgone
    rw [heq] at hknock
    exact absurd (hgone.symm.trans hknock) (by simp)

end Host

end ReliableStream
