import ReliableStream.Proofs.Operations

namespace ReliableStream.Side

def sending (e : Side) (s : Segment) : Prop :=
  s ∈ e.replies ∨ s ∈ e.resends ∨ s ∈ e.win.pending

structure Sound (e : Side) : Prop where
  replies : ∀ s ∈ e.replies, s.isReply = true
  pending : ∀ s ∈ e.win.pending, s.isReply = false
  unacked : ∀ i s, e.win.unacked.get? i = some s → s.isReply = false
  resends : ∀ s ∈ e.resends, s.isReply = false
  shut : e.phase = .closed ∨ e.phase = .synReceived → e.window = none ∧ e.resends = []

namespace Sound

variable {e : Side} (h : e.Sound)

theorem blank : Sound {} := by
  constructor <;> simp [win, phase]

include h

theorem swept : e.swept.Sound :=
  ⟨h.replies, h.pending, h.unacked, h.resends, by rw [phase_swept]; exact h.shut⟩

theorem answer {s : Segment} (hs : s.isReply = true) : (e.answer s).Sound where
  replies := by
    intro x hx
    rcases List.mem_append.1 hx with hx | hx
    · exact h.replies x hx
    · rwa [List.mem_singleton.1 hx]
  pending := h.pending
  unacked := h.unacked
  resends := h.resends
  shut := h.shut

theorem enter {c : Connection}
    (hc : c.phase = .closed ∨ c.phase = .synReceived → e.window = none ∧ e.resends = []) :
    (e.enter c).Sound :=
  ⟨h.replies, h.pending, h.unacked, h.resends, hc⟩

theorem acked (seq : SequenceNumber) : (e.acked seq).Sound where
  replies := h.replies
  pending := by
    rw [win_acked]
    exact h.pending
  unacked := by
    intro i s hs
    rw [win_acked] at hs
    by_cases hi : seq = i
    · subst hi
      simp at hs
    · rw [SortedMap.get?_erase_of_ne _ hi] at hs
      exact h.unacked i s hs
  resends := h.resends
  shut hp := by
    obtain ⟨hw, hr⟩ := h.shut hp
    exact ⟨by simp [Side.acked, hw], hr⟩

theorem push {s : Segment} (hs : s.isReply = false) (hp : e.phase ≠ .closed)
    (hr : e.phase ≠ .synReceived) : (e.push s).Sound where
  replies := h.replies
  pending := by
    intro x hx
    rcases List.mem_append.1 hx with hx | hx
    · exact h.pending x hx
    · rw [List.mem_singleton.1 hx]
      exact hs
  unacked := h.unacked
  resends := h.resends
  shut hp' := (hp'.elim hp hr).elim

theorem stopped (hp : e.phase ≠ .closed) (hr : e.phase ≠ .synReceived) : e.stopped.Sound :=
  ⟨h.replies, h.pending, h.unacked, h.resends, fun hp' => (hp'.elim hp hr).elim⟩

theorem pushData {k : SocketPair} (l : List (List UInt8)) (hp : e.phase ≠ .closed)
    (hr : e.phase ≠ .synReceived) : (e.pushData k l).Sound := by
  induction l generalizing e with
  | nil => exact h
  | cons payload rest ih => exact ih (h.push rfl hp hr) hp hr

theorem released : e.released.Sound where
  replies := h.replies
  pending := by simp [win, Side.released]
  unacked := by simp [win, Side.released]
  resends := by simp [Side.released]
  shut _ := ⟨rfl, rfl⟩

theorem forgotten : e.forgotten.Sound where
  replies := h.replies
  pending := by simp [win, Side.forgotten, Side.released]
  unacked := by simp [win, Side.forgotten, Side.released]
  resends := by simp [Side.forgotten, Side.released]
  shut _ := ⟨rfl, rfl⟩

theorem resent (hp : e.phase ≠ .closed) (hr : e.phase ≠ .synReceived) : e.resent.Sound where
  replies := h.replies
  pending := h.pending
  unacked := h.unacked
  resends := by
    intro s hs
    rcases Outbox.mem_addMissing.1 hs with hs | hs
    · exact h.resends s hs
    · obtain ⟨i, hi⟩ := SortedMap.mem_values_iff.1 hs
      exact h.unacked i s hi
  shut hp' := (hp'.elim hp hr).elim

theorem sent (limit : Nat) : (e.sent limit).Sound where
  replies := by simp [Side.sent]
  pending := by
    intro s hs
    rw [win_sent] at hs
    exact h.pending s (Window.mem_pending_of_advance hs)
  unacked := by
    intro i s hs
    rw [win_sent] at hs
    rcases Window.get?_admitFrom hs with hs | ⟨hs, -⟩
    · exact h.unacked i s hs
    · exact h.pending s hs
  resends := by simp [Side.sent]
  shut hp := by
    obtain ⟨hw, -⟩ := h.shut hp
    exact ⟨by simp [Side.sent, hw], rfl⟩

end Sound

theorem isReply_answer (s : Segment) (kind : Kind) : (s.answer kind).isReply = kind.isReply := by
  simp [Segment.isReply]

theorem isReply_control (k : SocketPair) (kind : Kind) :
    (Segment.control k kind).isReply = kind.isReply := by
  simp [Segment.isReply]

theorem isReply_again {phase : Phase} {kind kind' : Kind} (h : phase.again kind = some kind') :
    kind'.isReply = true := by
  cases kind <;> cases phase <;> simp_all [Phase.again] <;> subst h <;> rfl

theorem live_ne {p : Phase} (h : p.keeps ∨ p.discards) : p ≠ .closed ∧ p ≠ .synReceived := by
  rcases h with (h | h) | (h | h) <;> simp [h]

theorem Hears.sound {room : Nat} {k : SocketPair} {s : Segment} {kind : Kind} {e e' : Side}
    (hs : Hears room k s kind e e') (h : e.Sound) : e'.Sound := by
  cases hs with
  | noted => exact (h.acked _).swept
  | opened => exact (h.acked _).enter (by simp)
  | drained hc hp =>
    have ho : (e.acked s.seq).phase = .stopSent := (phase_of_entry hc).trans hp
    exact ((h.acked _).push (isReply_control _ _) (by simp [ho]) (by simp [ho])).enter (by simp)
  | ended => exact (h.acked _).forgotten
  | knocked hp =>
    have hb : Sound (e.greeted s) := ⟨h.replies, h.pending, h.unacked, h.resends, h.shut⟩
    exact hb.enter fun _ => h.shut (.inl hp)
  | strange => exact h
  | strangeFin => exact h.answer (isReply_answer _ _)
  | stale hk hc =>
    refine ⟨?_, h.pending, h.unacked, h.resends, h.shut⟩
    intro x hx
    rcases List.mem_append.1 hx with hx | hx
    · exact h.replies x hx
    · obtain ⟨kind', hk', rfl⟩ := List.mem_map.1 hx
      rw [isReply_answer]
      exact isReply_again (Option.mem_toList.1 hk')
  | early => exact h
  | collided => exact h.forgotten
  | kept hc hp =>
    have hn := live_ne (.inl hp)
    exact (h.answer (isReply_answer _ _)).enter fun ho => (ho.elim hn.1 hn.2).elim
  | full => exact h
  | discarded hc he hp =>
    have hn : _ ≠ Phase.closed ∧ _ ≠ Phase.synReceived :=
      live_ne (.inr (hp.elim And.right fun hp => .inr hp.2))
    exact (h.answer (isReply_answer _ _)).enter fun ho => (ho.elim hn.1 hn.2).elim
  | halted hc hp =>
    have ho : (e.answer (s.answer .ack)).phase = .established := (phase_of_entry hc).trans hp
    exact ((h.answer (isReply_answer _ _)).stopped (by simp [ho]) (by simp [ho])).enter (by simp)
  | crossed hc hp =>
    have ho : (e.answer (s.answer .ack)).phase = .stopSent := (phase_of_entry hc).trans hp
    exact ((h.answer (isReply_answer _ _)).push (isReply_control _ _) (by simp [ho])
      (by simp [ho])).enter (by simp)
  | greeted hc hp =>
    exact (h.answer (isReply_answer _ _)).enter fun ho => by rcases hp with hp | hp <;> simp [hp] at ho
  | repeated hc hp => exact h.enter fun _ => h.shut (.inr ((phase_of_entry hc).trans hp))
  | finished hc hp =>
    exact ((h.answer (isReply_answer _ _)).released.enter fun _ => ⟨rfl, rfl⟩).swept
  | finishedAgain hc hp =>
    exact ((h.answer (isReply_answer _ _)).enter
      fun _ => h.shut (.inl ((phase_of_entry hc).trans hp))).swept
  | misplaced => exact h.swept

theorem Step.sound {cfg : Settings} {k : SocketPair} {op : Station.Op} {r : Station.Reply}
    {e e' : Side} (hs : Step cfg k op r e e') (h : e.Sound) : e'.Sound := by
  cases hs with
  | apart => exact h
  | heard _ _ _ hh => exact hh.sound h
  | dialled he => exact (h.enter (by simp)).push (isReply_control _ _) (by simp) (by simp)
  | forgot => exact h.forgotten
  | @accepted e c syn rest hc hp =>
    have hb : Sound { e with waiting := rest } :=
      ⟨h.replies, h.pending, h.unacked, h.resends, h.shut⟩
    exact (hb.answer (isReply_answer _ _)).enter (by simp)
  | passed => exact ⟨h.replies, h.pending, h.unacked, h.resends, h.shut⟩
  | read hc => exact (h.enter (by rw [← phase_of_entry hc]; exact h.shut)).swept
  | readNothing => exact h
  | readRefused => exact h.swept
  | @wrote e data hd =>
    by_cases hn : data = []
    · subst hn
      exact h
    · exact h.pushData _ (by simp [hd hn]) (by simp [hd hn])
  | writeRefused => exact h.swept
  | closedDrained hc hp =>
    have ho := (phase_of_entry hc).trans hp
    exact (h.push (isReply_control _ _) (by simp [ho]) (by simp [ho])).enter (by simp)
  | closedBusy hc hp =>
    have ho := (phase_of_entry hc).trans hp
    exact (h.push (isReply_control _ _) (by simp [ho]) (by simp [ho])).enter (by simp)
  | closedStopped hc hp =>
    have ho := (phase_of_entry hc).trans hp
    exact (h.push (isReply_control _ _) (by simp [ho]) (by simp [ho])).enter (by simp)
  | closedIdle => exact h.swept
  | closeRefused => exact h
  | ticked hp =>
    exact h.resent (by rcases hp with hp | (hp | hp) | hp <;> simp [hp])
      (by rcases hp with hp | (hp | hp) | hp <;> simp [hp])
  | @tickedClosing e c hc hp =>
    have hb : Sound (e.enter { c with closingTicks := c.closingTicks + 1 }) :=
      h.enter (by simp [hp])
    exact hb.resent (by simp [hp]) (by simp [hp])
  | expired => exact h.forgotten
  | tickedIdle => exact h.swept
  | polled => exact h.sent _

@[simp] theorem phase_blank : phase {} = .closed := rfl

theorem Step.blank {cfg : Settings} {k : SocketPair} {op : Station.Op} {r : Station.Reply}
    {e' : Side} (hs : Step cfg k op r {} e') (harr : ∀ x, op.arrival? = some x → x.receiverPair ≠ k)
    (hdial : ∀ ticket, r ≠ .dialled (.ok ticket)) :
    e' = {} ∧ op.wrote k r = [] ∧ op.took k r = [] ∧ r ≠ .accepted (.ok (some k)) := by
  generalize he : ({} : Side) = e at hs
  have hn : ∀ c, e.entry ≠ some c := by simp [← he]
  cases hs with
  | apart hw ht ha => exact ⟨rfl, hw, ht, ha⟩
  | heard hx _ hk _ => exact absurd hk (harr _ hx)
  | dialled => exact absurd rfl (hdial _)
  | forgot _ hw ht ha => exact ⟨by rw [← he]; rfl, hw, ht, ha⟩
  | @passed _ p r waiting hp hw ha =>
    subst he
    rw [List.suffix_nil.1 hw]
    exact ⟨rfl, rfl, rfl, fun h => ha (Station.Reply.accepted.inj h)⟩
  | readRefused => exact ⟨by rw [← he]; rfl, rfl, rfl, by simp⟩
  | @wrote _ data hd =>
    by_cases hnil : data = []
    · subst hnil
      exact ⟨rfl, by simp [Station.Op.wrote], rfl, by simp⟩
    · have := (hd hnil).1
      rw [← he] at this
      cases this
  | writeRefused => exact ⟨by rw [← he]; rfl, rfl, rfl, by simp⟩
  | closedIdle => exact ⟨by rw [← he]; rfl, rfl, rfl, by simp⟩
  | closeRefused => exact ⟨rfl, rfl, rfl, by simp⟩
  | ticked hp =>
    rw [← he] at hp
    rcases hp with hp | (hp | hp) | hp <;> cases hp
  | tickedIdle => exact ⟨by rw [← he]; rfl, rfl, rfl, by simp⟩
  | polled hop => exact ⟨by rw [← he]; rfl, by rcases hop with rfl | rfl <;> rfl,
      by rcases hop with rfl | rfl <;> rfl, by simp⟩
  | accepted hc => exact absurd hc (hn _)
  | read hc => exact absurd hc (hn _)
  | readNothing hc => exact absurd hc (hn _)
  | closedDrained hc => exact absurd hc (hn _)
  | closedBusy hc => exact absurd hc (hn _)
  | closedStopped hc => exact absurd hc (hn _)
  | tickedClosing hc => exact absurd hc (hn _)
  | expired hc => exact absurd hc (hn _)

theorem not_sending_blank (s : Segment) : ¬sending {} s := by simp [sending, win]

theorem Step.connect {cfg : Settings} {k : SocketPair} {farHost : HostId} {farPort : Port}
    {r : Station.Reply} {e e' : Side} (hs : Step cfg k (.call (.connect farHost farPort)) r e e') :
    e' = e ∨ e.entry = none ∧ k.far = ⟨farHost, farPort⟩ ∧ ∃ ticket, r = .dialled (.ok ticket) ∧
      e' = (e.enter { phase := .synSent, waiter := some ticket }).push (.control k .syn) := by
  cases hs with
  | apart => exact .inl rfl
  | heard ha => cases ha
  | dialled he => exact .inr ⟨he, rfl, _, rfl, rfl⟩
  | forgot h => cases h
  | polled h => simp at h

end ReliableStream.Side
