import ReliableStream.Proofs.Actions
import ReliableStream.Proofs.Side

namespace ReliableStream

theorem Phase.idle_of_reply {p : Phase} {kind : Kind} {facts : Facts} {m : Move}
    (hk : kind.isReply = true) (hsynAck : kind = .synAck → p ≠ .synSent)
    (hack : kind = .ack → p = .stopSent → facts.drained = false)
    (hfinAck : kind = .finAck → p ≠ .closing ∧ p ≠ .closed)
    (hm : p.move? (.arrival kind) facts = some m) : m = ⟨p, []⟩ ∧ p ≠ .closed := by
  cases kind with
  | synAck | ack | finAck => cases p <;> simp_all [move?]
  | data | syn | stp | fin => cases hk

namespace Host

open Side

variable (h : Host) {k : SocketPair} {s : Segment} {kind : Kind} {c : Connection} {m : Move}

theorem side_eq (k : SocketPair) : h.side k = of h.table h.outbox k := rfl

@[simp] theorem side_nudge : h.nudge.side k = h.side k := rfl

@[simp] theorem side_reap : (h.reap k).side k = (h.side k).swept := of_reap _ _ k

theorem side_settled (p : Phase) :
    (reap { h with table := h.table.adjust k fun c => { c with phase := p } } k).side k =
      ((h.side k).inPhase p).swept := by
  rw [side_reap, side_eq, of_phase, ← side_eq]

theorem side_apply {event : Event} {segment : Option Segment} {facts : Facts} {h' : Host}
    {accepted : Bool} (hm : (h.table.phase k).move? event facts = some m)
    (ha : actAll { h with table := h.table.ensure k } k segment m.actions = (h', .ok accepted)) :
    (h.apply k event segment facts).1.side k = ((h'.side k).inPhase m.next).swept := by
  rw [apply_of_some h hm ha, side_settled]

theorem arrive_of_none (hs : s.receiverPair = k)
    (hm : (h.table.phase k).move? (.arrival kind) (h.facts k) = none)
    (hr : ¬(h.table.phase k = .synSent ∧ kind = .syn)) : h.arrive s kind = h.reap k := by
  subst hs
  have hf : (h.table.phase s.receiverPair).refusal (.arrival kind) ≠ .simultaneousOpen := by
    simpa [Phase.refusal] using hr
  unfold arrive
  -- `hf` rules out that the connection is given up.
  simp only [apply_of_none h hm]

theorem arrive_collided (hs : s.receiverPair = k) (hp : h.table.phase k = .synSent) :
    (h.arrive s .syn).side k = (h.side k).forgotten := by
  subst hs
  have hm : (h.table.phase s.receiverPair).move? (.arrival .syn) (h.facts s.receiverPair) = none := by
    rw [hp]
    rfl
  unfold arrive
  simp only [apply_of_none h hm, hp, Phase.refusal, and_self, if_true, giveUp, side_eq, of_forget]
  unfold tell
  split <;> simp [of, forgotten, released, reap]

theorem arrive_of_some {h' : Host} {accepted : Bool} (hs : s.receiverPair = k)
    (hm : (h.table.phase k).move? (.arrival kind) (h.facts k) = some m)
    (ha : actAll { h with table := h.table.ensure k } k (some s) m.actions = (h', .ok accepted)) :
    (h.arrive s kind).side k = if accepted && !kind.isReply
      then ((h'.side k).inPhase m.next).swept.advanced s.seq
      else ((h'.side k).inPhase m.next).swept := by
  subst hs
  unfold arrive
  simp only [apply_of_some h hm ha]
  split
  · rw [← side_settled]
    exact of_advance _ _ _ _
  · exact side_settled h' m.next

section Known

variable (hs : s.receiverPair = k) (hc : h.table.get? k = some c)
  (hm : c.phase.move? (.arrival kind) (h.facts k) = some m) {h' : Host} {e' : Side}
  {c' : Connection}

include hs hc hm

theorem arrive_dealt (hk : kind.isReply = false)
    (ha : h.actAll k (some s) m.actions = (h', .ok true)) (he' : h'.side k = e')
    (hc' : e'.entry = some c') : (h.arrive s kind).side k =
      (e'.enter { c' with phase := m.next, expected := s.seq + 1 }).swept := by
  have hp : h.table.phase k = c.phase := Table.phase_of_some hc
  rw [arrive_of_some h hs (hp ▸ hm) (by rw [h.table.ensure_of_some hc]; exact ha), he', hk,
    inPhase_of_entry hc', advanced_swept]
  rfl

theorem arrive_noted {accepted : Bool} (hk : accepted = true → kind.isReply = true)
    (ha : h.actAll k (some s) m.actions = (h', .ok accepted)) (he' : h'.side k = e')
    (hc' : e'.entry = some c') :
    (h.arrive s kind).side k = (e'.enter { c' with phase := m.next }).swept := by
  have hp : h.table.phase k = c.phase := Table.phase_of_some hc
  rw [arrive_of_some h hs (hp ▸ hm) (by rw [h.table.ensure_of_some hc]; exact ha), he',
    inPhase_of_entry hc']
  cases accepted with
  | false => rfl
  | true => simp [hk rfl]

end Known

section Turn

variable (hs : s.receiverPair = k) (hc : h.table.get? k = some c) (he : s.seq = c.expected)

include hs hc he

theorem arrive_data : Hears h.table.capacity k s .data (h.side k) ((h.arrive s .data).side k) := by
  have hp : h.table.phase k = c.phase := Table.phase_of_some hc
  have hg : h.table.get k = c := Table.get_of_some hc
  by_cases hk : c.phase.keeps
  · have hm : c.phase.move? (.arrival .data) (h.facts k) = some ⟨c.phase, [.deliver]⟩ := by
      rcases hk with hk | hk <;> rw [hk] <;> rfl
    have ho : c.phase ≠ .closed := by rcases hk with hk | hk <;> simp [hk]
    by_cases hr : c.unread.length < h.table.capacity
    · have ha : h.actAll k (some s) [.deliver] =
          ({ h with
            table := h.table.put k { c with unread := c.unread ++ [s] }
            outbox := h.outbox.reply (s.answer .ack) }, .ok true) := by
        simp [actAll, act, Table.hasRoom, Table.deliver, hg, hr]
      rw [arrive_dealt h hs hc hm rfl ha ((of_put _ _ _ _).trans (congrArg (enter · _)
        (of_reply _ _ hs))) rfl, swept_of_open (by exact ho)]
      exact .kept hc hk he hr
    · have ha : h.actAll k (some s) [.deliver] = (h, .ok false) := by
        simp [actAll, act, Table.hasRoom, Table.deliver, hg, hr, h.table.ensure_of_some hc]
      rw [arrive_noted h hs hc hm (by simp) ha rfl hc, swept_of_open (by exact ho), enter_conn hc]
      exact .full hc hk he (Nat.le_of_not_lt hr)
  · by_cases hd : c.phase.discards
    · have hm : c.phase.move? (.arrival .data) (h.facts k) = some ⟨c.phase, [.reply .ack]⟩ := by
        rcases hd with hd | hd <;> rw [hd] <;> rfl
      have ho : c.phase ≠ .closed := by rcases hd with hd | hd <;> simp [hd]
      rw [arrive_dealt h hs hc hm rfl rfl (of_reply _ _ hs) hc, swept_of_open (by exact ho)]
      exact .discarded hc he (.inl ⟨rfl, hd⟩)
    · have hm : ∀ facts, c.phase.move? (.arrival .data) facts = none := by
        intro facts
        cases hph : c.phase <;> simp_all [Phase.keeps, Phase.discards, Phase.move?]
      rw [arrive_of_none h hs (hp ▸ hm _) (by simp), side_reap]
      exact .misplaced rfl hc he (by simp) hm

theorem arrive_stp : Hears h.table.capacity k s .stp (h.side k) ((h.arrive s .stp).side k) := by
  have hp : h.table.phase k = c.phase := Table.phase_of_some hc
  cases hph : c.phase with
  | established =>
    have hm : c.phase.move? (.arrival .stp) (h.facts k) =
        some ⟨.stopReceived, [.reply .ack, .stopSending]⟩ := by rw [hph]; rfl
    rw [arrive_dealt h hs hc hm rfl rfl
      ((of_stop _ _ _).trans (congrArg stopped (of_reply _ _ hs))) hc, swept_of_open (by simp)]
    exact .halted hc hph he
  | stopSent =>
    have hm : c.phase.move? (.arrival .stp) (h.facts k) =
        some ⟨.closing, [.reply .ack, .transmit .fin]⟩ := by rw [hph]; rfl
    have ha : h.actAll k (some s) [.reply .ack, .transmit .fin] =
        ({ h with
          outbox := (h.outbox.reply (s.answer .ack)).put k
            (((h.outbox.reply (s.answer .ack)).window k).push (.control k .fin)) }, .ok true) := by
      simp only [actAll, act_reply, act_transmit _ _ _ (by decide : Kind.fin ≠ .data)]
      rfl
    rw [arrive_dealt h hs hc hm rfl ha
      ((of_push _ _ _ _).trans (congrArg (push · _) (of_reply _ _ hs))) hc,
      swept_of_open (by simp)]
    exact .crossed hc hph he
  | closing =>
    have hm : c.phase.move? (.arrival .stp) (h.facts k) = some ⟨.closing, [.reply .ack]⟩ := by
      rw [hph]; rfl
    rw [arrive_dealt h hs hc hm rfl rfl (of_reply _ _ hs) hc, swept_of_open (by simp), ← hph]
    exact .discarded hc he (.inr ⟨rfl, hph⟩)
  | _ =>
    have hm : ∀ facts, c.phase.move? (.arrival .stp) facts = none := by
      intro facts
      rw [hph]
      rfl
    rw [arrive_of_none h hs (hp ▸ hm _) (by simp), side_reap]
    exact .misplaced rfl hc he (by simp) hm

theorem arrive_fin : Hears h.table.capacity k s .fin (h.side k) ((h.arrive s .fin).side k) := by
  have hp : h.table.phase k = c.phase := Table.phase_of_some hc
  by_cases ho : c.phase.keeps ∨ c.phase.discards
  · have hm : c.phase.move? (.arrival .fin) (h.facts k) =
        some ⟨.closed, [.reply .finAck, .releaseSender]⟩ := by
      rcases ho with (ho | ho) | (ho | ho) <;> rw [ho] <;> rfl
    rw [arrive_dealt h hs hc hm rfl rfl
      ((of_release _ _ _).trans (congrArg released (of_reply _ _ hs))) hc]
    exact .finished hc ho he
  · by_cases hd : c.phase = .closed
    · have hm : c.phase.move? (.arrival .fin) (h.facts k) =
          some ⟨.closed, [.reply .finAck]⟩ := by rw [hd]; rfl
      rw [arrive_dealt h hs hc hm rfl rfl (of_reply _ _ hs) hc, ← hd]
      exact .finishedAgain hc hd he
    · have hm : ∀ facts, c.phase.move? (.arrival .fin) facts = none := by
        intro facts
        cases hph : c.phase <;> simp_all [Phase.keeps, Phase.discards, Phase.move?]
      rw [arrive_of_none h hs (hp ▸ hm _) (by simp), side_reap]
      exact .misplaced rfl hc he (by simp) hm

theorem arrive_syn (ho : c.phase ≠ .closed) :
    Hears h.table.capacity k s .syn (h.side k) ((h.arrive s .syn).side k) := by
  have hp : h.table.phase k = c.phase := Table.phase_of_some hc
  by_cases hg : c.phase = .established ∨ c.phase = .closing
  · have hm : c.phase.move? (.arrival .syn) (h.facts k) = some ⟨c.phase, [.reply .synAck]⟩ := by
      rcases hg with hg | hg <;> rw [hg] <;> rfl
    rw [arrive_dealt h hs hc hm rfl rfl (of_reply _ _ hs) hc, swept_of_open (by exact ho)]
    exact .greeted hc hg he
  · cases hph : c.phase with
    | synSent =>
      rw [arrive_collided h hs (hp.trans hph)]
      exact .collided hc hph he
    | synReceived =>
      have hm : c.phase.move? (.arrival .syn) (h.facts k) = some ⟨.synReceived, []⟩ := by
        rw [hph]; rfl
      rw [arrive_dealt h hs hc hm rfl rfl rfl hc, swept_of_open (by simp), ← hph]
      exact .repeated hc hph he
    | closed => exact absurd hph ho
    | _ =>
      have hm : ∀ facts, c.phase.move? (.arrival .syn) facts = none := by
        intro facts
        simp_all [Phase.move?]
      rw [arrive_of_none h hs (hp ▸ hm _) (by simp [hp, hph]), side_reap]
      exact .misplaced rfl hc he (by simp [hph]) hm

end Turn

theorem side_tell (hc : h.table.get? k = some c) (a : Answer) :
    (h.tell k a).side k = (h.side k).enter { c with waiter := none } := by
  have hg : h.table.get k = c := Table.get_of_some hc
  unfold tell
  cases hw : c.waiter with
  | none =>
    have hn : { c with waiter := none } = c := by rw [← hw]
    simp only [hg, hw]
    rw [hn, enter_conn hc]
  | some ticket =>
    simp only [hg, hw]
    simp [side, of, enter, hc]

section Replies

variable (hs : s.receiverPair = k)

include hs

theorem arrive_idle (hk : kind.isReply = true)
    (hm : ∀ m, (h.table.phase k).move? (.arrival kind) (h.facts k) = some m →
      m = ⟨h.table.phase k, []⟩ ∧ h.table.phase k ≠ .closed) :
    h.arrive s kind = h.reap k := by
  cases hq : (h.table.phase k).move? (.arrival kind) (h.facts k) with
  | none => exact arrive_of_none h hs hq (by rintro ⟨-, rfl⟩; cases hk)
  | some m =>
    obtain ⟨rfl, ho⟩ := hm m hq
    obtain ⟨c, hc, hp⟩ := exists_entry (e := h.side k) ho
    have hsame : h.table.adjust k (fun c => { c with phase := h.table.phase k }) = h.table := by
      rw [Table.phase_of_some hc, Table.adjust_of_some hc, Table.put_of_some hc]
    subst hs
    unfold arrive
    simp only [apply_of_some h hq rfl, h.table.ensure_of_some hc, hsame]
    simp [hk]

theorem arrive_synAck (hp : h.table.phase k = .synSent) (hc : h.table.get? k = some c) :
    (h.arrive s .synAck).side k =
      (h.side k).enter { c with phase := .established, waiter := none } := by
  have hph : c.phase = .synSent := (Table.phase_of_some hc).symm.trans hp
  have hm : c.phase.move? (.arrival .synAck) (h.facts k) =
      some ⟨.established, [.wakeConnect]⟩ := by rw [hph]; rfl
  rw [arrive_noted h hs hc hm (fun _ => rfl) rfl (side_tell h hc .opened) rfl,
    swept_of_open (by simp)]
  rfl

theorem arrive_ack_drained (hp : h.table.phase k = .stopSent) (hc : h.table.get? k = some c)
    (hd : (h.side k).win.isDrained = true) : (h.arrive s .ack).side k =
      ((h.side k).push (.control k .fin)).enter { c with phase := .closing } := by
  have hph : c.phase = .stopSent := (Table.phase_of_some hc).symm.trans hp
  have hf : (h.facts k).drained = true := hd
  have hm : c.phase.move? (.arrival .ack) (h.facts k) = some ⟨.closing, [.transmit .fin]⟩ := by
    rw [hph]
    simp [Phase.move?, hf]
  have ha : h.actAll k (some s) [.transmit .fin] = ({ h with
      outbox := h.outbox.put k ((h.outbox.window k).push (.control k .fin)) }, .ok true) := by
    simp only [actAll, act_transmit _ _ _ (by decide : Kind.fin ≠ .data)]
    rfl
  rw [arrive_noted h hs hc hm (fun _ => rfl) ha (of_push _ _ _ _) hc, swept_of_open (by simp)]
  rfl

theorem arrive_finAck (hp : h.table.phase k = .closing ∨ h.table.phase k = .closed) :
    (h.arrive s .finAck).side k = (h.side k).forgotten := by
  have hm : (h.table.phase k).move? (.arrival .finAck) (h.facts k) = some ⟨.closed, [.release]⟩ := by
    rcases hp with hp | hp <;> rw [hp] <;> rfl
  rw [arrive_of_some h hs hm rfl]
  simp [side_eq, Table.ensure, inPhase, swept, forgotten, released, Kind.isReply]
  exact ⟨rfl, rfl⟩

theorem receiveKind_reply (hk : kind.isReply = true) :
    Hears h.table.capacity k s kind (h.side k) ((h.receiveKind s kind).side k) := by
  have hr : h.receiveKind s kind =
      (arrive { h with outbox := h.outbox.acknowledge s.receiverPair s.seq } s kind).nudge := by
    simp [receiveKind, hk]
  rw [hr, side_nudge, hs]
  generalize hg : ({ h with outbox := h.outbox.acknowledge k s.seq } : Host) = g
  have hside : g.side k = (h.side k).acked s.seq := by
    subst hg
    exact of_acknowledge _ _ _ _
  have hgp : g.table.phase k = (h.side k).phase := by
    subst hg
    rfl
  have hge : g.table.get? k = (h.side k).entry := by
    subst hg
    rfl
  have hgd : (g.facts k).drained = ((h.side k).acked s.seq).win.isDrained := by
    rw [← hside]
    rfl
  have noted (hsynAck : kind = .synAck → (h.side k).phase ≠ .synSent)
      (hack : kind = .ack → (h.side k).phase = .stopSent →
        ((h.side k).acked s.seq).win.isDrained = false)
      (hfinAck : kind = .finAck → (h.side k).phase ≠ .closing ∧ (h.side k).phase ≠ .closed) :
      Hears h.table.capacity k s kind (h.side k) ((g.arrive s kind).side k) := by
    rw [← hgd] at hack
    rw [← hgp] at hsynAck hack hfinAck
    rw [arrive_idle g hs hk fun m => Phase.idle_of_reply hk hsynAck hack hfinAck, side_reap, hside]
    rw [hgp] at hsynAck hack hfinAck
    rw [hgd] at hack
    exact .noted hk hsynAck hack hfinAck
  cases kind with
  | data => cases hk
  | syn => cases hk
  | stp => cases hk
  | fin => cases hk
  | synAck =>
    by_cases hp : (h.side k).phase = .synSent
    · obtain ⟨c, hc, hcp⟩ := exists_entry (e := h.side k) (by simp [hp])
      rw [arrive_synAck g hs (hgp.trans hp) (hge.trans hc), hside]
      exact .opened hc (hcp.trans hp)
    · exact noted (fun _ => hp) nofun nofun
  | ack =>
    by_cases hp : (h.side k).phase = .stopSent ∧ ((h.side k).acked s.seq).win.isDrained = true
    · obtain ⟨c, hc, hcp⟩ := exists_entry (e := h.side k) (by simp [hp.1])
      rw [arrive_ack_drained g hs (hgp.trans hp.1) (hge.trans hc) (hside ▸ hp.2), hside]
      exact .drained hc (hcp.trans hp.1) hp.2
    · exact noted nofun (fun _ hsent => Bool.eq_false_iff.2 fun hd => hp ⟨hsent, hd⟩) nofun
  | finAck =>
    by_cases hp : (h.side k).phase = .closing ∨ (h.side k).phase = .closed
    · rw [arrive_finAck g hs (by rwa [hgp]), hside]
      exact .ended hp
    · exact noted nofun nofun fun _ => not_or.1 hp

end Replies

section Strangers

variable (hs : s.receiverPair = k)

include hs

theorem arrive_knocked (hp : h.table.phase k = .closed) :
    (arrive { h with table := h.table.restart k } s .syn).side k = ((h.side k).greeted s).enter
      { (h.side k).conn with phase := .synReceived, expected := s.seq + 1, closingTicks := 0 } := by
  generalize hg : ({ h with table := h.table.restart k } : Host) = g
  have hgp : g.table.phase k = .closed := by
    subst hg
    rw [Table.phase_eq] at hp ⊢
    rw [Table.get?_restart_self]
    cases hc : h.table.get? k <;> simp_all
  have hm : (g.table.phase k).move? (.arrival .syn) (g.facts k) =
      some ⟨.synReceived, [.queueForAccept]⟩ := by rw [hgp]; rfl
  have hside : of ((g.table.ensure k).pushPending s) g.outbox k =
      ((h.side k).greeted s).enter
        { (h.side k).conn with expected := 0, closingTicks := 0 } := by
    rw [of_pushPending _ _ hs]
    subst hg
    cases hc : h.table.get? k <;>
      simp [Table.ensure, Table.get, hc, side_eq, conn, greeted, enter] <;>
      simp [of]
  rw [arrive_of_some g hs hm rfl]
  rw [show Host.side _ k = of ((g.table.ensure k).pushPending s) g.outbox k from rfl, hside]
  rfl

theorem arrive_strangeFin (hc : h.table.get? k = none) :
    h.arrive s .fin = { h with outbox := h.outbox.reply (s.answer .finAck) } := by
  have hm : (h.table.phase k).move? (.arrival .fin) (h.facts k) =
      some ⟨.closed, [.reply .finAck]⟩ := by
    rw [Table.phase_of_none hc]
    rfl
  -- The entry that the answer needs is idle.
  have hreap : ((h.table.ensure k).adjust k fun c => { c with phase := .closed }).reap k =
      h.table := by
    rw [Table.adjust_of_some (h.table.get?_ensure_self _), Table.ensure, Table.put_put, Table.reap,
      Table.get?_put_self, Table.get, hc]
    exact Table.remove_put_of_none hc _
  subst hs
  unfold arrive
  simp only [apply_of_some h hm rfl, reap, hreap, Table.advance, Table.adjust_of_none hc]
  rfl

end Strangers

theorem side_answerAgain (hs : s.receiverPair = k) (hc : h.table.get? k = some c) :
    (h.answerAgain s kind).side k = { h.side k with
      replies := (h.side k).replies ++ (c.phase.again kind).toList.map s.answer } := by
  have hp : h.table.phase k = c.phase := Table.phase_of_some hc
  subst hs
  have hr (kind : Kind) : side { h with outbox := h.outbox.reply (s.answer kind) } s.receiverPair =
      (h.side s.receiverPair).answer (s.answer kind) := of_reply _ _ rfl
  unfold answerAgain
  cases kind with
  | data => exact hr .ack
  | stp => exact hr .ack
  | fin => exact hr .finAck
  | syn =>
    simp only [hp]
    cases c.phase with
    | established => exact hr .synAck
    | closing => exact hr .synAck
    | _ => simp [Phase.again]
  | _ => simp [Phase.again]

theorem receiveKind_side (h : Host) (s : Segment) (kind : Kind) :
    Hears h.table.capacity s.receiverPair s kind (h.side s.receiverPair)
      ((h.receiveKind s kind).side s.receiverPair) := by
  generalize hs : s.receiverPair = k
  cases hk : kind.isReply with
  | true => exact receiveKind_reply h hs hk
  | false =>
    unfold receiveKind
    simp only [hs, hk, Bool.false_eq_true, if_false]
    split
    · rename_i hp
      rw [side_nudge, hp.1, arrive_knocked h hs hp.2]
      exact .knocked hp.2
    · rename_i hp
      cases hc : h.table.get? k with
      | none =>
        have hph : h.table.phase k = .closed := Table.phase_of_none hc
        simp only [side_nudge]
        cases kind with
        | fin =>
          have hside : side { h with outbox := h.outbox.reply (s.answer .finAck) } k =
              (h.side k).answer (s.answer .finAck) := of_reply _ _ hs
          rw [arrive_strangeFin h hs hc, hside]
          exact .strangeFin hc
        | syn => exact absurd ⟨rfl, hph⟩ hp
        | data =>
          rw [arrive_of_none h hs (by rw [hph]; rfl) (by simp), side_reap, swept_of_none hc]
          exact .strange (.inl rfl) hc
        | stp =>
          rw [arrive_of_none h hs (by rw [hph]; rfl) (by simp), side_reap, swept_of_none hc]
          exact .strange (.inr rfl) hc
        | _ => cases hk
      | some c =>
        have hph : h.table.phase k = c.phase := Table.phase_of_some hc
        have ho : kind = .syn → c.phase ≠ .closed := fun hsyn hcl => hp ⟨hsyn, hph.trans hcl⟩
        simp only
        split
        · rename_i hlt
          rw [side_nudge, side_answerAgain h hs hc]
          exact .stale hk hc ho hlt
        · rename_i hnlt
          split
          · rename_i hgt
            exact .early hk hc ho hgt
          · rename_i hngt
            have he : s.seq = c.expected := by
              rw [UInt32.lt_iff_toNat_lt] at hnlt hngt
              exact UInt32.toNat_inj.1 (by omega)
            rw [side_nudge]
            cases kind with
            | data => exact arrive_data h hs hc he
            | stp => exact arrive_stp h hs hc he
            | fin => exact arrive_fin h hs hc he
            | syn => exact arrive_syn h hs hc he (ho rfl)
            | _ => cases hk

end Host

end ReliableStream
