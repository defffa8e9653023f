import ReliableStream.Proofs.Arrival
import ReliableStream.Proofs.Confined

namespace ReliableStream

theorem Table.get?_of_freePort {t : Table} {p : Port} (h : t.freePort? = some p) {k : SocketPair}
    (hk : k.near.port = p) : t.get? k = none := by
  cases hc : t.get? k with
  | none => rfl
  | some c =>
    have hu : t.inUse p = false := by simpa using List.find?_some h
    have hmem : k ∈ t.connections.keys := SortedMap.mem_keys_iff.2 ⟨c, hc⟩
    have hany : t.connections.keys.any (fun j => j.near.port = p) = true :=
      List.any_eq_true.2 ⟨k, hmem, by simpa using hk⟩
    simp [inUse, hany] at hu

namespace Side

def ticked (patience : Nat) (e : Side) : Side :=
  match e.phase with
  | .closed | .synReceived => e.swept
  | .closing =>
    if patience ≤ e.conn.closingTicks then e.forgotten
    else (e.enter { e.conn with closingTicks := e.conn.closingTicks + 1 }).resent
  | _ => e.resent

variable {patience : Nat} {e : Side}

theorem ticked_idle (h : e.phase = .closed ∨ e.phase = .synReceived) :
    e.ticked patience = e.swept := by
  rcases h with h | h <;> simp [ticked, h]

theorem ticked_open (h : e.phase = .synSent ∨ e.phase.keeps ∨ e.phase = .stopSent) :
    e.ticked patience = e.resent := by
  rcases h with h | (h | h) | h <;> simp [ticked, h]

theorem ticked_closing {c : Connection} (hc : e.entry = some c) (h : c.phase = .closing) :
    e.ticked patience = if patience ≤ c.closingTicks then e.forgotten
      else (e.enter { c with closingTicks := c.closingTicks + 1 }).resent := by
  simp only [ticked, phase_of_entry hc, h, conn_of_entry hc]

theorem ticked_cases (patience : Nat) (e : Side) :
    (e.phase = .closed ∨ e.phase = .synReceived) ∧ e.ticked patience = e.swept ∨
      (e.phase = .synSent ∨ e.phase.keeps ∨ e.phase = .stopSent) ∧ e.ticked patience = e.resent ∨
      ∃ c, e.entry = some c ∧ c.phase = .closing ∧
        (c.closingTicks < patience ∧ e.ticked patience =
            (e.enter { c with closingTicks := c.closingTicks + 1 }).resent ∨
          patience ≤ c.closingTicks ∧ e.ticked patience = e.forgotten) := by
  by_cases hidle : e.phase = .closed ∨ e.phase = .synReceived
  · exact .inl ⟨hidle, ticked_idle hidle⟩
  by_cases hopen : e.phase = .synSent ∨ e.phase.keeps ∨ e.phase = .stopSent
  · exact .inr (.inl ⟨hopen, ticked_open hopen⟩)
  · have hp : e.phase = .closing := by cases hp : e.phase <;> simp_all [Phase.keeps]
    obtain ⟨c, hc, hcp⟩ := exists_entry (e := e) (by simp [hp])
    refine .inr (.inr ⟨c, hc, hcp.trans hp, ?_⟩)
    rw [ticked_closing hc (hcp.trans hp)]
    split
    · exact .inr ⟨‹_›, rfl⟩
    · exact .inl ⟨Nat.lt_of_not_le ‹_›, rfl⟩

theorem step_ticked (cfg : Settings) (k : SocketPair) (e : Side) :
    Step cfg k .tick .none e (e.ticked cfg.patience) := by
  rcases e.ticked_cases cfg.patience with
    ⟨hp, ht⟩ | ⟨hp, ht⟩ | ⟨c, hc, hp, ⟨hlt, ht⟩ | ⟨hle, ht⟩⟩ <;> rw [ht]
  · exact .tickedIdle hp
  · exact .ticked hp
  · exact .tickedClosing hc hp hlt
  · exact .expired hc hp hle

end Side

namespace Host

open Side

variable (h : Host) {k : SocketPair} {c : Connection}

theorem side_event {event : Event} {segment : Option Segment} {facts : Facts} {m : Move}
    {h' : Host} {e' : Side} {c' : Connection} {accepted : Bool} (hc : h.table.get? k = some c)
    (hm : c.phase.move? event facts = some m)
    (ha : h.actAll k segment m.actions = (h', .ok accepted)) (he' : h'.side k = e')
    (hc' : e'.entry = some c') (ho : m.next ≠ .closed) :
    (h.apply k event segment facts).1.side k = e'.enter { c' with phase := m.next } ∧
      (h.apply k event segment facts).2 = .ok ⟨m.next, accepted⟩ := by
  have hp : h.table.phase k = c.phase := Table.phase_of_some hc
  have ha' : actAll { h with table := h.table.ensure k } k segment m.actions =
      (h', .ok accepted) := by
    rw [h.table.ensure_of_some hc]
    exact ha
  refine ⟨?_, by rw [apply_of_some h (hp ▸ hm) ha']⟩
  rw [side_apply h (hp ▸ hm) ha', he', inPhase_of_entry hc', swept_of_open (by exact ho)]

theorem actAll_transmit {kind : Kind} (hk : kind ≠ .data) :
    h.actAll k none [.transmit kind] = ({ h with
      outbox := h.outbox.put k ((h.outbox.window k).push (.control k kind)) }, .ok true) := by
  simp only [actAll, act_transmit h k none hk]
  rfl

theorem side_transmit (kind : Kind) : side { h with
    outbox := h.outbox.put k ((h.outbox.window k).push (.control k kind)) } k =
      (h.side k).push (.control k kind) :=
  of_push _ _ _ _

theorem apply_close_open (facts : Facts) {m : Move} {kind : Kind} (hc : h.table.get? k = some c)
    (hm : c.phase.move? .close facts = some m) (hl : m.actions = [.transmit kind])
    (hk : kind ≠ .data) (ho : m.next ≠ .closed) :
    (h.apply k .close none facts).1.side k =
        ((h.side k).push (.control k kind)).enter { c with phase := m.next } ∧
      (h.apply k .close none facts).2 = .ok ⟨m.next, true⟩ :=
  side_event h hc hm (by rw [hl]; exact h.actAll_transmit hk) (h.side_transmit kind) hc ho

theorem apply_send (payload : List UInt8) (hp : (h.side k).phase = .established)
    (hw : (h.side k).win.stopped = false) :
    (h.apply k .send (some (.data k payload)) {}).1.side k = (h.side k).push (.data k payload) ∧
      (h.apply k .send (some (.data k payload)) {}).2 = .ok ⟨.established, true⟩ := by
  rw [h.send_of_open payload hp hw]
  exact ⟨of_push _ _ _ _, rfl⟩

theorem apply_send_refused (payload : List UInt8)
    (hn : ¬((h.side k).phase = .established ∧ (h.side k).win.stopped = false)) :
    (h.apply k .send (some (.data k payload)) {}).1.side k = (h.side k).swept ∧
      ∃ f, (h.apply k .send (some (.data k payload)) {}).2 = .error f := by
  obtain ⟨f, hr⟩ := h.send_of_refused payload hn
  rw [hr]
  exact ⟨side_reap h, f, rfl⟩

theorem apply_connect (hc : h.table.get? k = none) :
    ((h.await k).1.apply k .connect none {}).1.side k =
        ((h.side k).enter { phase := .synSent, waiter := some h.issued }).push (.control k .syn) ∧
      ((h.await k).1.apply k .connect none {}).2 = .ok ⟨.synSent, true⟩ := by
  have hg : (h.await k).1.table.get? k = some { waiter := some h.issued } := by
    simp [await, Table.get, hc]
  have hs : (h.await k).1.side k = (h.side k).enter { waiter := some h.issued } := by
    rw [← enter_conn (e := (h.await k).1.side k) hg]
    simp [side_eq, await, enter]
  have hm : ({ waiter := some h.issued } : Connection).phase.move? .connect {} =
      some ⟨.synSent, [.transmit .syn]⟩ := rfl
  have := side_event (h.await k).1 hg hm (actAll_transmit _ (by decide)) (side_transmit _ .syn) hg
    (by simp)
  refine ⟨?_, this.2⟩
  rw [this.1, hs]
  rfl

theorem apply_accept {syn : Segment} (hs : syn.receiverPair = k) (hc : h.table.get? k = some c)
    (hp : c.phase = .synReceived) :
    (h.apply k .accept (some syn) {}).1.side k =
        ((h.side k).answer (syn.answer .synAck)).enter { c with phase := .established } ∧
      (h.apply k .accept (some syn) {}).2 = .ok ⟨.established, true⟩ := by
  have hm : c.phase.move? .accept {} = some ⟨.established, [.reply .synAck]⟩ := by rw [hp]; rfl
  exact side_event h hc hm rfl (of_reply _ _ (by exact hs)) hc (by simp)

theorem apply_close_idle (facts : Facts) (hp : h.table.phase k = .closed) :
    (h.apply k .close none facts).1.side k = (h.side k).swept ∧
      (h.apply k .close none facts).2 = .ok ⟨.closed, true⟩ := by
  have hm : (h.table.phase k).move? .close facts = some ⟨.closed, []⟩ := by rw [hp]; rfl
  refine ⟨?_, by rw [apply_of_some h hm rfl]⟩
  rw [side_apply h hm rfl]
  cases hc : h.table.get? k with
  | none =>
    rw [swept_of_none (e := h.side k) hc]
    simp [side_eq, Table.ensure, Table.get, hc, inPhase, swept, Option.filter,
      Connection.isIdle, of]
  | some c =>
    have hph : c.phase = .closed := (Table.phase_of_some hc).symm.trans hp
    rw [h.table.ensure_of_some hc, inPhase_of_entry hc, ← hph, enter_conn (by exact hc)]

theorem close_side (k : SocketPair) : Step h.settings k (.call (.close k))
    (.closed ((h.apply k .close none (h.facts k)).2.map fun _ => ())) (h.side k)
    ((h.apply k .close none (h.facts k)).1.side k) := by
  by_cases hcl : h.table.phase k = .closed
  · obtain ⟨hs, hr⟩ := h.apply_close_idle (h.facts k) hcl
    rw [hs, hr]
    exact .closedIdle hcl
  · cases hc : h.table.get? k with
    | none => exact absurd (Table.phase_of_none hc) hcl
    | some c =>
      have hp : h.table.phase k = c.phase := Table.phase_of_some hc
      by_cases hest : c.phase = .established
      · cases hd : (h.facts k).drained with
        | true =>
          obtain ⟨hs, hr⟩ := h.apply_close_open (h.facts k)
            (m := ⟨.closing, [.transmit .fin]⟩) hc (by rw [hest]; simp [Phase.move?, hd]) rfl
            (by decide) (by simp)
          rw [hs, hr]
          exact .closedDrained hc hest hd
        | false =>
          obtain ⟨hs, hr⟩ := h.apply_close_open (h.facts k)
            (m := ⟨.stopSent, [.transmit .stp]⟩) hc (by rw [hest]; simp [Phase.move?, hd]) rfl
            (by decide) (by simp)
          rw [hs, hr]
          exact .closedBusy hc hest hd
      · by_cases hrec : c.phase = .stopReceived
        · obtain ⟨hs, hr⟩ := h.apply_close_open (h.facts k)
            (m := ⟨.closing, [.transmit .fin]⟩) hc (by rw [hrec]; rfl) rfl (by decide) (by simp)
          rw [hs, hr]
          exact .closedStopped hc hrec
        · have hm : (h.table.phase k).move? .close (h.facts k) = none := by
            cases hph : c.phase <;> simp_all [Phase.move?]
          rw [apply_of_none h hm, side_reap, swept_of_open (e := h.side k) (by exact hcl)]
          exact .closeRefused hcl (by rw [← hp] at hest; exact hest)
            (by rw [← hp] at hrec; exact hrec)

theorem sendAll_open {l : List (List UInt8)} (hp : (h.side k).phase = .established)
    (hw : (h.side k).win.stopped = false) :
    (Station.sendAll h k l).1.side k = (h.side k).pushData k l ∧
      (Station.sendAll h k l).2 = none := by
  induction l generalizing h with
  | nil => exact ⟨rfl, rfl⟩
  | cons payload rest ih =>
    obtain ⟨hs, hr⟩ := h.apply_send payload hp hw
    have := ih (h.apply k .send (some (.data k payload)) {}).1
      (by rw [hs]; exact hp) (by rw [hs]; exact hw)
    unfold Station.sendAll
    rw [← Prod.eta (h.apply k .send (some (.data k payload)) {}), hr]
    simp only
    exact ⟨this.1.trans (by rw [hs]; rfl), this.2⟩

theorem sendAll_refused {l : List (List UInt8)} (hl : l ≠ [])
    (hn : ¬((h.side k).phase = .established ∧ (h.side k).win.stopped = false)) :
    (Station.sendAll h k l).1.side k = (h.side k).swept ∧
      ∃ f, (Station.sendAll h k l).2 = some f := by
  cases l with
  | nil => exact absurd rfl hl
  | cons payload rest =>
    obtain ⟨hs, f, hr⟩ := h.apply_send_refused payload hn
    unfold Station.sendAll
    rw [← Prod.eta (h.apply k .send (some (.data k payload)) {}), hr]
    exact ⟨hs, f, rfl⟩

theorem touches_sendAll (l : List (List UInt8)) : Touches k False h (Station.sendAll h k l).1 := by
  induction l generalizing h with
  | nil => exact .refl h
  | cons payload rest ih =>
    have ha : Touches k False h (h.apply k .send (some (.data k payload)) {}).1 := by
      simpa using h.touches_apply k .send (some (.data k payload)) {} (by simp)
    unfold Station.sendAll
    split
    · rename_i heq
      rwa [heq] at ha
    · rename_i heq
      rw [heq] at ha
      exact ha.trans (ih _)

theorem confined_sendAll (l : List (List UInt8)) : Confined k h (Station.sendAll h k l).1 :=
  (h.touches_sendAll l).confined

theorem apply_timer_resends {facts : Facts} {p : Phase} (hf : h.Filed)
    (hc : h.table.get? k = some c) (hm : c.phase.move? .timer facts = some ⟨p, [.retransmit]⟩)
    (hp : c.phase = p) (ho : p ≠ .closed) :
    (h.apply k .timer none facts).1.side k = (h.side k).resent := by
  rw [(side_event h hc hm rfl (of_resend _ _ hf.outbox k) hc ho).1, ← hp, enter_conn]
  · rfl
  · exact hc

theorem apply_timer_idle {facts : Facts} {p : Phase} (hc : h.table.get? k = some c)
    (hm : c.phase.move? .timer facts = some ⟨p, []⟩) (hp : c.phase = p) :
    (h.apply k .timer none facts).1.side k = (h.side k).swept := by
  have hph : h.table.phase k = c.phase := Table.phase_of_some hc
  rw [side_apply h (hph ▸ hm) rfl, h.table.ensure_of_some hc, inPhase_of_entry hc, ← hp,
    enter_conn (by exact hc)]

theorem apply_timer_expired {facts : Facts} (hc : h.table.get? k = some c)
    (hp : c.phase = .closing) (hf : facts.expired = true) :
    (h.apply k .timer none facts).1.side k = (h.side k).forgotten := by
  have hm : (h.table.phase k).move? .timer facts = some ⟨.closed, [.release]⟩ := by
    rw [Table.phase_of_some hc, hp]
    simp [Phase.move?, hf]
  rw [side_apply h hm rfl, h.table.ensure_of_some hc, side_eq, of_forget]
  rfl

theorem tickOne_side (hf : h.Filed) (k : SocketPair) :
    (h.tickOne k).side k = (h.side k).ticked h.patience := by
  cases hc : h.table.get? k with
  | none =>
    have hp : (h.side k).phase = .closed := phase_of_none hc
    rw [show h.tickOne k = h by simp [tickOne, hc], ticked_idle (.inl hp), swept_of_none hc]
  | some c =>
    have hp : (h.side k).phase = c.phase := phase_of_entry hc
    have hg : ({ h with table := h.table.put k c } : Host) = h := by rw [Table.put_of_some hc]
    by_cases hcl : c.phase = .closing
    · rw [ticked_closing hc hcl]
      generalize ht : (h.tickOne k).side k = e'
      simp only [tickOne, hc, decide_eq_true hcl, if_true, Bool.true_and] at ht
      rw [← ht]
      generalize hgc : ({ c with closingTicks := c.closingTicks + 1 } : Connection) = c₁
      have hph : c₁.phase = .closing := by rw [← hgc]; exact hcl
      generalize hgh : ({ h with table := h.table.put k c₁ } : Host) = g
      have hg₁ : g.table.get? k = some c₁ := by rw [← hgh]; exact Table.get?_put_self _ k c₁
      have hs : g.side k = (h.side k).enter c₁ := by rw [← hgh]; exact of_put _ _ _ _
      by_cases hx : h.patience ≤ c.closingTicks
      · rw [if_pos hx, g.apply_timer_expired hg₁ hph (by simpa using Nat.lt_succ_of_le hx), hs]
        rfl
      · have hn : ¬h.patience < c.closingTicks + 1 := by omega
        have hgf : g.Filed := by rw [← hgh]; exact ⟨hf.outbox, hf.table⟩
        rw [if_neg hx, g.apply_timer_resends hgf hg₁ (by rw [hph]; simp [Phase.move?, hn]) hph
          (by simp), hs]
    · generalize ht : (h.tickOne k).side k = e'
      simp only [tickOne, hc, hcl, decide_false, Bool.false_eq_true, if_false, Bool.false_and,
        hg] at ht
      rw [← ht]
      cases hph : c.phase with
      | closing => exact absurd hph hcl
      | closed =>
        rw [apply_timer_idle h hc (by rw [hph]; rfl) hph, ticked_idle (.inl (hp.trans hph))]
      | synReceived =>
        rw [apply_timer_idle h hc (by rw [hph]; rfl) hph, ticked_idle (.inr (hp.trans hph))]
      | synSent =>
        rw [apply_timer_resends h hf hc (by rw [hph]; rfl) hph (by simp),
          ticked_open (.inl (hp.trans hph))]
      | established =>
        rw [apply_timer_resends h hf hc (by rw [hph]; rfl) hph (by simp),
          ticked_open (.inr (.inl (.inl (hp.trans hph))))]
      | stopReceived =>
        rw [apply_timer_resends h hf hc (by rw [hph]; rfl) hph (by simp),
          ticked_open (.inr (.inl (.inr (hp.trans hph))))]
      | stopSent =>
        rw [apply_timer_resends h hf hc (by rw [hph]; rfl) hph (by simp),
          ticked_open (.inr (.inr (hp.trans hph)))]

theorem tickIn_side (hf : h.Filed) {order : List SocketPair} (hn : order.Nodup) (k : SocketPair) :
    (h.tickIn order).side k = if k ∈ order then (h.side k).ticked h.patience else h.side k := by
  induction order generalizing h with
  | nil => rfl
  | cons j rest ih =>
    obtain ⟨hj, hr⟩ := List.nodup_cons.1 hn
    have hcf := h.confined_tickOne j
    rw [show (h.tickIn (j :: rest)).side k = ((h.tickOne j).tickIn rest).side k from rfl,
      ih (h.tickOne j) (hcf.filed hf) hr]
    by_cases hk : j = k
    · subst hk
      rw [if_neg hj, if_pos List.mem_cons_self, h.tickOne_side hf]
    · rw [hcf.others hf k hk, show (h.tickOne j).patience = h.patience from
        congrArg Settings.patience hcf.settings]
      simp [Ne.symm hk]

theorem tickIn_perm_side (hf : h.Filed) {order : List SocketPair}
    (ho : order.Perm h.table.connections.keys) (k : SocketPair) :
    (h.tickIn order).side k = (h.side k).ticked h.patience := by
  rw [h.tickIn_side hf (ho.nodup_iff.2 h.table.connections.nodup_keys) k]
  split
  · rfl
  · rename_i hk
    have hc : (h.side k).entry = none := by
      cases hc : h.table.get? k with
      | none => exact hc
      | some c => exact absurd (ho.mem_iff.2 (SortedMap.mem_keys_iff.2 ⟨c, hc⟩)) hk
    have hp : (h.side k).phase = .closed := phase_of_none hc
    rw [ticked_idle (.inl hp), swept_of_none hc]

theorem tick_side (hf : h.Filed) (k : SocketPair) :
    h.tick.side k = (h.side k).ticked h.patience :=
  h.tickIn_perm_side hf (.refl _) k

end Host

end ReliableStream
