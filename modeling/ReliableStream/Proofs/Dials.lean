import ReliableStream.Proofs.Operations

namespace ReliableStream

namespace Host

variable {k : SocketPair} {segment : Option Segment}

/-- Any dial that is told in `h'` that its connection is open is told so in `h`. -/
def Untold (h h' : Host) : Prop :=
  ∀ ticket, (ticket, Answer.opened) ∈ h'.answers → (ticket, Answer.opened) ∈ h.answers

namespace Untold

variable {h h' : Host}

theorem of_subset (hs : h'.answers ⊆ h.answers) : Untold h h' := fun _ ht => hs ht

theorem of_eq (hs : h'.answers = h.answers) : Untold h h' := of_subset (hs ▸ List.Subset.refl _)

end Untold

theorem answers_act {a : Action} (ha : a ≠ .wakeConnect) (h : Host) :
    (h.act k segment a).1.answers = h.answers := by
  cases a with
  | wakeConnect => exact absurd rfl ha
  | transmit kind => rfl
  | enqueue | reply | queueForAccept => cases segment <;> rfl
  | deliver =>
    cases segment with
    | none => rfl
    | some s =>
      simp only [act]
      split <;> rfl
  | stopSending | releaseSender | release | retransmit => rfl

theorem answers_actAll (h : Host) (k : SocketPair) (segment : Option Segment) {l : List Action}
    (hl : Action.wakeConnect ∉ l) : (h.actAll k segment l).1.answers = h.answers :=
  actAll_induction (R := fun h h' => h'.answers = h.answers) (fun _ => rfl)
    (fun a b => b.trans a) (fun _ ha => answers_act fun he => hl (he ▸ ha)) h

theorem wakeConnect_mem_actions {p : Phase} {event : Event} {facts : Facts} {m : Move}
    (hm : p.move? event facts = some m) (ha : .wakeConnect ∈ m.actions) :
    p = .synSent ∧ event = .arrival .synAck := by
  unfold Phase.move? at hm
  split at hm <;> grind

variable (h : Host)

theorem answers_apply (k : SocketPair) (event : Event) (segment : Option Segment) (facts : Facts)
    (he : h.table.phase k = .synSent → event ≠ .arrival .synAck) :
    (h.apply k event segment facts).1.answers = h.answers := by
  unfold apply
  cases hm : (h.table.phase k).move? event facts with
  | none =>
    simp only [Phase.move, hm]
    rfl
  | some m =>
    simp only [Phase.move, hm]
    have hw : Action.wakeConnect ∉ m.actions := fun hw =>
      he (wakeConnect_mem_actions hm hw).1 (wakeConnect_mem_actions hm hw).2
    have ha := answers_actAll { h with table := h.table.ensure k } k segment hw
    split
    · rename_i heq
      rwa [heq] at ha
    · rename_i heq
      rwa [heq] at ha

theorem apply_collides {event : Event} {facts : Facts}
    (hr : (h.apply k event segment facts).2 = .error .simultaneousOpen) :
    h.table.phase k = .synSent ∧ event = .arrival .syn := by
  unfold apply at hr
  cases hm : (h.table.phase k).move? event facts with
  | none =>
    simp only [Phase.move, hm, Except.error.injEq] at hr
    unfold Phase.refusal at hr
    split at hr <;> grind
  | some m =>
    simp only [Phase.move, hm] at hr
    split at hr <;> cases hr

theorem answers_tell (k : SocketPair) (a : Answer) :
    (h.tell k a).answers = h.answers ++ (h.side k).conn.waiter.toList.map fun t => (t, a) := by
  rw [show (h.side k).conn = h.table.get k from rfl]
  unfold tell
  split <;> rename_i heq <;> simp [heq]

theorem answers_answerAgain (s : Segment) (kind : Kind) :
    (h.answerAgain s kind).answers = h.answers := by
  unfold answerAgain
  split
  · rfl
  · rfl
  · rfl
  · split <;> rfl
  · rfl

theorem answers_arrive (s : Segment) {kind : Kind}
    (hk : h.table.phase s.receiverPair = .synSent → kind ≠ .synAck ∧ kind ≠ .syn) :
    (h.arrive s kind).answers = h.answers := by
  have ha := h.answers_apply s.receiverPair (.arrival kind) (some s) (h.facts s.receiverPair)
    fun hp he => (hk hp).1 (Event.arrival.inj he)
  unfold arrive
  simp only
  split
  · rename_i heq
    rw [heq] at ha
    split <;> exact ha
  · rename_i heq
    obtain ⟨hp, he⟩ := h.apply_collides (congrArg Prod.snd heq)
    exact absurd (Event.arrival.inj he) (hk hp).2
  · rename_i heq
    rw [heq] at ha
    exact ha

section Dialling

variable {s : Segment} (hp : h.table.phase s.receiverPair = .synSent)

include hp

theorem answers_arrive_synAck : (h.arrive s .synAck).answers =
    h.answers ++ (h.side s.receiverPair).conn.waiter.toList.map fun t => (t, .opened) := by
  have hm : (h.table.phase s.receiverPair).move? (.arrival .synAck) (h.facts s.receiverPair) =
      some ⟨.established, [.wakeConnect]⟩ := by rw [hp]; rfl
  obtain ⟨c, hc, -⟩ := Side.exists_entry (e := h.side s.receiverPair)
    fun hn => absurd (hp.symm.trans hn) (by decide)
  rw [← answers_tell]
  unfold arrive
  simp only [apply_of_some h hm rfl, h.table.ensure_of_some hc]
  rfl

theorem answers_arrive_syn : (h.arrive s .syn).answers =
    h.answers ++ (h.side s.receiverPair).conn.waiter.toList.map fun t => (t, .collided) := by
  have hm : (h.table.phase s.receiverPair).move? (.arrival .syn) (h.facts s.receiverPair) =
      none := by rw [hp]; rfl
  have ha := (h.reap s.receiverPair).answers_tell s.receiverPair .collided
  rw [side_reap, (Side.swept_conn _).2] at ha
  unfold arrive
  simp only [apply_of_none h hm, hp, Phase.refusal, and_self, if_true]
  exact ha

end Dialling

end Host

def Side.tells (e : Side) (s : Segment) : Kind → List (Ticket × Answer)
  | .synAck => if e.phase = .synSent then e.conn.waiter.toList.map fun t => (t, .opened) else []
  | .syn =>
    if e.phase = .synSent ∧ s.seq = e.conn.expected then
      e.conn.waiter.toList.map fun t => (t, .collided)
    else []
  | _ => []

theorem Side.tells_of_ne {e : Side} {kind : Kind} (s : Segment)
    (hk : e.phase = .synSent → kind ≠ .synAck ∧ (kind = .syn → s.seq ≠ e.conn.expected)) :
    e.tells s kind = [] := by
  cases kind with
  | synAck => exact if_neg fun hp => (hk hp).1 rfl
  | syn => exact if_neg fun hp => (hk hp.1).2 rfl hp.2
  | _ => rfl

namespace Host

variable (h : Host)

theorem answers_receiveKind (s : Segment) (kind : Kind) : (h.receiveKind s kind).answers =
    h.answers ++ (h.side s.receiverPair).tells s kind := by
  have quiet (hk : (h.side s.receiverPair).phase = .synSent →
        kind ≠ .synAck ∧ (kind = .syn → s.seq ≠ (h.side s.receiverPair).conn.expected)) {h' : Host}
      (hh : h'.answers = h.answers) :
      h'.answers = h.answers ++ (h.side s.receiverPair).tells s kind := by
    rw [Side.tells_of_ne s hk, List.append_nil, hh]
  unfold receiveKind
  simp only
  split
  · rename_i hr
    by_cases hp : h.table.phase s.receiverPair = .synSent ∧ kind = .synAck
    · obtain ⟨hp, rfl⟩ := hp
      have ha := answers_arrive_synAck
        { h with outbox := h.outbox.acknowledge s.receiverPair s.seq } hp
      exact ha.trans (congrArg (h.answers ++ ·) (if_pos hp).symm)
    · refine quiet (fun hs => ⟨fun hk => hp ⟨hs, hk⟩, fun hk => ?_⟩) (answers_arrive _ s ?_)
      · rw [hk] at hr
        cases hr
      · refine fun hs => ⟨fun hk => hp ⟨hs, hk⟩, fun hk => ?_⟩
        rw [hk] at hr
        cases hr
  · rename_i hr
    have hk : kind ≠ .synAck := fun hk => hr (by rw [hk]; rfl)
    split
    · rename_i hp
      have hc : (h.table.restart s.receiverPair).phase s.receiverPair = .closed :=
        (h.table.phase_restart _).trans hp.2
      exact quiet (fun hs => absurd (hs.symm.trans hp.2) (by decide))
        (answers_arrive _ s fun hs => absurd (hs.symm.trans hc) (by decide))
    · split
      · rename_i hn
        have hc : h.table.phase s.receiverPair = .closed :=
          Table.phase_of_none hn
        exact quiet (fun hs => absurd (hs.symm.trans hc) (by decide))
          (answers_arrive _ s fun hs => absurd (hs.symm.trans hc) (by decide))
      · rename_i c hc
        have he : (h.side s.receiverPair).conn.expected = c.expected := by
          rw [Side.conn_of_entry (e := h.side s.receiverPair) hc]
        split
        · rename_i hlt
          exact quiet (fun _ => ⟨hk, fun _ hs => UInt32.lt_irrefl _ (he ▸ hs ▸ hlt)⟩)
            (h.answers_answerAgain s kind)
        · split
          · rename_i hlt
            exact quiet (fun _ => ⟨hk, fun _ hs => UInt32.lt_irrefl _ (he ▸ hs ▸ hlt)⟩) rfl
          · rename_i hnlt hngt
            have hs : s.seq = (h.side s.receiverPair).conn.expected := by
              rw [UInt32.lt_iff_toNat_lt] at hnlt hngt
              rw [he]
              exact UInt32.toNat_inj.1 (by omega)
            by_cases hp : h.table.phase s.receiverPair = .synSent ∧ kind = .syn
            · obtain ⟨hp, rfl⟩ := hp
              exact (answers_arrive_syn h hp).trans
                (congrArg (h.answers ++ ·) (if_pos ⟨hp, hs⟩).symm)
            · exact quiet (fun hq => ⟨hk, fun hk' => absurd ⟨hq, hk'⟩ hp⟩)
                (answers_arrive h s fun hq => ⟨hk, fun hk' => hp ⟨hq, hk'⟩⟩)

theorem untold_receive {s : Segment} (hk : s.kind? ≠ some .synAck) : h.Untold (h.receive s) := by
  unfold receive
  cases hs : s.kind? with
  | none => exact .of_eq rfl
  | some kind =>
    intro ticket ht
    simp only at ht
    rw [answers_receiveKind] at ht
    refine (List.mem_append.1 ht).resolve_right fun ht => ?_
    cases kind with
    | synAck => exact hk hs
    | syn =>
      simp only [Side.tells] at ht
      split at ht <;> simp at ht
    | _ => cases ht

theorem answers_tickOne (k : SocketPair) : (h.tickOne k).answers = h.answers := by
  unfold tickOne
  split
  · rfl
  · exact answers_apply _ k .timer none _ (by simp)

theorem answers_tickIn (order : List SocketPair) : (h.tickIn order).answers = h.answers := by
  induction order generalizing h with
  | nil => rfl
  | cons k rest ih => exact (ih _).trans (h.answers_tickOne k)

theorem answers_sendAll (k : SocketPair) (l : List (List UInt8)) :
    (Station.sendAll h k l).1.answers = h.answers := by
  induction l generalizing h with
  | nil => rfl
  | cons payload rest ih =>
    have ha := h.answers_apply k .send (some (.data k payload)) {} (by simp)
    unfold Station.sendAll
    split
    · rename_i heq
      rwa [heq] at ha
    · rename_i heq
      rw [heq] at ha
      exact (ih _).trans ha

end Host

namespace Station

variable (s : Station)

theorem answers_cancel (ticket : Ticket) :
    (s.cancel ticket).host.answers ⊆ s.host.answers := List.filter_sublist.subset

theorem answers_settle (d : Dial) : (s.settle d).1.host.answers ⊆ s.host.answers := by
  unfold settle
  split
  · exact List.Subset.refl _
  · exact s.answers_cancel d.ticket
  · exact s.answers_cancel d.ticket
  · exact s.answers_cancel d.ticket

theorem answers_settleAll (l : List Dial) : (s.settleAll l).1.host.answers ⊆ s.host.answers := by
  induction l generalizing s with
  | nil => exact List.Subset.refl _
  | cons d rest ih => exact List.Subset.trans (ih (s.settle d).1) (s.answers_settle d)

theorem answers_connect (farHost : HostId) (farPort : Port) :
    (s.connect farHost farPort).1.host.answers = s.host.answers := by
  unfold connect
  split
  · rfl
  cases s.host.table.freePort? with
  | none => rfl
  | some port =>
    simp only
    generalize (⟨⟨farHost, farPort⟩, ⟨s.address, port⟩⟩ : SocketPair) = k
    have ha := (s.host.await k).1.answers_apply k .connect none {} (by simp)
    split
    · rename_i heq
      rwa [heq] at ha
    · rename_i heq
      rwa [heq] at ha

theorem answers_accept (p : Port) : (s.accept p).1.host.answers = s.host.answers := by
  unfold accept
  split
  · rfl
  simp only
  split
  · rfl
  · rename_i table syn _
    have ha := Host.answers_apply { s.host with table } syn.receiverPair .accept (some syn) {}
      (by simp)
    split
    · rename_i heq
      rwa [heq] at ha
    · rename_i heq
      rwa [heq] at ha

theorem answers_write (k : SocketPair) (data : List UInt8) :
    (s.write k data).1.host.answers = s.host.answers := by
  have ha := s.host.answers_sendAll k (payloads data)
  unfold write
  split
  · rename_i heq
    rwa [heq] at ha
  · rename_i heq
    rwa [heq] at ha

theorem answers_close (k : SocketPair) : (s.close k).1.host.answers = s.host.answers := by
  have ha := s.host.answers_apply k .close none (s.host.facts k) (by simp)
  unfold close
  split
  · rename_i heq
    rwa [heq] at ha
  · rename_i heq
    rwa [heq] at ha

theorem untold_step {op : Op} (hop : ∀ x, op.arrival? = some x → x.kind? ≠ some .synAck) :
    s.host.Untold (s.step op).1.host := by
  cases op with
  | call c =>
    cases c with
    | connect farHost farPort => exact .of_eq (s.answers_connect farHost farPort)
    | resume ticket =>
      simp only [step, call, resume]
      split
      · exact .of_eq rfl
      · exact .of_subset (s.answers_settle _)
    | resumeAll => exact .of_subset (s.answers_settleAll s.dials)
    | cancel ticket => exact .of_subset (s.answers_cancel ticket)
    | accept p => exact .of_eq (s.answers_accept p)
    | read k buffer => exact .of_eq rfl
    | write k data => exact .of_eq (s.answers_write k data)
    | close k => exact .of_eq (s.answers_close k)
  | receive x => exact s.host.untold_receive (hop x rfl)
  | receiveFrame f =>
    simp only [step, receiveFrame, Host.receiveFrame]
    cases hx : Segment.ofFrame f with
    | error fault => exact .of_eq rfl
    | ok x => exact s.host.untold_receive (hop x (by rw [Op.arrival?, hx]; rfl))
  | tick => exact .of_eq (s.host.answers_tickIn _)
  | expire ticket =>
    simp only [step, expire]
    split
    · exact .of_eq rfl
    · exact .of_subset (s.answers_cancel ticket)
  | poll => exact .of_eq rfl
  | sendRound =>
    simp only [step, sendRound]
    split <;> exact .of_eq rfl

theorem dials_cancel (ticket : Ticket) : (s.cancel ticket).dials.Sublist s.dials :=
  List.filter_sublist

theorem dials_settle (d : Dial) : (s.settle d).1.dials.Sublist s.dials := by
  unfold settle
  split
  · exact List.Sublist.refl _
  · exact s.dials_cancel d.ticket
  · exact s.dials_cancel d.ticket
  · exact s.dials_cancel d.ticket

theorem dials_settleAll (l : List Dial) : (s.settleAll l).1.dials.Sublist s.dials := by
  induction l generalizing s with
  | nil => exact List.Sublist.refl _
  | cons d rest ih => exact (ih (s.settle d).1).trans (s.dials_settle d)

theorem dials_step {op : Op} (hop : ∀ farHost farPort, op ≠ .call (.connect farHost farPort)) :
    (s.step op).1.dials.Sublist s.dials := by
  have same {s' : Station} (h : s'.dials = s.dials) : s'.dials.Sublist s.dials :=
    h ▸ List.Sublist.refl _
  cases op with
  | call c =>
    cases c with
    | connect farHost farPort => exact absurd rfl (hop farHost farPort)
    | resume ticket =>
      simp only [step, call, resume]
      split
      · exact List.Sublist.refl _
      · exact s.dials_settle _
    | resumeAll => exact s.dials_settleAll s.dials
    | cancel ticket => exact s.dials_cancel ticket
    | accept p =>
      simp only [step, call, accept]
      split
      · exact List.Sublist.refl _
      · split
        · exact List.Sublist.refl _
        · split <;> exact List.Sublist.refl _
    | read => exact same rfl
    | write =>
      simp only [step, call, write]
      split <;> exact List.Sublist.refl _
    | close =>
      simp only [step, call, close]
      split <;> exact List.Sublist.refl _
  | receive => exact same rfl
  | receiveFrame => exact same rfl
  | tick => exact same rfl
  | expire ticket =>
    simp only [step, expire]
    split
    · exact List.Sublist.refl _
    · exact s.dials_cancel ticket
  | poll => exact same rfl
  | sendRound =>
    simp only [step, sendRound]
    split <;> exact List.Sublist.refl _

theorem step_of_settles {s : Station} {op : Op} (hd : s.dials = []) (ho : op.settles) :
    (s.step op).1 = s := by
  cases op with
  | call c => cases c <;> simp_all [Op.settles, step, call, resume, resumeAll, settleAll]
  | expire => simp [step, expire, hd]
  | _ => cases ho

def Reply.resolutions : Reply → List (Except Failure SocketPair)
  | .dialled (.error e) => [.error e]
  | .ended endings => endings.map Ending.result
  | _ => []

def resolved (s : Station) : Op → List (Except Failure SocketPair)
  | .expire ticket =>
    (s.dials.find? fun d => d.ticket = ticket).toList.map fun _ => .error .timedOut
  | op => (s.step op).2.resolutions

theorem length_cancel {d : Dial} (hd : d ∈ s.dials) :
    (s.cancel d.ticket).dials.length < s.dials.length :=
  List.length_filter_lt_length_iff_exists.2 ⟨d, hd, by simp⟩

theorem length_settle {d : Dial} (hd : d ∈ s.dials) :
    (s.settle d).2.toList.length + (s.settle d).1.dials.length ≤ s.dials.length := by
  have hlt := s.length_cancel hd
  unfold settle
  split
  · simp
  all_goals
    rw [Option.toList_some, List.length_singleton, Nat.add_comm]
    exact hlt

theorem length_connect (farHost : HostId) (farPort : Port) :
    (s.resolved (.call (.connect farHost farPort))).length +
      (s.step (.call (.connect farHost farPort))).1.dials.length ≤ s.dials.length + 1 := by
  simp only [resolved, step, call, connect]
  split
  · simp [Reply.resolutions, Nat.add_comm]
  split
  · simp [Reply.resolutions, Nat.add_comm]
  split
  · simp [Reply.resolutions, Nat.add_comm]
  · simp [Reply.resolutions]

theorem length_resolved (hs : s.dials.length ≤ 1) {op : Op}
    (hop : ∀ farHost farPort, op ≠ .call (.connect farHost farPort)) :
    (s.resolved op).length + (s.step op).1.dials.length ≤ s.dials.length := by
  have hsub := (s.dials_step hop).length_le
  have silent (hr : s.resolved op = []) :
      (s.resolved op).length + (s.step op).1.dials.length ≤ s.dials.length := by
    rw [hr, List.length_nil, Nat.zero_add]
    exact hsub
  cases op with
  | call c =>
    cases c with
    | connect farHost farPort => exact absurd rfl (hop farHost farPort)
    | resume ticket =>
      simp only [resolved, step, call, resume]
      split
      · simp [Reply.resolutions]
      · rename_i d hd
        rw [Reply.resolutions, List.length_map]
        exact s.length_settle (List.mem_of_find?_eq_some hd)
    | resumeAll =>
      simp only [resolved, step, call, resumeAll, Reply.resolutions, List.length_map]
      cases hl : s.dials with
      | nil => simp [settleAll, hl]
      | cons d rest =>
        -- Only one dial waits, so no other one is settled after it.
        obtain rfl : rest = [] := List.length_eq_zero_iff.1 (by simpa [hl] using hs)
        have hd := s.length_settle (d := d) (by simp [hl])
        rw [hl] at hd
        simpa [settleAll] using hd
    | _ => exact silent rfl
  | expire ticket =>
    simp only [resolved, step, expire]
    split
    · rename_i hd
      simp [hd]
    · rename_i d hd
      rw [hd, Option.toList_some, List.map_singleton, List.length_singleton, Nat.add_comm]
      obtain rfl : d.ticket = ticket := by simpa using List.find?_some hd
      exact s.length_cancel (List.mem_of_find?_eq_some hd)
  | _ => exact silent rfl

theorem lookup_of_handshake {h : Host} {ticket : Ticket} {a : Answer}
    (hh : h.handshake ticket = .answered a) : h.answers.lookup ticket = some a := by
  unfold Host.handshake at hh
  split at hh
  · rename_i hl
    exact hl.trans (congrArg some (Handshake.answered.inj hh))
  · split at hh <;> cases hh

theorem opened_of_handshake {h : Host} {ticket : Ticket}
    (ht : h.handshake ticket = .answered .opened) : (ticket, .opened) ∈ h.answers := by
  obtain ⟨l, m, hl, -⟩ := List.lookup_eq_some_iff.1 (lookup_of_handshake ht)
  rw [hl]
  simp

theorem opened_of_settle {d : Dial} {e : Ending} {k : SocketPair} (he : (s.settle d).2 = some e)
    (hk : e.result = .ok k) : d.pair = k ∧ (d.ticket, .opened) ∈ s.host.answers := by
  unfold settle at he
  split at he
  · cases he
  · rename_i ht
    cases he
    exact ⟨Except.ok.inj hk, opened_of_handshake ht⟩
  · cases he
    cases hk
  · cases he
    cases hk

theorem opened_of_settleAll {l : List Dial} {e : Ending} {k : SocketPair}
    (he : e ∈ (s.settleAll l).2) (hk : e.result = .ok k) :
    ∃ d ∈ l, d.pair = k ∧ (d.ticket, .opened) ∈ s.host.answers := by
  induction l generalizing s with
  | nil => cases he
  | cons d rest ih =>
    rcases List.mem_append.1 he with he | he
    · exact ⟨d, List.mem_cons_self, s.opened_of_settle (Option.mem_toList.1 he) hk⟩
    · obtain ⟨d', hd', hp, ha⟩ := ih _ he
      exact ⟨d', List.mem_cons_of_mem d hd', hp, s.answers_settle d ha⟩

theorem opened_of_resolved {op : Op} {k : SocketPair} (h : .ok k ∈ s.resolved op) :
    ∃ d ∈ s.dials, d.pair = k ∧ (d.ticket, .opened) ∈ s.host.answers := by
  cases op with
  | call c =>
    cases c with
    | connect farHost farPort =>
      simp only [resolved, step, call, Reply.resolutions] at h
      split at h
      · cases List.mem_singleton.1 h
      · rename_i he
        cases he
      · cases h
    | resume ticket =>
      simp only [resolved, step, call, Reply.resolutions, resume] at h
      obtain ⟨e, he, hk⟩ := List.mem_map.1 h
      split at he
      · cases he
      · rename_i d hd
        exact ⟨d, List.mem_of_find?_eq_some hd, s.opened_of_settle (Option.mem_toList.1 he) hk⟩
    | resumeAll =>
      obtain ⟨e, he, hk⟩ := List.mem_map.1 h
      exact s.opened_of_settleAll he hk
    | _ => cases h
  | expire ticket =>
    obtain ⟨d, -, hk⟩ := List.mem_map.1 h
    cases hk
  | _ => cases h

end Station

end ReliableStream
