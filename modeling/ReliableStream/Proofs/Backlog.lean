import ReliableStream.Proofs.Callers

namespace ReliableStream

namespace Side

variable {cfg : Settings} {room : Nat} {k : SocketPair} {op : Station.Op} {r : Station.Reply}
  {s : Segment} {kind : Kind} {e e' : Side}

/-- One SYN waits while the connection is not accepted yet, and none otherwise. -/
def Counted (e : Side) : Prop := e.waiting.length = if e.phase = .synReceived then 1 else 0

theorem Counted.of_same (h : e.Counted) (hw : e'.waiting = e.waiting) (hp : e'.phase = e.phase) :
    e'.Counted := by
  rw [Counted, hw, hp]
  exact h

theorem Counted.of_other (h : e.Counted) (hw : e'.waiting = e.waiting)
    (hp : e.phase ≠ .synReceived) (hp' : e'.phase ≠ .synReceived) : e'.Counted := by
  rw [Counted, if_neg hp] at h
  rw [Counted, hw, if_neg hp']
  exact h

theorem Hears.waiting_eq (h : Hears room k s kind e e') : e'.waiting =
    e.waiting ++ if kind = .syn ∧ e.phase = .closed then [s] else [] := by
  have other (hn : kind = .syn → e.phase ≠ .closed) :
      e.waiting = e.waiting ++ if kind = .syn ∧ e.phase = .closed then [s] else [] := by
    rw [if_neg fun hk => hn hk.1 hk.2, List.append_nil]
  have entered {c : Connection} {q : Phase} (hc : e.entry = some c) (hp : c.phase = q)
      (hq : q ≠ .closed) : kind = .syn → e.phase ≠ .closed := fun _ hcl =>
    hq (hp.symm.trans ((phase_of_entry hc).symm.trans hcl))
  cases h with
  | knocked hp => rw [if_pos ⟨rfl, hp⟩]; rfl
  | noted hr => exact other fun hk => by rw [hk] at hr; cases hr
  | strange hk => exact other fun hs => by simp [hs] at hk
  | stale _ hc ho | early _ hc ho => exact other fun hk => phase_of_entry hc ▸ ho hk
  | misplaced _ hc _ ho => exact other fun hk => phase_of_entry hc ▸ (ho hk).1
  | collided hc hp | repeated hc hp => exact other (entered hc hp (by decide))
  | greeted hc hp => rcases hp with hp | hp <;> exact other (entered hc hp (by decide))
  | discarded hc _ hd => rcases hd with ⟨rfl, -⟩ | ⟨rfl, -⟩ <;> exact other nofun
  | _ => exact other nofun

theorem Hears.counted (h : Hears room k s kind e e') (he : e.Counted) : e'.Counted := by
  have left {c : Connection} {p : Phase} (hc : e.entry = some c) (hp : c.phase = p)
      (hne : p ≠ .synReceived) : e.phase ≠ .synReceived := by
    rwa [phase_of_entry hc, hp]
  cases h with
  | knocked hp =>
    have hn : e.waiting.length = 0 := by rw [he, hp]; rfl
    rw [Counted, phase_enter, if_pos rfl]
    change (e.waiting ++ [s]).length = 1
    rw [List.length_append, hn]
    rfl
  | noted => exact he.of_same rfl (phase_swept _)
  | misplaced => exact he.of_same rfl (phase_swept _)
  | opened hc hp | drained hc hp | collided hc hp | halted hc hp | crossed hc hp =>
    exact he.of_other rfl (left hc hp (by decide)) nofun
  | repeated hc hp => exact he.of_same rfl (phase_of_entry hc).symm
  | ended hp => exact he.of_other rfl (by rcases hp with hp | hp <;> rw [hp] <;> decide) nofun
  | kept hc | discarded hc | greeted hc => exact he.of_same rfl (phase_of_entry hc).symm
  | finished hc hp =>
    rcases hp with (hp | hp) | hp | hp <;>
      exact he.of_other rfl (left hc hp (by decide)) (by rw [phase_swept]; nofun)
  | finishedAgain hc => exact he.of_same rfl ((phase_swept _).trans (phase_of_entry hc).symm)
  | strange | strangeFin | stale | early | full => exact he.of_same rfl rfl

theorem Step.counted (h : Step cfg k op r e e') (he : e.Counted)
    (hs : op.settles = true → e.phase = .synReceived → e'.phase = .synReceived) : e'.Counted := by
  cases h with
  | heard _ _ _ hh => exact hh.counted he
  | dialled hn => exact he.of_other rfl (by rw [phase_of_none hn]; decide) nofun
  | forgot hop => exact he.of_other rfl (fun hp => absurd (hs hop hp) nofun) nofun
  | accepted hc hp hw =>
    have hl := he
    rw [Counted, phase_of_entry hc, hp, hw] at hl
    exact Nat.succ.inj hl
  | passed hp hw =>
    have hn := he
    rw [Counted, if_neg hp, List.length_eq_zero_iff] at hn
    rw [hn, List.suffix_nil] at hw
    exact he.of_same (hw.trans hn.symm) rfl
  | closedDrained hc hp | closedBusy hc hp | closedStopped hc hp | expired hc hp =>
    exact he.of_other rfl (by rw [phase_of_entry hc, hp]; decide) nofun
  | tickedClosing hc => exact he.of_same rfl (phase_of_entry hc).symm
  | read hc => exact he.of_same rfl ((phase_swept _).trans (phase_of_entry hc).symm)
  | readRefused | writeRefused | closedIdle | tickedIdle => exact he.of_same rfl (phase_swept _)
  | wrote => exact he.of_same (pushData_eq _ _).2.2.1 (phase_pushData _ _)
  | apart | readNothing | closeRefused | ticked | polled => exact he.of_same rfl rfl

theorem Step.waiting_eq (h : Step cfg k op r e e') (ha : op.arrival? = none)
    (hop : ∀ p, op ≠ .call (.accept p)) : e'.waiting = e.waiting := by
  cases h with
  | heard hx =>
    rw [ha] at hx
    cases hx
  | accepted | passed => exact absurd rfl (hop _)
  | wrote => exact (pushData_eq _ _).2.2.1
  | _ => rfl

end Side

namespace Host

variable {h h' : Host}

def knocks (h : Host) (x : Segment) : Bool :=
  x.kind? = some .syn ∧ h.table.phase x.receiverPair = .closed

theorem waiting_receive (hf : h.Filed) (x : Segment) (k : SocketPair) :
    ((h.receive x).side k).waiting = (h.side k).waiting ++
      ((some x).filter h.knocks).toList.filter fun y => y.receiverPair = k := by
  unfold receive
  cases hkind : x.kind? with
  | none => simp [knocks, hkind]
  | some kind =>
    by_cases hk : x.receiverPair = k
    · subst hk
      simp only [(h.receiveKind_side x kind).waiting_eq]
      by_cases hs : kind = .syn ∧ (h.side x.receiverPair).phase = .closed
      · have hknock : h.knocks x = true :=
          decide_eq_true ⟨hkind.trans (congrArg some hs.1), hs.2⟩
        rw [if_pos hs, Option.filter_some, if_pos hknock]
        simp
      · have hknock : ¬h.knocks x = true := fun hn =>
          have hn := of_decide_eq_true hn
          hs ⟨Option.some.inj (hkind.symm.trans hn.1), hn.2⟩
        rw [if_neg hs, Option.filter_some, if_neg hknock]
        rfl
    · have hnil : ((some x).filter h.knocks).toList.filter (fun y => y.receiverPair = k) = [] := by
        rw [Option.filter_some]
        split <;> simp [hk]
      simp only [(h.confined_receiveKind x kind).others hf k hk, hnil, List.append_nil]

theorem pending_of_waiting {new : Option Segment} (hf : h'.Filed) (ho : h.Onward h')
    (hw : ∀ k : SocketPair, (h'.side k).waiting =
      (h.side k).waiting ++ new.toList.filter fun x => x.receiverPair = k) (p : Port) :
    h'.table.pending p = h.table.pending p ++ new.toList.filter fun x => x.dest.port = p := by
  obtain ⟨l, hl⟩ := ho.pending p
  have hsame (k : SocketPair) (hk : k.near.port = p) :
      l.filter (fun x => x.receiverPair = k) = new.toList.filter fun x => x.receiverPair = k := by
    have := hw k
    simp only [side, Side.of, hk, ← hl, List.filter_append] at this
    exact List.append_cancel_left this
  have hport {y : Segment} (hy : y ∈ l) : y.receiverPair.near.port = p :=
    hf.table p y (hl ▸ List.mem_append_right _ hy)
  have hmem {y : Segment} (hy : y ∈ l) : y ∈ new := by
    have : y ∈ l.filter fun x => x.receiverPair = y.receiverPair :=
      List.mem_filter.2 ⟨hy, by simp⟩
    rw [hsame _ (hport hy)] at this
    exact Option.mem_toList.1 (List.mem_filter.1 this).1
  rw [← hl, List.append_cancel_left_eq]
  cases new with
  | none => exact List.eq_nil_iff_forall_not_mem.2 fun y hy => Option.not_mem_none y (hmem hy)
  | some x =>
    by_cases hp : x.dest.port = p
    · have hall : l.filter (fun y => y.receiverPair = x.receiverPair) = l :=
        List.filter_eq_self.2 fun y hy => by simp [Option.some.inj (hmem hy)]
      have := hsame x.receiverPair hp
      rw [hall] at this
      simp [this, hp]
    · have hnil : l = [] := List.eq_nil_iff_forall_not_mem.2 fun y hy =>
        hp (Option.some.inj (hmem hy) ▸ hport hy)
      simp [hnil, hp]

theorem accept_effects (h : Host) {syn : Segment}
    (hk : h.table.phase syn.receiverPair = .synReceived) :
    (h.apply syn.receiverPair .accept (some syn) {}).2 = .ok ⟨.established, true⟩ ∧
      (h.apply syn.receiverPair .accept (some syn) {}).1.table.phase syn.receiverPair =
        .established ∧
      (h.apply syn.receiverPair .accept (some syn) {}).1.outbox =
        h.outbox.reply (syn.answer .synAck) ∧
      ∀ q, (h.apply syn.receiverPair .accept (some syn) {}).1.table.pending q =
        h.table.pending q := by
  obtain ⟨c, hc, hcp⟩ := Side.exists_entry (e := h.side syn.receiverPair)
    fun hn => absurd (hk.symm.trans hn) (by decide)
  obtain ⟨hs, hr⟩ := h.apply_accept (show syn.receiverPair = syn.receiverPair from rfl) hc
    (hcp.trans hk)
  have hm : (h.table.phase syn.receiverPair).move? .accept {} =
      some ⟨.established, [.reply .synAck]⟩ := by
    rw [hk]
    rfl
  have happ : h.apply syn.receiverPair .accept (some syn) {} = _ := h.apply_of_some hm rfl
  refine ⟨hr, congrArg Side.phase hs, ?_, fun q => ?_⟩
  · rw [happ]
    rfl
  · rw [happ]
    exact Table.pending_reap _ q

end Host

namespace Station

variable {s : Station} {op : Op} {ops : List Op} {p : Port} {k : SocketPair}

structure Backlog (s : Station) : Prop where
  port : ∀ p, ∀ x ∈ s.host.table.pending p, x.receiverPair.near.port = p
  count : ∀ k, (s.host.table.pending k.near.port).countP (fun x => x.receiverPair = k) =
    if s.host.table.phase k = .synReceived then 1 else 0

structure Tallied (s : Station) : Prop extends s.Attended where
  counted : ∀ k, (s.host.side k).Counted

theorem tallied_fresh (address : HostId) (recvWindow sendWindow patience : Nat) :
    (fresh address recvWindow sendWindow patience).Tallied :=
  ⟨attended_fresh address recvWindow sendWindow patience, fun _ => rfl⟩

theorem Tallied.step (h : s.Tallied) (hop : s.clean op = true) : (s.step op).1.Tallied :=
  ⟨h.toAttended.step hop, fun k => (s.step_side h.filed op k).counted (h.counted k) fun hs hk =>
    h.unaccepted hop hs hk⟩

theorem Tallied.run (h : s.Tallied) (hops : s.cleanly ops = true) : (s.run ops).Tallied := by
  induction ops generalizing s with
  | nil => exact h
  | cons op rest ih =>
    obtain ⟨hop, hrest⟩ := Bool.and_eq_true_iff.1 hops
    exact ih (h.step hop) hrest

theorem Tallied.backlog (h : s.Tallied) : s.Backlog where
  port := h.filed.table
  count k := List.countP_eq_length_filter.trans (h.counted k)

theorem Backlog.phase_of_pending (h : s.Backlog) {x : Segment} (hx : x ∈ s.host.table.pending p) :
    s.host.table.phase x.receiverPair = .synReceived := by
  have hc := h.count x.receiverPair
  rw [h.port p x hx] at hc
  refine Classical.byContradiction fun hp => ?_
  rw [if_neg hp, List.countP_eq_zero] at hc
  exact hc x hx (by simp)

theorem Backlog.exists_pending (h : s.Backlog) (hk : s.host.table.phase k = .synReceived) :
    ∃ x ∈ s.host.table.pending k.near.port, x.receiverPair = k := by
  have hc := h.count k
  rw [if_pos hk] at hc
  obtain ⟨x, hx, he⟩ := List.countP_pos_iff.1 (hc ▸ Nat.one_pos)
  exact ⟨x, hx, of_decide_eq_true he⟩

theorem accept_nothing (hp : validPort p) (hn : s.host.table.pending p = []) :
    s.accept p = ({ s with host := { s.host with table := s.host.table.listen p } }, .ok none) := by
  simp [accept, hp, hn, nextPending]

structure Accepts (s s' : Station) (p : Port) (x : Segment) : Prop where
  opened : s'.host.table.phase x.receiverPair = .established
  answered : s'.host.outbox.replies = s.host.outbox.replies ++ [x.answer .synAck]
  taken : s.host.table.pending p = x :: s'.host.table.pending p
  others : ∀ q, p ≠ q → s'.host.table.pending q = s.host.table.pending q

theorem nextPending_cons {t : Table} {x : Segment} {rest : List Segment}
    (hx : t.pending p = x :: rest) (hk : t.phase x.receiverPair = .synReceived) (n : Nat) :
    nextPending t p (n + 1) = ({ t with backlog := t.backlog.insert p rest }, some x) := by
  rw [nextPending, t.popPending_eq_some hx]
  exact if_pos hk

theorem accept_next (hp : validPort p = true) {x : Segment} {rest : List Segment}
    (hx : s.host.table.pending p = x :: rest)
    (hk : s.host.table.phase x.receiverPair = .synReceived) :
    (s.accept p).2 = .ok (some x.receiverPair) ∧ s.Accepts (s.accept p).1 p x := by
  have hnext := nextPending_cons (t := s.host.table.listen p) hx hk rest.length
  generalize ht : ({ s.host.table.listen p with
    backlog := (s.host.table.listen p).backlog.insert p rest } : Table) = table at hnext
  have hself : table.pending p = rest := by
    rw [← ht]
    simp [Table.pending]
  have hother (q : Port) (hq : p ≠ q) : table.pending q = s.host.table.pending q := by
    rw [← ht]
    simp [Table.pending, Table.listen, SortedMap.get?_insert_of_ne _ _ hq]
  have hk' : table.phase x.receiverPair = .synReceived := by
    rw [← ht]
    exact hk
  obtain ⟨hr, hph, ho, hpend⟩ := Host.accept_effects { s.host with table } hk'
  unfold accept
  rw [hp]
  simp only [Bool.not_true, Bool.false_eq_true, if_false, Table.pending_listen, hx,
    List.length_cons, hnext]
  rw [← Prod.eta (Host.apply { s.host with table } x.receiverPair .accept (some x) {}), hr]
  refine ⟨rfl, hph, ?_, ?_, fun q hq => (hpend q).trans (hother q hq)⟩
  · exact congrArg Outbox.replies ho
  · rw [hx, ← hself, ← hpend p]
    rfl

/-- What `accept` makes of the SYNs that wait on a port. -/
structure Serves (s : Station) (p : Port) : Prop where
  result : (s.accept p).2 = .ok ((s.host.table.pending p).head?.map Segment.receiverPair)
  nothing : (s.accept p).2 = .ok none ↔
    ∀ k, k.near.port = p → s.host.table.phase k ≠ .synReceived
  next : ∀ x ∈ (s.host.table.pending p).head?, s.Accepts (s.accept p).1 p x

theorem Backlog.pending_eq_nil (h : s.Backlog) : s.host.table.pending p = [] ↔
    ∀ k, k.near.port = p → s.host.table.phase k ≠ .synReceived := by
  constructor
  · rintro hn k rfl hk
    obtain ⟨x, hx, -⟩ := h.exists_pending hk
    rw [hn] at hx
    cases hx
  · intro hn
    refine List.eq_nil_iff_forall_not_mem.2 fun x hx => ?_
    exact hn x.receiverPair (h.port p x hx) (h.phase_of_pending hx)

theorem Backlog.serves (h : s.Backlog) (hp : validPort p = true) : s.Serves p := by
  have hnil := h.pending_eq_nil (p := p)
  cases hl : s.host.table.pending p with
  | nil =>
    have ha := congrArg Prod.snd (accept_nothing hp hl)
    refine ⟨by rw [ha, hl]; rfl, ?_, fun x hx => ?_⟩
    · rw [← hnil, ha]
      exact ⟨fun _ => hl, fun _ => rfl⟩
    · rw [hl] at hx
      cases hx
  | cons x rest =>
    have hk : s.host.table.phase x.receiverPair = .synReceived :=
      h.phase_of_pending (p := p) (by rw [hl]; exact List.mem_cons_self)
    obtain ⟨ha, hacc⟩ := accept_next hp hl hk
    refine ⟨by rw [ha, hl]; rfl, ?_, fun y hy => ?_⟩
    · rw [← hnil, ha, hl]
      exact ⟨nofun, nofun⟩
    · rw [hl] at hy
      cases hy
      exact hacc

def knock? (s : Station) (op : Op) : Option Segment := op.arrival?.filter s.host.knocks

def knocked (s : Station) : List Op → List Segment
  | [] => []
  | op :: rest => (s.knock? op).toList ++ (s.step op).1.knocked rest

def Op.accepted? (p : Port) : Op → Reply → Option SocketPair
  | .call (.accept q), .accepted (.ok k) => if q = p then k else none
  | _, _ => none

def accepted (s : Station) (p : Port) (ops : List Op) : List SocketPair :=
  (s.history ops).filterMap fun x => x.1.accepted? p x.2

theorem pending_step (hf : s.host.Filed) (hop : ∀ p, op ≠ .call (.accept p)) (p : Port) :
    (s.step op).1.host.table.pending p =
      s.host.table.pending p ++ (s.knock? op).toList.filter fun x => x.dest.port = p := by
  refine Host.pending_of_waiting ((s.step_steady op).filed hf) (onward_step hop) (fun k => ?_) p
  cases hx : op.arrival? with
  | none => simp [(s.step_side hf op k).waiting_eq hx hop, knock?, hx]
  | some x => rw [s.host_of_arrival hx, Host.waiting_receive hf, knock?, hx]

def pairsOn (p : Port) (l : List Segment) : List SocketPair :=
  (l.filter fun x => x.dest.port = p).map Segment.receiverPair

theorem pairsOn_append (p : Port) (a b : List Segment) :
    pairsOn p (a ++ b) = pairsOn p a ++ pairsOn p b := by
  simp [pairsOn]

theorem accepted?_of_ne (hop : op ≠ .call (.accept p)) (r : Reply) : op.accepted? p r = none := by
  unfold Op.accepted?
  split
  · rename_i q k
    exact if_neg fun hq => hop (by rw [hq])
  · rfl

theorem Backlog.served_accept (h : s.Backlog) (q p : Port) :
    (s.host.table.pending p).map Segment.receiverPair =
      ((Op.call (.accept q)).accepted? p (.accepted (s.accept q).2)).toList ++
        ((s.accept q).1.host.table.pending p).map Segment.receiverPair := by
  cases hv : validPort q with
  | false =>
    have ha : s.accept q = (s, .error (.call .invalidPort)) := by simp [accept, hv]
    rw [ha]
    rfl
  | true =>
    cases hl : s.host.table.pending q with
    | nil =>
      rw [accept_nothing hv hl]
      simp [Op.accepted?]
    | cons x rest =>
      have hserves := h.serves hv
      rw [hserves.result, Op.accepted?]
      have hacc := hserves.next x (by rw [hl]; rfl)
      by_cases hq : q = p
      · subst hq
        simp [hacc.taken]
      · simp [hacc.others p hq, hq]

theorem Backlog.served_step (h : s.Backlog) (hf : s.host.Filed) (op : Op) (p : Port) :
    (s.host.table.pending p).map Segment.receiverPair ++ pairsOn p (s.knock? op).toList =
      (op.accepted? p (s.step op).2).toList ++
        ((s.step op).1.host.table.pending p).map Segment.receiverPair := by
  by_cases hop : ∃ q, op = .call (.accept q)
  · obtain ⟨q, rfl⟩ := hop
    exact (List.append_nil _).trans (h.served_accept q p)
  · have hop : ∀ q, op ≠ .call (.accept q) := fun q hq => hop ⟨q, hq⟩
    rw [pending_step hf hop, accepted?_of_ne (hop p), List.map_append]
    rfl

theorem accepted_cons (p : Port) (op : Op) (ops : List Op) : s.accepted p (op :: ops) =
    (op.accepted? p (s.step op).2).toList ++ (s.step op).1.accepted p ops := by
  rw [accepted, history, List.filterMap_cons]
  cases op.accepted? p (s.step op).2 <;> rfl

theorem Tallied.served_run (h : s.Tallied) (hops : s.cleanly ops = true) (p : Port) :
    (s.host.table.pending p).map Segment.receiverPair ++ pairsOn p (s.knocked ops) =
      s.accepted p ops ++ ((s.run ops).host.table.pending p).map Segment.receiverPair := by
  induction ops generalizing s with
  | nil => exact List.append_nil _
  | cons op rest ih =>
    obtain ⟨hop, hrest⟩ := Bool.and_eq_true_iff.1 hops
    have hstep := h.backlog.served_step h.filed op p
    have hrun := ih (h.step hop) hrest
    rw [knocked, pairsOn_append, accepted_cons, ← List.append_assoc, hstep, List.append_assoc, hrun,
      List.append_assoc]
    rfl

/-- In every run in which a failed `connect` cleans up at once, exactly one SYN waits for each
connection that is not accepted yet. So `accept` finds one whenever there is such a connection, and
the connections are accepted in the order in which their SYNs came, each SYN once. -/
theorem backlog_matches (address : HostId) (recvWindow sendWindow patience : Nat) (ops : List Op)
    (hops : (fresh address recvWindow sendWindow patience).cleanly ops = true) :
    ((fresh address recvWindow sendWindow patience).run ops).Backlog ∧
      (∀ p, validPort p = true →
        ((fresh address recvWindow sendWindow patience).run ops).Serves p) ∧
      ∀ p, pairsOn p ((fresh address recvWindow sendWindow patience).knocked ops) =
        (fresh address recvWindow sendWindow patience).accepted p ops ++
          (((fresh address recvWindow sendWindow patience).run ops).host.table.pending p).map
            Segment.receiverPair := by
  have hfresh := tallied_fresh address recvWindow sendWindow patience
  have hback := (hfresh.run hops).backlog
  exact ⟨hback, fun p hp => hback.serves hp, hfresh.served_run hops⟩

def guests : List Op :=
  [.receive (.control ⟨⟨2, 9⟩, ⟨1, 7⟩⟩ .syn), .receive (.control ⟨⟨2, 9⟩, ⟨1, 7⟩⟩ .syn),
    .call (.connect 1 8), .receive (.control ⟨⟨2, 9⟩, ⟨3, 5⟩⟩ .syn),
    .receive (.control ⟨⟨2, 0⟩, ⟨1, 8⟩⟩ .syn), .call (.resume 0), .call (.accept 9)]

theorem backlog_matches_guests : (fresh 2 4 4 4).cleanly guests = true ∧
    ((fresh 2 4 4 4).run guests).Backlog ∧ ((fresh 2 4 4 4).run guests).Serves 9 ∧
    pairsOn 9 ((fresh 2 4 4 4).knocked guests) = [⟨⟨1, 7⟩, ⟨2, 9⟩⟩, ⟨⟨3, 5⟩, ⟨2, 9⟩⟩] := by
  have hops : (fresh 2 4 4 4).cleanly guests = true := by decide +kernel
  have h := backlog_matches 2 4 4 4 guests hops
  have hacc : (fresh 2 4 4 4).accepted 9 guests = [⟨⟨1, 7⟩, ⟨2, 9⟩⟩] := by decide +kernel
  have hleft : (((fresh 2 4 4 4).run guests).host.table.pending 9).map Segment.receiverPair =
      [⟨⟨3, 5⟩, ⟨2, 9⟩⟩] := by decide +kernel
  have hserved := h.2.2 9
  rw [hacc, hleft] at hserved
  exact ⟨hops, h.1, h.2.1 9 (by decide), hserved⟩

end Station

end ReliableStream
