import ReliableStream.Proofs.Events

namespace ReliableStream

open Side

structure Host.Steady (h h' : Host) : Prop where
  filed : h.Filed → h'.Filed
  settings : h'.settings = h.settings

namespace Host.Steady

variable {h h' h'' : Host}

theorem refl (h : Host) : Steady h h := ⟨id, rfl⟩

theorem trans (a : Steady h h') (b : Steady h' h'') : Steady h h'' :=
  ⟨b.filed ∘ a.filed, b.settings.trans a.settings⟩

theorem of_confined {k : SocketPair} (hc : Confined k h h') : Steady h h' := ⟨hc.filed, hc.settings⟩

theorem tickIn (h : Host) (order : List SocketPair) : Steady h (h.tickIn order) := by
  induction order generalizing h with
  | nil => exact .refl h
  | cons k rest ih => exact (of_confined (h.confined_tickOne k)).trans (ih _)

end Host.Steady

theorem Host.filter_outgoing (h : Host) (hf : h.Filed) (k : SocketPair) :
    h.outbox.outgoing.filter (fun x => x.senderPair = k) =
      (h.side k).replies ++ (h.side k).resends ++ (h.side k).win.admitted h.settings.limit := by
  rw [Outbox.outgoing, List.filter_append, List.filter_append, hf.outbox.filter_admitted]
  rfl

namespace Station

theorem nextPending_spec (t : Table) (p : Port) (n : Nat) : ∃ skipped,
    t.pending p = skipped ++ ((nextPending t p n).2.toList ++ (nextPending t p n).1.pending p) ∧
      (∀ s ∈ skipped, t.phase s.receiverPair ≠ .synReceived) ∧
      (∀ s ∈ (nextPending t p n).2, t.phase s.receiverPair = .synReceived) ∧
      (∀ q, p ≠ q → (nextPending t p n).1.pending q = t.pending q) ∧
      (∀ k, (nextPending t p n).1.get? k = t.get? k) ∧
      (nextPending t p n).1.capacity = t.capacity := by
  induction n generalizing t with
  | zero => exact ⟨[], by simp [nextPending]⟩
  | succ n ih =>
    unfold nextPending
    cases hp : t.pending p with
    | nil =>
      rw [t.popPending_eq_none hp]
      exact ⟨[], by simp [hp]⟩
    | cons s rest =>
      rw [t.popPending_eq_some hp]
      generalize ht : ({ t with backlog := t.backlog.insert p rest } : Table) = t'
      have hself : t'.pending p = rest := by
        rw [← ht]
        simp [Table.pending]
      have hother : ∀ q, p ≠ q → t'.pending q = t.pending q := by
        intro q hq
        rw [← ht]
        simp [Table.pending, SortedMap.get?_insert_of_ne _ _ hq]
      have hget : ∀ k, t'.get? k = t.get? k := by
        rw [← ht]
        exact fun _ => rfl
      have hphase : ∀ k, t'.phase k = t.phase k := fun k => by
        rw [Table.phase_eq, hget, ← Table.phase_eq]
      have hcap : t'.capacity = t.capacity := by rw [← ht]
      simp only
      by_cases hs : t.phase s.receiverPair = .synReceived
      · rw [hphase, if_pos hs]
        exact ⟨[], by simp [hself], by simp, by simpa using hs, hother, hget, hcap⟩
      · rw [hphase, if_neg hs]
        obtain ⟨skipped, hl, hsk, hr, hq, hg, hc⟩ := ih t'
        refine ⟨s :: skipped, by rw [← hself, hl]; rfl, ?_, fun x hx => by rw [← hphase]; exact hr x hx,
          fun q hne => (hq q hne).trans (hother q hne), fun k => (hg k).trans (hget k),
          hc.trans hcap⟩
        intro x hx
        rcases List.mem_cons.1 hx with rfl | hx
        · exact hs
        · rw [← hphase]
          exact hsk x hx

theorem steady_nextPending (h : Host) (p : Port) (n : Nat) :
    h.Steady { h with table := (nextPending (h.table.listen p) p n).1 } := by
  obtain ⟨skipped, hl, -, -, hq, -, hc⟩ := nextPending_spec (h.table.listen p) p n
  refine ⟨fun hf => ⟨hf.outbox, fun q x hx => hf.table q x ?_⟩, ?_⟩
  · by_cases hqp : p = q
    · subst hqp
      rw [← Table.pending_listen, hl]
      exact List.mem_append_right _ (List.mem_append_right _ hx)
    · rwa [← Table.pending_listen _ p, ← hq q hqp]
  · simp only [Host.settings]
    rw [hc]
    rfl

theorem accept_passes {cfg : Settings} {k : SocketPair} {p : Port}
    {r : Except Failure (Option SocketPair)} {e : Side} (skipped : List Segment)
    {waiting : List Segment} (hw : e.waiting = skipped ++ waiting) (hs : e.phase = .synReceived → skipped = [])
    (hr : r ≠ .ok (some k)) :
    Step cfg k (.call (.accept p)) (.accepted r) e { e with waiting } := by
  by_cases hp : e.phase = .synReceived
  · rw [hs hp, List.nil_append] at hw
    rw [← hw]
    exact .apart rfl rfl fun h => hr (Reply.accepted.inj h)
  · exact .passed hp ⟨skipped, hw.symm⟩ hr

theorem settled {cfg : Settings} {k : SocketPair} {op : Op} {r : Reply} {e e' : Side}
    (hop : op.settles = true) (hr : ∀ a, r ≠ .accepted a) (hw : op.wrote k r = [])
    (ht : op.took k r = []) (h : e' = e ∨ e' = e.forgotten) : Step cfg k op r e e' := by
  rcases h with rfl | rfl
  · exact .apart hw ht (hr _)
  · exact .forgot hop hw ht (hr _)

theorem payloads_eq_nil {data : List UInt8} : payloads data = [] ↔ data = [] := by
  cases data with
  | nil => decide
  | cons b rest =>
    have h : 0 < ((b :: rest).length + payloadLength - 1) / payloadLength :=
      Nat.div_pos (by simp) (by decide)
    obtain ⟨n, hn⟩ := Nat.exists_eq_succ_of_ne_zero (Nat.ne_of_gt h)
    rw [payloads, hn]
    simp [pieces]

structure Popped (t table : Table) (p : Port) (skipped : List Segment) (next : Option Segment) :
    Prop where
  pending : t.pending p = skipped ++ (next.toList ++ table.pending p)
  skipped : ∀ s ∈ skipped, t.phase s.receiverPair ≠ .synReceived
  next : ∀ s ∈ next, t.phase s.receiverPair = .synReceived
  others : ∀ q, p ≠ q → table.pending q = t.pending q
  entries : ∀ k, table.get? k = t.get? k

section Accept

variable {h : Host} {table : Table} {p : Port} {skipped : List Segment} {next : Option Segment}

theorem side_popped (ht : Popped h.table table p skipped next) (k : SocketPair) :
    { h with table }.side k = { h.side k with
      waiting := (table.pending k.near.port).filter (fun x => x.receiverPair = k) } := by
  simp only [Host.side, Side.of, ht.entries]

theorem Popped.skipped_eq_nil (ht : Popped h.table table p skipped next) {k : SocketPair}
    (hk : (h.side k).phase = .synReceived) :
    skipped.filter (fun x => x.receiverPair = k) = [] := by
  rw [List.filter_eq_nil_iff]
  intro x hx he
  have hne := ht.skipped x hx
  rw [of_decide_eq_true he] at hne
  exact hne hk

theorem Popped.passes {cfg : Settings} {r : Except Failure (Option SocketPair)} {k : SocketPair}
    (ht : Popped h.table table p skipped next) (hr : r ≠ .ok (some k))
    (hn : ∀ x ∈ next, x.receiverPair ≠ k) :
    Step cfg k (.call (.accept p)) (.accepted r) (h.side k) ({ h with table }.side k) := by
  rw [side_popped ht]
  by_cases hkp : p = k.near.port
  · refine accept_passes (skipped.filter (fun x => x.receiverPair = k)) ?_ ht.skipped_eq_nil hr
    have hnil : next.toList.filter (fun x => x.receiverPair = k) = [] := by
      cases next with
      | none => rfl
      | some syn => simp [hn syn rfl]
    rw [show (h.side k).waiting =
      (h.table.pending k.near.port).filter (fun x => x.receiverPair = k) from rfl, ← hkp, ht.pending]
    simp [hnil]
  · rw [ht.others _ hkp]
    exact accept_passes [] rfl (fun _ => rfl) hr

theorem Popped.waiting {syn : Segment} (ht : Popped h.table table p skipped (some syn))
    (hp : p = syn.receiverPair.near.port)
    (hk : (h.side syn.receiverPair).phase = .synReceived) : (h.side syn.receiverPair).waiting =
      syn :: (table.pending p).filter (fun x => x.receiverPair = syn.receiverPair) := by
  have hskip := ht.skipped_eq_nil hk
  rw [show (h.side syn.receiverPair).waiting =
    (h.table.pending syn.receiverPair.near.port).filter
      (fun x => x.receiverPair = syn.receiverPair) from rfl, ← hp, ht.pending]
  simp [hskip]

theorem popped_nextPending (t : Table) (p : Port) :
    ∃ skipped, Popped t (nextPending (t.listen p) p ((t.listen p).pending p).length).1 p skipped
      (nextPending (t.listen p) p ((t.listen p).pending p).length).2 := by
  obtain ⟨skipped, hl, hsk, hr, hq, hg, -⟩ :=
    nextPending_spec (t.listen p) p ((t.listen p).pending p).length
  simp only [Table.pending_listen] at hl hq ⊢
  exact ⟨skipped, hl, hsk, hr, hq, hg⟩

end Accept

variable (s : Station) (hf : s.host.Filed)

include hf

theorem accept_side (p : Port) (k : SocketPair) :
    Step s.host.settings k (.call (.accept p)) (.accepted (s.accept p).2) (s.host.side k)
      ((s.accept p).1.host.side k) := by
  unfold accept
  split
  · exact .apart rfl rfl (by simp)
  simp only
  obtain ⟨skipped, ht⟩ := popped_nextPending s.host.table p
  have hst := steady_nextPending s.host p ((s.host.table.listen p).pending p).length
  generalize nextPending (s.host.table.listen p) p ((s.host.table.listen p).pending p).length = r at *
  obtain ⟨table, next⟩ := r
  cases next with
  | none => exact ht.passes (by simp) (by simp)
  | some syn =>
    have hgf : { s.host with table }.Filed := hst.filed hf
    have hphase : (s.host.side syn.receiverPair).phase = .synReceived := ht.next syn rfl
    obtain ⟨c, he, hcp⟩ := exists_entry (e := s.host.side syn.receiverPair) (by simp [hphase])
    have hc : table.get? syn.receiverPair = some c := (ht.entries _).trans he
    obtain ⟨hs', hr'⟩ := Host.apply_accept { s.host with table }
      (show syn.receiverPair = syn.receiverPair from rfl) hc (hcp.trans hphase)
    simp only
    rw [← Prod.eta (Host.apply { s.host with table } syn.receiverPair .accept (some syn) {}), hr']
    simp only [Host.side_nudge]
    by_cases hk : syn.receiverPair = k
    · subst hk
      have hp : p = syn.receiverPair.near.port :=
        (hf.table p syn (by rw [ht.pending]; simp)).symm
      rw [hs', side_popped ht, ← hp]
      have hw := ht.waiting hp hphase
      rw [hp]
      exact .accepted he (hcp.trans hphase) (hp ▸ hw)
    · have hconf := Host.confined_apply { s.host with table } syn.receiverPair .accept (some syn) {}
        (by simp)
      rw [hconf.others hgf k hk]
      exact ht.passes (by simpa using hk) (by simpa using hk)

theorem connect_spec (farHost : HostId) (farPort : Port) :
    (∃ f, s.connect farHost farPort = (s, .error f)) ∨
      ∃ k : SocketPair, k.far = ⟨farHost, farPort⟩ ∧ k.near.host = s.address ∧
        s.host.table.get? k = none ∧
        (s.connect farHost farPort).2 = .ok s.host.issued ∧
        (s.connect farHost farPort).1.dials = s.dials ++ [⟨s.host.issued, k⟩] ∧
        (s.connect farHost farPort).1.host.side k = ((s.host.side k).enter
          { phase := .synSent, waiter := some s.host.issued }).push (.control k .syn) ∧
        ∀ j, k ≠ j → (s.connect farHost farPort).1.host.side j = s.host.side j := by
  unfold connect
  split
  · exact .inl ⟨_, rfl⟩
  cases hp : s.host.table.freePort? with
  | none => exact .inl ⟨_, rfl⟩
  | some port =>
    refine .inr ⟨⟨⟨farHost, farPort⟩, ⟨s.address, port⟩⟩, rfl, rfl, ?_⟩
    simp only
    generalize hk : (⟨⟨farHost, farPort⟩, ⟨s.address, port⟩⟩ : SocketPair) = k
    have hc : s.host.table.get? k = none := Table.get?_of_freePort hp (by rw [← hk])
    obtain ⟨hs, hr⟩ := s.host.apply_connect hc
    rw [← Prod.eta ((s.host.await k).1.apply k .connect none {}), hr]
    have hconf : s.host.Confined k _ := Host.Confined.await.trans
      ((s.host.await k).1.confined_apply k .connect none {} (by simp))
    exact ⟨hc, rfl, rfl, hs, fun j hj => hconf.others hf j hj⟩

theorem connect_side (farHost : HostId) (farPort : Port) (k : SocketPair) :
    Step s.host.settings k (.call (.connect farHost farPort))
      (.dialled (s.connect farHost farPort).2) (s.host.side k)
      ((s.connect farHost farPort).1.host.side k) := by
  rcases s.connect_spec hf farHost farPort with ⟨f, h⟩ | ⟨j, hj, -, hc, hr, -, hs, ho⟩
  · rw [h]
    exact .apart rfl rfl (by simp)
  · by_cases hk : j = k
    · subst hk
      rw [hs, hr, ← show j.far.host = farHost by rw [hj], ← show j.far.port = farPort by rw [hj]]
      exact .dialled hc
    · rw [ho k hk]
      exact .apart rfl rfl (by simp)

theorem cleanUp_side_of_ne (ticket : Ticket) {j k : SocketPair} (hj : j ≠ k) :
    ((s.cancel ticket).cleanUp j).host.side k = s.host.side k :=
  ((Host.Confined.remove (h := s.host)).trans .release).others hf k hj

theorem cleanUp_side (ticket : Ticket) (j k : SocketPair) :
    ((s.cancel ticket).cleanUp j).host.side k = s.host.side k ∨
      ((s.cancel ticket).cleanUp j).host.side k = (s.host.side k).forgotten := by
  by_cases hj : j = k
  · subst hj
    exact .inr (of_forget _ _ _)
  · exact .inl (s.cleanUp_side_of_ne hf ticket hj)

theorem settle_side (d : Dial) (k : SocketPair) :
    (s.settle d).1.host.side k = s.host.side k ∨
      (s.settle d).1.host.side k = (s.host.side k).forgotten := by
  unfold settle
  split
  · exact .inl rfl
  · exact .inl rfl
  · exact s.cleanUp_side hf d.ticket d.pair k
  · exact s.cleanUp_side hf d.ticket d.pair k

omit hf in
theorem steady_cleanUp (k : SocketPair) : s.host.Steady (s.cleanUp k).host :=
  .of_confined (k := k) ((Host.Confined.remove (h := s.host)).trans .release)

omit hf in
theorem steady_cancel (ticket : Ticket) : s.host.Steady (s.cancel ticket).host :=
  ⟨fun a => ⟨a.outbox, a.table⟩, rfl⟩

omit hf in
theorem steady_settle (d : Dial) : s.host.Steady (s.settle d).1.host := by
  unfold settle
  split
  · exact .refl _
  · exact s.steady_cancel _
  · exact (s.steady_cancel _).trans (steady_cleanUp _ _)
  · exact (s.steady_cancel _).trans (steady_cleanUp _ _)

omit hf in
theorem steady_settleAll (l : List Dial) : s.host.Steady (s.settleAll l).1.host := by
  induction l generalizing s with
  | nil => exact .refl _
  | cons d rest ih => exact (s.steady_settle d).trans (ih _)

theorem settleAll_side (l : List Dial) (k : SocketPair) :
    (s.settleAll l).1.host.side k = s.host.side k ∨
      (s.settleAll l).1.host.side k = (s.host.side k).forgotten := by
  induction l generalizing s with
  | nil => exact .inl rfl
  | cons d rest ih =>
    have hi := ih (s.settle d).1 ((s.steady_settle d).filed hf)
    rcases s.settle_side hf d k with h | h
    · rwa [h] at hi
    · rw [h] at hi
      exact .inr (hi.elim id id)

theorem resume_side (ticket : Ticket) (k : SocketPair) :
    (s.resume ticket).1.host.side k = s.host.side k ∨
      (s.resume ticket).1.host.side k = (s.host.side k).forgotten := by
  unfold resume
  split
  · exact .inl rfl
  · exact s.settle_side hf _ k

theorem expire_side (ticket : Ticket) (k : SocketPair) :
    (s.expire ticket).host.side k = s.host.side k ∨
      (s.expire ticket).host.side k = (s.host.side k).forgotten := by
  unfold expire
  cases s.dials.find? (fun d => d.ticket = ticket) with
  | none => exact .inl rfl
  | some d => exact s.cleanUp_side hf ticket d.pair k

omit hf in
theorem read_side (j k : SocketPair) (buffer : List UInt8) :
    Step s.host.settings k (.call (.read j buffer)) (.filled (s.read j buffer).2) (s.host.side k)
      ((s.read j buffer).1.host.side k) := by
  have hother (hj : j ≠ k) (t : Table) (r : Except Failure Table.Filled)
      (ht : of t s.host.outbox k = s.host.side k) : Step s.host.settings k (.call (.read j buffer))
        (.filled r) (s.host.side k) (of t s.host.outbox k) := by
    rw [ht]
    refine .apart rfl ?_ (by simp)
    cases r <;> simp [Op.took, hj]
  have hside (t : Table) : Host.side { s.host with table := t } k = of t s.host.outbox k := rfl
  unfold read Table.read
  cases hc : s.host.table.get? j with
  | none =>
    by_cases hj : j = k
    · subst hj
      have : Step s.host.settings j (.call (.read j buffer))
          (.filled (.error (.call .connectionClosed))) (s.host.side j) (s.host.side j).swept :=
        .readRefused (congrArg Connection.unread (conn_of_none hc)) (phase_of_none hc)
      rwa [swept_of_none hc] at this
    · exact hother hj _ _ rfl
  | some c =>
    cases hu : c.unread with
    | nil =>
      simp only [hu]
      by_cases hcl : c.phase = .closed
      · rw [if_pos hcl]
        by_cases hj : j = k
        · subst hj
          simp only [hside, of_reap]
          exact .readRefused (by rw [conn_of_entry hc, hu]) ((phase_of_entry hc).trans hcl)
        · exact hother hj _ _ (of_reap_of_ne _ _ hj)
      · rw [if_neg hcl]
        by_cases hj : j = k
        · subst hj
          exact .readNothing hc hu hcl
        · exact hother hj _ _ rfl
    | cons x rest =>
      simp only [hu]
      by_cases hj : j = k
      · subst hj
        simp only [hside, of_reap, of_put]
        exact .read hc hu rfl
      · exact hother hj _ _ ((of_reap_of_ne _ _ hj).trans (of_put_of_ne _ _ hj _))

theorem write_side (j k : SocketPair) (data : List UInt8) :
    Step s.host.settings k (.call (.write j data)) (.written (s.write j data).2) (s.host.side k)
      ((s.write j data).1.host.side k) := by
  unfold write
  by_cases hj : j = k
  · subst hj
    by_cases hd : data = []
    · subst hd
      exact .wrote fun h => absurd rfl h
    · by_cases ho : (s.host.side j).phase = .established ∧ (s.host.side j).win.stopped = false
      · obtain ⟨hs, hr⟩ := s.host.sendAll_open (l := payloads data) ho.1 ho.2
        rw [← Prod.eta (sendAll s.host j (payloads data)), hr]
        rw [show ∀ h : Host, h.nudge.side j = h.side j from fun _ => rfl, hs]
        exact .wrote fun _ => ho
      · obtain ⟨hs, f, hr⟩ := s.host.sendAll_refused (mt payloads_eq_nil.1 hd) ho
        rw [← Prod.eta (sendAll s.host j (payloads data)), hr]
        simp only
        rw [hs]
        exact .writeRefused hd ho
  · have hconf := (s.host.confined_sendAll (k := j) (payloads data)).others hf k hj
    cases hr : sendAll s.host j (payloads data) with
    | mk host failure =>
      rw [hr] at hconf
      cases failure with
      | none =>
        simp only [Host.side_nudge, hconf]
        exact .apart (by simp [Op.wrote, hj]) rfl (by simp)
      | some f =>
        simp only [hconf]
        exact .apart rfl rfl (by simp)

theorem close_side (j k : SocketPair) :
    Step s.host.settings k (.call (.close j)) (.closed (s.close j).2) (s.host.side k)
      ((s.close j).1.host.side k) := by
  have h := s.host.close_side j
  have hconf := (s.host.confined_apply j .close none (s.host.facts j) (by simp)).others hf k
  unfold close
  cases hr : s.host.apply j .close none (s.host.facts j) with
  | mk host r =>
    rw [hr] at h hconf
    have hother (hj : j ≠ k) (r : Except Failure Unit) : Step s.host.settings k (.call (.close j))
        (.closed r) (s.host.side k) (host.side k) := by
      rw [hconf hj]
      exact .apart rfl rfl (by simp)
    by_cases hj : j = k
    · subst hj
      cases r <;> exact h
    · cases r <;> exact hother hj _

omit hf in
theorem receive_side (x : Segment) (hf : s.host.Filed) (op : Op) (hop : op.arrival? = some x)
    (k : SocketPair) : Step s.host.settings k op .none (s.host.side k)
      ((s.host.receive x).side k) := by
  have happ : op.wrote k .none = [] ∧ op.took k .none = [] := by
    cases op <;> first | exact ⟨rfl, rfl⟩ | cases hop
  unfold Host.receive
  cases hkind : x.kind? with
  | none => exact .apart happ.1 happ.2 (by simp)
  | some kind =>
    simp only
    by_cases hk : x.receiverPair = k
    · subst hk
      exact .heard hop hkind rfl (s.host.receiveKind_side x kind)
    · rw [(s.host.confined_receiveKind x kind).others hf k hk]
      exact .apart happ.1 happ.2 (by simp)

omit hf in
theorem host_of_arrival {op : Op} {x : Segment} (hx : op.arrival? = some x) :
    (s.step op).1.host = s.host.receive x := by
  cases op with
  | receive y =>
    cases hx
    rfl
  | receiveFrame f =>
    cases hy : Segment.ofFrame f with
    | error fault =>
      rw [Op.arrival?, hy] at hx
      cases hx
    | ok y =>
      rw [Op.arrival?, hy] at hx
      cases hx
      simp only [step, receiveFrame, Host.receiveFrame, hy]
  | _ => cases hx

omit hf in
theorem poll_side (k : SocketPair) :
    s.poll.1.host.side k = (s.host.side k).sent s.host.settings.limit :=
  of_afterSending _ _ k

theorem step_side (op : Op) (k : SocketPair) :
    Step s.host.settings k op (s.step op).2 (s.host.side k) ((s.step op).1.host.side k) := by
  cases op with
  | call c =>
    cases c with
    | connect farHost farPort => exact s.connect_side hf farHost farPort k
    | resume ticket => exact settled rfl (by simp [step, call]) rfl rfl (s.resume_side hf ticket k)
    | resumeAll => exact settled rfl (by simp [step, call]) rfl rfl (s.settleAll_side hf s.dials k)
    | cancel ticket => exact .apart rfl rfl (by simp [step, call])
    | accept p => exact s.accept_side hf p k
    | read j buffer => exact s.read_side j k buffer
    | write j data => exact s.write_side hf j k data
    | close j => exact s.close_side hf j k
  | receive x => exact s.receive_side x hf _ rfl k
  | receiveFrame f =>
    simp only [step, receiveFrame, Host.receiveFrame]
    cases hx : Segment.ofFrame f with
    | error fault => exact .apart rfl rfl (by simp)
    | ok x => exact s.receive_side x hf _ (by rw [Op.arrival?, hx]; rfl) k
  | tick =>
    rw [show (s.step .tick).1.host.side k = _ from s.host.tick_side hf k]
    exact step_ticked s.host.settings k _
  | expire ticket => exact settled rfl (by simp [step]) rfl rfl (s.expire_side hf ticket k)
  | poll =>
    rw [show (s.step .poll).1 = s.poll.1 from rfl, poll_side]
    exact .polled (.inl rfl)
  | sendRound =>
    simp only [step, sendRound]
    split
    · rw [poll_side]
      exact .polled (.inr rfl)
    · exact .apart rfl rfl (by simp)

omit hf

theorem steady_connect (farHost : HostId) (farPort : Port) :
    s.host.Steady (s.connect farHost farPort).1.host := by
  unfold connect
  split
  · exact .refl _
  cases s.host.table.freePort? with
  | none => exact .refl _
  | some port =>
    simp only
    generalize (⟨⟨farHost, farPort⟩, ⟨s.address, port⟩⟩ : SocketPair) = j
    have hconf : s.host.Confined j _ := Host.Confined.await.trans
      ((s.host.await j).1.confined_apply j .connect none {} (by simp))
    split
    · rename_i heq
      rw [heq] at hconf
      exact .of_confined (hconf.trans .remove)
    · rename_i heq
      rw [heq] at hconf
      exact .of_confined (hconf.trans .nudge)

theorem steady_accept (p : Port) : s.host.Steady (s.accept p).1.host := by
  unfold accept
  split
  · exact .refl _
  simp only
  have hg := steady_nextPending s.host p ((s.host.table.listen p).pending p).length
  generalize nextPending (s.host.table.listen p) p ((s.host.table.listen p).pending p).length = r at *
  obtain ⟨table, next⟩ := r
  cases next with
  | none => exact hg
  | some syn =>
    have hconf := Host.confined_apply { s.host with table } syn.receiverPair .accept (some syn) {}
      (by simp)
    simp only
    split
    · rename_i heq
      rw [heq] at hconf
      exact hg.trans (.of_confined hconf)
    · rename_i heq
      rw [heq] at hconf
      exact hg.trans (.of_confined (hconf.trans .nudge))

theorem confined_read (k : SocketPair) (buffer : List UInt8) :
    s.host.Confined k (s.read k buffer).1.host := (s.host.touches_read k buffer).confined

theorem confined_write (k : SocketPair) (data : List UInt8) :
    s.host.Confined k (s.write k data).1.host := by
  have hconf := s.host.confined_sendAll (k := k) (payloads data)
  unfold write
  split
  · rename_i heq
    rw [heq] at hconf
    exact hconf
  · rename_i heq
    rw [heq] at hconf
    exact hconf.trans .nudge

theorem confined_close (k : SocketPair) : s.host.Confined k (s.close k).1.host := by
  have hconf := s.host.confined_apply k .close none (s.host.facts k) (by simp)
  unfold close
  split
  · rename_i heq
    rw [heq] at hconf
    exact hconf
  · rename_i heq
    rw [heq] at hconf
    exact hconf.trans .nudge

theorem steady_expire (ticket : Ticket) : s.host.Steady (s.expire ticket).host := by
  unfold expire
  split
  · exact .refl _
  · exact (s.steady_cancel ticket).trans (steady_cleanUp _ _)

theorem steady_resume (ticket : Ticket) : s.host.Steady (s.resume ticket).1.host := by
  unfold resume
  split
  · exact .refl _
  · exact s.steady_settle _

theorem steady_poll : s.host.Steady s.poll.1.host :=
  ⟨fun hf => ⟨hf.outbox.afterSending, hf.table⟩, rfl⟩

theorem step_steady (op : Op) : s.host.Steady (s.step op).1.host := by
  cases op with
  | call c =>
    cases c with
    | connect farHost farPort => exact s.steady_connect farHost farPort
    | resume ticket => exact s.steady_resume ticket
    | resumeAll => exact s.steady_settleAll s.dials
    | cancel ticket => exact s.steady_cancel ticket
    | accept p => exact s.steady_accept p
    | read k buffer => exact .of_confined (s.confined_read k buffer)
    | write k data => exact .of_confined (s.confined_write k data)
    | close k => exact .of_confined (s.confined_close k)
  | receive x => exact .of_confined (s.host.confined_receive x)
  | receiveFrame f =>
    simp only [step, receiveFrame, Host.receiveFrame]
    split
    · exact .refl _
    · exact .of_confined (s.host.confined_receive _)
  | tick => exact (Host.Steady.tickIn s.host _).trans ⟨fun a => ⟨a.outbox, a.table⟩, rfl⟩
  | expire ticket => exact s.steady_expire ticket
  | poll => exact s.steady_poll
  | sendRound =>
    simp only [step, sendRound]
    split
    · exact ⟨fun hf => ⟨hf.outbox.afterSending, hf.table⟩, rfl⟩
    · exact .refl _

theorem filed_fresh (address : HostId) (recvWindow sendWindow patience : Nat) :
    (fresh address recvWindow sendWindow patience).host.Filed :=
  ⟨Outbox.filed_empty sendWindow, Table.filed_empty recvWindow⟩

theorem side_run {P : Side → Prop}
    (hP : ∀ {cfg k op r e e'}, Side.Step cfg k op r e e' → P e → P e') (hf : s.host.Filed)
    (h : ∀ k, P (s.host.side k)) (ops : List Op) (k : SocketPair) :
    P ((s.run ops).host.side k) := by
  induction ops generalizing s with
  | nil => exact h k
  | cons op rest ih =>
    exact ih _ ((s.step_steady op).filed hf) fun j => hP (s.step_side hf op j) (h j)

@[simp] theorem address_settle (d : Dial) : (s.settle d).1.address = s.address := by
  unfold settle
  split <;> rfl

@[simp] theorem address_settleAll (l : List Dial) : (s.settleAll l).1.address = s.address := by
  induction l generalizing s with
  | nil => rfl
  | cons d rest ih => exact (ih _).trans (s.address_settle d)

@[simp] theorem address_step (op : Op) : (s.step op).1.address = s.address := by
  cases op with
  | call c =>
    cases c with
    | connect farHost farPort =>
      simp only [step, call, connect]
      split
      · rfl
      · split
        · rfl
        · split <;> rfl
    | resume ticket =>
      simp only [step, call, resume]
      split
      · rfl
      · exact s.address_settle _
    | resumeAll => exact s.address_settleAll s.dials
    | cancel ticket => rfl
    | accept p =>
      simp only [step, call, accept]
      split
      · rfl
      · split
        · rfl
        · split <;> rfl
    | read k buffer => rfl
    | write k data =>
      simp only [step, call, write]
      split <;> rfl
    | close k =>
      simp only [step, call, close]
      split <;> rfl
  | receive x => rfl
  | receiveFrame f => rfl
  | tick => rfl
  | expire ticket =>
    simp only [step, expire]
    split <;> rfl
  | poll => rfl
  | sendRound =>
    simp only [step, sendRound]
    split <;> rfl

end Station

end ReliableStream
