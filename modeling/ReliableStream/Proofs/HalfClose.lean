import ReliableStream.Proofs.Ledger

namespace ReliableStream

open Side

namespace Network

variable {n : Network} {i j : Nat} {k : SocketPair} {op : Op} {ops : List Op}
  {log : List Segment} {done : Segment → Prop} {s : Segment}

/-- In a step of a run, a reply with its number reaches the station while the segment is
unacknowledged. -/
def Acknowledged (n : Network) (i : Nat) (k : SocketPair) (ops : List Op) (s : Segment) : Prop :=
  ∃ before op after, ops = before ++ op :: after ∧
    ((n.run before).side i k).win.unacked.get? s.seq = some s ∧
    (n.run before).Acknowledges op i k s.seq

theorem Acknowledged.cons (h : (n.step op).1.Acknowledged i k ops s) :
    n.Acknowledged i k (op :: ops) s := by
  obtain ⟨before, x, after, rfl, hu, ha⟩ := h
  exact ⟨op :: before, x, after, rfl, hu, ha⟩

theorem Acknowledged.append {more : List Op} (h : n.Acknowledged i k ops s) :
    n.Acknowledged i k (ops ++ more) s := by
  obtain ⟨before, x, after, rfl, hu, ha⟩ := h
  exact ⟨before, x, after ++ more, by simp, hu, ha⟩

theorem Joins.posts (h : n.Joins i j k) {x : Segment} (hx : (n.step op).1.Carries x)
    (hk : x.senderPair = k) (hr : x.isReply = false) : n.Carries x ∨ x ∈ (n.side i k).resends ∨
      ∃ limit, ((n.step op).1.side i k).win = (n.side i k).win.advance limit ∧
        x ∈ (n.side i k).win.admitted limit := by
  rcases carries_step hx with hx | ⟨m, s, ha, hs, hx⟩
  · exact .inl hx
  have hf := h.tidy.filed m s hs
  have hm : m = i := by
    refine h.near m s hs (Classical.byContradiction fun hm => ?_)
    have hsend := sending_of_outgoing hf hx
    rw [hk, h.tidy.home m s hs k (Ne.symm hm)] at hsend
    exact not_sending_blank x hsend
  subst hm
  have hs' := ha.step_station hs
  rw [side_of_some hs, side_of_some hs', show (s.step .poll).1 = s.poll.1 from rfl, s.poll_side,
    win_sent]
  simp only [Outbox.outgoing, List.mem_append, List.mem_flatMap, SortedMap.mem_values_iff] at hx
  rcases hx with (hx | hx) | ⟨w, ⟨q, hw⟩, hx⟩
  · have := (h.tidy.sound m s hs k).replies x (List.mem_filter.2 ⟨hx, by simpa using hk⟩)
    rw [hr] at this
    cases this
  · exact .inr (.inl (List.mem_filter.2 ⟨hx, by simpa using hk⟩))
  · obtain rfl : q = k :=
      ((hf.outbox q w hw).1 x (Window.mem_pending_of_admitted hx)).symm.trans hk
    refine .inr (.inr ⟨s.host.settings.limit, rfl, ?_⟩)
    rw [win, show (s.host.side q).window = some w from hw]
    exact hx

theorem EventOf.acknowledges {o : Station.Op} {r : Station.Reply}
    (h : n.EventOf op i j (.near o r)) {x : Segment} (hx : Arrives k o x) (hr : x.isReply = true) :
    n.Acknowledges op i k x.seq := by
  cases h with
  | near ha => exact ⟨o, x, ha, hx, hr, rfl⟩

theorem Joins.ledger_step (h : n.Joins i j k) (hv : Ledger k log done (n.link i j k))
    (hop : op.isConnect = false)
    (hstay : (n.side i k).phase ≠ .closed → ((n.step op).1.side i k).phase ≠ .closed)
    (hlen : (log ++ (n.side i k).queuedSince ((n.step op).1.side i k)).length < UInt32.size) :
    Ledger k (log ++ (n.side i k).queuedSince ((n.step op).1.side i k))
      (fun s => done s ∨ (n.side i k).win.unacked.get? s.seq = some s ∧
        n.Acknowledges op i k s.seq) ((n.step op).1.link i j k) := by
  obtain ⟨ev, hev, hst⟩ := h.link_step op
  cases ev with
  | near o r =>
    have hd := hev.near_not_dialled hop
    refine (hv.near_step (h.tidy.side_sound i k) hst hd hstay hlen fun x hx hr =>
      (h.posts hx.1 hx.2 hr).imp (⟨·, hx.2⟩) id).mono fun s hs => hs.imp id (And.imp id ?_)
    rintro ⟨x, hx, hr, hseq⟩
    exact hseq ▸ hev.acknowledges hx hr
  | far o r =>
    have hv' := hv.far_step (h.tidy.side_sound j k.swap) hst
    cases hst with
    | far _ hsame =>
      rw [show (n.step op).1.side i k = n.side i k from hsame, queuedSince_self, List.append_nil]
      exact hv'.mono fun _ => .inl
  | none =>
    have hv' := hv.none_step hst
    cases hst with
    | none hsame =>
      rw [show (n.step op).1.side i k = n.side i k from hsame, queuedSince_self, List.append_nil]
      exact hv'.mono fun _ => .inl

theorem Joins.ledger_run (h : n.Joins i j k) (hv : Ledger k log done (n.link i j k))
    (hops : ∀ op ∈ ops, op.isConnect = false) (hlast : n.lasts i k ops)
    (hlen : (log ++ n.queued i k ops).length < UInt32.size) :
    Ledger k (log ++ n.queued i k ops) (fun s => done s ∨ n.Acknowledged i k ops s)
      ((n.run ops).link i j k) := by
  induction ops generalizing n log done with
  | nil =>
    rw [show n.queued i k [] = [] from rfl, List.append_nil]
    exact hv.mono fun _ => .inl
  | cons op rest ih =>
    obtain ⟨hop, hrest⟩ := List.forall_mem_cons.1 hops
    rw [queued_cons, ← List.append_assoc] at hlen ⊢
    have hv' := h.ledger_step hv hop hlast.1 (by
      rw [List.length_append] at hlen
      omega)
    refine (ih (h.step op) hv' hrest hlast.2 hlen).mono fun s hs => ?_
    rcases hs with (hs | ⟨hu, ha⟩) | hs
    · exact .inl hs
    · exact .inr ⟨[], op, rest, rfl, hu, ha⟩
    · exact .inr hs.cons

theorem Joins.ledger_connect {m : Nat} {farHost : HostId} {farPort : Port} (h : n.Joins i j k)
    (hb : (n.link i j k).Blank) (hm : m = i ∨ m = j) :
    Ledger k (n.queued i k [.call m (.connect farHost farPort)]) done
      ((n.step (.call m (.connect farHost farPort))).1.link i j k) := by
  have hnear : n.side i k = {} := hb.near
  rw [show n.queued i k [.call m (.connect farHost farPort)] = (n.side i k).queuedSince
    ((n.step (.call m (.connect farHost farPort))).1.side i k) from List.append_nil _, hnear]
  rcases hm with rfl | rfl
  · rcases h.connect_step farHost farPort hb with hb' | ⟨-, ticket, hn, hf, ho, hbk⟩
    · rw [show (n.step (.call m (.connect farHost farPort))).1.side m k = {} from hb'.near]
      exact .blank hb'
    · rw [show (n.step (.call m (.connect farHost farPort))).1.side m k = _ from hn]
      exact .dialled hn hf ho hbk
  · rcases h.swap.connect_step farHost farPort hb.swap with hb' | ⟨-, ticket, hn, hf, ho, hbk⟩
    · rw [show (n.step (.call m (.connect farHost farPort))).1.side i k = {} from hb'.far]
      exact .blank hb'.swap
    · rw [show (n.step (.call m (.connect farHost farPort))).1.side i k = {} from hf]
      exact .unopened hf
        (by rw [show ((n.step (.call m (.connect farHost farPort))).1.link i m k).far = _ from hn]; rfl)
        (by rw [show ((n.step (.call m (.connect farHost farPort))).1.link i m k).far = _ from hn]; rfl)
        hbk ho

theorem Joins.ledger {m : Nat} {farHost : HostId} {farPort : Port} (h : n.Joins i j k)
    (hb : (n.link i j k).Blank) (hm : m = i ∨ m = j)
    (hops : (ops.filter Op.isConnect).Sublist [.call m (.connect farHost farPort)])
    (hlast : n.lasts i k ops) (hlen : (n.queued i k ops).length < UInt32.size) :
    Ledger k (n.queued i k ops) (n.Acknowledged i k ops) ((n.run ops).link i j k) := by
  rcases split_connect rfl hops with hops | ⟨before, after, rfl, hbefore, hafter⟩
  · have hv : Ledger k [] (fun _ => False) (n.link i j k) := .blank hb
    exact (h.ledger_run hv hops hlast hlen).mono fun s hs => hs.resolve_left id
  · obtain ⟨-, hlast⟩ := lasts_append.1 hlast
    have hq := (h.blank_logs hb hbefore).1
    have hj := h.run before
    rw [queued_append, hq, List.nil_append, ← List.singleton_append, queued_append] at hlen ⊢
    rw [run_append]
    have hv : Ledger k _ (fun _ => False)
        (((n.run before).step (.call m (.connect farHost farPort))).1.link i j k) :=
      hj.ledger_connect (h.blank_run hb hbefore) hm
    refine ((hj.step _).ledger_run hv hafter hlast.2 hlen).mono fun s hs => ?_
    obtain ⟨xs, x, ys, rfl, hu, ha⟩ := hs.resolve_left id
    refine ⟨before ++ .call m (.connect farHost farPort) :: xs, x, ys, by simp, ?_, ?_⟩
    · rw [run_append]
      exact hu
    · rw [run_append]
      exact ha

theorem Joins.drained_step (h : n.Joins i j k) (hv : Ledger k log done (n.link i j k))
    (hp : (n.side i k).phase = .stopSent) (hp' : ((n.step op).1.side i k).phase = .closing)
    (hm : n.Meets op i k .ack) :
    (∀ s ∈ log, done s ∨ (n.side i k).win.unacked.get? s.seq = some s ∧
      n.Acknowledges op i k s.seq) ∧
    ((n.step op).1.side i k).win.unacked = {} ∧ ((n.step op).1.side i k).win.pending =
      [{ Segment.control k .fin with seq := (n.side i k).win.next }] := by
  obtain ⟨o, x, ha, hx, hk⟩ := hm
  obtain ⟨-, s, hs, -⟩ := ha.arrival hx.1
  cases h.link_step_near ha hs with
  | near hside =>
    rcases hside.hears hx hk with he | hh
    · rw [show (n.step op).1.side i k = n.side i k from he, hp] at hp'
      cases hp'
    rcases hh.ack_stopSent hp with ⟨he, -⟩ | ⟨-, hwin, hd⟩
    · cases he.symm.trans hp'
    · obtain ⟨hpend, hu⟩ : (n.side i k).win.pending = [] ∧
          (n.side i k).win.unacked.erase x.seq = {} := by
        have := Window.eq_of_isDrained hd
        rwa [win_acked] at this
      have hwin : ((n.step op).1.side i k).win =
          (((n.side i k).acked x.seq).push (.control k .fin)).win := hwin
      -- Nothing waits, so what is not done yet is what the ACK is for.
      refine ⟨fun s hs => ?_, ?_, ?_⟩
      · rcases hv.kept s hs with hw | hw | hw
        · rw [show (n.link i j k).near.win.pending = [] from hpend] at hw
          cases hw
        · refine .inr ⟨hw, o, x, ha, hx, by simp [Segment.isReply, hk, Kind.isReply],
            Classical.byContradiction fun hne => ?_⟩
          have hw' := (SortedMap.get?_erase_of_ne (n.side i k).win.unacked hne).trans hw
          rw [hu] at hw'
          cases hw'
        · exact .inl hw
      · rw [hwin, win_push, win_acked]
        exact hu
      · rw [hwin, win_push, win_acked, Window.pending_push, hpend]
        rfl

/-- In a run of two hosts with one call of `connect`, until the entry of an end goes: while that end
has stopped sending it holds a segment, and when an ACK moves it on to its FIN, all that it has
queued before has been acknowledged, and the FIN alone is queued. -/
theorem half_close_drains {a b : HostId} (hab : a ≠ b) (ra sa pa rb sb pb : Nat) (p : Port)
    (ops : List Op) (k : SocketPair) (hnear : k.near.host = a) (hfar : k.far.host = b)
    (hconnect : (ops.filter Op.isConnect).Sublist [.call 0 (.connect b p)])
    (i : Nat) (q : SocketPair) (hend : i = 0 ∧ q = k ∨ i = 1 ∧ q = k.swap)
    (hlast : (pair (.fresh a ra sa pa) (.fresh b rb sb pb)).lasts i q ops)
    (hlen : ((pair (.fresh a ra sa pa) (.fresh b rb sb pb)).queued i q ops).length < UInt32.size) :
    ((((pair (.fresh a ra sa pa) (.fresh b rb sb pb)).run ops).side i q).phase = .stopSent →
      ∃ s, (((pair (.fresh a ra sa pa) (.fresh b rb sb pb)).run ops).side i q).win.has s) ∧
    ∀ before op after, ops = before ++ op :: after →
      (((pair (.fresh a ra sa pa) (.fresh b rb sb pb)).run before).side i q).phase = .stopSent →
      (((pair (.fresh a ra sa pa) (.fresh b rb sb pb)).run (before ++ [op])).side i q).phase =
        .closing →
      ((pair (.fresh a ra sa pa) (.fresh b rb sb pb)).run before).Meets op i q .ack →
      (∀ s ∈ (pair (.fresh a ra sa pa) (.fresh b rb sb pb)).queued i q before,
        (pair (.fresh a ra sa pa) (.fresh b rb sb pb)).Acknowledged i q (before ++ [op]) s) ∧
      (((pair (.fresh a ra sa pa) (.fresh b rb sb pb)).run (before ++ [op])).side i q).win.unacked =
        {} ∧
      (((pair (.fresh a ra sa pa) (.fresh b rb sb pb)).run (before ++ [op])).side i q).win.pending =
        [{ Segment.control q .fin with
          seq := (((pair (.fresh a ra sa pa) (.fresh b rb sb pb)).run before).side i q).win.next }] := by
  have hj : (pair (.fresh a ra sa pa) (.fresh b rb sb pb)).Joins 0 1 k := joins_fresh hab hnear hfar
  have hb : ((pair (.fresh a ra sa pa) (.fresh b rb sb pb)).link 0 1 k).Blank := blank_fresh k
  obtain ⟨j, hj, hb, hm⟩ : ∃ j, (pair (.fresh a ra sa pa) (.fresh b rb sb pb)).Joins i j q ∧
      ((pair (.fresh a ra sa pa) (.fresh b rb sb pb)).link i j q).Blank ∧ (0 = i ∨ 0 = j) := by
    rcases hend with ⟨rfl, rfl⟩ | ⟨rfl, rfl⟩
    · exact ⟨1, hj, hb, .inl rfl⟩
    · exact ⟨0, hj.swap, hb.swap, .inr rfl⟩
  have ledger {before rest : List Op} (he : ops = before ++ rest) :
      Ledger q ((pair (.fresh a ra sa pa) (.fresh b rb sb pb)).queued i q before)
        ((pair (.fresh a ra sa pa) (.fresh b rb sb pb)).Acknowledged i q before)
        (((pair (.fresh a ra sa pa) (.fresh b rb sb pb)).run before).link i j q) := by
    subst he
    rw [List.filter_append] at hconnect
    rw [queued_append, List.length_append] at hlen
    exact hj.ledger hb hm ((List.sublist_append_left _ _).trans hconnect) (lasts_append.1 hlast).1
      (by omega)
  refine ⟨fun hp => (ledger (List.append_nil ops).symm).shape.busy hp, ?_⟩
  intro before op after he hp hp' hmeets
  rw [run_append] at hp' ⊢
  obtain ⟨hall, hu, hpend⟩ := (hj.run before).drained_step (ledger he) hp hp' hmeets
  refine ⟨fun s hs => ?_, hu, hpend⟩
  rcases hall s hs with hs | ⟨hw, ha⟩
  · exact hs.append
  · exact ⟨before, op, [], rfl, hw, ha⟩

theorem half_close_drains_farewell :
    (∃ s, (((pair (.fresh 1 4 4 4) (.fresh 2 4 4 4)).run (farewell.take 13)).side 0
      ⟨⟨2, 7⟩, ⟨1, 0⟩⟩).win.has s) ∧
    (∀ s ∈ (pair (.fresh 1 4 4 4) (.fresh 2 4 4 4)).queued 0 ⟨⟨2, 7⟩, ⟨1, 0⟩⟩ (farewell.take 13),
      (pair (.fresh 1 4 4 4) (.fresh 2 4 4 4)).Acknowledged 0 ⟨⟨2, 7⟩, ⟨1, 0⟩⟩ (farewell.take 14) s) := by
  have hfirst := (half_close_drains (show (1 : HostId) ≠ 2 by decide) 4 4 4 4 4 4 7
    (farewell.take 13) ⟨⟨2, 7⟩, ⟨1, 0⟩⟩ rfl rfl (by decide) 0 _ (.inl ⟨rfl, rfl⟩) (by decide +kernel)
    (by decide +kernel)).1
  have hsecond := (half_close_drains (show (1 : HostId) ≠ 2 by decide) 4 4 4 4 4 4 7
    (farewell.take 14) ⟨⟨2, 7⟩, ⟨1, 0⟩⟩ rfl rfl (by decide) 0 _ (.inl ⟨rfl, rfl⟩) (by decide +kernel)
    (by decide +kernel)).2
  refine ⟨hfirst (by decide +kernel), ?_⟩
  exact (hsecond (farewell.take 13) (.deliver 0) [] rfl (by decide +kernel) (by decide +kernel)
    ⟨.receiveFrame ⟨1, 2, [0, 7, 0, 2, 0, 0, 0, 2], by decide⟩,
      { dest := ⟨1, 0⟩, src := ⟨2, 7⟩, flags := Kind.ack.flags, seq := 2 },
      .deliver (by decide +kernel) (by decide +kernel), ⟨by decide +kernel, rfl⟩, rfl⟩).1

end Network

end ReliableStream
