import ReliableStream.Proofs.HalfClose
import ReliableStream.Proofs.Standstill

namespace ReliableStream

open Side

namespace Side

variable {cfg : Settings} {room : Nat} {k : SocketPair} {s : Segment} {kind : Kind}
  {e e' : Side}

theorem Sound.not_reply_of_held (h : e.Sound) (hs : e.held s) : s.isReply = false := by
  rcases hs with (hs | ⟨i, hs⟩) | hs
  · exact h.pending s hs
  · exact h.unacked i s hs
  · exact h.resends s hs

theorem Hears.syn_answered (h : Hears room k s .syn e e')
    (hp : e.phase = .established ∨ e.phase = .closing) (hs : s.seq = 0) :
    s.answer .synAck ∈ e'.replies := by
  have wrong {c : Connection} {p : Phase} (hc : e.entry = some c) (hcp : c.phase = p)
      (hne : p ≠ .established ∧ p ≠ .closing) : False := by
    rw [phase_of_entry hc, hcp] at hp
    exact hp.elim hne.1 hne.2
  have last (l : List Segment) : s.answer .synAck ∈ l ++ [s.answer .synAck] :=
    List.mem_append_right _ List.mem_cons_self
  cases h with
  | noted hr => cases hr
  | knocked hc => rcases hp with hp | hp <;> cases hc.symm.trans hp
  | strange hk | discarded _ _ hk => simp at hk
  | stale _ hc =>
    rw [phase_of_entry hc] at hp
    exact List.mem_append_right _ (by simp [Phase.again, hp])
  | early _ _ _ hlt =>
    rw [hs] at hlt
    exact absurd (UInt32.lt_iff_toNat_lt.1 hlt) (Nat.not_lt_zero _)
  | collided hc hcp => exact (wrong hc hcp (by decide)).elim
  | greeted => exact last _
  | repeated hc hcp => exact (wrong hc hcp (by decide)).elim
  | misplaced _ hc _ _ hnone =>
    have hnone := hnone {}
    rw [phase_of_entry hc] at hp
    rcases hp with hp | hp <;> simp [hp, Phase.move?] at hnone

theorem Hears.syn_unanswered (h : Hears room k s .syn e e')
    (hp : e.phase ≠ .established ∧ e.phase ≠ .closing ∧ e.phase ≠ .synSent) :
    e'.replies = e.replies ∧
      (e'.phase = e.phase ∨ e.phase = .closed ∧ e'.phase = .synReceived) := by
  have wrong {c : Connection} {p : Phase} (hc : e.entry = some c) (hcp : c.phase = p)
      (hne : p = .established ∨ p = .closing ∨ p = .synSent) : False := by
    rw [phase_of_entry hc, hcp] at hp
    rcases hne with rfl | rfl | rfl <;> simp at hp
  cases h with
  | noted hr => cases hr
  | knocked hc => exact ⟨rfl, .inr ⟨hc, rfl⟩⟩
  | strange hk | discarded _ _ hk => simp at hk
  | stale _ hc =>
    rw [phase_of_entry hc] at hp
    have hnone : Phase.again _ .syn = none := if_neg (not_or.2 ⟨hp.1, hp.2.1⟩)
    exact ⟨by simp [hnone], .inl rfl⟩
  | early => exact ⟨rfl, .inl rfl⟩
  | collided hc hcp => exact (wrong hc hcp (.inr (.inr rfl))).elim
  | greeted hc hcp =>
    rcases hcp with hcp | hcp
    · exact (wrong hc hcp (.inl rfl)).elim
    · exact (wrong hc hcp (.inr (.inl rfl))).elim
  | repeated hc => exact ⟨rfl, .inl (phase_of_entry hc).symm⟩
  | misplaced => exact ⟨rfl, .inl (phase_swept _)⟩

end Side

/-- The near end has dialled, the far end is in a phase of `P`, none of which has an answer to a
SYN, and no SYN-ACK is left. -/
def Standstill.unanswered (k : SocketPair) (cfg cfg' : Settings) (P : Phase → Prop)
    (hP : ∀ p, P p → p ≠ .established ∧ p ≠ .closing ∧ p ≠ .synSent)
    (hknock : P .closed → P .synReceived) : Standstill k cfg cfg' where
  near e := e.phase = .synSent ∧ e.replies = [] ∧ e.conn.expected = 0 ∧
    ∀ x, e.held x → x.kind? = some .syn
  far e := P e.phase ∧ ∀ x, x ∈ e.replies ∨ e.held x → x.kind? ≠ some .syn ∧ x.kind? ≠ some .synAck
  out x := x.kind? = some .syn
  back x := x.kind? ≠ some .syn ∧ x.kind? ≠ some .synAck
  near_relayed := by
    rintro e e' ⟨hp, hr, he, hheld⟩ - hst
    have key : e'.phase = .synSent ∧ e'.replies = [] ∧ e'.conn.expected = 0 := by
      rcases hst.heard_or_kept (by simp [hp]) with ⟨x, kind, hx, hk, hh⟩ | hkept
      · rcases hh.dialling hp he with ⟨rfl, -⟩ | ⟨rfl, -⟩ | ⟨hp', hr', hc'⟩
        · exact absurd hk hx.2
        · exact absurd hk hx.1
        · exact ⟨hp', hr'.trans hr, by rw [hc', he]⟩
      · exact ⟨hkept.phase.trans hp, List.subset_nil.1 (hr ▸ hkept.replies),
          (hkept.expected (by simp [hp])).trans he⟩
    refine ⟨key.1, key.2.1, key.2.2, fun x hx => (hst.held hx).elim (hheld x) fun hc => ?_⟩
    cases key.1.symm.trans hc
  far_relayed := by
    rintro e e' ⟨hp, hheld⟩ - hst
    have hne := hP _ hp
    have key : P e'.phase ∧ e'.replies ⊆ e.replies := by
      rcases hst.heard_or_kept hne.2.1 with ⟨x, kind, hx, hk, hh⟩ | hkept
      · obtain rfl := Option.some.inj (hx.symm.trans hk)
        obtain ⟨hr, hp' | ⟨hc, hp'⟩⟩ := hh.syn_unanswered hne
        · exact ⟨hp' ▸ hp, hr ▸ List.Subset.refl _⟩
        · exact ⟨hp' ▸ hknock (hc ▸ hp), hr ▸ List.Subset.refl _⟩
      · exact ⟨hkept.phase ▸ hp, hkept.replies⟩
    refine ⟨key.1, fun x hx => ?_⟩
    rcases hx with hx | hx
    · exact hheld x (.inl (key.2 hx))
    · rcases hst.held hx with hx | hc
      · exact hheld x (.inr hx)
      · exact absurd hc (hP _ key.1).2.1
  sends := by
    rintro e x ⟨-, hr, -, hheld⟩ - (hx | hx | hx)
    · rw [hr] at hx
      cases hx
    · exact hheld x (.inr hx)
    · exact hheld x (.inl (.inl hx))
  answers := by
    rintro e x ⟨-, hheld⟩ - (hx | hx | hx)
    · exact hheld x (.inl hx)
    · exact hheld x (.inr (.inr hx))
    · exact hheld x (.inr (.inl (.inl hx)))

namespace Network

variable {n : Network} {i j : Nat} {k : SocketPair} {op : Op} {ops : List Op} {cfg cfg' : Settings}
  {x : Segment} {done : Segment → Prop}

def Welcomes (n : Network) (i : Nat) (k : SocketPair) : Prop :=
  ∃ x : Segment, x.kind? = some .synAck ∧ x.senderPair = k ∧
    (n.Carries x ∨ x ∈ (n.side i k).replies)

theorem Joins.dialling_run (h : n.Joins i j k) (hops : ∀ op ∈ ops, op.isConnect = false)
    (hp : ((n.run ops).side i k).phase = .synSent) :
    (n.side i k).phase = .synSent ∧ n.lasts i k ops ∧ n.queued i k ops = [] := by
  induction ops generalizing n with
  | nil => exact ⟨hp, trivial, rfl⟩
  | cons op rest ih =>
    obtain ⟨hop, hrest⟩ := List.forall_mem_cons.1 hops
    obtain ⟨hp', hlast, hq⟩ := ih (h.step op) hrest hp
    have key : (n.side i k).phase = .synSent ∧
        (n.side i k).queuedSince ((n.step op).1.side i k) = [] := by
      rcases h.near_acts op with hsame | ⟨o, r, hev, hst⟩
      · rw [hsame] at hp' ⊢
        exact ⟨hp', queuedSince_self _⟩
      · cases hst with
        | near hside =>
          have hd := hev.near_not_dialled hop
          have hmoves := hside.moves hd
          rw [show ((n.step op).1.link i j k).near.phase = .synSent from hp'] at hmoves
          have hn : (n.side i k).phase = .synSent := hmoves.to_synSent
          refine ⟨hn, (hside.sends hd).queues.eq_nil ?_⟩
          rw [show (n.link i j k).near.phase = .synSent from hn]
          simp
    refine ⟨key.1, ⟨fun _ => by simp [hp'], hlast⟩, ?_⟩
    rw [queued_cons, key.2, hq]
    rfl

theorem Joins.ledger_dialling {farHost : HostId} {farPort : Port} (h : n.Joins i j k)
    (hb : (n.link i j k).Blank)
    (hops : (ops.filter Op.isConnect).Sublist [.call i (.connect farHost farPort)])
    (hp : ((n.run ops).side i k).phase = .synSent) :
    Ledger k [.control k .syn] (fun _ => True) ((n.run ops).link i j k) := by
  rcases split_connect rfl hops with hops | ⟨before, after, rfl, hbefore, hafter⟩
  · rw [show (n.run ops).side i k = {} from (h.blank_run hb hops).near] at hp
    cases hp
  · rw [run_append] at hp ⊢
    have hj := (h.run before).step (.call i (.connect farHost farPort))
    obtain ⟨hp', hlast, hq⟩ := hj.dialling_run hafter hp
    have hv : Ledger k _ (fun _ => True)
        (((n.run before).step (.call i (.connect farHost farPort))).1.link i j k) :=
      (h.run before).ledger_connect (h.blank_run hb hbefore) (.inl rfl)
    rw [hv.shape.dialled hp'] at hv
    have hrun := hj.ledger_run hv hafter hlast (by rw [hq]; exact (by decide : 1 < UInt32.size))
    rw [hq] at hrun
    exact hrun.mono fun _ _ => trivial

theorem Joins.not_dialling (h : n.Joins i j k)
    (hops : ∀ op ∈ ops, ∀ farHost farPort, op ≠ .call i (.connect farHost farPort))
    (hp : (n.side i k).phase ≠ .synSent) : ((n.run ops).side i k).phase ≠ .synSent := by
  induction ops generalizing n with
  | nil => exact hp
  | cons op rest ih =>
    obtain ⟨hop, hrest⟩ := List.forall_mem_cons.1 hops
    refine ih (h.step op) hrest fun hp' => hp ?_
    rcases h.near_acts op with hsame | ⟨o, r, hev, hst⟩
    · rwa [hsame] at hp'
    · cases hst with
      | near hside =>
        cases hev with
        | near ha =>
          have hmoves := hside.moves (ha.not_dialled hop)
          rw [show ((n.step op).1.link i j k).near.phase = .synSent from hp'] at hmoves
          exact hmoves.to_synSent

theorem pair_of_replies (hx : x ∈ (n.side i k).replies) : x.senderPair = k := by
  cases hs : n.stations[i]? with
  | none =>
    rw [side, hs] at hx
    cases hx
  | some s =>
    rw [side_of_some hs] at hx
    simpa using (List.mem_filter.1 hx).2

theorem Peers.unanswered {P : Phase → Prop} (h : n.Peers i j k cfg cfg')
    (hl : Ledger k [.control k .syn] done (n.link i j k)) (hpas : n.Passive j k.swap)
    (hp : (n.side i k).phase = .synSent)
    (hP : ∀ p, P p → p ≠ .established ∧ p ≠ .closing ∧ p ≠ .synSent)
    (hknock : P .closed → P .synReceived) (hp' : P (n.side j k.swap).phase)
    (hn : ¬n.Welcomes j k.swap) :
    (Standstill.unanswered k cfg cfg' P hP hknock).Holds (n.link i j k) := by
  have hsyn {s : Segment} (hs : s ∈ [Segment.control k .syn]) : s.kind? = some .syn := by
    rw [List.mem_singleton.1 hs, Segment.kind?_control]
  have hsound := h.joins.tidy.side_sound j k.swap
  obtain ⟨hr, he⟩ := hl.shape.unanswered hp
  constructor
  · refine ⟨hp, hr, he, fun s hs => hsyn ?_⟩
    exact hs.elim hl.holds.mem_of_has fun hs => (hl.resends s hs).1
  · refine ⟨hp', fun s hs => ?_⟩
    rcases hs with hs | hs
    · refine ⟨fun hk => ?_, fun hk => hn ⟨s, hk, ?_, .inr hs⟩⟩
      · have := hsound.replies s hs
        simp [Segment.isReply, hk, Kind.isReply] at this
      · exact pair_of_replies hs
    · refine ⟨hpas.held s hs, fun hk => ?_⟩
      have := hsound.not_reply_of_held hs
      simp [Segment.isReply, hk, Kind.isReply] at this
  · exact fun s hs => hsyn (hl.out s hs (hl.quiet hp s hs)).1
  · intro s hs
    exact ⟨hpas.wire s hs.1 hs.2, fun hk => hn ⟨s, hk, hs.2, .inl hs.1⟩⟩

theorem Peers.opens_of_carries (h : n.Peers i j k cfg cfg') (hp : (n.side i k).phase = .synSent)
    (hk : x.kind? = some .synAck) (hpair : x.senderPair = k.swap) (hx : n.Carries x) :
    n.Can Op.relays fun m => (m.side i k).phase = .established := by
  obtain ⟨m, hh, -⟩ := h.swap.deliver hx hpair hk
  rw [SocketPair.swap_swap] at hh
  exact .step (.deliver m) rfl (.now (hh.synAck_synSent hp))

theorem Peers.opens_of_replies (h : n.Peers i j k cfg cfg') (hp : (n.side i k).phase = .synSent)
    (hk : x.kind? = some .synAck) (hfits : x.Fits) (hx : x ∈ (n.side j k.swap).replies) :
    n.Can Op.relays fun m => (m.side i k).phase = .established := by
  refine .step (.flush j) rfl ((h.step _).opens_of_carries ?_ hk (pair_of_replies hx)
    (h.swap.carries_flush (.inr ⟨hfits, .inl hx⟩)))
  have hsame := h.swap.flush.2
  rw [SocketPair.swap_swap] at hsame
  rwa [hsame]

theorem Peers.opens_of_listener (h : n.Peers i j k cfg cfg')
    (hl : Ledger k [.control k .syn] done (n.link i j k))
    (hp : (n.side i k).phase = .synSent) (hfits : (Segment.control k .syn).Fits)
    (hp' : (n.side j k.swap).phase = .established ∨ (n.side j k.swap).phase = .closing) :
    n.Can Op.relays fun m => (m.side i k).phase = .established := by
  obtain ⟨hnear₁, hfar₁⟩ := h.tick
  have h₁ := h.step (.tick i)
  rw [ticked_open (.inl hp)] at hnear₁
  obtain ⟨hnear₂, hfar₂⟩ := h₁.flush
  have h₂ := h₁.step (.flush i)
  have hsyn : ((n.step (.tick i)).1.step (.flush i)).1.Carries (.control k .syn) := by
    refine h₁.carries_flush (.inr ⟨hfits, .inr ?_⟩)
    rw [hnear₁]
    rcases hl.shape.calling hp with hpend | ⟨i', hu⟩
    -- Nothing but the SYN could be unacknowledged, and it waits.
    · have hwait : (n.side i k).win.pending = [.control k .syn] := by
        rcases List.suffix_cons_iff.1 hl.holds.pending with hw | hw
        · exact hw
        · rw [List.suffix_nil.1 hw] at hpend
          cases hpend
      refine .inr (Window.head_admitted h.limit_pos (fun i' s hs => ?_) hwait)
      have hmem := (hl.holds.unacked i' s hs).1
      rw [List.mem_singleton] at hmem
      exact hl.unsent i' s hs (hmem ▸ hpend)
    · exact .inl (mem_resent hu)
  obtain ⟨m, hh, hnear₃⟩ := h₂.deliver hsyn rfl (Segment.kind?_control k .syn)
  rw [hfar₂, hfar₁] at hh
  refine .step (.tick i) rfl (.step (.flush i) rfl (.step (.deliver m) rfl ?_))
  refine (h₂.step (.deliver m)).opens_of_replies ?_ (Segment.kind?_answer _ _)
    (Segment.fits_answer hfits _) (hh.syn_answered hp' rfl)
  rw [hnear₃, hnear₂, hnear₁]
  exact hp

section Fresh

variable {a b : HostId} {ra sa pa rb sb pb : Nat} {p : Port}

theorem ledger_dialling_fresh (hab : a ≠ b) (hnear : k.near.host = a) (hfar : k.far.host = b)
    (hconnect : (ops.filter Op.isConnect).Sublist [.call 0 (.connect b p)])
    (hp : (((pair (.fresh a ra sa pa) (.fresh b rb sb pb)).run ops).side 0 k).phase = .synSent) :
    Ledger k [.control k .syn] (fun _ => True)
      (((pair (.fresh a ra sa pa) (.fresh b rb sb pb)).run ops).link 0 1 k) :=
  (joins_fresh hab hnear hfar).ledger_dialling (blank_fresh k) hconnect hp

theorem unanswered_fresh {P : Phase → Prop} (hab : a ≠ b) (hnear : k.near.host = a)
    (hfar : k.far.host = b)
    (hconnect : (ops.filter Op.isConnect).Sublist [.call 0 (.connect b p)])
    (hp : (((pair (.fresh a ra sa pa) (.fresh b rb sb pb)).run ops).side 0 k).phase = .synSent)
    (hP : ∀ p, P p → p ≠ .established ∧ p ≠ .closing ∧ p ≠ .synSent)
    (hknock : P .closed → P .synReceived)
    (hp' : P (((pair (.fresh a ra sa pa) (.fresh b rb sb pb)).run ops).side 1 k.swap).phase)
    (hn : ¬((pair (.fresh a ra sa pa) (.fresh b rb sb pb)).run ops).Welcomes 1 k.swap)
    {more : List Op} (hmore : ∀ op ∈ more, op.relaysOrReads = true) :
    (((pair (.fresh a ra sa pa) (.fresh b rb sb pb)).run (ops ++ more)).side 0 k).phase =
        .synSent ∧
      P (((pair (.fresh a ra sa pa) (.fresh b rb sb pb)).run (ops ++ more)).side 1 k.swap).phase := by
  have hpeers : (pair (.fresh a ra sa pa) (.fresh b rb sb pb)).Peers 0 1 k _ _ :=
    peers_fresh hab hnear hfar
  have hpas := (passive_fresh (a := a) (b := b) k.swap).run hpeers.joins.swap fun _ ho =>
    ne_connect_of_sublist hconnect (by decide) ho
  rw [run_append]
  have hholds := (hpeers.run ops).unanswered (ledger_dialling_fresh hab hnear hfar hconnect hp) hpas
    hp hP hknock hp' hn
  have hrun := hholds.run (hpeers.run ops) hmore
  exact ⟨hrun.near.1, hrun.far.1⟩

end Fresh

/-- In a run of two hosts with one call of `connect` that has not been answered: ticks, flushes and
deliveries can end the dial if and only if the far end is established or closing, or a SYN-ACK of it
is on the wire or waits to be sent. -/
theorem dial_answerable {a b : HostId} (hab : a ≠ b) (ra sa pa rb sb pb : Nat) (p : Port)
    (ops : List Op) (k : SocketPair) (hnear : k.near.host = a) (hfar : k.far.host = b)
    (hconnect : (ops.filter Op.isConnect).Sublist [.call 0 (.connect b p)])
    (hp : (((pair (.fresh a ra sa pa) (.fresh b rb sb pb)).run ops).side 0 k).phase = .synSent) :
    ((pair (.fresh a ra sa pa) (.fresh b rb sb pb)).run ops).Can Op.relays
        (fun m => (m.side 0 k).phase ≠ .synSent) ↔
      (((pair (.fresh a ra sa pa) (.fresh b rb sb pb)).run ops).side 1 k.swap).phase =
          .established ∨
        (((pair (.fresh a ra sa pa) (.fresh b rb sb pb)).run ops).side 1 k.swap).phase =
          .closing ∨
        ((pair (.fresh a ra sa pa) (.fresh b rb sb pb)).run ops).Welcomes 1 k.swap := by
  have hpeers : (pair (.fresh a ra sa pa) (.fresh b rb sb pb)).Peers 0 1 k _ _ :=
    peers_fresh hab hnear hfar
  have hl := ledger_dialling_fresh hab hnear hfar hconnect hp
  have hports := (ported_fresh 0 k).run hpeers.joins ops (fun hn => by
    rw [phase, hn] at hp
    cases hp)
  constructor
  · rintro ⟨more, hmore, hout⟩
    -- Without any of the three the dial stays as it is, however long the traffic goes on.
    refine Classical.byContradiction fun hn => hout ?_
    obtain ⟨hest, hn⟩ := not_or.1 hn
    obtain ⟨hcl, hn⟩ := not_or.1 hn
    have hdial := hpeers.joins.swap.not_dialling
      (fun _ ho => ne_connect_of_sublist hconnect (by decide) ho)
      (show ({} : Side).phase ≠ .synSent by decide)
    have hstay := unanswered_fresh
      (P := fun p => p ≠ .established ∧ p ≠ .closing ∧ p ≠ .synSent) hab hnear hfar hconnect hp
      (fun _ => id) (fun _ => by decide) ⟨hest, hcl, hdial⟩ hn fun op ho => Op.relaysOrReads_of_relays
        (hmore op ho)
    rw [run_append] at hstay
    exact hstay.1
  · have hpeers' := hpeers.run ops
    have hopens : ((pair (.fresh a ra sa pa) (.fresh b rb sb pb)).run ops).Can Op.relays
        (fun m => (m.side 0 k).phase = .established) →
        ((pair (.fresh a ra sa pa) (.fresh b rb sb pb)).run ops).Can Op.relays
          (fun m => (m.side 0 k).phase ≠ .synSent) :=
      fun h => h.trans fun m hm => .now (by rw [hm]; decide)
    rintro (hest | hcl | ⟨x, hk, hpair, hx | hx⟩) <;> refine hopens ?_
    · exact hpeers'.opens_of_listener hl hp ⟨hports.2, hports.1, Nat.zero_le _⟩ (.inl hest)
    · exact hpeers'.opens_of_listener hl hp ⟨hports.2, hports.1, Nat.zero_le _⟩ (.inr hcl)
    · exact hpeers'.opens_of_carries hp hk hpair hx
    · obtain ⟨s, -, -, hempty, -⟩ := hl.replies x hx
      refine hpeers'.opens_of_replies hp hk ?_ hx
      exact Segment.fits_of_pair hpair hports.symm (by simp [hempty])

def lostAnswer : List Op :=
  [.call 0 (.connect 2 7), .flush 0, .deliver 0, .call 1 (.accept 7), .flush 1, .lose 0]

theorem dial_answerable_lostAnswer :
    (((pair (.fresh 1 4 4 4) (.fresh 2 4 4 4)).run lostAnswer).side 0 ⟨⟨2, 7⟩, ⟨1, 0⟩⟩).phase =
        .synSent ∧
      ((pair (.fresh 1 4 4 4) (.fresh 2 4 4 4)).run lostAnswer).Can Op.relays
        fun m => (m.side 0 ⟨⟨2, 7⟩, ⟨1, 0⟩⟩).phase ≠ .synSent :=
  ⟨by decide +kernel, (dial_answerable (by decide) 4 4 4 4 4 4 7 lostAnswer ⟨⟨2, 7⟩, ⟨1, 0⟩⟩ rfl rfl
    (by decide) (by decide +kernel)).2 (.inl (by decide +kernel))⟩

def hastyClose : List Op :=
  [.call 0 (.connect 2 7), .flush 0, .deliver 0, .call 1 (.accept 7),
    .call 1 (.write ⟨⟨1, 0⟩, ⟨2, 7⟩⟩ [104]), .flush 1, .lose 0, .lose 0,
    .call 1 (.close ⟨⟨1, 0⟩, ⟨2, 7⟩⟩)]

theorem not_welcomes_hastyClose :
    ¬((pair (.fresh 1 4 4 4) (.fresh 2 4 4 4)).run hastyClose).Welcomes 1 ⟨⟨1, 0⟩, ⟨2, 7⟩⟩ := by
  have hwire : ((pair (.fresh 1 4 4 4) (.fresh 2 4 4 4)).run hastyClose).wire = [] := by
    decide +kernel
  have hreplies : (((pair (.fresh 1 4 4 4) (.fresh 2 4 4 4)).run hastyClose).side 1
      ⟨⟨1, 0⟩, ⟨2, 7⟩⟩).replies = [] := by decide +kernel
  rintro ⟨x, -, -, ⟨f, hf, -⟩ | hx⟩
  · rw [hwire] at hf
    cases hf
  · rw [hreplies] at hx
    cases hx

theorem dial_unanswered_hastyClose :
    (pair (.fresh 1 4 4 4) (.fresh 2 4 4 4)).accepts 1 ⟨⟨1, 0⟩, ⟨2, 7⟩⟩ hastyClose = 1 ∧
      (((pair (.fresh 1 4 4 4) (.fresh 2 4 4 4)).run hastyClose).side 1 ⟨⟨1, 0⟩, ⟨2, 7⟩⟩).phase =
        .stopSent ∧
      (((pair (.fresh 1 4 4 4) (.fresh 2 4 4 4)).run hastyClose).side 0 ⟨⟨2, 7⟩, ⟨1, 0⟩⟩).phase =
        .synSent ∧
      ¬((pair (.fresh 1 4 4 4) (.fresh 2 4 4 4)).run hastyClose).Can Op.relays
        fun m => (m.side 0 ⟨⟨2, 7⟩, ⟨1, 0⟩⟩).phase ≠ .synSent := by
  refine ⟨by decide +kernel, by decide +kernel, by decide +kernel, ?_⟩
  rintro ⟨more, hmore, hout⟩
  have hstay := unanswered_fresh (P := (· = .stopSent)) (show (1 : HostId) ≠ 2 by decide)
    (k := ⟨⟨2, 7⟩, ⟨1, 0⟩⟩) (p := 7) rfl rfl (by decide) (by decide +kernel) (fun _ hp => by simp [hp])
    (fun hp => by cases hp) (by decide +kernel) not_welcomes_hastyClose
    fun op ho => Op.relaysOrReads_of_relays (hmore op ho)
  rw [run_append] at hstay
  exact hout hstay.1

end Network

end ReliableStream
