import ReliableStream.Proofs.Accepts
import ReliableStream.Proofs.Agreement
import ReliableStream.Proofs.Dialling
import ReliableStream.Proofs.Round

namespace ReliableStream

open Side

theorem Phase.open_of_live {p : Phase} (h : p.live = true) : p ≠ .closed := by
  rintro rfl
  cases h

namespace Side

variable {cfg : Settings} {k : SocketPair} {op : Station.Op} {r : Station.Reply} {e e' : Side}

theorem Moves.of_begun {p p' : Phase} (h : Moves k op r p p') (hp : p.begun) :
    p' = .closed ∨ p'.begun := by
  cases h with
  | stay => exact .inr hp
  | shut => exact .inl rfl
  | knocked => exact absurd rfl hp.1
  | accepted => exact absurd rfl hp.2
  | opened | halted | stopped | finished => exact .inr ⟨by simp, by simp⟩

end Side

/-- The far end has stopped receiving at an STP of the near end, which it has taken. -/
def Link.Halted (log : List Segment) (v : Link) : Prop :=
  v.far.phase = .stopReceived →
    ∃ s ∈ log, s.kind? = some .stp ∧ s.seq.toNat < v.far.taken

namespace Flow

variable {k : SocketPair} {log got : List Segment} {v v' : Link} {op : Station.Op}
  {r : Station.Reply} {ev : Link.Event}

theorem halted_far (h : Flow k log got v) (hv : v.Halted log)
    (hst : Link.Step k (.far op r) v v')
    (hstay : v.far.phase ≠ .closed → v'.far.phase ≠ .closed) (hlen : log.length < UInt32.size) :
    v'.Halted log := by
  intro hp'
  by_cases hd : ∃ ticket, r = .dialled (.ok ticket)
  · obtain ⟨ticket, hr⟩ := hd
    cases hst with
    | far hside =>
      rcases hside.of_dialled hr with he | he | ⟨-, -, he⟩
      · rw [he] at hp' ⊢
        exact hv hp'
      · rw [he] at hp'
        cases hp'
      · rw [he] at hp'
        cases hp'
  · have hnext := h.far_next hst (fun ticket hr => hd ⟨ticket, hr⟩) hstay hlen
    cases hst with
    | far hside _ harr =>
      by_cases hp : v.far.phase = .stopReceived
      · obtain ⟨s, hs, hk, hlt⟩ := hv hp
        exact ⟨s, hs, hk, Nat.lt_of_lt_of_le hlt hnext.taken⟩
      · obtain ⟨x, hx, hk, he⟩ := hside.entered hp hp'
        have hxl := h.out x (harr x hx.1 hx.2) (by simp [Segment.isReply, hk, Kind.isReply])
        have hlt := h.isLog.seq_lt hxl
        refine ⟨x, hxl, hk, ?_⟩
        rw [taken, he, UInt32.toNat_add]
        rw [Nat.mod_eq_of_lt (by show x.seq.toNat + 1 < UInt32.size; omega)]
        exact Nat.lt_succ_self _

theorem halted_step (h : Flow k log got v) (hv : v.Halted log) (hst : Link.Step k ev v v')
    (hstay : v.far.phase ≠ .closed → v'.far.phase ≠ .closed) (hlen : log.length < UInt32.size) :
    v'.Halted (log ++ v.near.queuedSince v'.near) := by
  have same (hfar : v'.far = v.far) : v'.Halted (log ++ v.near.queuedSince v'.near) := by
    intro hp
    rw [hfar] at hp ⊢
    exact (hv hp).imp fun s hs => ⟨List.mem_append_left _ hs.1, hs.2⟩
  cases ev with
  | near =>
    cases hst with
    | near _ hfar => exact same hfar
  | far =>
    have hv' := h.halted_far hv hst hstay hlen
    cases hst with
    | far _ hnear =>
      rw [hnear, queuedSince_self, List.append_nil]
      exact hv'
  | none =>
    cases hst with
    | none _ hfar => exact same hfar

end Flow

structure Link.Paired (v : Link) : Prop where
  near : v.near.phase = .closed ∨ v.near.phase = .synSent ∨
    v.near.phase.begun ∧ v.far.phase.begun
  agreed : v.Agreed v.far.phase.begun

theorem Ledger.exists_least {k : SocketPair} {log : List Segment} {done : Segment → Prop} {v : Link}
    {limit : Nat} {x : Segment} (h : Ledger k log done v) (hlimit : 0 < limit)
    (hx : v.near.win.has x) : ∃ s, v.near.win.has s ∧ s ∈ v.near.round limit ∧
      (v.near.win.advance limit).unacked.get? s.seq = some s ∧
      ∀ t, v.near.win.has t → s.seq ≤ t.seq := by
  have hasc := h.isLog.ascending.sublist h.holds.pending.sublist
  have hseq : ∀ i s, v.near.win.unacked.get? i = some s → s.seq = i :=
    fun i s hi => (h.holds.unacked i s hi).2
  cases hu : v.near.win.unacked.values with
  | cons s rest =>
    obtain ⟨i, hi⟩ := SortedMap.mem_values_iff.1 (show s ∈ v.near.win.unacked.values by simp [hu])
    have hfirst : ∀ t ∈ v.near.win.pending, s.seq < t.seq := fun t ht =>
      h.lt_of_posted (h.posted_resent (mem_resent hi)) ht
    refine ⟨s, .inr ⟨i, hi⟩, List.mem_append_left _ (mem_resent hi), ?_, ?_⟩
    · refine (Window.get?_admitFrom_of_ne fun t ht he => ?_).trans (hseq i s hi ▸ hi)
      exact UInt32.ne_of_lt (hfirst t ht) he.symm
    · rintro t (ht | ⟨i', hi'⟩)
      · exact UInt32.le_of_lt (hfirst t ht)
      · have hall := Side.ascending_unacked hseq
        have ht : t ∈ v.near.win.unacked.values := SortedMap.mem_values_iff.2 ⟨i', hi'⟩
        rw [hu] at hall ht
        rcases List.mem_cons.1 ht with rfl | ht
        · exact UInt32.le_refl _
        · exact UInt32.le_of_lt ((List.pairwise_cons.1 hall).1 t ht)
  | nil =>
    have hnone : ∀ i s, v.near.win.unacked.get? i ≠ some s := fun i s hi => by
      have := SortedMap.mem_values_iff.2 ⟨i, hi⟩
      rw [hu] at this
      cases this
    cases hp : v.near.win.pending with
    | nil =>
      rcases hx with hx | ⟨i, hi⟩
      · rw [hp] at hx
        cases hx
      · exact absurd hi (hnone i x)
    | cons s rest =>
      have hadm := Window.head_admitted hlimit hnone hp
      refine ⟨s, .inl (by simp [hp]), List.mem_append_right _ hadm,
        Window.get?_admitFrom_of_mem h.distinct hadm, ?_⟩
      rintro t (ht | ⟨i, hi⟩)
      · rw [hp] at ht hasc
        rcases List.mem_cons.1 ht with rfl | ht
        · exact UInt32.le_refl _
        · exact UInt32.le_of_lt ((List.pairwise_cons.1 hasc).1 t ht)
      · exact absurd hi (hnone i t)

namespace Network

variable {n : Network} {i j : Nat} {k : SocketPair} {op : Op} {ops : List Op} {cfg cfg' : Settings}
  {log : List Segment}

theorem Joins.paired_step (h : n.Joins i j k) (hpas : n.Passive j k.swap)
    (hv : (n.link i j k).Paired) (hop : ∀ farHost farPort, op ≠ .call j (.connect farHost farPort))
    (hlast : (n.side j k.swap).phase ≠ .closed →
      ((n.step op).1.side j k.swap).phase ≠ .closed) :
    ((n.step op).1.link i j k).Paired := by
  obtain ⟨ev, hev, hst⟩ := h.link_step op
  have hd : ∀ o r ticket, ev = .far o r → r ≠ .dialled (.ok ticket) := by
    rintro o r ticket rfl
    cases hev with
    | far ha => exact ha.not_dialled hop ticket
  have hstays : (n.link i j k).far.phase.begun → ((n.step op).1.link i j k).far.phase.begun := by
    intro hb
    cases hst with
    | near _ hsame => exact hsame ▸ hb
    | far hside =>
      exact ((hside.moves fun ticket => hd _ _ ticket rfl).of_begun hb).resolve_left (hlast hb.1)
    | none _ hsame => exact hsame ▸ hb
  refine ⟨?_, (hv.agreed.step (h.tidy.side_sound j k.swap) hst hd).mono ?_⟩
  · cases hst with
    | near hside hfar harr =>
      rcases hside.moves_or_dials with hmoves | ⟨-, hp'⟩
      · rcases hv.near with hp | hp | ⟨hb, hb'⟩
        · rw [hp] at hmoves
          rcases hmoves.from_closed with hp' | ⟨-, x, hx, hk⟩
          · exact .inl hp'
          · obtain ⟨hcar, hpair⟩ := harr x hx.1 hx.2
            exact absurd hk (hpas.wire x hcar hpair)
        · rw [hp] at hmoves
          rcases hmoves.from_synSent with hp' | hp' | ⟨hp', x, hx, hk⟩
          · exact .inr (.inl hp')
          · exact .inl hp'
          · exact .inr (.inr ⟨by simp [hp', Phase.begun],
              hstays (hv.agreed.back x (harr x hx.1 hx.2) hk)⟩)
        · exact (hmoves.of_begun hb).imp id fun hb => .inr ⟨hb, hstays hb'⟩
      · exact .inr (.inl hp')
    | far _ hsame =>
      rw [hsame]
      exact hv.near.imp id (Or.imp id (And.imp id hstays))
    | none hsame =>
      rw [hsame]
      exact hv.near.imp id (Or.imp id (And.imp id hstays))
  · rintro (hb | ⟨o, rfl⟩)
    · exact hstays hb
    · cases hst with
      | far hside =>
        rw [(hside.phase_of_accepted rfl).2]
        exact ⟨by simp, by simp⟩

theorem Joins.paired_run (h : n.Joins i j k) (hpas : n.Passive j k.swap)
    (hv : (n.link i j k).Paired)
    (hops : ∀ op ∈ ops, ∀ farHost farPort, op ≠ .call j (.connect farHost farPort))
    (hlast : n.lasts j k.swap ops) : ((n.run ops).link i j k).Paired := by
  induction ops generalizing n with
  | nil => exact hv
  | cons op rest ih =>
    obtain ⟨hop, hrest⟩ := List.forall_mem_cons.1 hops
    exact ih (h.step op) (hpas.step h.swap hop) (h.paired_step hpas hv hop hlast.1) hrest hlast.2

structure Stopped (n : Network) (i j : Nat) (k : SocketPair) (cfg cfg' : Settings)
    (log : List Segment) : Prop where
  peers : n.Peers i j k cfg cfg'
  ledger : ∃ done, Ledger k log done (n.link i j k)
  flow : ∃ got, Flow k log got (n.link i j k)
  halted : (n.link i j k).Halted log
  short : log.length < UInt32.size
  ports : validPort k.near.port = true ∧ validPort k.far.port = true
  near : (n.side i k).phase = .stopSent
  far : (n.side j k.swap).phase ≠ .closed

structure Emptying (n : Network) (i j : Nat) (k : SocketPair) (cfg cfg' : Settings)
    (log : List Segment) : Prop extends n.Stopped i j k cfg cfg' log where
  live : (n.side j k.swap).phase.live = true

theorem Stopped.step (h : n.Stopped i j k cfg cfg' log) (op : Op) (hop : op.isConnect = false)
    (hnear : ((n.step op).1.side i k).phase = .stopSent)
    (hfar : ((n.step op).1.side j k.swap).phase ≠ .closed)
    (hq : (n.side i k).queuedSince ((n.step op).1.side i k) = []) :
    (n.step op).1.Stopped i j k cfg cfg' log := by
  obtain ⟨done, hl⟩ := h.ledger
  obtain ⟨got, hf⟩ := h.flow
  have hj := h.peers.joins
  have hlog : log ++ (n.link i j k).near.queuedSince ((n.step op).1.link i j k).near = log := by
    rw [show (n.link i j k).near.queuedSince ((n.step op).1.link i j k).near = [] from hq,
      List.append_nil]
  obtain ⟨ev, hev, hst⟩ := hj.link_step op
  have hl' := hj.ledger_step hl hop (fun _ => by simp [hnear]) (by simpa [hq] using h.short)
  have hv' := hf.halted_step h.halted hst (fun _ => hfar) h.short
  rw [hq, List.append_nil] at hl'
  rw [hlog] at hv'
  refine ⟨h.peers.step op, ⟨_, hl'⟩, ?_, hv', h.short, h.ports, hnear, hfar⟩
  cases ev with
  | near o r =>
    have hf' := hf.near_step (hj.tidy.side_sound i k) hst (hev.near_not_dialled hop)
      (fun hc => by cases hc.symm.trans h.near) (by rw [hlog]; exact h.short)
    rw [hlog] at hf'
    exact ⟨got, hf'⟩
  | far o r =>
    exact ⟨_, hf.far_step (hj.tidy.side_sound j k.swap) hst (hev.far_not_dialled hop) (fun _ => hfar)
      h.short⟩
  | none => exact ⟨got, hf.none_step hst⟩

namespace Emptying

theorem step (h : n.Emptying i j k cfg cfg' log) (op : Op) (hop : op.isConnect = false)
    (hnear : ((n.step op).1.side i k).phase = .stopSent)
    (hfar : ((n.step op).1.side j k.swap).phase.live = true)
    (hq : (n.side i k).queuedSince ((n.step op).1.side i k) = []) :
    (n.step op).1.Emptying i j k cfg cfg' log :=
  ⟨h.toStopped.step op hop hnear (Phase.open_of_live hfar) hq, hfar⟩

theorem least (h : n.Emptying i j k cfg cfg' log) : ∃ s, (n.side i k).win.has s ∧
    s ∈ (n.side i k).round cfg.limit ∧
    ((n.side i k).win.advance cfg.limit).unacked.get? s.seq = some s ∧
    s.seq ≤ (n.side j k.swap).conn.expected ∧
    ∀ t, (n.side i k).win.has t → s.seq ≤ t.seq := by
  obtain ⟨done, hl⟩ := h.ledger
  obtain ⟨got, hf⟩ := h.flow
  obtain ⟨x, hx⟩ := hl.shape.busy h.near
  obtain ⟨s, hs, hround, hu, hleast⟩ := hl.exists_least h.peers.limit_pos hx
  refine ⟨s, hs, hround, hu, UInt32.not_lt.1 fun hlt => ?_, hleast⟩
  -- The near end would hold the segment that the far end expects.
  have hlt' := UInt32.lt_iff_toNat_lt.1 hlt
  have hn := Nat.lt_trans hlt' (hl.isLog.seq_lt (hl.holds.mem_of_has hs))
  have hseq := hl.isLog.numbered _ _ (List.getElem?_eq_getElem hn)
  have hhas : (n.side i k).win.has log[(n.side j k.swap).conn.expected.toNat] := by
    refine ((hf.holds (by simp [link, h.near])).covers _ (List.getElem_mem hn) ?_).imp id (⟨_, ·⟩)
    exact Nat.le_of_eq hseq.symm
  have hle := UInt32.le_iff_toNat_le.1 (hleast _ hhas)
  rw [hseq] at hle
  exact Nat.not_lt.2 hle hlt'

theorem reads (h : n.Emptying i j k cfg cfg' log) : n.Can Op.relaysOrReads fun m =>
    m.Emptying i j k cfg cfg' log ∧ m.side i k = n.side i k ∧
      (m.side j k.swap).conn.unread = [] := by
  generalize hu : (n.side j k.swap).conn.unread = unread
  induction unread generalizing n with
  | nil => exact .now ⟨h, rfl, hu⟩
  | cons x rest ih =>
    obtain ⟨c, hc, hcp⟩ := exists_entry h.far
    rw [conn_of_entry hc] at hu
    obtain ⟨hfar, hnear⟩ := h.peers.swap.read hc hu
    rw [SocketPair.swap_swap] at hnear
    rw [swept_of_open (by rw [phase_enter]; exact hcp ▸ h.far)] at hfar
    have hnext := h.step (.call j (.read k.swap (List.replicate x.payload.length 0))) rfl
      (by rw [hnear]; exact h.near) (by rw [hfar, phase_enter]; exact hcp ▸ h.live)
      (by rw [hnear, queuedSince_self])
    refine .step (.call j (.read k.swap (List.replicate x.payload.length 0))) rfl ?_
    exact (ih hnext (by rw [hfar]; rfl)).trans fun m hm => .now ⟨hm.1, hm.2.1.trans hnear, hm.2.2⟩

theorem sends (h : n.Emptying i j k cfg cfg' log) : n.Can Op.relaysOrReads fun m =>
    m.Emptying i j k cfg cfg' log ∧ (m.side i k).win = (n.side i k).win.advance cfg.limit ∧
      m.side j k.swap = n.side j k.swap ∧ ∀ s ∈ (n.side i k).round cfg.limit, m.Carries s := by
  obtain ⟨done, hl⟩ := h.ledger
  obtain ⟨hnear₁, hfar₁⟩ := h.peers.tick
  rw [ticked_open (.inr (.inr h.near))] at hnear₁
  have h₁ := h.step (.tick i) rfl (by rw [hnear₁]; exact h.near)
    (by rw [hfar₁]; exact h.live) (by rw [hnear₁]; exact queuedSince_of_eq rfl)
  obtain ⟨hnear₂, hfar₂⟩ := h₁.peers.flush
  have hwin : (((n.step (.tick i)).1.step (.flush i)).1.side i k).win =
      (n.side i k).win.advance cfg.limit := by
    rw [hnear₂, win_sent, hnear₁]
    rfl
  have h₂ := h₁.step (.flush i) rfl (by rw [hnear₂]; exact h₁.near)
    (by rw [hfar₂]; exact h₁.live) (queuedSince_of_suffix (by
      rw [hwin, hnear₁]
      exact ⟨_, Window.admitted_append cfg.limit _⟩))
  refine .step (.tick i) rfl (.step (.flush i) rfl (.now ⟨h₂, hwin, hfar₂.trans hfar₁,
    fun s hs => h₁.peers.carries_flush (.inr ⟨?_, .inr ?_⟩)⟩))
  · have hlog := hl.round_subset hs
    exact Segment.fits_of_pair (hl.isLog.pair s hlog) h.ports (hl.shape.short s hlog)
  · rw [hnear₁]
    exact List.mem_append.1 hs

theorem answered (h : n.Emptying i j k cfg cfg' log) {s : Segment} (hs : (n.side i k).win.has s)
    (hle : s.seq ≤ (n.side j k.swap).conn.expected)
    (hroom : (n.side j k.swap).conn.unread.length < cfg'.room) (hx : n.Carries s) :
    n.Can Op.relaysOrReads fun m => m.Emptying i j k cfg cfg' log ∧ m.side i k = n.side i k ∧
      m.Carries (s.answer .ack) := by
  obtain ⟨done, hl⟩ := h.ledger
  have hmem := hl.holds.mem_of_has hs
  have hpair := hl.isLog.pair s hmem
  obtain ⟨kind, hk⟩ := hl.shape.known s hmem
  have hkind := hl.shape.data_or_stp hl.isLog hl.holds (by simp [link, h.near])
    (by simp [link, h.near]) hs hk
  obtain ⟨c, hc, hcp⟩ := exists_entry h.far
  rw [conn_of_entry hc] at hle hroom
  obtain ⟨m, hh, hnear₁⟩ := h.peers.deliver hx hpair hk
  -- An STP that halts the far end comes after all that is held.
  have hstp : kind = .stp → c.phase = .stopReceived → s.seq < c.expected := by
    rintro rfl hp
    obtain ⟨t, ht, htk, hlt⟩ := h.halted (hcp.symm.trans hp)
    rw [taken, show (n.link i j k).far.conn = c from conn_of_entry hc] at hlt
    have hst : s.seq ≤ t.seq := ((hl.shape.stp t ht htk).2 s hmem).resolve_right (by simp [hk])
    rw [UInt32.le_iff_toNat_le] at hst
    exact UInt32.lt_iff_toNat_lt.2 (by omega)
  obtain ⟨hfar₁, hreply⟩ := hh.answered hc (hcp ▸ h.live) hkind hle (fun _ => hroom) hstp
  have h₁ := h.step (.deliver m) rfl (by rw [hnear₁]; exact h.near) hfar₁
    (by rw [hnear₁, queuedSince_self])
  obtain ⟨hfar₂, hnear₂⟩ := h₁.peers.swap.flush
  rw [SocketPair.swap_swap] at hnear₂
  have h₂ := h₁.step (.flush j) rfl (by rw [hnear₂]; exact h₁.near)
    (by rw [hfar₂]; exact h₁.live) (by rw [hnear₂, queuedSince_self])
  refine .step (.deliver m) rfl (.step (.flush j) rfl (.now ⟨h₂, hnear₂.trans hnear₁, ?_⟩))
  refine h₁.peers.swap.carries_flush (.inr ⟨Segment.fits_answer ?_ _, .inl hreply⟩)
  exact Segment.fits_of_pair hpair h.ports (hl.shape.short s hmem)

theorem acknowledged (h : n.Emptying i j k cfg cfg' log) {x : Segment} (hk : x.kind? = some .ack)
    (hpair : x.senderPair = k.swap) (hx : n.Carries x) : n.Can Op.relaysOrReads fun m =>
      (m.side i k).phase = .closing ∨ m.Emptying i j k cfg cfg' log ∧
        (m.side i k).win = ((n.side i k).acked x.seq).win := by
  obtain ⟨m, hh, hfar⟩ := h.peers.swap.deliver hx hpair hk
  rw [SocketPair.swap_swap] at hh
  refine .step (.deliver m) rfl (.now ?_)
  refine (hh.ack_stopSent h.near).symm.imp And.left fun ⟨hp, hw, _⟩ => ⟨?_, hw⟩
  exact h.step _ rfl hp (by rw [hfar]; exact h.live) (queuedSince_of_eq (by rw [hw, win_acked]))

theorem round (h : n.Emptying i j k cfg cfg' log) (hroom : 0 < cfg'.room) :
    n.Can Op.relaysOrReads fun m => (m.side i k).phase = .closing ∨
      m.Emptying i j k cfg cfg' log ∧
        ∃ s, (n.side i k).win.has s ∧ ∀ t, (m.side i k).win.has t → s.seq < t.seq := by
  -- The far application reads all that is there, which makes room.
  refine h.reads.trans fun n₁ ⟨h₁, hnear₁, hread⟩ => ?_
  obtain ⟨s, hs, hround, hu, hle, hleast⟩ := h₁.least
  -- The near end sends the first segment that it holds.
  refine h₁.sends.trans fun n₂ ⟨h₂, hwin₂, hfar₂, hcarries⟩ => ?_
  rw [← hwin₂] at hu
  -- The far end takes it, or has taken it before, and answers.
  have hroom : (n₂.side j k.swap).conn.unread.length < cfg'.room := by
    rw [hfar₂, hread]
    exact hroom
  refine (h₂.answered (.inr ⟨_, hu⟩) (hfar₂ ▸ hle) hroom (hcarries s hround)).trans
    fun n₃ ⟨h₃, hnear₃, hack⟩ => ?_
  -- The answer takes it off the window, and what is left comes after it.
  obtain ⟨done, hl⟩ := h₃.ledger
  rw [← hnear₃] at hu hwin₂
  have hmem := (hl.holds.unacked _ s hu).1
  refine (h₃.acknowledged (Segment.kind?_answer _ _) ?_ hack).trans fun n₄ hm => .now ?_
  · rw [← hl.isLog.pair s hmem]
    rfl
  refine hm.imp id fun ⟨h₄, hwin₄⟩ => ⟨h₄, s, hnear₁ ▸ hs, fun t ht => ?_⟩
  rw [hwin₄, win_acked] at ht
  have hhas := Window.has_erase ht
  have htmem := hl.holds.mem_of_has hhas
  have hst : s.seq ≤ t.seq := hleast t (Window.has_advance (hwin₂ ▸ hhas))
  refine UInt32.lt_of_le_of_ne hst fun he => ?_
  obtain rfl := hl.isLog.eq_of_seq hmem htmem he
  rcases ht with ht | ⟨i', hi'⟩
  · exact hl.unsent _ _ hu ht
  · have hne : s.seq ≠ i' := fun he => by
      rw [← he] at hi'
      simp [Segment.answer] at hi'
    rw [SortedMap.get?_erase_of_ne _ (by exact hne)] at hi'
    exact hne (hl.holds.unacked _ s hi').2

theorem closes (h : n.Emptying i j k cfg cfg' log) (hroom : 0 < cfg'.room) :
    n.Can Op.relaysOrReads fun m => (m.side i k).phase = .closing := by
  -- `b` bounds the distance from what is held to the end of the log, and a round lowers it.
  have key (b : Nat) (n : Network) (h : n.Emptying i j k cfg cfg' log)
      (hb : ∀ s, (n.side i k).win.has s → log.length ≤ s.seq.toNat + b) :
      n.Can Op.relaysOrReads fun m => (m.side i k).phase = .closing := by
    induction b generalizing n with
    | zero =>
      obtain ⟨s, hs, -⟩ := h.least
      obtain ⟨done, hl⟩ := h.ledger
      exact absurd (hb s hs) (Nat.not_le.2 (hl.isLog.seq_lt (hl.holds.mem_of_has hs)))
    | succ b ih =>
      refine (h.round hroom).trans fun m hm => hm.elim (fun hp => .now hp) fun ⟨h', s, hs, hafter⟩ => ?_
      refine ih m h' fun t ht => ?_
      have hlt := UInt32.lt_iff_toNat_lt.1 (hafter t ht)
      have := hb s hs
      omega
  exact key log.length n h fun s _ => Nat.le_add_left _ _

end Emptying

theorem Stopped.opens (h : n.Stopped i j k cfg cfg' log) (hp : (n.side j k.swap).phase = .synSent)
    (hw : n.Welcomes i k) (hfits : ∀ x ∈ (n.side i k).replies, x.Fits) :
    n.Can Op.relaysOrReads fun m => m.Emptying i j k cfg cfg' log := by
  have carried (n : Network) (h : n.Stopped i j k cfg cfg' log)
      (hp : (n.side j k.swap).phase = .synSent) {x : Segment} (hk : x.kind? = some .synAck)
      (hpair : x.senderPair = k) (hx : n.Carries x) :
      n.Can Op.relaysOrReads fun m => m.Emptying i j k cfg cfg' log := by
    obtain ⟨m, hh, hnear⟩ := h.peers.deliver hx hpair hk
    have hest := hh.synAck_synSent hp
    refine .step (.deliver m) rfl (.now ⟨h.step _ rfl (by rw [hnear]; exact h.near) ?_ ?_, ?_⟩)
    · simp [hest]
    · rw [hnear, queuedSince_self]
    · rw [hest]
      rfl
  obtain ⟨x, hk, hpair, hx | hx⟩ := hw
  · exact carried n h hp hk hpair hx
  · obtain ⟨hnear, hfar⟩ := h.peers.flush
    refine .step (.flush i) rfl (carried _ (h.step _ rfl ?_ ?_ ?_) ?_ hk hpair ?_)
    · rw [hnear]
      exact h.near
    · rw [hfar]
      exact h.far
    · refine queuedSince_of_suffix ?_
      rw [hnear, win_sent]
      exact ⟨_, Window.admitted_append cfg.limit _⟩
    · rw [hfar]
      exact hp
    · exact h.peers.carries_flush (.inr ⟨hfits x hx, .inl hx⟩)

end Network

end ReliableStream
