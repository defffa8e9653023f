import ReliableStream.Proofs.Accepts

namespace ReliableStream

open Side

theorem Window.head_admitted {w : Window} {limit : Nat} {s : Segment} {rest : List Segment}
    (hlimit : 0 < limit) (hu : ∀ i x, w.unacked.get? i ≠ some x) (hp : w.pending = s :: rest) :
    s ∈ w.admitted limit := by
  have hempty : w.unacked = {} :=
    SortedMap.ext_get? fun i => Option.eq_none_iff_forall_ne_some.2 fun x => hu i x
  have hroom : ({} : SortedMap SequenceNumber Segment).size < limit := hlimit
  rw [admitted, hp, hempty, admitFrom, if_pos hroom]
  exact List.mem_cons_self

namespace Side

variable {room : Nat} {k : SocketPair} {s : Segment} {kind : Kind} {e e' : Side} {c : Connection}

theorem Hears.answered (h : Hears room k s kind e e') (hc : e.entry = some c)
    (hlive : c.phase.live = true) (hk : kind = .data ∨ kind = .stp) (hle : s.seq ≤ c.expected)
    (hroom : c.phase.keeps → c.unread.length < room)
    (hstp : kind = .stp → c.phase = .stopReceived → s.seq < c.expected) :
    e'.phase.live = true ∧ s.answer .ack ∈ e'.replies := by
  have hconn {d : Connection} (hd : e.entry = some d) : d = c := Option.some.inj (hd.symm.trans hc)
  have hphase : e.phase = c.phase := phase_of_entry hc
  have last (l : List Segment) : s.answer .ack ∈ l ++ [s.answer .ack] :=
    List.mem_append_right _ List.mem_cons_self
  cases h with
  | noted hr => rcases hk with rfl | rfl <;> cases hr
  | opened | drained | ended | knocked | collided | greeted | repeated => simp at hk
  | strangeFin | finished | finishedAgain => simp at hk
  | strange _ hn => cases hn.symm.trans hc
  | stale _ hd =>
    obtain rfl := hconn hd
    refine ⟨hphase ▸ hlive, List.mem_append_right _ ?_⟩
    rcases hk with rfl | rfl <;> exact List.mem_cons_self
  | early _ hd _ hlt =>
    obtain rfl := hconn hd
    rw [UInt32.lt_iff_toNat_lt] at hlt
    rw [UInt32.le_iff_toNat_le] at hle
    omega
  | kept hd =>
    obtain rfl := hconn hd
    exact ⟨hlive, last _⟩
  | full hd hkeep _ hfull =>
    obtain rfl := hconn hd
    exact absurd (hroom hkeep) (Nat.not_lt.2 hfull)
  | discarded hd =>
    obtain rfl := hconn hd
    exact ⟨hlive, last _⟩
  | halted | crossed => exact ⟨rfl, last _⟩
  | misplaced _ hd hseq _ hnone =>
    rw [hconn hd] at hseq hnone
    have hnone := hnone {}
    rcases hk with rfl | rfl
    · cases hp : c.phase <;> simp_all [Phase.move?, Phase.live]
    · have hne : c.phase ≠ .stopReceived := fun hp => by
        have := hstp rfl hp
        rw [hseq] at this
        exact absurd this (UInt32.lt_irrefl _)
      cases hp : c.phase <;> simp_all [Phase.move?, Phase.live]

end Side

theorem Station.read_next (s : Station) {k : SocketPair} {c : Connection} {x : Segment}
    {rest : List Segment} (hc : s.host.table.get? k = some c) (hu : c.unread = x :: rest) :
    (s.read k (List.replicate x.payload.length 0)).1.host.side k =
      ((s.host.side k).enter { c with unread := rest }).swept := by
  simp only [read, Table.read, hc, hu, List.length_replicate, Nat.min_self, Nat.lt_irrefl, if_false]
  rw [Host.side, of_reap, of_put]
  rfl

theorem Station.connect_ports {s : Station} (hf : s.host.Filed) {farHost : HostId} {farPort : Port}
    {k : SocketPair} (h : (s.connect farHost farPort).1.host.side k ≠ s.host.side k) :
    validPort k.near.port = true ∧ validPort k.far.port = true := by
  unfold connect at h
  split at h
  · exact absurd rfl h
  rename_i hport
  cases hp : s.host.table.freePort? with
  | none => simp [hp] at h
  | some port =>
    simp only [hp] at h
    generalize hj : (⟨⟨farHost, farPort⟩, ⟨s.address, port⟩⟩ : SocketPair) = j at h
    obtain ⟨-, hr⟩ := s.host.apply_connect (k := j)
      (Table.get?_of_freePort hp (by rw [← hj]))
    rw [← Prod.eta ((s.host.await j).1.apply j .connect none {}), hr] at h
    have hconf : s.host.Confined j _ := Host.Confined.await.trans
      ((s.host.await j).1.confined_apply j .connect none {} (by simp))
    by_cases hk : j = k
    · rw [← hk, ← hj]
      exact ⟨Table.validPort_of_freePort hp, by simpa using hport⟩
    · exact absurd (hconf.others hf k hk) h

theorem Station.ports_of_enters {s : Station} (hf : s.host.Filed) {op : Op} {k : SocketPair}
    (ha : ∀ x, op.arrival? = some x → validPort x.dest.port = true ∧ validPort x.src.port = true)
    (hn : (s.host.side k).entry = none) (he : ((s.step op).1.host.side k).entry ≠ none) :
    validPort k.near.port = true ∧ validPort k.far.port = true := by
  rcases (s.step_side hf op k).enters hn he with ⟨⟨hx, rfl⟩, -⟩ | ⟨rfl, -⟩
  · exact ha _ hx
  · exact s.connect_ports hf fun hsame => he ((congrArg Side.entry hsame).trans hn)

namespace Network

variable {n : Network} {i j : Nat} {k : SocketPair} {op : Op} {ops : List Op} {cfg cfg' : Settings}

structure Peers (n : Network) (i j : Nat) (k : SocketPair) (cfg cfg' : Settings) : Prop where
  joins : n.Joins i j k
  near : ∃ s, n.stations[i]? = some s ∧ s.address = k.near.host ∧ s.host.settings = cfg
  far : ∃ s, n.stations[j]? = some s ∧ s.address = k.far.host ∧ s.host.settings = cfg'

theorem station_stays {s : Station} (hs : n.stations[i]? = some s) (op : Op) :
    ∃ s', (n.step op).1.stations[i]? = some s' ∧ s'.address = s.address ∧
      s'.host.settings = s.host.settings := by
  rcases n.step_station op i with ⟨o, -, hs'⟩ | ⟨-, hs'⟩
  · rw [hs] at hs'
    exact ⟨(s.step o).1, hs', s.address_step o, (s.step_steady o).settings⟩
  · exact ⟨s, hs'.trans hs, rfl, rfl⟩

namespace Peers

theorem swap (h : n.Peers i j k cfg cfg') : n.Peers j i k.swap cfg' cfg :=
  ⟨h.joins.swap, h.far, h.near⟩

theorem step (h : n.Peers i j k cfg cfg') (op : Op) : (n.step op).1.Peers i j k cfg cfg' := by
  obtain ⟨s, hs, ha, hc⟩ := h.near
  obtain ⟨t, ht, hb, hd⟩ := h.far
  obtain ⟨s', hs', ha', hc'⟩ := station_stays hs op
  obtain ⟨t', ht', hb', hd'⟩ := station_stays ht op
  exact ⟨h.joins.step op, ⟨s', hs', ha'.trans ha, hc'.trans hc⟩, ⟨t', ht', hb'.trans hb, hd'.trans hd⟩⟩

theorem run (h : n.Peers i j k cfg cfg') (ops : List Op) : (n.run ops).Peers i j k cfg cfg' := by
  induction ops generalizing n with
  | nil => exact h
  | cons op rest ih => exact ih (h.step op)

theorem limit_pos (h : n.Peers i j k cfg cfg') : 0 < cfg.limit := by
  obtain ⟨s, -, -, rfl⟩ := h.near
  exact s.host.outbox.limit_pos

theorem acts (h : n.Peers i j k cfg cfg') {o : Station.Op} (ha : n.Acts op i o) :
    ∃ s, n.stations[i]? = some s ∧ s.host.settings = cfg ∧ s.host.Filed ∧
      n.side i k = s.host.side k ∧ (n.step op).1.side i k = (s.step o).1.host.side k ∧
      (n.step op).1.side j k.swap = n.side j k.swap := by
  obtain ⟨s, hs, -, hc⟩ := h.near
  refine ⟨s, hs, hc, h.joins.tidy.filed i s hs, side_of_some hs, side_of_some (ha.step_station hs), ?_⟩
  rcases n.step_station op j with ⟨o', ha', -⟩ | ⟨-, hsame⟩
  · exact absurd (ha.unique ha') h.joins.apart
  · rw [side, hsame, side]

theorem tick (h : n.Peers i j k cfg cfg') :
    (n.step (.tick i)).1.side i k = (n.side i k).ticked cfg.patience ∧
      (n.step (.tick i)).1.side j k.swap = n.side j k.swap := by
  obtain ⟨s, -, rfl, hf, hbefore, hafter, hfar⟩ := h.acts (.tick i)
  exact ⟨by rw [hafter, hbefore]; exact s.host.tick_side hf k, hfar⟩

theorem flush (h : n.Peers i j k cfg cfg') :
    (n.step (.flush i)).1.side i k = (n.side i k).sent cfg.limit ∧
      (n.step (.flush i)).1.side j k.swap = n.side j k.swap := by
  obtain ⟨s, -, rfl, hf, hbefore, hafter, hfar⟩ := h.acts (.flush i)
  exact ⟨by rw [hafter, hbefore]; exact s.poll_side k, hfar⟩

theorem carries_flush (h : n.Peers i j k cfg cfg') {x : Segment} (hx : n.Carries x ∨ x.Fits ∧
    (x ∈ (n.side i k).replies ∨ x ∈ (n.side i k).resends ∨
      x ∈ (n.side i k).win.admitted cfg.limit)) : (n.step (.flush i)).1.Carries x := by
  obtain ⟨s, hs, rfl, -, hside, -, -⟩ := h.acts (.flush i)
  have hwire : (n.step (.flush i)).1.wire =
      n.wire ++ made (frames s.host.outbox.outgoing) := by
    simp only [Network.step, Network.flush, hs]
    rfl
  rcases hx with ⟨f, hf, hx⟩ | ⟨hfits, hx⟩
  · exact ⟨f, by rw [hwire]; exact List.mem_append_left _ hf, hx⟩
  · obtain ⟨f, hf⟩ := Segment.toFrame_of_fits hfits
    have hout : x ∈ s.host.outbox.outgoing := by
      rw [hside] at hx
      exact Outbox.mem_outgoing_of (k := k) (hx.imp (fun hx => (List.mem_filter.1 hx).1)
        (Or.imp (fun hx => (List.mem_filter.1 hx).1) id))
    refine ⟨f, ?_, Segment.ofFrame_toFrame hf⟩
    rw [hwire]
    refine List.mem_append_right _ (List.mem_filterMap.2 ⟨.ok f, ?_, rfl⟩)
    exact List.mem_map.2 ⟨x, (inSendingOrder_perm _).mem_iff.2 hout, hf⟩

theorem stationAt_far (h : n.Peers i j k cfg cfg') : n.stationAt? k.far.host = some j := by
  obtain ⟨t, ht, hb, -⟩ := h.far
  cases hm : n.stationAt? k.far.host with
  | none =>
    have := List.findIdx?_eq_none_iff.1 hm t (List.mem_of_getElem? ht)
    simp [hb] at this
  | some m =>
    obtain ⟨s, hs, ha⟩ := Acts.station (f := ⟨k.far.host, 0, [], by decide⟩) hm
    rw [h.joins.far m s hs ha]

theorem deliver (h : n.Peers i j k cfg cfg') {x : Segment} {kind : Kind} (hx : n.Carries x)
    (hk : x.senderPair = k) (hkind : x.kind? = some kind) : ∃ m,
      Hears cfg'.room k.swap x kind (n.side j k.swap) ((n.step (.deliver m)).1.side j k.swap) ∧
        (n.step (.deliver m)).1.side i k = n.side i k := by
  obtain ⟨f, hf, hxf⟩ := hx
  obtain ⟨m, hm⟩ := List.mem_iff_getElem?.1 hf
  have hdest : f.dest = k.far.host := (Segment.dest_of_ofFrame hxf).symm.trans (by rw [← hk]; rfl)
  obtain ⟨t, -, rfl, -, hbefore, hafter, hnear⟩ :=
    h.swap.acts (.deliver hm (by rw [hdest]; exact h.stationAt_far))
  refine ⟨m, ?_, hnear⟩
  have hreceive : (t.step (.receiveFrame f)).1.host = t.host.receiveKind x kind := by
    simp [Station.step, Station.receiveFrame, Host.receiveFrame, hxf, Host.receive, hkind]
  have hhears := t.host.receiveKind_side x kind
  rw [show x.receiverPair = k.swap by rw [← hk]; rfl] at hhears
  rw [hafter, hreceive, hbefore]
  exact hhears

theorem read (h : n.Peers i j k cfg cfg') {c : Connection} {x : Segment} {rest : List Segment}
    (hc : (n.side i k).entry = some c) (hu : c.unread = x :: rest) :
    (n.step (.call i (.read k (List.replicate x.payload.length 0)))).1.side i k =
        ((n.side i k).enter { c with unread := rest }).swept ∧
      (n.step (.call i (.read k (List.replicate x.payload.length 0)))).1.side j k.swap =
        n.side j k.swap := by
  obtain ⟨s, -, -, -, hbefore, hafter, hfar⟩ :=
    h.acts (.call i (.read k (List.replicate x.payload.length 0)))
  rw [hbefore] at hc ⊢
  exact ⟨hafter.trans (s.read_next hc hu), hfar⟩

end Peers

def Ported (n : Network) (i : Nat) (k : SocketPair) : Prop :=
  (n.side i k).entry ≠ none → validPort k.near.port = true ∧ validPort k.far.port = true

theorem Ported.step (h : n.Ported i k) (ht : n.Tidy) (op : Op) : (n.step op).1.Ported i k := by
  intro hs
  by_cases hn : (n.side i k).entry = none
  · rcases ht.side_step op i k with ⟨o, s, ha, hstation, -⟩ | hsame
    · rw [side_of_some hstation] at hn
      rw [side_of_some (ha.step_station hstation)] at hs
      refine Station.ports_of_enters (ht.filed i s hstation) (fun x hx => ?_) hn hs
      obtain ⟨⟨f, -, hf⟩, -⟩ := ha.arrival hx
      exact Segment.ports_of_ofFrame hf
    · rw [hsame] at hs
      exact absurd hn hs
  · exact h hn

theorem Ported.run (h : n.Ported i k) {j : Nat} {q : SocketPair} (hj : n.Joins i j q)
    (ops : List Op) : (n.run ops).Ported i k := by
  induction ops generalizing n with
  | nil => exact h
  | cons op rest ih => exact ih (h.step hj.tidy op) (hj.step op)

section Fresh

variable {a b : HostId} {ra sa pa rb sb pb : Nat}

theorem peers_fresh (hab : a ≠ b) (hk : k.near.host = a) (hk' : k.far.host = b) :
    (pair (.fresh a ra sa pa) (.fresh b rb sb pb)).Peers 0 1 k ⟨ra, max sa 1, pa⟩
      ⟨rb, max sb 1, pb⟩ :=
  ⟨joins_fresh hab hk hk', ⟨_, rfl, hk.symm, rfl⟩, ⟨_, rfl, hk'.symm, rfl⟩⟩

theorem ported_fresh (i : Nat) (k : SocketPair) :
    (pair (.fresh a ra sa pa) (.fresh b rb sb pb)).Ported i k := by
  intro h
  match i with
  | 0 | 1 | _ + 2 => exact absurd rfl h

end Fresh

def Op.relays : Op → Bool
  | .tick _ | .flush _ | .deliver _ => true
  | _ => false

def Op.relaysOrReads : Op → Bool
  | .call _ (.read _ _) => true
  | op => op.relays

theorem Op.relaysOrReads_of_relays (h : op.relays = true) : op.relaysOrReads = true := by
  cases op with
  | call => cases h
  | _ => exact h

/-- Some run of such operations leads to such a network. -/
def Can (n : Network) (allowed : Op → Bool) (P : Network → Prop) : Prop :=
  ∃ ops, (∀ op ∈ ops, allowed op = true) ∧ P (n.run ops)

namespace Can

variable {allowed : Op → Bool} {P Q : Network → Prop}

theorem now (h : P n) : n.Can allowed P := ⟨[], by simp, h⟩

theorem step (op : Op) (ha : allowed op = true) (h : (n.step op).1.Can allowed P) :
    n.Can allowed P := by
  obtain ⟨ops, hops, hP⟩ := h
  exact ⟨op :: ops, List.forall_mem_cons.2 ⟨ha, hops⟩, hP⟩

theorem trans (h : n.Can allowed P) (hQ : ∀ m : Network, P m → m.Can allowed Q) :
    n.Can allowed Q := by
  obtain ⟨ops, hops, hP⟩ := h
  obtain ⟨more, hmore, hQ⟩ := hQ _ hP
  refine ⟨ops ++ more, fun op ho => (List.mem_append.1 ho).elim (hops op) (hmore op), ?_⟩
  rwa [run_append]

end Can

end Network

end ReliableStream
