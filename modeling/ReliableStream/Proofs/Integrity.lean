import ReliableStream.Proofs.Run

namespace ReliableStream

open Side

structure Tally where
  log : List Segment := []
  got : List Segment := []
  read : List UInt8 := []

def Tally.add (d e : Tally) : Tally := ⟨d.log ++ e.log, d.got ++ e.got, d.read ++ e.read⟩

theorem Tally.add_empty (d : Tally) : d.add {} = d := by simp [add]

theorem Tally.empty_add (d : Tally) : Tally.add {} d = d := rfl

theorem Tally.add_assoc (d e f : Tally) : (d.add e).add f = d.add (e.add f) := by simp [add]

def Link.tally (k : SocketPair) (ev : Event) (v v' : Link) : Tally :=
  ⟨v.near.queuedSince v'.near, v.far.appendedSince v'.far, ev.swap.tookNear k.swap⟩

structure Stream (k : SocketPair) (d : Tally) (v : Link) : Prop where
  flow : Flow k d.log d.got v
  unqueued : v.near.phase = .closed → d.log = []
  reads : d.read ++ bytes v.far.conn.unread = bytes d.got

structure Duplex (k : SocketPair) (d d' : Tally) (v : Link) : Prop where
  out : Stream k d v
  back : Stream k.swap d' v.swap

namespace Stream

variable {k : SocketPair} {d d' : Tally} {v v' : Link} {op : Station.Op} {r : Station.Reply}

theorem near_step (h : Stream k d v) (hb : Stream k.swap d' v.swap) (hs : v.near.Sound)
    (hst : Link.Step k (.near op r) v v') (hd : ∀ ticket, r ≠ .dialled (.ok ticket))
    (hstay : v.near.phase ≠ .closed → v'.near.phase ≠ .closed)
    (hlen : (d.log ++ v.near.queuedSince v'.near).length < UInt32.size) :
    Stream k (d.add (v.tally k (.near op r) v')) v' := by
  have hflow := hst
  cases hflow with
  | near hside hfar harr =>
    have hsends := hside.sends hd
    have hopen : v.near.phase = .closed → v'.near.phase ≠ .closed →
        d.log = [] ∧ v.far.phase ≠ .closed := by
      intro hp hp'
      refine ⟨h.unqueued hp, fun hf => ?_⟩
      have hmoves := hside.moves hd
      rw [hp] at hmoves
      rcases hmoves.from_closed with hc | ⟨-, x, hx, hk⟩
      · exact hp' hc
      · have hxl := hb.flow.out x (harr x hx.1 hx.2) (by simp [Segment.isReply, hk, Kind.isReply])
        rw [hb.unqueued hf] at hxl
        cases hxl
    have hflow := h.flow.near_step hs hst hd hopen hlen
    refine ⟨?_, fun hp' => ?_, ?_⟩
    · simpa [Tally.add, Link.tally, hfar] using hflow
    · have hp : v.near.phase = .closed := Classical.byContradiction fun hp => hstay hp hp'
      simp [Tally.add, Link.tally, h.unqueued hp, Flow.queued_of_closed hsends hp]
    · simpa [Tally.add, Link.tally, hfar, Link.Event.swap, Link.Event.tookNear] using h.reads

theorem far_step (h : Stream k d v) (hs : v.far.Sound) (hst : Link.Step k (.far op r) v v')
    (hd : ∀ ticket, r ≠ .dialled (.ok ticket))
    (hstay : v.far.phase ≠ .closed → v'.far.phase ≠ .closed) (hlen : d.log.length < UInt32.size) :
    Stream k (d.add (v.tally k (.far op r) v')) v' := by
  have hflow := h.flow.far_step hs hst hd hstay hlen
  cases hst with
  | far hside hnear =>
    have hq : v.near.queuedSince v'.near = [] := by simp [queuedSince, hnear]
    refine ⟨?_, fun hp' => ?_, ?_⟩
    · simpa [Tally.add, Link.tally, hq] using hflow
    · rw [hnear] at hp'
      simpa [Tally.add, Link.tally, hq] using h.unqueued hp'
    · rcases hside.unread with hu | ⟨hentry, hp'⟩
      · have hr := h.reads
        simp only [Tally.add, Link.tally, Link.Event.swap, Link.Event.tookNear, bytes_append,
          List.append_assoc, hu]
        rw [← List.append_assoc, hr]
      · have hp : v.far.phase = .closed := Classical.byContradiction fun hp => hstay hp hp'
        rw [(h.flow.unopened hp).1] at hentry
        cases hentry

theorem none_step (h : Stream k d v) (hst : Link.Step k .none v v') :
    Stream k (d.add (v.tally k .none v')) v' := by
  have hflow := h.flow.none_step hst
  cases hst with
  | none hnear hfar =>
    have ht : d.add (v.tally k .none v') = d := by
      simp [Tally.add, Link.tally, queuedSince, hnear, hfar, Link.Event.swap, Link.Event.tookNear]
    rw [ht]
    exact ⟨hflow, hnear ▸ h.unqueued, hfar ▸ h.reads⟩

end Stream

namespace Duplex

variable {k : SocketPair} {d d' : Tally} {v v' : Link} {ev : Link.Event}

theorem step (h : Duplex k d d' v) (hn : v.near.Sound) (hf : v.far.Sound)
    (hst : Link.Step k ev v v') (hd : ∀ op r, ev = .near op r ∨ ev = .far op r →
      ∀ ticket, r ≠ .dialled (.ok ticket))
    (hnear : v.near.phase ≠ .closed → v'.near.phase ≠ .closed)
    (hfar : v.far.phase ≠ .closed → v'.far.phase ≠ .closed)
    (hlen : (d.log ++ v.near.queuedSince v'.near).length < UInt32.size)
    (hlen' : (d'.log ++ v.far.queuedSince v'.far).length < UInt32.size) :
    Duplex k (d.add (v.tally k ev v')) (d'.add (v.swap.tally k.swap ev.swap v'.swap)) v' := by
  have hshort {l m : List Segment} (hl : (l ++ m).length < UInt32.size) : l.length < UInt32.size := by
    rw [List.length_append] at hl
    omega
  cases ev with
  | near op r =>
    have hd := hd op r (.inl rfl)
    exact ⟨h.out.near_step h.back hn hst hd hnear hlen,
      h.back.far_step hn hst.swap hd hnear (hshort hlen')⟩
  | far op r =>
    have hd := hd op r (.inr rfl)
    exact ⟨h.out.far_step hf hst hd hfar (hshort hlen),
      h.back.near_step h.out hf hst.swap hd hfar hlen'⟩
  | none => exact ⟨h.out.none_step hst, h.back.none_step hst.swap⟩

theorem blank (hv : v.Blank) : Duplex k {} {} v := by
  have hv' := hv.swap
  exact ⟨⟨.blank hv, fun _ => rfl, by rw [hv.far]; rfl⟩,
    ⟨.blank hv', fun _ => rfl, by rw [hv'.far]; rfl⟩⟩

end Duplex

namespace Network

variable {n : Network} {i j : Nat} {k : SocketPair} {op : Op} {ops : List Op}

def tally (n : Network) (i j : Nat) (k : SocketPair) (ops : List Op) : Tally :=
  ⟨n.queued i k ops, n.appended j k.swap ops, n.readOut j k.swap ops⟩

theorem tally_cons {ev : Link.Event} (h : n.EventOf op i j ev) (hij : i ≠ j) :
    n.tally i j k (op :: ops) =
      ((n.link i j k).tally k ev ((n.step op).1.link i j k)).add ((n.step op).1.tally i j k ops) := by
  simp only [tally, queued_cons, appended_cons, readOut_cons, h.swap.took hij.symm]
  rfl

theorem Joins.duplex_run {d d' : Tally} (h : n.Joins i j k) (hv : Duplex k d d' (n.link i j k))
    (hops : ∀ op ∈ ops, op.isConnect = false) (hi : n.lasts i k ops) (hj : n.lasts j k.swap ops)
    (hlen : (d.log ++ n.queued i k ops).length < UInt32.size)
    (hlen' : (d'.log ++ n.queued j k.swap ops).length < UInt32.size) :
    Duplex k (d.add (n.tally i j k ops)) (d'.add (n.tally j i k.swap ops))
      ((n.run ops).link i j k) := by
  induction ops generalizing n d d' with
  | nil =>
    rw [show n.tally i j k [] = {} from rfl, show n.tally j i k.swap [] = {} from rfl,
      Tally.add_empty, Tally.add_empty]
    exact hv
  | cons op rest ih =>
    obtain ⟨hop, hrest⟩ := List.forall_mem_cons.1 hops
    obtain ⟨ev, hev, hst⟩ := h.link_step op
    have hd : ∀ o r, ev = .near o r ∨ ev = .far o r → ∀ ticket, r ≠ .dialled (.ok ticket) := by
      rintro o r (rfl | rfl)
      · exact hev.near_not_dialled hop
      · exact hev.far_not_dialled hop
    rw [queued_cons, ← List.append_assoc] at hlen hlen'
    have hnow {l m : List Segment} (hl : (l ++ m).length < UInt32.size) : l.length < UInt32.size := by
      rw [List.length_append] at hl
      omega
    rw [tally_cons hev h.apart, tally_cons hev.swap h.apart.symm, ← Tally.add_assoc,
      ← Tally.add_assoc]
    exact ih (h.step op)
      (hv.step (h.tidy.side_sound i k) (h.tidy.side_sound j k.swap) hst hd hi.1 hj.1 (hnow hlen)
        (hnow hlen')) hrest hi.2 hj.2 hlen hlen'

theorem tally_append (a b : List Op) :
    n.tally i j k (a ++ b) = (n.tally i j k a).add ((n.run a).tally i j k b) := by
  simp [tally, Tally.add, queued_append, appended_append, readOut_append]

theorem Joins.tally_blank (h : n.Joins i j k) (hb : (n.link i j k).Blank)
    (hops : ∀ op ∈ ops, op.isConnect = false) : n.tally i j k ops = {} := by
  obtain ⟨hq, -, -, -⟩ := h.blank_logs hb hops
  obtain ⟨-, ha, -, hr⟩ := h.swap.blank_logs hb.swap hops
  rw [tally, hq, ha, hr]

theorem Joins.duplex_connect {farHost : HostId} {farPort : Port} (h : n.Joins i j k)
    (hb : (n.link i j k).Blank) (hop : op = .call i (.connect farHost farPort)) :
    Duplex k (n.tally i j k [op]) (n.tally j i k.swap [op]) ((n.step op).1.link i j k) := by
  subst hop
  have hnear : n.side i k = {} := hb.near
  have hfar : n.side j k.swap = {} := hb.far
  have htook (m : Nat) (l : SocketPair) :
      n.readOut m l [.call i (.connect farHost farPort)] = [] := by
    simp [readOut, history, Op.took, Station.Op.took]
  rcases h.connect_step farHost farPort hb with
    hb' | ⟨-, ticket, hn, hf, ho, hbk⟩
  · have hnear' : (n.step (.call i (.connect farHost farPort))).1.side i k = {} := hb'.near
    have hfar' : (n.step (.call i (.connect farHost farPort))).1.side j k.swap = {} := hb'.far
    rw [tally, tally, htook, htook]
    simp only [queued, appended, gathered, SocketPair.swap_swap, hnear, hfar, hnear', hfar']
    exact .blank hb'
  · have hnear' : (n.step (.call i (.connect farHost farPort))).1.side i k = _ := hn
    have hfar' : (n.step (.call i (.connect farHost farPort))).1.side j k.swap = {} := hf
    rw [tally, tally, htook, htook]
    simp only [queued, appended, gathered, SocketPair.swap_swap, hnear, hfar, hnear', hfar']
    refine ⟨⟨.dialled hn hf ho hbk, fun hp => ?_, by rw [hf]; rfl⟩,
      ⟨.awaited hf hn hbk ho, fun _ => rfl, ?_⟩⟩
    · rw [hn] at hp
      cases hp
    · rw [show ((n.step (.call i (.connect farHost farPort))).1.link i j k).swap.far = _ from hn]
      rfl

theorem Joins.duplex {farHost : HostId} {farPort : Port} (h : n.Joins i j k)
    (hb : (n.link i j k).Blank)
    (hops : (ops.filter Op.isConnect).Sublist [.call i (.connect farHost farPort)])
    (hi : n.lasts i k ops) (hj : n.lasts j k.swap ops)
    (hlen : (n.queued i k ops).length < UInt32.size)
    (hlen' : (n.queued j k.swap ops).length < UInt32.size) :
    Duplex k (n.tally i j k ops) (n.tally j i k.swap ops) ((n.run ops).link i j k) := by
  rcases split_connect rfl hops with hops | ⟨before, after, rfl, hbefore, hafter⟩
  · exact h.duplex_run (.blank hb) hops hi hj hlen hlen'
  · obtain ⟨-, hi⟩ := lasts_append.1 hi
    obtain ⟨-, hj⟩ := lasts_append.1 hj
    have hrun := h.run before
    have hb' := h.blank_run hb hbefore
    have hq := (h.blank_logs hb hbefore).1
    have hq' := (h.swap.blank_logs hb.swap hbefore).1
    rw [queued_append, hq, List.nil_append, ← List.singleton_append, queued_append] at hlen
    rw [queued_append, hq', List.nil_append, ← List.singleton_append, queued_append] at hlen'
    rw [tally_append, tally_append, h.tally_blank hb hbefore, h.swap.tally_blank hb.swap hbefore,
      Tally.empty_add, Tally.empty_add, ← List.singleton_append, tally_append, tally_append,
      run_append]
    exact (hrun.step _).duplex_run (hrun.duplex_connect hb' rfl) hafter hi.2 hj.2
      hlen hlen'

/-- After a run, the data of a connection from station `i` to station `j` are intact: what the far
application has read and may still read is the beginning of what the near one has written, and the
segments that the far end still expects are waiting or unacknowledged at the near end. -/
def Intact (n : Network) (ops : List Op) (i j : Nat) (k : SocketPair) : Prop :=
  n.readOut j k.swap ops ++ bytes ((n.run ops).side j k.swap).conn.unread <+: n.written i k ops ∧
    ∀ s ∈ n.queued i k ops, ((n.run ops).side j k.swap).conn.expected ≤ s.seq →
      s ∈ ((n.run ops).side i k).win.pending ∨
        ((n.run ops).side i k).win.unacked.get? s.seq = some s

theorem Joins.intact (h : n.Joins i j k)
    (hs : Stream k (n.tally i j k ops) ((n.run ops).link i j k)) : n.Intact ops i j k := by
  refine ⟨?_, fun s hs' he => ?_⟩
  · obtain ⟨m, -, hm, -⟩ := hs.flow.order
    have hr : n.readOut j k.swap ops ++ bytes ((n.run ops).side j k.swap).conn.unread =
        bytes (n.appended j k.swap ops) := hs.reads
    rw [hr, show bytes (n.appended j k.swap ops) = bytes ((n.queued i k ops).take m) from hm,
      ← h.bytes_queued]
    refine ⟨bytes ((n.queued i k ops).drop m), ?_⟩
    rw [← bytes_append, List.take_append_drop]
  · by_cases hp : ((n.run ops).side i k).phase = .closed
    · have : n.queued i k ops = [] := hs.unqueued hp
      rw [this] at hs'
      cases hs'
    · exact (hs.flow.holds hp).covers s hs' (UInt32.le_iff_toNat_le.1 he)

/-- In a run of two hosts with one call of `connect`, in which neither end of a connection has
closed or gone yet, both directions of the connection are intact. -/
theorem streams_intact {a b : HostId} (hab : a ≠ b) (ra sa pa rb sb pb : Nat) (p : Port)
    (ops : List Op) (k : SocketPair) (hnear : k.near.host = a) (hfar : k.far.host = b)
    (hconnect : (ops.filter Op.isConnect).Sublist [.call 0 (.connect b p)])
    (hi : (pair (.fresh a ra sa pa) (.fresh b rb sb pb)).lasts 0 k ops)
    (hj : (pair (.fresh a ra sa pa) (.fresh b rb sb pb)).lasts 1 k.swap ops)
    (hlen : ((pair (.fresh a ra sa pa) (.fresh b rb sb pb)).queued 0 k ops).length < UInt32.size)
    (hlen' : ((pair (.fresh a ra sa pa) (.fresh b rb sb pb)).queued 1 k.swap ops).length < UInt32.size) :
    (pair (.fresh a ra sa pa) (.fresh b rb sb pb)).Intact ops 0 1 k ∧
      (pair (.fresh a ra sa pa) (.fresh b rb sb pb)).Intact ops 1 0 k.swap := by
  have h : (pair (.fresh a ra sa pa) (.fresh b rb sb pb)).Joins 0 1 k := joins_fresh hab hnear hfar
  have hd := h.duplex (blank_fresh k) hconnect hi hj hlen hlen'
  exact ⟨h.intact hd.out, h.swap.intact hd.back⟩

def greeting : List Op :=
  [.call 0 (.connect 2 7), .flush 0, .deliver 0, .call 1 (.accept 7), .flush 1, .deliver 0,
    .call 0 (.write ⟨⟨2, 7⟩, ⟨1, 0⟩⟩ [104, 105]), .flush 0, .duplicate 0,
    .call 1 (.read ⟨⟨1, 0⟩, ⟨2, 7⟩⟩ [0]), .flush 1]

theorem streams_intact_greeting :
    (pair (.fresh 1 4 4 4) (.fresh 2 4 4 4)).Intact greeting 0 1 ⟨⟨2, 7⟩, ⟨1, 0⟩⟩ ∧
      (pair (.fresh 1 4 4 4) (.fresh 2 4 4 4)).Intact greeting 1 0 ⟨⟨1, 0⟩, ⟨2, 7⟩⟩ :=
  streams_intact (by decide) 4 4 4 4 4 4 7 greeting ⟨⟨2, 7⟩, ⟨1, 0⟩⟩ rfl rfl (by decide)
    (by decide +kernel) (by decide +kernel) (by decide +kernel) (by decide +kernel)

end Network

end ReliableStream
