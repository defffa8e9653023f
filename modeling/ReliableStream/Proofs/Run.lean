import ReliableStream.Proofs.Flow

namespace ReliableStream

namespace Link.Event

def wroteNear (k : SocketPair) : Event → List UInt8
  | near op r => op.wrote k r
  | _ => []

def tookNear (k : SocketPair) : Event → List UInt8
  | near op r => op.took k r
  | _ => []

end Link.Event

namespace Network

def pair (s t : Station) : Network := { stations := [s, t] }

namespace Op

def isConnect : Op → Bool
  | .call _ (.connect _ _) => true
  | _ => false

def wrote (i : Nat) (k : SocketPair) : Op → Station.Reply → List UInt8
  | .call j c, r => if j = i then Station.Op.wrote k (.call c) r else []
  | _, _ => []

def took (i : Nat) (k : SocketPair) : Op → Station.Reply → List UInt8
  | .call j c, r => if j = i then Station.Op.took k (.call c) r else []
  | _, _ => []

end Op

variable (n : Network) (i j : Nat) (k : SocketPair)

def written (ops : List Op) : List UInt8 := (n.history ops).flatMap fun x => x.1.wrote i k x.2

def readOut (ops : List Op) : List UInt8 := (n.history ops).flatMap fun x => x.1.took i k x.2

def gathered (f : Network → List Segment) (n : Network) : List Op → List Segment
  | [] => []
  | op :: rest => (f (n.step op).1).drop (f n).length ++ gathered f (n.step op).1 rest

def queued (ops : List Op) : List Segment := gathered (fun n => (n.side i k).win.pending) n ops

def appended (ops : List Op) : List Segment := gathered (fun n => (n.side i k).conn.unread) n ops

/-- No step of a run closes the connection or loses its entry. -/
def lasts (n : Network) (i : Nat) (k : SocketPair) : List Op → Prop
  | [] => True
  | op :: rest =>
    ((n.side i k).phase ≠ .closed → ((n.step op).1.side i k).phase ≠ .closed) ∧
      lasts (n.step op).1 i k rest

instance decidableLasts (n : Network) (i : Nat) (k : SocketPair) :
    (ops : List Op) → Decidable (n.lasts i k ops)
  | [] => .isTrue trivial
  | op :: rest => @instDecidableAnd _ _ inferInstance (decidableLasts (n.step op).1 i k rest)

variable {n i j k} {op : Op} {ops : List Op}

theorem written_cons : n.written i k (op :: ops) =
    op.wrote i k (n.step op).2 ++ (n.step op).1.written i k ops := rfl

theorem readOut_cons : n.readOut i k (op :: ops) =
    op.took i k (n.step op).2 ++ (n.step op).1.readOut i k ops := rfl

theorem queued_cons : n.queued i k (op :: ops) =
    (n.side i k).queuedSince ((n.step op).1.side i k) ++ (n.step op).1.queued i k ops := rfl

theorem appended_cons : n.appended i k (op :: ops) =
    (n.side i k).appendedSince ((n.step op).1.side i k) ++ (n.step op).1.appended i k ops := rfl

theorem appended_singleton : n.appended i k [op] =
    (n.side i k).appendedSince ((n.step op).1.side i k) := List.append_nil _

theorem gathered_append (f : Network → List Segment) (n : Network) (a b : List Op) :
    gathered f n (a ++ b) = gathered f n a ++ gathered f (n.run a) b := by
  induction a generalizing n with
  | nil => rfl
  | cons op rest ih => simp [gathered, ih, run]

theorem queued_append (a b : List Op) :
    n.queued i k (a ++ b) = n.queued i k a ++ (n.run a).queued i k b :=
  gathered_append _ n a b

theorem appended_append (a b : List Op) :
    n.appended i k (a ++ b) = n.appended i k a ++ (n.run a).appended i k b :=
  gathered_append _ n a b

theorem readOut_append (a b : List Op) :
    n.readOut i k (a ++ b) = n.readOut i k a ++ (n.run a).readOut i k b := by
  simp [readOut, history_append]

theorem lasts_append {a b : List Op} :
    n.lasts i k (a ++ b) ↔ n.lasts i k a ∧ (n.run a).lasts i k b := by
  induction a generalizing n with
  | nil => simp [lasts, run]
  | cons op rest ih => simp [lasts, ih, run, and_assoc]

theorem EventOf.wrote {ev : Link.Event} (h : n.EventOf op i j ev) (hij : i ≠ j) :
    op.wrote i k (n.step op).2 = ev.wroteNear k := by
  cases h with
  | near ha hs =>
    cases ha with
    | call i c => simp [Op.wrote, step, call, hs, Link.Event.wroteNear, Station.step]
    | _ => rfl
  | far ha =>
    cases ha with
    | call j c => simp [Op.wrote, hij.symm, Link.Event.wroteNear]
    | _ => rfl
  | none hn =>
    cases op with
    | call m c =>
      by_cases hm : m = i
      · subst hm
        have hs := hn _ (.call m c)
        cases c <;> simp [Op.wrote, step, call, hs, Link.Event.wroteNear, Station.Op.wrote]
      · simp [Op.wrote, hm, Link.Event.wroteNear]
    | _ => rfl

theorem EventOf.took {ev : Link.Event} (h : n.EventOf op i j ev) (hij : i ≠ j) :
    op.took i k (n.step op).2 = ev.tookNear k := by
  cases h with
  | near ha hs =>
    cases ha with
    | call i c => simp [Op.took, step, call, hs, Link.Event.tookNear, Station.step]
    | _ => rfl
  | far ha =>
    cases ha with
    | call j c => simp [Op.took, hij.symm, Link.Event.tookNear]
    | _ => rfl
  | none hn =>
    cases op with
    | call m c =>
      by_cases hm : m = i
      · subst hm
        have hs := hn _ (.call m c)
        cases c <;> simp [Op.took, step, call, hs, Link.Event.tookNear, Station.Op.took]
      · simp [Op.took, hm, Link.Event.tookNear]
    | _ => rfl

theorem Acts.not_dialled {o : Station.Op} {s : Station} (h : n.Acts op i o)
    (hop : ∀ farHost farPort, op ≠ .call i (.connect farHost farPort)) (ticket : Ticket) :
    (s.step o).2 ≠ .dialled (.ok ticket) := by
  cases h with
  | call i c => cases c <;> simp_all [Station.step, Station.call]
  | _ => simp [Station.step]

theorem Op.ne_connect (h : op.isConnect = false) (farHost : HostId) (farPort : Port) :
    op ≠ .call i (.connect farHost farPort) := by
  rintro rfl
  cases h

theorem EventOf.near_not_dialled {o : Station.Op} {r : Station.Reply}
    (h : n.EventOf op i j (.near o r)) (hop : op.isConnect = false) (ticket : Ticket) :
    r ≠ .dialled (.ok ticket) := by
  cases h with
  | near ha => exact ha.not_dialled (Op.ne_connect hop) ticket

theorem EventOf.far_not_dialled {o : Station.Op} {r : Station.Reply}
    (h : n.EventOf op i j (.far o r)) (hop : op.isConnect = false) (ticket : Ticket) :
    r ≠ .dialled (.ok ticket) := by
  cases h with
  | far ha => exact ha.not_dialled (Op.ne_connect hop) ticket

theorem Joins.bytes_queued (h : n.Joins i j k) (ops : List Op) :
    bytes (n.queued i k ops) = n.written i k ops := by
  induction ops generalizing n with
  | nil => rfl
  | cons op rest ih =>
    obtain ⟨ev, hev, hst⟩ := h.link_step op
    rw [queued_cons, bytes_append, written_cons, ih (h.step op), hev.wrote h.apart]
    congr 1
    cases hst with
    | near hside => exact hside.bytes_queued (h.tidy.side_sound i k)
    | far _ hsame =>
      rw [show (n.step op).1.side i k = n.side i k from hsame]
      simp [Side.queuedSince, Link.Event.wroteNear]
    | none hsame =>
      rw [show (n.step op).1.side i k = n.side i k from hsame]
      simp [Side.queuedSince, Link.Event.wroteNear]

theorem Joins.blank_step (h : n.Joins i j k) (hb : (n.link i j k).Blank)
    (hop : op.isConnect = false) : ((n.step op).1.link i j k).Blank := by
  obtain ⟨ev, hev, hst⟩ := h.link_step op
  obtain ⟨hnear, hfar, hout, hback⟩ := hb
  cases hst with
  | near hside hsame harr hout' hback' =>
    have hd := hev.near_not_dialled hop
    rw [hnear] at hside hout'
    refine ⟨(hside.blank (fun x hx hk => hback x (harr x hx hk)) hd).1, hsame.trans hfar,
      fun x hx => ?_, fun x hx => hback x (hback' x hx)⟩
    exact (hout' x hx).elim (hout x) (Side.not_sending_blank x)
  | far hside hsame harr hout' hback' =>
    have hd := hev.far_not_dialled hop
    rw [hfar] at hside hback'
    refine ⟨hsame.trans hnear, (hside.blank (fun x hx hk => hout x (harr x hx hk)) hd).1,
      fun x hx => hout x (hout' x hx), fun x hx => ?_⟩
    exact (hback' x hx).elim (hback x) (Side.not_sending_blank x)
  | none hsame hsame' hout' hback' =>
    exact ⟨hsame.trans hnear, hsame'.trans hfar, fun x hx => hout x (hout' x hx),
      fun x hx => hback x (hback' x hx)⟩

theorem address_run {m : Nat} {s' : Station} (hs' : (n.run ops).stations[m]? = some s') :
    ∃ s, n.stations[m]? = some s ∧ s.address = s'.address := by
  induction ops generalizing n with
  | nil => exact ⟨s', hs', rfl⟩
  | cons op rest ih =>
    obtain ⟨t, ht, hta⟩ := ih hs'
    obtain ⟨s, hs, hsa⟩ := address_station ht
    exact ⟨s, hs, hsa.trans hta⟩

theorem Joins.run (h : n.Joins i j k) (ops : List Op) : (n.run ops).Joins i j k := by
  induction ops generalizing n with
  | nil => exact h
  | cons op rest ih => exact ih (h.step op)

theorem Joins.blank_run (h : n.Joins i j k) (hb : (n.link i j k).Blank)
    (hops : ∀ op ∈ ops, op.isConnect = false) : ((n.run ops).link i j k).Blank := by
  induction ops generalizing n with
  | nil => exact hb
  | cons op rest ih =>
    obtain ⟨hop, hrest⟩ := List.forall_mem_cons.1 hops
    exact ih (h.step op) (h.blank_step hb hop) hrest

theorem Joins.blank_logs (h : n.Joins i j k) (hb : (n.link i j k).Blank)
    (hops : ∀ op ∈ ops, op.isConnect = false) :
    n.queued i k ops = [] ∧ n.appended i k ops = [] ∧ n.written i k ops = [] ∧
      n.readOut i k ops = [] := by
  induction ops generalizing n with
  | nil => exact ⟨rfl, rfl, rfl, rfl⟩
  | cons op rest ih =>
    obtain ⟨hop, hrest⟩ := List.forall_mem_cons.1 hops
    have hb' := h.blank_step hb hop
    obtain ⟨hq, ha, hw, hr⟩ := ih (h.step op) hb' hrest
    have hn : n.side i k = {} := hb.near
    have hn' : (n.step op).1.side i k = {} := hb'.near
    obtain ⟨ev, hev, hst⟩ := h.link_step op
    have hquiet : ev.wroteNear k = [] ∧ ev.tookNear k = [] := by
      cases hst with
      | near hside _ harr =>
        have hd := hev.near_not_dialled hop
        rw [show (n.link i j k).near = {} from hn] at hside
        obtain ⟨-, hw, ht, -⟩ := hside.blank (fun x hx hk => hb.back x (harr x hx hk)) hd
        exact ⟨hw, ht⟩
      | far => exact ⟨rfl, rfl⟩
      | none => exact ⟨rfl, rfl⟩
    refine ⟨?_, ?_, ?_, ?_⟩
    · rw [queued_cons, hq, hn, hn']
      rfl
    · rw [appended_cons, ha, hn, hn']
      rfl
    · rw [written_cons, hw, hev.wrote h.apart, hquiet.1]
      rfl
    · rw [readOut_cons, hr, hev.took h.apart, hquiet.2]
      rfl

theorem Joins.connect_step (h : n.Joins i j k) (farHost : HostId) (farPort : Port)
    (hb : (n.link i j k).Blank) :
    ((n.step (.call i (.connect farHost farPort))).1.link i j k).Blank ∨
      k.far = ⟨farHost, farPort⟩ ∧ ∃ ticket : Ticket,
        ((n.step (.call i (.connect farHost farPort))).1.link i j k).near =
          (Side.enter {} { phase := .synSent, waiter := some ticket }).push (.control k .syn) ∧
        ((n.step (.call i (.connect farHost farPort))).1.link i j k).far = {} ∧
        (∀ x, ¬((n.step (.call i (.connect farHost farPort))).1.link i j k).out x) ∧
        ∀ x, ¬((n.step (.call i (.connect farHost farPort))).1.link i j k).back x := by
  obtain ⟨ev, hev, hst⟩ := h.link_step (.call i (.connect farHost farPort))
  cases hst with
  | near hside hsame _ hout hback =>
    have hout' : ∀ x, ¬((n.step (.call i (.connect farHost farPort))).1.link i j k).out x := by
      intro x hx
      rw [hb.near] at hout
      exact (hout x hx).elim (hb.out x) (Side.not_sending_blank x)
    have hback' : ∀ x, ¬((n.step (.call i (.connect farHost farPort))).1.link i j k).back x :=
      fun x hx => hb.back x (hback x hx)
    cases hev with
    | near ha =>
      cases ha
      rcases hside.connect with he | ⟨-, hk, ticket, -, he⟩
      · exact .inl ⟨he.trans hb.near, hsame.trans hb.far, hout', hback'⟩
      · exact .inr ⟨hk, ticket, hb.near ▸ he, hsame.trans hb.far, hout', hback'⟩
  | far =>
    cases hev with
    | far ha => cases ha; exact absurd rfl h.apart
  | none hnear hfar hout hback =>
    exact .inl ⟨hnear.trans hb.near, hfar.trans hb.far, fun x hx => hb.out x (hout x hx),
      fun x hx => hb.back x (hback x hx)⟩

theorem split_connect {c : Op} (hc : c.isConnect = true)
    (h : (ops.filter Op.isConnect).Sublist [c]) :
    (∀ op ∈ ops, op.isConnect = false) ∨ ∃ before after, ops = before ++ c :: after ∧
      (∀ op ∈ before, op.isConnect = false) ∧ ∀ op ∈ after, op.isConnect = false := by
  induction ops with
  | nil => exact .inl (by simp)
  | cons op rest ih =>
    cases ho : op.isConnect with
    | false =>
      rw [List.filter_cons_of_neg (by simp [ho])] at h
      rcases ih h with hr | ⟨before, after, rfl, hb, ha⟩
      · exact .inl (List.forall_mem_cons.2 ⟨ho, hr⟩)
      · exact .inr ⟨op :: before, after, rfl, List.forall_mem_cons.2 ⟨ho, hb⟩, ha⟩
    | true =>
      rw [List.filter_cons_of_pos (by simp [ho])] at h
      obtain rfl : op = c := List.mem_singleton.1 (h.subset List.mem_cons_self)
      have hrest := List.sublist_nil.1 (List.cons_sublist_cons.1 h)
      refine .inr ⟨[], rest, rfl, by simp, fun x hx => ?_⟩
      simpa using List.filter_eq_nil_iff.1 hrest x hx

theorem ne_connect_of_sublist {c : Call} (h : (ops.filter Op.isConnect).Sublist [.call i c])
    (hij : i ≠ j) (ho : op ∈ ops) (farHost : HostId) (farPort : Port) :
    op ≠ .call j (.connect farHost farPort) := by
  rintro rfl
  have := h.subset (List.mem_filter.2 ⟨ho, rfl⟩)
  simp [hij.symm] at this

section Fresh

variable {a b : HostId} {ra sa pa rb sb pb : Nat}

theorem fresh_station {m : Nat} {s : Station}
    (h : (pair (.fresh a ra sa pa) (.fresh b rb sb pb)).stations[m]? = some s) :
    m = 0 ∧ s = .fresh a ra sa pa ∨ m = 1 ∧ s = .fresh b rb sb pb := by
  match m with
  | 0 => exact .inl ⟨rfl, (Option.some.inj h).symm⟩
  | 1 => exact .inr ⟨rfl, (Option.some.inj h).symm⟩
  | m + 2 => simp [pair] at h

theorem tidy_fresh : (pair (.fresh a ra sa pa) (.fresh b rb sb pb)).Tidy := by
  refine ⟨fun m s h => ?_, fun m s h k => ?_, fun m s h k _ => ?_⟩
  · rcases fresh_station h with ⟨-, rfl⟩ | ⟨-, rfl⟩ <;> exact Station.filed_fresh _ _ _ _
  · rcases fresh_station h with ⟨-, rfl⟩ | ⟨-, rfl⟩ <;> exact Side.Sound.blank
  · rcases fresh_station h with ⟨-, rfl⟩ | ⟨-, rfl⟩ <;> rfl

theorem joins_fresh (hab : a ≠ b) (hk : k.near.host = a) (hk' : k.far.host = b) :
    (pair (.fresh a ra sa pa) (.fresh b rb sb pb)).Joins 0 1 k := by
  refine ⟨tidy_fresh, fun m s h ha => ?_, fun m s h ha => ?_, by rwa [hk, hk'], by decide⟩
  · rcases fresh_station h with ⟨rfl, rfl⟩ | ⟨rfl, rfl⟩
    · rfl
    · exact absurd (hk.symm.trans ha.symm) hab
  · rcases fresh_station h with ⟨rfl, rfl⟩ | ⟨rfl, rfl⟩
    · exact absurd (ha.trans hk') hab
    · rfl

theorem blank_fresh (k : SocketPair) :
    ((pair (.fresh a ra sa pa) (.fresh b rb sb pb)).link 0 1 k).Blank :=
  ⟨rfl, rfl, fun x hx => by simp [link, Carries, pair] at hx,
    fun x hx => by simp [link, Carries, pair] at hx⟩

end Fresh

end Network

end ReliableStream
