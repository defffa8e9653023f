import ReliableStream.Proofs.HalfClose
import ReliableStream.Proofs.Integrity

namespace ReliableStream

open Side

def tracked (k : SocketPair) (l : List Segment) : List Segment :=
  l.filter fun s => s.senderPair = k ∧ s.isReply = false

def dataFrom (n : SequenceNumber) (l : List Segment) : List Segment :=
  l.filter fun s => s.kind? = some .data ∧ n ≤ s.seq

/-- None of the segments is ahead of its turn at an end that expects `n`. -/
def InTurn : SequenceNumber → List Segment → Prop
  | _, [] => True
  | n, s :: rest => s.seq ≤ n ∧ InTurn (if s.seq = n then n + 1 else n) rest

theorem Log.inTurn {k : SocketPair} {log l : List Segment} {n : SequenceNumber} (h : Log k log)
    (hlen : log.length < UInt32.size) (hl : l ⊆ log) (hasc : l.Pairwise fun s t => s.seq < t.seq)
    (hall : ∀ s ∈ log, n ≤ s.seq → (∃ t ∈ l, s.seq ≤ t.seq) → s ∈ l) : InTurn n l := by
  induction l generalizing n with
  | nil => trivial
  | cons s rest ih =>
    obtain ⟨hs, hrest⟩ := List.pairwise_cons.1 hasc
    have hsl := hl List.mem_cons_self
    have hslt := h.seq_lt hsl
    have hle : s.seq ≤ n := by
      refine UInt32.not_lt.1 fun hlt => ?_
      -- The segment that has its turn would come before.
      have hn : n.toNat < log.length := Nat.lt_trans (UInt32.lt_iff_toNat_lt.1 hlt) hslt
      have hx := List.getElem_mem hn
      have hxn : log[n.toNat].seq = n :=
        UInt32.toNat_inj.1 (h.numbered _ _ (List.getElem?_eq_getElem hn))
      have hmem := hall _ hx (by rw [hxn]; exact UInt32.le_refl n)
        ⟨s, List.mem_cons_self, by rw [hxn]; exact UInt32.le_of_lt hlt⟩
      rcases List.mem_cons.1 hmem with he | hmem
      · rw [← he, hxn] at hlt
        exact UInt32.lt_irrefl _ hlt
      · have := hs _ hmem
        rw [hxn] at this
        exact UInt32.lt_asymm this hlt
    refine ⟨hle, ih (List.subset_of_cons_subset hl) hrest fun x hx hxn ⟨t, ht, hxt⟩ => ?_⟩
    have hnx : n ≤ x.seq ∧ x.seq ≠ s.seq := by
      split at hxn
      · rename_i he
        rw [UInt32.le_iff_toNat_le, UInt32.toNat_add, ← he] at hxn
        rw [UInt32.le_iff_toNat_le, ← he, ne_eq, ← UInt32.toNat_inj]
        rw [Nat.mod_eq_of_lt (by show s.seq.toNat + 1 < UInt32.size; omega)] at hxn
        exact ⟨Nat.le_of_succ_le hxn, Nat.ne_of_gt hxn⟩
      · rename_i hne
        exact ⟨hxn, fun he => hne (UInt32.le_antisymm hle (he ▸ hxn))⟩
    rcases List.mem_cons.1 (hall x hx hnx.1 ⟨t, List.mem_cons_of_mem _ ht, hxt⟩) with he | hmem
    · exact absurd (congrArg Segment.seq he) hnx.2
    · exact hmem

theorem dataFrom_succ {n : SequenceNumber} {l : List Segment} (h : ∀ s ∈ l, n < s.seq) :
    dataFrom (n + 1) l = dataFrom n l := by
  refine List.filter_congr fun s hs => ?_
  have hlt := UInt32.lt_iff_toNat_lt.1 (h s hs)
  have hle : n ≤ s.seq := UInt32.le_of_lt (h s hs)
  have hle' : n + 1 ≤ s.seq := by
    rw [UInt32.le_iff_toNat_le, UInt32.toNat_add, Nat.mod_eq_of_lt]
    · exact hlt
    · exact Nat.lt_of_le_of_lt hlt s.seq.toNat_lt
  simp [hle, hle']

theorem dataFrom_cons {n : SequenceNumber} {s : Segment} {rest : List Segment} (hle : s.seq ≤ n)
    (hrest : ∀ t ∈ rest, s.seq < t.seq) : dataFrom n (s :: rest) =
      (if s.kind? = some .data ∧ s.seq = n then [s] else []) ++
        dataFrom (if s.seq = n then n + 1 else n) rest := by
  by_cases he : s.seq = n
  · rw [if_pos he, dataFrom_succ fun t ht => he ▸ hrest t ht, dataFrom, List.filter_cons]
    by_cases hk : s.kind? = some .data
    · simp [hk, he, dataFrom]
    · simp [hk, dataFrom]
  · have hlt : ¬n ≤ s.seq := fun hn => he (UInt32.le_antisymm hle hn)
    rw [if_neg he, dataFrom, List.filter_cons_of_neg (by simp [hlt]), if_neg fun h => he h.2]
    rfl

theorem tracked_cons {k : SocketPair} {s : Segment} {rest : List Segment} (hk : s.senderPair = k)
    (hr : s.isReply = false) : tracked k (s :: rest) = s :: tracked k rest :=
  List.filter_cons_of_pos (by simp [hk, hr])

theorem tracked_cons_of_not {k : SocketPair} {s : Segment} {rest : List Segment}
    (h : ¬(s.senderPair = k ∧ s.isReply = false)) : tracked k (s :: rest) = tracked k rest :=
  List.filter_cons_of_neg (by simpa using h)

namespace Side

variable {room : Nat} {k : SocketPair} {s : Segment} {kind : Kind} {e e' : Side} {c : Connection}

theorem Hears.reply_established (h : Hears room k s kind e e') (hc : e.entry = some c)
    (hp : c.phase = .established) (hr : kind.isReply = true) :
    e'.entry = some c ∧ e'.replies = e.replies := by
  have hphase : e.phase = .established := (phase_of_entry hc).trans hp
  have hconn {d : Connection} (hd : e.entry = some d) : d.phase = .established := by
    rw [Option.some.inj (hd.symm.trans hc)]
    exact hp
  cases h with
  | noted =>
    have hopen : (e.acked s.seq).phase ≠ .closed := fun hcl => by cases hphase.symm.trans hcl
    rw [swept_of_open hopen]
    exact ⟨hc, rfl⟩
  | opened hd hdp | drained hd hdp => cases (hconn hd).symm.trans hdp
  | ended hd => rcases hd with hd | hd <;> cases hphase.symm.trans hd
  | _ => simp_all [Kind.isReply]

theorem Hears.taken_established (h : Hears room k s kind e e') (hc : e.entry = some c)
    (hp : c.phase = .established) (hk : kind = .data ∨ kind = .syn) (hle : s.seq ≤ c.expected)
    (hroom : kind = .data → s.seq = c.expected → c.unread.length < room) :
    ∃ c', e'.entry = some c' ∧ c'.phase = .established ∧
      c'.expected = (if s.seq = c.expected then c.expected + 1 else c.expected) ∧
      c'.unread = c.unread ++ (if kind = .data ∧ s.seq = c.expected then [s] else []) ∧
      e'.replies = e.replies ++ [s.answer kind.reply] := by
  have hphase : e.phase = .established := (phase_of_entry hc).trans hp
  have hconn {d : Connection} (hd : e.entry = some d) : d = c := Option.some.inj (hd.symm.trans hc)
  have hnr : kind.isReply = false := by rcases hk with rfl | rfl <;> rfl
  cases h with
  | noted hr => rw [hnr] at hr; cases hr
  | opened | drained | ended | halted | crossed | strangeFin | finished | finishedAgain => simp at hk
  | knocked hcl => cases hphase.symm.trans hcl
  | strange _ hn => cases hn.symm.trans hc
  | stale _ hd _ hlt =>
    obtain rfl := (hconn hd).symm
    have hne : s.seq ≠ c.expected := fun he => UInt32.lt_irrefl _ (he ▸ hlt)
    refine ⟨c, hc, hp, by rw [if_neg hne], by simp [hne], ?_⟩
    rcases hk with rfl | rfl <;> simp [hp, Phase.again, Kind.reply]
  | early _ hd _ hlt =>
    obtain rfl := (hconn hd).symm
    exact absurd hle (UInt32.not_le.2 hlt)
  | collided hd hdp => exact absurd_phase hphase hd hdp (by decide)
  | kept hd _ he =>
    obtain rfl := (hconn hd).symm
    exact ⟨_, rfl, hp, by rw [if_pos he, he], by simp [he], rfl⟩
  | full hd _ he hfull =>
    obtain rfl := (hconn hd).symm
    exact absurd (hroom rfl he) (Nat.not_lt.2 hfull)
  | discarded hd _ hdis =>
    rcases hdis with ⟨-, hdp | hdp⟩ | ⟨-, hdp⟩ <;> exact absurd_phase hphase hd hdp (by decide)
  | greeted hd _ he =>
    obtain rfl := (hconn hd).symm
    exact ⟨_, rfl, hp, by rw [if_pos he, he], by simp, rfl⟩
  | repeated hd hdp => exact absurd_phase hphase hd hdp (by decide)
  | misplaced _ hd _ _ hnone =>
    have hnone := hnone {}
    rw [hconn hd, hp] at hnone
    rcases hk with rfl | rfl <;> simp [Phase.move?] at hnone

theorem Hears.unacked_none (h : Hears room k s kind e e') {i : SequenceNumber}
    (hi : e.win.unacked.get? i = none ∨ kind.isReply = true ∧ s.seq = i) :
    e'.win.unacked.get? i = none := by
  have erased : (e.acked s.seq).win.unacked.get? i = none := by
    rw [win_acked]
    by_cases hs : s.seq = i
    · rw [hs, SortedMap.get?_erase_self]
    · rw [SortedMap.get?_erase_of_ne _ hs]
      exact hi.resolve_right fun h => hs h.2
  have quiet (hr : kind.isReply = false) : e.win.unacked.get? i = none :=
    hi.resolve_right fun h => by rw [hr] at h; cases h.1
  cases h with
  | noted | opened | drained => exact erased
  | ended | finished | collided => rfl
  | strange hk => exact quiet (by rcases hk with rfl | rfl <;> rfl)
  | discarded _ _ hk => exact quiet (by rcases hk with ⟨rfl, -⟩ | ⟨rfl, -⟩ <;> rfl)
  | stale hr | early hr | misplaced hr => exact quiet hr
  | _ => exact quiet rfl

end Side

namespace Station

variable {s : Station} {k : SocketPair} {l : List Segment}

theorem receive_hears (hf : s.host.Filed) (x : Segment) (k : SocketPair) :
    (∃ kind, x.kind? = some kind ∧ x.receiverPair = k ∧
      Hears s.host.settings.room k x kind (s.host.side k) ((s.receive x).host.side k)) ∨
    (x.receiverPair ≠ k ∨ x.kind? = none) ∧ (s.receive x).host.side k = s.host.side k := by
  by_cases hk : x.receiverPair = k
  · cases hkind : x.kind? with
    | none => exact .inr ⟨.inr rfl, by simp [receive, Host.receive, hkind]⟩
    | some kind =>
      subst hk
      refine .inl ⟨kind, rfl, rfl, ?_⟩
      rw [show (s.receive x).host = s.host.receiveKind x kind by
        simp [receive, Host.receive, hkind]]
      exact s.host.receiveKind_side x kind
  · exact .inr ⟨.inl hk, (s.host.confined_receive x).others hf k hk⟩

theorem filed_receive (hf : s.host.Filed) (x : Segment) : (s.receive x).host.Filed :=
  (s.host.confined_receive x).filed hf

theorem settings_receive (x : Segment) : (s.receive x).host.settings = s.host.settings :=
  (s.host.confined_receive x).settings

theorem receive_unacked_none (hf : s.host.Filed) {i : SequenceNumber}
    (h : (s.host.side k).win.unacked.get? i = none ∨
      ∃ y ∈ l, y.receiverPair = k ∧ y.isReply = true ∧ y.seq = i) :
    ((l.foldl receive s).host.side k).win.unacked.get? i = none := by
  induction l generalizing s with
  | nil => exact h.resolve_right (by simp)
  | cons x rest ih =>
    refine ih (filed_receive hf x) ?_
    have hcases : (s.host.side k).win.unacked.get? i = none ∨
        (x.receiverPair = k ∧ x.isReply = true ∧ x.seq = i) ∨
        ∃ y ∈ rest, y.receiverPair = k ∧ y.isReply = true ∧ y.seq = i := by
      simpa using h
    rcases s.receive_hears hf x k with ⟨kind, hkind, -, hh⟩ | ⟨hne, hsame⟩
    · have hreply : x.isReply = kind.isReply := by rw [Segment.isReply, hkind, Option.any_some]
      rcases hcases with hn | ⟨-, hr, hi⟩ | hrest
      · exact .inl (hh.unacked_none (.inl hn))
      · exact .inl (hh.unacked_none (.inr ⟨hreply ▸ hr, hi⟩))
      · exact .inr hrest
    · rw [hsame]
      rcases hcases with hn | ⟨hk, hr, -⟩ | hrest
      · exact .inl hn
      · rcases hne with hne | hne
        · exact absurd hk hne
        · rw [Segment.isReply, hne] at hr
          cases hr
      · exact .inr hrest

theorem receive_inTurn {c : Connection} (hf : s.host.Filed)
    (hc : (s.host.side k.swap).entry = some c) (hp : c.phase = .established)
    (hturn : InTurn c.expected (tracked k l))
    (hasc : (tracked k l).Pairwise fun s t => s.seq < t.seq)
    (hkind : ∀ x ∈ tracked k l, x.kind? = some .data ∨ x.kind? = some .syn)
    (hroom : (dataFrom c.expected (tracked k l)).length ≤ s.host.settings.room - c.unread.length) :
    ∃ c', ((l.foldl receive s).host.side k.swap).entry = some c' ∧
      c'.unread = c.unread ++ dataFrom c.expected (tracked k l) ∧
      (s.host.side k.swap).replies ⊆ ((l.foldl receive s).host.side k.swap).replies ∧
      ∀ x ∈ tracked k l, ∃ y ∈ ((l.foldl receive s).host.side k.swap).replies,
        y.isReply = true ∧ y.seq = x.seq := by
  induction l generalizing s c with
  | nil => exact ⟨c, hc, (List.append_nil _).symm, List.Subset.refl _, by simp [tracked]⟩
  | cons x rest ih =>
    have hf' := filed_receive hf x
    rw [← settings_receive x] at hroom
    -- Replies and segments of other connections leave the number that the far end expects.
    by_cases hx : x.senderPair = k ∧ x.isReply = false
    · rw [tracked_cons hx.1 hx.2] at hturn hasc hkind hroom ⊢
      obtain ⟨hlt, hasc⟩ := List.pairwise_cons.1 hasc
      obtain ⟨hxk, hkind⟩ := List.forall_mem_cons.1 hkind
      have hcons := dataFrom_cons hturn.1 hlt
      rcases s.receive_hears hf x k.swap with ⟨kind, hk, -, hh⟩ | ⟨hne | hne, -⟩
      · simp only [hk, Option.some.injEq] at hxk hcons
        rw [← settings_receive x] at hh
        rw [hcons, List.length_append] at hroom
        obtain ⟨c', hc', hp', he', hu', hr'⟩ := hh.taken_established hc hp hxk hturn.1
          fun hd hs => by
            rw [if_pos ⟨hd, hs⟩, List.length_singleton] at hroom
            omega
        rw [← he'] at hroom hcons
        have hturn' : InTurn c'.expected (tracked k rest) := he' ▸ hturn.2
        obtain ⟨c'', hc'', hu'', hr'', ha⟩ := ih hf' hc' hp' hturn' hasc hkind (by
          rw [hu', List.length_append]
          omega)
        rw [hr'] at hr''
        refine ⟨c'', hc'', ?_, fun y hy => hr'' (List.mem_append_left _ hy), ?_⟩
        · rw [hu'', hu', hcons, List.append_assoc]
        · refine List.forall_mem_cons.2 ⟨?_, ha⟩
          refine ⟨_, hr'' (List.mem_append_right _ List.mem_cons_self), ?_, rfl⟩
          rcases hxk with rfl | rfl <;> simp [Segment.isReply, Kind.reply, Kind.isReply]
      · exact absurd (congrArg SocketPair.swap hx.1) hne
      · rcases hxk with hxk | hxk <;> cases hne.symm.trans hxk
    · rw [tracked_cons_of_not hx] at hturn hasc hkind hroom ⊢
      have hsame : ((s.receive x).host.side k.swap).entry = some c ∧
          ((s.receive x).host.side k.swap).replies = (s.host.side k.swap).replies := by
        rcases s.receive_hears hf x k.swap with ⟨kind, hk, hpair, hh⟩ | ⟨-, hsame⟩
        · refine hh.reply_established hc hp (Classical.byContradiction fun hr => hx ⟨?_, ?_⟩)
          · rw [← SocketPair.swap_swap x.senderPair, Segment.senderPair_swap, hpair,
              SocketPair.swap_swap]
          · simpa [Segment.isReply, hk] using hr
        · rw [hsame]
          exact ⟨hc, rfl⟩
      obtain ⟨c', hc', hu, hr, ha⟩ := ih hf' hsame.1 hp hturn hasc hkind hroom
      exact ⟨c', hc', hu, hsame.2 ▸ hr, ha⟩

end Station

theorem Host.tracked_outgoing {h : Host} (hf : h.Filed) {k : SocketPair} (hs : (h.side k).Sound) :
    tracked k h.outbox.outgoing =
      (h.side k).resends ++ (h.side k).win.admitted h.settings.limit := by
  have hsplit : tracked k h.outbox.outgoing =
      (h.outbox.outgoing.filter fun s => s.senderPair = k).filter fun s => s.isReply = false := by
    rw [List.filter_filter]
    exact List.filter_congr fun x _ => by simp [and_comm]
  have hreplies : (h.side k).replies.filter (fun s => s.isReply = false) = [] :=
    List.filter_eq_nil_iff.2 fun x hx hp => by simp [hs.replies x hx] at hp
  rw [hsplit, h.filter_outgoing hf, List.filter_append, List.filter_append, hreplies,
    List.filter_eq_self.2 fun x hx => by simp [hs.resends x hx],
    List.filter_eq_self.2 fun x hx => by simp [hs.pending x (Window.mem_pending_of_admitted hx)]]
  rfl

def Side.round (e : Side) (limit : Nat) : List Segment :=
  e.resent.resends ++ e.win.admitted limit

namespace Ledger

variable {k : SocketPair} {log got : List Segment} {done : Segment → Prop} {v : Link}
  {s t : Segment} {limit : Nat}

theorem posted_resent (h : Ledger k log done v) (hs : s ∈ v.near.resent.resends) :
    Posted log v.near s := by
  rcases Outbox.mem_addMissing.1 hs with hs | hs
  · exact h.resends s hs
  · obtain ⟨i, hi⟩ := SortedMap.mem_values_iff.1 hs
    exact ⟨(h.holds.unacked i s hi).1, h.unsent i s hi⟩

theorem lt_of_posted (h : Ledger k log done v) (hs : Posted log v.near s)
    (ht : t ∈ v.near.win.pending) : s.seq < t.seq := by
  obtain ⟨before, hlog⟩ := h.holds.pending
  have hasc := h.isLog.ascending
  rw [← hlog] at hasc
  have hs' := hs.1
  rw [← hlog] at hs'
  exact (List.pairwise_append.1 hasc).2.2 s ((List.mem_append.1 hs').resolve_right hs.2) t ht

theorem round_subset (h : Ledger k log done v) : v.near.round limit ⊆ log := by
  intro s hs
  rcases List.mem_append.1 hs with hs | hs
  · exact (h.posted_resent hs).1
  · exact h.holds.pending.subset (Window.mem_pending_of_admitted hs)

theorem ascending_round (h : Ledger k log done v) :
    (v.near.round limit).Pairwise fun s t => s.seq < t.seq := by
  refine List.pairwise_append.2 ⟨?_, ?_, fun s hs t ht => ?_⟩
  · exact (h.resending.resent fun i s hi => (h.holds.unacked i s hi).2).ascending
  · exact h.isLog.ascending.sublist
      ((Window.admitted_sublist limit _).trans h.holds.pending.sublist)
  · exact h.lt_of_posted (h.posted_resent hs) (Window.mem_pending_of_admitted ht)

theorem mem_round (h : Ledger k log done v) (hf : Flow k log got v)
    (ho : v.near.phase ≠ .closed) (hs : s ∈ log) (hn : v.far.conn.expected ≤ s.seq)
    (ht : ∃ t ∈ v.near.round limit, s.seq ≤ t.seq) : s ∈ v.near.round limit := by
  rcases (hf.holds ho).covers s hs (UInt32.le_iff_toNat_le.1 hn) with hp | hu
  · have happ := Window.admitted_append limit v.near.win
    have hp' := hp
    rw [← happ] at hp'
    rcases List.mem_append.1 hp' with ha | hleft
    · exact List.mem_append_right _ ha
    -- What the window does not admit comes after all that is sent.
    · obtain ⟨t, ht, hle⟩ := ht
      have hasc := h.isLog.ascending.sublist h.holds.pending.sublist
      rw [← happ] at hasc
      have hlt : t.seq < s.seq := by
        rcases List.mem_append.1 ht with ht | ht
        · exact h.lt_of_posted (h.posted_resent ht) hp
        · exact (List.pairwise_append.1 hasc).2.2 t ht s hleft
      exact absurd hle (UInt32.not_le.2 hlt)
  · exact List.mem_append_left _ (mem_resent hu)

theorem round_inTurn (h : Ledger k log done v) (hf : Flow k log got v)
    (ho : v.near.phase ≠ .closed) (hlen : log.length < UInt32.size) :
    InTurn v.far.conn.expected (v.near.round limit) :=
  h.isLog.inTurn hlen h.round_subset h.ascending_round fun _ hs hn ht => h.mem_round hf ho hs hn ht

theorem data_or_syn (h : Ledger k log done v) (hp : v.near.phase = .established) (hs : s ∈ log) :
    s.kind? = some .data ∨ s.kind? = some .syn := by
  obtain ⟨kind, hk⟩ := h.shape.known s hs
  have hr := h.isLog.tracked s hs
  have hstp : s.kind? ≠ some .stp := fun hk => by
    rcases (h.shape.stp s hs hk).1 with hc | hc <;> cases hp.symm.trans hc
  have hfin : s.kind? ≠ some .fin := h.shape.not_fin (by simp [hp]) hs
  rw [Segment.isReply, hk, Option.any_some] at hr
  cases kind <;> simp_all [Kind.isReply]

end Ledger

namespace Network

variable {n : Network} {i j : Nat} {k : SocketPair} {log got : List Segment}
  {done : Segment → Prop} {s t : Station}

theorem Joins.tracked_round (h : n.Joins i j k) (hs : n.stations[i]? = some s)
    (hp : (s.host.side k).phase = .established) :
    tracked k s.tick.poll.2 = (s.host.side k).round s.host.settings.limit := by
  have hf := h.tidy.filed i s hs
  have hside : s.tick.host.side k = (s.host.side k).resent :=
    (s.host.tick_side hf k).trans (ticked_open (.inr (.inl (.inl hp))))
  have hsound : (s.tick.host.side k).Sound :=
    (s.step_side hf .tick k).sound (h.tidy.sound i s hs k)
  have hsteady : s.host.Steady s.tick.host := s.step_steady .tick
  rw [show s.tick.poll.2 = s.tick.host.outbox.outgoing from rfl,
    Host.tracked_outgoing (hsteady.filed hf) hsound, hside, hsteady.settings]
  rfl

theorem Joins.round (h : n.Joins i j k) (hs : n.stations[i]? = some s)
    (ht : n.stations[j]? = some t) (hl : Ledger k log done (n.link i j k))
    (hf : Flow k log got (n.link i j k)) (hlen : log.length < UInt32.size)
    (hp : (s.host.side k).phase = .established)
    (hp' : (t.host.side k.swap).phase = .established)
    (hroom : (dataFrom (t.host.side k.swap).conn.expected (tracked k s.tick.poll.2)).length ≤
      t.host.settings.room - (t.host.side k.swap).conn.unread.length) :
    (∀ x ∈ tracked k s.tick.poll.2,
      (((s.tick.poll.2.foldl Station.receive t).poll.2.foldl Station.receive
        s.tick.poll.1).host.side k).win.unacked.get? x.seq = none) ∧
    ((s.tick.poll.2.foldl Station.receive t).host.side k.swap).conn.unread =
      (t.host.side k.swap).conn.unread ++
        dataFrom (t.host.side k.swap).conn.expected (tracked k s.tick.poll.2) := by
  have hnear : (n.link i j k).near = s.host.side k := side_of_some hs
  have hfar : (n.link i j k).far = t.host.side k.swap := side_of_some ht
  have hround : tracked k s.tick.poll.2 = (n.link i j k).near.round s.host.settings.limit := by
    rw [h.tracked_round hs hp, hnear]
  have hopen : (n.link i j k).near.phase ≠ .closed := by simp [hnear, hp]
  obtain ⟨c, hc, hcp⟩ := exists_entry (e := t.host.side k.swap) (by simp [hp'])
  have hcp : c.phase = .established := hcp.trans hp'
  have hturn : InTurn _ ((n.link i j k).near.round s.host.settings.limit) :=
    hl.round_inTurn hf hopen hlen
  rw [← hround, hfar, conn_of_entry hc] at hturn
  rw [conn_of_entry hc] at hroom ⊢
  obtain ⟨c', hc', hu, -, hreplies⟩ := Station.receive_inTurn (h.tidy.filed j t ht) hc hcp hturn
    (hround ▸ hl.ascending_round)
    (fun x hx => hl.data_or_syn (hnear ▸ hp) (hl.round_subset (hround ▸ hx))) hroom
  refine ⟨fun x hx => ?_, by rw [conn_of_entry hc', hu]⟩
  obtain ⟨y, hy, hr, hseq⟩ := hreplies x hx
  obtain ⟨hy, hpair⟩ := List.mem_filter.1 hy
  have hfiled : s.tick.poll.1.host.Filed :=
    (s.tick.step_steady .poll).filed ((s.step_steady .tick).filed (h.tidy.filed i s hs))
  refine Station.receive_unacked_none hfiled (.inr ⟨y, Outbox.mem_outgoing_of (k := k) (.inl hy), ?_,
    hr, hseq⟩)
  rw [← Segment.senderPair_swap, show y.senderPair = k.swap by simpa using hpair,
    SocketPair.swap_swap]

/-- In a run of two hosts with one call of `connect`, in which neither end of a connection has
closed or gone: when both ends are established, a round without loss repairs what has been lost. An
end ticks and sends, the far end takes all of it in that order and answers, and the near end takes
the answers. If there is room for the data that the far end still expects, nothing of the
connection that was sent is unacknowledged then, and the far end has appended exactly these data. -/
theorem round_repairs {a b : HostId} (hab : a ≠ b) (ra sa pa rb sb pb : Nat) (p : Port)
    (ops : List Op) (k : SocketPair) (hnear : k.near.host = a) (hfar : k.far.host = b)
    (hconnect : (ops.filter Op.isConnect).Sublist [.call 0 (.connect b p)])
    (hlast : (pair (.fresh a ra sa pa) (.fresh b rb sb pb)).lasts 0 k ops)
    (hlast' : (pair (.fresh a ra sa pa) (.fresh b rb sb pb)).lasts 1 k.swap ops)
    (hlen : ((pair (.fresh a ra sa pa) (.fresh b rb sb pb)).queued 0 k ops).length < UInt32.size)
    (hlen' : ((pair (.fresh a ra sa pa) (.fresh b rb sb pb)).queued 1 k.swap ops).length <
      UInt32.size)
    (i j : Nat) (q : SocketPair) (hend : i = 0 ∧ j = 1 ∧ q = k ∨ i = 1 ∧ j = 0 ∧ q = k.swap)
    (s t : Station)
    (hs : ((pair (.fresh a ra sa pa) (.fresh b rb sb pb)).run ops).stations[i]? = some s)
    (ht : ((pair (.fresh a ra sa pa) (.fresh b rb sb pb)).run ops).stations[j]? = some t)
    (hp : s.host.table.phase q = .established) (hp' : t.host.table.phase q.swap = .established)
    (hroom : (dataFrom (t.host.table.get q.swap).expected (tracked q s.tick.poll.2)).length ≤
      t.host.table.capacity - (t.host.table.get q.swap).unread.length) :
    (∀ x ∈ tracked q s.tick.poll.2,
      ((s.tick.poll.2.foldl Station.receive t).poll.2.foldl Station.receive
        s.tick.poll.1).host.outbox.awaits q x.seq = false) ∧
    ((s.tick.poll.2.foldl Station.receive t).host.table.get q.swap).unread =
      (t.host.table.get q.swap).unread ++
        dataFrom (t.host.table.get q.swap).expected (tracked q s.tick.poll.2) := by
  have hj : (pair (.fresh a ra sa pa) (.fresh b rb sb pb)).Joins 0 1 k := joins_fresh hab hnear hfar
  have hb : ((pair (.fresh a ra sa pa) (.fresh b rb sb pb)).link 0 1 k).Blank := blank_fresh k
  have hd := hj.duplex hb hconnect hlast hlast' hlen hlen'
  have hround : ∃ log got done,
      ((pair (.fresh a ra sa pa) (.fresh b rb sb pb)).run ops).Joins i j q ∧
      Ledger q log done (((pair (.fresh a ra sa pa) (.fresh b rb sb pb)).run ops).link i j q) ∧
      Flow q log got (((pair (.fresh a ra sa pa) (.fresh b rb sb pb)).run ops).link i j q) ∧
      log.length < UInt32.size := by
    rcases hend with ⟨rfl, rfl, rfl⟩ | ⟨rfl, rfl, rfl⟩
    · exact ⟨_, _, _, hj.run ops, hj.ledger hb (.inl rfl) hconnect hlast hlen, hd.out.flow, hlen⟩
    · exact ⟨_, _, _, (hj.run ops).swap, hj.swap.ledger hb.swap (.inr rfl) hconnect hlast' hlen',
        hd.back.flow, hlen'⟩
  obtain ⟨log, got, done, hj, hl, hf, hlen⟩ := hround
  obtain ⟨hacked, hunread⟩ := hj.round hs ht hl hf hlen hp hp' hroom
  exact ⟨fun x hx => by rw [Outbox.awaits, SortedMap.contains, Option.isSome_eq_false_iff,
    Option.isNone_iff_eq_none]; exact hacked x hx, hunread⟩

def lostLetter : List Op :=
  [.call 0 (.connect 2 7), .flush 0, .deliver 0, .call 1 (.accept 7), .flush 1, .deliver 0,
    .call 0 (.write ⟨⟨2, 7⟩, ⟨1, 0⟩⟩ [104]), .flush 0, .call 0 (.write ⟨⟨2, 7⟩, ⟨1, 0⟩⟩ [105]),
    .flush 0, .lose 0]

theorem round_repairs_lostLetter : ∃ s t : Station,
    (tracked ⟨⟨2, 7⟩, ⟨1, 0⟩⟩ s.tick.poll.2).length = 2 ∧
    (∀ x ∈ tracked ⟨⟨2, 7⟩, ⟨1, 0⟩⟩ s.tick.poll.2,
      ((s.tick.poll.2.foldl Station.receive t).poll.2.foldl Station.receive
        s.tick.poll.1).host.outbox.awaits ⟨⟨2, 7⟩, ⟨1, 0⟩⟩ x.seq = false) ∧
    ((s.tick.poll.2.foldl Station.receive t).host.table.get ⟨⟨1, 0⟩, ⟨2, 7⟩⟩).unread =
      (t.host.table.get ⟨⟨1, 0⟩, ⟨2, 7⟩⟩).unread ++
        dataFrom (t.host.table.get ⟨⟨1, 0⟩, ⟨2, 7⟩⟩).expected
          (tracked ⟨⟨2, 7⟩, ⟨1, 0⟩⟩ s.tick.poll.2) := by
  let n := (pair (.fresh 1 4 4 4) (.fresh 2 4 4 4)).run lostLetter
  refine ⟨n.stations[0]?.getD (.fresh 1 4 4 4), n.stations[1]?.getD (.fresh 2 4 4 4),
    by decide +kernel, ?_⟩
  exact round_repairs (by decide) 4 4 4 4 4 4 7 lostLetter ⟨⟨2, 7⟩, ⟨1, 0⟩⟩ rfl rfl (by decide)
    (by decide +kernel) (by decide +kernel) (by decide +kernel) (by decide +kernel) 0 1 _
    (.inl ⟨rfl, rfl, rfl⟩) _ _ (by decide +kernel) (by decide +kernel) (by decide +kernel)
    (by decide +kernel) (by decide +kernel)

end Network

end ReliableStream
