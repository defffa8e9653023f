import ReliableStream.Proofs.Dials
import ReliableStream.Proofs.Motion

/-!
The calls of `connect` that wait. The entry of a connection knows the call that waits for it, and
the host knows the calls that it has told how their dials have ended. While a call that fails cleans
up at once, every dial either waits in the entry of its connection or has been told.
-/

namespace ReliableStream

namespace Side

variable {cfg : Settings} {room : Nat} {k : SocketPair} {op : Station.Op} {r : Station.Reply}
  {s : Segment} {kind : Kind} {e e' : Side}

def Tended (e : Side) : Prop := e.conn.waiter = none ∨ e.phase = .synSent

theorem Tended.swept (h : e.Tended) : e.swept.Tended := by
  rw [Tended, (swept_conn e).2, phase_swept]
  exact h

theorem Tended.congr (h : e.Tended) (he : e'.entry = e.entry) : e'.Tended := by
  rw [Tended, conn_congr he, phase_congr he]
  exact h

theorem Tended.of_entry (h : e.Tended) {c c' : Connection} {p : Phase} (hc : e.entry = some c)
    (hcp : c.phase = p) (hne : p ≠ .synSent) (hc' : e'.entry = some c')
    (hw : c'.waiter = c.waiter) : e'.Tended := by
  rw [Tended, conn_of_entry hc, phase_of_entry hc, hcp] at h
  rw [Tended, conn_of_entry hc', hw]
  exact .inl (h.resolve_right hne)

theorem Hears.tended (h : Hears room k s kind e e') (he : e.Tended) : e'.Tended := by
  cases h with
  | noted =>
    have hacked : (e.acked s.seq).Tended := he.congr rfl
    exact hacked.swept
  | misplaced => exact he.swept
  | opened | ended | collided => exact .inl rfl
  | knocked hp => exact .inl (he.resolve_right (by simp [hp]))
  | kept hc hk => rcases hk with hk | hk <;> exact he.of_entry hc hk (by decide) rfl rfl
  | discarded hc _ hd =>
    rcases hd with ⟨-, hd | hd⟩ | ⟨-, hd⟩ <;> exact he.of_entry hc hd (by decide) rfl rfl
  | drained hc hp | halted hc hp | crossed hc hp | repeated hc hp =>
    exact he.of_entry hc hp (by decide) rfl rfl
  | greeted hc hp => rcases hp with hp | hp <;> exact he.of_entry hc hp (by decide) rfl rfl
  | finished hc hp =>
    refine Tended.swept ?_
    rcases hp with (hp | hp) | hp | hp <;> exact he.of_entry hc hp (by decide) rfl rfl
  | finishedAgain hc hp => exact Tended.swept (he.of_entry hc hp (by decide) rfl rfl)
  | strange | strangeFin | stale | early | full => exact he.congr rfl

theorem Step.tended (h : Step cfg k op r e e') (he : e.Tended) : e'.Tended := by
  cases h with
  | heard _ _ _ hh => exact hh.tended he
  | dialled => exact .inr rfl
  | forgot | expired => exact .inl rfl
  | accepted hc hp | closedDrained hc hp | closedBusy hc hp | closedStopped hc hp
  | tickedClosing hc hp => exact he.of_entry hc hp (by decide) rfl rfl
  | read hc =>
    refine Tended.swept ?_
    rw [Tended, conn_of_entry hc, phase_of_entry hc] at he
    exact he
  | readRefused | writeRefused | closedIdle | tickedIdle => exact he.swept
  | wrote => exact he.congr (pushData_eq _ _).1
  | _ => exact he.congr rfl

theorem waiter_of_entry {c c' : Connection} (hc : e.entry = some c) (hc' : e'.entry = some c')
    (hw : c'.waiter = c.waiter) : e'.conn.waiter = e.conn.waiter := by
  rw [conn_of_entry hc, conn_of_entry hc', hw]

theorem Hears.told (h : Hears room k s kind e e') (he : e.Tended) :
    e.tells s kind = [] ∧ e'.conn.waiter = e.conn.waiter ∨
      ∃ t a, e.conn.waiter = some t ∧ e.tells s kind = [(t, a)] ∧ e'.conn.waiter = none ∧
        (a = .collided → e'.entry = none) := by
  have silent (hk : e.phase = .synSent → kind ≠ .synAck ∧ (kind = .syn → s.seq ≠ e.conn.expected))
      (hw : e'.conn.waiter = e.conn.waiter) := And.intro (tells_of_ne s hk) hw
  have answered {a : Answer} (hl : e.tells s kind = e.conn.waiter.toList.map fun t => (t, a))
      (hw : e'.conn.waiter = none) (hn : a = .collided → e'.entry = none) :
      e.tells s kind = [] ∧ e'.conn.waiter = e.conn.waiter ∨
        ∃ t a, e.conn.waiter = some t ∧ e.tells s kind = [(t, a)] ∧ e'.conn.waiter = none ∧
          (a = .collided → e'.entry = none) := by
    cases ht : e.conn.waiter with
    | none => exact .inl ⟨by rw [hl, ht]; rfl, hw⟩
    | some t => exact .inr ⟨t, a, rfl, by rw [hl, ht]; rfl, hw, hn⟩
  have other {q : Phase} (hp : e.phase = q) (hne : q ≠ .synSent)
      (hw : e'.conn.waiter = e.conn.waiter) := silent (fun hs => absurd (hp.symm.trans hs) hne) hw
  cases h with
  | noted hr ha =>
    refine .inl (silent (fun hs => ⟨fun hk => ha hk hs, fun hk => ?_⟩) (swept_conn _).2)
    rw [hk] at hr
    cases hr
  | opened hc hp =>
    exact answered (if_pos ((phase_of_entry hc).trans hp)) rfl nofun
  | collided hc hp hs =>
    refine answered (if_pos ⟨(phase_of_entry hc).trans hp, ?_⟩) rfl fun _ => rfl
    rw [conn_of_entry hc]
    exact hs
  | ended hp =>
    refine .inl (silent (fun _ => ⟨nofun, nofun⟩) (he.resolve_right fun hs => ?_).symm)
    rw [hs] at hp
    simp at hp
  | knocked hp => exact .inl (other hp (by decide) rfl)
  | strange _ hn => exact .inl (other (phase_of_none hn) (by decide) rfl)
  | strangeFin => exact .inl (silent (fun _ => ⟨nofun, nofun⟩) rfl)
  | stale hr hc _ hlt | early hr hc _ hlt =>
    refine .inl (silent (fun _ => ⟨fun hk => ?_, fun _ hs => ?_⟩) rfl)
    · rw [hk] at hr
      cases hr
    · rw [conn_of_entry hc] at hs
      exact UInt32.lt_irrefl _ (hs ▸ hlt)
  | full => exact .inl (silent (fun _ => ⟨nofun, nofun⟩) rfl)
  | kept hc | halted hc | crossed hc | drained hc =>
    exact .inl (silent (fun _ => ⟨nofun, nofun⟩) (waiter_of_entry hc rfl rfl))
  | discarded hc _ hd =>
    rcases hd with ⟨rfl, -⟩ | ⟨rfl, -⟩ <;>
      exact .inl (silent (fun _ => ⟨nofun, nofun⟩) (waiter_of_entry hc rfl rfl))
  | greeted hc hp =>
    rcases hp with hp | hp <;>
      exact .inl (other ((phase_of_entry hc).trans hp) (by decide) (waiter_of_entry hc rfl rfl))
  | repeated hc hp =>
    exact .inl (other ((phase_of_entry hc).trans hp) (by decide) (waiter_of_entry hc rfl rfl))
  | finished hc | finishedAgain hc =>
    refine .inl (silent (fun _ => ⟨nofun, nofun⟩) ?_)
    rw [(swept_conn _).2]
    exact waiter_of_entry hc rfl rfl
  | misplaced hr hc _ hk =>
    refine .inl (silent (fun hs => ⟨fun hk => ?_, fun hk' => ?_⟩) (swept_conn _).2)
    · rw [hk] at hr
      cases hr
    · exact absurd ((phase_of_entry hc).symm.trans hs) (hk hk').2

theorem Step.waiter (h : Step cfg k op r e e') (he : e.Tended) (ha : op.arrival? = none)
    (hs : op.settles = false) (hd : ∀ farHost farPort, op ≠ .call (.connect farHost farPort)) :
    e'.conn.waiter = e.conn.waiter := by
  cases h with
  | heard hop =>
    rw [ha] at hop
    cases hop
  | dialled => exact absurd rfl (hd _ _)
  | forgot hop =>
    rw [hs] at hop
    cases hop
  | accepted hc | closedDrained hc | closedBusy hc | closedStopped hc | tickedClosing hc =>
    exact waiter_of_entry hc rfl rfl
  | read hc =>
    rw [(swept_conn _).2]
    exact waiter_of_entry hc rfl rfl
  | readRefused | writeRefused | closedIdle | tickedIdle => exact (swept_conn _).2
  | wrote => rw [conn_congr (pushData_eq _ _).1]
  | expired hc hp =>
    refine (he.resolve_right fun hn => ?_).symm
    exact absurd_phase hn hc hp (by decide)
  | _ => rfl

end Side

namespace Host

variable {h h' : Host} {k : SocketPair} {ticket : Ticket}

def Waits (h : Host) (ticket : Ticket) (k : SocketPair) : Prop :=
  (h.side k).conn.waiter = some ticket

theorem waits_congr (hs : (h'.side k).conn.waiter = (h.side k).conn.waiter) :
    h'.Waits ticket k ↔ h.Waits ticket k := by
  rw [Waits, hs, Waits]

theorem Waits.entry (hw : h.Waits ticket k) :
    ∃ c, h.table.get? k = some c ∧ c.waiter = some ticket := by
  cases hc : h.table.get? k with
  | none =>
    rw [Waits, Side.conn, show (h.side k).entry = none from hc] at hw
    cases hw
  | some c => exact ⟨c, rfl, by rwa [Waits, Side.conn_of_entry (e := h.side k) hc] at hw⟩

theorem Waits.get?_ne_none (hw : h.Waits ticket k) : h.table.get? k ≠ none := by
  obtain ⟨c, hc, -⟩ := hw.entry
  simp [hc]

inductive Tells (h h' : Host) : Prop
  | nobody : h'.answers = h.answers → (∀ t k, h'.Waits t k ↔ h.Waits t k) → Tells h h'
  | somebody {t k a} : h.Waits t k → h'.answers = h.answers ++ [(t, a)] →
      (a = .collided → h'.table.get? k = none) → (∀ u j, h'.Waits u j ↔ h.Waits u j ∧ j ≠ k) →
      Tells h h'

theorem tells_receive (hf : h.Filed) (ht : ∀ k, (h.side k).Tended) (s : Segment) :
    h.Tells (h.receive s) := by
  unfold receive
  cases s.kind? with
  | none => exact .nobody rfl fun _ _ => .rfl
  | some kind =>
    simp only
    have hside := h.receiveKind_side s kind
    have hothers := (h.confined_receiveKind s kind).others hf
    have ha := h.answers_receiveKind s kind
    rcases hside.told (ht _) with ⟨hn, hw⟩ | ⟨t, a, hw, hl, hw', he⟩
    · refine .nobody (by rw [ha, hn, List.append_nil]) fun u j => ?_
      by_cases hj : s.receiverPair = j
      · exact waits_congr (hj ▸ hw)
      · exact waits_congr (by rw [hothers j hj])
    · refine .somebody hw (by rw [ha, hl]) he fun u j => ?_
      by_cases hj : s.receiverPair = j
      · subst hj
        simp [Waits, hw']
      · simp [Waits, hothers j hj, Ne.symm hj]

/-- How a dial stands: it waits for its connection, or it has been told how it ended. One that has
collided leaves no entry until it is cleaned up. -/
inductive Tracks (h : Host) (d : Dial) : Prop
  | waiting : h.Waits d.ticket d.pair → Tracks h d
  | opened : h.answers.lookup d.ticket = some .opened → Tracks h d
  | collided : h.answers.lookup d.ticket = some .collided → h.table.get? d.pair = none → Tracks h d

theorem handshake_of_lookup {a : Answer} (hl : h.answers.lookup ticket = some a) :
    h.handshake ticket = .answered a := by
  simp [handshake, hl]

theorem handshake_of_waits (hl : h.answers.lookup ticket = none) (hw : h.Waits ticket k) :
    h.handshake ticket = .waiting := by
  obtain ⟨c, hc, hw⟩ := hw.entry
  have hany : h.table.connections.values.any (fun c => c.waiter = some ticket) = true :=
    List.any_eq_true.2 ⟨c, SortedMap.mem_values_iff.2 ⟨k, hc⟩, by simpa using hw⟩
  simp [handshake, hl, hany]

theorem Tracks.congr {d : Dial} (ht : h.Tracks d)
    (hw : h.Waits d.ticket d.pair → h'.Waits d.ticket d.pair)
    (hl : h'.answers.lookup d.ticket = h.answers.lookup d.ticket)
    (hn : h.answers.lookup d.ticket = some .collided → h.table.get? d.pair = none →
      h'.table.get? d.pair = none) : h'.Tracks d := by
  cases ht with
  | waiting hd => exact .waiting (hw hd)
  | opened ho => exact .opened (hl.trans ho)
  | collided hc hd => exact .collided (hl.trans hc) (hn hc hd)

/-- Who waits, waits for one connection and has not been told. A ticket that is not given out yet is
nobody's. -/
structure Tickets (h : Host) : Prop where
  waiting : ∀ t k, h.Waits t k → t < h.issued ∧ h.answers.lookup t = none
  alone : ∀ t j k, h.Waits t j → h.Waits t k → j = k
  told : ∀ x ∈ h.answers, x.1 < h.issued

namespace Tickets

theorem lookup_issued (ht : h.Tickets) : h.answers.lookup h.issued = none :=
  List.lookup_eq_none_iff.2 fun x hx => bne_iff_ne.2 (Nat.ne_of_gt (ht.told x hx))

theorem not_waits (ht : h.Tickets) (k : SocketPair) : ¬h.Waits h.issued k := fun hw =>
  Nat.lt_irrefl _ (ht.waiting _ _ hw).1

theorem mono (ht : h.Tickets) (hi : h.issued ≤ h'.issued) (ha : h'.answers ⊆ h.answers)
    (hw : ∀ t k, h'.Waits t k → h.Waits t k) : h'.Tickets where
  waiting t k hk := by
    obtain ⟨hlt, hl⟩ := ht.waiting t k (hw t k hk)
    rw [List.lookup_eq_none_iff] at hl ⊢
    exact ⟨Nat.lt_of_lt_of_le hlt hi, fun x hx => hl x (ha hx)⟩
  alone t j k hj hk := ht.alone t j k (hw t j hj) (hw t k hk)
  told x hx := Nat.lt_of_lt_of_le (ht.told x (ha hx)) hi

theorem tells (ht : h.Tickets) (hi : h.issued ≤ h'.issued) (hh : h.Tells h') : h'.Tickets := by
  cases hh with
  | nobody ha hw => exact ht.mono hi (ha ▸ List.Subset.refl _) fun t k => (hw t k).1
  | @somebody u k a hu ha _ hw =>
    constructor
    case waiting =>
      intro t j hj
      obtain ⟨hj, hne⟩ := (hw t j).1 hj
      obtain ⟨hlt, hl⟩ := ht.waiting t j hj
      -- The one who is told waited for this connection only.
      have htu : t ≠ u := fun heq => hne (ht.alone u j k (heq ▸ hj) hu)
      refine ⟨Nat.lt_of_lt_of_le hlt hi, ?_⟩
      rw [ha, List.lookup_append, hl]
      simp [htu]
    case alone => exact fun t i j hi hj => ht.alone t i j ((hw t i).1 hi).1 ((hw t j).1 hj).1
    case told =>
      intro x hx
      rw [ha] at hx
      rcases List.mem_append.1 hx with hx | hx
      · exact Nat.lt_of_lt_of_le (ht.told x hx) hi
      · rw [List.mem_singleton.1 hx]
        exact Nat.lt_of_lt_of_le (ht.waiting u k hu).1 hi

theorem tracks (ht : h.Tickets) {d : Dial} (hd : h.Tracks d)
    (hn : h.answers.lookup d.ticket ≠ some .collided) (hh : h.Tells h') : h'.Tracks d := by
  cases hh with
  | nobody ha hw => exact hd.congr (hw _ _).2 (by rw [ha]) fun hc => absurd hc hn
  | @somebody u k a hu ha he hw =>
    have hnone := (ht.waiting u k hu).2
    cases hd with
    | waiting hd =>
      by_cases hk : d.pair = k
      · subst hk
        obtain rfl : d.ticket = u := Option.some.inj (hd.symm.trans hu)
        have hl : h'.answers.lookup d.ticket = some a := by
          rw [ha, List.lookup_append, hnone]
          simp
        cases a with
        | opened => exact .opened hl
        | collided => exact .collided hl (he rfl)
      · exact .waiting ((hw _ _).2 ⟨hd, hk⟩)
    | opened hl =>
      refine .opened ?_
      rw [ha, List.lookup_append, hl]
      rfl
    | collided hl => exact absurd hl hn

theorem dialled (ht : h.Tickets) (hi : h.issued < h'.issued) (ha : h'.answers = h.answers)
    (hself : ∀ t, h'.Waits t k ↔ t = h.issued)
    (hother : ∀ t j, k ≠ j → (h'.Waits t j ↔ h.Waits t j)) : h'.Tickets where
  waiting t j hj := by
    by_cases hkj : k = j
    · subst hkj
      obtain rfl := (hself t).1 hj
      exact ⟨hi, ha ▸ ht.lookup_issued⟩
    · obtain ⟨hlt, hl⟩ := ht.waiting t j ((hother t j hkj).1 hj)
      exact ⟨Nat.lt_trans hlt hi, ha ▸ hl⟩
  alone t i j hi' hj := by
    by_cases hki : k = i <;> by_cases hkj : k = j
    · exact hki.symm.trans hkj
    · subst hki
      obtain rfl := (hself t).1 hi'
      exact absurd ((hother _ j hkj).1 hj) (ht.not_waits j)
    · subst hkj
      obtain rfl := (hself t).1 hj
      exact absurd ((hother _ i hki).1 hi') (ht.not_waits i)
    · exact ht.alone t i j ((hother t i hki).1 hi') ((hother t j hkj).1 hj)
  told x hx := Nat.lt_trans (ht.told x (ha ▸ hx)) hi

end Tickets

end Host

namespace Station

variable {s s' : Station} {op : Op} {d : Dial} {k : SocketPair} {ticket : Ticket}

structure Ticketed (s : Station) : Prop where
  filed : s.host.Filed
  tended : ∀ k, (s.host.side k).Tended
  tickets : s.host.Tickets
  given : ∀ d ∈ s.dials, d.ticket < s.host.issued
  distinct : s.dials.Pairwise fun d d' => d.ticket ≠ d'.ticket
  aimed : ∀ d ∈ s.dials, ∀ k, s.host.Waits d.ticket k → k = d.pair

/-- A station keeps track of every dial. -/
structure Attended (s : Station) : Prop where
  filed : s.host.Filed
  tended : ∀ k, (s.host.side k).Tended
  tickets : s.host.Tickets
  given : ∀ d ∈ s.dials, d.ticket < s.host.issued
  distinct : s.dials.Pairwise fun d d' => d.ticket ≠ d'.ticket
  dials : ∀ d ∈ s.dials, s.host.Tracks d

theorem attended_fresh (address : HostId) (recvWindow sendWindow patience : Nat) :
    (fresh address recvWindow sendWindow patience).Attended where
  filed := filed_fresh address recvWindow sendWindow patience
  tended _ := .inl rfl
  tickets := ⟨fun _ _ h => (nomatch h), fun _ _ _ h => (nomatch h), fun _ h => (nomatch h)⟩
  given _ h := nomatch h
  distinct := .nil
  dials _ h := nomatch h

theorem Attended.ticketed (h : s.Attended) : s.Ticketed where
  filed := h.filed
  tended := h.tended
  tickets := h.tickets
  given := h.given
  distinct := h.distinct
  aimed d hd k hw := by
    have hnone := (h.tickets.waiting _ _ hw).2
    cases h.dials d hd with
    | waiting hd => exact h.tickets.alone _ _ _ hw hd
    | opened hl | collided hl => exact absurd (hnone.symm.trans hl) nofun

theorem Attended.not_dropped (h : s.Attended) (hd : d ∈ s.dials) :
    s.host.handshake d.ticket ≠ .dropped := by
  cases h.dials d hd with
  | waiting hw => simp [Host.handshake_of_waits (h.tickets.waiting _ _ hw).2 hw]
  | opened hl | collided hl => simp [Host.handshake_of_lookup hl]

theorem Attended.tells (h : s.Attended) (hf : s'.host.Filed) (ht : ∀ k, (s'.host.side k).Tended)
    (hi : s.host.issued ≤ s'.host.issued) (hd : s'.dials.Sublist s.dials)
    (hn : ∀ d ∈ s.dials, s.host.answers.lookup d.ticket ≠ some .collided)
    (hh : s.host.Tells s'.host) : s'.Attended where
  filed := hf
  tended := ht
  tickets := h.tickets.tells hi hh
  given d hm := Nat.lt_of_lt_of_le (h.given d (hd.subset hm)) hi
  distinct := h.distinct.sublist hd
  dials d hm := h.tickets.tracks (h.dials d (hd.subset hm)) (hn d (hd.subset hm)) hh

/-! ## Ending dials -/

theorem lookup_filter {p : Ticket → Bool} (l : List (Ticket × Answer)) {u : Ticket}
    (hu : p u = true) : (l.filter fun x => p x.1).lookup u = l.lookup u := by
  induction l with
  | nil => rfl
  | cons x rest ih =>
    by_cases hx : p x.1 = true
    · rw [List.filter_cons_of_pos (by exact hx), List.lookup_cons, List.lookup_cons, ih]
    · have hne : u ≠ x.1 := fun he => hx (he ▸ hu)
      rw [List.filter_cons_of_neg (by exact hx), ih, List.lookup_cons, beq_eq_false_iff_ne.2 hne]

theorem lookup_filter_ne (l : List (Ticket × Answer)) {u : Ticket} (hu : u ≠ ticket) :
    (l.filter fun x => x.1 ≠ ticket).lookup u = l.lookup u :=
  lookup_filter (p := fun t => t ≠ ticket) l (by simpa using hu)

theorem Attended.ended (h : s.Attended) (ticket : Ticket) (hf : s'.host.Filed)
    (ht : s'.host.table = s.host.table) (hi : s'.host.issued = s.host.issued)
    (ha : s'.host.answers = s.host.answers.filter fun x => x.1 ≠ ticket)
    (hd : s'.dials = s.dials.filter fun d => d.ticket ≠ ticket) : s'.Attended := by
  have hw (t : Ticket) (k : SocketPair) : s'.host.Waits t k ↔ s.host.Waits t k :=
    Host.waits_congr (congrArg (fun t : Table => (t.get k).waiter) ht)
  have sub : s'.dials.Sublist s.dials := hd ▸ List.filter_sublist
  constructor
  case filed => exact hf
  case tended => exact fun k => (h.tended k).congr (congrArg (Table.get? · k) ht)
  case tickets =>
    exact h.tickets.mono (Nat.le_of_eq hi.symm) (ha ▸ List.filter_sublist.subset) fun t k =>
      (hw t k).1
  case given =>
    intro d hm
    rw [hi]
    exact h.given d (sub.subset hm)
  case distinct => exact h.distinct.sublist sub
  case dials =>
    intro d hm
    have hne : d.ticket ≠ ticket := by
      rw [hd] at hm
      simpa using (List.mem_filter.1 hm).2
    refine (h.dials d (sub.subset hm)).congr (hw _ _).2 ?_ fun _ hn => ht ▸ hn
    rw [ha, lookup_filter_ne _ hne]

theorem Attended.cancel (h : s.Attended) (ticket : Ticket) : (s.cancel ticket).Attended :=
  h.ended ticket ((s.steady_cancel ticket).filed h.filed) rfl rfl rfl rfl

theorem Attended.cleanUp (h : s.Attended) (hk : ∀ d ∈ s.dials, ¬s.host.Waits d.ticket k) :
    (s.cleanUp k).Attended := by
  have hf := (s.steady_cleanUp k).filed h.filed
  have self : (s.cleanUp k).host.side k = (s.host.side k).forgotten := Side.of_forget _ _ _
  have others {j : SocketPair} (hj : k ≠ j) : (s.cleanUp k).host.side j = s.host.side j :=
    ((Host.Confined.remove (h := s.host)).trans .release).others h.filed j hj
  constructor
  case filed => exact hf
  case tended =>
    intro j
    by_cases hkj : k = j
    · subst hkj
      rw [self]
      exact .inl rfl
    · rw [others hkj]
      exact h.tended j
  case tickets =>
    exact h.tickets.mono (Nat.le_refl _) (List.Subset.refl _) fun t j hj => by
      by_cases hkj : k = j
      · subst hkj
        rw [Host.Waits, self] at hj
        cases hj
      · rwa [Host.Waits, others hkj] at hj
  case given => exact h.given
  case distinct => exact h.distinct
  case dials =>
    intro d hm
    refine (h.dials d hm).congr (fun hw => ?_) rfl fun _ hn => ?_
    · have hkd : k ≠ d.pair := fun he => hk d hm (he ▸ hw)
      rwa [Host.Waits, others hkd]
    · by_cases hkd : k = d.pair
      · subst hkd
        exact Table.get?_remove_self _ _
      · exact (Table.get?_remove_of_ne _ hkd).trans hn

theorem Attended.settle (h : s.Attended) (hd : d ∈ s.dials) :
    (s.settle d).1.Attended ∧ (s.settle d).1.host.table = s.host.table := by
  unfold Station.settle
  split
  · exact ⟨h, rfl⟩
  · exact ⟨h.cancel d.ticket, rfl⟩
  · rename_i hh
    have hl := lookup_of_handshake hh
    -- What a collision has left behind is gone already.
    have ht : s.host.table.remove d.pair = s.host.table := by
      cases h.dials d hd with
      | waiting hw => simp [(h.tickets.waiting _ _ hw).2] at hl
      | opened ho => simp [ho] at hl
      | collided _ hn =>
        rw [Table.remove, SortedMap.erase_of_not_mem (SortedMap.not_mem_keys hn)]
    refine ⟨h.ended d.ticket ?_ ht rfl rfl rfl, ht⟩
    exact ((s.steady_cancel _).trans (steady_cleanUp _ d.pair)).filed h.filed
  · rename_i hh
    exact absurd hh (h.not_dropped hd)

theorem mem_dials_settle {d' : Dial} (hd : d' ∈ s.dials) (hne : d'.ticket ≠ d.ticket) :
    d' ∈ (s.settle d).1.dials := by
  have hc : d' ∈ (s.cancel d.ticket).dials := List.mem_filter.2 ⟨hd, by simpa using hne⟩
  unfold settle
  split
  · exact hd
  · exact hc
  · exact hc
  · exact hc

theorem Attended.settleAll {l : List Dial} (h : s.Attended) (hl : ∀ d ∈ l, d ∈ s.dials)
    (hp : l.Pairwise fun d d' => d.ticket ≠ d'.ticket) :
    (s.settleAll l).1.Attended ∧ (s.settleAll l).1.host.table = s.host.table := by
  induction l generalizing s with
  | nil => exact ⟨h, rfl⟩
  | cons d rest ih =>
    obtain ⟨hne, hp⟩ := List.pairwise_cons.1 hp
    obtain ⟨hd, hl⟩ := List.forall_mem_cons.1 hl
    obtain ⟨h', ht⟩ := h.settle hd
    obtain ⟨h'', ht'⟩ := ih h' (fun d' hd' => mem_dials_settle (hl d' hd') (hne d' hd').symm) hp
    exact ⟨h'', ht'.trans ht⟩

/-! ## What comes next -/

def Op.ends (d : Dial) : Op → Bool
  | .call .resumeAll => true
  | .call (.resume ticket) | .call (.cancel ticket) => ticket = d.ticket
  | _ => false

def Op.movesDials : Op → Bool
  | .call (.connect _ _) | .call (.resume _) | .call .resumeAll | .call (.cancel _)
  | .expire _ => true
  | _ => false

theorem Op.ends_eq_false (h : op.movesDials = false) (d : Dial) : op.ends d = false := by
  cases op with
  | call c => cases c <;> first | rfl | cases h
  | _ => rfl

theorem Op.settles_eq_false (h : op.movesDials = false) : op.settles = false := by
  cases op with
  | call c => cases c <;> first | rfl | cases h
  | _ => first | rfl | cases h

theorem Op.connect_or (op : Op) : (∃ farHost farPort, op = .call (.connect farHost farPort)) ∨
    ∀ farHost farPort, op ≠ .call (.connect farHost farPort) := by
  by_cases h : ∃ farHost farPort, op = .call (.connect farHost farPort)
  · exact .inl h
  · exact .inr fun farHost farPort he => h ⟨farHost, farPort, he⟩

theorem Op.ne_connect (h : op.movesDials = false) (farHost : HostId) (farPort : Port) :
    op ≠ .call (.connect farHost farPort) := by
  rintro rfl
  cases h

def clean (s : Station) (op : Op) : Bool :=
  s.dials.all fun d =>
    match s.host.handshake d.ticket with
    | .waiting => true
    | .answered .opened => op ≠ .expire d.ticket
    | .answered .collided | .dropped => op.ends d

/-- In every step of a run the clean-up of a failed call comes first. -/
def cleanly (s : Station) : List Op → Bool
  | [] => true
  | op :: rest => s.clean op && (s.step op).1.cleanly rest

theorem not_collided_of_clean (hc : s.clean op = true) (hd : d ∈ s.dials) (ho : op.ends d = false) :
    s.host.answers.lookup d.ticket ≠ some .collided := by
  intro hl
  have hcd := List.all_eq_true.1 hc d hd
  rw [Host.handshake_of_lookup hl, ho] at hcd
  cases hcd

theorem Attended.waits_of_expire (h : s.Attended) (hc : s.clean (.expire d.ticket) = true)
    (hd : d ∈ s.dials) : s.host.Waits d.ticket d.pair := by
  cases h.dials d hd with
  | waiting hw => exact hw
  | opened hl =>
    have hcd := List.all_eq_true.1 hc d hd
    rw [Host.handshake_of_lookup hl] at hcd
    simp at hcd
  | collided hl => exact absurd hl (not_collided_of_clean hc hd rfl)

theorem Attended.expire (h : s.Attended) (hc : s.clean (.expire ticket) = true) :
    (s.expire ticket).Attended ∧ ∀ k, (s.host.side k).phase = .synReceived →
      ((s.expire ticket).host.side k).phase = .synReceived := by
  unfold Station.expire
  split
  · exact ⟨h, fun _ => id⟩
  · rename_i d hd
    obtain rfl : d.ticket = ticket := by simpa using List.find?_some hd
    have hw := h.waits_of_expire hc (List.mem_of_find?_eq_some hd)
    refine ⟨(h.cancel d.ticket).cleanUp fun d' hd' hw' => ?_, fun k hk => ?_⟩
    · have hne : d'.ticket ≠ d.ticket := by simpa using (List.mem_filter.1 hd').2
      exact hne (Option.some.inj (hw'.symm.trans hw))
    · have hkd : d.pair ≠ k := by
        rintro rfl
        rcases h.tended d.pair with hn | hp
        · exact absurd (hw.symm.trans hn) nofun
        · exact absurd (hk.symm.trans hp) (by decide)
      rw [s.cleanUp_side_of_ne h.filed d.ticket hkd]
      exact hk

theorem Attended.resume (h : s.Attended) (ticket : Ticket) :
    (s.resume ticket).1.Attended ∧ (s.resume ticket).1.host.table = s.host.table := by
  unfold Station.resume
  split
  · exact ⟨h, rfl⟩
  · rename_i d hd
    exact h.settle (List.mem_of_find?_eq_some hd)

theorem Attended.unaccepted (h : s.Attended) (hc : s.clean op = true) (ho : op.settles = true)
    (hk : (s.host.side k).phase = .synReceived) :
    ((s.step op).1.host.side k).phase = .synReceived := by
  cases op with
  | call c =>
    cases c with
    | resume ticket =>
      have ht := (h.resume ticket).2
      exact ((congrArg (Table.phase · k) ht).trans hk :)
    | resumeAll =>
      have ht := (h.settleAll (fun _ => id) h.distinct).2
      exact ((congrArg (Table.phase · k) ht).trans hk :)
    | _ => cases ho
  | expire ticket => exact (h.expire hc).2 k hk
  | _ => cases ho

/-! ## Tickets and backlogs -/

theorem proceeds_cancel (s : Station) (ticket : Ticket) :
    s.host.Proceeds (s.cancel ticket).host := .aside rfl (Nat.le_refl _)

theorem proceeds_cleanUp (s : Station) (ticket : Ticket) (k : SocketPair) :
    s.host.Proceeds ((s.cancel ticket).cleanUp k).host := by
  have hgone : Host.Touches k False (s.cancel ticket).host ((s.cancel ticket).cleanUp k).host :=
    (Host.Touches.remove _).trans (.release _)
  exact (proceeds_cancel s ticket).trans (.touches hgone)

theorem proceeds_settle (d : Dial) : s.host.Proceeds (s.settle d).1.host := by
  unfold settle
  split
  · exact .refl _
  · exact proceeds_cancel s d.ticket
  · exact proceeds_cleanUp s d.ticket d.pair
  · exact proceeds_cleanUp s d.ticket d.pair

theorem proceeds_settleAll (l : List Dial) : s.host.Proceeds (s.settleAll l).1.host := by
  induction l generalizing s with
  | nil => exact .refl _
  | cons d rest ih => exact (proceeds_settle d).trans ih

theorem proceeds_connect (farHost : HostId) (farPort : Port) :
    s.host.Proceeds (s.connect farHost farPort).1.host := by
  unfold connect
  split
  · exact .refl _
  cases s.host.table.freePort? with
  | none => exact .refl _
  | some port =>
    simp only
    generalize (⟨⟨farHost, farPort⟩, ⟨s.address, port⟩⟩ : SocketPair) = k
    have hput : Host.Touches k False s.host { s.host with
        table := s.host.table.put k { s.host.table.get k with waiter := some s.host.issued } } :=
      .put _ _
    have hawait : s.host.Proceeds (s.host.await k).1 :=
      (Host.Proceeds.touches hput).trans (.aside rfl (Nat.le_succ _))
    have happly : s.host.Proceeds ((s.host.await k).1.apply k .connect none {}).1 :=
      hawait.trans (.touches ((s.host.await k).1.touches_apply k .connect none {} (by simp)))
    split
    · rename_i g _ heq
      rw [heq] at happly
      have hremove : Host.Touches k False g { g with table := g.table.remove k } := .remove g
      exact happly.trans (.touches hremove)
    · rename_i heq
      rw [heq] at happly
      exact happly.trans (.nudge _)

theorem proceeds_tickIn (h : Host) (order : List SocketPair) : h.Proceeds (h.tickIn order) := by
  induction order generalizing h with
  | nil => exact .refl h
  | cons k rest ih => exact (Host.Proceeds.touches (h.touches_tickOne k)).trans (ih _)

theorem proceeds_step (hop : ∀ p, op ≠ .call (.accept p)) :
    s.host.Proceeds (s.step op).1.host := by
  cases op with
  | call c =>
    cases c with
    | connect farHost farPort => exact proceeds_connect farHost farPort
    | resume ticket =>
      simp only [step, call, Station.resume]
      split
      · exact .refl _
      · exact proceeds_settle _
    | resumeAll => exact proceeds_settleAll s.dials
    | cancel ticket => exact proceeds_cancel s ticket
    | accept p => exact absurd rfl (hop p)
    | read k buffer => exact .touches (s.host.touches_read k buffer)
    | write k data =>
      have hsend := Host.Proceeds.touches (s.host.touches_sendAll (k := k) (payloads data))
      simp only [step, call, write]
      split
      · rename_i heq
        rwa [heq] at hsend
      · rename_i heq
        rw [heq] at hsend
        exact hsend.trans (.nudge _)
    | close k =>
      have happly := Host.Proceeds.touches
        (s.host.touches_apply k .close none (s.host.facts k) (by simp))
      simp only [step, call, close]
      split
      · rename_i heq
        rwa [heq] at happly
      · rename_i heq
        rw [heq] at happly
        exact happly.trans (.nudge _)
  | receive x => exact .touches (s.host.touches_receive x)
  | receiveFrame f =>
    simp only [step, receiveFrame, Host.receiveFrame]
    split
    · exact .refl _
    · exact .touches (s.host.touches_receive _)
  | tick => exact (proceeds_tickIn s.host _).trans (.nudge _)
  | expire ticket =>
    simp only [step, Station.expire]
    split
    · exact .refl _
    · exact proceeds_cleanUp s ticket _
  | poll => exact .aside rfl (Nat.le_refl _)
  | sendRound =>
    simp only [step, sendRound]
    split
    · exact .aside rfl (Nat.le_refl _)
    · exact .refl _

theorem onward_step (hop : ∀ p, op ≠ .call (.accept p)) : s.host.Onward (s.step op).1.host :=
  (proceeds_step hop).onward

theorem issued_accept (p : Port) : s.host.issued ≤ (s.accept p).1.host.issued := by
  unfold accept
  split
  · exact Nat.le_refl _
  simp only
  split
  · exact Nat.le_refl _
  · rename_i table syn _
    have hon := (Host.touches_apply { s.host with table } syn.receiverPair .accept (some syn) {}
      (by simp)).onward.issued
    split
    · rename_i heq
      rwa [heq] at hon
    · rename_i heq
      rwa [heq] at hon

theorem issued_step (s : Station) (op : Op) : s.host.issued ≤ (s.step op).1.host.issued := by
  by_cases hop : ∃ p, op = .call (.accept p)
  · obtain ⟨p, rfl⟩ := hop
    exact issued_accept p
  · exact (onward_step fun p he => hop ⟨p, he⟩).issued

/-! ## Dialling -/

theorem issued_connect {farHost : HostId} {farPort : Port} {t : Ticket}
    (hr : (s.connect farHost farPort).2 = .ok t) :
    s.host.issued < (s.connect farHost farPort).1.host.issued := by
  unfold connect at hr ⊢
  split at hr
  · cases hr
  · rename_i hv
    rw [if_neg hv]
    cases hp : s.host.table.freePort? with
    | none => simp [hp] at hr
    | some port =>
      simp only [hp] at hr ⊢
      generalize (⟨⟨farHost, farPort⟩, ⟨s.address, port⟩⟩ : SocketPair) = k at hr ⊢
      have hon := ((s.host.await k).1.touches_apply k .connect none {} (by simp)).onward.issued
      split at hr
      · cases hr
      · rename_i heq
        rw [heq] at hon
        exact hon

theorem connect_waits (hf : s.host.Filed) (farHost : HostId) (farPort : Port) :
    (∃ f, s.connect farHost farPort = (s, .error f)) ∨ ∃ k, s.host.table.get? k = none ∧
      (s.connect farHost farPort).1.dials = s.dials ++ [⟨s.host.issued, k⟩] ∧
      s.host.issued < (s.connect farHost farPort).1.host.issued ∧
      (∀ t, (s.connect farHost farPort).1.host.Waits t k ↔ t = s.host.issued) ∧
      ∀ t j, k ≠ j → ((s.connect farHost farPort).1.host.Waits t j ↔ s.host.Waits t j) := by
  rcases s.connect_spec hf farHost farPort with hfail | ⟨k, -, -, hc, hr, hd, hk, ho⟩
  · exact .inl hfail
  refine .inr ⟨k, hc, hd, issued_connect hr, fun t => ?_, fun t j hj =>
    Host.waits_congr (by rw [ho j hj])⟩
  rw [Host.Waits, hk]
  exact ⟨fun he => (Option.some.inj he).symm, fun he => he ▸ rfl⟩

theorem Ticketed.connect (h : s.Ticketed) (farHost : HostId) (farPort : Port) :
    (s.connect farHost farPort).1.Ticketed := by
  rcases connect_waits h.filed farHost farPort with ⟨f, hs⟩ | ⟨k, hc, hd, hi, hself, hother⟩
  · rw [hs]
    exact h
  have ha := s.answers_connect farHost farPort
  have hf := (s.steady_connect farHost farPort).filed h.filed
  have ht (j : SocketPair) := (s.connect_side h.filed farHost farPort j).tended (h.tended j)
  generalize (s.connect farHost farPort).1 = s' at *
  have split {P : Dial → Prop} (hold : ∀ d ∈ s.dials, P d) (hnew : P ⟨s.host.issued, k⟩) :
      ∀ d ∈ s'.dials, P d := by
    intro d hm
    rw [hd] at hm
    rcases List.mem_append.1 hm with hm | hm
    · exact hold d hm
    · rw [List.mem_singleton.1 hm]
      exact hnew
  constructor
  case filed => exact hf
  case tended => exact ht
  case tickets => exact h.tickets.dialled hi ha hself hother
  case given => exact split (fun d hm => Nat.lt_trans (h.given d hm) hi) hi
  case distinct =>
    rw [hd, List.pairwise_append]
    refine ⟨h.distinct, List.pairwise_singleton _ _, fun d hm d' hm' => ?_⟩
    rw [List.mem_singleton.1 hm']
    exact Nat.ne_of_lt (h.given d hm)
  case aimed =>
    refine split (fun d hm j hw => ?_) fun j hw => Decidable.byContradiction fun hkj => ?_
    · have hkj : k ≠ j := by
        rintro rfl
        exact absurd ((hself _).1 hw) (Nat.ne_of_lt (h.given d hm))
      exact h.aimed d hm j ((hother _ _ hkj).1 hw)
    · exact h.tickets.not_waits j ((hother _ _ (Ne.symm hkj)).1 hw)

theorem Attended.connect (h : s.Attended) (farHost : HostId) (farPort : Port)
    (hn : ∀ d ∈ s.dials, s.host.answers.lookup d.ticket ≠ some .collided) :
    (s.connect farHost farPort).1.Attended := by
  obtain ⟨hf, ht, htickets, hgiven, hdistinct, -⟩ := h.ticketed.connect farHost farPort
  refine ⟨hf, ht, htickets, hgiven, hdistinct, fun d hm => ?_⟩
  rcases connect_waits h.filed farHost farPort with ⟨f, hs⟩ | ⟨k, hc, hd, -, hself, hother⟩
  · rw [hs] at hm ⊢
    exact h.dials d hm
  rw [hd] at hm
  rcases List.mem_append.1 hm with hm | hm
  · refine (h.dials d hm).congr (fun hw => ?_) (by rw [s.answers_connect]) fun hl =>
      absurd hl (hn d hm)
    -- The connection that is dialled had no entry, so nobody waited for it.
    have hkd : k ≠ d.pair := fun he => hw.get?_ne_none (he ▸ hc)
    exact (hother _ _ hkd).2 hw
  · rw [List.mem_singleton.1 hm]
    exact .waiting ((hself _).2 rfl)

/-! ## All operations -/

theorem Attended.quiet (h : s.Attended) (hc : s.clean op = true) (hop : op.movesDials = false)
    (ha : op.arrival? = none) (hans : (s.step op).1.host.answers = s.host.answers) :
    (s.step op).1.Attended :=
  h.tells ((s.step_steady op).filed h.filed)
    (fun k => (s.step_side h.filed op k).tended (h.tended k)) (issued_step s op)
    (s.dials_step (Op.ne_connect hop))
    (fun _ hm => not_collided_of_clean hc hm (Op.ends_eq_false hop _))
    (.nobody hans fun _ k => Host.waits_congr ((s.step_side h.filed op k).waiter (h.tended k) ha
      (Op.settles_eq_false hop) (Op.ne_connect hop)))

theorem Attended.receive (h : s.Attended) (x : Segment) (hc : s.clean (.receive x) = true) :
    (s.receive x).Attended :=
  h.tells ((s.step_steady (.receive x)).filed h.filed)
    (fun k => (s.step_side h.filed (.receive x) k).tended (h.tended k))
    (s.host.touches_receive x).onward.issued (List.Sublist.refl _)
    (fun _ hm => not_collided_of_clean hc hm rfl) (s.host.tells_receive h.filed h.tended x)

theorem Attended.step (h : s.Attended) (hc : s.clean op = true) : (s.step op).1.Attended := by
  cases op with
  | call c =>
    cases c with
    | connect farHost farPort =>
      exact h.connect farHost farPort fun _ hm => not_collided_of_clean hc hm rfl
    | resume ticket => exact (h.resume ticket).1
    | resumeAll => exact (h.settleAll (fun _ => id) h.distinct).1
    | cancel ticket => exact h.cancel ticket
    | accept p => exact h.quiet hc rfl rfl (s.answers_accept p)
    | read k buffer => exact h.quiet hc rfl rfl rfl
    | write k data => exact h.quiet hc rfl rfl (s.answers_write k data)
    | close k => exact h.quiet hc rfl rfl (s.answers_close k)
  | receive x => exact h.receive x hc
  | receiveFrame f =>
    cases hx : Segment.ofFrame f with
    | error fault =>
      simp only [Station.step, receiveFrame, Host.receiveFrame, hx]
      exact h
    | ok x =>
      have := h.receive x hc
      simpa only [Station.step, receiveFrame, Host.receiveFrame, hx, Station.receive] using this
  | tick => exact h.quiet hc rfl rfl (s.host.answers_tickIn _)
  | expire ticket => exact (h.expire hc).1
  | poll => exact h.quiet hc rfl rfl rfl
  | sendRound =>
    refine h.quiet hc rfl rfl ?_
    simp only [Station.step, sendRound]
    split <;> rfl

end Station

end ReliableStream
