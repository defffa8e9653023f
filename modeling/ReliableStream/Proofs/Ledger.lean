import ReliableStream.Proofs.Resending
import ReliableStream.Proofs.Reuse
import ReliableStream.Proofs.Window

/-!
The books of one end of a connection, whatever the far end does: a segment that the near end has
queued waits, is unacknowledged or has been acknowledged, and a reply that reaches the near end
answers a segment that it has sent, with the kind that belongs to that segment.
-/

namespace ReliableStream

open Side

def Kind.reply : Kind → Kind
  | .syn => .synAck
  | .fin => .finAck
  | _ => .ack

def Segment.Echoes (y x : Segment) : Prop :=
  y.seq = x.seq ∧ y.payload = [] ∧ ∃ kind, x.kind? = some kind ∧ y.kind? = some kind.reply

theorem Segment.echoes_answer {s : Segment} {kind : Kind} (h : s.kind? = some kind) :
    (s.answer kind.reply).Echoes s :=
  ⟨rfl, rfl, kind, h, s.kind?_answer _⟩

theorem Segment.Echoes.kind {x y : Segment} (h : y.Echoes x) {kind : Kind}
    (hx : x.kind? = some kind) : y.kind? = some kind.reply := by
  obtain ⟨-, -, kind', hx', hy⟩ := h
  rw [hx] at hx'
  rw [Option.some.inj hx']
  exact hy

namespace Window

theorem exists_has {w : Window} (h : w.isDrained = false) : ∃ s, w.has s := by
  cases hp : w.pending with
  | cons s rest => exact ⟨s, .inl (by rw [hp]; exact List.mem_cons_self)⟩
  | nil =>
    cases hu : w.unacked.values with
    | cons s rest =>
      exact ⟨s, .inr (SortedMap.mem_values_iff.1 (by rw [hu]; exact List.mem_cons_self))⟩
    | nil =>
      have hu : w.unacked.entries = [] := List.map_eq_nil_iff.1 hu
      simp [isDrained, hp, SortedMap.isEmpty, hu] at h

end Window

namespace Side

variable {cfg : Settings} {room : Nat} {k : SocketPair} {op : Station.Op} {r : Station.Reply}
  {e e' : Side} {s : Segment} {kind : Kind} {log : List Segment}

/-! ## Replies -/

theorem again_eq_reply {p : Phase} {kind' : Kind} (h : p.again kind = some kind') :
    kind' = kind.reply := by
  cases kind <;> simp_all [Phase.again, Kind.reply]

theorem Hears.echoes (h : Hears room k s kind e e') (hk : s.kind? = some kind) {y : Segment}
    (hy : y ∈ e'.replies) : y ∈ e.replies ∨ kind.isReply = false ∧ y.Echoes s := by
  have one (hr : kind.isReply = false) (hy : y ∈ e.replies ++ [s.answer kind.reply]) :
      y ∈ e.replies ∨ kind.isReply = false ∧ y.Echoes s := by
    refine (List.mem_append.1 hy).imp id fun hy => ⟨hr, ?_⟩
    rw [List.mem_singleton.1 hy]
    exact Segment.echoes_answer hk
  cases h with
  | strangeFin | finished | finishedAgain => exact one rfl hy
  | kept | halted | crossed | greeted => exact one rfl hy
  | discarded _ _ hp => rcases hp with ⟨rfl, -⟩ | ⟨rfl, -⟩ <;> exact one rfl hy
  | stale hr hc =>
    refine (List.mem_append.1 hy).imp id fun hy => ⟨hr, ?_⟩
    obtain ⟨l, hl, rfl⟩ := List.mem_map.1 hy
    rw [again_eq_reply (Option.mem_toList.1 hl)]
    exact Segment.echoes_answer hk
  | _ => exact .inl hy

theorem Step.echoes (h : Step cfg k op r e e') (hw : ∀ x ∈ e.waiting, x.kind? = some .syn)
    {y : Segment} (hy : y ∈ e'.replies) : y ∈ e.replies ∨
      ∃ x, (Arrives k op x ∧ x.isReply = false ∨ x ∈ e.waiting) ∧ y.Echoes x := by
  cases h with
  | @heard _ x kind _ _ ha hk hp hh =>
    refine (hh.echoes hk hy).imp id fun ⟨hr, hy⟩ => ⟨x, .inl ⟨⟨ha, hp⟩, ?_⟩, hy⟩
    simp [Segment.isReply, hk, hr]
  | @accepted _ c syn rest hc hp hw' =>
    have hsyn : syn ∈ e.waiting := by
      rw [hw']
      exact List.mem_cons_self
    refine (List.mem_append.1 hy).imp id fun hy => ⟨syn, .inr hsyn, ?_⟩
    rw [List.mem_singleton.1 hy]
    exact Segment.echoes_answer (hw syn hsyn)
  | wrote =>
    rw [(pushData_eq _ _).2.1] at hy
    exact .inl hy
  | polled => cases hy
  | _ => exact .inl hy

/-! ## The window -/

theorem Sends.mem_pending (h : Sends k op r e e') (hs : s ∈ e'.win.pending) :
    s ∈ e.win.pending ∨ s ∈ e.queuedSince e' := by
  have push {o : Side} {x : Segment} (hw : e'.win = (o.push x).win)
      (hp : o.win.pending = e.win.pending) : s ∈ e.win.pending ∨ s ∈ e.queuedSince e' := by
    have he : e'.win.pending = e.win.pending ++ [{ x with seq := o.win.next }] := by
      rw [hw, win_push, Window.pending_push, hp]
    rw [queuedSince_of_append he]
    rw [he] at hs
    exact List.mem_append.1 hs
  cases h with
  | gone _ hp =>
    rw [hp] at hs
    cases hs
  | quiet hw => exact .inl (by rwa [hw] at hs)
  | acked _ _ hw => exact .inl (by rwa [hw, win_acked] at hs)
  | drained _ _ _ hw => exact push hw (by rw [win_acked])
  | finished _ hw => exact push hw rfl
  | halted _ hw => exact push hw rfl
  | @wrote data _ _ he =>
    rw [he, queuedSince_pushData]
    rw [he, pending_pushData] at hs
    exact List.mem_append.1 hs
  | resent hw => exact .inl (by rwa [hw] at hs)
  | sent hw => exact .inl (Window.mem_pending_of_advance (by rwa [hw] at hs))

theorem Sends.unacked (h : Sends k op r e e') (hs : e'.Sound) {i : SequenceNumber}
    (hi : e'.win.unacked.get? i = some s) : e.win.unacked.get? i = some s ∨
      ∃ limit, e'.win = e.win.advance limit ∧ s ∈ e.win.admitted limit := by
  cases h with
  | gone hp =>
    rw [win, (hs.shut (.inl hp)).1] at hi
    cases hi
  | quiet hw => exact .inl (by rwa [hw] at hi)
  | acked _ _ hw => exact .inl (SortedMap.get?_of_erase (by rwa [hw, win_acked] at hi))
  | drained _ _ _ hw =>
    exact .inl (SortedMap.get?_of_erase (by rwa [hw, win_push, win_acked] at hi))
  | finished _ hw => exact .inl (by rwa [hw] at hi)
  | halted _ hw => exact .inl (by rwa [hw] at hi)
  | wrote _ _ he => exact .inl (by rwa [he, win_pushData] at hi)
  | resent hw => exact .inl (by rwa [hw] at hi)
  | @sent limit hw =>
    rw [hw] at hi
    exact (Window.unacked_advance hi).imp id fun hs => ⟨limit, hw, hs⟩

theorem Sends.kept (h : Sends k op r e e') (ho : e'.phase ≠ .closed)
    (hw : e.win.pending.Pairwise fun s t => s.seq ≠ t.seq)
    (hs : s ∈ e.win.pending ∨ e.win.unacked.get? s.seq = some s ∧ ∀ t ∈ e.win.pending, t.seq ≠ s.seq) :
    s ∈ e'.win.pending ∨ e'.win.unacked.get? s.seq = some s ∨
      e.win.unacked.get? s.seq = some s ∧
        ∃ x, Arrives k op x ∧ x.isReply = true ∧ x.seq = s.seq := by
  have same (hp : e.win.pending <+: e'.win.pending) (hu : e'.win.unacked = e.win.unacked) :
      s ∈ e'.win.pending ∨ e'.win.unacked.get? s.seq = some s ∨
        e.win.unacked.get? s.seq = some s ∧
          ∃ x, Arrives k op x ∧ x.isReply = true ∧ x.seq = s.seq := by
    rw [hu]
    exact hs.imp (hp.subset ·) fun hs => .inl hs.1
  have erased {x : Segment} (hx : Arrives k op x) (hr : x.isReply = true)
      (hp : e.win.pending <+: e'.win.pending) (hu : e'.win.unacked = e.win.unacked.erase x.seq) :
      s ∈ e'.win.pending ∨ e'.win.unacked.get? s.seq = some s ∨
        e.win.unacked.get? s.seq = some s ∧
          ∃ x, Arrives k op x ∧ x.isReply = true ∧ x.seq = s.seq := by
    refine hs.imp (hp.subset ·) fun hs => ?_
    by_cases hne : x.seq = s.seq
    · exact .inr ⟨hs.1, x, hx, hr, hne⟩
    · exact .inl (by rw [hu, SortedMap.get?_erase_of_ne _ hne]; exact hs.1)
  cases h with
  | gone hp => exact absurd hp ho
  | quiet hw' =>
    exact same ⟨[], by rw [hw', List.append_nil]⟩ (by rw [hw'])
  | acked hx hr hw' =>
    exact erased hx hr ⟨[], by rw [hw', win_acked, List.append_nil]⟩ (by rw [hw', win_acked])
  | drained hx hr _ hw' =>
    exact erased hx hr (by rw [hw', win_push, win_acked]; exact List.prefix_append _ _)
      (by rw [hw', win_push, win_acked]; rfl)
  | finished _ hw' | halted _ hw' =>
    exact same (by rw [hw', win_push]; exact List.prefix_append _ _) (by rw [hw']; rfl)
  | @wrote data _ _ he =>
    exact same (by rw [he, pending_pushData]; exact List.prefix_append _ _)
      (by rw [he, win_pushData]; rfl)
  | resent hw' => exact same ⟨[], by rw [hw', List.append_nil]⟩ (by rw [hw'])
  | sent hw' =>
    rw [hw']
    exact (Window.kept_advance hw hs).imp id .inl

theorem Sends.mem_resends (h : Sends k op r e e') (hs : e'.Sound) (hx : s ∈ e'.resends) :
    s ∈ e.resends ∨ ∃ i, e.win.unacked.get? i = some s := by
  cases h with
  | gone hp =>
    rw [(hs.shut (.inl hp)).2] at hx
    cases hx
  | wrote _ _ he =>
    rw [he, (pushData_eq _ _).2.2.2] at hx
    exact .inl hx
  | resent _ hr =>
    rw [hr] at hx
    exact (Outbox.mem_addMissing.1 hx).imp id SortedMap.mem_values_iff.1
  | sent _ hr =>
    rw [hr] at hx
    cases hx
  | quiet _ hr | acked _ _ _ hr | drained _ _ _ _ hr | finished _ _ hr | halted _ _ hr =>
    exact .inl (hr ▸ hx)

/-! ## What goes out again -/

theorem Sends.resending (h : Sends k op r e e') (hs : e'.Sound) (hr : e.Resending)
    (hseq : ∀ i s, e.win.unacked.get? i = some s → s.seq = i) : e'.Resending := by
  cases h with
  | gone hp => exact resending_of_nil (hs.shut (.inl hp)).2
  | quiet hw hres => exact hr.mono hres fun i s hi => by rwa [hw] at hi
  | acked _ _ hw hres =>
    exact hr.mono hres fun i s hi => SortedMap.get?_of_erase (by rwa [hw, win_acked] at hi)
  | drained _ _ _ hw hres =>
    exact hr.mono hres fun i s hi =>
      SortedMap.get?_of_erase (by rwa [hw, win_push, win_acked] at hi)
  | finished _ hw hres | halted _ hw hres => exact hr.mono hres fun i s hi => by rwa [hw] at hi
  | wrote _ _ he =>
    exact hr.mono (by rw [he, (pushData_eq _ _).2.2.2]) fun i s hi => by
      rwa [he, win_pushData] at hi
  | resent hw hres =>
    have hr' := hr.resent hseq
    exact ⟨hres ▸ hr'.ascending, hres ▸ hw ▸ hr'.complete⟩
  | sent _ hres => exact resending_of_nil hres

/-! ## What is queued -/

theorem Queues.known {new : List Segment} (h : Queues k op r e e' new) (hs : s ∈ new) :
    ∃ kind, s.kind? = some kind := by
  cases h with
  | nothing => cases hs
  | data _ hd => exact ⟨.data, hd s hs⟩
  | stp _ _ hk => exact ⟨.stp, List.mem_singleton.1 hs ▸ hk⟩
  | fin _ _ hk => exact ⟨.fin, List.mem_singleton.1 hs ▸ hk⟩

theorem Sends.length_payload (h : Sends k op r e e') (hs : s ∈ e.queuedSince e') :
    s.payload.length ≤ payloadLength := by
  have none (hq : e.queuedSince e' = []) : s.payload.length ≤ payloadLength := by
    rw [hq] at hs
    cases hs
  have control {kind : Kind} {o : Side} (hp : o.win.pending = e.win.pending)
      (hw : e'.win = (o.push (.control k kind)).win) : s.payload.length ≤ payloadLength := by
    rw [queuedSince_of_append (l := [{ Segment.control k kind with seq := o.win.next }])
      (by rw [hw, win_push, Window.pending_push, hp]), List.mem_singleton] at hs
    rw [hs]
    exact Nat.zero_le _
  cases h with
  | gone _ hp => exact none (queuedSince_of_suffix (by rw [hp]; exact List.nil_suffix))
  | quiet hw => exact none (queuedSince_of_eq (by rw [hw]))
  | acked _ _ hw => exact none (queuedSince_of_eq (by rw [hw, win_acked]))
  | drained _ _ _ hw => exact control (by rw [win_acked]) hw
  | finished _ hw | halted _ hw => exact control rfl hw
  | @wrote data _ _ he =>
    rw [he, queuedSince_pushData] at hs
    exact (Station.length_payloads (Segment.payload_of_numbered hs)).2
  | resent hw => exact none (queuedSince_of_eq (by rw [hw]))
  | @sent limit hw =>
    exact none (queuedSince_of_suffix (by rw [hw]; exact ⟨_, Window.admitted_append limit e.win⟩))

/-! ## Single moves -/

def Entered (k : SocketPair) (op : Station.Op) (e e' : Side) : Phase → Prop
  | .established => e.phase = .synReceived ∨
      ∃ x, Arrives k op x ∧ x.kind? = some .synAck ∧ e'.win = (e.acked x.seq).win
  | .stopReceived => ∃ x, Arrives k op x ∧ x.kind? = some .stp ∧ e'.conn.expected = x.seq + 1
  | .stopSent => ∃ s, s ∈ e'.win.pending
  | _ => True

theorem Step.entered (h : Step cfg k op r e e') {p : Phase} (hp : e.phase ≠ p) (hp' : e'.phase = p) :
    Entered k op e e' p := by
  have same (hs : e'.phase = e.phase) : Entered k op e e' p := absurd (hs.symm.trans hp') hp
  cases h with
  | @heard _ x _ _ _ ha hk hpair hh =>
    cases hh with
    | opened =>
      cases hp'
      exact .inr ⟨x, ⟨ha, hpair⟩, hk, rfl⟩
    | halted =>
      cases hp'
      exact ⟨x, ⟨ha, hpair⟩, hk, rfl⟩
    | drained | ended | knocked | collided | crossed =>
      cases hp'
      trivial
    | finished =>
      obtain rfl := (phase_swept _).symm.trans hp'
      trivial
    | noted | misplaced => exact same (phase_swept _)
    | kept hc | discarded hc | greeted hc | repeated hc => exact same (phase_of_entry hc).symm
    | finishedAgain hc => exact same ((phase_swept _).trans (phase_of_entry hc).symm)
    | strange | strangeFin | stale | early | full => exact same rfl
  | accepted hc hcp =>
    cases hp'
    exact .inl ((phase_of_entry hc).trans hcp)
  | closedBusy =>
    cases hp'
    exact ⟨_, List.mem_append_right _ List.mem_cons_self⟩
  | dialled | forgot | closedDrained | closedStopped | expired =>
    cases hp'
    trivial
  | read hc => exact same ((phase_swept _).trans (phase_of_entry hc).symm)
  | readRefused | writeRefused | closedIdle | tickedIdle => exact same (phase_swept _)
  | wrote => exact same (phase_pushData _ _)
  | tickedClosing hc => exact same (phase_of_entry hc).symm
  | _ => exact same rfl

theorem settles_of_arrival (h : op.arrival? = some s) : op.settles = false := by
  cases op with
  | call c => cases h
  | expire => cases h
  | _ => rfl

theorem Step.hears (h : Step cfg k op r e e') {x : Segment} (hx : Arrives k op x)
    (hk : x.kind? = some kind) : e' = e ∨ Hears cfg.room k x kind e e' := by
  cases h with
  | apart => exact .inl rfl
  | @heard _ y _ _ _ ha hk' hpair hh =>
    obtain rfl : x = y := Option.some.inj (hx.1.symm.trans ha)
    obtain rfl := Option.some.inj (hk.symm.trans hk')
    exact .inr hh
  | forgot hs =>
    rw [settles_of_arrival hx.1] at hs
    cases hs
  | polled hop => rcases hop with rfl | rfl <;> cases hx.1
  | _ => cases hx.1

theorem Hears.ack_stopSent (h : Hears room k s .ack e e') (hp : e.phase = .stopSent) :
    e'.phase = .stopSent ∧ e'.win = (e.acked s.seq).win ∧ e'.win.isDrained = false ∨
      e'.phase = .closing ∧ e'.win = ((e.acked s.seq).push (.control k .fin)).win ∧
        (e.acked s.seq).win.isDrained = true := by
  cases h with
  | noted _ _ hd => exact .inl ⟨(phase_swept _).trans hp, rfl, hd rfl hp⟩
  | drained _ _ hd => exact .inr ⟨rfl, rfl, hd⟩
  | strange hk | discarded _ _ hk => simp at hk
  | stale hk | early hk | misplaced hk => cases hk

theorem Hears.synAck_synSent (h : Hears room k s .synAck e e') (hp : e.phase = .synSent) :
    e'.phase = .established := by
  cases h with
  | noted _ hn => exact absurd hp (hn rfl)
  | opened => rfl
  | strange hk | discarded _ _ hk => simp at hk
  | stale hk | early hk | misplaced hk => cases hk

theorem Hears.dialling (h : Hears room k s kind e e') (hp : e.phase = .synSent)
    (he : e.conn.expected = 0) : kind = .synAck ∧ e'.phase = .established ∨
      kind = .syn ∧ e'.phase = .closed ∨
      e'.phase = .synSent ∧ e'.replies = e.replies ∧ e'.conn = e.conn := by
  have hopen : e.phase ≠ .closed := by simp [hp]
  have swept {o : Side} (hr : o.replies = e.replies) (ho : o.entry = e.entry) :
      o.swept.phase = .synSent ∧ o.swept.replies = e.replies ∧ o.swept.conn = e.conn := by
    rw [swept_of_open (by rw [phase_congr ho]; exact hopen), phase_congr ho]
    exact ⟨hp, hr, conn_congr ho⟩
  cases h with
  | opened => exact .inl ⟨rfl, rfl⟩
  | collided => exact .inr (.inl ⟨rfl, rfl⟩)
  | noted => exact .inr (.inr (swept (o := e.acked _) rfl rfl))
  | misplaced => exact .inr (.inr (swept rfl rfl))
  | strange | early | full => exact .inr (.inr ⟨hp, rfl, rfl⟩)
  | knocked hc => exact absurd hc hopen
  | ended hc => rcases hc with hc | hc <;> cases hc.symm.trans hp
  | strangeFin hn =>
    rw [phase, hn] at hp
    cases hp
  | stale _ hc _ hlt =>
    rw [← conn_of_entry hc, he] at hlt
    exact absurd (UInt32.lt_iff_toNat_lt.1 hlt) (Nat.not_lt_zero _)
  | drained hc hcp | halted hc hcp | crossed hc hcp | repeated hc hcp | finishedAgain hc hcp =>
    exact absurd_phase hp hc hcp (by decide)
  | kept hc hk | greeted hc hk => rcases hk with hk | hk <;> exact absurd_phase hp hc hk (by decide)
  | discarded hc _ hd =>
    rcases hd with ⟨-, hd | hd⟩ | ⟨-, hd⟩ <;> exact absurd_phase hp hc hd (by decide)
  | finished hc hf => rcases hf with (hf | hf) | hf | hf <;> exact absurd_phase hp hc hf (by decide)

theorem Step.unanswered (h : Step cfg k op r e e') (hp : e.phase = .synSent)
    (hp' : e'.phase = .synSent) (he : e.conn.expected = 0) :
    e'.replies ⊆ e.replies ∧ e'.conn.expected = 0 := by
  have hopen : e.phase ≠ .closed := by simp [hp]
  have same (hr : e'.replies = e.replies) (hc : e'.conn = e.conn) :
      e'.replies ⊆ e.replies ∧ e'.conn.expected = 0 :=
    ⟨hr ▸ List.Subset.refl _, by rw [hc, he]⟩
  cases h with
  | heard _ _ _ hh =>
    rcases hh.dialling hp he with ⟨-, hc⟩ | ⟨-, hc⟩ | ⟨-, hr, hc⟩
    · cases hc.symm.trans hp'
    · cases hc.symm.trans hp'
    · exact same hr hc
  | dialled hn =>
    rw [phase, hn] at hp
    cases hp
  | accepted hc hcp | tickedClosing hc hcp => exact absurd_phase hp hc hcp (by decide)
  | read hc =>
    rw [swept_of_open (by rw [phase_enter, ← phase_of_entry hc]; exact hopen)]
    exact ⟨List.Subset.refl _, (conn_of_entry hc).symm ▸ he⟩
  | readRefused | writeRefused | closedIdle | tickedIdle =>
    rw [swept_of_open hopen]
    exact ⟨List.Subset.refl _, he⟩
  | wrote => exact same (pushData_eq _ _).2.1 (conn_congr (pushData_eq _ _).1)
  | forgot | closedDrained | closedBusy | closedStopped | expired => cases hp'
  | polled => exact ⟨List.nil_subset _, he⟩
  | apart | passed | readNothing | closeRefused | ticked => exact same rfl rfl

end Side

/-! ## What the log tells of the phase -/

def Posted (log : List Segment) (e : Side) (s : Segment) : Prop := s ∈ log ∧ s ∉ e.win.pending

structure Shape (k : SocketPair) (log : List Segment) (e : Side) : Prop where
  idle : e.phase = .closed ∨ e.phase = .synReceived → log = []
  dialled : e.phase = .synSent → log = [.control k .syn]
  calling : e.phase = .synSent → e.win.has (.control k .syn)
  unanswered : e.phase = .synSent → e.replies = [] ∧ e.conn.expected = 0
  greeted : ∀ s, e.win.has s → s.kind? = some .syn → e.phase = .synSent
  stp : ∀ s ∈ log, s.kind? = some .stp → (e.phase = .stopSent ∨ e.phase = .closing) ∧
    ∀ t ∈ log, t.seq ≤ s.seq ∨ t.kind? = some .fin
  fin : ∀ s ∈ log, s.kind? = some .fin → e.phase = .closing
  busy : e.phase = .stopSent → ∃ s, e.win.has s
  short : ∀ s ∈ log, s.payload.length ≤ payloadLength
  known : ∀ s ∈ log, ∃ kind, s.kind? = some kind

theorem Window.Holds.mem_of_has {w : Window} {log : List Segment} {n : Nat} (h : w.Holds log n)
    {s : Segment} (hs : w.has s) : s ∈ log :=
  hs.elim (h.pending.subset ·) fun ⟨i, hi⟩ => (h.unacked i s hi).1

namespace Shape

variable {cfg : Settings} {k : SocketPair} {op : Station.Op} {r : Station.Reply} {e e' : Side}
  {log : List Segment} {s : Segment}

theorem not_syn (h : Shape k log e) (hp : e.phase ≠ .synSent) (hs : e.win.has s) :
    s.kind? ≠ some .syn := fun hk => hp (h.greeted s hs hk)

theorem not_fin (h : Shape k log e) (hp : e.phase ≠ .closing) (hs : s ∈ log) :
    s.kind? ≠ some .fin := fun hk => hp (h.fin s hs hk)

theorem data_or_stp (h : Shape k log e) (hl : Log k log) (hw : e.win.Holds log UInt32.size)
    (hp : e.phase ≠ .synSent) (hp' : e.phase ≠ .closing) (hs : e.win.has s) {kind : Kind}
    (hk : s.kind? = some kind) : kind = .data ∨ kind = .stp := by
  have hmem := hw.mem_of_has hs
  have htracked := hl.tracked s hmem
  have hsyn := h.not_syn hp hs
  have hfin := h.not_fin hp' hmem
  rw [hk] at hsyn hfin
  rw [Segment.isReply, hk, Option.any_some] at htracked
  cases kind <;> simp_all [Kind.isReply]

section Step

variable (h : Shape k log e) (hst : Step cfg k op r e e') (hd : ∀ ticket, r ≠ .dialled (.ok ticket))
  (hs : e.Sound) (hstay : e.phase ≠ .closed → e'.phase ≠ .closed) (hl : Log k (log ++ e.queuedSince e'))
  (hw : e.win.Holds log UInt32.size)
  (hunsent : ∀ i s, e.win.unacked.get? i = some s → s ∉ e.win.pending)
  (hacks : ∀ x, Arrives k op x → x.isReply = true → ∃ s, Posted log e s ∧ x.Echoes s)

include hst hd hs in
theorem has_step (hx : e'.win.has s) : e.win.has s ∨ s ∈ e.queuedSince e' := by
  have hsends := hst.sends hd
  rcases hx with hx | ⟨i, hx⟩
  · exact (hsends.mem_pending hx).imp .inl id
  · rcases hsends.unacked (hst.sound hs) hx with hx | ⟨limit, -, hx⟩
    · exact .inl (.inr ⟨i, hx⟩)
    · exact .inl (.inl (Window.mem_pending_of_admitted hx))

include h hst hd hs hstay hw hacks in
theorem greeted_step (hx : e'.win.has s) (hk : s.kind? = some .syn) : e'.phase = .synSent := by
  have hhas : e.win.has s := (has_step hst hd hs hx).resolve_right fun hn =>
    (hst.sends hd).queues.not_syn hn hk
  have hp := h.greeted s hhas hk
  have hmoves := hst.moves hd
  rw [hp] at hmoves
  rcases hmoves.from_synSent with hp' | hp' | ⟨hp', -⟩
  · exact hp'
  · exact absurd hp' (hstay (by simp [hp]))
  -- The SYN-ACK that has come answers the SYN, which no longer waits.
  · obtain ⟨x, hx', hxk, hwin⟩ := Or.resolve_left (hst.entered (by simp [hp]) hp') (by simp [hp])
    obtain ⟨t, ⟨ht, htp⟩, hecho⟩ := hacks x hx' (by simp [Segment.isReply, hxk, Kind.isReply])
    have hmem := hw.mem_of_has hhas
    rw [h.dialled hp, List.mem_singleton] at ht hmem
    rw [hwin, win_acked] at hx
    rcases hx with hx | ⟨i, hx⟩
    · exact absurd (ht ▸ hmem ▸ hx) htp
    · by_cases hi : x.seq = i
      · rw [hi, SortedMap.get?_erase_self] at hx
        cases hx
      · rw [SortedMap.get?_erase_of_ne _ hi] at hx
        have hseq := (hw.unacked i s hx).2
        rw [hecho.1, ht, ← hmem, hseq] at hi
        exact absurd rfl hi

include hst hd hw hunsent hacks in
theorem held_step (hl : Log k log) (hp' : e'.phase ≠ .closed) (hhas : e.win.has s) :
    e'.win.has s ∨ ∃ x, Arrives k op x ∧ x.Echoes s := by
  have hmem := hw.mem_of_has hhas
  have hpw : e.win.pending.Pairwise fun s t => s.seq ≠ t.seq :=
    hl.pairwise.sublist hw.pending.sublist
  have hheld : s ∈ e.win.pending ∨
      e.win.unacked.get? s.seq = some s ∧ ∀ t ∈ e.win.pending, t.seq ≠ s.seq := by
    refine hhas.imp id fun ⟨i, hi⟩ => ⟨by rw [(hw.unacked i s hi).2]; exact hi, fun t ht hts => ?_⟩
    exact hunsent i s hi (hl.eq_of_seq (hw.pending.subset ht) hmem hts ▸ ht)
  rcases (hst.sends hd).kept hp' hpw hheld with hk | hk | ⟨-, x, hx, hr, hseq⟩
  · exact .inl (.inl hk)
  · exact .inl (.inr ⟨_, hk⟩)
  · obtain ⟨t, ⟨ht, -⟩, hecho⟩ := hacks x hx hr
    exact .inr ⟨x, hx, hl.eq_of_seq ht hmem (hecho.1.symm.trans hseq) ▸ hecho⟩

include h hst hd hw hunsent hacks in
theorem busy_step (hl : Log k log) (hp' : e'.phase = .stopSent) : ∃ s, e'.win.has s := by
  by_cases hp : e.phase = .stopSent
  · obtain ⟨s, hhas⟩ := h.busy hp
    rcases held_step hst hd hw hunsent hacks hl (by simp [hp']) hhas with hk | ⟨x, hx, hecho⟩
    · exact ⟨s, hk⟩
    -- Only an ACK answers a segment that is held here, and one that ends the queue moves the phase.
    · obtain ⟨-, -, kind, hkind, hxk⟩ := hecho
      have hack : x.kind? = some .ack := by
        rcases h.data_or_stp hl hw (by simp [hp]) (by simp [hp]) hhas hkind with rfl | rfl <;>
          exact hxk
      rcases hst.hears hx hack with rfl | hh
      · exact h.busy hp
      · rcases hh.ack_stopSent hp with ⟨-, -, hbusy⟩ | ⟨hc, -⟩
        · exact Window.exists_has hbusy
        · cases hc.symm.trans hp'
  · obtain ⟨s, hpend⟩ := hst.entered hp hp'
    exact ⟨s, .inl hpend⟩

include h hst hd hw hunsent hacks in
theorem calling_step (hl : Log k log) (hp' : e'.phase = .synSent) :
    e'.win.has (.control k .syn) := by
  have hmoves := hst.moves hd
  rw [hp'] at hmoves
  have hp := hmoves.to_synSent
  have hhas := h.calling hp
  rcases held_step hst hd hw hunsent hacks hl (by simp [hp']) hhas with hk | ⟨x, hx, hecho⟩
  · exact hk
  -- A SYN-ACK is the answer to the SYN, and it ends the wait.
  · rcases hst.hears hx (hecho.kind (Segment.kind?_control k .syn)) with rfl | hh
    · exact hhas
    · cases hp'.symm.trans (hh.synAck_synSent hp)

include h hst hd hstay hl in
theorem stp_step (hx : s ∈ log ++ e.queuedSince e') (hk : s.kind? = some .stp) :
    (e'.phase = .stopSent ∨ e'.phase = .closing) ∧
      ∀ t ∈ log ++ e.queuedSince e', t.seq ≤ s.seq ∨ t.kind? = some .fin := by
  have hmoves := hst.moves hd
  have hq := (hst.sends hd).queues
  generalize e.queuedSince e' = new at *
  rcases List.mem_append.1 hx with hx | hx
  · obtain ⟨hp, hlast⟩ := h.stp s hx hk
    refine ⟨?_, fun t ht => ?_⟩
    · rcases hp with hp | hp
      · rw [hp] at hmoves hstay
        exact hmoves.from_stopSent.resolve_left (hstay (by decide))
      · rw [hp] at hmoves hstay
        exact .inr (hmoves.from_closing.resolve_right (hstay (by decide)))
    · rcases List.mem_append.1 ht with ht | ht
      · exact hlast t ht
      · cases hq with
        | nothing => cases ht
        | data ho | stp ho => rcases hp with hp | hp <;> cases hp.symm.trans ho
        | fin _ _ hf => exact .inr (List.mem_singleton.1 ht ▸ hf)
  · cases hq with
    | nothing => cases hx
    | data _ hdata => cases hk.symm.trans (hdata s hx)
    | fin _ _ hf => cases hk.symm.trans (List.mem_singleton.1 hx ▸ hf)
    | @stp x _ hp' =>
      obtain rfl := List.mem_singleton.1 hx
      refine ⟨.inl hp', fun t ht => .inl (UInt32.le_iff_toNat_le.2 ?_)⟩
      have hlast := hl.numbered log.length s (by simp)
      have hlt := hl.seq_lt ht
      rw [List.length_append, List.length_singleton] at hlt
      omega

include h hst hd hstay in
theorem fin_step (hx : s ∈ log ++ e.queuedSince e') (hk : s.kind? = some .fin) :
    e'.phase = .closing := by
  have hmoves := hst.moves hd
  have hq := (hst.sends hd).queues
  rcases List.mem_append.1 hx with hx | hx
  · have hp := h.fin s hx hk
    rw [hp] at hmoves hstay
    exact hmoves.from_closing.resolve_right (hstay (by decide))
  · generalize e.queuedSince e' = new at hq hx
    cases hq with
    | nothing => cases hx
    | data _ hdata => cases hk.symm.trans (hdata s hx)
    | stp _ _ hs => cases hk.symm.trans (List.mem_singleton.1 hx ▸ hs)
    | fin _ hp' => exact hp'

include h hst hd hs hstay hl hw hunsent hacks in
theorem step (hl₀ : Log k log) : Shape k (log ++ e.queuedSince e') e' := by
  have hmoves := hst.moves hd
  have hq := (hst.sends hd).queues
  constructor
  case idle =>
    intro hp'
    have hp : e.phase = .closed ∨ e.phase = .synReceived := by
      rcases hp' with hp' | hp'
      · exact .inl (Classical.byContradiction fun hp => hstay hp hp')
      · rw [hp'] at hmoves
        exact hmoves.to_synReceived
    rw [h.idle hp, hq.eq_nil (by rcases hp with hp | hp <;> simp [hp])]
    rfl
  case dialled =>
    intro hp'
    rw [hp'] at hmoves
    have hp := hmoves.to_synSent
    rw [h.dialled hp, hq.eq_nil (by simp [hp])]
    rfl
  case calling => exact h.calling_step hst hd hw hunsent hacks hl₀
  case unanswered =>
    intro hp'
    rw [hp'] at hmoves
    have hp := hmoves.to_synSent
    obtain ⟨hr, he⟩ := hst.unanswered hp hp' (h.unanswered hp).2
    rw [(h.unanswered hp).1] at hr
    exact ⟨List.subset_nil.1 hr, he⟩
  case greeted => exact fun s hx hk => h.greeted_step hst hd hs hstay hw hacks hx hk
  case stp => exact fun s hx hk => h.stp_step hst hd hstay hl hx hk
  case fin => exact fun s hx hk => h.fin_step hst hd hstay hx hk
  case busy => exact h.busy_step hst hd hw hunsent hacks hl₀
  case short =>
    intro s hx
    exact (List.mem_append.1 hx).elim (h.short s) (hst.sends hd).length_payload
  case known =>
    intro s hx
    exact (List.mem_append.1 hx).elim (h.known s) hq.known

end Step

end Shape

/-! ## The books -/

/-- What the near end has queued, and what becomes of it. Of a segment that neither waits nor is
unacknowledged any more, `done` holds. -/
structure Ledger (k : SocketPair) (log : List Segment) (done : Segment → Prop) (v : Link) : Prop where
  isLog : Log k log
  holds : v.near.win.Holds log UInt32.size
  unsent : ∀ i s, v.near.win.unacked.get? i = some s → s ∉ v.near.win.pending
  kept : ∀ s ∈ log, s ∈ v.near.win.pending ∨ v.near.win.unacked.get? s.seq = some s ∨ done s
  resends : ∀ s ∈ v.near.resends, Posted log v.near s
  resending : v.near.Resending
  out : ∀ s, v.out s → s.isReply = false → Posted log v.near s
  quiet : v.near.phase = .synSent → ∀ s, v.out s → s.isReply = false
  waiting : ∀ s ∈ v.far.waiting, Posted log v.near s ∧ s.kind? = some .syn
  replies : ∀ y ∈ v.far.replies, ∃ s, Posted log v.near s ∧ y.Echoes s
  back : ∀ y, v.back y → y.isReply = true → ∃ s, Posted log v.near s ∧ y.Echoes s
  shape : Shape k log v.near

namespace Ledger

variable {k : SocketPair} {log : List Segment} {done : Segment → Prop} {v v' : Link}
  {op : Station.Op} {r : Station.Reply}

theorem mono {done' : Segment → Prop} (h : Ledger k log done v) (hd : ∀ s, done s → done' s) :
    Ledger k log done' v :=
  { h with kept := fun s hs => (h.kept s hs).imp id (Or.imp id (hd s)) }

theorem distinct (h : Ledger k log done v) :
    v.near.win.pending.Pairwise fun s t => s.seq ≠ t.seq :=
  h.isLog.pairwise.sublist h.holds.pending.sublist

theorem held (h : Ledger k log done v) {s : Segment} (hs : s ∈ log)
    (hk : s ∈ v.near.win.pending ∨ v.near.win.unacked.get? s.seq = some s) :
    s ∈ v.near.win.pending ∨ v.near.win.unacked.get? s.seq = some s ∧
      ∀ t ∈ v.near.win.pending, t.seq ≠ s.seq := by
  refine hk.imp id fun hu => ⟨hu, fun t ht he => ?_⟩
  rw [h.isLog.eq_of_seq (h.holds.pending.subset ht) hs he] at ht
  exact h.unsent _ _ hu ht

theorem posted_step (h : Ledger k log done v) {e' : Side} (hst : Sends k op r v.near e')
    (hl : Log k (log ++ v.near.queuedSince e')) {s : Segment} (hs : Posted log v.near s) :
    Posted (log ++ v.near.queuedSince e') e' s := by
  refine ⟨List.mem_append_left _ hs.1, fun hp => ?_⟩
  rcases hst.mem_pending hp with hp | hp
  · exact hs.2 hp
  · have hlt := h.isLog.seq_lt hs.1
    obtain ⟨i, hi⟩ := List.mem_iff_getElem?.1 hp
    have hseq := hl.numbered (log.length + i) s (by
      rw [List.getElem?_append_right (Nat.le_add_right _ _), Nat.add_sub_cancel_left]
      exact hi)
    omega

/-! ## Steps -/

theorem holds_step (h : Ledger k log done v) (hn : v.near.Sound) {cfg : Settings} {e' : Side}
    (hst : Step cfg k op r v.near e') (hd : ∀ ticket, r ≠ .dialled (.ok ticket))
    (hstay : v.near.phase ≠ .closed → e'.phase ≠ .closed)
    (hlen : (log ++ v.near.queuedSince e').length < UInt32.size) :
    Log k (log ++ v.near.queuedSince e') ∧
      e'.win.Holds (log ++ v.near.queuedSince e') UInt32.size := by
  have hsends := hst.sends hd
  obtain ⟨hl, hw⟩ := hsends.holds h.isLog h.holds (fun s hs => (h.resends s hs).1)
    (fun x _ _ => x.seq.toNat_lt) hlen
  refine ⟨hl, ?_⟩
  by_cases hp' : e'.phase = .closed
  · have hp : v.near.phase = .closed := Classical.byContradiction fun hp => hstay hp hp'
    rw [h.shape.idle (.inl hp), hsends.queues.eq_nil (by simp [hp]), win,
      ((hst.sound hn).shut (.inl hp')).1]
    exact .blank _
  · exact (hw hp').1

theorem kept_step (h : Ledger k log done v) {e' : Side} (hst : Sends k op r v.near e')
    (hp' : log ≠ [] → e'.phase ≠ .closed) {s : Segment}
    (hs : s ∈ log ++ v.near.queuedSince e') : s ∈ e'.win.pending ∨
      e'.win.unacked.get? s.seq = some s ∨ done s ∨ v.near.win.unacked.get? s.seq = some s ∧
        ∃ x, Arrives k op x ∧ x.isReply = true ∧ x.seq = s.seq := by
  rcases List.mem_append.1 hs with hs | hs
  · rcases (h.kept s hs).imp id Or.symm with hk | hk | hk
    · exact (hst.kept (hp' (List.ne_nil_of_mem hs)) h.distinct (.inl hk)).imp id (Or.imp id .inr)
    · exact .inr (.inr (.inl hk))
    · exact (hst.kept (hp' (List.ne_nil_of_mem hs)) h.distinct (h.held hs (.inr hk))).imp id
        (Or.imp id .inr)
  · exact .inl (List.mem_of_mem_drop hs)

theorem near_step (h : Ledger k log done v) (hn : v.near.Sound)
    (hst : Link.Step k (.near op r) v v') (hd : ∀ ticket, r ≠ .dialled (.ok ticket))
    (hstay : v.near.phase ≠ .closed → v'.near.phase ≠ .closed)
    (hlen : (log ++ v.near.queuedSince v'.near).length < UInt32.size)
    (hpost : ∀ x, v'.out x → x.isReply = false → v.out x ∨ x ∈ v.near.resends ∨
      ∃ limit, v'.near.win = v.near.win.advance limit ∧ x ∈ v.near.win.admitted limit) :
    Ledger k (log ++ v.near.queuedSince v'.near)
      (fun s => done s ∨ v.near.win.unacked.get? s.seq = some s ∧
        ∃ x, Arrives k op x ∧ x.isReply = true ∧ x.seq = s.seq) v' := by
  cases hst with
  | near hside hfar harr hout hback =>
    have hsends := hside.sends hd
    obtain ⟨hl, hw⟩ := h.holds_step hn hside hd hstay hlen
    have hposted {s : Segment} := h.posted_step hsends hl (s := s)
    have hunacked {i : SequenceNumber} {s : Segment} (hi : v.near.win.unacked.get? i = some s) :
        Posted log v.near s := ⟨(h.holds.unacked i s hi).1, h.unsent i s hi⟩
    have hadmitted {limit : Nat} {s : Segment} (hwin : v'.near.win = v.near.win.advance limit)
        (hs : s ∈ v.near.win.admitted limit) :
        Posted (log ++ v.near.queuedSince v'.near) v'.near s := by
      refine ⟨List.mem_append_left _ (h.holds.pending.subset (Window.mem_pending_of_admitted hs)), ?_⟩
      rw [hwin]
      exact Window.not_mem_advance h.distinct hs
    constructor
    case isLog => exact hl
    case holds => exact hw
    case unsent =>
      intro i s hi
      rcases hsends.unacked (hside.sound hn) hi with hi | ⟨limit, hwin, hs⟩
      · exact (hposted (hunacked hi)).2
      · exact (hadmitted hwin hs).2
    case kept =>
      refine fun s hs => h.kept_step hsends (fun hne => hstay fun hp => ?_) hs
      exact hne (h.shape.idle (.inl hp))
    case resends =>
      intro s hs
      rcases hsends.mem_resends (hside.sound hn) hs with hs | ⟨i, hi⟩
      · exact hposted (h.resends s hs)
      · exact hposted (hunacked hi)
    case resending =>
      exact hsends.resending (hside.sound hn) h.resending fun i s hi => (h.holds.unacked i s hi).2
    case out =>
      intro s hs hr
      rcases hpost s hs hr with hs | hs | ⟨limit, hwin, hs⟩
      · exact hposted (h.out s hs hr)
      · exact hposted (h.resends s hs)
      · exact hadmitted hwin hs
    case quiet =>
      intro hp' s hs
      have hmoves := hside.moves hd
      rw [hp'] at hmoves
      have hp := hmoves.to_synSent
      rcases hout s hs with hs | hs | hs | hs
      · exact h.quiet hp s hs
      · rw [(h.shape.unanswered hp).1] at hs
        cases hs
      · exact hn.resends s hs
      · exact hn.pending s hs
    case waiting =>
      rw [hfar]
      exact fun s hs => (h.waiting s hs).imp hposted id
    case replies =>
      rw [hfar]
      exact fun y hy => (h.replies y hy).imp fun s hs => hs.imp hposted id
    case back =>
      exact fun y hy hr => (h.back y (hback y hy) hr).imp fun s hs => hs.imp hposted id
    case shape =>
      exact h.shape.step hside hd hn hstay hl h.holds h.unsent
        (fun x hx hr => h.back x (harr x hx.1 hx.2) hr) h.isLog

theorem far_step (h : Ledger k log done v) (hf : v.far.Sound)
    (hst : Link.Step k (.far op r) v v') : Ledger k log done v' := by
  cases hst with
  | far hside hnear harr hout hback =>
    refine ⟨h.isLog, hnear ▸ h.holds, hnear ▸ h.unsent, hnear ▸ h.kept, hnear ▸ h.resends,
      hnear ▸ h.resending, fun s hs hr => hnear ▸ h.out s (hout s hs) hr,
      fun hp s hs => h.quiet (hnear ▸ hp) s (hout s hs), ?_, ?_, ?_, hnear ▸ h.shape⟩
    · rw [hnear]
      intro s hs
      rcases hside.waiting hs with hs | ⟨hx, hk⟩
      · exact h.waiting s hs
      · exact ⟨h.out s (harr s hx.1 hx.2) (Segment.isReply_of_syn hk), hk⟩
    · rw [hnear]
      intro y hy
      rcases hside.echoes (fun x hx => (h.waiting x hx).2) hy with hy | ⟨x, hx, hy⟩
      · exact h.replies y hy
      · rcases hx with ⟨hx, hr⟩ | hx
        · exact ⟨x, h.out x (harr x hx.1 hx.2) hr, hy⟩
        · exact ⟨x, (h.waiting x hx).1, hy⟩
    · rw [hnear]
      intro y hy hr
      rcases hback y hy with hy | hy | hy | hy
      · exact h.back y hy hr
      · exact h.replies y hy
      · rw [hf.resends y hy] at hr
        cases hr
      · rw [hf.pending y hy] at hr
        cases hr

theorem none_step (h : Ledger k log done v) (hst : Link.Step k .none v v') :
    Ledger k log done v' := by
  cases hst with
  | none hnear hfar hout hback =>
    exact ⟨h.isLog, hnear ▸ h.holds, hnear ▸ h.unsent, hnear ▸ h.kept, hnear ▸ h.resends,
      hnear ▸ h.resending, fun s hs hr => hnear ▸ h.out s (hout s hs) hr,
      fun hp s hs => h.quiet (hnear ▸ hp) s (hout s hs), hnear ▸ hfar ▸ h.waiting,
      hnear ▸ hfar ▸ h.replies, fun y hy hr => hnear ▸ h.back y (hback y hy) hr, hnear ▸ h.shape⟩

/-! ## The beginning -/

theorem unopened (hn : v.near = {}) (hw : v.far.waiting = []) (hr : v.far.replies = [])
    (ho : ∀ x, ¬v.out x) (hb : ∀ x, ¬v.back x) : Ledger k [] done v := by
  refine ⟨.nil k, by rw [hn]; exact .blank _, by simp [hn, win], by simp, by simp [hn],
    resending_of_nil (by simp [hn]), fun s hs => absurd hs (ho s), fun _ s hs => absurd hs (ho s),
    by simp [hw], by simp [hr], fun y hy => absurd hy (hb y), ?_⟩
  rw [hn]
  exact ⟨fun _ => rfl, by simp, by simp, by simp, by simp [Window.has, win], by simp, by simp,
    by simp, by simp, by simp⟩

theorem blank (hv : v.Blank) : Ledger k [] done v :=
  unopened hv.near (by rw [hv.far]) (by rw [hv.far]) hv.out hv.back

theorem dialled {ticket : Ticket} (hn : v.near =
      (Side.enter {} { phase := .synSent, waiter := some ticket }).push (.control k .syn))
    (hf : v.far = {}) (ho : ∀ x, ¬v.out x) (hb : ∀ x, ¬v.back x) :
    Ledger k [.control k .syn] done v := by
  have hp : v.near.phase = .synSent := by
    rw [hn]
    rfl
  have hw : v.near.win = Window.push {} (.control k .syn) := by
    rw [hn]
    rfl
  have hl : Log k ([] ++ [{ Segment.control k .syn with seq := 0 }]) :=
    (Log.nil k).push rfl rfl rfl (fun _ => rfl) fun _ => rfl
  refine ⟨hl, ?_, by simp [hw], fun s hs => .inl (by rw [hw]; exact hs), ?_,
    resending_of_nil (by rw [hn]; rfl), fun s hs => absurd hs (ho s),
    fun _ s hs => absurd hs (ho s), by simp [hf], by simp [hf], fun y hy => absurd hy (hb y), ?_⟩
  · rw [hw]
    exact (Window.Holds.blank _).push (by decide) (.control k .syn)
  · simp [hn, Side.push, enter]
  · exact ⟨by simp [hp], fun _ => rfl, fun _ => .inl (by rw [hw]; exact List.mem_cons_self),
      fun _ => by rw [hn]; exact ⟨rfl, rfl⟩, fun _ _ _ => hp, by simp, by simp, by simp [hp],
      by simp [Segment.control], by simp⟩

end Ledger

end ReliableStream
