import ReliableStream.Proofs.Sound

namespace ReliableStream

def bytes (l : List Segment) : List UInt8 := l.flatMap Segment.payload

@[simp] theorem bytes_nil : bytes [] = [] := rfl

@[simp] theorem bytes_append (l m : List Segment) : bytes (l ++ m) = bytes l ++ bytes m := by
  simp [bytes]

@[simp] theorem bytes_cons (s : Segment) (l : List Segment) :
    bytes (s :: l) = s.payload ++ bytes l := rfl

theorem bytes_numbered (k : SocketPair) (next : SequenceNumber) (l : List (List UInt8)) :
    bytes (Segment.numbered k next l) = l.flatten := by
  induction l generalizing next with
  | nil => rfl
  | cons payload rest ih => simp [Segment.numbered, ih, Segment.data]

namespace Side

variable {cfg : Settings} {room : Nat} {k : SocketPair} {s : Segment} {kind : Kind}
  {op : Station.Op} {r : Station.Reply} {e e' : Side}

def queuedSince (e e' : Side) : List Segment := e'.win.pending.drop e.win.pending.length

def appendedSince (e e' : Side) : List Segment := e'.conn.unread.drop e.conn.unread.length

def taken (e : Side) : Nat := e.conn.expected.toNat

def Arrives (k : SocketPair) (op : Station.Op) (s : Segment) : Prop :=
  op.arrival? = some s ∧ s.receiverPair = k

inductive Sends (k : SocketPair) (op : Station.Op) (r : Station.Reply) (e e' : Side) : Prop
  | gone : e'.phase = .closed → e'.win.pending = [] → op.wrote k r = [] → Sends k op r e e'
  | quiet : e'.win = { e.win with stopped := e'.win.stopped } → e'.resends = e.resends →
      op.wrote k r = [] → Sends k op r e e'
  | acked {x} : Arrives k op x → x.isReply → e'.win = (e.acked x.seq).win →
      e'.resends = e.resends → op.wrote k r = [] → Sends k op r e e'
  | drained {x} : Arrives k op x → x.isReply → e.phase = .stopSent →
      e'.win = ((e.acked x.seq).push (.control k .fin)).win → e'.resends = e.resends →
      e'.phase = .closing → op.wrote k r = [] → Sends k op r e e'
  | finished : e.phase = .established ∨ e.phase = .stopReceived ∨ e.phase = .stopSent →
      e'.win = (e.push (.control k .fin)).win → e'.resends = e.resends →
      e'.phase = .closing → op.wrote k r = [] → Sends k op r e e'
  | halted : e.phase = .established → e'.win = (e.push (.control k .stp)).win →
      e'.resends = e.resends → e'.phase = .stopSent → op.wrote k r = [] → Sends k op r e e'
  | wrote {data} : (data ≠ [] → e.phase = .established) → op.wrote k r = data →
      e' = e.pushData k (Station.payloads data) → Sends k op r e e'
  | resent : e'.win = e.win → e'.resends = e.resent.resends → op.wrote k r = [] →
      Sends k op r e e'
  | sent {limit} : e'.win = e.win.advance limit → e'.resends = [] → op.wrote k r = [] →
      Sends k op r e e'

@[simp] theorem win_swept (e : Side) : e.swept.win = e.win := rfl

@[simp] theorem win_enter (e : Side) (c : Connection) : (e.enter c).win = e.win := rfl

@[simp] theorem win_answer (e : Side) (s : Segment) : (e.answer s).win = e.win := rfl

@[simp] theorem win_greeted (e : Side) (s : Segment) : (e.greeted s).win = e.win := rfl

@[simp] theorem win_forgotten (e : Side) : e.forgotten.win = {} := rfl

theorem wrote_arrival (h : op.arrival? = some s) (r : Station.Reply) : op.wrote k r = [] := by
  cases op with
  | call c => cases h
  | _ => rfl

theorem Hears.sends (h : Hears room k s kind e e') (ha : Arrives k op s) (hk : s.kind? = some kind) :
    Sends k op r e e' := by
  have hw := wrote_arrival (k := k) ha.1 r
  have hr (hr : kind.isReply = true) : s.isReply = true := by
    simp [Segment.isReply, hk, hr]
  cases h with
  | noted hk' => exact .acked ha (hr hk') rfl rfl hw
  | opened => exact .acked ha (hr rfl) rfl rfl hw
  | drained hc hp =>
    exact .drained ha (hr rfl) ((phase_of_entry hc).trans hp) rfl rfl rfl hw
  | ended => exact .gone rfl rfl hw
  | knocked => exact .quiet rfl rfl hw
  | strange => exact .quiet rfl rfl hw
  | strangeFin => exact .quiet rfl rfl hw
  | stale => exact .quiet rfl rfl hw
  | early => exact .quiet rfl rfl hw
  | collided => exact .gone rfl rfl hw
  | kept => exact .quiet rfl rfl hw
  | full => exact .quiet rfl rfl hw
  | discarded => exact .quiet rfl rfl hw
  | halted => exact .quiet rfl rfl hw
  | crossed hc hp =>
    exact .finished (.inr (.inr ((phase_of_entry hc).trans hp))) rfl rfl rfl hw
  | greeted => exact .quiet rfl rfl hw
  | repeated => exact .quiet rfl rfl hw
  | finished => exact .gone (phase_swept _) rfl hw
  | finishedAgain => exact .quiet rfl rfl hw
  | misplaced => exact .quiet rfl rfl hw

theorem Step.sends (h : Step cfg k op r e e') (hd : ∀ ticket, r ≠ .dialled (.ok ticket)) :
    Sends k op r e e' := by
  cases h with
  | apart hw => exact .quiet rfl rfl hw
  | heard ha hk hp hh => exact hh.sends ⟨ha, hp⟩ hk
  | dialled => exact absurd rfl (hd _)
  | forgot _ hw => exact .gone rfl rfl hw
  | wrote hw => exact .wrote (fun hn => (hw hn).1) (by simp [Station.Op.wrote]) rfl
  | closedDrained hc hp =>
    exact .finished (.inl ((phase_of_entry hc).trans hp)) rfl rfl rfl rfl
  | closedBusy hc hp => exact .halted ((phase_of_entry hc).trans hp) rfl rfl rfl rfl
  | closedStopped hc hp =>
    exact .finished (.inr (.inl ((phase_of_entry hc).trans hp))) rfl rfl rfl rfl
  | ticked => exact .resent rfl rfl rfl
  | tickedClosing => exact .resent rfl rfl rfl
  | expired => exact .gone rfl rfl rfl
  | polled hop => exact .sent (win_sent _ _) rfl (by rcases hop with rfl | rfl <;> rfl)
  | _ => exact .quiet rfl rfl rfl

/-- Where a step leads from a phase, the dialling of a connection apart. -/
inductive Moves (k : SocketPair) (op : Station.Op) (r : Station.Reply) : Phase → Phase → Prop
  | stay {p} : Moves k op r p p
  | shut {p} : Moves k op r p .closed
  | opened {x} : Arrives k op x → x.kind? = some .synAck → Moves k op r .synSent .established
  | knocked {x} : Arrives k op x → x.kind? = some .syn → Moves k op r .closed .synReceived
  | accepted : op = .call (.accept k.near.port) → r = .accepted (.ok (some k)) →
      Moves k op r .synReceived .established
  | halted {x} : Arrives k op x → x.kind? = some .stp → Moves k op r .established .stopReceived
  | stopped : op = .call (.close k) → Moves k op r .established .stopSent
  | finished {p} : p = .stopSent ∨ (p = .established ∨ p = .stopReceived) ∧ op = .call (.close k) →
      Moves k op r p .closing

theorem Hears.moves (h : Hears room k s kind e e') (ha : Arrives k op s) (hk : s.kind? = some kind) :
    Moves k op r e.phase e'.phase := by
  cases h with
  | noted =>
    rw [phase_swept]
    exact .stay
  | opened hc hp =>
    rw [phase_of_entry hc, hp]
    exact .opened ha hk
  | drained hc hp => exact .finished (.inl ((phase_of_entry hc).trans hp))
  | ended => exact .shut
  | knocked hp =>
    rw [hp]
    exact .knocked ha hk
  | strange => exact .stay
  | strangeFin => exact .stay
  | stale => exact .stay
  | early => exact .stay
  | collided => exact .shut
  | kept hc =>
    rw [phase_of_entry hc]
    exact .stay
  | full => exact .stay
  | discarded hc =>
    rw [phase_of_entry hc]
    exact .stay
  | halted hc hp =>
    rw [phase_of_entry hc, hp]
    exact .halted ha hk
  | crossed hc hp => exact .finished (.inl ((phase_of_entry hc).trans hp))
  | greeted hc =>
    rw [phase_of_entry hc]
    exact .stay
  | repeated hc =>
    rw [phase_of_entry hc]
    exact .stay
  | finished =>
    rw [phase_swept]
    exact .shut
  | finishedAgain hc =>
    rw [phase_swept, phase_of_entry hc]
    exact .stay
  | misplaced =>
    rw [phase_swept]
    exact .stay

theorem phase_pushData (k : SocketPair) (l : List (List UInt8)) :
    (e.pushData k l).phase = e.phase := by
  induction l generalizing e with
  | nil => rfl
  | cons payload rest ih => exact ih

theorem Step.moves (h : Step cfg k op r e e') (hd : ∀ ticket, r ≠ .dialled (.ok ticket)) :
    Moves k op r e.phase e'.phase := by
  cases h with
  | heard ha hk hp hh => exact hh.moves ⟨ha, hp⟩ hk
  | dialled => exact absurd rfl (hd _)
  | forgot => exact .shut
  | accepted hc hp =>
    rw [phase_of_entry hc, hp]
    exact .accepted rfl rfl
  | read hc =>
    rw [phase_swept, phase_of_entry hc]
    exact .stay
  | wrote =>
    rw [phase_pushData]
    exact .stay
  | closedDrained hc hp => exact .finished (.inr ⟨.inl ((phase_of_entry hc).trans hp), rfl⟩)
  | closedBusy hc hp =>
    rw [phase_of_entry hc, hp]
    exact .stopped rfl
  | closedStopped hc hp => exact .finished (.inr ⟨.inr ((phase_of_entry hc).trans hp), rfl⟩)
  | tickedClosing hc =>
    rw [phase_of_entry hc]
    exact .stay
  | expired => exact .shut
  | readRefused | writeRefused | closedIdle | tickedIdle =>
    rw [phase_swept]
    exact .stay
  | _ => exact .stay

theorem Step.of_dialled {ticket : Ticket} (h : Step cfg k op r e e')
    (hr : r = .dialled (.ok ticket)) :
    e' = e ∨ e' = e.forgotten ∨ e.entry = none ∧
      op = .call (.connect k.far.host k.far.port) ∧
      e' = (e.enter { phase := .synSent, waiter := some ticket }).push (.control k .syn) := by
  subst hr
  cases h with
  | apart => exact .inl rfl
  | forgot => exact .inr (.inl rfl)
  | dialled he => exact .inr (.inr ⟨he, rfl, rfl⟩)

theorem Step.moves_or_dials (h : Step cfg k op r e e') :
    Moves k op r e.phase e'.phase ∨ e.phase = .closed ∧ e'.phase = .synSent := by
  by_cases hd : ∃ ticket, r = .dialled (.ok ticket)
  · obtain ⟨ticket, hr⟩ := hd
    rcases h.of_dialled hr with rfl | rfl | ⟨hnone, -, rfl⟩
    · exact .inl .stay
    · exact .inl .shut
    · exact .inr ⟨phase_of_none hnone, rfl⟩
  · exact .inl (h.moves fun ticket hr => hd ⟨ticket, hr⟩)

theorem Moves.from_closed {p : Phase} (h : Moves k op r .closed p) :
    p = .closed ∨ p = .synReceived ∧ ∃ x, Arrives k op x ∧ x.kind? = some .syn := by
  cases h with
  | stay => exact .inl rfl
  | shut => exact .inl rfl
  | knocked ha hk => exact .inr ⟨rfl, _, ha, hk⟩
  | finished hp => simp at hp

theorem Moves.from_synSent {p : Phase} (h : Moves k op r .synSent p) :
    p = .synSent ∨ p = .closed ∨
      p = .established ∧ ∃ x, Arrives k op x ∧ x.kind? = some .synAck := by
  cases h with
  | stay => exact .inl rfl
  | shut => exact .inr (.inl rfl)
  | opened ha hk => exact .inr (.inr ⟨rfl, _, ha, hk⟩)
  | finished hp => simp at hp

theorem Moves.from_closing {p : Phase} (h : Moves k op r .closing p) :
    p = .closing ∨ p = .closed := by
  cases h with
  | stay => exact .inl rfl
  | shut => exact .inr rfl
  | finished => exact .inl rfl

theorem Moves.to_synReceived {p : Phase} (h : Moves k op r p .synReceived) :
    p = .closed ∨ p = .synReceived := by
  cases h with
  | stay => exact .inr rfl
  | knocked => exact .inl rfl

theorem Moves.from_stopSent {p : Phase} (h : Moves k op r .stopSent p) :
    p = .closed ∨ p = .stopSent ∨ p = .closing := by
  cases h with
  | stay => exact .inr (.inl rfl)
  | shut => exact .inl rfl
  | finished => exact .inr (.inr rfl)

theorem Moves.to_synSent {p : Phase} (h : Moves k op r p .synSent) : p = .synSent := by
  cases h with
  | stay => rfl

inductive Takes (k : SocketPair) (op : Station.Op) (e e' : Side) : Prop
  | still : e'.conn.expected = e.conn.expected → e'.replies ⊆ e.replies → e'.waiting ⊆ e.waiting →
      e.appendedSince e' = [] → (e.entry = none → e'.phase = .closed → e'.entry = none) →
      Takes k op e e'
  | knocked {x} : Arrives k op x → x.kind? = some .syn → e.phase = .closed →
      e'.phase = .synReceived → e'.conn.expected = x.seq + 1 → e'.replies = e.replies →
      e'.waiting = e.waiting ++ [x] → e.appendedSince e' = [] → Takes k op e e'
  | again {x kind c} : Arrives k op x → x.isReply = false → e.entry = some c →
      x.seq < e.conn.expected → (kind = .finAck → x.kind? = some .fin) →
      e'.replies ⊆ e.replies ++ [x.answer kind] → e'.entry = e.entry → e'.waiting = e.waiting →
      Takes k op e e'
  | dealt {x kind c} : Arrives k op x → x.isReply = false → e.entry = some c → e.phase ≠ .closed →
      e'.phase ≠ .closed → x.kind? ≠ some .fin → x.seq = e.conn.expected →
      e'.conn.expected = x.seq + 1 → kind ≠ .finAck → e'.replies ⊆ e.replies ++ [x.answer kind] →
      e'.waiting = e.waiting →
      (x.kind? = some .data ∧ e.phase.keeps ∧ e.appendedSince e' = [x] ∨
        (x.kind? = some .data → e.phase.discards) ∧ e.appendedSince e' = []) → Takes k op e e'
  | accepted {syn} : syn ∈ e.waiting → e.phase = .synReceived → e'.phase = .established →
      e'.conn.expected = e.conn.expected → e'.replies = e.replies ++ [syn.answer .synAck] →
      e'.waiting ⊆ e.waiting → e.appendedSince e' = [] → Takes k op e e'
  | shut : e.entry.isSome → e'.phase = .closed → Takes k op e e'
  | strayed {x} : Arrives k op x → x.kind? = some .fin → e.phase = .closed → e'.phase = .closed →
      Takes k op e e'

@[simp] theorem appendedSince_self (e : Side) : e.appendedSince e = [] := by
  simp [appendedSince]

theorem conn_congr (h : e'.entry = e.entry) : e'.conn = e.conn := by rw [conn, h, conn]

theorem phase_congr (h : e'.entry = e.entry) : e'.phase = e.phase := by rw [phase, h, phase]

theorem takes_of_entry (h : e'.entry = e.entry) (hr : e'.replies ⊆ e.replies)
    (hw : e'.waiting ⊆ e.waiting) : Takes k op e e' := by
  refine .still ?_ hr hw ?_ fun hn _ => h.trans hn
  · rw [conn_congr h]
  · simp [appendedSince, conn_congr h]

theorem takes_of_unread {c c' : Connection} (hc : e.entry = some c) (hc' : e'.entry = some c')
    (he : c'.expected = c.expected) (hu : c'.unread.length ≤ c.unread.length)
    (hr : e'.replies ⊆ e.replies) (hw : e'.waiting ⊆ e.waiting) : Takes k op e e' := by
  refine .still ?_ hr hw ?_ fun hn _ => by simp [hc] at hn
  · rw [conn_of_entry hc, conn_of_entry hc', he]
  · rw [appendedSince, conn_of_entry hc, conn_of_entry hc']
    exact List.drop_eq_nil_of_le hu

theorem takes_of_swept (h : e'.entry = e.swept.entry) (hr : e'.replies ⊆ e.replies)
    (hw : e'.waiting ⊆ e.waiting) : Takes k op e e' := by
  by_cases hp : e.phase = .closed
  · cases he : e.entry with
    | none =>
      rw [swept_of_none he] at h
      exact takes_of_entry h hr hw
    | some c => exact .shut (by simp [he]) ((phase_congr h).trans ((phase_swept e).trans hp))
  · rw [swept_of_open hp] at h
    exact takes_of_entry h hr hw

theorem takes_of_none (h : e'.entry = none) (hr : e'.replies ⊆ e.replies)
    (hw : e'.waiting ⊆ e.waiting) : Takes k op e e' := by
  cases he : e.entry with
  | none => exact takes_of_entry (h.trans he.symm) hr hw
  | some c =>
    exact .shut (by simp [he]) (phase_of_none h)

theorem takes_dealt {c c' : Connection} {kind : Kind} (ha : Arrives k op s)
    (hr : s.isReply = false) (hf : s.kind? ≠ some .fin) (hc : e.entry = some c)
    (he : s.seq = c.expected) (hp : c.phase ≠ .closed) (hp' : c'.phase ≠ .closed)
    (hc' : e'.entry = some c') (he' : c'.expected = s.seq + 1) (hk : kind ≠ .finAck)
    (hrep : e'.replies ⊆ e.replies ++ [s.answer kind]) (hw : e'.waiting = e.waiting)
    (hu : s.kind? = some .data ∧ c.phase.keeps ∧ c'.unread = c.unread ++ [s] ∨
      (s.kind? = some .data → c.phase.discards) ∧ c'.unread = c.unread) : Takes k op e e' := by
  have hconn := conn_of_entry hc
  have hconn' := conn_of_entry hc'
  rw [← phase_of_entry hc] at hp hu
  rw [← phase_of_entry hc'] at hp'
  refine .dealt ha hr hc hp hp' hf (by rw [hconn, he]) (by rw [hconn', he']) hk hrep hw ?_
  rw [appendedSince, hconn, hconn']
  rcases hu with ⟨hd, hk, hu⟩ | ⟨hd, hu⟩
  · exact .inl ⟨hd, hk, by simp [hu]⟩
  · exact .inr ⟨hd, by simp [hu]⟩

theorem again_finAck {p : Phase} (h : p.again kind = some .finAck) : kind = .fin := by
  cases kind <;> simp_all [Phase.again]

theorem Hears.takes (h : Hears room k s kind e e') (ha : Arrives k op s)
    (hk : s.kind? = some kind) : Takes k op e e' := by
  have hrep (hr : kind.isReply = false) : s.isReply = false := by simp [Segment.isReply, hk, hr]
  have self (l : List Segment) : l ⊆ l := List.Subset.refl l
  cases h with
  | noted => exact takes_of_swept rfl (self _) (self _)
  | opened hc => exact takes_of_unread hc rfl rfl (Nat.le_refl _) (self _) (self _)
  | drained hc => exact takes_of_unread hc rfl rfl (Nat.le_refl _) (self _) (self _)
  | ended => exact takes_of_none rfl (self _) (self _)
  | knocked hp => exact .knocked ha hk hp rfl rfl rfl rfl (by simp [appendedSince, conn, enter])
  | strange => exact takes_of_entry rfl (self _) (self _)
  | strangeFin he =>
    have hp : e.phase = .closed := phase_of_none he
    exact .strayed ha hk hp hp
  | @stale _ _ c hr hc _ hlt =>
    cases hkind : c.phase.again kind with
    | none => exact takes_of_entry rfl (by simp) (self _)
    | some kind' =>
      refine .again ha (hrep hr) hc (by rwa [conn_of_entry hc]) ?_ (self _) rfl rfl
      rintro rfl
      rw [hk, again_finAck hkind]
  | early => exact takes_of_entry rfl (self _) (self _)
  | collided => exact takes_of_none rfl (self _) (self _)
  | kept hc hp he =>
    have ho := live_ne (.inl hp)
    exact takes_dealt ha (hrep rfl) (by simp [hk]) hc he ho.1 (by exact ho.1) rfl rfl (by decide)
      (self _) rfl (.inl ⟨hk, hp, rfl⟩)
  | full => exact takes_of_entry rfl (self _) (self _)
  | @discarded _ _ c hc he hp =>
    have hd : c.phase.discards := hp.elim And.right fun hp => .inr hp.2
    have ho := live_ne (.inr hd)
    have hkind : kind = .data ∨ kind = .stp := hp.imp And.left And.left
    exact takes_dealt ha (hrep (by rcases hkind with rfl | rfl <;> rfl))
      (by rcases hkind with rfl | rfl <;> simp [hk]) hc he ho.1 (by exact ho.1) rfl rfl
      (by decide) (self _) rfl (.inr ⟨fun _ => hd, rfl⟩)
  | halted hc hp he =>
    exact takes_dealt ha (hrep rfl) (by simp [hk]) hc he (by simp [hp]) (by simp) rfl rfl
      (by decide) (self _) rfl (.inr ⟨by simp [hk], rfl⟩)
  | crossed hc hp he =>
    exact takes_dealt ha (hrep rfl) (by simp [hk]) hc he (by simp [hp]) (by simp) rfl rfl
      (by decide) (self _) rfl (.inr ⟨by simp [hk], rfl⟩)
  | @greeted _ c hc hp he =>
    have ho : c.phase ≠ .closed := by rcases hp with hp | hp <;> simp [hp]
    exact takes_dealt ha (hrep rfl) (by simp [hk]) hc he ho (by exact ho) rfl rfl (by decide)
      (self _) rfl (.inr ⟨by simp [hk], rfl⟩)
  | repeated hc hp he =>
    exact takes_dealt ha (hrep rfl) (by simp [hk]) hc he (by simp [hp]) (by simp [hp]) rfl rfl
      (by decide : Kind.synAck ≠ .finAck) (List.subset_append_left _ _) rfl
      (.inr ⟨by simp [hk], rfl⟩)
  | finished hc => exact .shut (by simp [hc]) (phase_swept _)
  | finishedAgain hc hp => exact .shut (by simp [hc]) ((phase_swept _).trans hp)
  | misplaced => exact takes_of_swept rfl (self _) (self _)

theorem Step.takes (h : Step cfg k op r e e') (hd : ∀ ticket, r ≠ .dialled (.ok ticket)) :
    Takes k op e e' := by
  have self (l : List Segment) : l ⊆ l := List.Subset.refl l
  cases h with
  | heard ha hk hp hh => exact hh.takes ⟨ha, hp⟩ hk
  | dialled => exact absurd rfl (hd _)
  | forgot => exact takes_of_none rfl (self _) (self _)
  | @accepted _ c syn rest hc hp hw =>
    exact .accepted (by rw [hw]; exact List.mem_cons_self) ((phase_of_entry hc).trans hp) rfl
      (by rw [conn_of_entry hc]; rfl) rfl (by rw [hw]; exact List.subset_cons_self _ _)
      (by simp [appendedSince, conn, enter, hc])
  | passed _ hw => exact takes_of_entry rfl (self _) hw.subset
  | @read _ c x rest buffer n hc hu hn =>
    by_cases hp : c.phase = .closed
    · exact .shut (by simp [hc]) ((phase_swept _).trans hp)
    · rw [swept_of_open (by exact hp)]
      refine takes_of_unread hc rfl rfl ?_ (self _) (self _)
      simp only [hu]
      split <;> simp
  | readRefused => exact takes_of_swept rfl (self _) (self _)
  | wrote => exact takes_of_entry (pushData_eq _ _).1 (by simp [pushData_eq]) (by simp [pushData_eq])
  | writeRefused => exact takes_of_swept rfl (self _) (self _)
  | closedDrained hc => exact takes_of_unread hc rfl rfl (Nat.le_refl _) (self _) (self _)
  | closedBusy hc => exact takes_of_unread hc rfl rfl (Nat.le_refl _) (self _) (self _)
  | closedStopped hc => exact takes_of_unread hc rfl rfl (Nat.le_refl _) (self _) (self _)
  | closedIdle => exact takes_of_swept rfl (self _) (self _)
  | tickedClosing hc => exact takes_of_unread hc rfl rfl (Nat.le_refl _) (self _) (self _)
  | expired => exact takes_of_none rfl (self _) (self _)
  | tickedIdle => exact takes_of_swept rfl (self _) (self _)
  | polled => exact takes_of_entry rfl (List.nil_subset _) (self _)
  | _ => exact takes_of_entry rfl (self _) (self _)

theorem conn_swept (e : Side) : e.swept.conn = e.conn ∨ e.entry.isSome ∧ e.swept.phase = .closed := by
  by_cases hp : e.phase = .closed
  · cases he : e.entry with
    | none => exact .inl (by rw [swept_of_none he])
    | some c => exact .inr ⟨rfl, (phase_swept e).trans hp⟩
  · exact .inl (by rw [swept_of_open hp])

theorem conn_none (h : e'.entry = none) :
    e'.conn = e.conn ∨ e.entry.isSome ∧ e'.phase = .closed := by
  cases he : e.entry with
  | none => exact .inl (conn_congr (h.trans he.symm))
  | some c =>
    exact .inr ⟨rfl, phase_of_none h⟩

theorem Hears.unread (h : Hears room k s kind e e') :
    (∃ l, e'.conn.unread = e.conn.unread ++ l) ∨ e.entry.isSome ∧ e'.phase = .closed := by
  have same (hc : e'.conn = e.conn) : ∃ l, e'.conn.unread = e.conn.unread ++ l := ⟨[], by simp [hc]⟩
  have more {c c' : Connection} {l : List Segment} (hc : e.entry = some c)
      (hc' : e'.entry = some c') (hl : c'.unread = c.unread ++ l) :
      ∃ l, e'.conn.unread = e.conn.unread ++ l :=
    ⟨l, by rw [conn_of_entry hc, conn_of_entry hc', hl]⟩
  cases h with
  | noted => exact (conn_swept (e.acked s.seq)).imp same id
  | opened hc => exact .inl (more (l := []) hc rfl (by simp))
  | drained hc => exact .inl (more (l := []) hc rfl (by simp))
  | ended => exact (conn_none rfl).imp same id
  | knocked => exact .inl ⟨[], by simp [conn, enter]⟩
  | strange => exact .inl (same rfl)
  | strangeFin => exact .inl (same rfl)
  | stale => exact .inl (same rfl)
  | early => exact .inl (same rfl)
  | collided => exact (conn_none rfl).imp same id
  | kept hc => exact .inl (more hc rfl rfl)
  | full => exact .inl (same rfl)
  | discarded hc => exact .inl (more (l := []) hc rfl (by simp))
  | halted hc => exact .inl (more (l := []) hc rfl (by simp))
  | crossed hc => exact .inl (more (l := []) hc rfl (by simp))
  | greeted hc => exact .inl (more (l := []) hc rfl (by simp))
  | repeated hc => exact .inl (more (l := []) hc rfl (by simp))
  | finished hc => exact .inr ⟨by simp [hc], phase_swept _⟩
  | finishedAgain hc hp => exact .inr ⟨by simp [hc], (phase_swept _).trans hp⟩
  | misplaced => exact (conn_swept e).imp same id

theorem Step.unread (h : Step cfg k op r e e') :
    op.took k r ++ bytes e'.conn.unread = bytes e.conn.unread ++ bytes (e.appendedSince e') ∨
      e.entry.isSome ∧ e'.phase = .closed := by
  have more (ht : op.took k r = []) (hl : ∃ l, e'.conn.unread = e.conn.unread ++ l) :
      op.took k r ++ bytes e'.conn.unread =
        bytes e.conn.unread ++ bytes (e.appendedSince e') := by
    obtain ⟨l, hl⟩ := hl
    simp [ht, appendedSince, hl]
  have same (ht : op.took k r = []) (hc : e'.conn = e.conn) :=
    more ht ⟨[], by simp [hc]⟩
  cases h with
  | apart _ ht => exact .inl (same ht rfl)
  | heard ha _ _ hh =>
    refine hh.unread.imp (more ?_) id
    cases op <;> first | rfl | cases ha
  | dialled he => exact .inl (more rfl ⟨[], by simp [conn, he, enter, push]⟩)
  | forgot _ _ ht => exact (conn_none rfl).imp (same ht) id
  | accepted hc => exact .inl (more rfl ⟨[], by simp [conn, enter, hc]⟩)
  | passed => exact .inl (same rfl rfl)
  | @read _ c x rest buffer n hc hu hn =>
    -- The oldest segment gives its first bytes, and stays with the others if there are any.
    have hle : n ≤ x.payload.length := hn ▸ Nat.min_le_right _ _
    have ht : (x.payload.take n ++ buffer.drop n).take n = x.payload.take n := by
      rw [List.take_append_of_le_length (by rw [List.length_take]; omega), List.take_take,
        Nat.min_self]
    refine (conn_swept (e.enter _)).imp (fun hs => ?_) fun hs => ⟨by simp [hc], hs.2⟩
    simp only [Station.Op.took, if_true, ht, appendedSince, hs, conn_of_entry hc, hu]
    rw [conn_of_entry (e := e.enter _) rfl]
    simp only
    split
    · simp [Segment.dropPayload, ← List.append_assoc]
    · rename_i hlt
      rw [List.take_of_length_le (by omega), List.drop_eq_nil_of_le (by simp)]
      simp
  | readNothing => exact .inl (same (by simp [Station.Op.took]) rfl)
  | readRefused => exact (conn_swept e).imp (same rfl) id
  | wrote => exact .inl (same rfl (conn_congr (pushData_eq _ _).1))
  | writeRefused => exact (conn_swept e).imp (same rfl) id
  | closedDrained hc => exact .inl (more rfl ⟨[], by simp [conn, enter, push, hc]⟩)
  | closedBusy hc => exact .inl (more rfl ⟨[], by simp [conn, enter, push, hc]⟩)
  | closedStopped hc => exact .inl (more rfl ⟨[], by simp [conn, enter, push, hc]⟩)
  | closedIdle => exact (conn_swept e).imp (same rfl) id
  | closeRefused => exact .inl (same rfl rfl)
  | ticked => exact .inl (same rfl rfl)
  | tickedClosing hc => exact .inl (more rfl ⟨[], by simp [conn, enter, resent, hc]⟩)
  | expired => exact (conn_none rfl).imp (same rfl) id
  | tickedIdle => exact (conn_swept e).imp (same rfl) id
  | polled hop => exact .inl (same (by rcases hop with rfl | rfl <;> rfl) rfl)

inductive Opens (k : SocketPair) (op : Station.Op) (r : Station.Reply) : Prop
  | knocked {x} : Arrives k op x → x.kind? = some .syn → Opens k op r
  | dialled {ticket} : op = .call (.connect k.far.host k.far.port) →
      r = .dialled (.ok ticket) → Opens k op r

theorem Hears.syn_of_enters (h : Hears room k s kind e e') (hn : e.entry = none)
    (hs : e'.entry ≠ none) : kind = .syn := by
  cases h with
  | knocked => rfl
  | noted =>
    have hacked : (e.acked s.seq).entry = none := hn
    rw [swept_of_none hacked] at hs
    exact absurd hacked hs
  | ended => exact absurd rfl hs
  | strange | strangeFin => exact absurd hn hs
  | _ => simp_all

theorem Step.enters (h : Step cfg k op r e e') (hn : e.entry = none) (hs : e'.entry ≠ none) :
    Opens k op r := by
  have gone (he : e'.entry = e.entry) : False := hs (he.trans hn)
  have swept (he : e'.entry = e.swept.entry) : False := by
    rw [swept_of_none hn] at he
    exact gone he
  have wrong {c : Connection} (hc : e.entry = some c) : False := by
    rw [hn] at hc
    cases hc
  cases h with
  | heard ha hk hp hh => exact .knocked ⟨ha, hp⟩ (hh.syn_of_enters hn hs ▸ hk)
  | dialled => exact .dialled rfl rfl
  | forgot => exact absurd rfl hs
  | accepted hc | read hc | closedDrained hc | closedBusy hc | closedStopped hc | tickedClosing hc
  | expired hc => exact (wrong hc).elim
  | wrote => exact (gone (pushData_eq _ _).1).elim
  | readRefused | writeRefused | closedIdle | tickedIdle => exact (swept rfl).elim
  | _ => exact (gone rfl).elim

end Side

end ReliableStream
