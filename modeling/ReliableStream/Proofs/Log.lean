import ReliableStream.Proofs.Motion

/-!
The log of a sender: the segments that have joined the queue of a connection, in order. A window
holds those of them that are not acknowledged.
-/

namespace ReliableStream

/-- The segments of a log are numbered from 0, and only a SYN may stand in front. -/
structure Log (k : SocketPair) (log : List Segment) : Prop where
  numbered : ∀ (i : Nat) (s : Segment), log[i]? = some s → s.seq.toNat = i
  pair : ∀ s ∈ log, s.senderPair = k
  tracked : ∀ s ∈ log, s.isReply = false
  empty : ∀ s ∈ log, s.kind? ≠ some .data → s.payload = []
  first : ∀ s ∈ log, s.kind? = some .syn → s.seq = 0

namespace Log

variable {k : SocketPair} {log : List Segment}

theorem nil (k : SocketPair) : Log k [] := by
  constructor <;> simp

theorem getElem? (h : Log k log) {s : Segment} (hs : s ∈ log) : log[s.seq.toNat]? = some s := by
  obtain ⟨i, hi⟩ := List.mem_iff_getElem?.1 hs
  rw [h.numbered i s hi]
  exact hi

theorem seq_lt (h : Log k log) {s : Segment} (hs : s ∈ log) : s.seq.toNat < log.length :=
  (List.getElem?_eq_some_iff.1 (h.getElem? hs)).1

theorem eq_of_seq (h : Log k log) {s t : Segment} (hs : s ∈ log) (ht : t ∈ log)
    (he : s.seq = t.seq) : s = t := by
  have := h.getElem? hs
  rw [he, h.getElem? ht, Option.some.injEq] at this
  exact this.symm

theorem ascending (h : Log k log) :
    log.Pairwise fun s t => s.seq < t.seq := by
  rw [List.pairwise_iff_getElem]
  intro i j hi hj hij
  have hs := h.numbered i log[i] (List.getElem?_eq_getElem hi)
  have ht := h.numbered j log[j] (List.getElem?_eq_getElem hj)
  exact UInt32.lt_iff_toNat_lt.2 (by omega)

theorem pairwise (h : Log k log) : log.Pairwise fun s t => s.seq ≠ t.seq :=
  h.ascending.imp UInt32.ne_of_lt

theorem push (h : Log k log) {s : Segment} {n : SequenceNumber} (hn : n.toNat = log.length)
    (hp : s.senderPair = k) (ht : s.isReply = false) (he : s.kind? ≠ some .data → s.payload = [])
    (hf : s.kind? = some .syn → n = 0) : Log k (log ++ [{ s with seq := n }]) := by
  have both {P : Segment → Prop} (hl : ∀ x ∈ log, P x) (hs : P { s with seq := n }) :
      ∀ x ∈ log ++ [{ s with seq := n }], P x := by
    intro x hx
    rcases List.mem_append.1 hx with hx | hx
    · exact hl x hx
    · exact List.mem_singleton.1 hx ▸ hs
  refine ⟨fun i x hi => ?_, both h.pair hp, both h.tracked ht, both h.empty he, both h.first hf⟩
  by_cases hl : i < log.length
  · exact h.numbered i x (by rwa [List.getElem?_append_left hl] at hi)
  · have := (List.getElem?_eq_some_iff.1 hi).1
    rw [List.length_append, List.length_singleton] at this
    obtain rfl : i = log.length := by omega
    simp only [List.getElem?_concat_length, Option.some.injEq] at hi
    rw [← hi]
    exact hn

theorem bytes_take_succ (h : Log k log) {s : Segment} (hs : s ∈ log) :
    bytes (log.take (s.seq.toNat + 1)) = bytes (log.take s.seq.toNat) ++ s.payload := by
  rw [List.take_succ_eq_append_getElem (h.seq_lt hs), bytes_append]
  have := h.getElem? hs
  rw [List.getElem?_eq_getElem (h.seq_lt hs), Option.some.injEq] at this
  simp [this]

end Log

/-- The window numbers what joins the log, and holds what is not acknowledged, of the segments from
a number on all. -/
structure Window.Holds (w : Window) (log : List Segment) (n : Nat) : Prop where
  next : w.next.toNat = log.length
  pending : w.pending <:+ log
  unacked : ∀ (i : SequenceNumber) (s : Segment), w.unacked.get? i = some s →
    s ∈ log ∧ s.seq = i
  covers : ∀ s ∈ log, n ≤ s.seq.toNat → s ∈ w.pending ∨ w.unacked.get? s.seq = some s

namespace Window.Holds

variable {w : Window} {k : SocketPair} {log : List Segment} {n : Nat}

theorem blank (n : Nat) : Window.Holds {} [] n := by
  constructor <;> simp

theorem congr {w' : Window} (h : w.Holds log n) (hn : w'.next = w.next)
    (hp : w'.pending = w.pending) (hu : w'.unacked = w.unacked) : w'.Holds log n :=
  ⟨hn ▸ h.next, hp ▸ h.pending, hu ▸ h.unacked, hp ▸ hu ▸ h.covers⟩

theorem mono {m : Nat} (h : w.Holds log n) (hm : n ≤ m) : w.Holds log m :=
  ⟨h.next, h.pending, h.unacked, fun s hs hn => h.covers s hs (Nat.le_trans hm hn)⟩

theorem push (h : w.Holds log n) (hlen : log.length + 1 < UInt32.size) (s : Segment) :
    (w.push s).Holds (log ++ [{ s with seq := w.next }]) n where
  next := by
    rw [next_push, UInt32.toNat_add, h.next, List.length_append]
    exact Nat.mod_eq_of_lt hlen
  pending := by
    obtain ⟨l, hl⟩ := h.pending
    exact ⟨l, by rw [pending_push, ← List.append_assoc, hl]⟩
  unacked i x hx := (h.unacked i x hx).imp (List.mem_append_left _) id
  covers x hx hn := by
    rcases List.mem_append.1 hx with hx | hx
    · exact (h.covers x hx hn).imp (List.mem_append_left _) id
    · exact .inl (List.mem_append_right _ hx)

theorem extend (h : w.Holds log n) (hl : Log k log) (l : List (List UInt8))
    (hlen : (log ++ Segment.numbered k w.next l).length < UInt32.size) :
    Log k (log ++ Segment.numbered k w.next l) ∧
      (w.extend (Segment.numbered k w.next l)).Holds (log ++ Segment.numbered k w.next l) n := by
  induction l generalizing w log with
  | nil => simpa [Segment.numbered] using And.intro hl h
  | cons payload rest ih =>
    rw [Segment.numbered, List.append_cons] at hlen ⊢
    have hshort : log.length + 1 < UInt32.size := by
      simp only [List.length_append, List.length_singleton] at hlen
      omega
    rw [← Window.push_extend]
    exact ih (h.push hshort (.data k payload)) (hl.push h.next rfl rfl (by simp) (by simp)) hlen

theorem erase (h : w.Holds log n) {seq : SequenceNumber} (hs : seq.toNat < n) :
    Window.Holds { w with unacked := w.unacked.erase seq } log n where
  next := h.next
  pending := h.pending
  unacked i x hx := by
    by_cases hi : seq = i
    · subst hi
      simp at hx
    · rw [SortedMap.get?_erase_of_ne _ hi] at hx
      exact h.unacked i x hx
  covers x hx hn := by
    have hne : seq ≠ x.seq := by
      rintro rfl
      omega
    rw [SortedMap.get?_erase_of_ne _ hne]
    exact h.covers x hx hn

theorem advance (h : w.Holds log n) (hl : Log k log) (limit : Nat) :
    (w.advance limit).Holds log n := by
  have happ := admitted_append limit w
  obtain ⟨before, hbefore⟩ := h.pending
  have hmem : ∀ s ∈ w.pending, s ∈ log := fun s hs => h.pending.subset hs
  have hpw : w.pending.Pairwise fun s t => s.seq ≠ t.seq :=
    hl.pairwise.sublist h.pending.sublist
  refine ⟨h.next, ⟨before ++ w.admitted limit, ?_⟩, fun i s hs => ?_, fun s hs hn => ?_⟩
  · rw [List.append_assoc, happ, hbefore]
  · exact (get?_admitFrom hs).elim (h.unacked i s) fun hs => ⟨hmem s hs.1, hs.2⟩
  -- A segment that waits is admitted or still waits; one that does not wait keeps its place.
  · by_cases hp : s ∈ w.pending
    · rw [← happ] at hp
      exact (List.mem_append.1 hp).symm.imp id (get?_admitFrom_of_mem hpw)
    · refine .inr ?_
      rw [Window.advance, get?_admitFrom_of_ne fun t ht he => hp (hl.eq_of_seq (hmem t ht) hs he ▸ ht)]
      exact (h.covers s hs hn).resolve_left hp

end Window.Holds

namespace Station

theorem flatten_pieces {n : Nat} {data : List UInt8} (h : data.length ≤ n * payloadLength) :
    (pieces n data).flatten = data := by
  induction n generalizing data with
  | zero =>
    have : data = [] := List.length_eq_zero_iff.1 (by omega)
    rw [this]
    rfl
  | succ n ih =>
    rw [pieces, List.flatten_cons, ih, List.take_append_drop]
    rw [List.length_drop]
    rw [Nat.succ_mul] at h
    omega

theorem flatten_payloads (data : List UInt8) : (payloads data).flatten = data := by
  refine flatten_pieces ?_
  have := Nat.div_add_mod (data.length + payloadLength - 1) payloadLength
  have := Nat.mod_lt (data.length + payloadLength - 1) (show 0 < payloadLength by decide)
  rw [Nat.mul_comm]
  omega

theorem length_pieces {n : Nat} {data p : List UInt8} (hp : p ∈ pieces n data)
    (hn : n * payloadLength < data.length + payloadLength) :
    1 ≤ p.length ∧ p.length ≤ payloadLength := by
  induction n generalizing data with
  | zero => cases hp
  | succ n ih =>
    rw [Nat.succ_mul] at hn
    rcases List.mem_cons.1 hp with rfl | hp
    · have : 0 < payloadLength := by decide
      rw [List.length_take]
      omega
    · refine ih hp ?_
      rw [List.length_drop]
      omega

theorem length_payloads {data p : List UInt8} (hp : p ∈ payloads data) :
    1 ≤ p.length ∧ p.length ≤ payloadLength := by
  refine length_pieces hp ?_
  have := Nat.div_mul_le_self (data.length + payloadLength - 1) payloadLength
  have : 0 < payloadLength := by decide
  omega

end Station

namespace Side

variable {k : SocketPair} {op : Station.Op} {r : Station.Reply} {e e' : Side}
  {log : List Segment} {n : Nat}

theorem queuedSince_of_append {l : List Segment} (h : e'.win.pending = e.win.pending ++ l) :
    e.queuedSince e' = l := by
  simp [queuedSince, h]

theorem queuedSince_of_suffix (h : e'.win.pending <:+ e.win.pending) : e.queuedSince e' = [] :=
  List.drop_eq_nil_of_le h.length_le

theorem queuedSince_of_eq (h : e'.win.pending = e.win.pending) : e.queuedSince e' = [] :=
  queuedSince_of_suffix (h ▸ List.suffix_refl _)

@[simp] theorem queuedSince_self (e : Side) : e.queuedSince e = [] := queuedSince_of_eq rfl

theorem pending_pushData (e : Side) (k : SocketPair) (l : List (List UInt8)) :
    (e.pushData k l).win.pending = e.win.pending ++ Segment.numbered k e.win.next l := by
  rw [win_pushData]
  rfl

theorem queuedSince_pushData (e : Side) (k : SocketPair) (l : List (List UInt8)) :
    e.queuedSince (e.pushData k l) = Segment.numbered k e.win.next l :=
  queuedSince_of_append (e.pending_pushData k l)

inductive Queues (k : SocketPair) (op : Station.Op) (r : Station.Reply) (e e' : Side) :
    List Segment → Prop
  | nothing : op.wrote k r = [] → Queues k op r e e' []
  | data {new} : e.phase = .established → (∀ s ∈ new, s.kind? = some .data) →
      bytes new = op.wrote k r → Queues k op r e e' new
  | stp {s} : e.phase = .established → e'.phase = .stopSent → s.kind? = some .stp →
      s.payload = [] → op.wrote k r = [] → Queues k op r e e' [s]
  | fin {s} : e.phase = .established ∨ e.phase = .stopReceived ∨ e.phase = .stopSent →
      e'.phase = .closing → s.kind? = some .fin → s.payload = [] → op.wrote k r = [] →
      Queues k op r e e' [s]

theorem Queues.eq_nil {new : List Segment} (h : Queues k op r e e' new)
    (hp : ¬(e.phase = .established ∨ e.phase = .stopReceived ∨ e.phase = .stopSent)) :
    new = [] := by
  cases h with
  | nothing => rfl
  | data ho | stp ho => exact absurd (.inl ho) hp
  | fin ho => exact absurd ho hp

theorem Sends.queues (h : Sends k op r e e') : Queues k op r e e' (e.queuedSince e') := by
  have control {kind : Kind} {o : Side} (hp : o.win.pending = e.win.pending)
      (hw : e'.win = (o.push (.control k kind)).win) :
      e.queuedSince e' = [{ Segment.control k kind with seq := o.win.next }] :=
    queuedSince_of_append (by rw [hw, win_push, Window.pending_push, hp])
  cases h with
  | gone _ hp hw =>
    rw [queuedSince_of_suffix (by rw [hp]; exact List.nil_suffix)]
    exact .nothing hw
  | quiet hp _ hw =>
    rw [queuedSince_of_eq (by rw [hp])]
    exact .nothing hw
  | acked _ _ hp _ hw =>
    rw [queuedSince_of_eq (by rw [hp, win_acked])]
    exact .nothing hw
  | drained _ _ hph hp _ hph' hw =>
    rw [control (by rw [win_acked]) hp]
    exact .fin (.inr (.inr hph)) hph' rfl rfl hw
  | finished hph hp _ hph' hw =>
    rw [control rfl hp]
    exact .fin hph hph' rfl rfl hw
  | halted hph hp _ hph' hw =>
    rw [control rfl hp]
    exact .stp hph hph' rfl rfl hw
  | @wrote data hph hw he =>
    by_cases hd : data = []
    · subst hd
      have hs : e.queuedSince e' = [] := by
        rw [he]
        exact queuedSince_of_eq rfl
      rw [hs]
      exact .nothing hw
    · rw [he, queuedSince_pushData]
      exact .data (hph hd) (fun s hs => Segment.kind_of_numbered hs)
        (by rw [bytes_numbered, Station.flatten_payloads, hw])
  | resent hp _ hw =>
    rw [queuedSince_of_eq (congrArg Window.pending hp)]
    exact .nothing hw
  | @sent limit hp _ hw =>
    have := Window.admitted_append limit e.win
    rw [queuedSince_of_suffix (by rw [hp]; exact ⟨_, this⟩)]
    exact .nothing hw

theorem Sends.holds (h : Sends k op r e e') (hl : Log k log) (hw : e.win.Holds log n)
    (hr : ∀ s ∈ e.resends, s ∈ log)
    (ha : ∀ x, Arrives k op x → x.isReply → x.seq.toNat < n)
    (hlen : (log ++ e.queuedSince e').length < UInt32.size) :
    Log k (log ++ e.queuedSince e') ∧ (e'.phase ≠ .closed →
      e'.win.Holds (log ++ e.queuedSince e') n ∧ ∀ s ∈ e'.resends, s ∈ log ++ e.queuedSince e') := by
  have same (hq : e.queuedSince e' = []) (hw' : e'.win.Holds log n)
      (hr' : ∀ s ∈ e'.resends, s ∈ log) : Log k (log ++ e.queuedSince e') ∧ (e'.phase ≠ .closed →
      e'.win.Holds (log ++ e.queuedSince e') n ∧
        ∀ s ∈ e'.resends, s ∈ log ++ e.queuedSince e') := by
    rw [hq, List.append_nil]
    exact ⟨hl, fun _ => ⟨hw', hr'⟩⟩
  have control {kind : Kind} {o : Side} (ho : o.win.Holds log n)
      (hp : o.win.pending = e.win.pending) (hw' : e'.win = (o.push (.control k kind)).win)
      (hr' : e'.resends = e.resends) (hk : kind.isReply = false) (hs : kind ≠ .syn) :
      Log k (log ++ e.queuedSince e') ∧ (e'.phase ≠ .closed →
        e'.win.Holds (log ++ e.queuedSince e') n ∧
          ∀ s ∈ e'.resends, s ∈ log ++ e.queuedSince e') := by
    have hq : e.queuedSince e' = [{ Segment.control k kind with seq := o.win.next }] :=
      queuedSince_of_append (by rw [hw', win_push, Window.pending_push, hp])
    rw [hq] at hlen ⊢
    rw [List.length_append, List.length_singleton] at hlen
    refine ⟨hl.push ho.next rfl ((isReply_control k kind).trans hk) (fun _ => rfl) ?_, fun _ => ⟨?_, ?_⟩⟩
    · intro he
      rw [Segment.kind?_control, Option.some.injEq] at he
      exact absurd he hs
    · rw [hw']
      exact ho.push hlen _
    · rw [hr']
      exact fun s hs => List.mem_append_left _ (hr s hs)
  cases h with
  | gone hp hq =>
    rw [queuedSince_of_suffix (by rw [hq]; exact List.nil_suffix), List.append_nil]
    exact ⟨hl, fun ho => absurd hp ho⟩
  | quiet hw' hr' =>
    refine same (queuedSince_of_eq (by rw [hw'])) ?_ (hr' ▸ hr)
    exact hw.congr (by rw [hw']) (by rw [hw']) (by rw [hw'])
  | acked hx hxr hw' hr' =>
    rw [win_acked] at hw'
    refine same (queuedSince_of_eq (by rw [hw'])) ?_ (hr' ▸ hr)
    rw [hw']
    exact hw.erase (ha _ hx hxr)
  | drained hx hxr _ hw' hr' =>
    exact control (by rw [win_acked]; exact hw.erase (ha _ hx hxr)) (by rw [win_acked]) hw' hr' rfl
      (by decide)
  | finished _ hw' hr' => exact control hw rfl hw' hr' rfl (by decide)
  | halted _ hw' hr' => exact control hw rfl hw' hr' rfl (by decide)
  | @wrote data _ _ he =>
    rw [he, queuedSince_pushData] at hlen ⊢
    obtain ⟨hl', hw'⟩ := hw.extend hl (Station.payloads data) hlen
    refine ⟨hl', fun _ => ⟨by rwa [win_pushData], fun s hs => ?_⟩⟩
    rw [(pushData_eq _ _).2.2.2] at hs
    exact List.mem_append_left _ (hr s hs)
  | resent hw' hr' =>
    refine same (queuedSince_of_eq (by rw [hw'])) (hw' ▸ hw) ?_
    intro s hs
    rw [hr'] at hs
    rcases Outbox.mem_addMissing.1 hs with hs | hs
    · exact hr s hs
    · obtain ⟨i, hi⟩ := SortedMap.mem_values_iff.1 hs
      exact (hw.unacked i s hi).1
  | @sent limit hw' hr' =>
    have happ := Window.admitted_append limit e.win
    refine same (queuedSince_of_suffix (by rw [hw']; exact ⟨_, happ⟩)) ?_ (by simp [hr'])
    rw [hw']
    exact hw.advance hl limit

theorem Step.bytes_queued {cfg : Settings} (h : Step cfg k op r e e') (hs : e.Sound) :
    bytes (e.queuedSince e') = op.wrote k r := by
  by_cases hd : ∀ ticket, r ≠ .dialled (.ok ticket)
  · have hq := (h.sends hd).queues
    generalize e.queuedSince e' = new at hq
    cases hq with
    | nothing hw => rw [hw]; rfl
    | data _ _ hb => exact hb
    | stp _ _ _ he hw | fin _ _ _ he hw => simp [hw, he]
  · obtain ⟨ticket, hr⟩ := Classical.not_forall.1 hd
    obtain rfl := Classical.not_not.1 hr
    cases h with
    | apart hw => rw [hw, queuedSince_self]; rfl
    | forgot _ hw => rw [hw, queuedSince_of_suffix (by exact List.nil_suffix)]; rfl
    | dialled he =>
      have hp : e.phase = .closed := phase_of_none he
      have hw := (hs.shut (.inl hp)).1
      simp [queuedSince, win, push, enter, hw, Segment.control, Station.Op.wrote]

end Side

end ReliableStream
