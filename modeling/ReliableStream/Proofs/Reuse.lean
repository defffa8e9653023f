import ReliableStream.Proofs.Completion

/-!
Two connections one after the other under the same name. The wire carries nothing that tells them
apart: they do not mix if nothing of the first one is left when the second one is dialled.
-/

namespace ReliableStream

open Side

namespace Side

variable {cfg : Settings} {room : Nat} {k : SocketPair} {op : Station.Op} {r : Station.Reply}
  {e e' : Side} {s : Segment} {kind : Kind}

/-! ## SYNs -/

theorem Step.syn_seq (h : Step cfg k op r e e') (hs : e.Sound)
    (he : ∀ x, e.held x → x.kind? = some .syn → x.seq = 0) (hx : e'.held s)
    (hk : s.kind? = some .syn) : s.seq = 0 := by
  by_cases hd : ∀ ticket, r ≠ .dialled (.ok ticket)
  · exact (h.held hs hd hx).elim (he s · hk) fun hx => absurd hk ((h.sends hd).queues.not_syn hx)
  · obtain ⟨ticket, hr⟩ := Classical.not_forall.1 hd
    obtain rfl := Classical.not_not.1 hr
    cases h with
    | apart => exact he s hx hk
    | forgot => rcases hx with (hx | ⟨i, hx⟩) | hx <;> cases hx
    | dialled hn => rw [hs.held_dialled hn hx]

theorem Step.waiting (h : Step cfg k op r e e') (hx : s ∈ e'.waiting) :
    s ∈ e.waiting ∨ Arrives k op s ∧ s.kind? = some .syn := by
  cases h with
  | heard ha hk hp hh =>
    cases hh with
    | knocked =>
      refine (List.mem_append.1 hx).imp id fun hx => ?_
      rw [List.mem_singleton.1 hx]
      exact ⟨⟨ha, hp⟩, hk⟩
    | _ => exact .inl hx
  | accepted _ _ hw =>
    rw [hw]
    exact .inl (List.mem_cons_of_mem _ hx)
  | passed _ hw => exact .inl (hw.subset hx)
  | wrote =>
    rw [(pushData_eq _ _).2.2.1] at hx
    exact .inl hx
  | _ => exact .inl hx

/-! ## What comes in -/

theorem Step.appended (h : Step cfg k op r e e') (hx : s ∈ e.appendedSince e') :
    Arrives k op s ∧ s.kind? = some .data := by
  have none (hl : e'.conn.unread.length ≤ e.conn.unread.length) : Arrives k op s ∧
      s.kind? = some .data := by
    rw [appendedSince, List.drop_eq_nil_of_le hl] at hx
    cases hx
  have same (hu : e'.conn.unread = e.conn.unread) := none (Nat.le_of_eq (congrArg List.length hu))
  cases h with
  | heard ha hk hp hh =>
    cases hh with
    | noted => exact same (unread_swept (e.acked _))
    | opened hc | drained hc | discarded hc | halted hc | crossed hc | greeted hc | repeated hc =>
      exact same (by rw [conn_of_entry hc]; rfl)
    | ended | collided => exact none (Nat.zero_le _)
    | knocked => exact same rfl
    | kept hc =>
      rw [appendedSince, conn_of_entry hc, conn_of_entry (e := enter _ _) rfl, List.drop_left] at hx
      rw [List.mem_singleton.1 hx]
      exact ⟨⟨ha, hp⟩, hk⟩
    | finished hc => exact same (by rw [unread_swept, conn_of_entry hc]; rfl)
    | finishedAgain hc => exact same (by rw [unread_swept, conn_of_entry hc]; rfl)
    | misplaced => exact same (unread_swept _)
    | strange | strangeFin | stale | early | full => exact same rfl
  | dialled he => exact none (Nat.zero_le _)
  | forgot | expired => exact none (Nat.zero_le _)
  | accepted hc => exact same (by rw [conn_of_entry hc]; rfl)
  | @read _ c x rest buffer m hc hu =>
    refine none ?_
    rw [unread_swept, conn_of_entry hc, conn_of_entry (e := enter _ _) rfl, hu]
    simp only
    split <;> simp
  | readRefused | writeRefused | closedIdle | tickedIdle => exact same (unread_swept _)
  | wrote => exact same (by rw [conn_congr (pushData_eq _ _).1])
  | closedDrained hc | closedBusy hc | closedStopped hc | tickedClosing hc =>
    exact same (by rw [conn_of_entry hc]; rfl)
  | _ => exact same rfl

inductive Answers (k : SocketPair) (op : Station.Op) (e e' : Side) (y : Segment) : Prop
  | before : y ∈ e.replies → Answers k op e e' y
  | accepted {x} : x ∈ e.waiting → e.phase = .synReceived → y.seq = x.seq → Answers k op e e' y
  | arrived {x} : Arrives k op x → x.isReply = false → y.seq = x.seq →
      (x.kind? = some .syn → e.phase ≠ .closed) →
      (x.kind? = some .data → e.phase.discards ∨ x ∈ e.appendedSince e' ∨
        ∃ c, e.entry = some c ∧ x.seq < c.expected) → Answers k op e e' y

theorem Hears.answers (h : Hears room k s kind e e') (ha : Arrives k op s) (hk : s.kind? = some kind)
    {y : Segment} (hy : y ∈ e'.replies) : Answers k op e e' y := by
  have tracked (hr : kind.isReply = false) : s.isReply = false := by simp [Segment.isReply, hk, hr]
  have one {l : Kind} (hy : y ∈ [s.answer l]) : y.seq = s.seq := by rw [List.mem_singleton.1 hy]; rfl
  -- The answer to a segment that is not data.
  have control {l : Kind} (hr : kind.isReply = false) (hsyn : kind = .syn → e.phase ≠ .closed)
      (hd : kind ≠ .data) (hy : y ∈ e.replies ++ [s.answer l]) : Answers k op e e' y := by
    rcases List.mem_append.1 hy with hy | hy
    · exact .before hy
    · refine .arrived ha (tracked hr) (one hy) (fun h => hsyn ?_) fun h => absurd ?_ hd
      · exact Option.some.inj (hk.symm.trans h)
      · exact Option.some.inj (hk.symm.trans h)
  cases h with
  | strangeFin => exact control rfl (by simp) (by simp) hy
  | @stale _ _ c hr hc hsyn hlt =>
    rcases List.mem_append.1 hy with hy | hy
    · exact .before hy
    · obtain ⟨l, -, rfl⟩ := List.mem_map.1 hy
      refine .arrived ha (tracked hr) rfl (fun h => ?_) fun _ => .inr (.inr ⟨c, hc, hlt⟩)
      rw [phase_of_entry hc]
      exact hsyn (Option.some.inj (hk.symm.trans h))
  | kept hc =>
    rcases List.mem_append.1 hy with hy | hy
    · exact .before hy
    · refine .arrived ha (tracked rfl) (one hy) (by simp [hk]) fun _ => .inr (.inl ?_)
      rw [appendedSince, conn_of_entry hc, conn_of_entry (e := enter _ _) rfl, List.drop_left]
      exact List.mem_singleton_self s
  | @discarded _ _ c hc _ hd =>
    have hkind : kind = .data ∨ kind = .stp := hd.imp And.left And.left
    rcases List.mem_append.1 hy with hy | hy
    · exact .before hy
    · refine .arrived ha (tracked (by rcases hkind with rfl | rfl <;> rfl)) (one hy) (fun h => ?_)
        fun _ => .inl ?_
      · obtain rfl : kind = .syn := Option.some.inj (hk.symm.trans h)
        simp at hkind
      · rw [phase_of_entry hc]
        exact hd.elim And.right fun hd => .inr hd.2
  | halted => exact control rfl (by simp) (by simp) hy
  | crossed => exact control rfl (by simp) (by simp) hy
  | greeted hc hph =>
    refine control rfl (fun _ => ?_) (by simp) hy
    rw [phase_of_entry hc]
    rcases hph with hph | hph <;> simp [hph]
  | finished => exact control rfl (by simp) (by simp) hy
  | finishedAgain => exact control rfl (by simp) (by simp) hy
  | _ => exact .before hy

theorem Step.answers (h : Step cfg k op r e e') {y : Segment} (hy : y ∈ e'.replies) :
    Answers k op e e' y := by
  cases h with
  | heard ha hk hp hh => exact hh.answers ⟨ha, hp⟩ hk hy
  | @accepted _ c x rest hc hp hw =>
    rcases List.mem_append.1 hy with hy | hy
    · exact .before hy
    · refine .accepted (x := x) ?_ ((phase_of_entry hc).trans hp) ?_
      · rw [hw]
        exact List.mem_cons_self
      · rw [List.mem_singleton.1 hy]
        rfl
  | wrote =>
    rw [(pushData_eq _ _).2.1] at hy
    exact .before hy
  | polled => cases hy
  | _ => exact .before hy

theorem entry_swept {c : Connection} (h : e.swept.entry = some c) : e.entry = some c :=
  (Option.filter_eq_some_iff.1 h).1

inductive Expects (k : SocketPair) (op : Station.Op) (e e' : Side) (c' : Connection) : Prop
  | same {c} : e.entry = some c → c'.expected = c.expected →
      (e.phase = .closed → e'.phase = .closed) → Expects k op e e' c'
  | started {x} : Arrives k op x → x.kind? = some .syn → c'.expected = x.seq + 1 →
      Expects k op e e' c'
  | next {x c} : Arrives k op x → x.isReply = false → e.entry = some c → x.seq = c.expected →
      c'.expected = x.seq + 1 →
      (x.kind? = some .data → e.phase.discards ∨ x ∈ e.appendedSince e') → Expects k op e e' c'

theorem expects_of_entry {c' : Connection} (h : e'.entry = e.entry) (hc' : e'.entry = some c') :
    Expects k op e e' c' :=
  .same (h ▸ hc') rfl fun hp => (phase_congr h).trans hp

theorem expects_of_swept {o : Side} {c' : Connection} (ho : o.entry = e.entry)
    (hc' : o.swept.entry = some c') : Expects k op e o.swept c' :=
  .same (ho ▸ entry_swept hc') rfl fun hp => (phase_swept o).trans ((phase_congr ho).trans hp)

theorem expects_of_enter {o : Side} {c d c' : Connection} (hc : e.entry = some c)
    (hp : c.phase ≠ .closed) (hd : d.expected = c.expected) (hc' : (o.enter d).entry = some c') :
    Expects k op e (o.enter d) c' := by
  obtain rfl : d = c' := Option.some.inj hc'
  exact .same hc hd fun h => absurd ((phase_of_entry hc).symm.trans h) hp

theorem Hears.expects (h : Hears room k s kind e e') (ha : Arrives k op s) (hk : s.kind? = some kind)
    {c' : Connection} (hc' : e'.entry = some c') : Expects k op e e' c' := by
  have tracked (hr : kind.isReply = false) : s.isReply = false := by simp [Segment.isReply, hk, hr]
  -- A segment that is not data has its turn.
  have control {c d : Connection} (hr : kind.isReply = false) (hd : kind ≠ .data)
      (hc : e.entry = some c) (hs : s.seq = c.expected) (he : d.expected = s.seq + 1)
      (hd' : some d = some c') : Expects k op e e' c' := by
    obtain rfl : d = c' := Option.some.inj hd'
    exact .next ha (tracked hr) hc hs he fun h => absurd (Option.some.inj (hk.symm.trans h)) hd
  have syn {d : Connection} (hr : kind = .syn) (he : d.expected = s.seq + 1)
      (hd : some d = some c') : Expects k op e e' c' := by
    obtain rfl : d = c' := Option.some.inj hd
    exact .started ha (hr ▸ hk) he
  cases h with
  | noted => exact expects_of_swept rfl hc'
  | opened hc hp => exact expects_of_enter hc (by simp [hp]) rfl hc'
  | drained hc hp => exact expects_of_enter hc (by simp [hp]) rfl hc'
  | ended | collided => cases hc'
  | knocked => exact syn rfl rfl hc'
  | strange | strangeFin | stale | early | full => exact expects_of_entry rfl hc'
  | kept hc hp he =>
    obtain rfl := Option.some.inj hc'
    refine .next ha (tracked rfl) hc he rfl fun _ => .inr ?_
    rw [appendedSince, conn_of_entry hc, conn_of_entry (e := enter _ _) rfl, List.drop_left]
    exact List.mem_singleton_self s
  | @discarded _ _ c hc he hd =>
    obtain rfl := Option.some.inj hc'
    have hkind : kind = .data ∨ kind = .stp := hd.imp And.left And.left
    refine .next ha (tracked (by rcases hkind with rfl | rfl <;> rfl)) hc he rfl fun _ => .inl ?_
    rw [phase_of_entry hc]
    exact hd.elim And.right fun hd => .inr hd.2
  | halted hc _ he => exact control rfl (by simp) hc he rfl hc'
  | crossed hc _ he => exact control rfl (by simp) hc he rfl hc'
  | greeted => exact syn rfl rfl hc'
  | repeated => exact syn rfl rfl hc'
  | finished hc _ he => exact control rfl (by simp) hc he rfl (entry_swept hc')
  | finishedAgain hc _ he => exact control rfl (by simp) hc he rfl (entry_swept hc')
  | misplaced => exact expects_of_swept rfl hc'

theorem Step.expects (h : Step cfg k op r e e') (hd : ∀ ticket, r ≠ .dialled (.ok ticket))
    {c' : Connection} (hc' : e'.entry = some c') : Expects k op e e' c' := by
  cases h with
  | heard ha hk hp hh => exact hh.expects ⟨ha, hp⟩ hk hc'
  | dialled => exact absurd rfl (hd _)
  | forgot | expired => cases hc'
  | accepted hc hp => exact expects_of_enter hc (by simp [hp]) rfl hc'
  | read hc =>
    have hc' := entry_swept hc'
    obtain rfl := Option.some.inj hc'
    exact .same hc rfl fun hp => (phase_swept _).trans ((phase_of_entry hc).symm.trans hp)
  | readRefused | writeRefused | closedIdle | tickedIdle => exact expects_of_swept rfl hc'
  | wrote => exact expects_of_entry (pushData_eq _ _).1 hc'
  | closedDrained hc hp => exact expects_of_enter hc (by simp [hp]) rfl hc'
  | closedBusy hc hp => exact expects_of_enter hc (by simp [hp]) rfl hc'
  | closedStopped hc hp => exact expects_of_enter hc (by simp [hp]) rfl hc'
  | tickedClosing hc hp =>
    obtain rfl := Option.some.inj hc'
    exact .same hc rfl fun h => by rw [phase_of_entry hc, hp] at h; cases h
  | _ => exact expects_of_entry rfl hc'

theorem Step.dialled_open (h : Step cfg k op r e e') (hp : e.phase ≠ .closed)
    (hp' : e'.phase ≠ .closed) : (∀ ticket, r ≠ .dialled (.ok ticket)) ∨ e' = e := by
  by_cases hd : ∀ ticket, r ≠ .dialled (.ok ticket)
  · exact .inl hd
  · obtain ⟨ticket, hr⟩ := Classical.not_forall.1 hd
    obtain rfl := Classical.not_not.1 hr
    cases h with
    | apart => exact .inr rfl
    | dialled hn => exact absurd (by rw [phase, hn]; rfl) hp
    | forgot => exact absurd rfl hp'

end Side

structure Link.Greets (v : Link) : Prop where
  held : ∀ x, v.near.held x → x.kind? = some .syn → x.seq = 0
  out : ∀ x, v.out x → x.kind? = some .syn → x.seq = 0
  waiting : ∀ x ∈ v.far.waiting, x.seq = 0

structure Sole (log : List Segment) (v : Link) : Prop where
  held : ∀ x, v.near.held x → x ∈ log
  out : ∀ x, v.out x → x.isReply = false → x.kind? = some .syn ∨ x ∈ log

def Settled (log got : List Segment) (seq : SequenceNumber) : Prop :=
  seq.toNat < log.length ∧ ∀ s ∈ log, s.seq = seq → s.kind? = some .data → s ∈ got

structure Link.Unheard (log : List Segment) (v : Link) : Prop where
  near : v.near.phase = .synSent
  far : v.far.phase = .closed
  replies : v.far.replies = []
  back : ∀ x, v.back x → x.isReply = false
  syn : ∀ s ∈ log, s.kind? = some .syn

/-- A connection that is dialled when another one under its name is over. `log` is what the near end
has queued since, `got` what the far end has appended since. -/
structure Renewed (k : SocketPair) (log got : List Segment) (v : Link) : Prop where
  isLog : Log k log
  head : ∃ rest, log = .control k .syn :: rest
  holds : v.near.win.Holds log UInt32.size
  sole : Sole log v
  greets : v.Greets
  far : v.far.phase = .closed ∨ v.far.phase = .synReceived ∨ v.far.phase.keeps
  replies : ∀ x ∈ v.far.replies, Settled log got x.seq
  back : ∀ x, v.back x → x.isReply = true → Settled log got x.seq
  past : ∀ c, v.far.entry = some c → ∀ s ∈ log, s.kind? = some .data → s.seq < c.expected → s ∈ got
  -- The far end may still hold the entry of the old connection, with any number.
  stage : v.Unheard log ∨ ∀ c, v.far.entry = some c → c.expected.toNat ≤ log.length

theorem Segment.isReply_of_syn {s : Segment} (h : s.kind? = some .syn) : s.isReply = false := by
  simp [isReply, h, Kind.isReply]

namespace Link.Greets

variable {k : SocketPair} {v v' : Link} {ev : Link.Event}

theorem step (h : v.Greets) (hs : v.near.Sound) (hst : Link.Step k ev v v') : v'.Greets := by
  cases hst with
  | near hside hsame _ hout =>
    refine ⟨fun x hx hk => hside.syn_seq hs h.held hx hk, fun x hx hk => ?_, hsame ▸ h.waiting⟩
    rcases hout x hx with hx | hx
    · exact h.out x hx hk
    · exact h.held x (hs.held_of_sending hx (Segment.isReply_of_syn hk)) hk
  | far hside hsame harr hout =>
    refine ⟨hsame ▸ h.held, fun x hx => h.out x (hout x hx), fun x hx => ?_⟩
    rcases hside.waiting hx with hx | ⟨hx, hk⟩
    · exact h.waiting x hx
    · exact h.out x (harr x hx.1 hx.2) hk
  | none hsame hsame' hout =>
    exact ⟨hsame ▸ h.held, fun x hx => h.out x (hout x hx), hsame' ▸ h.waiting⟩

theorem blank (hv : v.Blank) : v.Greets := by
  refine ⟨fun x hx => ?_, fun x hx => absurd hx (hv.out x), by simp [hv.far]⟩
  rw [hv.near] at hx
  rcases hx with (hx | ⟨i, hx⟩) | hx <;> cases hx

end Link.Greets

namespace Sole

variable {k : SocketPair} {log : List Segment} {v v' : Link} {op : Station.Op} {r : Station.Reply}

theorem near_step (h : Sole log v) (hs : v.near.Sound) (hst : Link.Step k (.near op r) v v')
    (ho : v.near.phase ≠ .closed) (ho' : v'.near.phase ≠ .closed) :
    Sole (log ++ v.near.queuedSince v'.near) v' := by
  cases hst with
  | near hside _ _ hout =>
    refine ⟨fun x hx => ?_, fun x hx hr => ?_⟩
    · rcases hside.dialled_open ho ho' with hd | he
      · exact List.mem_append.2 ((hside.held hs hd hx).imp (h.held x) id)
      · rw [he] at hx
        exact List.mem_append_left _ (h.held x hx)
    · rcases hout x hx with hx | hx
      · exact (h.out x hx hr).imp id (List.mem_append_left _)
      · exact .inr (List.mem_append_left _ (h.held x (hs.held_of_sending hx hr)))

theorem other_step {ev : Link.Event} (h : Sole log v) (hst : Link.Step k ev v v')
    (hev : ∀ op r, ev ≠ .near op r) : Sole log v' := by
  cases hst with
  | near => exact absurd rfl (hev _ _)
  | far _ hsame _ hout => exact ⟨hsame ▸ h.held, fun x hx => h.out x (hout x hx)⟩
  | none hsame _ hout => exact ⟨hsame ▸ h.held, fun x hx => h.out x (hout x hx)⟩

theorem step {ev : Link.Event} (h : Sole log v) (hs : v.near.Sound) (hst : Link.Step k ev v v')
    (ho : v.near.phase ≠ .closed) (ho' : v'.near.phase ≠ .closed) :
    Sole (log ++ v.near.queuedSince v'.near) v' := by
  cases ev with
  | near op r => exact h.near_step hs hst ho ho'
  | far op r =>
    have hv := h.other_step hst (by simp)
    cases hst with
    | far _ hsame =>
      rw [hsame, queuedSince_self, List.append_nil]
      exact hv
  | none =>
    have hv := h.other_step hst (by simp)
    cases hst with
    | none hsame =>
      rw [hsame, queuedSince_self, List.append_nil]
      exact hv

end Sole

namespace Settled

variable {log got : List Segment} {seq : SequenceNumber}

theorem queue {k : SocketPair} {new : List Segment} (h : Settled log got seq)
    (hl : Log k (log ++ new)) : Settled (log ++ new) got seq := by
  obtain ⟨hlt, hall⟩ := h
  refine ⟨by rw [List.length_append]; omega, fun s hs he hk => ?_⟩
  have hs' := hl.getElem? hs
  rw [he, List.getElem?_append_left hlt] at hs'
  exact hall s (List.mem_of_getElem? hs') he hk

theorem append (h : Settled log got seq) (more : List Segment) : Settled log (got ++ more) seq :=
  ⟨h.1, fun s hs he hk => List.mem_append_left _ (h.2 s hs he hk)⟩

end Settled

namespace Link.Unheard

variable {k : SocketPair} {log : List Segment} {v v' : Link} {op : Station.Op} {r : Station.Reply}

theorem near_step (h : v.Unheard log) (hst : Link.Step k (.near op r) v v')
    (hd : ∀ ticket, r ≠ .dialled (.ok ticket)) (ho : v'.near.phase ≠ .closed) :
    v'.Unheard log := by
  cases hst with
  | near hside hfar harr _ hback =>
    have hmoves := hside.moves hd
    rw [h.near] at hmoves
    refine ⟨?_, hfar ▸ h.far, hfar ▸ h.replies, fun x hx => h.back x (hback x hx), h.syn⟩
    rcases hmoves.from_synSent with hp | hp | ⟨-, x, hx, hk⟩
    · exact hp
    · exact absurd hp ho
    · have hr := h.back x (harr x hx.1 hx.2)
      simp [Segment.isReply, hk, Kind.isReply] at hr

theorem far_step (h : v.Unheard log) (hs : v.far.Sound) (hst : Link.Step k (.far op r) v v')
    (harr : ∀ x, Arrives k.swap op x → x.isReply = false →
      x.kind? = some .syn ∧ x.seq = 0 ∨ x ∈ log) (hp : v'.far.phase = .closed) :
    v'.Unheard log := by
  cases hst with
  | far hside hnear _ _ hback =>
    refine ⟨hnear ▸ h.near, hp, ?_, fun x hx => ?_, h.syn⟩
    · refine List.eq_nil_iff_forall_not_mem.2 fun y hy => ?_
      cases hside.answers hy with
      | before hy =>
        rw [h.replies] at hy
        cases hy
      | accepted _ hp =>
        rw [h.far] at hp
        cases hp
      | @arrived x hx hr _ hp => exact hp ((harr x hx hr).elim And.left (h.syn x)) h.far
    · rcases hback x hx with hx | hx | hx | hx
      · exact h.back x hx
      · rw [h.replies] at hx
        cases hx
      · exact hs.resends x hx
      · exact hs.pending x hx

end Link.Unheard

namespace Renewed

variable {k : SocketPair} {log got : List Segment} {v v' : Link} {op : Station.Op}
  {r : Station.Reply}

theorem not_data_zero (h : Renewed k log got v) {s : Segment} (hs : s ∈ log) (he : s.seq = 0) :
    s.kind? ≠ some .data := by
  obtain ⟨rest, hrest⟩ := h.head
  have hs' := h.isLog.getElem? hs
  rw [he, hrest] at hs'
  rw [← Option.some.inj hs']
  simp

theorem settled_zero (h : Renewed k log got v) : Settled log got 0 := by
  refine ⟨?_, fun s hs he hk => absurd hk (h.not_data_zero hs he)⟩
  obtain ⟨rest, hrest⟩ := h.head
  rw [hrest]
  exact Nat.succ_pos _

theorem not_discards (h : Renewed k log got v) : ¬v.far.phase.discards := by
  rcases h.far with hp | hp | hp | hp <;> simp [hp, Phase.discards]

theorem past_queued {new : List Segment} (h : Renewed k log got v) (hlog : Log k (log ++ new))
    (hnew : v.Unheard log → new = []) {c : Connection} (hc : v.far.entry = some c) {s : Segment}
    (hs : s ∈ log ++ new) (hk : s.kind? = some .data) (hlt : s.seq < c.expected) : s ∈ got := by
  rcases List.mem_append.1 hs with hs | hs
  · exact h.past c hc s hs hk hlt
  · rcases h.stage with hu | hb
    · rw [hnew hu] at hs
      cases hs
    · obtain ⟨i, hi⟩ := List.mem_iff_getElem?.1 hs
      have hseq := hlog.numbered (log.length + i) s (by
        rw [List.getElem?_append_right (Nat.le_add_right _ _), Nat.add_sub_cancel_left]
        exact hi)
      have := hb c hc
      have := UInt32.lt_iff_toNat_lt.1 hlt
      omega

theorem near_step (h : Renewed k log got v) (hs : v.near.Sound)
    (hst : Link.Step k (.near op r) v v') (ho : v.near.phase ≠ .closed)
    (ho' : v'.near.phase ≠ .closed)
    (hlen : (log ++ v.near.queuedSince v'.near).length < UInt32.size) :
    Renewed k (log ++ v.near.queuedSince v'.near) got v' := by
  have hsole := h.sole.near_step hs hst ho ho'
  have hgreets := h.greets.step hs hst
  have hunheard (hu : v.Unheard log) := hu.near_step hst
  cases hst with
  | near hside hfar _ _ hback =>
    rcases hside.dialled_open ho ho' with hd | he
    · have hsends := hside.sends hd
      obtain ⟨hlog, hholds⟩ := hsends.holds h.isLog h.holds (fun s hs => h.sole.held s (.inr hs))
        (fun x _ _ => x.seq.toNat_lt) hlen
      have hnew : v.Unheard log → v.near.queuedSince v'.near = [] :=
        fun hu => hsends.queues.eq_nil (by simp [hu.near])
      generalize v.near.queuedSince v'.near = new at *
      obtain ⟨rest, hrest⟩ := h.head
      refine ⟨hlog, ⟨rest ++ new, by rw [hrest]; rfl⟩, (hholds ho').1, hsole, hgreets, hfar ▸ h.far,
        fun x hx => (h.replies x (hfar ▸ hx)).queue hlog,
        fun x hx hr => (h.back x (hback x hx) hr).queue hlog,
        fun c hc s hs hk hlt => h.past_queued hlog hnew (hfar ▸ hc) hs hk hlt, ?_⟩
      rcases h.stage with hu | hb
      · rw [hnew hu, List.append_nil]
        exact .inl (hunheard hu hd ho')
      · refine .inr fun c hc => ?_
        rw [List.length_append]
        exact Nat.le_trans (hb c (hfar ▸ hc)) (Nat.le_add_right _ _)
    · have hq : v.near.queuedSince v'.near = [] := by
        rw [he]
        exact queuedSince_of_eq rfl
      rw [hq, List.append_nil] at hsole ⊢
      refine ⟨h.isLog, h.head, he ▸ h.holds, hsole, hgreets, hfar ▸ h.far, hfar ▸ h.replies,
        fun x hx => h.back x (hback x hx), hfar ▸ h.past, ?_⟩
      exact h.stage.imp (fun hu => ⟨he ▸ hu.near, hfar ▸ hu.far, hfar ▸ hu.replies,
        fun x hx => hu.back x (hback x hx), hu.syn⟩) (hfar ▸ ·)

/-! ### At the far end -/

theorem heard (h : Renewed k log got v) (hst : Link.Step k (.far op r) v v') {x : Segment}
    (hx : Arrives k.swap op x) (hr : x.isReply = false) :
    x.kind? = some .syn ∧ x.seq = 0 ∨ x ∈ log := by
  cases hst with
  | far _ _ harr =>
    have hout := harr x hx.1 hx.2
    exact (h.sole.out x hout hr).imp (fun hk => ⟨hk, h.greets.out x hout hk⟩) id

theorem heard_lt (h : Renewed k log got v) (hst : Link.Step k (.far op r) v v') {x : Segment}
    (hx : Arrives k.swap op x) (hr : x.isReply = false) : x.seq.toNat < log.length := by
  rcases h.heard hst hx hr with ⟨-, hz⟩ | hl
  · rw [hz]
    exact h.settled_zero.1
  · exact h.isLog.seq_lt hl

theorem heard_succ (h : Renewed k log got v) (hst : Link.Step k (.far op r) v v')
    (hlen : log.length < UInt32.size) {x : Segment} (hx : Arrives k.swap op x)
    (hr : x.isReply = false) : (x.seq + 1).toNat = x.seq.toNat + 1 := by
  have hlt := h.heard_lt hst hx hr
  rw [UInt32.toNat_add]
  exact Nat.mod_eq_of_lt (by show x.seq.toNat + 1 < UInt32.size; omega)

theorem answered (h : Renewed k log got v) (hst : Link.Step k (.far op r) v v') {y : Segment}
    (hy : y ∈ v'.far.replies) : Settled log (got ++ v.far.appendedSince v'.far) y.seq := by
  have hheard {x : Segment} := h.heard hst (x := x)
  cases hst with
  | far hside =>
    cases hside.answers hy with
    | before hy => exact (h.replies y hy).append _
    | accepted hx _ he =>
      rw [he, h.greets.waiting _ hx]
      exact h.settled_zero.append _
    | @arrived x hx hr he _ hdata =>
      rw [he]
      rcases hheard hx hr with ⟨-, hz⟩ | hxl
      · rw [hz]
        exact h.settled_zero.append _
      · refine ⟨h.isLog.seq_lt hxl, fun s hsl hse hk => ?_⟩
        obtain rfl := h.isLog.eq_of_seq hsl hxl hse
        rcases hdata hk with hp | hp | ⟨c, hc, hlt⟩
        · exact absurd hp h.not_discards
        · exact List.mem_append_right _ hp
        · exact List.mem_append_left _ (h.past c hc s hsl hk hlt)

theorem past_step (h : Renewed k log got v) (hst : Link.Step k (.far op r) v v')
    (hd : ∀ ticket, r ≠ .dialled (.ok ticket)) (hlen : log.length < UInt32.size) {c' : Connection}
    (hc' : v'.far.entry = some c') {s : Segment} (hsl : s ∈ log) (hk : s.kind? = some .data)
    (hlt : s.seq < c'.expected) : s ∈ got ++ v.far.appendedSince v'.far := by
  have hheard {x : Segment} := h.heard hst (x := x)
  have hsucc {x : Segment} := h.heard_succ hst hlen (x := x)
  have hlt' := UInt32.lt_iff_toNat_lt.1 hlt
  -- Nothing but the SYN comes before the segment that follows it.
  have first {x : Segment} (hx : Arrives k.swap op x) (hr : x.isReply = false) (hz : x.seq = 0)
      (he : c'.expected = x.seq + 1) : s ∈ got ++ v.far.appendedSince v'.far := by
    rw [he, hsucc hx hr, hz] at hlt'
    have hs : s.seq = 0 := UInt32.toNat_inj.1 (Nat.lt_one_iff.1 hlt')
    exact absurd hk (h.not_data_zero hsl hs)
  cases hst with
  | far hside _ harr =>
    cases hside.expects hd hc' with
    | @same c hc he _ =>
      rw [he] at hlt
      exact List.mem_append_left _ (h.past c hc s hsl hk hlt)
    | @started x hx hkx he =>
      exact first hx (Segment.isReply_of_syn hkx) (h.greets.out x (harr x hx.1 hx.2) hkx) he
    | @next x c hx hr hc hseq he hdata =>
      rcases hheard hx hr with ⟨-, hz⟩ | hxl
      · exact first hx hr hz he
      by_cases heq : s.seq = x.seq
      · obtain rfl := h.isLog.eq_of_seq hsl hxl heq
        exact List.mem_append_right _ ((hdata hk).resolve_left h.not_discards)
      · have hne : s.seq.toNat ≠ x.seq.toNat := fun h => heq (UInt32.toNat_inj.1 h)
        rw [he, hsucc hx hr] at hlt'
        refine List.mem_append_left _ (h.past c hc s hsl hk (UInt32.lt_iff_toNat_lt.2 ?_))
        rw [← hseq]
        omega

theorem expected_step (h : Renewed k log got v) (hst : Link.Step k (.far op r) v v')
    (hd : ∀ ticket, r ≠ .dialled (.ok ticket)) (hlen : log.length < UInt32.size) {c' : Connection}
    (hc' : v'.far.entry = some c') :
    (∃ c, v.far.entry = some c ∧ c'.expected = c.expected ∧
      (v.far.phase = .closed → v'.far.phase = .closed)) ∨ c'.expected.toNat ≤ log.length := by
  have hnext {x : Segment} (hx : Arrives k.swap op x) (hr : x.isReply = false)
      (he : c'.expected = x.seq + 1) : c'.expected.toNat ≤ log.length := by
    rw [he, h.heard_succ hst hlen hx hr]
    exact h.heard_lt hst hx hr
  cases hst with
  | far hside =>
    cases hside.expects hd hc' with
    | same hc he hp => exact .inl ⟨_, hc, he, hp⟩
    | started hx hkx he => exact .inr (hnext hx (Segment.isReply_of_syn hkx) he)
    | next hx hr _ _ he => exact .inr (hnext hx hr he)

theorem far_step (h : Renewed k log got v) (hn : v.near.Sound) (hs : v.far.Sound)
    (hst : Link.Step k (.far op r) v v') (hd : ∀ ticket, r ≠ .dialled (.ok ticket))
    (hclose : op ≠ .call (.close k.swap)) (hlen : log.length < UInt32.size) :
    Renewed k log (got ++ v.far.appendedSince v'.far) v' := by
  have hsole := h.sole.other_step hst (by simp)
  have hgreets := h.greets.step hn hst
  have hstage : v'.Unheard log ∨ ∀ c, v'.far.entry = some c → c.expected.toNat ≤ log.length := by
    rcases h.stage with hu | hb
    · by_cases hp : v'.far.phase = .closed
      · exact .inl (hu.far_step hs hst (fun x => h.heard hst) hp)
      · refine .inr fun c' hc' => ?_
        rcases h.expected_step hst hd hlen hc' with ⟨c, -, -, hpp⟩ | hle
        · exact absurd (hpp hu.far) hp
        · exact hle
    · refine .inr fun c' hc' => ?_
      rcases h.expected_step hst hd hlen hc' with ⟨c, hc, he, -⟩ | hle
      · rw [he]
        exact hb c hc
      · exact hle
  have hanswered {y : Segment} := h.answered hst (y := y)
  have hpast {c' : Connection} (hc' : v'.far.entry = some c') {s : Segment} :=
    h.past_step hst hd hlen hc' (s := s)
  cases hst with
  | far hside hnear _ _ hback =>
    refine ⟨h.isLog, h.head, hnear ▸ h.holds, hsole, hgreets,
      (hside.moves hd).listening h.far hclose, fun y hy => hanswered hy, fun x hx hr => ?_,
      fun c' hc' s hsl hk hlt => hpast hc' hsl hk hlt, hstage⟩
    rcases hback x hx with hx | hx | hx | hx
    · exact (h.back x hx hr).append _
    · exact (h.replies x hx).append _
    · rw [hs.resends x hx] at hr
      cases hr
    · rw [hs.pending x hx] at hr
      cases hr

theorem none_step (h : Renewed k log got v) (hs : v.near.Sound) (hst : Link.Step k .none v v') :
    Renewed k log got v' := by
  have hsole := h.sole.other_step hst (by simp)
  have hgreets := h.greets.step hs hst
  cases hst with
  | none hnear hfar hout hback =>
    refine ⟨h.isLog, h.head, hnear ▸ h.holds, hsole, hgreets, hfar ▸ h.far, hfar ▸ h.replies,
      fun x hx => h.back x (hback x hx), hfar ▸ h.past, ?_⟩
    exact h.stage.imp (fun hu => ⟨hnear ▸ hu.near, hfar ▸ hu.far, hfar ▸ hu.replies,
      fun x hx => hu.back x (hback x hx), hu.syn⟩) (hfar ▸ ·)

end Renewed

def Link.Cleared (v : Link) : Prop := ∀ x, v.out x → x.isReply = false → x.kind? = some .syn

/-- The far end has closed or expects the first segments, and no reply to the near end is left. -/
structure Link.Reset (v : Link) : Prop where
  far : v.far.phase = .closed ∨ v.far.conn.expected ≤ 1
  replies : v.far.replies = []
  back : ∀ x, v.back x → x.isReply = false

section Dialled

variable {k : SocketPair} {v v' : Link} {farHost : HostId} {farPort : Port} {r : Station.Reply}

theorem Side.Step.dials {cfg : Settings} {e e' : Side}
    (h : Step cfg k (.call (.connect farHost farPort)) r e e') (hs : e.Sound)
    (hp : e.phase = .closed) (hp' : e'.phase = .synSent) :
    e'.win = Window.push {} (.control k .syn) ∧ e'.resends = [] ∧
      e.queuedSince e' = [.control k .syn] := by
  obtain ⟨hw, hr⟩ := hs.shut (.inl hp)
  rcases h.connect with he | ⟨-, -, ticket, -, he⟩
  · rw [he, hp] at hp'
    cases hp'
  · have hwin : e'.win = Window.push {} (.control k .syn) := by
      rw [he, win_push, win_enter, win, hw]
      rfl
    refine ⟨hwin, by rw [he]; exact hr, ?_⟩
    rw [queuedSince, hwin, win, hw]
    rfl

theorem Sole.dialled (hst : Link.Step k (.near (.call (.connect farHost farPort)) r) v v')
    (hc : v.Cleared) (hs : v.near.Sound) (hp : v.near.phase = .closed)
    (hp' : v'.near.phase = .synSent) : Sole (v.near.queuedSince v'.near) v' := by
  obtain ⟨hw, hr⟩ := hs.shut (.inl hp)
  cases hst with
  | near hside _ _ hout =>
    obtain ⟨hwin, hres, hq⟩ := hside.dials hs hp hp'
    refine ⟨fun x hx => ?_, fun x hx hxr => .inl ?_⟩
    · rw [hq]
      rcases hx with (hx | ⟨i, hx⟩) | hx
      · rw [hwin] at hx
        exact hx
      · rw [hwin] at hx
        cases hx
      · rw [hres] at hx
        cases hx
    · rcases hout x hx with hx | hx | hx | hx
      · exact hc x hx hxr
      · rw [hs.replies x hx] at hxr
        cases hxr
      · rw [hr] at hx
        cases hx
      · rw [win, hw] at hx
        cases hx

theorem Renewed.dialled (hst : Link.Step k (.near (.call (.connect farHost farPort)) r) v v')
    (hc : v.Cleared) (hb : v.Reset) (hs : v.near.Sound) (hg : v.Greets)
    (hf : v.far.phase = .closed ∨ v.far.phase = .synReceived ∨ v.far.phase.keeps)
    (hp : v.near.phase = .closed) (hp' : v'.near.phase = .synSent) :
    Renewed k (v.near.queuedSince v'.near) [] v' := by
  have hsole := Sole.dialled hst hc hs hp hp'
  have hgreets := hg.step hs hst
  have hlog : Log k ([] ++ [{ Segment.control k .syn with seq := 0 }]) :=
    (Log.nil k).push rfl rfl rfl (fun _ => rfl) fun _ => rfl
  cases hst with
  | near hside hfar _ _ hback =>
    obtain ⟨hwin, -, hq⟩ := hside.dials hs hp hp'
    rw [hq] at hsole ⊢
    refine ⟨hlog, ⟨[], rfl⟩, ?_, hsole, hgreets, hfar ▸ hf, ?_, fun x hx hxr => ?_,
      fun c _ s hs hk => ?_, ?_⟩
    · rw [hwin]
      exact (Window.Holds.blank _).push (by decide) (.control k .syn)
    · rw [hfar, hb.replies]
      exact fun x hx => absurd hx List.not_mem_nil
    · rw [hb.back x (hback x hx)] at hxr
      cases hxr
    · rw [List.mem_singleton.1 hs] at hk
      cases hk
    · rcases hb.far with hcl | hle
      · refine .inl ⟨hp', hfar ▸ hcl, hfar ▸ hb.replies, fun x hx => hb.back x (hback x hx), ?_⟩
        intro s hs
        rw [List.mem_singleton.1 hs]
        rfl
      · refine .inr fun c hcon => ?_
        rw [hfar] at hcon
        rw [conn_of_entry hcon] at hle
        exact UInt32.le_iff_toNat_le.1 hle

end Dialled

namespace Network

variable {n : Network} {i j : Nat} {k : SocketPair} {op : Op} {ops : List Op}
  {log got : List Segment}

theorem Joins.greets_run (h : n.Joins i j k) (hg : (n.link i j k).Greets) (ops : List Op) :
    ((n.run ops).link i j k).Greets := by
  induction ops generalizing n with
  | nil => exact hg
  | cons op rest ih =>
    obtain ⟨ev, -, hst⟩ := h.link_step op
    exact ih (h.step op) (hg.step (h.tidy.side_sound i k) hst)

def Op.Serves (j : Nat) (k : SocketPair) (op : Op) : Prop :=
  op ≠ .call j (.close k) ∧ ∀ farHost farPort, op ≠ .call j (.connect farHost farPort)

theorem Op.Serves.far {o : Station.Op} {r : Station.Reply} (h : op.Serves j k)
    (hev : n.EventOf op i j (.far o r)) :
    (∀ ticket, r ≠ .dialled (.ok ticket)) ∧ o ≠ .call (.close k) := by
  cases hev with
  | far ha =>
    refine ⟨ha.not_dialled h.2, ?_⟩
    rintro rfl
    cases ha
    exact h.1 rfl

theorem Joins.listening_run (h : n.Joins i j k) (hf : (n.side j k.swap).phase = .closed ∨
      (n.side j k.swap).phase = .synReceived ∨ (n.side j k.swap).phase.keeps)
    (hops : ∀ op ∈ ops, op.Serves j k.swap) : ((n.run ops).side j k.swap).phase = .closed ∨
      ((n.run ops).side j k.swap).phase = .synReceived ∨
        ((n.run ops).side j k.swap).phase.keeps := by
  induction ops generalizing n with
  | nil => exact hf
  | cons op rest ih =>
    obtain ⟨hop, hrest⟩ := List.forall_mem_cons.1 hops
    refine ih (h.step op) ?_ hrest
    rcases h.far_acts op with hsame | ⟨o, r, hev, hst⟩
    · rw [hsame]
      exact hf
    · obtain ⟨hd, hclose⟩ := hop.far hev
      cases hst with
      | far hside => exact (hside.moves hd).listening hf hclose

theorem Joins.appended_step (h : n.Joins i j k) (hv : Sole log (n.link i j k)) :
    ∀ s ∈ (n.side j k.swap).appendedSince ((n.step op).1.side j k.swap), s ∈ log := by
  intro s hs
  rcases h.far_acts op with hsame | ⟨o, r, -, hst⟩
  · rw [hsame, appendedSince_self] at hs
    cases hs
  · cases hst with
    | far hside _ harr =>
      obtain ⟨hx, hk⟩ := hside.appended hs
      have hr : s.isReply = false := by simp [Segment.isReply, hk, Kind.isReply]
      refine (hv.out s (harr s hx.1 hx.2) hr).resolve_left fun hsyn => ?_
      rw [hk] at hsyn
      cases hsyn

theorem Joins.appended_mem (h : n.Joins i j k) (hv : Sole log (n.link i j k))
    (ho : (n.side i k).phase ≠ .closed) (hlast : n.lasts i k ops) :
    ∀ s ∈ n.appended j k.swap ops, s ∈ log ++ n.queued i k ops := by
  induction ops generalizing n log with
  | nil => exact fun s hs => absurd hs List.not_mem_nil
  | cons op rest ih =>
    have ho' := hlast.1 ho
    have hsound := h.tidy.side_sound i k
    obtain ⟨ev, -, hst⟩ := h.link_step op
    intro s hs
    rw [appended_cons] at hs
    rw [queued_cons, ← List.append_assoc]
    rcases List.mem_append.1 hs with hs | hs
    · exact List.mem_append_left _ (List.mem_append_left _ (h.appended_step hv s hs))
    · exact ih (h.step op) (hv.step hsound hst ho ho') ho' hlast.2 s hs

theorem Joins.renewed_run (h : n.Joins i j k) (hv : Renewed k log got (n.link i j k))
    (ho : (n.side i k).phase ≠ .closed) (hlast : n.lasts i k ops)
    (hops : ∀ op ∈ ops, op.Serves j k.swap) (hlen : (log ++ n.queued i k ops).length < UInt32.size) :
    Renewed k (log ++ n.queued i k ops) (got ++ n.appended j k.swap ops)
      ((n.run ops).link i j k) := by
  induction ops generalizing n log got with
  | nil =>
    rw [show n.queued i k [] = [] from rfl, show n.appended j k.swap [] = [] from rfl,
      List.append_nil, List.append_nil]
    exact hv
  | cons op rest ih =>
    obtain ⟨hop, hrest⟩ := List.forall_mem_cons.1 hops
    have ho' := hlast.1 ho
    have hsound := h.tidy.side_sound i k
    obtain ⟨ev, hev, hst⟩ := h.link_step op
    rw [queued_cons, ← List.append_assoc] at hlen ⊢
    rw [appended_cons, ← List.append_assoc]
    have hnow : (log ++ (n.side i k).queuedSince ((n.step op).1.side i k)).length < UInt32.size := by
      rw [List.length_append] at hlen
      omega
    refine ih (h.step op) ?_ ho' hlast.2 hrest hlen
    cases ev with
    | near o r =>
      have hv' := hv.near_step hsound hst ho ho' hnow
      cases hst with
      | near _ hsame =>
        rw [show (n.step op).1.side j k.swap = n.side j k.swap from hsame, appendedSince_self,
          List.append_nil]
        exact hv'
    | far o r =>
      obtain ⟨hd, hclose⟩ := hop.far hev
      have hv' := hv.far_step hsound (h.tidy.side_sound j k.swap) hst hd hclose (by
        rw [List.length_append] at hnow
        omega)
      cases hst with
      | far _ hsame =>
        rw [show (n.step op).1.side i k = n.side i k from hsame,
          queuedSince_self, List.append_nil]
        exact hv'
    | none =>
      have hv' := hv.none_step hsound hst
      cases hst with
      | none hsame hsame' =>
        rw [show (n.step op).1.side i k = n.side i k from hsame,
          show (n.step op).1.side j k.swap = n.side j k.swap from hsame',
          queuedSince_self, appendedSince_self, List.append_nil,
          List.append_nil]
        exact hv'

def Acknowledges (n : Network) (op : Op) (i : Nat) (k : SocketPair) (seq : SequenceNumber) : Prop :=
  ∃ o x, n.Acts op i o ∧ Arrives k o x ∧ x.isReply = true ∧ x.seq = seq

/-- In a run, the far end appends nothing but what the near end has queued in this run. -/
def AppendsOwn (n : Network) (i j : Nat) (k : SocketPair) (ops : List Op) : Prop :=
  ∀ s ∈ n.appended j k.swap ops, s ∈ n.queued i k ops

/-- In a run, no data that are unacknowledged at the near end are acknowledged before the far end has
appended them. -/
def AcksAppended (n : Network) (i j : Nat) (k : SocketPair) (ops : List Op) : Prop :=
  ∀ before op after seq s, ops = before ++ op :: after →
    (n.queued i k before).length < UInt32.size → (n.run before).Acknowledges op i k seq →
    ((n.run before).side i k).win.unacked.get? seq = some s → s.kind? = some .data →
    s ∈ n.appended j k.swap before

/-- A call of `connect` obtains the connection, and it lasts in the run that follows. -/
structure Redials (n : Network) (i : Nat) (k : SocketPair) (op : Op) (after : List Op) : Prop where
  closed : (n.side i k).phase = .closed
  dialled : ((n.step op).1.side i k).phase = .synSent
  lasts : (n.step op).1.lasts i k after

theorem Joins.redial_step {farHost : HostId} {farPort : Port} {after : List Op} (h : n.Joins i j k)
    (hr : n.Redials i k (.call i (.connect farHost farPort)) after) :
    ∃ r, Link.Step k (.near (.call (.connect farHost farPort)) r) (n.link i j k)
      ((n.step (.call i (.connect farHost farPort))).1.link i j k) := by
  have unmoved (hs : (n.step (.call i (.connect farHost farPort))).1.side i k = n.side i k) :
      False := by
    have := hr.dialled
    rw [hs, hr.closed] at this
    cases this
  rcases h.near_acts (.call i (.connect farHost farPort)) with hsame | ⟨o, r, hev, hst⟩
  · exact (unmoved hsame).elim
  · cases hev with
    | near ha =>
      cases ha
      exact ⟨_, hst⟩

theorem Joins.appended_redial {farHost : HostId} {farPort : Port} {after : List Op}
    (h : n.Joins i j k) (hr : n.Redials i k (.call i (.connect farHost farPort)) after)
    (l : List Op) : n.appended j k.swap (.call i (.connect farHost farPort) :: l) =
      (n.step (.call i (.connect farHost farPort))).1.appended j k.swap l := by
  obtain ⟨r, hst⟩ := h.redial_step hr
  cases hst with
  | near _ hsame =>
    rw [appended_cons, show (n.step (.call i (.connect farHost farPort))).1.side j k.swap =
      n.side j k.swap from hsame, appendedSince_self]
    rfl

theorem Joins.appendsOwn {farHost : HostId} {farPort : Port} {after : List Op} (h : n.Joins i j k)
    (hc : (n.link i j k).Cleared)
    (hr : n.Redials i k (.call i (.connect farHost farPort)) after) :
    n.AppendsOwn i j k (.call i (.connect farHost farPort) :: after) := by
  intro s hs
  obtain ⟨r, hst⟩ := h.redial_step hr
  have hv := Sole.dialled hst hc (h.tidy.side_sound i k) hr.closed hr.dialled
  rw [h.appended_redial hr] at hs
  rw [queued_cons]
  exact (h.step _).appended_mem hv (by rw [hr.dialled]; simp) hr.lasts s hs

theorem Joins.acksAppended {farHost : HostId} {farPort : Port} {after : List Op}
    (h : n.Joins i j k) (hc : (n.link i j k).Cleared) (hb : (n.link i j k).Reset)
    (hg : (n.link i j k).Greets)
    (hf : (n.side j k.swap).phase = .closed ∨ (n.side j k.swap).phase = .synReceived ∨
      (n.side j k.swap).phase.keeps)
    (hr : n.Redials i k (.call i (.connect farHost farPort)) after)
    (hops : ∀ x ∈ after, x.Serves j k.swap) :
    n.AcksAppended i j k (.call i (.connect farHost farPort) :: after) := by
  rintro before op rest seq s hsplit hlen ⟨o, x, ha, ⟨hx, hxk⟩, hxr, rfl⟩ hs hk
  cases before with
  | nil =>
    obtain ⟨rfl, -⟩ := List.cons.inj hsplit
    cases ha
    cases hx
  | cons first before =>
    obtain ⟨rfl, rfl⟩ := List.cons.inj hsplit
    obtain ⟨r, hst⟩ := h.redial_step hr
    have hv := Renewed.dialled hst hc hb (h.tidy.side_sound i k) hg hf hr.closed hr.dialled
    rw [queued_cons] at hlen
    have hv' := (h.step _).renewed_run hv (by rw [hr.dialled]; simp) (lasts_append.1 hr.lasts).1
      (fun y hy => hops y (List.mem_append_left _ hy)) hlen
    obtain ⟨hsl, hse⟩ := hv'.holds.unacked x.seq s hs
    rw [h.appended_redial hr]
    exact (hv'.back x ⟨(ha.arrival hx).1, hxk ▸ rfl⟩ hxr).2 s hsl hse hk

/-- A connection that is dialled under the name of an old one, by a far end that accepts and neither
dials nor closes. If no data, STP or FIN of the old one are under way, the far end appends nothing of
it. If moreover the far end has closed or expects the first segments, and has no reply under way, no
data are acknowledged before they are appended. -/
theorem reuse_unmixed {a b : HostId} (hab : a ≠ b) (ra sa pa rb sb pb : Nat) (p : Port)
    (before after : List Op) (k : SocketPair) (hnear : k.near.host = a) (hfar : k.far.host = b)
    (hserves : ∀ op ∈ before ++ after, op.Serves 1 k.swap)
    (hdial : ((pair (.fresh a ra sa pa) (.fresh b rb sb pb)).run before).Redials 0 k
      (.call 0 (.connect b p)) after)
    (hclear : (((pair (.fresh a ra sa pa) (.fresh b rb sb pb)).run before).link 0 1 k).Cleared) :
    ((pair (.fresh a ra sa pa) (.fresh b rb sb pb)).run before).AppendsOwn 0 1 k
        (.call 0 (.connect b p) :: after) ∧
      ((((pair (.fresh a ra sa pa) (.fresh b rb sb pb)).run before).link 0 1 k).Reset →
        ((pair (.fresh a ra sa pa) (.fresh b rb sb pb)).run before).AcksAppended 0 1 k
          (.call 0 (.connect b p) :: after)) := by
  have h : (pair (.fresh a ra sa pa) (.fresh b rb sb pb)).Joins 0 1 k := joins_fresh hab hnear hfar
  have hb : ((pair (.fresh a ra sa pa) (.fresh b rb sb pb)).link 0 1 k).Blank := blank_fresh k
  refine ⟨(h.run before).appendsOwn hclear hdial, fun hreset => ?_⟩
  refine (h.run before).acksAppended hclear hreset (h.greets_run (.blank hb) before) ?_ hdial
    fun op hop => hserves op (List.mem_append_right _ hop)
  exact h.listening_run (.inl rfl) fun op hop => hserves op (List.mem_append_left _ hop)

def welcomeBack : List Op :=
  [.flush 0, .deliver 0, .call 1 (.accept 7), .flush 1, .deliver 0,
    .call 0 (.write ⟨⟨2, 7⟩, ⟨1, 0⟩⟩ [110, 101, 119]), .flush 0, .deliver 0, .flush 1, .deliver 0]

theorem reuse_unmixed_welcomeBack :
    ((pair (.fresh 1 4 4 4) (.fresh 2 4 4 4)).run farewell).AppendsOwn 0 1 ⟨⟨2, 7⟩, ⟨1, 0⟩⟩
        (.call 0 (.connect 2 7) :: welcomeBack) ∧
      ((pair (.fresh 1 4 4 4) (.fresh 2 4 4 4)).run farewell).AcksAppended 0 1 ⟨⟨2, 7⟩, ⟨1, 0⟩⟩
        (.call 0 (.connect 2 7) :: welcomeBack) := by
  have hwire : ((pair (.fresh 1 4 4 4) (.fresh 2 4 4 4)).run farewell).wire = [] := by
    decide +kernel
  have hnone (x : Segment) : ¬((pair (.fresh 1 4 4 4) (.fresh 2 4 4 4)).run farewell).Carries x := by
    rintro ⟨f, hf, -⟩
    rw [hwire] at hf
    cases hf
  obtain ⟨hown, hacks⟩ := reuse_unmixed (show (1 : HostId) ≠ 2 by decide) 4 4 4 4 4 4 7 farewell
    welcomeBack ⟨⟨2, 7⟩, ⟨1, 0⟩⟩ rfl rfl (by simp [farewell, welcomeBack, Op.Serves])
    ⟨by decide +kernel, by decide +kernel, by decide +kernel⟩ fun x hx => absurd hx.1 (hnone x)
  exact ⟨hown, hacks ⟨.inl (by decide +kernel), by decide +kernel, fun x hx => absurd hx.1 (hnone x)⟩⟩

/-! ## What is left over does mix -/

def lateData : List Op :=
  [.call 0 (.connect 2 7), .flush 0, .deliver 0, .call 1 (.accept 7), .flush 1, .deliver 0,
    .call 0 (.write ⟨⟨2, 7⟩, ⟨1, 0⟩⟩ [111]), .flush 0, .tick 0, .flush 0, .deliver 0, .flush 1,
    .deliver 1, .call 1 (.read ⟨⟨1, 0⟩, ⟨2, 7⟩⟩ [0]), .call 0 (.close ⟨⟨2, 7⟩, ⟨1, 0⟩⟩), .flush 0,
    .deliver 1, .flush 1, .deliver 1]

def lateDataArrives : List Op :=
  [.flush 0, .deliver 1, .call 1 (.accept 7), .flush 1, .deliver 1, .deliver 0]

def lostFin : List Op :=
  [.call 0 (.connect 2 7), .flush 0, .deliver 0, .call 1 (.accept 7), .flush 1, .deliver 0,
    .call 0 (.write ⟨⟨2, 7⟩, ⟨1, 0⟩⟩ [111]), .flush 0, .deliver 0, .flush 1, .deliver 0,
    .call 1 (.read ⟨⟨1, 0⟩, ⟨2, 7⟩⟩ [0]), .call 0 (.close ⟨⟨2, 7⟩, ⟨1, 0⟩⟩), .flush 0, .lose 0,
    .tick 0, .tick 0]

def lostFinForgotten : List Op :=
  [.flush 0, .deliver 0, .flush 1, .deliver 0, .call 0 (.write ⟨⟨2, 7⟩, ⟨1, 0⟩⟩ [110]), .flush 0,
    .deliver 0, .flush 1, .deliver 0]

theorem leftovers_mix :
    (((pair (.fresh 1 4 4 1) (.fresh 2 4 4 1)).run lateData).Redials 0 ⟨⟨2, 7⟩, ⟨1, 0⟩⟩
        (.call 0 (.connect 2 7)) lateDataArrives ∧
      ¬((pair (.fresh 1 4 4 1) (.fresh 2 4 4 1)).run lateData).AppendsOwn 0 1 ⟨⟨2, 7⟩, ⟨1, 0⟩⟩
        (.call 0 (.connect 2 7) :: lateDataArrives)) ∧
    (((pair (.fresh 1 4 4 1) (.fresh 2 4 4 1)).run lostFin).Redials 0 ⟨⟨2, 7⟩, ⟨1, 0⟩⟩
        (.call 0 (.connect 2 7)) lostFinForgotten ∧
      ¬((pair (.fresh 1 4 4 1) (.fresh 2 4 4 1)).run lostFin).AcksAppended 0 1 ⟨⟨2, 7⟩, ⟨1, 0⟩⟩
        (.call 0 (.connect 2 7) :: lostFinForgotten)) ∧
    ∀ op ∈ lateData ++ lateDataArrives ++ (lostFin ++ lostFinForgotten),
      op.Serves 1 ⟨⟨1, 0⟩, ⟨2, 7⟩⟩ ∧ ∀ m, op ≠ .duplicate m := by
  refine ⟨⟨⟨by decide +kernel, by decide +kernel, by decide +kernel⟩, fun h => ?_⟩,
    ⟨⟨by decide +kernel, by decide +kernel, by decide +kernel⟩, fun h => ?_⟩, ?_⟩
  · have := h { dest := ⟨2, 7⟩, src := ⟨1, 0⟩, flags := {}, seq := 1, payload := [111] }
      (by decide +kernel)
    revert this
    decide +kernel
  · have := h (.call 0 (.connect 2 7) :: lostFinForgotten.take 8) (.deliver 0) [] 1
      { dest := ⟨2, 7⟩, src := ⟨1, 0⟩, flags := {}, seq := 1, payload := [110] } rfl
      (by decide +kernel)
      ⟨.receiveFrame ⟨1, 2, [0, 7, 0, 2, 0, 0, 0, 1], by decide⟩,
        { dest := ⟨1, 0⟩, src := ⟨2, 7⟩, flags := Kind.ack.flags, seq := 1 },
        .deliver (by decide +kernel) (by decide +kernel), ⟨by decide +kernel, rfl⟩, rfl, rfl⟩
      (by decide +kernel) rfl
    revert this
    decide +kernel
  · simp [lateData, lateDataArrives, lostFin, lostFinForgotten, Op.Serves]

end Network

end ReliableStream
