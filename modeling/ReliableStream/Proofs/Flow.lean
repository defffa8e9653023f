import ReliableStream.Proofs.Link
import ReliableStream.Proofs.Log

namespace ReliableStream

open Side

/-- `log` is what the near end has queued, `got` what the far end has appended to its unread
segments. -/
structure Flow (k : SocketPair) (log got : List Segment) (v : Link) : Prop where
  isLog : Log k log
  holds : v.near.phase ≠ .closed → v.near.win.Holds log v.far.taken
  resends : ∀ s ∈ v.near.resends, s ∈ log
  out : ∀ s, v.out s → s.isReply = false → s ∈ log
  last : ∀ s ∈ log, s.kind? = some .fin → s.seq.toNat + 1 = log.length ∧
    (v.near.phase = .closing ∨ v.near.phase = .closed)
  met : v.near.phase = .closed ∨ v.near.phase = .synSent ∨ v.far.phase ≠ .closed
  replies : ∀ r ∈ v.far.replies, r.seq.toNat < v.far.taken ∧ r.kind? ≠ some .finAck
  back : ∀ r, v.back r → r.isReply = true → r.seq.toNat < v.far.taken ∧ r.kind? ≠ some .finAck
  waiting : ∀ s ∈ v.far.waiting, s.seq.toNat < v.far.taken
  bound : v.far.taken ≤ log.length
  unopened : v.far.phase = .closed → v.far.entry = none ∧ ∀ s ∈ log, s.kind? = some .syn
  unfinished : ∀ s ∈ log, s.kind? = some .fin → v.far.taken ≤ s.seq.toNat
  order : ∃ m, m ≤ v.far.taken ∧ bytes got = bytes (log.take m) ∧
    (¬v.far.phase.discards → m = v.far.taken)

structure Link.Blank (v : Link) : Prop where
  near : v.near = {}
  far : v.far = {}
  out : ∀ x, ¬v.out x
  back : ∀ x, ¬v.back x

theorem Link.Blank.swap {v : Link} (h : v.Blank) : v.swap.Blank := ⟨h.far, h.near, h.back, h.out⟩

namespace Flow

variable {k : SocketPair} {log got : List Segment} {v v' : Link} {op : Station.Op}
  {r : Station.Reply}

theorem taken_eq_zero {e : Side} (h : e.entry = none) : e.taken = 0 := by
  rw [taken, conn, h]
  rfl

theorem open_of_taken (h : Flow k log got v) (ht : 0 < v.far.taken) : v.far.phase ≠ .closed := by
  intro hp
  rw [taken_eq_zero (h.unopened hp).1] at ht
  exact Nat.lt_irrefl 0 ht

theorem mem_of_sending (h : Flow k log got v) (hs : v.near.Sound) {s : Segment}
    (hx : v.near.sending s) (hr : s.isReply = false) : s ∈ log := by
  rcases hx with hx | hx | hx
  · rw [hs.replies s hx] at hr
    cases hr
  · exact h.resends s hx
  · by_cases hp : v.near.phase = .closed
    · rw [win, (hs.shut (.inl hp)).1] at hx
      cases hx
    · exact (h.holds hp).pending.subset hx

theorem queued_of_closed (hst : Sends k op r v.near v'.near) (hp : v.near.phase = .closed) :
    v.near.queuedSince v'.near = [] :=
  hst.queues.eq_nil (by simp [hp])

theorem holds_step (h : Flow k log got v) (hs : v.near.Sound)
    (hsends : Sends k op r v.near v'.near)
    (hacks : ∀ x, Arrives k op x → x.isReply → x.seq.toNat < v.far.taken)
    (hopen : v.near.phase = .closed → v'.near.phase ≠ .closed → log = [])
    (hlen : (log ++ v.near.queuedSince v'.near).length < UInt32.size) :
    Log k (log ++ v.near.queuedSince v'.near) ∧ (v'.near.phase ≠ .closed →
      v'.near.win.Holds (log ++ v.near.queuedSince v'.near) v.far.taken ∧
        ∀ s ∈ v'.near.resends, s ∈ log ++ v.near.queuedSince v'.near) := by
  by_cases hp : v.near.phase = .closed
  · by_cases hp' : v'.near.phase = .closed
    · rw [queued_of_closed hsends hp, List.append_nil]
      exact ⟨h.isLog, fun ho => absurd hp' ho⟩
    · obtain ⟨hw, hr⟩ := hs.shut (.inl hp)
      have hb : v.near.win.Holds [] v.far.taken := by
        rw [win, hw]
        exact .blank _
      obtain rfl := hopen hp hp'
      exact hsends.holds h.isLog hb (by simp [hr]) hacks hlen
  · exact hsends.holds h.isLog (h.holds hp) h.resends hacks hlen

theorem busy_of_queues {e' : Side} {new : List Segment} (h : Flow k log got v)
    (hq : Queues k op r v.near e' new) :
    new = [] ∨ v.far.phase ≠ .closed ∧ v.near.phase ≠ .closing := by
  by_cases ho : v.near.phase = .established ∨ v.near.phase = .stopReceived ∨
      v.near.phase = .stopSent
  · refine .inr ⟨?_, by rcases ho with ho | ho | ho <;> simp [ho]⟩
    rcases h.met with hm | hm | hm
    · rw [hm] at ho
      simp at ho
    · rw [hm] at ho
      simp at ho
    · exact hm
  · exact .inl (hq.eq_nil ho)

theorem last_step {new : List Segment} (h : Flow k log got v) (hlog : Log k (log ++ new))
    (hq : Queues k op r v.near v'.near new) (hmoves : Moves k op r v.near.phase v'.near.phase)
    (hopen : v.near.phase = .closed → v'.near.phase ≠ .closed → log = []) {x : Segment}
    (hx : x ∈ log ++ new) (hk : x.kind? = some .fin) : x.seq.toNat + 1 = (log ++ new).length ∧
      (v'.near.phase = .closing ∨ v'.near.phase = .closed) := by
  rcases List.mem_append.1 hx with hx | hx
  · obtain ⟨hl, hp⟩ := h.last x hx hk
    have hnew : new = [] := by
      apply hq.eq_nil
      intro ho
      rcases hp with hp | hp <;> rw [hp] at ho <;> simp at ho
    refine ⟨by rw [hnew, List.append_nil]; exact hl, ?_⟩
    rcases hp with hp | hp
    · rw [hp] at hmoves
      exact hmoves.from_closing
    · refine .inr (Classical.byContradiction fun hp' => ?_)
      rw [hopen hp hp'] at hx
      cases hx
  · cases hq with
    | nothing => cases hx
    | data _ hd => rw [hd x hx] at hk; cases hk
    | stp _ _ hs => rw [List.mem_singleton.1 hx, hs] at hk; cases hk
    | @fin y _ hp' =>
      obtain rfl := List.mem_singleton.1 hx
      have := hlog.numbered log.length x (by simp)
      exact ⟨by simp [this], .inl hp'⟩

theorem met_step (h : Flow k log got v) (hmoves : Moves k op r v.near.phase v'.near.phase)
    (hacks : ∀ x, Arrives k op x → x.isReply → x.seq.toNat < v.far.taken)
    (hopen : v.near.phase = .closed → v'.near.phase ≠ .closed → v.far.phase ≠ .closed) :
    v'.near.phase = .closed ∨ v'.near.phase = .synSent ∨ v.far.phase ≠ .closed := by
  rcases h.met with hp | hp | hp
  · by_cases hp' : v'.near.phase = .closed
    · exact .inl hp'
    · exact .inr (.inr (hopen hp hp'))
  · rw [hp] at hmoves
    rcases hmoves.from_synSent with hp' | hp' | ⟨-, x, hx, hk⟩
    · exact .inr (.inl hp')
    · exact .inl hp'
    · have hr : x.isReply = true := by simp [Segment.isReply, hk, Kind.isReply]
      exact .inr (.inr (h.open_of_taken (Nat.zero_lt_of_lt (hacks x hx hr))))
  · exact .inr (.inr hp)

theorem taken_le_queued {new : List Segment} (h : Flow k log got v) (hlog : Log k (log ++ new))
    {x : Segment} (hx : x ∈ new) : v.far.taken ≤ x.seq.toNat := by
  obtain ⟨i, hi⟩ := List.mem_iff_getElem?.1 hx
  have hseq := hlog.numbered (log.length + i) x (by
    rw [List.getElem?_append_right (Nat.le_add_right _ _), Nat.add_sub_cancel_left]
    exact hi)
  have hbound := h.bound
  omega

theorem near_step (h : Flow k log got v) (hs : v.near.Sound)
    (hst : Link.Step k (.near op r) v v') (hd : ∀ ticket, r ≠ .dialled (.ok ticket))
    (hopen : v.near.phase = .closed → v'.near.phase ≠ .closed → log = [] ∧ v.far.phase ≠ .closed)
    (hlen : (log ++ v.near.queuedSince v'.near).length < UInt32.size) :
    Flow k (log ++ v.near.queuedSince v'.near) got v' := by
  cases hst with
  | near hside hfar harr hout hback =>
    have hsends := hside.sends hd
    have hmoves := hside.moves hd
    have hqueues := hsends.queues
    have hacks : ∀ x, Arrives k op x → x.isReply → x.seq.toNat < v.far.taken :=
      fun x hx hr => (h.back x (harr x hx.1 hx.2) hr).1
    have hempty (hp : v.near.phase = .closed) (hp' : v'.near.phase ≠ .closed) := (hopen hp hp').1
    obtain ⟨hlog, hholds⟩ := h.holds_step hs hsends hacks hempty hlen
    have hbusy := h.busy_of_queues hqueues
    generalize v.near.queuedSince v'.near = new at *
    refine ⟨hlog, ?_, ?_, ?_, fun x => h.last_step hlog hqueues hmoves hempty, ?_,
      hfar ▸ h.replies, fun x hx => hfar ▸ h.back x (hback x hx), hfar ▸ h.waiting, ?_, ?_, ?_, ?_⟩
    · rw [hfar]
      exact fun ho => (hholds ho).1
    · by_cases hp' : v'.near.phase = .closed
      · simp [((hside.sound hs).shut (.inl hp')).2]
      · exact (hholds hp').2
    · intro x hx hr
      exact List.mem_append_left _
        ((hout x hx).elim (h.out x · hr) (h.mem_of_sending hs · hr))
    · rw [hfar]
      exact h.met_step hmoves hacks fun hp hp' => (hopen hp hp').2
    · rw [hfar, List.length_append]
      exact Nat.le_trans h.bound (Nat.le_add_right _ _)
    · rw [hfar]
      intro hp
      obtain rfl := hbusy.resolve_right fun hb => hb.1 hp
      rw [List.append_nil]
      exact h.unopened hp
    · rw [hfar]
      intro x hx hk
      exact (List.mem_append.1 hx).elim (h.unfinished x · hk) (h.taken_le_queued hlog)
    · obtain ⟨m, hm, hb, hd⟩ := h.order
      rw [hfar]
      refine ⟨m, hm, ?_, hd⟩
      rw [hb, List.take_append_of_le_length (Nat.le_trans hm h.bound)]

theorem discards_of_moves {p p' : Phase} (h : Moves k op r p p') (hp : p.discards)
    (ho : p' ≠ .closed) : p'.discards := by
  cases h with
  | stay => exact hp
  | shut => exact absurd rfl ho
  | finished => exact .inr rfl
  | _ => rcases hp with hp | hp <;> cases hp

structure Next (log got : List Segment) (e e' : Side) : Prop where
  taken : e.taken ≤ e'.taken
  replies : ∀ x ∈ e'.replies, x ∈ e.replies ∨ x.seq.toNat < e'.taken ∧ x.kind? ≠ some .finAck
  waiting : ∀ x ∈ e'.waiting, x ∈ e.waiting ∨ x.seq.toNat < e'.taken
  bound : e'.taken ≤ log.length
  unopened : e'.phase = .closed → e'.entry = none
  unfinished : ∀ x ∈ log, x.kind? = some .fin → e'.taken ≤ x.seq.toNat
  order : ∃ m, m ≤ e'.taken ∧ bytes (got ++ e.appendedSince e') = bytes (log.take m) ∧
    (¬e'.phase.discards → m = e'.taken)

theorem of_next (h : Flow k log got v) (hs : v.far.Sound) (hst : Link.Step k (.far op r) v v')
    (hstay : v.far.phase ≠ .closed → v'.far.phase ≠ .closed) (hn : Next log got v.far v'.far) :
    Flow k log (got ++ v.far.appendedSince v'.far) v' := by
  have old {x : Segment} (hx : x.seq.toNat < v.far.taken ∧ x.kind? ≠ some .finAck) :
      x.seq.toNat < v'.far.taken ∧ x.kind? ≠ some .finAck :=
    ⟨Nat.lt_of_lt_of_le hx.1 hn.taken, hx.2⟩
  cases hst with
  | far _ hnear _ hout hback =>
    refine ⟨h.isLog, ?_, hnear ▸ h.resends, fun x hx => h.out x (hout x hx), hnear ▸ h.last, ?_,
      ?_, ?_, ?_, hn.bound, ?_, hn.unfinished, hn.order⟩
    · rw [hnear]
      exact fun ho => (h.holds ho).mono hn.taken
    · rw [hnear]
      exact h.met.imp id (Or.imp id hstay)
    · exact fun x hx => (hn.replies x hx).elim (fun hx => old (h.replies x hx)) id
    · intro x hx hr
      rcases hback x hx with hx | hx | hx | hx
      · exact old (h.back x hx hr)
      · exact old (h.replies x hx)
      · rw [hs.resends x hx] at hr
        cases hr
      · rw [hs.pending x hx] at hr
        cases hr
    · exact fun x hx => (hn.waiting x hx).elim
        (fun hx => Nat.lt_of_lt_of_le (h.waiting x hx) hn.taken) id
    · intro hp'
      have hp : v.far.phase = .closed := Classical.byContradiction fun hp => hstay hp hp'
      exact ⟨hn.unopened hp', (h.unopened hp).2⟩

theorem order_kept {e' : Side} (h : Flow k log got v) (hmoves : Moves k.swap op r v.far.phase e'.phase)
    (hstay : v.far.phase ≠ .closed → e'.phase ≠ .closed) (ht : e'.taken = v.far.taken)
    (ha : v.far.appendedSince e' = []) : ∃ m, m ≤ e'.taken ∧
      bytes (got ++ v.far.appendedSince e') = bytes (log.take m) ∧
        (¬e'.phase.discards → m = e'.taken) := by
  obtain ⟨m, hm, hb, hd⟩ := h.order
  refine ⟨m, ht ▸ hm, by rw [ha, List.append_nil, hb], fun hn => ?_⟩
  by_cases hp : v.far.phase.discards
  · exact absurd (discards_of_moves hmoves hp (hstay (live_ne (.inr hp)).1)) hn
  · exact (hd hp).trans ht.symm

theorem order_dealt {e' : Side} {x : Segment} (h : Flow k log got v) (hxl : x ∈ log)
    (hmoves : Moves k.swap op r v.far.phase e'.phase) (hp' : e'.phase ≠ .closed)
    (hseq : x.seq.toNat = v.far.taken) (ht : e'.taken = v.far.taken + 1)
    (hu : ¬v.far.phase.discards ∧ v.far.appendedSince e' = [x] ∨
      (x.kind? = some .data → v.far.phase.discards) ∧ v.far.appendedSince e' = []) :
    ∃ m, m ≤ e'.taken ∧ bytes (got ++ v.far.appendedSince e') = bytes (log.take m) ∧
      (¬e'.phase.discards → m = e'.taken) := by
  obtain ⟨m, hm, hb, hd⟩ := h.order
  have htake : bytes (log.take e'.taken) = bytes (log.take v.far.taken) ++ x.payload := by
    rw [ht, ← hseq]
    exact h.isLog.bytes_take_succ hxl
  rcases hu with ⟨hnd, ha⟩ | ⟨hdata, ha⟩
  · refine ⟨e'.taken, Nat.le_refl _, ?_, fun _ => rfl⟩
    rw [ha, bytes_append, hb, hd hnd, htake]
    simp
  · by_cases hdis : v.far.phase.discards
    · refine ⟨m, by omega, by rw [ha, List.append_nil, hb], fun hn => ?_⟩
      exact absurd (discards_of_moves hmoves hdis hp') hn
    · refine ⟨e'.taken, Nat.le_refl _, ?_, fun _ => rfl⟩
      rw [ha, List.append_nil, hb, hd hdis, htake, h.isLog.empty x hxl fun hx => hdis (hdata hx),
        List.append_nil]

theorem next_knocked {e' : Side} {x : Segment} (h : Flow k log got v) (hxl : x ∈ log)
    (hk : x.kind? = some .syn) (hp : v.far.phase = .closed) (hp' : e'.phase = .synReceived)
    (he : e'.conn.expected = x.seq + 1) (hr : e'.replies = v.far.replies)
    (hw : e'.waiting = v.far.waiting ++ [x]) (ha : v.far.appendedSince e' = []) :
    Next log got v.far e' := by
  have hseq : x.seq.toNat = 0 := by
    rw [h.isLog.first x hxl hk]
    rfl
  have ht₀ : v.far.taken = 0 := taken_eq_zero (h.unopened hp).1
  have ht : e'.taken = x.seq.toNat + 1 := by
    rw [Side.taken, he, h.isLog.first x hxl hk]
    rfl
  have hlt := h.isLog.seq_lt hxl
  constructor
  case taken => omega
  case replies => exact fun y hy => .inl (hr ▸ hy)
  case waiting =>
    intro y hy
    rw [hw] at hy
    rcases List.mem_append.1 hy with hy | hy
    · exact .inl hy
    · rw [List.mem_singleton.1 hy]
      exact .inr (by omega)
  case bound => omega
  case unopened =>
    intro hc
    rw [hp'] at hc
    cases hc
  case unfinished =>
    intro y hy hkf
    rw [(h.unopened hp).2 y hy] at hkf
    cases hkf
  case order =>
    obtain ⟨m, hm, hb, -⟩ := h.order
    obtain rfl : m = 0 := by omega
    refine ⟨e'.taken, Nat.le_refl _, ?_, fun _ => rfl⟩
    rw [ha, List.append_nil, hb, ht, h.isLog.bytes_take_succ hxl, hseq,
      h.isLog.empty x hxl (by simp [hk])]
    simp

theorem next_kept {e' : Side} (h : Flow k log got v)
    (hmoves : Moves k.swap op r v.far.phase e'.phase)
    (hstay : v.far.phase ≠ .closed → e'.phase ≠ .closed) (ht : e'.taken = v.far.taken)
    (hr : ∀ x ∈ e'.replies, x ∈ v.far.replies ∨ x.seq.toNat < e'.taken ∧ x.kind? ≠ some .finAck)
    (hw : e'.waiting ⊆ v.far.waiting) (ha : v.far.appendedSince e' = [])
    (hn : e'.phase = .closed → e'.entry = none) : Next log got v.far e' :=
  ⟨Nat.le_of_eq ht.symm, hr, fun _ hx => .inl (hw hx), ht ▸ h.bound, hn, ht ▸ h.unfinished,
    h.order_kept hmoves hstay ht ha⟩

theorem far_next (h : Flow k log got v) (hst : Link.Step k (.far op r) v v')
    (hd : ∀ ticket, r ≠ .dialled (.ok ticket))
    (hstay : v.far.phase ≠ .closed → v'.far.phase ≠ .closed) (hlen : log.length < UInt32.size) :
    Next log got v.far v'.far := by
  cases hst with
  | far hside _ harr =>
    have hmoves := hside.moves hd
    have harr : ∀ x, Arrives k.swap op x → x.isReply = false → x ∈ log :=
      fun x hx hr => h.out x (harr x hx.1 hx.2) hr
    have hclosed : v'.far.phase = .closed → v.far.phase = .closed :=
      fun hp' => Classical.byContradiction fun hp => hstay hp hp'
    cases hside.takes hd with
    | still he hr hw ha hn =>
      exact h.next_kept hmoves hstay (congrArg UInt32.toNat he) (fun x hx => .inl (hr hx)) hw ha
        fun hp' => hn (h.unopened (hclosed hp')).1 hp'
    | @knocked x hx hk hp hp' he hr hw ha =>
      exact h.next_knocked (harr x hx (by simp [Segment.isReply, hk, Kind.isReply])) hk hp hp' he hr
        hw ha
    | @again x kind c hx hxr hc hlt hfin hr he hw =>
      have ht : v'.far.taken = v.far.taken := by rw [taken, conn_congr he, taken]
      have hlt : x.seq.toNat < v.far.taken := UInt32.lt_iff_toNat_lt.1 hlt
      have hkind : kind ≠ .finAck := fun hk => by
        have := h.unfinished x (harr x hx hxr) (hfin hk)
        omega
      refine h.next_kept hmoves hstay ht (fun y hy => ?_) (hw ▸ List.Subset.refl _)
        (by rw [appendedSince, conn_congr he]; simp) fun hp' => ?_
      · rcases List.mem_append.1 (hr hy) with hy | hy
        · exact .inl hy
        · rw [List.mem_singleton.1 hy]
          exact .inr ⟨by rw [ht]; exact hlt, by simpa using hkind⟩
      · rw [he]
        exact (h.unopened (hclosed hp')).1
    | @dealt x kind c hx hxr hc hp hp' hnf hseq he hkind hr hw hu =>
      have hxl := harr x hx hxr
      have hseq : x.seq.toNat = v.far.taken := congrArg UInt32.toNat hseq
      have hxlt := h.isLog.seq_lt hxl
      have ht : v'.far.taken = v.far.taken + 1 := by
        rw [taken, he, UInt32.toNat_add, hseq]
        exact Nat.mod_eq_of_lt (by show v.far.taken + 1 < UInt32.size; omega)
      refine ⟨by omega, fun y hy => ?_, fun y hy => .inl (hw ▸ hy), by omega,
        fun hp'' => absurd hp'' hp', fun y hy hyf => ?_,
        h.order_dealt hxl hmoves hp' hseq ht (hu.imp (fun hu => ⟨?_, hu.2.2⟩) id)⟩
      · rcases List.mem_append.1 (hr hy) with hy | hy
        · exact .inl hy
        · rw [List.mem_singleton.1 hy]
          exact .inr ⟨by rw [ht, ← hseq]; exact Nat.lt_succ_self _, by simpa using hkind⟩
      · have hle := h.unfinished y hy hyf
        have hne : y.seq.toNat ≠ x.seq.toNat := fun hxy => by
          rw [h.isLog.eq_of_seq hy hxl (UInt32.toNat_inj.1 hxy)] at hyf
          exact hnf hyf
        omega
      · rcases hu.2.1 with hk | hk <;> simp [Phase.discards, hk]
    | @accepted syn hsyn hp hp' he hr hw ha =>
      have ht : v'.far.taken = v.far.taken := congrArg UInt32.toNat he
      refine h.next_kept hmoves hstay ht (fun y hy => ?_) hw ha fun hp'' => ?_
      · rw [hr] at hy
        rcases List.mem_append.1 hy with hy | hy
        · exact .inl hy
        · rw [List.mem_singleton.1 hy]
          exact .inr ⟨by rw [ht]; exact h.waiting syn hsyn, by simp⟩
      · rw [hp'] at hp''
        cases hp''
    | shut hentry hp' =>
      rw [(h.unopened (hclosed hp')).1] at hentry
      cases hentry
    | @strayed x hx hk hp hp' =>
      have hxl : x ∈ log := harr x hx (by simp [Segment.isReply, hk, Kind.isReply])
      rw [(h.unopened hp).2 x hxl] at hk
      cases hk

theorem far_step (h : Flow k log got v) (hs : v.far.Sound) (hst : Link.Step k (.far op r) v v')
    (hd : ∀ ticket, r ≠ .dialled (.ok ticket))
    (hstay : v.far.phase ≠ .closed → v'.far.phase ≠ .closed) (hlen : log.length < UInt32.size) :
    Flow k log (got ++ v.far.appendedSince v'.far) v' :=
  h.of_next hs hst hstay (h.far_next hst hd hstay hlen)

theorem none_step (h : Flow k log got v) (hst : Link.Step k .none v v') : Flow k log got v' := by
  cases hst with
  | none hnear hfar hout hback =>
    exact ⟨h.isLog, hnear ▸ hfar ▸ h.holds, hnear ▸ h.resends, fun x hx => h.out x (hout x hx),
      hnear ▸ h.last, hnear ▸ hfar ▸ h.met, hfar ▸ h.replies,
      fun x hx => hfar ▸ h.back x (hback x hx), hfar ▸ h.waiting, hfar ▸ h.bound,
      hfar ▸ h.unopened, hfar ▸ h.unfinished, hfar ▸ h.order⟩

theorem blank (hv : v.Blank) : Flow k [] [] v := by
  have hn := hv.near
  have hf := hv.far
  refine ⟨.nil k, fun ho => ?_, by simp [hn], fun x hx => absurd hx (hv.out x), by simp,
    .inl (by rw [hn]; rfl), by simp [hf], fun x hx => absurd hx (hv.back x), by simp [hf], ?_,
    by simp [hf], by simp, ⟨0, Nat.zero_le _, rfl, fun _ => by rw [hf]; rfl⟩⟩
  · rw [hn] at ho
    exact absurd rfl ho
  · rw [hf]
    exact Nat.le_refl 0

theorem dialled {ticket : Ticket} (hn : v.near =
      (Side.enter {} { phase := .synSent, waiter := some ticket }).push (.control k .syn))
    (hf : v.far = {}) (ho : ∀ x, ¬v.out x) (hb : ∀ x, ¬v.back x) :
    Flow k [.control k .syn] [] v := by
  have hlog : Log k ([] ++ [{ Segment.control k .syn with seq := 0 }]) :=
    (Log.nil k).push rfl rfl rfl (fun _ => rfl) fun _ => rfl
  have hp : v.near.phase = .synSent := by
    rw [hn]
    rfl
  refine ⟨hlog, fun _ => ?_, by simp [hn, Side.push, enter], fun x hx => absurd hx (ho x),
    by simp, .inr (.inl hp), by simp [hf], fun x hx => absurd hx (hb x), by simp [hf],
    ?_, fun _ => ⟨by simp [hf], by simp⟩, by simp, ⟨0, Nat.zero_le _, rfl, fun _ => by rw [hf]; rfl⟩⟩
  · rw [hn]
    exact (Window.Holds.blank _).push (by decide) (.control k .syn)
  · rw [hf]
    exact Nat.zero_le _

theorem awaited {ticket : Ticket} (hn : v.near = {}) (hf : v.far =
      (Side.enter {} { phase := .synSent, waiter := some ticket }).push (.control k.swap .syn))
    (ho : ∀ x, ¬v.out x) (hb : ∀ x, ¬v.back x) : Flow k [] [] v := by
  have ht : v.far.taken = 0 := by
    rw [hf]
    rfl
  refine ⟨.nil k, fun hp => ?_, by simp [hn], fun x hx => absurd hx (ho x), by simp,
    .inl (by rw [hn]; rfl), by simp [hf, Side.push, enter], fun x hx => absurd hx (hb x),
    by simp [hf, Side.push, enter], ?_, fun hp => ?_, by simp, ⟨0, Nat.zero_le _, rfl, fun _ => ht.symm⟩⟩
  · rw [hn] at hp
    exact absurd rfl hp
  · rw [ht]
    exact Nat.le_refl 0
  · rw [hf] at hp
    cases hp

end Flow

end ReliableStream
