import Mathlib.Data.List.Induction
import ReliableStream.Proofs.Accounting
import ReliableStream.Proofs.Confined

namespace ReliableStream

namespace Side

variable {e e' : Side} {s : Segment}

/-- What goes out again is in order, and if there is any, all that is unacknowledged is in it. -/
structure Resending (e : Side) : Prop where
  ascending : e.resends.Pairwise fun s t => s.seq < t.seq
  complete : e.resends = [] ∨ ∀ i s, e.win.unacked.get? i = some s → s ∈ e.resends

theorem nodup_of_ascending {l : List Segment} (h : l.Pairwise fun s t => s.seq < t.seq) :
    l.Nodup :=
  h.imp fun {a b} hlt (heq : a = b) => UInt32.lt_irrefl b.seq (by rwa [heq] at hlt)

theorem ascending_unacked (hseq : ∀ i s, e.win.unacked.get? i = some s → s.seq = i) :
    e.win.unacked.values.Pairwise fun s t => s.seq < t.seq := by
  refine List.pairwise_map.2 (e.win.unacked.ascending.imp_of_mem fun {a b} ha hb hlt => ?_)
  rw [hseq a.1 a.2 (SortedMap.mem_entries_iff.1 ha), hseq b.1 b.2 (SortedMap.mem_entries_iff.1 hb)]
  exact UInt32.lt_iff_toNat_lt.2 hlt

theorem resending_of_nil (h : e.resends = []) : e.Resending := ⟨by simp [h], .inl h⟩

theorem mem_resent {i : SequenceNumber} (h : e.win.unacked.get? i = some s) :
    s ∈ e.resent.resends :=
  Outbox.mem_addMissing.2 (.inr (SortedMap.mem_values_iff.2 ⟨i, h⟩))

def Complete (e : Side) : Prop := ∀ i s, e.win.unacked.get? i = some s → s ∈ e.resends

theorem complete_resent (e : Side) : e.resent.Complete := fun _ _ hi => mem_resent (e := e) hi

namespace Resending

theorem mono (h : e.Resending) (hr : e'.resends = e.resends)
    (hu : ∀ i s, e'.win.unacked.get? i = some s → e.win.unacked.get? i = some s) :
    e'.Resending :=
  ⟨hr ▸ h.ascending, hr ▸ h.complete.imp id fun hc i s hi => hc i s (hu i s hi)⟩

theorem resent (h : e.Resending) (hseq : ∀ i s, e.win.unacked.get? i = some s → s.seq = i) :
    e.resent.Resending := by
  have hasc := ascending_unacked hseq
  refine ⟨?_, .inr e.complete_resent⟩
  rcases h.complete with hr | hr
  · rw [show e.resent.resends = e.win.unacked.values by
      rw [Side.resent, hr, Outbox.addMissing_of_nodup (by simpa using nodup_of_ascending hasc),
        List.nil_append]]
    exact hasc
  · rw [show e.resent.resends = e.resends from Outbox.addMissing_of_subset fun s hs =>
      (SortedMap.mem_values_iff.1 hs).elim fun i hi => hr i s hi]
    exact h.ascending

end Resending

theorem resent_of_none (h : e.window = none) : e.resent = e := by
  obtain ⟨_, _⟩ := e
  subst h
  rfl

theorem resent_resent (e : Side) : e.resent.resent = e.resent := by
  have hsub : e.win.unacked.values ⊆ Outbox.addMissing e.resends e.win.unacked.values :=
    fun s hs => Outbox.mem_addMissing.2 (.inr hs)
  simp only [resent, win] at hsub ⊢
  rw [Outbox.addMissing_of_subset hsub]

theorem of_resendIn (t : Table) {o : Outbox} (ho : o.Filed) (k : SocketPair)
    (l : List SocketPair) : of t (l.foldl Outbox.resend o) k =
      if k ∈ l then (of t o k).resent else of t o k := by
  induction l generalizing o with
  | nil => rfl
  | cons j rest ih =>
    have hj : (o.resend j).Filed := ho
    rw [List.foldl_cons, ih hj]
    by_cases hj : j = k
    · subst hj
      rw [of_resend t o ho, if_pos List.mem_cons_self, resent_resent, ite_self]
    · simp [of_resend_of_ne t o hj ho, Ne.symm hj]

theorem of_resendIn_all (t : Table) {o : Outbox} (ho : o.Filed) {k : SocketPair}
    {l : List SocketPair} (hl : ∀ w, o.windows.get? k = some w → k ∈ l) :
    of t (l.foldl Outbox.resend o) k = (of t o k).resent := by
  rw [of_resendIn t ho k l]
  split
  case isTrue => rfl
  case isFalse hk =>
    -- Without a window there is nothing to send again, so the connection need not be asked.
    have hnone : o.windows.get? k = none :=
      Option.eq_none_iff_forall_ne_some.2 fun w hw => hk (hl w hw)
    exact (resent_of_none (e := of t o k) hnone).symm

end Side

theorem Window.Turn.unacked {w w' : Window} {queued out : List Segment}
    {done : List SequenceNumber} {i : SequenceNumber} {s : Segment}
    (h : w.Turn w' queued out done) (hi : w'.unacked.get? i = some s) :
    w.unacked.get? i = some s ∨ s ∈ out ∧ s.seq = i := by
  cases h with
  | idle | stopped | pushed => exact .inl hi
  | advanced limit =>
    rcases get?_admitFrom hi with hold | ⟨-, hseq⟩
    · exact .inl hold
    · exact (unacked_advance hi).imp id fun hnew => ⟨hnew, hseq⟩
  | acknowledged => exact .inl (SortedMap.get?_of_erase hi)

namespace Outbox

variable {o : Outbox} {k : SocketPair} {op : Op} {ops : List Op} {s : Segment}

def side (o : Outbox) (k : SocketPair) : Side := .of (.empty 0) o k

@[simp] theorem resends_side (o : Outbox) (k : SocketPair) :
    (o.side k).resends = o.resends.filter fun s => s.senderPair = k := rfl

theorem mem_resends_side (o : Outbox) (s : Segment) :
    s ∈ (o.side s.senderPair).resends ↔ s ∈ o.resends := by simp

theorem side_release (o : Outbox) (k : SocketPair) :
    (o.step (.release k)).1.side k = (o.side k).released := Side.of_release _ o k

theorem side_poll (o : Outbox) (k : SocketPair) :
    (o.step .poll).1.side k = (o.side k).sent o.limit := Side.of_afterSending _ o k

theorem side_resend (hf : o.Filed) (k : SocketPair) :
    (o.step (.resend k)).1.side k = (o.side k).resent := Side.of_resend _ o hf k

theorem side_resendAll (hf : o.Filed) (k : SocketPair) :
    (o.step .resendAll).1.side k = (o.side k).resent :=
  Side.of_resendIn_all _ hf fun w hw => SortedMap.mem_keys_iff.2 ⟨w, hw⟩

def Op.isResend : Op → Bool
  | .resend _ | .resendAll => true
  | _ => false

def Op.asks (k : SocketPair) : Op → Bool
  | .resend j => j = k
  | .resendAll => true
  | _ => false

theorem unacked_step (hf : o.Filed) (hop : op ≠ .release k) {i : SequenceNumber}
    (hi : ((o.step op).1.window k).unacked.get? i = some s) :
    (o.window k).unacked.get? i = some s ∨ s ∈ o.admits k op ∧ s.seq = i :=
  (step_turn hf hop).unacked hi

inductive Stirs (k : SocketPair) (op : Op) (e : Side) : Side → Prop
  | less {e' : Side} : e'.resends = e.resends →
      (∀ i s, e'.win.unacked.get? i = some s → e.win.unacked.get? i = some s) → Stirs k op e e'
  | resent : Stirs k op e e.resent
  | released : op = .release k → Stirs k op e e.released
  | sent (limit : Nat) : op = .poll → Stirs k op e (e.sent limit)

theorem step_stirs (hf : o.Filed) (op : Op) (k : SocketPair) :
    Stirs k op (o.side k) ((o.step op).1.side k) := by
  have same {o' : Outbox} (h : o'.side k = o.side k) : Stirs k op (o.side k) (o'.side k) :=
    .less (by rw [h]) (by rw [h]; exact fun _ _ => id)
  -- Only a poll lets more be unacknowledged.
  have less (hpoll : op ≠ .poll) (hop : op ≠ .release k)
      (hr : (o.step op).1.resends = o.resends) : Stirs k op (o.side k) ((o.step op).1.side k) := by
    refine .less (by rw [resends_side, hr, resends_side]) fun i s hi => ?_
    refine (unacked_step hf hop hi).resolve_right fun hnew => ?_
    rw [o.admits_of_ne_poll k hpoll] at hnew
    cases hnew.1
  cases op with
  | enqueue s =>
    refine less (by simp) (by simp) ?_
    by_cases hs : (o.window s.senderPair).stopped ∧ s.kind? = some .data
    · simp only [step, o.enqueue_of_stopped hs]
    · simp only [step, o.enqueue_of_open hs, put]
  | reply | acknowledge | stop => exact less (by simp) (by simp) rfl
  | poll => exact o.side_poll k ▸ .sent o.limit rfl
  | release j =>
    by_cases hj : j = k
    · subst hj
      exact o.side_release j ▸ .released rfl
    · exact same (Side.of_release_of_ne _ o hj)
  | resend j =>
    by_cases hj : j = k
    · subst hj
      exact side_resend hf j ▸ .resent
    · exact same (Side.of_resend_of_ne _ o hj hf)
  | resendAll => exact side_resendAll hf k ▸ .resent

theorem Stirs.resending {e e' : Side} (h : Stirs k op e e') (hr : e.Resending)
    (hseq : ∀ i s, e.win.unacked.get? i = some s → s.seq = i) : e'.Resending := by
  cases h with
  | less hres hu => exact hr.mono hres hu
  | resent => exact hr.resent hseq
  | released | sent => exact Side.resending_of_nil rfl

structure InOrder (o : Outbox) : Prop where
  filed : o.Filed
  numbered : ∀ k i s, (o.window k).unacked.get? i = some s → s.seq = i
  resending : ∀ k, (o.side k).Resending

namespace InOrder

theorem blank (window : Nat) : (empty window).InOrder where
  filed := filed_empty window
  numbered k i s h := by cases h
  resending k := Side.resending_of_nil rfl

theorem step (h : o.InOrder) (op : Op) : (o.step op).1.InOrder where
  filed := h.filed.step op
  numbered k i s hi := by
    by_cases hop : op = .release k
    · subst hop
      rw [Outbox.step, window_eq, windows_release_self] at hi
      cases hi
    · exact (unacked_step h.filed hop hi).elim (h.numbered k i s) And.right
  resending k := (step_stirs h.filed op k).resending (h.resending k) (h.numbered k)

theorem run (h : o.InOrder) (ops : List Op) : (o.run ops).InOrder := by
  induction ops generalizing o with
  | nil => exact h
  | cons op rest ih => exact ih (h.step op)

theorem nodup (h : o.InOrder) : o.resends.Nodup := by
  refine List.nodup_iff_count.2 fun s => ?_
  have hside := Side.nodup_of_ascending (h.resending s.senderPair).ascending
  have hcount := List.nodup_iff_count.1 hside s
  rwa [resends_side, List.count_filter (by simp)] at hcount

end InOrder

/-- A poll has sent the segment for the first time since its connection was last released. -/
def SentSince (o : Outbox) (ops : List Op) (s : Segment) : Prop :=
  ∃ before after, ops = before ++ after ∧ .release s.senderPair ∉ after ∧
    s ∈ (o.run before).sentFirst s.senderPair after

theorem SentSince.concat (h : o.SentSince ops s) (hop : op ≠ .release s.senderPair) :
    o.SentSince (ops ++ [op]) s := by
  obtain ⟨before, after, rfl, hafter, hs⟩ := h
  refine ⟨before, after ++ [op], by simp, by simp [hafter, Ne.symm hop], ?_⟩
  rw [sentFirst_append]
  exact List.mem_append_left _ hs

def Holds (o : Outbox) (s : Segment) : Prop :=
  s ∈ o.resends ∨ ∃ i, (o.window s.senderPair).unacked.get? i = some s

theorem Holds.of_step (hf : o.Filed) (h : (o.step op).1.Holds s) :
    op ≠ .release s.senderPair ∧ (o.Holds s ∨ s ∈ o.admits s.senderPair op) := by
  have hstirs := step_stirs hf op s.senderPair
  rw [Holds, ← mem_resends_side] at h
  by_cases hop : op = .release s.senderPair
  · subst hop
    rw [side_release, step, window_eq, windows_release_self] at h
    rcases h with h | ⟨i, h⟩ <;> cases h
  · refine ⟨hop, ?_⟩
    rcases h with h | ⟨i, h⟩
    · generalize (o.step op).1.side s.senderPair = e at hstirs h
      cases hstirs with
      | less hres =>
        rw [hres, mem_resends_side] at h
        exact .inl (.inl h)
      | resent =>
        rcases mem_addMissing.1 h with h | h
        · exact .inl (.inl ((mem_resends_side o s).1 h))
        · exact .inl (.inr (SortedMap.mem_values_iff.1 h))
      | released hr => exact absurd hr hop
      | sent => cases h
    · exact (unacked_step hf hop h).imp (fun hold => .inr ⟨i, hold⟩) And.left

theorem sentSince_run (hf : o.Filed) (hnone : ∀ s, ¬o.Holds s) (ops : List Op)
    (h : (o.run ops).Holds s) : o.SentSince ops s := by
  induction ops using List.reverseRecOn with
  | nil => exact absurd h (hnone s)
  | append_singleton ops op ih =>
    rw [run_append] at h
    obtain ⟨hop, h⟩ := Holds.of_step (hf.run ops) h
    rcases h with hold | hnew
    · exact (ih hold).concat hop
    · refine ⟨ops, [op], rfl, by simpa using Ne.symm hop, ?_⟩
      rw [sentFirst]
      exact List.mem_append_left _ hnew

theorem resendIn_eq (o : Outbox) (l : List SocketPair) :
    ∃ resends, l.foldl resend o = { o with resends } := by
  induction l generalizing o with
  | nil => exact ⟨o.resends, rfl⟩
  | cons k rest ih => exact ih (o.resend k)

theorem step_isResend (hop : op.isResend = true) :
    ∃ resends, (o.step op).1 = { o with resends } := by
  cases op with
  | resend k => exact ⟨_, rfl⟩
  | resendAll => exact o.resendIn_eq _
  | _ => cases hop

theorem run_isResend (hops : ∀ op ∈ ops, op.isResend = true) :
    ∃ resends, o.run ops = { o with resends } := by
  induction ops generalizing o with
  | nil => exact ⟨o.resends, rfl⟩
  | cons op rest ih =>
    obtain ⟨hop, hrest⟩ := List.forall_mem_cons.1 hops
    obtain ⟨between, hstep⟩ := step_isResend (o := o) hop
    obtain ⟨resends, hrun⟩ := ih (o := (o.step op).1) hrest
    exact ⟨resends, hrun.trans (by rw [hstep])⟩

theorem Stirs.complete {e e' : Side} (h : Stirs k op e e') (hop : op ≠ .poll) (hc : e.Complete) :
    e'.Complete := by
  cases h with
  | less hres hu => exact fun i s hi => hres ▸ hc i s (hu i s hi)
  | resent => exact e.complete_resent
  | released => exact fun _ _ hi => by cases hi
  | sent _ hpoll => exact absurd hpoll hop

theorem complete_run (hf : o.Filed) (hops : .poll ∉ ops) (h : (o.side k).Complete) :
    ((o.run ops).side k).Complete := by
  induction ops generalizing o with
  | nil => exact h
  | cons op rest ih =>
    obtain ⟨hop, hrest⟩ := not_or.1 (mt List.mem_cons.2 hops)
    exact ih (hf.step op) hrest ((step_stirs hf op k).complete (Ne.symm hop) h)

theorem complete_of_asks (hf : o.Filed) (hop : op.asks k = true) :
    ((o.step op).1.side k).Complete := by
  cases op with
  | resend j =>
    obtain rfl : j = k := of_decide_eq_true hop
    exact side_resend hf j ▸ Side.complete_resent _
  | resendAll => exact side_resendAll hf k ▸ Side.complete_resent _
  | _ => cases hop

theorem complete_of_asked (hf : o.Filed) (hops : .poll ∉ ops) (hop : op ∈ ops)
    (hk : op.asks k = true) : ((o.run ops).side k).Complete := by
  obtain ⟨before, after, rfl⟩ := List.append_of_mem hop
  rw [run_append]
  refine complete_run (o := ((o.run before).step op).1) ((hf.run before).step op) (fun h => hops ?_)
    (complete_of_asks (hf.run before) hk)
  exact List.mem_append_right _ (List.mem_cons_of_mem _ h)

theorem resend_of_complete (h : (o.side k).Complete) : o.resend k = o := by
  have hsub : (o.window k).unacked.values ⊆ o.resends := fun s hs => by
    obtain ⟨i, hi⟩ := SortedMap.mem_values_iff.1 hs
    exact (List.mem_filter.1 (h i s hi)).1
  rw [resend, addMissing_of_subset hsub]

theorem step_of_complete (hop : op.isResend = true)
    (h : ∀ k, op.asks k = true → (o.side k).Complete) : (o.step op).1 = o := by
  cases op with
  | resend k => exact resend_of_complete (h k (decide_eq_true rfl))
  | resendAll =>
    rw [step, resendAll]
    generalize o.windows.keys = l
    induction l with
    | nil => rfl
    | cons k rest ih => rw [List.foldl_cons, resend_of_complete (h k rfl), ih]
  | _ => cases hop

theorem run_of_complete (hops : ∀ op ∈ ops, op.isResend = true)
    (h : ∀ op ∈ ops, ∀ k, op.asks k = true → (o.side k).Complete) : o.run ops = o := by
  induction ops with
  | nil => rfl
  | cons op rest ih =>
    obtain ⟨hop, hrest⟩ := List.forall_mem_cons.1 hops
    obtain ⟨hc, hcs⟩ := List.forall_mem_cons.1 h
    have hsame := step_of_complete hop hc
    rw [run, List.foldl_cons, hsame]
    exact ih hrest hcs

structure Verbatim (o : Outbox) (ops : List Op) : Prop where
  distinct : (o.run ops).resends.Nodup
  sent : ∀ s ∈ (o.run ops).resends, o.SentSince ops s
  ascending : ∀ k, ((o.run ops).resends.filter fun s => s.senderPair = k).Pairwise
    fun s t => s.seq < t.seq
  once : ∀ k, ∀ s ∈ ((o.run ops).window k).unacked.values,
    ((o.run ops).resend k).resends.count s = 1
  apart : ∀ again, (∀ op ∈ again, op.isResend = true) →
    ((o.run ops).run again).windows = (o.run ops).windows ∧
      ∀ k, ((o.run ops).run again).inFlight k = (o.run ops).inFlight k ∧
        (((o.run ops).run again).window k).next = ((o.run ops).window k).next
  settled : ∀ again later more, (∀ op ∈ again, op.isResend = true) → .poll ∉ later →
    more ⊆ again →
      (((o.run ops).run again).run later).run more = ((o.run ops).run again).run later

theorem InOrder.verbatim (h : o.InOrder) (hnone : ∀ s, ¬o.Holds s) (ops : List Op) :
    o.Verbatim ops := by
  have hrun := h.run ops
  constructor
  case distinct => exact hrun.nodup
  case sent => exact fun s hs => sentSince_run h.filed hnone ops (.inl hs)
  case ascending => exact fun k => (hrun.resending k).ascending
  case once =>
    intro k s hs
    have hmem : s ∈ ((o.run ops).resend k).resends := mem_addMissing.2 (.inr hs)
    exact (hrun.step (.resend k)).nodup.count.trans (if_pos hmem)
  case apart =>
    intro again hagain
    obtain ⟨resends, hsame⟩ := run_isResend (o := o.run ops) hagain
    rw [hsame]
    exact ⟨rfl, fun _ => ⟨rfl, rfl⟩⟩
  case settled =>
    intro again later more hagain hlater hmore
    have hpoll : .poll ∉ again := fun hp => by cases hagain _ hp
    refine run_of_complete (fun op hop => hagain op (hmore hop)) fun op hop k hk => ?_
    have hasked := complete_of_asked hrun.filed hpoll (hmore hop) hk
    exact complete_run (hrun.filed.run again) hlater hasked

/-- Whatever is done with an outbox, what goes out again are copies of what has been sent. -/
theorem resending_verbatim (window : Nat) (ops : List Op) : (empty window).Verbatim ops :=
  (InOrder.blank window).verbatim (fun s => by rintro (h | ⟨i, h⟩) <;> cases h) ops

end Outbox

end ReliableStream
