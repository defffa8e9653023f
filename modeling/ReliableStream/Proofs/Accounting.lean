import ReliableStream.Proofs.Laps
import ReliableStream.Proofs.Window

namespace ReliableStream

namespace Outbox

variable {o : Outbox} {k : SocketPair} {op : Op} {ops : List Op}

def Op.queued? (k : SocketPair) : Op → Reply → Option Segment
  | .enqueue s, .numbered (.ok seq) => if s.senderPair = k then some { s with seq } else none
  | _, _ => none

def Op.acknowledged? (k : SocketPair) : Op → Reply → Option SequenceNumber
  | .acknowledge j seq, .acknowledged true => if j = k then some seq else none
  | _, _ => none

/-- The segments of the connection that an operation sends for the first time: what a poll sends
comes after the replies and after what it sends again. -/
def admits (o : Outbox) (k : SocketPair) : Op → List Segment
  | .poll =>
    (o.poll.2.drop (o.replies.length + o.resends.length)).filter fun s => s.senderPair = k
  | _ => []

def queued (o : Outbox) (k : SocketPair) (ops : List Op) : List Segment :=
  (o.history ops).filterMap fun x => x.1.queued? k x.2

def acknowledged (o : Outbox) (k : SocketPair) (ops : List Op) : List SequenceNumber :=
  (o.history ops).filterMap fun x => x.1.acknowledged? k x.2

def sentFirst (o : Outbox) (k : SocketPair) : List Op → List Segment
  | [] => []
  | op :: rest => o.admits k op ++ (o.step op).1.sentFirst k rest

theorem queued_cons (o : Outbox) (k : SocketPair) (op : Op) (ops : List Op) :
    o.queued k (op :: ops) = (op.queued? k (o.step op).2).toList ++ (o.step op).1.queued k ops := by
  simp only [queued, history, List.filterMap_cons]
  cases op.queued? k (o.step op).2 <;> rfl

theorem acknowledged_cons (o : Outbox) (k : SocketPair) (op : Op) (ops : List Op) :
    o.acknowledged k (op :: ops) =
      (op.acknowledged? k (o.step op).2).toList ++ (o.step op).1.acknowledged k ops := by
  simp only [acknowledged, history, List.filterMap_cons]
  cases op.acknowledged? k (o.step op).2 <;> rfl

theorem queued_append (o : Outbox) (k : SocketPair) (a b : List Op) :
    o.queued k (a ++ b) = o.queued k a ++ (o.run a).queued k b := by
  rw [queued, history_append, List.filterMap_append]
  rfl

theorem acknowledged_append (o : Outbox) (k : SocketPair) (a b : List Op) :
    o.acknowledged k (a ++ b) = o.acknowledged k a ++ (o.run a).acknowledged k b := by
  rw [acknowledged, history_append, List.filterMap_append]
  rfl

theorem sentFirst_append (o : Outbox) (k : SocketPair) (a b : List Op) :
    o.sentFirst k (a ++ b) = o.sentFirst k a ++ (o.run a).sentFirst k b := by
  induction a generalizing o with
  | nil => rfl
  | cons op rest ih =>
    rw [List.cons_append, sentFirst, sentFirst, ih, List.append_assoc]
    rfl

theorem numbered?_eq (k : SocketPair) (op : Op) (r : Reply) :
    op.numbered? k r = (op.queued? k r).map Segment.seq := by
  cases op with
  | enqueue s =>
    cases r with
    | numbered result =>
      cases result with
      | ok seq =>
        by_cases hk : s.senderPair = k <;> simp [Op.numbered?, Op.queued?, hk]
      | error => rfl
    | _ => rfl
  | _ => rfl

theorem numbers_eq (o : Outbox) (k : SocketPair) (ops : List Op) :
    o.numbers k ops = (o.queued k ops).map Segment.seq := by
  simp only [numbers, queued, numbered?_eq, List.map_filterMap]

theorem Filed.step (h : o.Filed) (op : Op) : (o.step op).1.Filed := by
  cases op with
  | enqueue s => exact h.enqueue s
  | reply | resend => exact h
  | poll => exact h.afterSending
  | acknowledge k seq => exact h.acknowledge k seq
  | stop k => exact h.stop k
  | release k => exact h.release k
  | resendAll =>
    intro k w hw
    exact h k w (windows_resendAll o ▸ hw)

theorem Filed.run (h : o.Filed) (ops : List Op) : (o.run ops).Filed := by
  induction ops generalizing o with
  | nil => exact h
  | cons op rest ih => exact ih (h.step op)

theorem admits_poll (h : o.Filed) (k : SocketPair) :
    o.admits k .poll = (o.window k).admitted o.limit := by
  have hdrop : o.poll.2.drop (o.replies.length + o.resends.length) =
      o.windows.values.flatMap (Window.admitted o.limit) := by
    rw [poll, outgoing, ← List.length_append, List.drop_left]
  rw [admits, hdrop, h.filter_admitted]

theorem admits_of_ne_poll (o : Outbox) (k : SocketPair) (h : op ≠ .poll) : o.admits k op = [] := by
  cases op with
  | poll => exact absurd rfl h
  | _ => rfl

theorem window_acknowledge_self (o : Outbox) (k : SocketPair) (seq : SequenceNumber) :
    (o.acknowledge k seq).window k =
      { o.window k with unacked := (o.window k).unacked.erase seq } := by
  rw [window_eq, window_eq, windows_acknowledge_self]
  cases o.windows.get? k <;> rfl

theorem window_poll (o : Outbox) (k : SocketPair) :
    (o.step .poll).1.window k = (o.window k).advance o.limit := by
  simp only [step, poll, window_eq, windows_afterSending]
  cases o.windows.get? k <;> rfl

theorem step_turn (h : o.Filed) (hop : op ≠ .release k) :
    (o.window k).Turn ((o.step op).1.window k) (op.queued? k (o.step op).2).toList (o.admits k op)
      (op.acknowledged? k (o.step op).2).toList := by
  have idle {o' : Outbox} (hw : o'.windows.get? k = o.windows.get? k) :
      (o.window k).Turn (o'.window k) [] [] [] := by
    rw [window_congr hw]
    exact .idle
  cases op with
  | enqueue s =>
    by_cases hs : (o.window s.senderPair).stopped ∧ s.kind? = some .data
    · simp only [step, o.enqueue_of_stopped hs]
      exact .idle
    · simp only [step, o.enqueue_of_open hs]
      by_cases hk : s.senderPair = k
      · subst hk
        simp only [Op.queued?, if_true, window_eq (o.put _ _), windows_put_self]
        exact .pushed s
      · simp only [Op.queued?, hk, if_false]
        exact idle (o.windows_put_of_ne _ hk)
  | acknowledge j seq =>
    by_cases hj : j = k
    · subst hj
      by_cases hs : seq ∈ (o.window j).unacked.keys
      · simp only [step, awaits, SortedMap.contains_iff.2 hs, Op.acknowledged?, if_true,
          window_acknowledge_self]
        exact .acknowledged hs
      · have hno := Bool.eq_false_iff.2 (mt SortedMap.contains_iff.1 hs)
        simp only [step, awaits, hno, Op.acknowledged?, window_acknowledge_self,
          SortedMap.erase_of_not_mem hs]
        exact .idle
    · have hnone (r : Bool) : Op.acknowledged? k (.acknowledge j seq) (.acknowledged r) = none := by
        cases r <;> simp [Op.acknowledged?, hj]
      simp only [step, hnone]
      exact idle (o.windows_acknowledge_of_ne seq hj)
  | stop j =>
    by_cases hj : j = k
    · subst hj
      have hw : (o.stop j).window j = { o.window j with stopped := true } := by
        rw [window_eq, windows_stop_self]
        rfl
      simp only [step, hw]
      exact .stopped
    · exact idle (o.windows.get?_insert_of_ne _ hj)
  | release j => exact idle (o.windows_release_of_ne fun hj => hop (hj ▸ rfl))
  | poll =>
    rw [o.admits_poll h, o.window_poll k]
    exact .advanced o.limit
  | resendAll => exact idle (by rw [step, windows_resendAll])
  | reply | resend => exact .idle

theorem accounts_run {sent : List Segment} {acked : List SequenceNumber} (hf : o.Filed)
    (hops : .release k ∉ ops) (h : (o.window k).Accounts sent acked)
    (hfew : (sent ++ (o.window k).pending ++ o.queued k ops).length ≤ UInt32.size) :
    ((o.run ops).window k).Accounts (sent ++ o.sentFirst k ops) (acked ++ o.acknowledged k ops) ∧
      o.sentFirst k ops ++ ((o.run ops).window k).pending =
        (o.window k).pending ++ o.queued k ops := by
  induction ops generalizing o sent acked with
  | nil =>
    rw [show o.sentFirst k [] = [] from rfl, show o.acknowledged k [] = [] from rfl,
      show o.queued k [] = [] from rfl, List.append_nil, List.append_nil, List.append_nil]
    exact ⟨h, rfl⟩
  | cons op rest ih =>
    obtain ⟨hop, hrest⟩ := not_or.1 (mt List.mem_cons.2 hops)
    rw [queued_cons, ← List.append_assoc] at hfew
    obtain ⟨h', hlog⟩ := h.turn (step_turn hf (Ne.symm hop)) (by
      rw [List.length_append] at hfew
      omega)
    -- The segments sent and the ones that wait are still all that have been queued.
    have hlog' : sent ++ o.admits k op ++ ((o.step op).1.window k).pending =
        sent ++ (o.window k).pending ++ (op.queued? k (o.step op).2).toList := by
      rw [List.append_assoc, hlog, ← List.append_assoc]
    obtain ⟨h'', hrun⟩ := ih (hf.step op) hrest h' (by rw [hlog']; exact hfew)
    rw [queued_cons, acknowledged_cons, sentFirst]
    refine ⟨by rw [← List.append_assoc, ← List.append_assoc]; exact h'', ?_⟩
    calc o.admits k op ++ (o.step op).1.sentFirst k rest ++ ((o.run (op :: rest)).window k).pending
      _ = o.admits k op ++ (((o.step op).1.window k).pending ++ (o.step op).1.queued k rest) := by
        rw [List.append_assoc, ← hrun]
        rfl
      _ = _ := by rw [← List.append_assoc, hlog, List.append_assoc]

theorem Filed.accounts (hf : o.Filed) (hnew : o.windows.get? k = none) (hops : .release k ∉ ops)
    (hfew : (o.queued k ops).length ≤ UInt32.size) :
    ((o.run ops).window k).Accounts (o.sentFirst k ops) (o.acknowledged k ops) ∧
      o.sentFirst k ops ++ ((o.run ops).window k).pending = o.queued k ops := by
  have hblank : o.window k = {} := by
    rw [window_eq, hnew]
    rfl
  have hstart : (o.window k).Accounts [] [] := by
    rw [hblank]
    exact .blank
  have hrun := accounts_run hf hops hstart (by rw [hblank]; exact hfew)
  rw [hblank] at hrun
  simpa only [List.nil_append] using hrun

/-- What a run has done for a connection that had no window before: each segment has been numbered,
sent for the first time and acknowledged in turn, or waits for the next of these. -/
structure Lossless (o : Outbox) (k : SocketPair) (ops : List Op) : Prop where
  numbered : o.numbers k ops = (List.range (o.numbers k ops).length).map UInt32.ofNat
  inOrder : o.sentFirst k ops ++ ((o.run ops).window k).pending = o.queued k ops
  distinct : (o.numbers k ops).Nodup
  partition : (((o.run ops).window k).pending.map Segment.seq ++
    (((o.run ops).window k).unacked.keys ++ o.acknowledged k ops)).Perm (o.numbers k ops)
  kept : ∀ seq s, ((o.run ops).window k).unacked.get? seq = some s →
    s ∈ o.sentFirst k ops ∧ s.seq = seq
  acknowledges : ∀ seq, ((o.run ops).step (.acknowledge k seq)).2 = .acknowledged true ↔
    (∃ s ∈ o.sentFirst k ops, s.seq = seq) ∧ seq ∉ o.acknowledged k ops
  drained : (o.run ops).isDrained k = true ↔
    ∀ seq ∈ o.numbers k ops, seq ∈ o.acknowledged k ops

theorem Filed.lossless (hf : o.Filed) (hnew : o.windows.get? k = none) (hops : .release k ∉ ops)
    (hfew : (o.numbers k ops).length < UInt32.size) : o.Lossless k ops := by
  rw [numbers_eq, List.length_map] at hfew
  obtain ⟨h, hlog⟩ := hf.accounts hnew hops (Nat.le_of_lt hfew)
  have hcounts := h.counts
  rw [hlog] at hcounts
  have hdistinct : (o.numbers k ops).Nodup := by
    rw [numbers_eq]
    exact hcounts.nodup (Nat.le_of_lt hfew)
  have hpartition : (((o.run ops).window k).pending.map Segment.seq ++
      (((o.run ops).window k).unacked.keys ++ o.acknowledged k ops)).Perm (o.numbers k ops) := by
    rw [numbers_eq, ← hlog, List.map_append]
    exact (h.split.append_left _).trans List.perm_append_comm
  obtain ⟨-, hsent, hpending⟩ := List.nodup_append.1 (hpartition.nodup_iff.2 hdistinct)
  obtain ⟨-, -, hunacked⟩ := List.nodup_append.1 hsent
  constructor
  case numbered => rw [numbers_eq, List.length_map, hcounts.numbers]
  case inOrder => exact hlog
  case distinct => exact hdistinct
  case partition => exact hpartition
  case kept => exact h.kept
  case acknowledges =>
    intro seq
    have hawaits : ((o.run ops).step (.acknowledge k seq)).2 = .acknowledged true ↔
        seq ∈ ((o.run ops).window k).unacked.keys := by
      rw [← SortedMap.contains_iff, Outbox.step, Reply.acknowledged.injEq, awaits]
    rw [hawaits, ← List.mem_map]
    constructor
    · exact fun hs => ⟨h.mem_sent hs, fun hdone => hunacked seq hs seq hdone rfl⟩
    · rintro ⟨hs, hnot⟩
      exact (List.mem_append.1 (h.split.mem_iff.2 hs)).resolve_right hnot
  case drained =>
    constructor
    · intro hdrained seq hseq
      obtain ⟨hnone, hempty⟩ := Window.eq_of_isDrained hdrained
      rw [← hpartition.mem_iff, hnone, hempty] at hseq
      exact hseq
    · intro hall
      have hnone : ((o.run ops).window k).pending = [] :=
        List.eq_nil_iff_forall_not_mem.2 fun s hs => by
          have hmem : s.seq ∈ ((o.run ops).window k).pending.map Segment.seq :=
            List.mem_map_of_mem hs
          exact hpending _ hmem _ (List.mem_append_right _
            (hall _ (hpartition.subset (List.mem_append_left _ hmem)))) rfl
      have hempty : ((o.run ops).window k).unacked.keys = [] :=
        List.eq_nil_iff_forall_not_mem.2 fun seq hseq =>
          hunacked seq hseq seq (hall seq (hpartition.subset
            (List.mem_append_right _ (List.mem_append_left _ hseq)))) rfl
      have hentries : ((o.run ops).window k).unacked.entries = [] := List.map_eq_nil_iff.1 hempty
      simp [isDrained, Window.isDrained, hnone, SortedMap.isEmpty, hentries]

/-- Whatever an outbox is asked to do, it neither loses nor doubles nor reorders the segments of a
connection between the time that it gets a window and the time that it is released. -/
theorem run_lossless (window : Nat) (before : List Op)
    (hnew : ((empty window).run before).windows.get? k = none) (hops : .release k ∉ ops)
    (hfew : (((empty window).run before).numbers k ops).length < UInt32.size) :
    ((empty window).run before).Lossless k ops :=
  ((filed_empty window).run before).lossless hnew hops hfew

def outOfTurn (k : SocketPair) : List Op :=
  [.enqueue (.data k [1]), .enqueue (.data k [2]), .enqueue (.data k [3]), .poll, .acknowledge k 1,
    .acknowledge k 1, .resend k, .stop k, .enqueue (.data k [4]), .poll]

theorem run_lossless_outOfTurn :
    let k : SocketPair := ⟨⟨2, 7⟩, ⟨1, 3⟩⟩
    ((empty 2).run [.enqueue (.data k []), .release k]).Lossless k (outOfTurn k) ∧
      ((empty 2).run [.enqueue (.data k []), .release k]).numbers k (outOfTurn k) = [0, 1, 2] ∧
      ((empty 2).run [.enqueue (.data k []), .release k]).acknowledged k (outOfTurn k) = [1] :=
  ⟨run_lossless 2 _ (by decide +kernel) (by decide +kernel) (by decide +kernel),
    by decide +kernel, by decide +kernel⟩

end Outbox

end ReliableStream
