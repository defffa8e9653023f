import ReliableStream.Proofs.Accounting

namespace ReliableStream

namespace SortedMap

variable {κ α : Type} [Ranked κ] {m : SortedMap κ α} {k : κ}

theorem length_keys (m : SortedMap κ α) : m.keys.length = m.size := List.length_map _

theorem size_insert_le (m : SortedMap κ α) (k : κ) (v : α) : (m.insert k v).size ≤ m.size + 1 := by
  have key (l : List (κ × α)) : (place k v l).length ≤ l.length + 1 := by
    induction l with
    | nil => exact Nat.le_refl 1
    | cons e rest ih =>
      simp only [place]
      split
      · exact Nat.le_refl _
      · split
        · exact Nat.le_succ _
        · exact Nat.succ_le_succ ih
  exact key m.entries

theorem size_insert (v : α) (h : k ∉ m.keys) : (m.insert k v).size = m.size + 1 := by
  rw [← length_keys, ← length_keys, (keys_insert v h).length_eq, List.length_cons]

theorem size_erase (h : k ∈ m.keys) : (m.erase k).size + 1 = m.size := by
  rw [← length_keys, ← length_keys, (keys_erase h).length_eq, List.length_cons]

end SortedMap

namespace Window

variable {w w' : Window} {limit : Nat} {u : SortedMap SequenceNumber Segment} {l : List Segment}
variable {queued out : List Segment} {done : List SequenceNumber}

theorem size_admitFrom_le (h : u.size ≤ limit) : (admitFrom limit u l).1.size ≤ limit := by
  induction l generalizing u with
  | nil => exact h
  | cons s rest ih =>
    unfold admitFrom
    split
    · rename_i hlt
      apply ih
      have hins := u.size_insert_le s.seq s
      omega
    · exact h

theorem admitFrom_eq_take (h : Fresh u l) :
    (admitFrom limit u l).2.1 = l.take (limit - u.size) := by
  induction l generalizing u with
  | nil => exact List.take_nil.symm
  | cons s rest ih =>
    unfold admitFrom
    split
    · have hsize := SortedMap.size_insert s (h.absent s List.mem_cons_self)
      have hroom : limit - u.size = limit - (u.insert s.seq s).size + 1 := by omega
      rw [hroom, List.take_succ_cons, ← ih h.insert]
    · have hfull : limit - u.size = 0 := by omega
      rw [hfull, List.take_zero]

theorem size_admitFrom (h : Fresh u l) :
    (admitFrom limit u l).1.size = u.size + (admitFrom limit u l).2.1.length := by
  rw [← SortedMap.length_keys, ← SortedMap.length_keys, (keys_admitFrom h).length_eq,
    List.length_append, List.length_map]

theorem get?_advance (h : Fresh w.unacked w.pending) (seq : SequenceNumber) (s : Segment) :
    (w.advance limit).unacked.get? seq = some s ↔
      w.unacked.get? seq = some s ∨ s ∈ w.admitted limit ∧ s.seq = seq := by
  constructor
  · intro hs
    rcases get?_admitFrom hs with hold | ⟨-, hseq⟩
    · exact .inl hold
    · exact (unacked_advance hs).imp id fun hnew => ⟨hnew, hseq⟩
  · rintro (hold | ⟨hnew, rfl⟩)
    · have hne : ∀ x ∈ w.pending, x.seq ≠ seq := fun x hx heq =>
        h.absent x hx (SortedMap.mem_keys_iff.2 ⟨s, heq ▸ hold⟩)
      exact (get?_admitFrom_of_ne hne).trans hold
    · exact get?_admitFrom_of_mem (List.pairwise_map.1 h.distinct) hnew

theorem Turn.size_unacked (h : w.Turn w' queued out done) (hout : out = []) :
    w'.unacked.size + done.length = w.unacked.size := by
  cases h with
  | idle | stopped | pushed => rfl
  | advanced limit =>
    rw [advance_of_silent hout]
    rfl
  | acknowledged hseq => exact SortedMap.size_erase hseq

theorem Turn.pending (h : w.Turn w' queued out done) : out ++ w'.pending = w.pending ++ queued := by
  cases h with
  | idle | stopped | acknowledged => exact (List.append_nil _).symm
  | pushed => rfl
  | advanced limit => rw [admitted_append, List.append_nil]

end Window

namespace Outbox

variable {o : Outbox} {k : SocketPair} {op : Op} {ops : List Op}

theorem limit_step (o : Outbox) (op : Op) : (o.step op).1.limit = o.limit := by
  cases op with
  | enqueue s =>
    by_cases hs : (o.window s.senderPair).stopped ∧ s.kind? = some .data
    · simp only [step, o.enqueue_of_stopped hs]
    · simp only [step, o.enqueue_of_open hs, put]
  | resendAll =>
    simp only [step, resendAll]
    generalize o.windows.keys = keys
    induction keys generalizing o with
    | nil => rfl
    | cons j rest ih => exact ih (o.resend j)
  | reply | poll | acknowledge | stop | release | resend => rfl

theorem limit_run (o : Outbox) (ops : List Op) : (o.run ops).limit = o.limit := by
  induction ops generalizing o with
  | nil => rfl
  | cons op rest ih => exact (ih (o.step op).1).trans (o.limit_step op)

def Op.counts (k : SocketPair) : Op → Bool
  | .enqueue s => s.senderPair = k
  | .acknowledge j _ | .release j => j = k
  | .poll => true
  | .reply _ | .stop _ | .resend _ | .resendAll => false

theorem step_uncounted (hf : o.Filed) (hop : op.counts k = false) :
    (o.step op).1.inFlight k = o.inFlight k ∧ (o.step op).1.pending k = o.pending k := by
  have hrelease : op ≠ .release k := by
    rintro rfl
    simp [Op.counts] at hop
  have hpoll : op ≠ .poll := by
    rintro rfl
    cases hop
  have hqueued : op.queued? k (o.step op).2 = none := by
    cases op with
    | enqueue s =>
      have hs : s.senderPair ≠ k := by simpa [Op.counts] using hop
      cases (o.step (.enqueue s)).2 with
      | numbered r => cases r <;> simp [Op.queued?, hs]
      | _ => rfl
    | _ => rfl
  have hdone : op.acknowledged? k (o.step op).2 = none := by
    cases op with
    | acknowledge j seq =>
      have hj : j ≠ k := by simpa [Op.counts] using hop
      cases hawaits : o.awaits j seq <;> simp [step, hawaits, Op.acknowledged?, hj]
    | _ => rfl
  have hturn := step_turn hf hrelease
  rw [hqueued, hdone, o.admits_of_ne_poll k hpoll] at hturn
  refine ⟨hturn.size_unacked rfl, congrArg List.length ?_⟩
  simpa using hturn.pending

theorem inFlight_step_le (hf : o.Filed) (h : o.inFlight k ≤ o.limit) (op : Op) :
    (o.step op).1.inFlight k ≤ o.limit := by
  by_cases hrelease : op = .release k
  · subst hrelease
    rw [inFlight, step, window_eq, windows_release_self]
    exact Nat.zero_le _
  · by_cases hpoll : op = .poll
    · subst hpoll
      rw [inFlight, window_poll]
      exact Window.size_admitFrom_le h
    · have hsize := (step_turn hf hrelease).size_unacked (o.admits_of_ne_poll k hpoll)
      simp only [inFlight] at h ⊢
      omega

theorem inFlight_run_le (hf : o.Filed) (h : o.inFlight k ≤ o.limit) (ops : List Op) :
    (o.run ops).inFlight k ≤ o.limit := by
  induction ops generalizing o with
  | nil => exact h
  | cons op rest ih =>
    have hstep := inFlight_step_le hf h op
    rw [← o.limit_step op] at hstep ⊢
    exact ih (hf.step op) hstep

theorem inFlight_run (hf : o.Filed) (hops : .release k ∉ ops) (hpoll : .poll ∉ ops) :
    (o.run ops).inFlight k + (o.acknowledged k ops).length = o.inFlight k := by
  induction ops generalizing o with
  | nil => rfl
  | cons op rest ih =>
    obtain ⟨hop, hrest⟩ := not_or.1 (mt List.mem_cons.2 hops)
    obtain ⟨hne, hpoll⟩ := not_or.1 (mt List.mem_cons.2 hpoll)
    have hsize := (step_turn hf (Ne.symm hop)).size_unacked (o.admits_of_ne_poll k (Ne.symm hne))
    have hrun := ih (hf.step op) hrest hpoll
    rw [acknowledged_cons, List.length_append]
    simp only [inFlight] at hrun ⊢
    change ((((o.step op).1.run rest).window k).unacked.size + _) = _
    omega

/-- A poll sends the `n` oldest segments of the connection that wait, and keeps them as
unacknowledged. -/
structure Admits (o : Outbox) (k : SocketPair) (n : Nat) : Prop where
  sent : o.admits k .poll = (o.window k).pending.take n
  left : ((o.step .poll).1.window k).pending = (o.window k).pending.drop n
  unacked : ∀ seq s, ((o.step .poll).1.window k).unacked.get? seq = some s ↔
    (o.window k).unacked.get? seq = some s ∨ s ∈ (o.window k).pending.take n ∧ s.seq = seq
  inFlight : (o.step .poll).1.inFlight k = o.inFlight k + n

theorem Filed.fresh (hf : o.Filed) (hnew : o.windows.get? k = none) (hops : .release k ∉ ops)
    (hfew : (o.numbers k ops).length < UInt32.size) :
    Window.Fresh ((o.run ops).window k).unacked ((o.run ops).window k).pending := by
  rw [numbers_eq, List.length_map] at hfew
  obtain ⟨h, hlog⟩ := hf.accounts hnew hops (Nat.le_of_lt hfew)
  exact h.fresh (by rw [hlog]; exact Nat.le_of_lt hfew)

theorem Filed.admits (hf : o.Filed) (h : Window.Fresh (o.window k).unacked (o.window k).pending) :
    o.Admits k (min (o.pending k) (o.limit - o.inFlight k)) := by
  have htake : (o.window k).admitted o.limit =
      (o.window k).pending.take (min (o.pending k) (o.limit - o.inFlight k)) := by
    rw [Window.admitted, Window.admitFrom_eq_take h, List.take_eq_take_min, Nat.min_comm]
    rfl
  have hleft : ((o.window k).advance o.limit).pending =
      (o.window k).pending.drop (min (o.pending k) (o.limit - o.inFlight k)) := by
    have happend := Window.admitted_append o.limit (o.window k)
    rw [htake] at happend
    exact List.append_cancel_left (happend.trans (List.take_append_drop _ _).symm)
  constructor
  case sent => rw [o.admits_poll hf, htake]
  case left => rw [window_poll, hleft]
  case unacked =>
    intro seq s
    rw [window_poll, Window.get?_advance h, htake]
  case inFlight =>
    have hsize : ((o.window k).advance o.limit).unacked.size =
        o.inFlight k + ((o.window k).admitted o.limit).length := Window.size_admitFrom h
    have hlength : ((o.window k).admitted o.limit).length =
        min (o.pending k) (o.limit - o.inFlight k) := by
      rw [htake, List.length_take, ← Outbox.pending]
      omega
    rw [inFlight, window_poll, hsize, hlength]

theorem Admits.settled (h : o.Admits k (min (o.pending k) (o.limit - o.inFlight k)))
    (hle : o.inFlight k ≤ o.limit) :
    (o.step .poll).1.pending k = 0 ∨ (o.step .poll).1.inFlight k = o.limit := by
  have hleft : (o.step .poll).1.pending k = o.pending k - _ :=
    (congrArg List.length h.left).trans List.length_drop
  have hflight := h.inFlight
  omega

/-- Whatever is done with an outbox, no connection has more than the limit unacknowledged, and what
concerns other connections, the replies and sending again leaves the counts of a connection alone.
While a window has numbered fewer segments than there are numbers, a poll admits the oldest segments
that wait until the window is full. What is then acknowledged before the next poll is what that one
admits if as much waits. -/
theorem flow_control (window : Nat) (k : SocketPair) :
    (∀ ops, ((empty window).run ops).inFlight k ≤ max window 1) ∧
    (∀ before op, op.counts k = false →
      (((empty window).run before).step op).1.inFlight k = ((empty window).run before).inFlight k ∧
      (((empty window).run before).step op).1.pending k = ((empty window).run before).pending k) ∧
    ∀ before ops, ((empty window).run before).windows.get? k = none → .release k ∉ ops →
      (((empty window).run before).numbers k ops).length < UInt32.size →
      let o := (empty window).run (before ++ ops)
      let polled := (o.step .poll).1
      o.Admits k (min (o.pending k) (max window 1 - o.inFlight k)) ∧
      (polled.pending k = 0 ∨ polled.inFlight k = max window 1) ∧
      ∀ later, .release k ∉ later → .poll ∉ later → polled.inFlight k = max window 1 →
        (((empty window).run before).numbers k (ops ++ .poll :: later)).length < UInt32.size →
        (polled.run later).Admits k
          (min (polled.acknowledged k later).length ((polled.run later).pending k)) := by
  have hlimit (ops) : ((empty window).run ops).limit = max window 1 := limit_run _ ops
  have hbound (ops) : ((empty window).run ops).inFlight k ≤ max window 1 :=
    inFlight_run_le (filed_empty window) (Nat.zero_le _) ops
  have hadmits {before ops} (hnew : ((empty window).run before).windows.get? k = none)
      (hops : .release k ∉ ops)
      (hfew : (((empty window).run before).numbers k ops).length < UInt32.size) :
      ((empty window).run (before ++ ops)).Admits k
        (min (((empty window).run (before ++ ops)).pending k)
          (max window 1 - ((empty window).run (before ++ ops)).inFlight k)) := by
    have hfresh := ((filed_empty window).run before).fresh hnew hops hfew
    rw [← run_append] at hfresh
    rw [← hlimit (before ++ ops)]
    exact ((filed_empty window).run _).admits hfresh
  refine ⟨hbound, fun before op => step_uncounted ((filed_empty window).run before), ?_⟩
  intro before ops hnew hops hfew o polled
  have hpoll := hadmits hnew hops hfew
  have hsettled := hpoll
  rw [← hlimit (before ++ ops)] at hsettled
  refine ⟨hpoll, hlimit (before ++ ops) ▸ hsettled.settled ?_, ?_⟩
  · rw [hlimit]
    exact hbound _
  · intro later hlater hnone hfull hmore
    have hrun : polled.run later = (empty window).run (before ++ (ops ++ .poll :: later)) := by
      simp only [polled, o, run_append]
      rfl
    have hrelease : .release k ∉ ops ++ .poll :: later := by
      simp [hops, hlater]
    have hflight := inFlight_run (o := polled) ((filed_empty window).run _ |>.step .poll) hlater hnone
    have hnext := hadmits hnew hrelease hmore
    rw [← hrun] at hnext
    have hn : max window 1 - (polled.run later).inFlight k =
        (polled.acknowledged k later).length := by omega
    rwa [hn, Nat.min_comm] at hnext

def crowd (k : SocketPair) : List Op :=
  [.enqueue (.data k [1]), .enqueue (.data k [2]), .enqueue (.data k [3])]

def secondAcknowledged (k : SocketPair) : List Op :=
  [.acknowledge k 1, .resend k, .acknowledge k 1]

theorem flow_control_crowd :
    let k : SocketPair := ⟨⟨2, 7⟩, ⟨1, 3⟩⟩
    let o := (empty 2).run ([.enqueue (.data k []), .release k] ++ crowd k)
    let later := (o.step .poll).1.run (secondAcknowledged k)
    o.pending k = 3 ∧ o.Admits k 2 ∧ (o.step .poll).1.inFlight k = 2 ∧ later.Admits k 1 := by
  intro k o later
  obtain ⟨-, -, h⟩ := flow_control 2 k
  obtain ⟨hpoll, -, hnext⟩ := h [.enqueue (.data k []), .release k] (crowd k) (by decide +kernel)
    (by decide +kernel) (by decide +kernel)
  have hpending : o.pending k = 3 := by decide +kernel
  have hflight : o.inFlight k = 0 := by decide +kernel
  have hfull : (o.step .poll).1.inFlight k = 2 := by decide +kernel
  have hone : ((o.step .poll).1.acknowledged k (secondAcknowledged k)).length = 1 := by
    decide +kernel
  have hleft : later.pending k = 1 := by decide +kernel
  have hagain := hnext (secondAcknowledged k) (by decide +kernel) (by decide +kernel) hfull
    (by decide +kernel)
  rw [hpending, hflight] at hpoll
  rw [hone, hleft] at hagain
  exact ⟨hpending, hpoll, hfull, hagain⟩

end Outbox

end ReliableStream
