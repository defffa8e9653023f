import ReliableStream.Host
import ReliableStream.Proofs.Outbox
import ReliableStream.Proofs.Table

namespace ReliableStream

namespace Phase

variable {p : Phase} {event : Event} {facts : Facts} {m : Move} {a : Action}

theorem enqueue_mem_actions (hm : p.move? event facts = some m) (ha : a ∈ m.actions) :
    a = .enqueue ↔ event = .send := by
  unfold move? at hm
  split at hm <;> grind

theorem actions_of_enqueue (hm : p.move? event facts = some m) (ha : .enqueue ∈ m.actions) :
    p = .established ∧ m.actions = [.enqueue] := by
  unfold move? at hm
  split at hm <;> grind

theorem ne_data_of_transmit {kind : Kind} (hm : p.move? event facts = some m)
    (ha : .transmit kind ∈ m.actions) : kind ≠ .data := by
  unfold move? at hm
  split at hm <;> grind

end Phase

namespace Host

variable {h h' : Host} {k : SocketPair} {segment : Option Segment} {a : Action} {s : Segment}
  {event : Event} {facts : Facts} {m : Move} {failure : Failure}

theorem enqueue_of_open (h : Host)
    (hw : ¬((h.outbox.window s.senderPair).stopped ∧ s.kind? = some .data)) :
    h.enqueue s = ({ h with
      outbox := h.outbox.put s.senderPair ((h.outbox.window s.senderPair).push s) }, .ok true) := by
  rw [enqueue, h.outbox.enqueue_of_open hw]
  rfl

theorem enqueue_of_stopped (h : Host)
    (hw : (h.outbox.window s.senderPair).stopped ∧ s.kind? = some .data) :
    h.enqueue s = (h, .error .sendingStopped) := by
  rw [enqueue, h.outbox.enqueue_of_stopped hw]
  rfl

theorem enqueue_of_error {fault : CallFault} (he : (h.enqueue s).2 = .error fault) :
    (h.enqueue s).1 = h ∧ s.kind? = some .data := by
  by_cases hw : (h.outbox.window s.senderPair).stopped ∧ s.kind? = some .data
  · rw [h.enqueue_of_stopped hw]
    exact ⟨rfl, hw.2⟩
  · rw [h.enqueue_of_open hw] at he
    cases he

theorem act_reply (h : Host) (k : SocketPair) (s : Segment) (kind : Kind) :
    h.act k (some s) (.reply kind) =
      ({ h with outbox := h.outbox.reply (s.answer kind) }, .ok true) := rfl

theorem act_transmit (h : Host) (k : SocketPair) (segment : Option Segment) {kind : Kind}
    (hk : kind ≠ .data) : h.act k segment (.transmit kind) =
      ({ h with outbox := h.outbox.put k ((h.outbox.window k).push (.control k kind)) },
        .ok true) :=
  h.enqueue_of_open (by simp [hk])

theorem act_of_error {fault : CallFault} (he : (h.act k segment a).2 = .error fault) :
    (h.act k segment a).1 = h ∧ (a = .enqueue ∨ a = .transmit .data) := by
  cases a with
  | transmit kind =>
    obtain ⟨hsame, hk⟩ := enqueue_of_error he
    rw [Segment.kind?_control, Option.some.injEq] at hk
    exact ⟨hsame, .inr (hk ▸ rfl)⟩
  | enqueue =>
    cases segment with
    | none => cases he
    | some s => exact ⟨(enqueue_of_error he).1, .inl rfl⟩
  | reply | queueForAccept => cases segment <;> cases he
  | deliver =>
    cases segment with
    | none => cases he
    | some s =>
      simp only [act] at he
      split at he <;> cases he
  | _ => cases he

theorem actAll_induction {R : Host → Host → Prop} (hrefl : ∀ h, R h h)
    (htrans : ∀ {h h' h''}, R h h' → R h' h'' → R h h'') {l : List Action}
    (hact : ∀ a ∈ l, ∀ h : Host, R h (h.act k segment a).1) (h : Host) :
    R h (h.actAll k segment l).1 := by
  induction l generalizing h with
  | nil => exact hrefl h
  | cons a rest ih =>
    obtain ⟨ha, hrest⟩ := List.forall_mem_cons.1 hact
    have hfirst := ha h
    unfold actAll
    split
    · rename_i heq
      rwa [heq] at hfirst
    · rename_i g _ heq
      rw [heq] at hfirst
      have hall := htrans hfirst (ih hrest g)
      split
      · rename_i heq'
        rwa [heq'] at hall
      · rename_i heq'
        rwa [heq'] at hall

theorem actAll_ok (h : Host) (k : SocketPair) (segment : Option Segment) {l : List Action}
    (hl : ∀ a ∈ l, a ≠ .enqueue ∧ a ≠ .transmit .data) :
    ∃ accepted, (h.actAll k segment l).2 = .ok accepted := by
  induction l generalizing h with
  | nil => exact ⟨true, rfl⟩
  | cons a rest ih =>
    obtain ⟨ha, hrest⟩ := List.forall_mem_cons.1 hl
    unfold actAll
    split
    · rename_i fault heq
      have hfails : (h.act k segment a).2 = .error fault := by rw [heq]
      exact absurd (act_of_error hfails).2 (not_or.2 ha)
    · rename_i g accepted _
      obtain ⟨others, hothers⟩ := ih g hrest
      split
      · rename_i heq'
        rw [heq'] at hothers
        cases hothers
      · exact ⟨_, rfl⟩

theorem actAll_of_error {p : Phase} {fault : CallFault} (hm : p.move? event facts = some m)
    (he : (h.actAll k segment m.actions).2 = .error fault) :
    (h.actAll k segment m.actions).1 = h ∧ p = .established := by
  -- Only queueing can fail, and an event that queues does nothing else.
  by_cases hq : .enqueue ∈ m.actions
  · obtain ⟨hp, hl⟩ := Phase.actions_of_enqueue hm hq
    rw [hl] at he ⊢
    simp only [actAll] at he ⊢
    split at he
    · rename_i g fault' heq
      have hfails : (h.act k segment .enqueue).2 = .error fault' := by rw [heq]
      have hsame := (act_of_error hfails).1
      rw [heq] at hsame
      exact ⟨hsame, hp⟩
    · cases he
  · have hl : ∀ a ∈ m.actions, a ≠ .enqueue ∧ a ≠ .transmit .data := fun a ha =>
      ⟨fun h => hq (h ▸ ha), fun h => Phase.ne_data_of_transmit hm (h ▸ ha) rfl⟩
    obtain ⟨accepted, hok⟩ := h.actAll_ok k segment hl
    rw [hok] at he
    cases he

theorem apply_of_none (h : Host) (hm : (h.table.phase k).move? event facts = none) :
    h.apply k event segment facts = (h.reap k, .error ((h.table.phase k).refusal event)) := by
  simp [apply, Phase.move, hm]

theorem apply_of_some (h : Host) {g : Host} {accepted : Bool}
    (hm : (h.table.phase k).move? event facts = some m)
    (ha : actAll { h with table := h.table.ensure k } k segment m.actions = (g, .ok accepted)) :
    h.apply k event segment facts =
      (reap { g with table := g.table.adjust k fun c => { c with phase := m.next } } k,
        .ok ⟨m.next, accepted⟩) := by
  simp [apply, Phase.move, hm, ha]

theorem apply_of_error (he : (h.apply k event segment facts).2 = .error failure) :
    (h.apply k event segment facts).1 = h.reap k := by
  unfold apply at he ⊢
  cases hm : (h.table.phase k).move? event facts with
  | none =>
    simp only [Phase.move, hm]
  | some m =>
    simp only [Phase.move, hm] at he ⊢
    split at he
    · rename_i g fault heq
      have hfails : (actAll { h with table := h.table.ensure k } k segment m.actions).2 =
          .error fault := by rw [heq]
      obtain ⟨hsame, hp⟩ := actAll_of_error hm hfails
      rw [heq] at hsame
      obtain rfl : g = { h with table := h.table.ensure k } := hsame
      -- The connection is open, so its entry was not made for the actions.
      cases hc : h.table.get? k with
      | none =>
        rw [Table.phase_of_none hc] at hp
        cases hp
      | some c => simp only [h.table.ensure_of_some hc]
    · cases he

theorem send_of_open (h : Host) (payload : List UInt8) (hp : h.table.phase k = .established)
    (hw : (h.outbox.window k).stopped = false) :
    h.apply k .send (some (.data k payload)) {} = ({ h with
      outbox := h.outbox.put k ((h.outbox.window k).push (.data k payload)) },
        .ok ⟨.established, true⟩) := by
  cases hc : h.table.get? k with
  | none =>
    rw [Table.phase_of_none hc] at hp
    cases hp
  | some c =>
    have hph : c.phase = .established := (Table.phase_of_some hc).symm.trans hp
    have hm : (h.table.phase k).move? .send {} = some ⟨.established, [.enqueue]⟩ := by rw [hp]; rfl
    have ha : actAll { h with table := h.table.ensure k } k (some (.data k payload)) [.enqueue] =
        ({ h with outbox := h.outbox.put k ((h.outbox.window k).push (.data k payload)) },
          .ok true) := by
      rw [h.table.ensure_of_some hc]
      simp only [actAll, act, h.enqueue_of_open (s := .data k payload) (by simp [hw])]
      rfl
    have hsame : ({ c with phase := .established } : Connection) = c := by rw [← hph]
    rw [apply_of_some h hm ha]
    simp only [reap, Table.adjust_of_some hc, hsame, Table.put_of_some hc,
      Table.reap_of_open hc (by simp [hph])]

theorem send_of_refused (h : Host) (payload : List UInt8)
    (hn : ¬(h.table.phase k = .established ∧ (h.outbox.window k).stopped = false)) :
    ∃ f, h.apply k .send (some (.data k payload)) {} = (h.reap k, .error f) := by
  by_cases hp : h.table.phase k = .established
  · have hs : (h.outbox.window k).stopped = true := eq_true_of_ne_false fun hw => hn ⟨hp, hw⟩
    have hm : (h.table.phase k).move? .send {} = some ⟨.established, [.enqueue]⟩ := by rw [hp]; rfl
    have he : Host.enqueue { h with table := h.table.ensure k } (.data k payload) =
        (_, .error .sendingStopped) := enqueue_of_stopped _ ⟨hs, rfl⟩
    have hfails : (h.apply k .send (some (.data k payload)) {}).2 =
        .error (.call .sendingStopped) := by
      simp [apply, Phase.move, hm, actAll, act, he]
    exact ⟨_, Prod.ext (apply_of_error hfails) hfails⟩
  · have hm : (h.table.phase k).move? .send {} = none := by
      cases hph : h.table.phase k <;> simp_all [Phase.move?]
    exact ⟨_, apply_of_none h hm⟩

/-- `h'` is `h`, but for an entry of the connection that was closed already, with all read and
nobody waiting. -/
structure Untouched (k : SocketPair) (h h' : Host) : Prop where
  outbox : h'.outbox = h.outbox
  table : h'.table = h.table ∨ ∃ c, h.table.get? k = some c ∧ c.phase = .closed ∧ c.unread = [] ∧
    c.waiter = none ∧ h'.table = h.table.remove k
  answers : h'.answers = h.answers
  issued : h'.issued = h.issued
  nudged : h'.nudged = h.nudged
  patience : h'.patience = h.patience

theorem untouched_reap (h : Host) (k : SocketPair) : h.Untouched k (h.reap k) where
  outbox := rfl
  table := by
    cases hc : h.table.get? k with
    | none => exact .inl (by simp [reap, Table.reap, hc])
    | some c =>
      cases hi : c.isIdle with
      | false => exact .inl (by simp [reap, Table.reap, hc, hi])
      | true =>
        have hremoved : (h.reap k).table = h.table.remove k := by
          simp [reap, Table.reap, hc, hi]
        simp only [Connection.isIdle, Bool.and_eq_true, decide_eq_true_eq, List.isEmpty_iff,
          Option.isNone_iff_eq_none] at hi
        exact .inr ⟨c, rfl, hi.1.1, hi.1.2, hi.2, hremoved⟩
  answers := rfl
  issued := rfl
  nudged := rfl
  patience := rfl

namespace Untouched

variable {j : SocketPair} {c : Connection} (u : Untouched k h h')

include u

theorem get?_eq (hj : j ≠ k) : h'.table.get? j = h.table.get? j := by
  rcases u.table with ht | ⟨-, -, -, -, -, ht⟩
  · rw [ht]
  · rw [ht, Table.get?_remove_of_ne _ (Ne.symm hj)]

theorem get?_eq_none (hc : h.table.get? j = none) : h'.table.get? j = none := by
  rcases u.table with ht | ⟨c, hk, -, -, -, ht⟩
  · rw [ht, hc]
  · by_cases hj : j = k
    · rw [ht, hj, Table.get?_remove_self]
    · rw [u.get?_eq hj, hc]

theorem get?_of_waiter {ticket : Ticket} (hc : h.table.get? j = some c)
    (hw : c.waiter = some ticket) : h'.table.get? j = some c := by
  rcases u.table with ht | ⟨c', hk, -, -, hnobody, -⟩
  · rw [ht, hc]
  · by_cases hj : j = k
    · rw [hj, hk, Option.some.injEq] at hc
      rw [hc, hw] at hnobody
      cases hnobody
    · rw [u.get?_eq hj, hc]

end Untouched

/-- An event that fails has done nothing, at whatever action it fails: what the host has to send is
as it was, and so are its connections but for an entry that was idle before. In particular no pair
gets an entry or a window, and nobody who waits is told anything. -/
theorem failed_event_leaves (h : Host) (k : SocketPair) (event : Event) (segment : Option Segment)
    (facts : Facts) (failure : Failure) (he : (h.apply k event segment facts).2 = .error failure) :
    h.Untouched k (h.apply k event segment facts).1 ∧
      (∀ j, h.table.get? j = none → (h.apply k event segment facts).1.table.get? j = none) ∧
      (∀ j, h.outbox.windows.get? j = none →
        (h.apply k event segment facts).1.outbox.windows.get? j = none) ∧
      ∀ j c ticket, h.table.get? j = some c → c.waiter = some ticket →
        (h.apply k event segment facts).1.table.get? j = some c := by
  rw [apply_of_error he]
  have hu := h.untouched_reap k
  exact ⟨hu, fun _ => hu.get?_eq_none, fun _ hw => hw, fun _ _ _ => hu.get?_of_waiter⟩

def stoppedPair : SocketPair := ⟨⟨2, 7⟩, ⟨1, 0⟩⟩

def windowStopped : Host :=
  { table := (Table.empty 4).put stoppedPair { phase := .established, waiter := some 0 }
    outbox := (Outbox.empty 4).stop stoppedPair
    patience := 4 }

theorem failed_event_leaves_windowStopped :
    let h' := (windowStopped.apply stoppedPair .send (some (.data stoppedPair [1])) {}).1
    (windowStopped.apply stoppedPair .send (some (.data stoppedPair [1])) {}).2 =
        .error (.call .sendingStopped) ∧
      windowStopped.Untouched stoppedPair h' ∧
      (∀ j, windowStopped.table.get? j = none → h'.table.get? j = none) ∧
      (∀ j, windowStopped.outbox.windows.get? j = none → h'.outbox.windows.get? j = none) ∧
      ∀ j c ticket, windowStopped.table.get? j = some c → c.waiter = some ticket →
        h'.table.get? j = some c :=
  have he : (windowStopped.apply stoppedPair .send (some (.data stoppedPair [1])) {}).2 =
      .error (.call .sendingStopped) := rfl
  ⟨he, failed_event_leaves windowStopped stoppedPair .send (some (.data stoppedPair [1])) {}
    (.call .sendingStopped) he⟩

end Host

end ReliableStream
