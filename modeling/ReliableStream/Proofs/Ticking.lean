import ReliableStream.Proofs.Resending
import ReliableStream.Proofs.SendState

namespace ReliableStream

theorem Phase.timer_actions {p : Phase} {facts : Facts} {m : Move}
    (hm : p.move? .timer facts = some m) :
    ∀ a ∈ m.actions, a = .retransmit ∨ a = .release := by
  unfold move? at hm
  split at hm <;> grind

theorem Table.ext_get? {t t' : Table} (h : ∀ k, t.get? k = t'.get? k)
    (hrest : { t with connections := {} } = { t' with connections := {} }) : t = t' := by
  have hc : t.connections = t'.connections := SortedMap.ext_get? h
  obtain ⟨_, _, _, _⟩ := t
  obtain ⟨_, _, _, _⟩ := t'
  simp only [Table.mk.injEq] at hrest hc ⊢
  exact ⟨hrest.1, hc, hrest.2.2⟩

namespace Host

variable {h : Host} {k : SocketPair} {order windows : List SocketPair}

def rest (h : Host) : Host :=
  { h with
    table := { h.table with connections := {} }
    outbox := { h.outbox with windows := {}, resends := [] } }

theorem rest_reap (h : Host) (k : SocketPair) : (h.reap k).rest = h.rest := by
  unfold reap Table.reap
  split <;> rfl

theorem rest_apply_timer (h : Host) (k : SocketPair) (segment : Option Segment) (facts : Facts) :
    (h.apply k .timer segment facts).1.rest = h.rest := by
  cases hm : (h.table.phase k).move? .timer facts with
  | none =>
    rw [h.apply_of_none hm]
    exact h.rest_reap k
  | some m =>
    have hall : (actAll { h with table := h.table.ensure k } k segment m.actions).1.rest =
        h.rest := by
      refine actAll_induction (R := fun h h' => h'.rest = h.rest) (fun _ => rfl)
        (fun a b => b.trans a) (fun a ha h => ?_) _
      rcases Phase.timer_actions hm a ha with rfl | rfl <;> rfl
    simp only [apply, Phase.move, hm]
    split
    · rename_i heq
      rw [heq] at hall
      exact (rest_reap _ k).trans hall
    · rename_i heq
      rw [heq] at hall
      exact (rest_reap _ k).trans hall

theorem rest_tickOne (h : Host) (k : SocketPair) : (h.tickOne k).rest = h.rest := by
  unfold tickOne
  split
  · rfl
  · exact rest_apply_timer _ k none _

theorem rest_tickIn (h : Host) (order : List SocketPair) : (h.tickIn order).rest = h.rest := by
  induction order generalizing h with
  | nil => rfl
  | cons k rest ih => exact (ih _).trans (h.rest_tickOne k)

end Host

namespace Outbox

theorem replies_resendIn (o : Outbox) (l : List SocketPair) :
    (l.foldl resend o).replies = o.replies := by
  induction l generalizing o with
  | nil => rfl
  | cons k rest ih => exact ih (o.resend k)

theorem replies_releaseIn (o : Outbox) (l : List SocketPair) :
    (l.foldl release o).replies = o.replies := by
  induction l generalizing o with
  | nil => rfl
  | cons k rest ih => exact ih (o.release k)

end Outbox

namespace Side

variable {patience : Nat} {e : Side}

def Expires (patience : Nat) (e : Side) : Prop :=
  e.phase = .closing ∧ patience ≤ e.conn.closingTicks

instance (patience : Nat) (e : Side) : Decidable (e.Expires patience) :=
  inferInstanceAs (Decidable (_ ∧ _))

theorem Sound.ticked (h : e.Sound) (patience : Nat) : ∃ entry, e.ticked patience =
    { (if e.Expires patience then e.released else e.resent) with entry } := by
  -- A connection that is not open has nothing to send, so sending it again does nothing.
  rcases e.ticked_cases patience with
    ⟨hp, ht⟩ | ⟨hp, ht⟩ | ⟨c, hc, hp, ⟨hlt, ht⟩ | ⟨hle, ht⟩⟩ <;> rw [ht]
  · have hx : ¬e.Expires patience := by rcases hp with hp | hp <;> simp [Expires, hp]
    rw [if_neg hx, resent_of_none (h.shut hp).1]
    exact ⟨_, rfl⟩
  · have hx : ¬e.Expires patience := by rcases hp with hp | (hp | hp) | hp <;> simp [Expires, hp]
    rw [if_neg hx]
    exact ⟨_, rfl⟩
  · have hx : ¬e.Expires patience := by simp [Expires, conn_of_entry hc, hlt]
    rw [if_neg hx]
    exact ⟨_, rfl⟩
  · have hx : e.Expires patience := ⟨(phase_of_entry hc).trans hp, by rwa [conn_of_entry hc]⟩
    rw [if_pos hx]
    exact ⟨_, rfl⟩

variable (t : Table) (o : Outbox) (k : SocketPair)

theorem of_releaseIn (l : List SocketPair) : of t (l.foldl Outbox.release o) k =
    if k ∈ l then (of t o k).released else of t o k := by
  induction l generalizing o with
  | nil => rfl
  | cons j rest ih =>
    rw [List.foldl_cons, ih]
    by_cases hj : j = k
    · subst hj
      rw [of_release, if_pos List.mem_cons_self]
      split <;> rfl
    · simp [of_release_of_ne t o hj, Ne.symm hj]

end Side

namespace Host

open Side

variable {h : Host} {k : SocketPair} {order windows : List SocketPair}

def expiring (h : Host) : List SocketPair :=
  h.table.connections.keys.filter fun k => (h.side k).Expires h.patience

def surviving (h : Host) : Outbox := h.expiring.foldl Outbox.release h.outbox

theorem mem_expiring : k ∈ h.expiring ↔ (h.side k).Expires h.patience := by
  rw [expiring, List.mem_filter, decide_eq_true_iff, and_iff_right_iff_imp]
  intro hx
  obtain ⟨c, hc, -⟩ := exists_entry (e := h.side k) (by simp [hx.1])
  exact SortedMap.mem_keys_iff.2 ⟨c, hc⟩

theorem filed_surviving (hf : h.outbox.Filed) : h.surviving.Filed :=
  List.foldlRecOn h.expiring Outbox.release hf fun _ ho k _ => ho.release k

theorem of_surviving (h : Host) (k : SocketPair) : of h.table h.surviving k =
    if (h.side k).Expires h.patience then (h.side k).released else h.side k := by
  rw [surviving, of_releaseIn]
  simp only [mem_expiring]
  rfl

theorem of_surviving_resendIn (hf : h.outbox.Filed)
    (hw : windows.Perm h.surviving.windows.keys) (k : SocketPair) :
    of h.table (windows.foldl Outbox.resend h.surviving) k =
      if (h.side k).Expires h.patience then (h.side k).released else (h.side k).resent := by
  have hall : of h.table (windows.foldl Outbox.resend h.surviving) k =
      (of h.table h.surviving k).resent :=
    of_resendIn_all h.table (filed_surviving hf) fun w hget =>
      hw.mem_iff.2 (SortedMap.mem_keys_iff.2 ⟨w, hget⟩)
  rw [hall, of_surviving]
  split
  · exact resent_of_none rfl
  · rfl

/-- A tick that visits the connections in this order comes to the same as `o`: in its windows, in the
replies, and in what it sends again for each connection. -/
structure TicksTo (h : Host) (order : List SocketPair) (o : Outbox) : Prop where
  table : (h.tickIn order).table = h.tick.table
  windows : (h.tickIn order).outbox.windows = o.windows
  replies : (h.tickIn order).outbox.replies = o.replies
  resends : ∀ k, (h.tickIn order).outbox.resends.filter (fun s => s.senderPair = k) =
    o.resends.filter (fun s => s.senderPair = k)
  scheduled : ∀ s, s ∈ (h.tickIn order).outbox.resends ↔
    (s.senderPair ∉ h.expiring ∧ s ∈ h.outbox.resends) ∨
      ∃ k i, k ∉ h.expiring ∧ (h.outbox.window k).unacked.get? i = some s

theorem ticksTo (hf : h.Filed) (hs : ∀ k, (h.side k).Sound)
    (ho : order.Perm h.table.connections.keys) (hw : windows.Perm h.surviving.windows.keys) :
    h.TicksTo order (windows.foldl Outbox.resend h.surviving) := by
  have hside k := h.tickIn_perm_side hf ho k
  have houtbox (k : SocketPair) : ∃ entry, (h.tickIn order).side k =
      { of h.table (windows.foldl Outbox.resend h.surviving) k with entry } := by
    rw [hside, of_surviving_resendIn hf.outbox hw]
    exact (hs k).ticked h.patience
  constructor
  case table =>
    refine Table.ext_get? (fun k => congrArg Side.entry ((hside k).trans (h.tick_side hf k).symm)) ?_
    exact congrArg Host.table ((h.rest_tickIn order).trans (h.rest_tickIn _).symm)
  case windows =>
    refine SortedMap.ext_get? fun k => ?_
    obtain ⟨_, hk⟩ := houtbox k
    exact congrArg Side.window hk
  case replies =>
    rw [Outbox.replies_resendIn, surviving, Outbox.replies_releaseIn]
    exact congrArg (fun g => g.outbox.replies) (h.rest_tickIn order)
  case resends =>
    intro k
    obtain ⟨_, hk⟩ := houtbox k
    exact congrArg Side.resends hk
  case scheduled =>
    intro s
    obtain ⟨_, hk⟩ := (hs s.senderPair).ticked h.patience
    have hmem : s ∈ (h.tickIn order).outbox.resends ↔
        s ∈ ((h.tickIn order).side s.senderPair).resends := by simp [side, of]
    have hown (k : SocketPair) (i : SequenceNumber)
        (hi : (h.outbox.window k).unacked.get? i = some s) : s.senderPair = k :=
      (hf.outbox.window k).2 i s hi
    rw [hmem, hside, hk]
    by_cases hx : (h.side s.senderPair).Expires h.patience
    · rw [if_pos hx]
      refine iff_of_false (by simp [released]) ?_
      rintro (⟨hn, -⟩ | ⟨k, i, hn, hi⟩)
      · exact hn (mem_expiring.2 hx)
      · exact hn (mem_expiring.2 (hown k i hi ▸ hx))
    · rw [if_neg hx]
      have hn : s.senderPair ∉ h.expiring := mt mem_expiring.1 hx
      simp only [resent, Outbox.mem_addMissing]
      refine or_congr (by simp [hn, side, of]) ?_
      rw [SortedMap.mem_values_iff]
      constructor
      · rintro ⟨i, hi⟩
        exact ⟨_, i, hn, hi⟩
      · rintro ⟨k, i, -, hi⟩
        exact ⟨i, hown k i hi ▸ hi⟩

end Host

namespace Station

/-- In every run, a tick comes to the same in whatever order it visits the connections, and in
whatever order the windows are gone through that are left when the connections that expire are
forgotten. -/
theorem tick_any_order (address : HostId) (recvWindow sendWindow patience : Nat) (ops : List Op)
    (order windows : List SocketPair)
    (ho : order.Perm
      ((fresh address recvWindow sendWindow patience).run ops).host.table.connections.keys)
    (hw : windows.Perm
      ((fresh address recvWindow sendWindow patience).run ops).host.surviving.windows.keys) :
    ((fresh address recvWindow sendWindow patience).run ops).host.TicksTo order
      (windows.foldl Outbox.resend
        ((fresh address recvWindow sendWindow patience).run ops).host.surviving) :=
  have h := (orderly_fresh address recvWindow sendWindow patience).run ops
  Host.ticksTo h.filed h.sound ho hw

def partings : List Op :=
  [.call (.connect 2 7), .call (.connect 3 7), .poll,
    .receive (.control ⟨⟨1, 0⟩, ⟨2, 7⟩⟩ .synAck), .receive (.control ⟨⟨1, 1⟩, ⟨3, 7⟩⟩ .synAck),
    .call (.close ⟨⟨2, 7⟩, ⟨1, 0⟩⟩), .call (.write ⟨⟨3, 7⟩, ⟨1, 1⟩⟩ [104]), .poll]

theorem tick_any_order_partings :
    [⟨⟨3, 7⟩, ⟨1, 1⟩⟩, ⟨⟨2, 7⟩, ⟨1, 0⟩⟩].Perm
        ((fresh 1 4 4 0).run partings).host.table.connections.keys ∧
      [⟨⟨3, 7⟩, ⟨1, 1⟩⟩].Perm ((fresh 1 4 4 0).run partings).host.surviving.windows.keys ∧
      ((fresh 1 4 4 0).run partings).host.TicksTo [⟨⟨3, 7⟩, ⟨1, 1⟩⟩, ⟨⟨2, 7⟩, ⟨1, 0⟩⟩]
        ([⟨⟨3, 7⟩, ⟨1, 1⟩⟩].foldl Outbox.resend
          ((fresh 1 4 4 0).run partings).host.surviving) := by
  have ho : [⟨⟨3, 7⟩, ⟨1, 1⟩⟩, ⟨⟨2, 7⟩, ⟨1, 0⟩⟩].Perm
      ((fresh 1 4 4 0).run partings).host.table.connections.keys := by decide +kernel
  have hw : [⟨⟨3, 7⟩, ⟨1, 1⟩⟩].Perm
      ((fresh 1 4 4 0).run partings).host.surviving.windows.keys := by decide +kernel
  exact ⟨ho, hw, tick_any_order 1 4 4 0 partings _ _ ho hw⟩

end Station

end ReliableStream
