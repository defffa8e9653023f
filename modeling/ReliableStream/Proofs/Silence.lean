import Mathlib.Algebra.GroupWithZero.Nat
import ReliableStream.Proofs.Accepts
import ReliableStream.Proofs.Completion

/-!
Without ticks and calls a network falls silent. Each segment costs what its arrival may call for: a
segment that is no reply calls for one reply, a reply for none. Only a connection that has sent its
STP queues more, its FIN, and it does so once.
-/

namespace ReliableStream

open Side

namespace SortedMap

variable {κ α : Type} [Ranked κ]

def total (m : SortedMap κ α) (f : α → Nat) : Nat := (m.values.map f).sum

theorem total_eq_add_erase (m : SortedMap κ α) (k : κ) (f : α → Nat) :
    m.total f = (m.get? k).elim 0 f + (m.erase k).total f := by
  have key (l : List (κ × α)) (hl : Ascending l) : ((l.map Prod.snd).map f).sum =
      (find k l).elim 0 f +
        (((l.filter fun e => Ranked.rank e.1 ≠ Ranked.rank k).map Prod.snd).map f).sum := by
    induction l with
    | nil => rfl
    | cons e rest ih =>
      obtain ⟨hlt, hrest⟩ := List.pairwise_cons.1 hl
      by_cases hk : Ranked.rank e.1 = Ranked.rank k
      · -- All other keys are greater.
        have hne : ∀ e' ∈ rest, Ranked.rank e'.1 ≠ Ranked.rank k :=
          fun e' he' => hk ▸ Nat.ne_of_gt (hlt e' he')
        have hall : rest.filter (fun e => Ranked.rank e.1 ≠ Ranked.rank k) = rest :=
          List.filter_eq_self.2 fun e' he' => by simpa using hne e' he'
        rw [List.filter_cons_of_neg (by simpa using hk), hall]
        simp [find, hk]
      · rw [List.filter_cons_of_pos (by simpa using hk)]
        simp only [List.map_cons, List.sum_cons, ih hrest, find, hk, if_false]
        omega
  exact key m.entries m.ascending

theorem total_congr {m m' : SortedMap κ α} {k : κ} (f : α → Nat)
    (h : ∀ j, k ≠ j → m'.get? j = m.get? j) :
    m'.total f + (m.get? k).elim 0 f = m.total f + (m'.get? k).elim 0 f := by
  have herase : m'.erase k = m.erase k := by
    apply ext_get?
    intro j
    by_cases hj : k = j
    · subst hj
      simp
    · rw [get?_erase_of_ne _ hj, get?_erase_of_ne _ hj, h j hj]
  rw [m'.total_eq_add_erase k f, m.total_eq_add_erase k f, herase]
  omega

theorem total_mapValues {β : Type} (m : SortedMap κ α) (g : α → β) (f : β → Nat) :
    (m.mapValues g).total f = m.total fun v => f (g v) := by
  simp [total, values, mapValues, Function.comp_def]

theorem total_add (m : SortedMap κ α) (f g : α → Nat) :
    m.total f + m.total g = m.total fun v => f v + g v := by
  unfold total
  induction m.values with
  | nil => rfl
  | cons v rest ih =>
    simp only [List.map_cons, List.sum_cons] at ih ⊢
    omega

end SortedMap

namespace Host

structure Local (k : SocketPair) (h h' : Host) : Prop where
  entries : ∀ j, k ≠ j → h'.table.get? j = h.table.get? j
  windows : ∀ j, k ≠ j → h'.outbox.windows.get? j = h.outbox.windows.get? j
  replies : ∃ l, h'.outbox.replies = h.outbox.replies ++ l ∧ ∀ x ∈ l, x.senderPair = k
  resends : h'.outbox.resends.Sublist h.outbox.resends

namespace Local

variable {k : SocketPair} {h h' h'' : Host}

theorem of_table {t : Table} (ht : ∀ j, k ≠ j → t.get? j = h.table.get? j) :
    Local k h { h with table := t } :=
  ⟨ht, fun _ _ => rfl, ⟨[], by simp, by simp⟩, .refl _⟩

theorem of_windows {o : Outbox}
    (hw : ∀ j, k ≠ j → o.windows.get? j = h.outbox.windows.get? j)
    (hr : o.replies = h.outbox.replies) (hs : o.resends.Sublist h.outbox.resends) :
    Local k h { h with outbox := o } :=
  ⟨fun _ _ => rfl, hw, ⟨[], by simp [hr], by simp⟩, hs⟩

theorem of_same (ht : h'.table = h.table) (ho : h'.outbox = h.outbox) : Local k h h' :=
  ⟨fun _ _ => by rw [ht], fun _ _ => by rw [ho], ⟨[], by simp [ho], by simp⟩, ho ▸ .refl _⟩

theorem trans (a : Local k h h') (b : Local k h' h'') : Local k h h'' where
  entries j hj := (b.entries j hj).trans (a.entries j hj)
  windows j hj := (b.windows j hj).trans (a.windows j hj)
  replies := by
    obtain ⟨l, hl, hlk⟩ := a.replies
    obtain ⟨m, hm, hmk⟩ := b.replies
    refine ⟨l ++ m, by rw [hm, hl, List.append_assoc], fun x hx => ?_⟩
    exact (List.mem_append.1 hx).elim (hlk x) (hmk x)
  resends := b.resends.trans a.resends

theorem reply {s : Segment} (hs : s.senderPair = k) :
    Local k h { h with outbox := h.outbox.reply s } :=
  ⟨fun _ _ => rfl, fun _ _ => rfl, ⟨[s], rfl, by simpa using hs⟩, .refl _⟩

end Local

theorem Touches.local {k : SocketPair} {timer : Prop} {h h' : Host} (t : Touches k timer h h')
    (ht : ¬timer) : Local k h h' := by
  induction t with
  | refl => exact .of_same rfl rfl
  | trans _ _ ih ih' => exact ih.trans ih'
  | put h c => exact .of_table fun _ hj => Table.get?_put_of_ne _ c hj
  | adjust h f => exact .of_table fun _ hj => Table.get?_adjust_of_ne _ f hj
  | remove => exact .of_table fun _ hj => Table.get?_remove_of_ne _ hj
  | knock => exact .of_table fun _ _ => rfl
  | reply _ hs => exact .reply hs
  | push => exact .of_windows (fun _ hj => Outbox.windows_put_of_ne _ _ hj) rfl (.refl _)
  | acknowledge =>
    exact .of_windows (fun _ hj => Outbox.windows_acknowledge_of_ne _ _ hj) rfl (.refl _)
  | stop => exact .of_windows (fun _ hj => Outbox.windows_put_of_ne _ _ hj) rfl (.refl _)
  | release =>
    exact .of_windows (fun _ hj => Outbox.windows_release_of_ne _ hj) rfl List.filter_sublist
  | resend _ h => exact absurd h ht
  | aside ht ho => exact .of_same ht ho

theorem local_receive (h : Host) (s : Segment) : Local s.receiverPair h (h.receive s) :=
  (h.touches_receive s).local id

end Host

namespace Side

variable {room : Nat} {k : SocketPair} {s : Segment} {kind : Kind} {e e' : Side}

theorem Hears.replies (h : Hears room k s kind e e') :
    ∃ l, e'.replies = e.replies ++ l ∧ l.length ≤ (!kind.isReply).toNat ∧
      ∀ x ∈ l, x.isReply = true := by
  have none (hr : e'.replies = e.replies) : ∃ l, e'.replies = e.replies ++ l ∧
      l.length ≤ (!kind.isReply).toNat ∧ ∀ x ∈ l, x.isReply = true :=
    ⟨[], by simp [hr], Nat.zero_le _, by simp⟩
  have one {kind' : Kind} (hr : e'.replies = e.replies ++ [s.answer kind'])
      (hk : kind.isReply = false) (hk' : kind'.isReply = true) :
      ∃ l, e'.replies = e.replies ++ l ∧ l.length ≤ (!kind.isReply).toNat ∧
        ∀ x ∈ l, x.isReply = true :=
    ⟨[s.answer kind'], hr, by simp [hk], by simpa [isReply_answer] using hk'⟩
  cases h with
  | noted | opened | drained | ended | knocked | strange | early | collided | full | repeated |
    misplaced => exact none rfl
  | strangeFin | finished | finishedAgain => exact one rfl rfl rfl
  | kept | halted | crossed => exact one rfl rfl rfl
  | greeted => exact one rfl rfl rfl
  | discarded _ _ hp => exact one rfl (by rcases hp with ⟨rfl, -⟩ | ⟨rfl, -⟩ <;> rfl) rfl
  | @stale _ _ c hk =>
    obtain hnone | ⟨kind', ha⟩ := Option.eq_none_or_eq_some (c.phase.again kind)
    · exact none (by simp [hnone])
    · exact one (by simp [ha]) hk (isReply_again ha)

theorem Hears.load (h : Hears room k s kind e e') :
    e'.win.pending.length ≤ e.win.pending.length ∧ (e'.phase = .stopSent → e.phase = .stopSent) ∨
      e'.win.pending.length = e.win.pending.length + 1 ∧ e.phase = .stopSent ∧
        e'.phase = .closing := by
  cases h with
  | noted => exact .inl ⟨by simp, fun hp => (phase_swept _).symm.trans hp⟩
  | drained hc hp => exact .inr ⟨by simp, (phase_of_entry hc).trans hp, rfl⟩
  | crossed hc hp => exact .inr ⟨by simp, (phase_of_entry hc).trans hp, rfl⟩
  | opened | knocked => exact .inl ⟨by simp, by simp⟩
  | halted => exact .inl ⟨Nat.le_refl _, by simp⟩
  | ended | collided => exact .inl ⟨by simp, by simp [phase, forgotten]⟩
  | strange | strangeFin | stale | early | full => exact .inl ⟨Nat.le_refl _, id⟩
  | kept hc | discarded hc | greeted hc | repeated hc =>
    exact .inl ⟨Nat.le_refl _, fun hp => (phase_of_entry hc).trans hp⟩
  | finished => exact .inl ⟨Nat.zero_le _, by simp⟩
  | finishedAgain hc =>
    exact .inl ⟨Nat.le_refl _, fun hp => (phase_of_entry hc).trans ((phase_swept _).symm.trans hp)⟩
  | misplaced => exact .inl ⟨Nat.le_refl _, fun hp => (phase_swept _).symm.trans hp⟩

end Side

/-! ## What a segment costs -/

/-- What it counts that a connection has stopped sending and that a segment is pending, in another
queue of a host, or on the wire. The last two depend on whether it is a reply. -/
structure Tariff where
  stopSent : Nat
  pending : Nat
  queued : Bool → Nat
  carried : Bool → Nat

/-- Sending a segment costs `fare`, and its arrival pays for what it calls for. -/
structure Tariff.Fair (t : Tariff) (fare : Nat) : Prop where
  queued : ∀ b, t.carried b + fare ≤ t.queued b
  pending : ∀ b, t.carried b + fare ≤ t.pending
  stopSent : t.pending ≤ t.stopSent
  reply : 1 ≤ t.carried true
  tracked : 1 + t.queued true ≤ t.carried false

theorem Tariff.Fair.carried_pos {t : Tariff} {fare : Nat} (h : t.Fair fare) (b : Bool) :
    1 ≤ t.carried b := by
  cases b with
  | false => exact Nat.le_trans (Nat.le_add_right _ _) h.tracked
  | true => exact h.reply

/-- Every delivery costs one, and what a delivery may call for is paid in advance. -/
def deliveryTariff : Tariff where
  stopSent := 4
  pending := 3
  queued b := if b then 1 else 2
  carried b := if b then 1 else 2

theorem deliveryTariff_fair : deliveryTariff.Fair 0 := by constructor <;> decide

def stirringTariff : Tariff where
  stopSent := 4
  pending := 4
  queued b := if b then 2 else 4
  carried b := if b then 1 else 3

theorem stirringTariff_fair : stirringTariff.Fair 1 := by constructor <;> decide

def charge (f : Bool → Nat) (l : List Segment) : Nat := (l.map fun s => f s.isReply).sum

theorem charge_append (f : Bool → Nat) (l m : List Segment) :
    charge f (l ++ m) = charge f l + charge f m := by
  simp [charge]

theorem charge_sublist {f : Bool → Nat} {l m : List Segment} (h : l.Sublist m) :
    charge f l ≤ charge f m := by
  induction h with
  | slnil => exact Nat.le_refl _
  | cons s _ ih => exact Nat.le_trans ih (Nat.le_add_left _ _)
  | cons_cons s _ ih => exact Nat.add_le_add_left ih _

theorem charge_replies {f : Bool → Nat} {l : List Segment} (h : ∀ s ∈ l, s.isReply = true) :
    charge f l = l.length * f true := by
  induction l with
  | nil => simp [charge]
  | cons s rest ih =>
    obtain ⟨hs, hrest⟩ := List.forall_mem_cons.1 h
    have hcons : charge f (s :: rest) = f true + charge f rest := by simp [charge, hs]
    rw [hcons, ih hrest, List.length_cons, Nat.succ_mul, Nat.add_comm]

theorem charge_const (n : Nat) (l : List Segment) : charge (fun _ => n) l = l.length * n := by
  induction l with
  | nil => simp [charge]
  | cons s rest ih =>
    have hcons : charge (fun _ => n) (s :: rest) = n + charge (fun _ => n) rest := by simp [charge]
    rw [hcons, ih, List.length_cons, Nat.succ_mul, Nat.add_comm]

theorem charge_le_of_fare {f g : Bool → Nat} {fare : Nat} (h : ∀ b, f b + fare ≤ g b)
    (l : List Segment) : charge f l + fare * l.length ≤ charge g l := by
  induction l with
  | nil => simp [charge]
  | cons s rest ih =>
    have hs := h s.isReply
    simp only [charge, List.map_cons, List.sum_cons, List.length_cons, Nat.mul_succ] at ih ⊢
    omega

def Frame.unanswered (f : Frame) : Bool :=
  match Segment.ofFrame f with
  | .ok s => s.isReply
  | .error _ => true

namespace Host

def stopSent (h : Host) : Nat :=
  h.table.connections.total fun c => if c.phase = .stopSent then 1 else 0

def pending (h : Host) : Nat := h.outbox.windows.total fun w => w.pending.length

def cost (h : Host) (t : Tariff) : Nat :=
  t.stopSent * h.stopSent + t.pending * h.pending +
    charge t.queued (h.outbox.replies ++ h.outbox.resends)

theorem receive_replies (h : Host) (s : Segment) : ∃ l,
    (h.receive s).outbox.replies = h.outbox.replies ++ l ∧ l.length ≤ (!s.isReply).toNat ∧
      ∀ x ∈ l, x.isReply = true := by
  obtain ⟨l, hl, hlk⟩ := (h.local_receive s).replies
  refine ⟨l, hl, ?_⟩
  cases hk : s.kind? with
  | none =>
    have hsame : h.receive s = h := by simp [receive, hk]
    rw [hsame, List.self_eq_append_right] at hl
    simp [hl]
  | some kind =>
    have hside : h.receive s = h.receiveKind s kind := by simp [receive, hk]
    obtain ⟨m, hm, hmlen, hmr⟩ := (h.receiveKind_side s kind).replies
    have hfilter : (h.receive s).outbox.replies.filter (fun x => x.senderPair = s.receiverPair) =
        h.outbox.replies.filter (fun x => x.senderPair = s.receiverPair) ++ l := by
      have hall : l.filter (fun x => x.senderPair = s.receiverPair) = l :=
        List.filter_eq_self.2 fun x hx => by simpa using hlk x hx
      rw [hl, List.filter_append, hall]
    rw [hside] at hfilter
    obtain rfl : l = m := List.append_cancel_left (hfilter.symm.trans hm)
    exact ⟨by simpa [Segment.isReply, hk] using hmlen, hmr⟩

theorem Local.pending_eq {k : SocketPair} {h h' : Host} (l : Local k h h') :
    h'.pending + (h.side k).win.pending.length = h.pending + (h'.side k).win.pending.length := by
  have hwin (g : Host) : (g.outbox.windows.get? k).elim 0 (fun w => w.pending.length) =
      (g.side k).win.pending.length := by
    rw [win, show (g.side k).window = g.outbox.windows.get? k from rfl]
    cases g.outbox.windows.get? k <;> rfl
  have htotal := SortedMap.total_congr (fun w => w.pending.length) l.windows
  rwa [hwin, hwin] at htotal

theorem Local.stopSent_eq {k : SocketPair} {h h' : Host} (l : Local k h h') :
    h'.stopSent + (if (h.side k).phase = .stopSent then 1 else 0) =
      h.stopSent + (if (h'.side k).phase = .stopSent then 1 else 0) := by
  have hphase (g : Host) : (g.table.connections.get? k).elim 0
      (fun c => if c.phase = .stopSent then 1 else 0) =
      if (g.side k).phase = .stopSent then 1 else 0 := by
    rw [phase, show (g.side k).entry = g.table.connections.get? k from rfl]
    cases g.table.connections.get? k <;> rfl
  have htotal := SortedMap.total_congr
    (fun c : Connection => if c.phase = .stopSent then 1 else 0) l.entries
  rwa [hphase, hphase] at htotal

theorem receive_load (h : Host) (s : Segment) :
    (h.receive s).pending ≤ h.pending ∧ (h.receive s).stopSent ≤ h.stopSent ∨
      (h.receive s).pending = h.pending + 1 ∧ (h.receive s).stopSent + 1 = h.stopSent := by
  cases hk : s.kind? with
  | none => simp [receive, hk]
  | some kind =>
    have hload := (h.receiveKind_side s kind).load
    rw [show h.receiveKind s kind = h.receive s by simp [receive, hk]] at hload
    have hp := (h.local_receive s).pending_eq
    have hs := (h.local_receive s).stopSent_eq
    rcases hload with ⟨hle, himp⟩ | ⟨heq, hbefore, hafter⟩
    · refine .inl ⟨by omega, ?_⟩
      by_cases hph : ((h.receive s).side s.receiverPair).phase = .stopSent
      · rw [if_pos hph, if_pos (himp hph)] at hs
        omega
      · rw [if_neg hph] at hs
        omega
    · rw [if_pos hbefore, hafter, if_neg (by decide)] at hs
      exact .inr ⟨by omega, hs⟩

theorem cost_receive {t : Tariff} {fare : Nat} (ht : t.Fair fare) (h : Host) (s : Segment) :
    (h.receive s).cost t + 1 ≤ h.cost t + t.carried s.isReply := by
  obtain ⟨l, hl, hlen, hlr⟩ := h.receive_replies s
  have hresends := charge_sublist (f := t.queued) (h.local_receive s).resends
  have hnew : charge t.queued l + 1 ≤ t.carried s.isReply := by
    have hreply := ht.reply
    have htracked := ht.tracked
    have hmul := Nat.mul_le_mul_right (t.queued true) hlen
    rw [charge_replies hlr]
    cases hs : s.isReply with
    | true =>
      rw [hs, Bool.not_true, Bool.toNat_false, Nat.zero_mul] at hmul
      omega
    | false =>
      rw [hs, Bool.not_false, Bool.toNat_true, Nat.one_mul] at hmul
      omega
  have hload : t.stopSent * (h.receive s).stopSent + t.pending * (h.receive s).pending ≤
      t.stopSent * h.stopSent + t.pending * h.pending := by
    rcases h.receive_load s with ⟨hp, hs⟩ | ⟨hp, hs⟩
    · exact Nat.add_le_add (Nat.mul_le_mul_left _ hs) (Nat.mul_le_mul_left _ hp)
    · -- The FIN that is queued is paid for by the connection that leaves its phase.
      have hstop := ht.stopSent
      rw [hp, ← hs, Nat.mul_succ, Nat.mul_succ]
      omega
  simp only [cost, charge_append] at hload ⊢
  rw [hl, charge_append]
  omega

def strays (h : Host) : Nat := h.outbox.replies.countP fun s => !s.isReply

def owed (h : Host) : Nat := h.outbox.replies.countP Segment.isReply

theorem charge_replies_delivery (h : Host) :
    charge deliveryTariff.queued h.outbox.replies = 2 * h.strays + h.owed := by
  unfold strays owed
  induction h.outbox.replies with
  | nil => rfl
  | cons s rest ih =>
    simp only [charge, List.map_cons, List.sum_cons, List.countP_cons] at ih ⊢
    cases hs : s.isReply <;> simp [deliveryTariff] at ih ⊢ <;> omega

theorem cost_delivery (h : Host) : h.cost deliveryTariff ≤
    4 * h.stopSent + 3 * h.pending + 2 * (h.outbox.resends.length + h.strays) + h.owed := by
  have hreplies := h.charge_replies_delivery
  have hresends : charge deliveryTariff.queued h.outbox.resends + 0 * h.outbox.resends.length ≤
      charge (fun _ => 2) h.outbox.resends := charge_le_of_fare (by decide) _
  rw [charge_const] at hresends
  simp only [cost, charge_append]
  show 4 * _ + 3 * _ + _ ≤ _
  omega

theorem cost_stirring (h : Host) : h.cost stirringTariff ≤
    4 * (h.stopSent + h.pending + h.outbox.resends.length + h.outbox.replies.length) := by
  have hqueues : charge stirringTariff.queued (h.outbox.replies ++ h.outbox.resends) +
      0 * (h.outbox.replies ++ h.outbox.resends).length ≤
      charge (fun _ => 4) (h.outbox.replies ++ h.outbox.resends) := charge_le_of_fare (by decide) _
  rw [charge_const, List.length_append] at hqueues
  simp only [cost]
  show 4 * _ + 4 * _ + _ ≤ _
  omega

theorem pending_poll (h : Host) : h.poll.1.pending +
    (h.outbox.windows.values.flatMap (Window.admitted h.outbox.limit)).length = h.pending := by
  rw [pending, show h.poll.1.outbox.windows = h.outbox.windows.mapValues
    (Window.advance h.outbox.limit) from rfl, SortedMap.total_mapValues, List.length_flatMap,
    ← SortedMap.total, SortedMap.total_add, pending]
  refine congrArg (SortedMap.total _) (funext fun w => ?_)
  rw [← Window.admitted_append h.outbox.limit w, List.length_append, Nat.add_comm]

theorem cost_poll {t : Tariff} {fare : Nat} (ht : t.Fair fare) (h : Host) :
    h.poll.1.cost t + (charge t.carried h.outbox.outgoing +
      fare * h.outbox.outgoing.length) ≤ h.cost t := by
  -- What is queued or pending has paid for being carried and for the fare.
  have hqueues := charge_le_of_fare ht.queued (h.outbox.replies ++ h.outbox.resends)
  have hadmitted := charge_le_of_fare (f := t.carried) (g := fun _ => t.pending) ht.pending
    (h.outbox.windows.values.flatMap (Window.admitted h.outbox.limit))
  have hpoll : h.poll.1.cost t = t.stopSent * h.stopSent + t.pending * h.poll.1.pending := rfl
  rw [charge_const, Nat.mul_comm _ t.pending] at hadmitted
  rw [hpoll, cost, ← h.pending_poll, Nat.mul_add, Outbox.outgoing, charge_append,
    List.length_append, Nat.mul_add]
  omega

theorem cost_receiveFrame {t : Tariff} {fare : Nat} (ht : t.Fair fare) (h : Host) (f : Frame) :
    (h.receiveFrame f).cost t + 1 ≤ h.cost t + t.carried f.unanswered := by
  unfold receiveFrame Frame.unanswered
  cases Segment.ofFrame f with
  | error fault => exact Nat.add_le_add_left ht.reply _
  | ok s => exact h.cost_receive ht s

end Host

/-! ## The wire -/

theorem sum_map_set {α : Type} {l : List α} {i : Nat} {a : α} (h : l[i]? = some a) (b : α)
    (f : α → Nat) : ((l.set i b).map f).sum + f a = (l.map f).sum + f b := by
  induction l generalizing i with
  | nil => simp at h
  | cons x rest ih =>
    cases i with
    | zero =>
      simp only [List.getElem?_cons_zero, Option.some.injEq] at h
      simp only [List.set_cons_zero, List.map_cons, List.sum_cons, h]
      omega
    | succ i =>
      have hrest := ih h
      simp only [List.set_cons_succ, List.map_cons, List.sum_cons]
      omega

theorem sum_map_eraseIdx {α : Type} {l : List α} {i : Nat} {a : α} (h : l[i]? = some a)
    (f : α → Nat) : ((l.eraseIdx i).map f).sum + f a = (l.map f).sum := by
  induction l generalizing i with
  | nil => simp at h
  | cons x rest ih =>
    cases i with
    | zero =>
      simp only [List.getElem?_cons_zero, Option.some.injEq] at h
      simp only [List.eraseIdx_cons_zero, List.map_cons, List.sum_cons, h]
      omega
    | succ i =>
      have hrest := ih h
      simp only [List.eraseIdx_cons_succ, List.map_cons, List.sum_cons]
      omega

namespace Network

def cost (n : Network) (t : Tariff) : Nat :=
  (n.stations.map fun s => s.host.cost t).sum + (n.wire.map fun f => t.carried f.unanswered).sum

theorem cost_made (f : Bool → Nat) (l : List Segment) :
    ((made (frames l)).map fun g => f g.unanswered).sum ≤ charge f l := by
  have key (l : List Segment) : ((made (l.map Segment.toFrame)).map fun g => f g.unanswered).sum ≤
      charge f l := by
    induction l with
    | nil => exact Nat.zero_le _
    | cons s rest ih =>
      have hcons : charge f (s :: rest) = f s.isReply + charge f rest := rfl
      cases hs : s.toFrame with
      | error fault =>
        simp only [made, List.map_cons, hs, List.filterMap_cons, Except.toOption] at ih ⊢
        omega
      | ok g =>
        have hg : g.unanswered = s.isReply := by
          rw [Frame.unanswered, Segment.ofFrame_toFrame hs]
        simp only [made, List.map_cons, hs, List.filterMap_cons, Except.toOption, List.sum_cons,
          hg] at ih ⊢
        omega
  rw [frames]
  refine Nat.le_trans (key _) (Nat.le_of_eq ?_)
  exact ((inSendingOrder_perm l).map _).sum_nat

variable {t : Tariff} {fare : Nat} {n : Network} {i : Nat}

theorem cost_set (t : Tariff) {s : Station} (hs : n.stations[i]? = some s) (s' : Station)
    (wire : List Frame) :
    cost ⟨n.stations.set i s', wire⟩ t + s.host.cost t =
      (n.stations.map fun s => s.host.cost t).sum + s'.host.cost t +
        (wire.map fun f => t.carried f.unanswered).sum := by
  have hset := sum_map_set hs s' fun s => s.host.cost t
  simp only [cost]
  omega

theorem cost_flush (ht : t.Fair fare) {s : Station} (hs : n.stations[i]? = some s) :
    (n.flush i).1.cost t + fare * s.host.outbox.outgoing.length ≤ n.cost t := by
  have hpoll := s.host.cost_poll ht
  have hmade := cost_made t.carried s.host.outbox.outgoing
  have hset := cost_set t hs s.poll.1 (n.wire ++ made (frames s.host.outbox.outgoing))
  have hflush : (n.flush i).1 =
      ⟨n.stations.set i s.poll.1, n.wire ++ made (frames s.host.outbox.outgoing)⟩ := by
    simp only [flush, hs]
    rfl
  rw [hflush]
  simp only [cost, List.map_append, List.sum_append_nat] at hset ⊢
  rw [show s.poll.1.host = s.host.poll.1 from rfl] at hset
  omega

theorem cost_hand (ht : t.Fair fare) (f : Frame) :
    (n.hand f).cost t + 1 ≤ n.cost t + t.carried f.unanswered := by
  unfold hand
  split
  · exact Nat.add_le_add_left (ht.carried_pos _) _
  · rename_i i hi
    obtain ⟨s, hs, -⟩ := Acts.station hi
    have hset := cost_set t hs (s.receiveFrame f) n.wire
    have hreceive := s.host.cost_receiveFrame ht f
    rw [show n.adjust i (·.receiveFrame f) = ⟨n.stations.set i (s.receiveFrame f), n.wire⟩ from
      congrArg (Network.mk · n.wire) (adjust_of_some hs _).symm]
    simp only [cost] at hset ⊢
    rw [show (s.receiveFrame f).host = s.host.receiveFrame f from rfl] at hset
    omega

theorem cost_lose {f : Frame} (hf : n.wire[i]? = some f) :
    (n.lose i).cost t + t.carried f.unanswered = n.cost t := by
  have herase := sum_map_eraseIdx hf fun f => t.carried f.unanswered
  simp only [cost, lose]
  omega

theorem cost_deliver (ht : t.Fair fare) (hi : i < n.wire.length) :
    (n.deliver i).cost t + 1 ≤ n.cost t := by
  have hf := List.getElem?_eq_getElem hi
  have hlose := cost_lose (t := t) hf
  have hhand := (n.lose i).cost_hand ht n.wire[i]
  simp only [deliver, hf]
  omega

/-! ## Runs -/

def Op.isTraffic : Op → Bool
  | .flush _ | .deliver _ | .lose _ => true
  | _ => false

def delivers (n : Network) : Op → Bool
  | .deliver i => i < n.wire.length
  | _ => false

def stirs (n : Network) (op : Op) : Bool := (n.step op).1 ≠ n

def Silent (n : Network) : Prop := n.wire = [] ∧ ∀ s ∈ n.stations, s.poll.2 = []

theorem flush_of_silent {s : Station} (hs : n.stations[i]? = some s)
    (ho : s.host.outbox.outgoing = []) : (n.flush i).1 = n := by
  have hpoll : s.poll.1 = s := by
    unfold Station.poll Host.poll
    rw [Outbox.afterSending_of_silent ho]
  obtain ⟨hl, rfl⟩ := List.getElem?_eq_some_iff.1 hs
  have hflush : (n.flush i).1 = ⟨n.stations.set i n.stations[i].poll.1,
      n.wire ++ made (frames n.stations[i].host.outbox.outgoing)⟩ := by
    simp only [flush, hs]
    rfl
  rw [hflush, hpoll, ho, List.set_getElem_self]
  simp [frames, inSendingOrder, made]

theorem traffic_cases (n : Network) {op : Op} (hop : op.isTraffic = true) :
    (n.step op).1 = n ∧ n.delivers op = false ∨
      (∀ t fare, Tariff.Fair t fare → (n.step op).1.cost t + 1 ≤ n.cost t) ∨
      ∃ i s, op = .flush i ∧ n.stations[i]? = some s ∧ s.host.outbox.outgoing ≠ [] := by
  cases op with
  | call | tick | expire | duplicate => cases hop
  | flush i =>
    cases hs : n.stations[i]? with
    | none => exact .inl ⟨by simp [step, flush, hs], rfl⟩
    | some s =>
      by_cases ho : s.host.outbox.outgoing = []
      · exact .inl ⟨flush_of_silent hs ho, rfl⟩
      · exact .inr (.inr ⟨i, s, rfl, hs, ho⟩)
  | deliver i =>
    by_cases hi : i < n.wire.length
    · exact .inr (.inl fun t fare ht => cost_deliver ht hi)
    · have hnone := List.getElem?_eq_none (Nat.le_of_not_lt hi)
      exact .inl ⟨by simp [step, deliver, hnone], by simp [delivers, hi]⟩
  | lose i =>
    by_cases hi : i < n.wire.length
    · refine .inr (.inl fun t fare ht => ?_)
      have hlose := cost_lose (t := t) (List.getElem?_eq_getElem hi)
      exact hlose ▸ Nat.add_le_add_left (ht.carried_pos _) _
    · exact .inl ⟨by simp [step, lose, List.eraseIdx_of_length_le (Nat.le_of_not_lt hi)], rfl⟩

theorem cost_delivers (ht : t.Fair fare) {op : Op} (hop : op.isTraffic = true) :
    (n.step op).1.cost t + (n.delivers op).toNat ≤ n.cost t := by
  rcases n.traffic_cases hop with ⟨hsame, hd⟩ | hless | ⟨i, s, rfl, hs, -⟩
  · simp [hsame, hd]
  · have hone := Bool.toNat_le (n.delivers op)
    have hcost := hless t fare ht
    omega
  · exact Nat.le_trans (Nat.le_add_right _ _) (cost_flush ht hs)

theorem cost_stirs (ht : t.Fair 1) {op : Op} (hop : op.isTraffic = true) :
    (n.step op).1.cost t + (n.stirs op).toNat ≤ n.cost t := by
  have hone := Bool.toNat_le (n.stirs op)
  rcases n.traffic_cases hop with ⟨hsame, -⟩ | hless | ⟨i, s, rfl, hs, ho⟩
  · simp [hsame, stirs]
  · have hcost := hless t 1 ht
    omega
  · have hcost : (n.step (.flush i)).1.cost t + 1 * s.host.outbox.outgoing.length ≤ n.cost t :=
      cost_flush ht hs
    have hpos := List.length_pos_iff.2 ho
    omega

theorem cost_run {p : Network → Op → Bool} {ops : List Op}
    (hp : ∀ n op, op.isTraffic = true → (n.step op).1.cost t + (p n op).toNat ≤ n.cost t)
    (hops : ∀ op ∈ ops, op.isTraffic = true) : countSteps p n ops ≤ n.cost t := by
  induction ops generalizing n with
  | nil => exact Nat.zero_le _
  | cons op rest ih =>
    obtain ⟨hop, hrest⟩ := List.forall_mem_cons.1 hops
    have hstep := hp n op hop
    have hrun := ih (n := (n.step op).1) hrest
    rw [countSteps]
    omega

theorem silent_of_still (h : ∀ op, Op.isTraffic op = true → n.stirs op = false) : n.Silent := by
  have still (op : Op) (hop : op.isTraffic = true) : (n.step op).1 = n := by
    simpa [stirs] using h op hop
  refine ⟨?_, fun s hs => ?_⟩
  · have hwire := congrArg (List.length ∘ Network.wire) (still (.lose 0) rfl)
    cases hw : n.wire with
    | nil => rfl
    | cons f rest => simp [step, lose, hw] at hwire
  · obtain ⟨i, hi⟩ := List.mem_iff_getElem?.1 hs
    -- A flush that sends something lowers the cost, so it would change the network.
    have hcost := cost_flush stirringTariff_fair hi
    have hsame : (n.flush i).1 = n := still (.flush i) rfl
    rw [hsame] at hcost
    exact List.length_eq_zero_iff.1 (show s.host.outbox.outgoing.length = 0 by omega)

def sum (n : Network) (f : Host → Nat) : Nat := (n.stations.map fun s => f s.host).sum

theorem cost_le (n : Network) (t : Tariff) {f : Host → Nat} (h : ∀ g : Host, g.cost t ≤ f g)
    {m : Nat} (hm : ∀ b, t.carried b ≤ m) : n.cost t ≤ n.sum f + m * n.wire.length := by
  have hstations : (n.stations.map fun s => s.host.cost t).sum ≤ n.sum f := by
    unfold sum
    induction n.stations with
    | nil => exact Nat.le_refl _
    | cons s rest ih => exact Nat.add_le_add (h s.host) ih
  have hwire : (n.wire.map fun f => t.carried f.unanswered).sum ≤ m * n.wire.length := by
    induction n.wire with
    | nil => exact Nat.le_refl _
    | cons f rest ih =>
      have hf := hm f.unanswered
      simp only [List.map_cons, List.sum_cons, List.length_cons, Nat.mul_succ]
      omega
  exact Nat.add_le_add hstations hwire

theorem sum_add (n : Network) (f g : Host → Nat) :
    n.sum f + n.sum g = n.sum fun h => f h + g h := by
  unfold sum
  induction n.stations with
  | nil => rfl
  | cons s rest ih =>
    simp only [List.map_cons, List.sum_cons] at ih ⊢
    omega

theorem mul_sum (n : Network) (m : Nat) (f : Host → Nat) :
    m * n.sum f = n.sum fun h => m * f h := by
  unfold sum
  induction n.stations with
  | nil => rfl
  | cons s rest ih => simp only [List.map_cons, List.sum_cons, Nat.mul_add, ih]

/-- Without ticks and calls the network falls silent, whatever it holds: the number of deliveries is
bounded, and so is the number of operations that change anything; where none does, nothing is left
to send or to deliver. Taking one segment queues one reply at most, and taking a reply none. -/
theorem falls_silent (n : Network) (ops : List Op) (hops : ∀ op ∈ ops, op.isTraffic = true) :
    countSteps delivers n ops ≤ 4 * n.sum Host.stopSent + 3 * n.sum Host.pending +
        2 * (n.sum (·.outbox.resends.length) + n.wire.length + n.sum Host.strays) +
        n.sum Host.owed ∧
      countSteps stirs n ops ≤ 4 * (n.sum Host.stopSent + n.sum Host.pending +
        n.sum (·.outbox.resends.length) + n.sum (·.outbox.replies.length)) + 3 * n.wire.length ∧
      ((∀ op, op.isTraffic = true → (n.run ops).stirs op = false) → (n.run ops).Silent) ∧
      ∀ (h : Host) (s : Segment), ∃ l, (h.receive s).outbox.replies = h.outbox.replies ++ l ∧
        l.length ≤ 1 ∧ (s.isReply = true → l = []) := by
  -- Each bound is the cost of the network by the tariff that charges for what is counted.
  refine ⟨?deliveries, ?steps, silent_of_still, ?replies⟩
  case deliveries =>
    refine Nat.le_trans (cost_run (fun _ _ => cost_delivers deliveryTariff_fair) hops) ?_
    refine Nat.le_trans (n.cost_le deliveryTariff Host.cost_delivery (m := 2) (by decide)) ?_
    simp only [← sum_add, ← mul_sum]
    omega
  case steps =>
    refine Nat.le_trans (cost_run (fun _ _ => cost_stirs stirringTariff_fair) hops) ?_
    refine Nat.le_trans (n.cost_le stirringTariff Host.cost_stirring (m := 3) (by decide)) ?_
    simp only [← sum_add, ← mul_sum]
    omega
  case replies =>
    intro h s
    obtain ⟨l, hl, hlen, -⟩ := h.receive_replies s
    refine ⟨l, hl, Nat.le_trans hlen (Bool.toNat_le _), fun hs => ?_⟩
    simpa [hs] using hlen

theorem falls_silent_farewell :
    (∀ op ∈ farewell.drop 8, op.isTraffic = true) ∧
      countSteps delivers ((pair (.fresh 1 4 4 4) (.fresh 2 4 4 4)).run (farewell.take 8))
        (farewell.drop 8) = 6 ∧
      countSteps delivers ((pair (.fresh 1 4 4 4) (.fresh 2 4 4 4)).run (farewell.take 8))
        (farewell.drop 8) ≤ 4 * 1 + 3 * 2 + 2 * (0 + 0 + 0) + 0 := by
  have htraffic : ∀ op ∈ farewell.drop 8, op.isTraffic = true := by decide
  refine ⟨htraffic, by decide +kernel, ?_⟩
  exact (falls_silent ((pair (.fresh 1 4 4 4) (.fresh 2 4 4 4)).run (farewell.take 8))
    (farewell.drop 8) htraffic).1

def stray : Network :=
  let s := Station.fresh 1 4 4 4
  let fin := Segment.control ⟨⟨2, 7⟩, ⟨1, 3⟩⟩ .fin
  pair { s with host := { s.host with outbox := s.host.outbox.reply fin } } (.fresh 2 4 4 4)

theorem stray_delivers_twice :
    ¬∀ (n : Network) (ops : List Op), (∀ op ∈ ops, op.isTraffic = true) →
      countSteps delivers n ops ≤ 4 * n.sum Host.stopSent + 3 * n.sum Host.pending +
        2 * (n.sum (·.outbox.resends.length) + n.wire.length) +
        n.sum (·.outbox.replies.length) := by
  intro h
  have hbound := h stray [.flush 0, .deliver 0, .flush 1, .deliver 0] (by decide)
  have hcount : countSteps delivers stray [.flush 0, .deliver 0, .flush 1, .deliver 0] = 2 := by
    decide +kernel
  have hsums : 4 * stray.sum Host.stopSent + 3 * stray.sum Host.pending +
      2 * (stray.sum (·.outbox.resends.length) + stray.wire.length) +
      stray.sum (·.outbox.replies.length) = 1 := by
    decide +kernel
  omega

end Network

end ReliableStream
