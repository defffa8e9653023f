import ReliableStream.Proofs.Actions
import ReliableStream.Proofs.Side

/-!
What happens to one connection leaves the other sides of a host as they are: `Confined k h h'`
says that `h'` differs from `h` in the side of `k` only. All that a host does for a connection is
made of a few things done to its table and its outbox, which `Touches` lists.
-/

namespace ReliableStream

namespace Side

section OfNe

variable (t : Table) (o : Outbox) {k j : SocketPair} (h : k ≠ j)

include h

theorem of_put_of_ne (c : Connection) : of (t.put k c) o j = of t o j := by
  simp [of, t.get?_put_of_ne c h]

theorem of_adjust_of_ne (f : Connection → Connection) : of (t.adjust k f) o j = of t o j := by
  simp [of, t.get?_adjust_of_ne f h]

theorem of_reap_of_ne : of (t.reap k) o j = of t o j := by
  simp [of, t.get?_reap_of_ne h]

theorem of_remove_of_ne : of (t.remove k) o j = of t o j := by
  simp [of, t.get?_remove_of_ne h]

theorem of_pushPending_of_ne {s : Segment} (hs : s.receiverPair = k) :
    of (t.pushPending s) o j = of t o j := by
  have hne : s.receiverPair ≠ j := hs ▸ h
  by_cases hp : s.dest.port = j.near.port
  · have := t.pending_pushPending_self s
    rw [hp] at this
    simp [of, this, hne]
  · simp [of, t.pending_pushPending_of_ne s hp]

theorem of_reply_of_ne {s : Segment} (hs : s.senderPair = k) : of t (o.reply s) j = of t o j := by
  have hne : s.senderPair ≠ j := hs ▸ h
  simp [of, Outbox.reply, hne]

theorem of_window_of_ne (w : Window) : of t (o.put k w) j = of t o j := by
  simp only [of, o.windows_put_of_ne w h]
  rfl

theorem of_acknowledge_of_ne (seq : SequenceNumber) :
    of t (o.acknowledge k seq) j = of t o j := by
  simp only [of, o.windows_acknowledge_of_ne seq h]
  rfl

theorem of_stop_of_ne : of t (o.stop k) j = of t o j := of_window_of_ne t o h _

theorem of_release_of_ne : of t (o.release k) j = of t o j := by
  have hf : (o.resends.filter fun s => s.senderPair ≠ k).filter (fun s => s.senderPair = j) =
      o.resends.filter fun s => s.senderPair = j := by
    rw [List.filter_filter]
    refine List.filter_congr fun s _ => ?_
    by_cases hs : s.senderPair = j <;> simp [hs, h.symm]
  simp only [of, o.windows_release_of_ne h]
  exact congrArg (Side.mk _ _ _ · _) hf

theorem of_resend_of_ne (ho : o.Filed) : of t (o.resend k) j = of t o j := by
  have hv : ∀ s ∈ (o.window k).unacked.values, s.senderPair ≠ j := by
    intro s hs
    obtain ⟨i, hi⟩ := SortedMap.mem_values_iff.1 hs
    exact fun e => h (((ho.window k).2 i s hi).symm.trans e)
  obtain ⟨l, hl, hm⟩ := Outbox.addMissing_append o.resends (o.window k).unacked.values
  have hf : l.filter (fun s => s.senderPair = j) = [] := by
    rw [List.filter_eq_nil_iff]
    intro s hs
    simpa using hv s (hm s hs)
  simp [of, Outbox.resend, hl, hf]

end OfNe

end Side

namespace Host

open Side

def settings (h : Host) : Settings := ⟨h.table.capacity, h.outbox.limit, h.patience⟩

structure Filed (h : Host) : Prop where
  outbox : h.outbox.Filed
  table : h.table.Filed

structure Confined (k : SocketPair) (h h' : Host) : Prop where
  filed : h.Filed → h'.Filed
  others : h.Filed → ∀ j, k ≠ j → h'.side j = h.side j
  settings : h'.settings = h.settings

namespace Confined

variable {k : SocketPair} {h h' h'' : Host}

theorem refl (k : SocketPair) (h : Host) : Confined k h h := ⟨id, fun _ _ _ => rfl, rfl⟩

theorem trans (a : Confined k h h') (b : Confined k h' h'') : Confined k h h'' where
  filed hf := b.filed (a.filed hf)
  others hf j hj := (b.others (a.filed hf) j hj).trans (a.others hf j hj)
  settings := b.settings.trans a.settings

theorem of_table {t : Table} (hf : h.table.Filed → t.Filed)
    (ho : ∀ j, k ≠ j → of t h.outbox j = of h.table h.outbox j)
    (hc : t.capacity = h.table.capacity) : Confined k h { h with table := t } where
  filed a := ⟨a.outbox, hf a.table⟩
  others _ j hj := ho j hj
  settings := by simp [Host.settings, hc]

theorem of_outbox {o : Outbox} (hf : h.outbox.Filed → o.Filed)
    (ho : h.outbox.Filed → ∀ j, k ≠ j → of h.table o j = of h.table h.outbox j)
    (hl : o.limit = h.outbox.limit) : Confined k h { h with outbox := o } where
  filed a := ⟨hf a.outbox, a.table⟩
  others a j hj := ho a.outbox j hj
  settings := by simp [Host.settings, hl]

theorem put (c : Connection) : Confined k h { h with table := h.table.put k c } :=
  of_table id (fun _ hj => of_put_of_ne _ _ hj c) rfl

theorem adjust (f : Connection → Connection) :
    Confined k h { h with table := h.table.adjust k f } :=
  of_table id (fun _ hj => of_adjust_of_ne _ _ hj f) rfl

theorem remove : Confined k h { h with table := h.table.remove k } :=
  of_table id (fun _ hj => of_remove_of_ne _ _ hj) rfl

theorem reply {s : Segment} (hs : s.senderPair = k) :
    Confined k h { h with outbox := h.outbox.reply s } :=
  of_outbox id (fun _ _ hj => of_reply_of_ne _ _ hj hs) rfl

theorem release : Confined k h { h with outbox := h.outbox.release k } :=
  of_outbox (fun hf => hf.release k) (fun _ _ hj => of_release_of_ne _ _ hj) rfl

theorem await : Confined k h (h.await k).1 :=
  (put (h := h) _).trans ⟨fun a => ⟨a.outbox, a.table⟩, fun _ _ _ => rfl, rfl⟩

theorem nudge : Confined k h h.nudge := ⟨fun a => ⟨a.outbox, a.table⟩, fun _ _ _ => rfl, rfl⟩

end Confined

/-- What a host does for one connection, one thing after the other. Only the timer sends again. -/
inductive Touches (k : SocketPair) (timer : Prop) : Host → Host → Prop
  | refl (h) : Touches k timer h h
  | trans {h h' h''} : Touches k timer h h' → Touches k timer h' h'' → Touches k timer h h''
  | put (h c) : Touches k timer h { h with table := h.table.put k c }
  | adjust (h f) : Touches k timer h { h with table := h.table.adjust k f }
  | remove (h) : Touches k timer h { h with table := h.table.remove k }
  | knock (h) {s} : s.receiverPair = k → Touches k timer h { h with table := h.table.pushPending s }
  | reply (h) {s} : s.senderPair = k → Touches k timer h { h with outbox := h.outbox.reply s }
  | push (h) {s} : s.senderPair = k →
      Touches k timer h { h with outbox := h.outbox.put k ((h.outbox.window k).push s) }
  | acknowledge (h seq) : Touches k timer h { h with outbox := h.outbox.acknowledge k seq }
  | stop (h) : Touches k timer h { h with outbox := h.outbox.stop k }
  | release (h) : Touches k timer h { h with outbox := h.outbox.release k }
  | resend (h) : timer → Touches k timer h { h with outbox := h.outbox.resend k }
  | aside {h h'} : h'.table = h.table → h'.outbox = h.outbox → h'.patience = h.patience →
      h'.issued = h.issued → Touches k timer h h'

theorem Touches.confined {k : SocketPair} {timer : Prop} {h h' : Host}
    (t : Touches k timer h h') : Confined k h h' := by
  induction t with
  | refl h => exact .refl k h
  | trans _ _ ih ih' => exact ih.trans ih'
  | put _ c => exact .put c
  | adjust _ f => exact .adjust f
  | remove => exact .remove
  | knock _ hs =>
    exact .of_table (fun hf => hf.pushPending _) (fun _ hj => of_pushPending_of_ne _ _ hj hs) rfl
  | reply _ hs => exact .reply hs
  | push _ hs =>
    subst hs
    exact .of_outbox (fun hf => hf.push _) (fun _ _ hj => of_window_of_ne _ _ hj _) rfl
  | acknowledge =>
    exact .of_outbox (fun hf => hf.acknowledge _ _)
      (fun _ _ hj => of_acknowledge_of_ne _ _ hj _) rfl
  | stop => exact .of_outbox (fun hf => hf.stop _) (fun _ _ hj => of_stop_of_ne _ _ hj) rfl
  | release => exact .release
  | resend => exact .of_outbox id (fun hf _ hj => of_resend_of_ne _ _ hj hf) rfl
  | aside ht ho hp _ =>
    refine ⟨fun a => ⟨ho ▸ a.outbox, ht ▸ a.table⟩, fun _ j _ => ?_, ?_⟩
    · simp only [side, ht, ho]
    · simp only [settings, ht, ho, hp]

structure Onward (h h' : Host) : Prop where
  issued : h.issued ≤ h'.issued
  pending : ∀ p, h.table.pending p <+: h'.table.pending p

namespace Onward

variable {h h' h'' : Host}

theorem of_pending (hi : h.issued ≤ h'.issued)
    (hp : ∀ p, h'.table.pending p = h.table.pending p) : Onward h h' :=
  ⟨hi, fun p => hp p ▸ List.prefix_refl _⟩

theorem trans (a : Onward h h') (b : Onward h' h'') : Onward h h'' :=
  ⟨Nat.le_trans a.issued b.issued, fun p => (a.pending p).trans (b.pending p)⟩

end Onward

theorem Touches.onward {k : SocketPair} {timer : Prop} {h h' : Host}
    (t : Touches k timer h h') : Onward h h' := by
  induction t with
  | trans _ _ ih ih' => exact ih.trans ih'
  | knock h _ =>
    rename_i s _
    refine ⟨Nat.le_refl _, fun p => ?_⟩
    by_cases hp : s.dest.port = p
    · subst hp
      exact h.table.pending_pushPending_self s ▸ List.prefix_append _ _
    · exact h.table.pending_pushPending_of_ne s hp ▸ List.prefix_refl _
  | aside ht _ _ hi => exact .of_pending (Nat.le_of_eq hi.symm) fun p => by rw [ht]
  | _ => exact .of_pending (Nat.le_refl _) fun _ => rfl

/-- What a host does for one connection after another, and with the tickets. Only accepting a
connection is more than that. -/
inductive Proceeds : Host → Host → Prop
  | touches {k timer h h'} : Touches k timer h h' → Proceeds h h'
  | aside {h h'} : h'.table = h.table → h.issued ≤ h'.issued → Proceeds h h'
  | trans {h h' h''} : Proceeds h h' → Proceeds h' h'' → Proceeds h h''

namespace Proceeds

theorem refl (h : Host) : Proceeds h h := .aside rfl (Nat.le_refl _)

theorem nudge (h : Host) : Proceeds h h.nudge := .aside rfl (Nat.le_refl _)

theorem onward {h h' : Host} (p : Proceeds h h') : Onward h h' := by
  induction p with
  | touches t => exact t.onward
  | aside ht hi => exact .of_pending hi fun _ => by rw [ht]
  | trans _ _ ih ih' => exact ih.trans ih'

end Proceeds

namespace Touches

variable {k : SocketPair} {timer : Prop} {h : Host}

theorem ensure : Touches k timer h { h with table := h.table.ensure k } := put h _

theorem reap : Touches k timer h (h.reap k) := by
  unfold Host.reap Table.reap
  split
  · exact remove h
  · exact refl h

theorem deliver (s : Segment) : Touches k timer h { h with table := h.table.deliver k s } := by
  unfold Table.deliver
  simp only
  split
  · exact put h _
  · exact ensure

theorem tell (a : Answer) : Touches k timer h (h.tell k a) := by
  unfold Host.tell
  split
  · exact refl h
  · exact (adjust h fun c => { c with waiter := none }).trans (aside rfl rfl rfl rfl)

theorem nudge : Touches k timer h h.nudge := aside rfl rfl rfl rfl

end Touches

def Belongs (k : SocketPair) (segment : Option Segment) (a : Action) : Prop :=
  ∀ s ∈ segment, if a = .enqueue then s.senderPair = k else s.receiverPair = k

variable {k : SocketPair} {timer : Prop} {h : Host} {segment : Option Segment}

theorem touches_enqueue (h : Host) {s : Segment} (hs : s.senderPair = k) :
    Touches k timer h (h.enqueue s).1 := by
  subst hs
  by_cases hw : (h.outbox.window s.senderPair).stopped ∧ s.kind? = some .data
  · rw [h.enqueue_of_stopped hw]
    exact .refl h
  · rw [h.enqueue_of_open hw]
    exact .push h rfl

theorem touches_act {a : Action} (hb : Belongs k segment a) (ht : a = .retransmit → timer) :
    Touches k timer h (h.act k segment a).1 := by
  cases a with
  | transmit kind => exact h.touches_enqueue rfl
  | reply kind =>
    cases segment with
    | none => exact .refl h
    | some s => exact .reply h (hb s rfl)
  | queueForAccept =>
    cases segment with
    | none => exact .refl h
    | some s => exact .knock h (hb s rfl)
  | wakeConnect => exact .tell .opened
  | enqueue =>
    cases segment with
    | none => exact .refl h
    | some s => exact h.touches_enqueue (hb s rfl)
  | deliver =>
    cases segment with
    | none => exact .refl h
    | some s =>
      simp only [act]
      split
      · exact (Touches.deliver s).trans (.reply _ (hb s rfl))
      · exact .deliver s
  | stopSending => exact .stop h
  | releaseSender => exact .release h
  | release => exact (Touches.release h).trans (.remove _)
  | retransmit => exact .resend h (ht rfl)

theorem touches_actAll {l : List Action} (hb : ∀ a ∈ l, Belongs k segment a)
    (ht : .retransmit ∈ l → timer) (h : Host) : Touches k timer h (h.actAll k segment l).1 :=
  actAll_induction .refl .trans (fun a ha _ => touches_act (hb a ha) fun he => ht (he ▸ ha)) h

theorem retransmit_mem_actions {p : Phase} {event : Event} {facts : Facts} {m : Move}
    (hm : p.move? event facts = some m) (ha : .retransmit ∈ m.actions) : event = .timer := by
  unfold Phase.move? at hm
  split at hm <;> grind

theorem touches_apply (h : Host) (k : SocketPair) (event : Event) (segment : Option Segment)
    (facts : Facts)
    (hb : ∀ s ∈ segment, if event = .send then s.senderPair = k else s.receiverPair = k) :
    Touches k (event = .timer) h (h.apply k event segment facts).1 := by
  unfold apply
  cases hm : (h.table.phase k).move? event facts with
  | none =>
    simp only [Phase.move, hm]
    exact .reap
  | some m =>
    simp only [Phase.move, hm]
    have hall : ∀ a ∈ m.actions, Belongs k segment a := by
      intro a ha s hs
      simpa [Phase.enqueue_mem_actions hm ha] using hb s hs
    have hg : Touches k (event = .timer) h
        (actAll { h with table := h.table.ensure k } k segment m.actions).1 :=
      Touches.ensure.trans (touches_actAll hall (retransmit_mem_actions hm) _)
    split
    · rename_i heq
      rw [heq] at hg
      exact hg.trans .reap
    · rename_i heq
      rw [heq] at hg
      exact (hg.trans (.adjust _ _)).trans .reap

theorem confined_apply (h : Host) (k : SocketPair) (event : Event) (segment : Option Segment)
    (facts : Facts)
    (hb : ∀ s ∈ segment, if event = .send then s.senderPair = k else s.receiverPair = k) :
    Confined k h (h.apply k event segment facts).1 :=
  (h.touches_apply k event segment facts hb).confined

theorem touches_answerAgain (h : Host) (s : Segment) (kind : Kind) :
    Touches s.receiverPair timer h (h.answerAgain s kind) := by
  unfold answerAgain
  cases kind with
  | data => exact .reply h rfl
  | stp => exact .reply h rfl
  | fin => exact .reply h rfl
  | syn =>
    simp only
    split
    · exact .reply h rfl
    · exact .reply h rfl
    · exact .refl h
  | _ => exact .refl h

theorem touches_giveUp (h : Host) (k : SocketPair) : Touches k timer h (h.giveUp k) :=
  ((Touches.tell .collided).trans (.remove _)).trans (.release _)

theorem touches_arrive (h : Host) (s : Segment) (kind : Kind) :
    Touches s.receiverPair False h (h.arrive s kind) := by
  have ha : Touches s.receiverPair False h (h.apply s.receiverPair (.arrival kind) (some s)
      (h.facts s.receiverPair)).1 := by
    simpa using h.touches_apply s.receiverPair (.arrival kind) (some s) (h.facts s.receiverPair)
      (by simp)
  unfold arrive
  simp only
  split
  · rename_i heq
    rw [heq] at ha
    split
    · exact ha.trans (.adjust _ _)
    · exact ha
  · rename_i heq
    rw [heq] at ha
    exact ha.trans (touches_giveUp _ _)
  · rename_i heq
    rw [heq] at ha
    exact ha

theorem touches_receiveKind (h : Host) (s : Segment) (kind : Kind) :
    Touches s.receiverPair False h (h.receiveKind s kind) := by
  unfold receiveKind
  simp only
  split
  · exact ((Touches.acknowledge h _).trans (touches_arrive _ s kind)).trans .nudge
  · split
    · exact ((Touches.adjust h _).trans (touches_arrive _ s kind)).trans .nudge
    · split
      · exact (touches_arrive h s kind).trans .nudge
      · split
        · exact (touches_answerAgain h s kind).trans .nudge
        · split
          · exact .refl h
          · exact (touches_arrive h s kind).trans .nudge

theorem touches_receive (h : Host) (s : Segment) :
    Touches s.receiverPair False h (h.receive s) := by
  unfold receive
  split
  · exact .refl h
  · exact touches_receiveKind h s _

theorem touches_read (h : Host) (k : SocketPair) (buffer : List UInt8) :
    Touches k False h { h with table := (h.table.read k buffer).1 } := by
  unfold Table.read
  split
  · exact .refl h
  · split
    · split
      · exact .reap
      · exact .refl h
    · exact (Touches.put h _).trans .reap

theorem confined_receiveKind (h : Host) (s : Segment) (kind : Kind) :
    Confined s.receiverPair h (h.receiveKind s kind) := (h.touches_receiveKind s kind).confined

theorem confined_receive (h : Host) (s : Segment) : Confined s.receiverPair h (h.receive s) :=
  (h.touches_receive s).confined

theorem touches_tickOne (h : Host) (k : SocketPair) : Touches k True h (h.tickOne k) := by
  unfold tickOne
  split
  · exact .refl h
  · simpa using (Touches.put h _).trans (touches_apply _ k .timer none _ (by simp))

theorem confined_tickOne (h : Host) (k : SocketPair) : Confined k h (h.tickOne k) :=
  (h.touches_tickOne k).confined

end Host

end ReliableStream
