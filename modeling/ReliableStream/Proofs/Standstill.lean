import ReliableStream.Proofs.Relay

/-!
Standstills. While the applications do nothing but read, the two ends of a connection cannot leave a
set of states that ticks, flushes and what may arrive keep.
-/

namespace ReliableStream

open Side

def Station.Op.passes : Station.Op → Bool
  | .tick | .poll | .receiveFrame _ | .call (.read _ _) => true
  | _ => false

namespace Side

inductive Relayed (cfg : Settings) (k : SocketPair) (P : Segment → Prop) (e : Side) : Side → Prop
  | same : Relayed cfg k P e e
  | heard {s kind e'} : P s → s.kind? = some kind → Hears cfg.room k s kind e e' →
      Relayed cfg k P e e'
  | read {c unread} : e.entry = some c →
      Relayed cfg k P e (e.enter { c with unread := unread }).swept
  | swept : Relayed cfg k P e e.swept
  | ticked : Relayed cfg k P e (e.ticked cfg.patience)
  | sent : Relayed cfg k P e (e.sent cfg.limit)

variable {cfg : Settings} {room : Nat} {k : SocketPair} {op : Station.Op} {r : Station.Reply}
  {P Q : Segment → Prop} {e e' : Side} {s x : Segment} {kind : Kind}

theorem Step.relayed (h : Step cfg k op r e e') (ho : op.passes = true)
    (hP : ∀ x, Arrives k op x → P x) : Relayed cfg k P e e' := by
  cases h with
  | apart | readNothing => exact .same
  | heard ha hk hp hh => exact .heard (hP _ ⟨ha, hp⟩) hk hh
  | read hc => exact .read hc
  | readRefused => exact .swept
  | ticked hp => exact ticked_open hp ▸ .ticked
  | tickedClosing hc hp hlt =>
    have : e.ticked cfg.patience = _ := ticked_closing hc hp
    rw [if_neg (Nat.not_le.2 hlt)] at this
    exact this ▸ .ticked
  | expired hc hp hle =>
    have : e.ticked cfg.patience = _ := ticked_closing hc hp
    rw [if_pos hle] at this
    exact this ▸ .ticked
  | tickedIdle hp => exact ticked_idle hp ▸ .ticked
  | polled => exact .sent
  | forgot hs =>
    cases op with
    | call c => cases c <;> simp_all [Station.Op.settles, Station.Op.passes]
    | expire => cases ho
    | _ => cases hs
  | _ => cases ho

theorem Relayed.mono (h : Relayed cfg k P e e') (hPQ : ∀ x, P x → Q x) : Relayed cfg k Q e e' := by
  cases h with
  | same => exact .same
  | heard hx hk hh => exact .heard (hPQ _ hx) hk hh
  | read hc => exact .read hc
  | swept => exact .swept
  | ticked => exact .ticked
  | sent => exact .sent

structure Kept (e e' : Side) : Prop where
  phase : e'.phase = e.phase
  replies : e'.replies ⊆ e.replies
  expected : e.phase ≠ .closed → e'.conn.expected = e.conn.expected
  none : e.entry = none → e'.entry = none

theorem Kept.of_entry (hr : e'.replies ⊆ e.replies) (he : e'.entry = e.entry) : Kept e e' :=
  ⟨phase_congr he, hr, fun _ => congrArg _ (conn_congr he), fun hn => he.trans hn⟩

theorem Kept.swept (h : Kept e e') : Kept e e'.swept where
  phase := (phase_swept e').trans h.phase
  replies := h.replies
  expected hp := by
    rw [swept_of_open (h.phase ▸ hp)]
    exact h.expected hp
  none hn := by
    rw [swept_of_none (h.none hn)]
    exact h.none hn

theorem Relayed.heard_or_kept (h : Relayed cfg k P e e') (hp : e.phase ≠ .closing) :
    (∃ s kind, P s ∧ s.kind? = some kind ∧ Hears cfg.room k s kind e e') ∨ Kept e e' := by
  have refl : Kept e e := .of_entry (List.Subset.refl _) rfl
  cases h with
  | same => exact .inr refl
  | heard hx hk hh => exact .inl ⟨_, _, hx, hk, hh⟩
  | read hc =>
    refine .inr (Kept.swept ⟨(phase_of_entry hc).symm, List.Subset.refl _, fun _ => ?_, fun hn => ?_⟩)
    · rw [conn_of_entry hc]
      rfl
    · rw [hc] at hn
      cases hn
  | swept => exact .inr refl.swept
  | ticked =>
    unfold Side.ticked
    split
    · exact .inr refl.swept
    · exact .inr refl.swept
    · exact absurd ‹_› hp
    · exact .inr (.of_entry (List.Subset.refl _) rfl)
  | sent => exact .inr (.of_entry (List.nil_subset _) rfl)

theorem Hears.held (h : Hears room k s kind e e') (hx : e'.held x) :
    e.held x ∨ e'.phase = .closing := by
  have erased (hx : (e.acked s.seq).held x) : e.held x := by
    refine hx.imp (fun hx => ?_) id
    rw [win_acked] at hx
    exact Window.has_erase hx
  cases h with
  | noted | opened => exact .inl (erased hx)
  | drained | crossed => exact .inr rfl
  | ended | collided | finished => rcases hx with (hx | ⟨i, hx⟩) | hx <;> cases hx
  | _ => exact .inl hx

theorem held_ticked {patience : Nat} (h : (e.ticked patience).held x) : e.held x := by
  have resent (hx : e.resent.held x) : e.held x := by
    refine hx.elim .inl fun hx => ?_
    exact (Outbox.mem_addMissing.1 hx).elim .inr fun hx => .inl (.inr (SortedMap.mem_values_iff.1 hx))
  unfold ticked at h
  split at h
  · exact h
  · exact h
  · split at h
    · rcases h with (h | ⟨i, h⟩) | h <;> cases h
    · exact resent h
  · exact resent h

theorem held_sent {limit : Nat} (h : (e.sent limit).held x) : e.held x := by
  rcases h with h | h
  · rw [win_sent] at h
    exact .inl (Window.has_advance h)
  · cases h

theorem Relayed.held (h : Relayed cfg k P e e') (hx : e'.held x) :
    e.held x ∨ e'.phase = .closing := by
  cases h with
  | heard _ _ hh => exact hh.held hx
  | ticked => exact .inl (held_ticked hx)
  | sent => exact .inl (held_sent hx)
  | _ => exact .inl hx

theorem forall_held {P : Segment → Prop}
    (h : ∀ x ∈ e.win.pending ++ e.win.unacked.values ++ e.resends, P x) {x : Segment}
    (hx : e.held x) : P x := by
  refine h x (List.mem_append.2 (hx.imp (fun hx => List.mem_append.2 (hx.imp id ?_)) id))
  exact SortedMap.mem_values_iff.2

theorem Sound.not_sending (h : e.Sound) (hn : e.entry = none) (hr : e.replies = []) (x : Segment) :
    ¬e.sending x := by
  obtain ⟨hw, hres⟩ := h.shut (.inl (by rw [phase, hn]; rfl))
  simp [sending, win, hw, hres, hr]

theorem Hears.absent (h : Hears room k s kind e e') (hn : e.entry = none)
    (hk : kind ≠ .syn ∧ kind ≠ .fin) : e'.entry = none ∧ e'.replies = e.replies := by
  have wrong {c : Connection} (hc : e.entry = some c) : False := by
    rw [hn] at hc
    cases hc
  cases h with
  | noted =>
    rw [swept_of_none (e := e.acked s.seq) hn]
    exact ⟨hn, rfl⟩
  | ended => exact ⟨rfl, rfl⟩
  | strange => exact ⟨hn, rfl⟩
  | knocked => exact absurd rfl hk.1
  | strangeFin => exact absurd rfl hk.2
  | opened hc | drained hc | stale _ hc | early _ hc | collided hc | kept hc | full hc | discarded hc
  | halted hc | crossed hc | greeted hc | repeated hc | finished hc | finishedAgain hc
  | misplaced _ hc => exact (wrong hc).elim

theorem Hears.starved (h : Hears 0 k s kind e e') (hp : e.phase = .established)
    (hk : kind = .data ∧ e.conn.expected ≤ s.seq ∨ kind = .stp ∧ e.conn.expected < s.seq) :
    e' = e := by
  have hle : e.conn.expected ≤ s.seq := hk.elim And.right fun hk => UInt32.le_of_lt hk.2
  cases h with
  | strange | early | full => rfl
  | stale _ hc _ hlt =>
    rw [conn_of_entry hc] at hle
    exact absurd hlt (UInt32.not_lt.2 hle)
  | kept _ _ _ hlt => exact absurd hlt (Nat.not_lt_zero _)
  | discarded hc _ hd =>
    rcases hd with ⟨-, hd | hd⟩ | ⟨-, hd⟩ <;> exact absurd_phase hp hc hd (by decide)
  | halted hc _ hseq =>
    rw [conn_of_entry hc, hseq] at hk
    exact absurd (hk.resolve_left (by simp)).2 (UInt32.lt_irrefl _)
  | crossed hc hcp => exact absurd_phase hp hc hcp (by decide)
  | misplaced _ hc hseq _ hnone =>
    have hnone := hnone {}
    rw [show _ = Phase.established from (phase_of_entry hc).symm.trans hp] at hnone
    rcases hk with ⟨rfl, -⟩ | ⟨rfl, -⟩ <;> simp [Phase.move?] at hnone
  | noted hr => rcases hk with ⟨rfl, -⟩ | ⟨rfl, -⟩ <;> cases hr
  | opened | drained | ended | knocked | collided | greeted | repeated | strangeFin | finished
  | finishedAgain => simp at hk

theorem Hears.knocking (h : Hears room k s kind e e') (hp : e.phase = .synReceived) :
    e'.phase = .synReceived := by
  cases h with
  | noted | misplaced => exact (phase_swept _).trans hp
  | strange | early | full | stale => exact hp
  | strangeFin => exact hp
  | repeated _ hcp => exact hcp
  | knocked hc => rfl
  | ended hc => rcases hc with hc | hc <;> cases hc.symm.trans hp
  | kept hc hk => rcases hk with hk | hk <;> exact absurd_phase hp hc hk (by decide)
  | discarded hc _ hd =>
    rcases hd with ⟨-, hd | hd⟩ | ⟨-, hd⟩ <;> exact absurd_phase hp hc hd (by decide)
  | greeted hc hk => rcases hk with hk | hk <;> exact absurd_phase hp hc hk (by decide)
  | finished hc hf => rcases hf with (hf | hf) | hf | hf <;> exact absurd_phase hp hc hf (by decide)
  | opened hc hcp | drained hc hcp | collided hc hcp | halted hc hcp | crossed hc hcp
  | finishedAgain hc hcp => exact absurd_phase hp hc hcp (by decide)

end Side

namespace Network

variable {n : Network} {i j : Nat} {k : SocketPair} {op : Op} {ops : List Op} {cfg cfg' : Settings}

theorem Acts.passes {o : Station.Op} (h : n.Acts op i o) (hop : op.relaysOrReads = true) :
    o.passes = true := by
  cases h with
  | call i c => cases c <;> first | rfl | cases hop
  | expire | duplicate => cases hop
  | _ => rfl

theorem Peers.relayed (h : n.Peers i j k cfg cfg') (hop : op.relaysOrReads = true) :
    Relayed cfg k (fun x => n.Carries x ∧ x.senderPair = k.swap) (n.side i k)
      ((n.step op).1.side i k) := by
  rcases n.step_station op i with ⟨o, ha, -⟩ | ⟨-, hs⟩
  · obtain ⟨s, hs, rfl, hf, hbefore, hafter, -⟩ := h.acts ha
    rw [hbefore, hafter]
    refine (s.step_side hf o k).relayed (ha.passes hop) fun x hx => ⟨(ha.arrival hx.1).1, ?_⟩
    rw [← hx.2]
    rfl
  · rw [side, side, hs]
    exact .same

end Network

/-- States of two ends and of the wire that are not left while the applications do nothing but
read. -/
structure Standstill (k : SocketPair) (cfg cfg' : Settings) where
  near : Side → Prop
  far : Side → Prop
  out : Segment → Prop
  back : Segment → Prop
  near_relayed : ∀ e e', near e → e.Sound → Relayed cfg k back e e' → near e'
  far_relayed : ∀ e e', far e → e.Sound → Relayed cfg' k.swap out e e' → far e'
  sends : ∀ e x, near e → e.Sound → e.sending x → out x
  answers : ∀ e x, far e → e.Sound → e.sending x → back x

namespace Standstill

variable {k : SocketPair} {cfg cfg' : Settings} {n : Network} {i j : Nat} {op : Network.Op}
  {ops : List Network.Op}

structure Holds (S : Standstill k cfg cfg') (v : Link) : Prop where
  near : S.near v.near
  far : S.far v.far
  out : ∀ x, v.out x → S.out x
  back : ∀ x, v.back x → S.back x

variable {S : Standstill k cfg cfg'}

theorem Holds.step (h : S.Holds (n.link i j k)) (hp : n.Peers i j k cfg cfg')
    (hop : op.relaysOrReads = true) : S.Holds ((n.step op).1.link i j k) := by
  have hs := hp.joins.tidy.side_sound i k
  have hs' := hp.joins.tidy.side_sound j k.swap
  constructor
  · exact S.near_relayed _ _ h.near hs ((hp.relayed hop).mono h.back)
  · exact S.far_relayed _ _ h.far hs' ((hp.swap.relayed hop).mono h.out)
  · rintro x ⟨hx, hk⟩
    rcases hp.joins.out_step hx hk with hx | ⟨-, hx⟩
    · exact h.out x ⟨hx, hk⟩
    · exact S.sends _ x h.near hs hx
  · rintro x ⟨hx, hk⟩
    rcases hp.joins.swap.out_step hx hk with hx | ⟨-, hx⟩
    · exact h.back x ⟨hx, hk⟩
    · exact S.answers _ x h.far hs' hx

theorem Holds.run (h : S.Holds (n.link i j k)) (hp : n.Peers i j k cfg cfg')
    (hops : ∀ op ∈ ops, op.relaysOrReads = true) : S.Holds ((n.run ops).link i j k) := by
  induction ops generalizing n with
  | nil => exact h
  | cons op rest ih =>
    obtain ⟨hop, hrest⟩ := List.forall_mem_cons.1 hops
    exact ih (h.step hp hop) (hp.step op) hrest

def deserted (k : SocketPair) (cfg cfg' : Settings) : Standstill k cfg cfg' where
  near e := e.phase = .stopSent ∧
    ∀ x, x ∈ e.replies ∨ e.held x → x.kind? ≠ some .syn ∧ x.kind? ≠ some .fin
  far e := e.entry = none ∧ e.replies = []
  out x := x.kind? ≠ some .syn ∧ x.kind? ≠ some .fin
  back _ := False
  near_relayed := by
    rintro e e' ⟨hp, hall⟩ - hst
    rcases hst.heard_or_kept (by simp [hp]) with ⟨_, _, hx, -⟩ | hkept
    · exact hx.elim
    have hp' := hkept.phase.trans hp
    refine ⟨hp', fun x hx => hx.elim (fun hx => hall x (.inl (hkept.replies hx))) fun hx => ?_⟩
    exact hall x (.inr ((hst.held hx).resolve_right (by simp [hp'])))
  far_relayed := by
    rintro e e' ⟨hn, hr⟩ - hst
    have hp : e.phase = .closed := by
      rw [phase, hn]
      rfl
    rcases hst.heard_or_kept (by simp [hp]) with ⟨x, kind, hx, hk, hh⟩ | hkept
    · rw [hk] at hx
      obtain ⟨hn', hr'⟩ := hh.absent hn (by simpa using hx)
      exact ⟨hn', hr'.trans hr⟩
    · exact ⟨hkept.none hn, List.subset_nil.1 (hr ▸ hkept.replies)⟩
  sends := by
    rintro e x ⟨-, hall⟩ - (hx | hx | hx)
    · exact hall x (.inl hx)
    · exact hall x (.inr (.inr hx))
    · exact hall x (.inr (.inl (.inl hx)))
  answers := fun e x hfar hs hx => absurd hx (hs.not_sending hfar.1 hfar.2 x)

def starved (k : SocketPair) (cfg cfg' : Settings) (hroom : cfg'.room = 0) (m : SequenceNumber) :
    Standstill k cfg cfg' where
  near e := e.phase = .stopSent ∧ e.replies = [] ∧ ∀ x, e.held x →
    x.kind? = some .data ∧ m ≤ x.seq ∨ x.kind? = some .stp ∧ m < x.seq
  far e := e.phase = .established ∧ e.replies = [] ∧ e.conn.expected = m ∧ ∀ x, ¬e.held x
  out x := x.kind? = some .data ∧ m ≤ x.seq ∨ x.kind? = some .stp ∧ m < x.seq
  back _ := False
  near_relayed := by
    rintro e e' ⟨hp, hr, hall⟩ - hst
    rcases hst.heard_or_kept (by simp [hp]) with ⟨_, _, hx, -⟩ | hkept
    · exact hx.elim
    have hp' := hkept.phase.trans hp
    refine ⟨hp', List.subset_nil.1 (hr ▸ hkept.replies), fun x hx => ?_⟩
    exact hall x ((hst.held hx).resolve_right (by simp [hp']))
  far_relayed := by
    rintro e e' ⟨hp, hr, he, hheld⟩ - hst
    rcases hst.heard_or_kept (by simp [hp]) with ⟨x, kind, hx, hk, hh⟩ | hkept
    · rw [hk, Option.some.injEq, ← he] at hx
      rw [hroom] at hh
      obtain rfl := hh.starved hp (by simpa using hx)
      exact ⟨hp, hr, he, hheld⟩
    · have hp' := hkept.phase.trans hp
      refine ⟨hp', List.subset_nil.1 (hr ▸ hkept.replies), (hkept.expected (by simp [hp])).trans he,
        fun x hx => hheld x ((hst.held hx).resolve_right (by simp [hp']))⟩
  sends := by
    rintro e x ⟨-, hr, hall⟩ - (hx | hx | hx)
    · rw [hr] at hx
      cases hx
    · exact hall x (.inr hx)
    · exact hall x (.inl (.inl hx))
  answers := by
    rintro e x ⟨-, hr, -, hheld⟩ - (hx | hx | hx)
    · rw [hr] at hx
      cases hx
    · exact hheld x (.inr hx)
    · exact hheld x (.inl (.inl hx))

def unaccepted (k : SocketPair) (cfg cfg' : Settings) : Standstill k cfg cfg' where
  near e := e.phase = .synReceived
  far _ := True
  out _ := True
  back _ := True
  near_relayed := by
    rintro e e' hp - hst
    rcases hst.heard_or_kept (by simp [hp]) with ⟨_, _, -, -, hh⟩ | hkept
    · exact hh.knocking hp
    · exact hkept.phase.trans hp
  far_relayed := fun _ _ _ _ _ => trivial
  sends := fun _ _ _ _ _ => trivial
  answers := fun _ _ _ _ _ => trivial

end Standstill

end ReliableStream
