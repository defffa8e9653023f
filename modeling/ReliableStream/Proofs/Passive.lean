import ReliableStream.Proofs.Dials
import ReliableStream.Proofs.Run

namespace ReliableStream

def Window.has (w : Window) (s : Segment) : Prop :=
  s ∈ w.pending ∨ ∃ i, w.unacked.get? i = some s

namespace Window

variable {w : Window} {s : Segment}

theorem has_erase {seq : SequenceNumber} (h : has { w with unacked := w.unacked.erase seq } s) :
    w.has s := by
  refine h.imp id fun ⟨i, hi⟩ => ⟨i, ?_⟩
  by_cases hs : seq = i
  · subst hs
    simp at hi
  · rwa [SortedMap.get?_erase_of_ne _ hs] at hi

theorem has_advance {limit : Nat} (h : (w.advance limit).has s) : w.has s := by
  rcases h with h | ⟨i, hi⟩
  · exact .inl (mem_pending_of_advance h)
  · rcases get?_admitFrom hi with hi | ⟨hi, -⟩
    · exact .inr ⟨i, hi⟩
    · exact .inl hi

end Window

namespace Side

variable {cfg : Settings} {k : SocketPair} {op : Station.Op} {r : Station.Reply} {e e' : Side}
  {s : Segment}

def held (e : Side) (s : Segment) : Prop := e.win.has s ∨ s ∈ e.resends

theorem Step.held (h : Step cfg k op r e e') (hs : e.Sound)
    (hd : ∀ ticket, r ≠ .dialled (.ok ticket)) (hx : e'.held s) :
    e.held s ∨ s ∈ e.queuedSince e' := by
  have push {o : Side} {x : Segment} (hw : e'.win = (o.push x).win)
      (hp : o.win.pending = e.win.pending) (ho : o.win.has s → e.win.has s)
      (hr : e'.resends = e.resends) : e.held s ∨ s ∈ e.queuedSince e' := by
    have hq : e.queuedSince e' = [{ x with seq := o.win.next }] :=
      queuedSince_of_append (by rw [hw, win_push, Window.pending_push, hp])
    rcases hx with (hx | hx) | hx
    · rw [hw, win_push, Window.pending_push] at hx
      rcases List.mem_append.1 hx with hx | hx
      · exact .inl (.inl (ho (.inl hx)))
      · exact .inr (hq ▸ hx)
    · rw [hw] at hx
      exact .inl (.inl (ho (.inr hx)))
    · exact .inl (.inr (hr ▸ hx))
  cases h.sends hd with
  | gone hp =>
    obtain ⟨hw, hr⟩ := (h.sound hs).shut (.inl hp)
    rcases hx with (hx | ⟨i, hx⟩) | hx
    · simp [win, hw] at hx
    · simp [win, hw] at hx
    · simp [hr] at hx
  | quiet hw hr =>
    refine .inl (hx.imp (fun hx => ?_) (hr ▸ ·))
    rw [hw] at hx
    exact hx
  | acked _ _ hw hr =>
    refine .inl (hx.imp (fun hx => ?_) (hr ▸ ·))
    rw [hw, win_acked] at hx
    exact Window.has_erase hx
  | drained _ _ _ hw hr =>
    refine push hw (by rw [win_acked]) (fun hx => ?_) hr
    rw [win_acked] at hx
    exact Window.has_erase hx
  | finished _ hw hr => exact push hw rfl id hr
  | halted _ hw hr => exact push hw rfl id hr
  | @wrote data _ _ he =>
    rw [he, queuedSince_pushData]
    rw [he, Side.held, win_pushData] at hx
    rcases hx with (hx | hx) | hx
    · exact (List.mem_append.1 hx).imp (fun hx => .inl (.inl hx)) id
    · exact .inl (.inl (.inr hx))
    · rw [(pushData_eq _ _).2.2.2] at hx
      exact .inl (.inr hx)
  | resent hw hr =>
    rcases hx with hx | hx
    · exact .inl (.inl (hw ▸ hx))
    · rw [hr] at hx
      rcases Outbox.mem_addMissing.1 hx with hx | hx
      · exact .inl (.inr hx)
      · exact .inl (.inl (.inr (SortedMap.mem_values_iff.1 hx)))
  | sent hw hr =>
    rcases hx with hx | hx
    · rw [hw] at hx
      exact .inl (.inl (Window.has_advance hx))
    · rw [hr] at hx
      cases hx

theorem Sound.held_dialled {c : Connection} {x : Segment} (h : e.Sound) (hn : e.entry = none)
    (hx : ((e.enter c).push x).held s) : s = { x with seq := 0 } := by
  have hp : e.phase = .closed := phase_of_none hn
  obtain ⟨hw, hr⟩ := h.shut (.inl hp)
  rcases hx with (hx | ⟨i, hx⟩) | hx
  · have hx : s ∈ e.win.pending ++ [{ x with seq := e.win.next }] := hx
    rw [win, hw] at hx
    exact List.mem_singleton.1 hx
  · have hx : e.win.unacked.get? i = some s := hx
    rw [win, hw] at hx
    cases hx
  · have hx : s ∈ e.resends := hx
    rw [hr] at hx
    cases hx

theorem Queues.not_syn {new : List Segment} (h : Queues k op r e e' new) (hs : s ∈ new) :
    s.kind? ≠ some .syn := by
  cases h with
  | nothing => cases hs
  | data _ hd => simp [hd s hs]
  | stp _ _ hk => simp [List.mem_singleton.1 hs, hk]
  | fin _ _ hk => simp [List.mem_singleton.1 hs, hk]

theorem Step.not_syn (h : Step cfg k op r e e') (hs : e.Sound)
    (hd : ∀ ticket, r ≠ .dialled (.ok ticket)) (he : ∀ x, e.held x → x.kind? ≠ some .syn)
    (hx : e'.held s) : s.kind? ≠ some .syn :=
  (h.held hs hd hx).elim (he s) (h.sends hd).queues.not_syn

theorem Sound.held_of_sending (h : e.Sound) (hs : e.sending s) (hr : s.isReply = false) :
    e.held s := by
  rcases hs with hs | hs | hs
  · rw [h.replies s hs] at hr
    cases hr
  · exact .inr hs
  · exact .inl (.inl hs)

end Side

namespace Network

variable {n : Network} {i j : Nat} {k : SocketPair} {op : Op} {ops : List Op}

structure Passive (n : Network) (j : Nat) (k : SocketPair) : Prop where
  dials : ∀ s, n.stations[j]? = some s → s.dials = []
  held : ∀ x, (n.side j k).held x → x.kind? ≠ some .syn
  wire : ∀ x, n.Carries x → x.senderPair = k → x.kind? ≠ some .syn

theorem Passive.step (h : n.Passive j k) (hj : n.Joins j i k)
    (hop : ∀ farHost farPort, op ≠ .call j (.connect farHost farPort)) :
    (n.step op).1.Passive j k := by
  have hsound := hj.tidy.side_sound j k
  refine ⟨fun s' hs' => ?_, ?_, ?_⟩
  · rcases n.step_station op j with ⟨o, ha, hs⟩ | ⟨-, hs⟩
    · rw [hs'] at hs
      obtain ⟨s, hn, rfl⟩ := Option.map_eq_some_iff.1 hs.symm
      have ho : ∀ farHost farPort, o ≠ .call (.connect farHost farPort) := by
        rintro farHost farPort rfl
        cases ha
        exact hop farHost farPort rfl
      have hsub := s.dials_step ho
      rw [h.dials s hn] at hsub
      exact List.sublist_nil.1 hsub
    · exact h.dials s' (hs ▸ hs')
  · rcases hj.near_acts op with hsame | ⟨o, r, hev, hst⟩
    · rw [hsame]
      exact h.held
    · cases hst with
      | near hside =>
        cases hev with
        | near ha => exact fun x hx => hside.not_syn hsound (ha.not_dialled hop) h.held hx
  · intro x hx hk
    rcases hj.out_step hx hk with hx | ⟨-, hx⟩
    · exact h.wire x hx hk
    · cases hr : x.isReply with
      | false => exact h.held x (hsound.held_of_sending hx hr)
      | true =>
        intro hs
        simp [Segment.isReply, hs, Kind.isReply] at hr

theorem Passive.run (h : n.Passive j k) (hj : n.Joins j i k)
    (hops : ∀ op ∈ ops, ∀ farHost farPort, op ≠ .call j (.connect farHost farPort)) :
    (n.run ops).Passive j k := by
  induction ops generalizing n with
  | nil => exact h
  | cons op rest ih =>
    obtain ⟨hop, hrest⟩ := List.forall_mem_cons.1 hops
    exact ih (h.step hj hop) (hj.step op) hrest

theorem Passive.side_of_settles {o : Station.Op} {r : Station.Reply} (h : n.Passive j k.swap)
    (hev : n.EventOf op i j (.far o r)) (ho : o.settles = true) :
    (n.step op).1.side j k.swap = n.side j k.swap := by
  cases hev with
  | far ha hs =>
    have hs' := ha.step_station hs
    rw [Station.step_of_settles (h.dials _ hs) ho] at hs'
    rw [side_of_some hs', side_of_some hs]

theorem Passive.stays_closed {o : Station.Op} {r : Station.Reply} {v' : Link}
    (h : n.Passive j k.swap) (hst : Link.Step k (.near o r) (n.link i j k) v')
    (hd : ∀ ticket, r ≠ .dialled (.ok ticket)) (hp : (n.side i k).phase = .closed) :
    v'.near.phase = .closed := by
  cases hst with
  | near hside _ harr =>
    have hmoves := hside.moves hd
    rw [show (n.link i j k).near.phase = .closed from hp] at hmoves
    rcases hmoves.from_closed with hc | ⟨-, x, hx, hk⟩
    · exact hc
    · obtain ⟨hcar, hpair⟩ := harr x hx.1 hx.2
      exact absurd hk (h.wire x hcar hpair)

theorem passive_fresh {a b : HostId} {ra sa pa rb sb pb : Nat} (k : SocketPair) :
    (pair (.fresh a ra sa pa) (.fresh b rb sb pb)).Passive 1 k := by
  refine ⟨fun s hs => ?_, fun x hx => ?_, fun x hx => ?_⟩
  · rcases fresh_station hs with ⟨h, -⟩ | ⟨-, rfl⟩
    · cases h
    · rfl
  · rcases hx with (hx | ⟨i, hx⟩) | hx <;> cases hx
  · obtain ⟨f, hf, -⟩ := hx
    cases hf

end Network

end ReliableStream
