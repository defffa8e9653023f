import ReliableStream.Proofs.Ledger
import ReliableStream.Proofs.SendState

namespace ReliableStream

namespace Station.Op

def connects : Op → Bool
  | .call (.connect _ _) => true
  | _ => false

end Station.Op

namespace Side

variable {cfg : Settings} {room : Nat} {k : SocketPair} {op : Station.Op} {r : Station.Reply}
  {e e' : Side} {s : Segment} {kind : Kind} {log : List Segment}

theorem queuedSince_of_unwindowed (hw : e'.window = none) : e.queuedSince e' = [] := by
  have hwin : e'.win = {} := by rw [win, hw]; rfl
  rw [queuedSince, hwin]
  exact List.drop_nil

theorem Sound.queuedSince_of_closed (h : e'.Sound) (hp : e'.phase = .closed) :
    e.queuedSince e' = [] := queuedSince_of_unwindowed (h.shut (.inl hp)).1

theorem Sends.counts (h : Sends k op r e e') (ho : e'.phase ≠ .closed) (hw : e.win.Counts log) :
    e'.win.Counts (log ++ e.queuedSince e') := by
  have same (hn : e'.win.next = e.win.next) (hp : e'.win.pending <:+ e.win.pending) :
      e'.win.Counts (log ++ e.queuedSince e') := by
    rw [queuedSince_of_suffix hp, List.append_nil]
    exact hw.congr hn hp
  have control {kind : Kind} {o : Side} (hc : o.win.Counts log)
      (hp : o.win.pending = e.win.pending) (he : e'.win = (o.push (.control k kind)).win) :
      e'.win.Counts (log ++ e.queuedSince e') := by
    rw [queuedSince_of_append (l := [{ Segment.control k kind with seq := o.win.next }])
      (by rw [he, win_push, Window.pending_push, hp]), he]
    exact hc.push _
  cases h with
  | gone hp => exact absurd hp ho
  | quiet he => exact same (by rw [he]) (he ▸ List.suffix_refl _)
  | acked _ _ he => exact same (by rw [he, win_acked]) (by simp [he])
  | @drained x _ _ _ he =>
    have hacked : (e.acked x.seq).win.Counts log := by
      rw [win_acked]
      exact hw.congr rfl (List.suffix_refl _)
    exact control hacked (by rw [win_acked]) he
  | finished _ he => exact control hw rfl he
  | halted _ he => exact control hw rfl he
  | wrote _ _ he =>
    rw [he, queuedSince_pushData, win_pushData]
    exact hw.extend k _
  | resent he => exact same (by rw [he]) (he ▸ List.suffix_refl _)
  | @sent limit he =>
    have hpending := Window.admitted_append limit e.win
    exact same (by rw [he, Window.next_advance]) (by rw [he]; exact ⟨_, hpending⟩)

theorem Step.counts (h : Step cfg k op r e e') (hs : e.Sound) (ho : e'.phase ≠ .closed)
    (hw : e.win.Counts log) : e'.win.Counts (log ++ e.queuedSince e') := by
  by_cases hd : ∃ ticket, r = .dialled (.ok ticket)
  · obtain ⟨ticket, hr⟩ := hd
    rcases h.of_dialled hr with rfl | rfl | ⟨-, -, rfl⟩
    · rw [queuedSince_self, List.append_nil]
      exact hw
    · exact absurd rfl ho
    · rw [queuedSince_of_append (l := [{ Segment.control k .syn with seq := e.win.next }]) rfl]
      exact hw.push _
  · exact (h.sends fun ticket hr => hd ⟨ticket, hr⟩).counts ho hw

inductive Turns (op : Station.Op) : Phase → List (Option Kind) → Phase → Prop
  | stay {p} : Turns op p [] p
  | dialled : op.connects = true → Turns op .closed [some .syn] .synSent
  | knocked : op.connects = false → Turns op .closed [] .synReceived
  | opened : Turns op .synSent [] .established
  | accepted : Turns op .synReceived [] .established
  | wrote {n} : Turns op .established (List.replicate n (some .data)) .established
  | halted : Turns op .established [] .stopReceived
  | stopped : Turns op .established [some .stp] .stopSent
  | finished {p} : p = .established ∨ p = .stopReceived ∨ p = .stopSent →
      Turns op p [some .fin] .closing

namespace Turns

theorem of_quiet (hw : e'.win.pending <:+ e.win.pending) (h : Turns op e.phase [] e'.phase) :
    Turns op e.phase ((e.queuedSince e').map Segment.kind?) e'.phase := by
  rw [queuedSince_of_suffix hw]
  exact h

theorem of_same (hp : e'.phase = e.phase) (hw : e'.win.pending <:+ e.win.pending) :
    Turns op e.phase ((e.queuedSince e').map Segment.kind?) e'.phase :=
  of_quiet hw (by rw [hp]; exact .stay)

theorem of_fin {o : Side} (hp : e.phase = .established ∨ e.phase = .stopReceived ∨ e.phase = .stopSent)
    (hp' : e'.phase = .closing) (ho : o.win.pending = e.win.pending)
    (hw : e'.win = (o.push (.control k .fin)).win) :
    Turns op e.phase ((e.queuedSince e').map Segment.kind?) e'.phase := by
  rw [hp', queuedSince_of_append (l := [{ Segment.control k .fin with seq := o.win.next }])
    (by rw [hw, win_push, Window.pending_push, ho])]
  exact .finished hp

variable {p p' : Phase} {new : List (Option Kind)}

theorem of_closing (t : Turns op p new p') (hp : p = .closing) : new = [] := by
  cases t with
  | stay => rfl
  | finished h => simp [hp] at h
  | _ => cases hp

theorem of_stopReceived (t : Turns op p new p') (hp : p = .stopReceived) :
    p' = .stopReceived ∨ p' = .closing := by
  cases t with
  | stay => exact .inl hp
  | finished => exact .inr rfl
  | _ => cases hp

theorem to_closing (t : Turns op p new p') (hp : p = .closing) : p' = .closing := by
  cases t with
  | stay => exact hp
  | finished => rfl
  | _ => cases hp

theorem established (t : Turns op p new p') (hd : some .data ∈ new) : p = .established := by
  cases t with
  | wrote => rfl
  | _ => simp at hd

end Turns

theorem connects_of_arrival (h : op.arrival? = some s) : op.connects = false := by
  cases op with
  | call => cases h
  | _ => rfl

theorem Hears.turns (h : Hears room k s kind e e') (ha : op.arrival? = some s) :
    e'.phase = .closed ∨ Turns op e.phase ((e.queuedSince e').map Segment.kind?) e'.phase := by
  cases h with
  | noted => exact .inr (.of_same (phase_swept _) (by simp))
  | opened hc hp =>
    exact .inr (.of_quiet (by simp) (by rw [phase_of_entry hc, hp]; exact .opened))
  | drained hc hp =>
    exact .inr (.of_fin (.inr (.inr ((phase_of_entry hc).trans hp))) rfl (by simp) rfl)
  | ended | collided => exact .inl rfl
  | knocked hp =>
    exact .inr (.of_quiet (List.suffix_refl _)
      (by rw [hp]; exact .knocked (connects_of_arrival ha)))
  | halted hc hp =>
    exact .inr (.of_quiet (List.suffix_refl _) (by rw [phase_of_entry hc, hp]; exact .halted))
  | crossed hc hp =>
    exact .inr (.of_fin (.inr (.inr ((phase_of_entry hc).trans hp))) rfl rfl rfl)
  | finished => exact .inl (phase_swept _)
  | kept hc | discarded hc | greeted hc | repeated hc =>
    exact .inr (.of_same (phase_of_entry hc).symm (List.suffix_refl _))
  | finishedAgain hc =>
    exact .inr (.of_same ((phase_swept _).trans (phase_of_entry hc).symm) (List.suffix_refl _))
  | misplaced => exact .inr (.of_same (phase_swept e) (List.suffix_refl _))
  | strange | strangeFin | stale | early | full =>
    exact .inr (.of_same rfl (List.suffix_refl _))

theorem Step.turns (h : Step cfg k op r e e') (hs : e.Sound) :
    e'.phase = .closed ∨ Turns op e.phase ((e.queuedSince e').map Segment.kind?) e'.phase := by
  cases h with
  | apart | passed | readNothing | closeRefused => exact .inr (.of_same rfl (List.suffix_refl _))
  | heard ha _ _ hh => exact hh.turns ha
  | dialled he =>
    have hp : e.phase = .closed := phase_of_none he
    have hw : e.win = {} := by rw [win, (hs.shut (.inl hp)).1]; rfl
    refine .inr ?_
    rw [hp, queuedSince_of_append (l := [{ Segment.control k .syn with seq := e.win.next }]) rfl]
    exact .dialled rfl
  | forgot | expired => exact .inl rfl
  | accepted hc hp =>
    exact .inr (.of_quiet (List.suffix_refl _) (by rw [phase_of_entry hc, hp]; exact .accepted))
  | read hc =>
    exact .inr (.of_same ((phase_swept _).trans (phase_of_entry hc).symm) (List.suffix_refl _))
  | @wrote _ data hd =>
    refine .inr ?_
    rw [phase_pushData]
    by_cases hn : data = []
    · subst hn
      exact .of_same rfl (List.suffix_refl _)
    · rw [queuedSince_pushData, (hd hn).1,
        List.map_eq_replicate_iff.2 fun s hs => Segment.kind_of_numbered hs]
      exact .wrote
  | closedDrained hc hp =>
    exact .inr (.of_fin (.inl ((phase_of_entry hc).trans hp)) rfl rfl rfl)
  | closedBusy hc hp =>
    refine .inr ?_
    rw [phase_of_entry hc, hp,
      queuedSince_of_append (l := [{ Segment.control k .stp with seq := e.win.next }]) rfl]
    exact .stopped
  | closedStopped hc hp =>
    exact .inr (.of_fin (.inr (.inl ((phase_of_entry hc).trans hp))) rfl rfl rfl)
  | ticked => exact .inr (.of_same rfl (List.suffix_refl _))
  | tickedClosing hc => exact .inr (.of_same (phase_of_entry hc).symm (List.suffix_refl _))
  | readRefused | writeRefused | closedIdle | tickedIdle =>
    exact .inr (.of_same (phase_swept _) (List.suffix_refl _))
  | polled =>
    exact .inr (.of_same rfl (by rw [win_sent]; exact ⟨_, Window.admitted_append cfg.limit e.win⟩))

theorem window_pushData (hw : e.window ≠ none) (l : List (List UInt8)) :
    (e.pushData k l).window ≠ none := by
  induction l generalizing e with
  | nil => exact hw
  | cons payload rest ih => exact ih (e := e.push (.data k payload)) (by simp [push])

theorem Step.window_kept (h : Step cfg k op r e e') (hw : e.window ≠ none)
    (hp : e'.phase ≠ .closed) : e'.window ≠ none := by
  cases h with
  | heard _ _ _ hh =>
    cases hh with
    | noted | opened => simpa [acked, enter, swept] using hw
    | drained | halted | crossed => simp [push, stopped, enter]
    | ended | collided => exact absurd rfl hp
    | finished => exact absurd (phase_swept _) hp
    | _ => exact hw
  | forgot | expired => exact absurd rfl hp
  | dialled | closedDrained | closedBusy | closedStopped => simp [push, enter]
  | wrote => exact window_pushData hw _
  | polled => simpa [sent] using hw
  | _ => exact hw

def halts (k : SocketPair) (op : Station.Op) (e e' : Side) : Bool :=
  op.arrival?.any fun x => x.receiverPair = k && x.kind? = some .stp &&
    x.seq = e.conn.expected && e'.conn.expected = x.seq + 1

theorem Step.of_halts (h : Step cfg k op r e e') (hh : halts k op e e' = true)
    (hp : e'.phase ≠ .closed) : e'.phase = .stopReceived ∨ e'.phase = .closing := by
  obtain ⟨x, hx, hall⟩ := Option.any_eq_true _ _ |>.1 hh
  simp only [Bool.and_eq_true, decide_eq_true_eq] at hall
  obtain ⟨⟨⟨hk, hkind⟩, hseq⟩, hnext⟩ := hall
  -- The number that is expected goes up.
  have hmoved : e'.conn ≠ e.conn := by
    intro hsame
    rw [hsame, ← hseq] at hnext
    simp at hnext
  rcases h.hears ⟨hx, hk⟩ hkind with rfl | hears
  · exact absurd rfl hmoved
  · cases hears with
    | noted hr => cases hr
    | strange | stale | early => exact absurd rfl hmoved
    | discarded hc _ hd =>
      obtain ⟨hd, -⟩ | ⟨-, hd⟩ := hd
      · cases hd
      · exact .inr hd
    | halted => exact .inl rfl
    | crossed => exact .inr rfl
    | misplaced =>
      rw [phase_swept] at hp
      exact absurd (by rw [swept_of_open hp]) hmoved

def opening (dialled : Bool) (n : Nat) : List (Option Kind) :=
  (if dialled then [some .syn] else []) ++ List.replicate n (some .data)

/-- How far the word of a connection has got in a phase. -/
inductive Spelled : Phase → Bool → List (Option Kind) → Prop
  | closed : Spelled .closed false []
  | knocked : Spelled .synReceived false []
  | dialling : Spelled .synSent true [some .syn]
  | running {p d n} : p = .established ∨ p = .stopReceived → Spelled p d (opening d n)
  | stopped {d n} : Spelled .stopSent d (opening d n ++ [some .stp])
  | finished {d n} (stp : Bool) :
      Spelled .closing d (opening d n ++ (if stp then [some .stp] else []) ++ [some .fin])

theorem opening_append (d : Bool) (n m : Nat) :
    opening d n ++ List.replicate m (some .data) = opening d (n + m) := by
  simp [opening, List.append_assoc, List.replicate_append_replicate]

namespace Spelled

variable {p p' : Phase} {d : Bool} {word new : List (Option Kind)}

theorem turn (h : Spelled p d word) (t : Turns op p new p') (hp' : p' ≠ .closed) :
    Spelled p' (d || (op.connects && p = .closed)) (word ++ new) := by
  have same (hp : p ≠ .closed) : (d || (op.connects && decide (p = .closed))) = d := by
    simp [hp]
  cases t with
  | stay =>
    rw [same hp', List.append_nil]
    exact h
  | dialled ho =>
    cases h with
    | closed => simpa [ho] using Spelled.dialling
    | running hp => simp at hp
  | knocked ho =>
    cases h with
    | closed => simpa [ho] using Spelled.knocked
    | running hp => simp at hp
  | opened =>
    cases h with
    | dialling => exact .running (d := true) (n := 0) (.inl rfl)
    | running hp => simp at hp
  | accepted =>
    cases h with
    | knocked => simpa [opening] using Spelled.running (d := false) (n := 0) (.inl rfl)
    | running hp => simp at hp
  | @wrote m =>
    rw [same (by simp)]
    cases h with
    | running hp =>
      rw [opening_append]
      exact .running (.inl rfl)
  | halted =>
    rw [same (by simp), List.append_nil]
    cases h with
    | running => exact .running (.inr rfl)
  | stopped =>
    rw [same (by simp)]
    cases h with
    | running => exact .stopped
  | finished hp =>
    rw [same (by rcases hp with rfl | rfl | rfl <;> simp)]
    cases h with
    | closed | knocked | dialling => simp at hp
    | running => simpa using Spelled.finished (d := d) false
    | stopped => simpa using Spelled.finished (d := d) true
    | finished => simp at hp

theorem eq_word (h : Spelled p d word) : ∃ n, ∃ stp fin : Bool,
    word = opening d n ++ (if stp then [some .stp] else []) ++ if fin then [some .fin] else [] := by
  cases h with
  | closed | knocked => exact ⟨0, false, false, rfl⟩
  | dialling => exact ⟨0, false, false, rfl⟩
  | @running _ _ n => exact ⟨n, false, false, by simp⟩
  | @stopped _ n => exact ⟨n, true, false, by simp⟩
  | @finished _ n stp => exact ⟨n, stp, true, by simp⟩

theorem phase_of_fin (h : Spelled p d word) (hf : some .fin ∈ word) : p = .closing := by
  cases h with
  | finished => rfl
  | _ => simp [opening] at hf

theorem phase_of_stp (h : Spelled p d word) (hs : some .stp ∈ word) :
    p = .stopSent ∨ p = .closing := by
  cases h with
  | stopped => exact .inl rfl
  | finished => exact .inr rfl
  | _ => simp [opening] at hs

end Spelled

end Side

/-- What is queued for a connection between two times that its window is released. -/
structure Chapter where
  queued : List Segment := []
  dialled : Bool := false
  halted : Bool := false

namespace Chapter

def after (c : Chapter) (k : SocketPair) (op : Station.Op) (e e' : Side) : Chapter where
  queued := if e'.window = none then [] else c.queued ++ e.queuedSince e'
  dialled := e'.phase ≠ .closed && (c.dialled || (op.connects && e.phase = .closed))
  halted := e'.phase ≠ .closed && (c.halted || Side.halts k op e e')

structure Fits (c : Chapter) (e : Side) : Prop where
  blank : e.window = none → c.queued = []
  counts : e.win.Counts c.queued
  spelled : Side.Spelled e.phase c.dialled (c.queued.map Segment.kind?)
  halted : c.halted = true → e.phase = .stopReceived ∨ e.phase = .closing

variable {c : Chapter} {cfg : Settings} {k : SocketPair} {op : Station.Op} {r : Station.Reply}
  {e e' : Side}

theorem fits_blank : Fits {} {} where
  blank _ := rfl
  counts := .blank
  spelled := .closed
  halted h := by cases h

namespace Fits

theorem shut (c : Chapter) (hs : e'.Sound) (hp : e'.phase = .closed) : (c.after k op e e').Fits e' := by
  have hw : e'.window = none := (hs.shut (.inl hp)).1
  have hq : (c.after k op e e').queued = [] := by simp [after, hw]
  constructor
  · exact fun _ => hq
  · rw [hq, Side.win, hw]
    exact .blank
  · rw [hq, hp, show (c.after k op e e').dialled = false by simp [after, hp]]
    exact .closed
  · intro hh
    simp [after, hp] at hh

theorem queued_after (h : c.Fits e) (hstep : Side.Step cfg k op r e e') (hp : e'.phase ≠ .closed) :
    (c.after k op e e').queued = c.queued ++ e.queuedSince e' := by
  by_cases hw : e'.window = none
  · have hnone : e.window = none := Classical.not_not.1 fun hne => hstep.window_kept hne hp hw
    rw [h.blank hnone, Side.queuedSince_of_unwindowed hw]
    simp [after, hw]
  · simp [after, hw]

theorem step (h : c.Fits e) (hstep : Side.Step cfg k op r e e') (hs : e.Sound) (hs' : e'.Sound) :
    (c.after k op e e').Fits e' := by
  by_cases hp : e'.phase = .closed
  · exact shut c hs' hp
  have hq := h.queued_after hstep hp
  have hturns := (hstep.turns hs).resolve_left hp
  constructor
  case blank =>
    intro hw
    simp [after, hw]
  case counts =>
    rw [hq]
    exact hstep.counts hs hp h.counts
  case spelled =>
    rw [hq, List.map_append, show (c.after k op e e').dialled =
      (c.dialled || (op.connects && e.phase = .closed)) by simp [after, hp]]
    exact h.spelled.turn hturns hp
  case halted =>
    intro hh
    have hold : c.halted = true ∨ Side.halts k op e e' = true := by simpa [after, hp] using hh
    rcases hold with hold | hnew
    · rcases h.halted hold with he | he
      · exact hturns.of_stopReceived he
      · exact .inr (hturns.to_closing he)
    · exact hstep.of_halts hnew hp

theorem queues_nothing (h : c.Fits e) (hstep : Side.Step cfg k op r e e') (hs : e.Sound)
    (hs' : e'.Sound) (hf : some .fin ∈ c.queued.map Segment.kind?) : e.queuedSince e' = [] := by
  rcases hstep.turns hs with hp | hturns
  · exact hs'.queuedSince_of_closed hp
  · exact List.map_eq_nil_iff.1 (hturns.of_closing (h.spelled.phase_of_fin hf))

theorem queues_no_data (h : c.Fits e) (hstep : Side.Step cfg k op r e e') (hs : e.Sound)
    (hs' : e'.Sound) (hc : some .stp ∈ c.queued.map Segment.kind? ∨ c.halted = true)
    {x : Segment} (hx : x ∈ e.queuedSince e') : x.kind? ≠ some .data := by
  have he : e.phase ≠ .established := by
    rcases hc with hc | hc
    · rcases h.spelled.phase_of_stp hc with he | he <;> simp [he]
    · rcases h.halted hc with he | he <;> simp [he]
  rcases hstep.turns hs with hp | hturns
  · simp [hs'.queuedSince_of_closed hp] at hx
  · intro hdata
    exact he (hturns.established (hdata ▸ List.mem_map_of_mem hx))

end Fits

end Chapter

namespace Station

def chapter (k : SocketPair) (s : Station) (c : Chapter) : List Op → Chapter
  | [] => c
  | op :: rest =>
    (s.step op).1.chapter k (c.after k op (s.host.side k) ((s.step op).1.host.side k)) rest

structure Grammar (s : Station) (k : SocketPair) (c : Chapter) : Prop where
  numbered : ∀ (i : Nat) (x : Segment), c.queued[i]? = some x → x.seq = UInt32.ofNat i
  word : ∃ n, ∃ stp fin : Bool, c.queued.map Segment.kind? =
    (if c.dialled then [some .syn] else []) ++ List.replicate n (some .data) ++
      (if stp then [some .stp] else []) ++ if fin then [some .fin] else []
  window : ∀ w, s.host.outbox.windows.get? k = some w →
    w.next = UInt32.ofNat c.queued.length ∧ w.pending <:+ c.queued
  ended : ∀ op, some .fin ∈ c.queued.map Segment.kind? →
    (s.host.side k).queuedSince ((s.step op).1.host.side k) = []
  dataless : ∀ op x, some .stp ∈ c.queued.map Segment.kind? ∨ c.halted = true →
    x ∈ (s.host.side k).queuedSince ((s.step op).1.host.side k) → x.kind? ≠ some .data

variable {s : Station} {k : SocketPair} {c : Chapter}

theorem fits_run (h : s.Orderly) (hc : c.Fits (s.host.side k)) (ops : List Op) :
    (s.chapter k c ops).Fits ((s.run ops).host.side k) := by
  induction ops generalizing s c with
  | nil => exact hc
  | cons op rest ih =>
    exact ih (h.step op) (hc.step (s.step_side h.filed op k) (h.sound k) ((h.step op).sound k))

theorem Orderly.grammar (h : s.Orderly) (hc : c.Fits (s.host.side k)) : s.Grammar k c where
  numbered := hc.counts.numbered
  word := hc.spelled.eq_word
  window w hw := by
    have hwin : (s.host.side k).win = w := by
      rw [Side.win, show (s.host.side k).window = some w from hw]
      rfl
    exact hwin ▸ ⟨hc.counts.next, hc.counts.pending⟩
  ended op hf :=
    hc.queues_nothing (s.step_side h.filed op k) (h.sound k) ((h.step op).sound k) hf
  dataless op _ hcut hx :=
    hc.queues_no_data (s.step_side h.filed op k) (h.sound k) ((h.step op).sound k) hcut hx

/-- In every run of a station and for every connection: what is queued between two releases of the
window is numbered from 0 and is a word of SYN, data, STP and FIN in this order, with a SYN if and
only if the connection has been dialled; nothing is queued after a FIN, and no data after an STP,
queued or dealt with. -/
theorem outgoing_grammar (address : HostId) (recvWindow sendWindow patience : Nat)
    (ops : List Op) (k : SocketPair) :
    ((fresh address recvWindow sendWindow patience).run ops).Grammar k
      ((fresh address recvWindow sendWindow patience).chapter k {} ops) := by
  have h := orderly_fresh address recvWindow sendWindow patience
  exact (h.run ops).grammar (fits_run h Chapter.fits_blank ops)

example :
    let c := (fresh 1 4 4 4).chapter ⟨⟨2, 7⟩, ⟨1, 0⟩⟩ {}
      [.call (.connect 2 7), .poll,
        .receive { dest := ⟨1, 0⟩, src := ⟨2, 7⟩, flags := Kind.synAck.flags },
        .call (.write ⟨⟨2, 7⟩, ⟨1, 0⟩⟩ [104]), .poll,
        .receive { dest := ⟨1, 0⟩, src := ⟨2, 7⟩, flags := Kind.stp.flags },
        .call (.write ⟨⟨2, 7⟩, ⟨1, 0⟩⟩ [105]), .call (.close ⟨⟨2, 7⟩, ⟨1, 0⟩⟩), .tick]
    c.queued.map Segment.kind? = [some .syn, some .data, some .fin] ∧ c.dialled = true ∧
      c.halted = true := by
  decide +kernel

end Station

end ReliableStream
