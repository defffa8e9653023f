import ReliableStream.Proofs.Callers
import ReliableStream.Proofs.Refusal
import ReliableStream.Proofs.Unread

namespace ReliableStream

namespace Side

variable {cfg : Settings} {room : Nat} {k : SocketPair} {op : Station.Op} {r : Station.Reply}
  {s : Segment} {kind : Kind} {e e' : Side} {c c' : Connection}

def Within (room : Nat) (e : Side) : Prop := e.conn.unread.length ≤ room

namespace Within

theorem of_none (h : e.entry = none) : e.Within room := by
  rw [Within, conn_of_none h]
  exact Nat.zero_le room

theorem congr (h : e.Within room) (he : e'.entry = e.entry) : e'.Within room := by
  rw [Within, conn_congr he]
  exact h

theorem of_entry (h : e.Within room) (hc : e.entry = some c) (hc' : e'.entry = some c')
    (hu : c'.unread = c.unread) : e'.Within room := by
  rw [Within, conn_of_entry hc] at h
  rw [Within, conn_of_entry hc', hu]
  exact h

theorem swept (h : e.Within room) : e.swept.Within room := by
  rw [Within, (swept_conn e).1]
  exact h

end Within

theorem Hears.within (hs : Hears room k s kind e e') (h : e.Within room) : e'.Within room := by
  cases hs with
  | noted =>
    have hacked : (e.acked s.seq).Within room := h.congr rfl
    exact hacked.swept
  | misplaced => exact h.swept
  | ended | collided => exact .of_none rfl
  | knocked => exact h
  | kept _ _ _ hroom =>
    rw [Within, conn_of_entry rfl, List.length_append]
    exact hroom
  | opened hc | drained hc | discarded hc | halted hc | crossed hc | greeted hc | repeated hc =>
    exact h.of_entry hc rfl rfl
  | finished hc | finishedAgain hc => exact Within.swept (h.of_entry hc rfl rfl)
  | strange | strangeFin | stale | early | full => exact h.congr rfl

theorem Step.within (hs : Step cfg k op r e e') (h : e.Within cfg.room) : e'.Within cfg.room := by
  cases hs with
  | heard _ _ _ hh => exact hh.within h
  | dialled => exact Nat.zero_le _
  | forgot | expired => exact .of_none rfl
  | accepted hc | closedDrained hc | closedBusy hc | closedStopped hc | tickedClosing hc =>
    exact h.of_entry hc rfl rfl
  | @read _ c x rest _ n hc hu =>
    refine Within.swept ?_
    rw [Within, conn_of_entry hc, hu] at h
    rw [Within, conn_of_entry rfl]
    split
    · exact h
    · exact Nat.le_of_succ_le h
  | readRefused | writeRefused | closedIdle | tickedIdle => exact h.swept
  | wrote => exact h.congr (pushData_eq _ _).1
  | apart | passed | readNothing | closeRefused | ticked | polled => exact h.congr rfl

theorem Needed.open_or_unread (h : e.Needed) (ht : e.Tended) (hc : e.entry = some c) :
    c.phase ≠ .closed ∨ c.unread ≠ [] := by
  rw [Tended, conn_of_entry hc, phase_of_entry hc] at ht
  by_cases hp : c.phase = .closed
  · have hw : c.waiter = none := ht.resolve_right (by simp [hp])
    have hidle := h c hc
    simp only [Connection.isIdle, hp, hw, decide_true, Option.isNone_none, Bool.true_and,
      Bool.and_true] at hidle
    exact .inr (List.isEmpty_eq_false_iff.1 hidle)
  · exact .inl hp

end Side

namespace Station

variable {s : Station} {ops : List Op}

theorem within_run (hf : s.host.Filed) (h : ∀ k, (s.host.side k).Within s.host.table.capacity)
    (ops : List Op) (k : SocketPair) :
    ((s.run ops).host.side k).Within s.host.table.capacity := by
  induction ops generalizing s with
  | nil => exact h k
  | cons op rest ih =>
    have hsteady := s.step_steady op
    have hroom : (s.step op).1.host.table.capacity = s.host.table.capacity :=
      congrArg Settings.room hsteady.settings
    have hrest := ih (hsteady.filed hf) fun j => hroom ▸ (s.step_side hf op j).within (h j)
    rwa [hroom] at hrest

/-- In every run, each entry belongs to a connection that is not closed or has unread data, and
there is room for what is unread. -/
theorem entries_in_use (address : HostId) (recvWindow sendWindow patience : Nat) (ops : List Op)
    (k : SocketPair) (c : Connection)
    (hc : ((fresh address recvWindow sendWindow patience).run ops).host.table.get? k = some c) :
    (c.phase ≠ .closed ∨ c.unread ≠ []) ∧ c.unread.length ≤ recvWindow := by
  have hf := filed_fresh address recvWindow sendWindow patience
  have hneeded := side_run _ Side.Step.needed hf (fun _ => .of_none rfl) ops k
  have htended := side_run _ Side.Step.tended hf (fun _ => .inl rfl) ops k
  have hwithin := within_run hf (fun _ => .of_none rfl) ops k
  rw [Side.Within, Side.conn_of_entry hc] at hwithin
  exact ⟨hneeded.open_or_unread htended hc, hwithin⟩

def fullAtEnd : List Op :=
  [.receive (incoming 5 .fin 0 []), .receive (incoming 9 .syn 0 []), .call (.accept 9),
    .receive (incoming 9 .data 1 [104]), .receive (incoming 9 .data 2 [105]),
    .receive (incoming 9 .fin 2 []), .tick, .call (.write ⟨⟨3, 3⟩, ⟨2, 4⟩⟩ [1])]

theorem entries_in_use_fullAtEnd :
    let c : Connection := { expected := 3, unread := [incoming 9 .data 1 [104]] }
    ((fresh 2 1 4 4).run fullAtEnd).host.table.get? ⟨⟨1, 7⟩, ⟨2, 9⟩⟩ = some c ∧
      (c.phase ≠ .closed ∨ c.unread ≠ []) ∧ c.unread.length ≤ 1 := by
  intro c
  have hc : ((fresh 2 1 4 4).run fullAtEnd).host.table.get? ⟨⟨1, 7⟩, ⟨2, 9⟩⟩ = some c := by
    decide +kernel
  exact ⟨hc, entries_in_use 2 1 4 4 fullAtEnd _ c hc⟩

end Station

end ReliableStream
