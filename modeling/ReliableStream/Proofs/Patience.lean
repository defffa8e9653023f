import Mathlib.Data.List.Induction
import ReliableStream.Proofs.Refusal
import ReliableStream.Proofs.SendState

namespace ReliableStream

namespace Side

variable {cfg : Settings} {room : Nat} {k : SocketPair} {s : Segment} {kind : Kind}
  {op : Station.Op} {r : Station.Reply} {e e' : Side} {c : Connection}

def clock (e : Side) : Nat := e.conn.closingTicks

theorem clock_of_entry (h : e.entry = some c) : e.clock = c.closingTicks := by
  rw [clock, conn_of_entry h]

inductive Clocks (patience : Nat) (op : Station.Op) (e e' : Side) : Prop
  | shut : e'.phase = .closed → Clocks patience op e e'
  | began : e.phase = .closed → e'.phase ≠ .closing → e'.clock = 0 → Clocks patience op e e'
  | kept : e.phase ≠ .closed → (e.phase = .closing → op ≠ .tick) → e'.clock = e.clock →
      Clocks patience op e e'
  | ticked : op = .tick → e.phase = .closing → e.clock < patience → e'.clock = e.clock + 1 →
      Clocks patience op e e'

namespace Clocks

variable {patience : Nat}

theorem same (hop : e.phase = .closing → op ≠ .tick) (hp : e'.phase = e.phase)
    (hc : e'.clock = e.clock) : Clocks patience op e e' := by
  by_cases hcl : e.phase = .closed
  · exact .shut (hp.trans hcl)
  · exact .kept hcl hop hc

theorem of_entry (hop : op ≠ .tick) {p : Phase} (hc : e.entry = some c) (hp : c.phase = p)
    (ho : p ≠ .closed) (hc' : e'.clock = c.closingTicks) : Clocks patience op e e' :=
  .kept (by rwa [phase_of_entry hc, hp]) (fun _ => hop) (hc'.trans (clock_of_entry hc).symm)

theorem swept (h : Clocks patience op e e') : Clocks patience op e e'.swept := by
  by_cases hp : e'.phase = .closed
  · exact .shut ((phase_swept e').trans hp)
  · rwa [swept_of_open hp]

end Clocks

theorem Hears.clocks {patience : Nat} (h : Hears room k s kind e e') (hop : op ≠ .tick) :
    Clocks patience op e e' := by
  have same {o : Side} (hp : o.phase = e.phase) (hc : o.clock = e.clock) :
      Clocks patience op e o := .same (fun _ => hop) hp hc
  cases h with
  | noted => exact (same (o := e.acked s.seq) rfl rfl).swept
  | opened hc hp | drained hc hp | halted hc hp | crossed hc hp =>
    exact .of_entry hop hc hp (by simp) rfl
  | ended | collided => exact .shut rfl
  | knocked hp => exact .began hp (by simp) rfl
  | kept hc | discarded hc | greeted hc | repeated hc =>
    exact same (phase_of_entry hc).symm (clock_of_entry hc).symm
  | finished => exact (Clocks.shut (phase_enter _ _)).swept
  | finishedAgain _ hp =>
    refine Clocks.swept (.shut ?_)
    exact hp
  | misplaced => exact (same rfl rfl).swept
  | strange | strangeFin | stale | early | full => exact same rfl rfl

theorem Step.clocks {patience : Nat} (h : Step cfg k op r e e') (hop : op ≠ .tick) :
    Clocks patience op e e' := by
  have same {o : Side} (hp : o.phase = e.phase) (hc : o.clock = e.clock) :
      Clocks patience op e o := .same (fun _ => hop) hp hc
  cases h with
  | heard _ _ _ hh => exact hh.clocks hop
  | dialled he => exact .began (phase_of_none he) (by simp [push, phase, enter]) rfl
  | forgot => exact .shut rfl
  | accepted hc hp | closedDrained hc hp | closedBusy hc hp | closedStopped hc hp =>
    exact .of_entry hop hc hp (by simp) rfl
  | read hc =>
    refine (same (o := e.enter _) ?_ ?_).swept
    · exact (phase_of_entry hc).symm
    · exact (clock_of_entry hc).symm
  | readRefused | writeRefused | closedIdle => exact (same rfl rfl).swept
  | wrote => exact same (phase_pushData _ _) (by rw [clock, conn, (pushData_eq _ _).1]; rfl)
  | apart | passed | readNothing | closeRefused | polled => exact same rfl rfl
  | ticked | tickedClosing | expired | tickedIdle => exact absurd rfl hop

theorem clocks_ticked (patience : Nat) (e : Side) :
    Clocks patience .tick e (e.ticked patience) := by
  rcases e.ticked_cases patience with
    ⟨hp, ht⟩ | ⟨hp, ht⟩ | ⟨c, hc, hp, ⟨hlt, ht⟩ | ⟨-, ht⟩⟩ <;> rw [ht]
  · have hsame : Clocks patience .tick e e :=
      .same (by rcases hp with hp | hp <;> simp [hp]) rfl rfl
    exact hsame.swept
  · refine .same ?_ rfl rfl
    rcases hp with hp | (hp | hp) | hp <;> simp [hp]
  · rw [← clock_of_entry hc] at hlt
    refine .ticked rfl ((phase_of_entry hc).trans hp) hlt ?_
    rw [clock_of_entry hc]
    rfl
  · exact .shut rfl

structure Timed (patience : Nat) (e : Side) : Prop where
  le : e.phase = .closing → e.clock ≤ patience
  zero : e.phase ≠ .closing → e.phase ≠ .closed → e.clock = 0

theorem timed_of_closed {patience : Nat} (h : e.phase = .closed) : e.Timed patience :=
  ⟨fun hp => by simp [h] at hp, fun _ hp => absurd h hp⟩

theorem Timed.step {patience : Nat} (h : e.Timed patience) (hc : Clocks patience op e e')
    (hm : e.phase = .closing → e'.phase = .closing ∨ e'.phase = .closed) : e'.Timed patience := by
  cases hc with
  | shut hp => exact timed_of_closed hp
  | began _ hp hz => exact ⟨fun hp' => absurd hp' hp, fun _ _ => hz⟩
  | kept ho _ heq =>
    refine ⟨fun _ => ?_, fun hp hcl => ?_⟩
    · by_cases hp : e.phase = .closing
      · exact heq ▸ h.le hp
      · rw [heq, h.zero hp ho]
        exact Nat.zero_le _
    · rw [heq]
      exact h.zero (fun hp' => (hm hp').elim hp hcl) ho
  | ticked _ hp hlt heq =>
    exact ⟨fun _ => heq ▸ hlt, fun hp' hcl => ((hm hp).elim hp' hcl).elim⟩

end Side

namespace Station

variable {s : Station} {k : SocketPair} {op : Op} {ops : List Op} {c : Connection}

theorem settings_run (s : Station) (ops : List Op) : (s.run ops).host.settings = s.host.settings := by
  induction ops generalizing s with
  | nil => rfl
  | cons op rest ih => exact (ih _).trans (s.step_steady op).settings

theorem step_clocks (hf : s.host.Filed) (op : Op) (k : SocketPair) :
    Side.Clocks s.host.patience op (s.host.side k) ((s.step op).1.host.side k) := by
  by_cases hop : op = .tick
  · subst hop
    rw [show (s.step .tick).1.host = s.host.tick from rfl, s.host.tick_side hf]
    exact Side.clocks_ticked _ _
  · exact (s.step_side hf op k).clocks hop

theorem closing_step (hf : s.host.Filed) (op : Op) (hp : (s.host.side k).phase = .closing) :
    ((s.step op).1.host.side k).phase = .closing ∨ ((s.step op).1.host.side k).phase = .closed := by
  rcases (s.step_side hf op k).moves_or_dials with hm | ⟨hcl, -⟩
  · rw [hp] at hm
    exact hm.from_closing
  · rw [hp] at hcl
    cases hcl

structure Patient (s : Station) : Prop where
  filed : s.host.Filed
  timed : ∀ k, (s.host.side k).Timed s.host.patience
  needed : ∀ k, (s.host.side k).Needed

theorem Patient.step (h : s.Patient) (op : Op) : (s.step op).1.Patient where
  filed := (s.step_steady op).filed h.filed
  timed k := by
    have hp : (s.step op).1.host.patience = s.host.patience :=
      congrArg Settings.patience (s.step_steady op).settings
    rw [hp]
    exact (h.timed k).step (step_clocks h.filed op k) (closing_step h.filed op)
  needed k := (s.step_side h.filed op k).needed (h.needed k)

theorem Patient.run (h : s.Patient) (ops : List Op) : (s.run ops).Patient := by
  induction ops generalizing s with
  | nil => exact h
  | cons op rest ih => exact ih (h.step op)

theorem patient_fresh (address : HostId) (recvWindow sendWindow patience : Nat) :
    (fresh address recvWindow sendWindow patience).Patient where
  filed := filed_fresh address recvWindow sendWindow patience
  timed _ := Side.timed_of_closed rfl
  needed _ := .of_none rfl

/-- The connection has been closing since an operation of the run, and `n` ticks have come after
it. -/
def ClosingFor (s : Station) (ops : List Op) (k : SocketPair) (n : Nat) : Prop :=
  ∃ before op since, ops = before ++ op :: since ∧
    (s.run before).host.table.phase k ≠ .closing ∧
    (∀ l, l <+: since → (s.run (before ++ op :: l)).host.table.phase k = .closing) ∧
    n = since.count .tick

theorem ClosingFor.concat {n : Nat} (h : s.ClosingFor ops k n)
    (hp : (s.run (ops ++ [op])).host.table.phase k = .closing) :
    s.ClosingFor (ops ++ [op]) k (n + if op = .tick then 1 else 0) := by
  obtain ⟨before, first, since, rfl, hbefore, hsince, rfl⟩ := h
  refine ⟨before, first, since ++ [op], by simp, hbefore, fun l hl => ?_, ?_⟩
  · rcases List.prefix_concat_iff.1 hl with rfl | hl
    · simpa using hp
    · exact hsince l hl
  · rw [List.count_append, List.count_singleton]
    by_cases hop : op = .tick <;> simp [hop]

theorem Patient.closingFor (h : s.Patient) (hs : s.host.table.phase k ≠ .closing) (ops : List Op)
    (hp : (s.run ops).host.table.phase k = .closing) :
    s.ClosingFor ops k ((s.run ops).host.side k).clock := by
  induction ops using List.reverseRecOn with
  | nil => exact absurd hp hs
  | append_singleton ops op ih =>
    have hrun : s.run (ops ++ [op]) = ((s.run ops).step op).1 := s.run_append ops [op]
    have hnow := h.run ops
    have hclocks := step_clocks hnow.filed op k
    rw [← hrun] at hclocks
    have hside : ((s.run (ops ++ [op])).host.side k).phase = .closing := hp
    -- The last step finds the connection closing, or begins to close it.
    by_cases hbefore : (s.run ops).host.table.phase k = .closing
    · have hadd : ((s.run (ops ++ [op])).host.side k).clock =
          ((s.run ops).host.side k).clock + if op = .tick then 1 else 0 := by
        cases hclocks with
        | shut hcl => simp [hcl] at hside
        | began hcl => exact absurd (hcl.symm.trans hbefore) (by simp)
        | kept _ hop heq => rw [heq, if_neg (hop hbefore), Nat.add_zero]
        | ticked hop _ _ heq => rw [heq, if_pos hop]
      rw [hadd]
      exact (ih hbefore).concat hp
    · refine ⟨ops, op, [], rfl, hbefore, fun l hl => ?_, ?_⟩
      · rw [List.prefix_nil.1 hl]
        exact hp
      · cases hclocks with
        | shut hcl => simp [hcl] at hside
        | began _ hne => exact absurd hside hne
        | kept ho _ heq =>
          rw [heq]
          exact (hnow.timed k).zero hbefore ho
        | ticked _ hcl => exact absurd hcl hbefore

structure Counts (s : Station) (ops : List Op) (k : SocketPair) : Prop where
  counted : ∀ c, (s.run ops).host.table.get? k = some c → c.phase = .closing →
    s.ClosingFor ops k c.closingTicks
  le : ∀ c, (s.run ops).host.table.get? k = some c → c.phase = .closing →
    c.closingTicks ≤ s.host.patience
  zero : ∀ c, (s.run ops).host.table.get? k = some c → c.phase ≠ .closing → c.phase ≠ .closed →
    c.closingTicks = 0
  taken : ∀ c, (s.run ops).host.table.get? k = some c → c.phase = .closing →
    c.closingTicks = s.host.patience →
    (s.run ops).tick.host.table.get? k = none ∧
      (s.run ops).tick.host.outbox.windows.get? k = none ∧
      ∀ x ∈ (s.run ops).tick.host.outbox.resends, x.senderPair ≠ k
  kept : ∀ c, (s.run ops).host.table.get? k = some c →
    ¬(c.phase = .closing ∧ c.closingTicks = s.host.patience) →
    (s.run ops).tick.host.table.get? k = some { c with
      closingTicks := if c.phase = .closing then c.closingTicks + 1 else c.closingTicks }

theorem Patient.entry_tick (h : s.Patient) (hc : s.host.table.get? k = some c)
    (hn : ¬(c.phase = .closing ∧ c.closingTicks = s.host.patience)) :
    s.tick.host.table.get? k = some { c with
      closingTicks := if c.phase = .closing then c.closingTicks + 1 else c.closingTicks } := by
  have hside : (s.tick.host.side k).entry = ((s.host.side k).ticked s.host.patience).entry := by
    rw [← s.host.tick_side h.filed]
    rfl
  have hphase : (s.host.side k).phase = c.phase := Side.phase_of_entry hc
  refine hside.trans ?_
  rcases (s.host.side k).ticked_cases s.host.patience with
    ⟨hp, ht⟩ | ⟨hp, ht⟩ | ⟨c', hc', hp, ⟨hlt, ht⟩ | ⟨hle, ht⟩⟩ <;> rw [ht]
  · have hne : c.phase ≠ .closing := by rcases hp with hp | hp <;> simp [← hphase, hp]
    rw [if_neg hne]
    exact Side.entry_swept_eq_some.2 ⟨hc, h.needed k c hc⟩
  · have hne : c.phase ≠ .closing := by rcases hp with hp | (hp | hp) | hp <;> simp [← hphase, hp]
    rw [if_neg hne]
    exact hc
  · obtain rfl : c' = c := Option.some.inj (hc'.symm.trans hc)
    rw [if_pos hp]
    rfl
  · obtain rfl : c' = c := Option.some.inj (hc'.symm.trans hc)
    have hbound := (h.timed k).le (hphase.trans hp)
    rw [Side.clock_of_entry hc] at hbound
    exact absurd ⟨hp, Nat.le_antisymm hbound hle⟩ hn

theorem Patient.forgotten_tick (h : s.Patient) (hc : s.host.table.get? k = some c)
    (hp : c.phase = .closing) (ht : c.closingTicks = s.host.patience) :
    s.tick.host.side k = (s.host.side k).forgotten := by
  refine (s.host.tick_side h.filed k).trans ?_
  rw [Side.ticked_closing hc hp, if_pos (Nat.le_of_eq ht.symm)]

theorem Patient.counts (h : s.Patient) (hs : s.host.table.phase k ≠ .closing) (ops : List Op) :
    s.Counts ops k := by
  have hrun := h.run ops
  have hpatience : (s.run ops).host.patience = s.host.patience :=
    congrArg Settings.patience (s.settings_run ops)
  have hclock (c : Connection) (hc : (s.run ops).host.table.get? k = some c) :
      ((s.run ops).host.side k).clock = c.closingTicks := Side.clock_of_entry hc
  have hphase (c : Connection) (hc : (s.run ops).host.table.get? k = some c) :
      ((s.run ops).host.side k).phase = c.phase := Side.phase_of_entry hc
  constructor
  case counted =>
    intro c hc hp
    rw [← hclock c hc]
    exact h.closingFor hs ops ((hphase c hc).trans hp)
  case le =>
    intro c hc hp
    rw [← hclock c hc, ← hpatience]
    exact (hrun.timed k).le ((hphase c hc).trans hp)
  case zero =>
    intro c hc hp hcl
    rw [← hclock c hc]
    rw [← hphase c hc] at hp hcl
    exact (hrun.timed k).zero hp hcl
  case taken =>
    intro c hc hp ht
    have hside := hrun.forgotten_tick hc hp (ht.trans hpatience.symm)
    exact ⟨congrArg Side.entry hside, congrArg Side.window hside,
      side_resends_eq_nil.1 (congrArg Side.resends hside)⟩
  case kept =>
    intro c hc hn
    exact hrun.entry_tick hc (hpatience ▸ hn)

/-- In every run and for every connection, the entry counts the ticks for which it has been closing,
and no others; it is taken by the tick that is one too many, and by no other. -/
theorem closing_ticks_counted (address : HostId) (recvWindow sendWindow patience : Nat)
    (ops : List Op) (k : SocketPair) :
    (fresh address recvWindow sendWindow patience).Counts ops k :=
  have hs : (fresh address recvWindow sendWindow patience).host.table.phase k ≠ .closing := by
    rw [Table.phase_of_none rfl]
    simp
  (patient_fresh address recvWindow sendWindow patience).counts hs ops

end Station

end ReliableStream
