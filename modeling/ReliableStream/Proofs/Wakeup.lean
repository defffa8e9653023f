import ReliableStream.Proofs.Operations

namespace ReliableStream

open Side

namespace Window

theorem admitted_advance (limit : Nat) (w : Window) : (w.advance limit).admitted limit = [] := by
  have key (u : SortedMap SequenceNumber Segment) (l : List Segment) :
      (admitFrom limit (admitFrom limit u l).1 (admitFrom limit u l).2.2).2.1 = [] := by
    induction l generalizing u with
    | nil => rfl
    | cons s rest ih =>
      by_cases hu : u.size < limit
      · simp only [admitFrom, hu, if_true]
        exact ih (u.insert s.seq s)
      · simp only [admitFrom, hu, if_false]
  exact key w.unacked w.pending

end Window

namespace Outbox

theorem outgoing_eq_nil {o : Outbox} : o.outgoing = [] ↔
    o.replies = [] ∧ o.resends = [] ∧ ∀ k w, o.windows.get? k = some w → w.admitted o.limit = [] := by
  simp only [outgoing, List.append_eq_nil_iff, List.flatMap_eq_nil_iff, and_assoc]
  refine and_congr_right fun _ => and_congr_right fun _ => ?_
  constructor
  · exact fun h k w hw => h w (SortedMap.mem_values_iff.2 ⟨k, hw⟩)
  · intro h w hw
    obtain ⟨k, hk⟩ := SortedMap.mem_values_iff.1 hw
    exact h k w hk

theorem outgoing_afterSending (o : Outbox) : o.afterSending.outgoing = [] := by
  refine outgoing_eq_nil.2 ⟨rfl, rfl, fun k w hw => ?_⟩
  rw [windows_afterSending] at hw
  obtain ⟨v, -, rfl⟩ := Option.map_eq_some_iff.1 hw
  exact Window.admitted_advance o.limit v

theorem outgoing_release {o : Outbox} (h : o.outgoing = []) (k : SocketPair) :
    (o.release k).outgoing = [] := by
  obtain ⟨hreplies, hresends, hwindows⟩ := outgoing_eq_nil.1 h
  refine outgoing_eq_nil.2 ⟨hreplies, by simp [release, hresends], fun j w hw => ?_⟩
  exact hwindows j w (SortedMap.get?_of_erase hw)

end Outbox

namespace Host

/-- If a poll would give anything, the host is nudged. -/
def Prompt (h : Host) : Prop := h.outbox.outgoing ≠ [] → h.nudged = true

structure Quiet (h h' : Host) : Prop where
  nudged : h'.nudged = h.nudged
  outgoing : h.outbox.outgoing = [] → h'.outbox.outgoing = []

variable {h h' h'' : Host}

theorem Prompt.quiet (hp : h.Prompt) (q : Quiet h h') : h'.Prompt := by
  intro ho
  rw [q.nudged]
  exact hp fun he => ho (q.outgoing he)

theorem prompt_nudge (h : Host) : h.nudge.Prompt := fun _ => rfl

theorem prompt_of_silent (ho : h.outbox.outgoing = []) : h.Prompt := fun hne => absurd ho hne

namespace Quiet

theorem of_outbox (hn : h'.nudged = h.nudged) (ho : h'.outbox = h.outbox) : Quiet h h' :=
  ⟨hn, fun hs => ho ▸ hs⟩

theorem refl (h : Host) : Quiet h h := .of_outbox rfl rfl

theorem trans (a : Quiet h h') (b : Quiet h' h'') : Quiet h h'' :=
  ⟨b.nudged.trans a.nudged, b.outgoing ∘ a.outgoing⟩

end Quiet

theorem quiet_apply {k : SocketPair} {event : Event} {segment : Option Segment} {facts : Facts}
    {failure : Failure} (he : h.apply k event segment facts = (h', .error failure)) :
    Quiet h h' := by
  have hfailed : (h.apply k event segment facts).2 = .error failure := by rw [he]
  have hr := apply_of_error hfailed
  rw [he] at hr
  obtain rfl : h' = h.reap k := hr
  exact .of_outbox rfl rfl

theorem quiet_sendAll {k : SocketPair} {l : List (List UInt8)} {failure : Failure}
    (he : Station.sendAll h k l = (h', some failure)) : Quiet h h' := by
  by_cases ho : (h.side k).phase = .established ∧ (h.side k).win.stopped = false
  · have hnone := (h.sendAll_open (l := l) ho.1 ho.2).2
    rw [he] at hnone
    cases hnone
  · cases l with
    | nil => cases he
    | cons payload rest =>
      -- No payload after the first one is refused.
      obtain ⟨-, f, hf⟩ := h.apply_send_refused payload ho
      unfold Station.sendAll at he
      rw [← Prod.eta (h.apply k .send (some (.data k payload)) {}), hf] at he
      cases he
      exact quiet_apply (Prod.ext rfl hf)

theorem prompt_receive (hp : h.Prompt) (s : Segment) : (h.receive s).Prompt := by
  unfold receive
  cases s.kind? with
  | none => exact hp
  | some kind =>
    simp only [receiveKind]
    split
    · exact prompt_nudge _
    split
    · exact prompt_nudge _
    split
    · exact prompt_nudge _
    split
    · exact prompt_nudge _
    split
    · exact hp
    · exact prompt_nudge _

end Host

namespace Station

variable {s : Station}

theorem quiet_cleanUp (s : Station) (k : SocketPair) : s.host.Quiet (s.cleanUp k).host :=
  ⟨rfl, fun ho => Outbox.outgoing_release ho k⟩

theorem quiet_cancel (s : Station) (ticket : Ticket) : s.host.Quiet (s.cancel ticket).host :=
  .of_outbox rfl rfl

theorem quiet_settle (s : Station) (d : Dial) : s.host.Quiet (s.settle d).1.host := by
  unfold settle
  split
  · exact .refl _
  · exact s.quiet_cancel _
  · exact (s.quiet_cancel _).trans (quiet_cleanUp _ _)
  · exact (s.quiet_cancel _).trans (quiet_cleanUp _ _)

theorem quiet_settleAll (s : Station) (l : List Dial) : s.host.Quiet (s.settleAll l).1.host := by
  induction l generalizing s with
  | nil => exact .refl _
  | cons d rest ih => exact (s.quiet_settle d).trans (ih _)

theorem prompt_connect (hp : s.host.Prompt) (farHost : HostId) (farPort : Port) :
    (s.connect farHost farPort).1.host.Prompt := by
  unfold connect
  split
  · exact hp
  cases s.host.table.freePort? with
  | none => exact hp
  | some port =>
    simp only
    split
    · rename_i heq
      have hq : s.host.Quiet (s.host.await ⟨⟨farHost, farPort⟩, ⟨s.address, port⟩⟩).1 :=
        .of_outbox rfl rfl
      exact hp.quiet ((hq.trans (Host.quiet_apply heq)).trans (.of_outbox rfl rfl))
    · exact Host.prompt_nudge _

theorem prompt_accept (hp : s.host.Prompt) (p : Port) : (s.accept p).1.host.Prompt := by
  unfold accept
  split
  · exact hp
  simp only
  generalize nextPending (s.host.table.listen p) p ((s.host.table.listen p).pending p).length = r
  obtain ⟨table, next⟩ := r
  have hq : s.host.Quiet { s.host with table } := .of_outbox rfl rfl
  cases next with
  | none => exact hp.quiet hq
  | some syn =>
    simp only
    split
    · rename_i heq
      exact hp.quiet (hq.trans (Host.quiet_apply heq))
    · exact Host.prompt_nudge _

theorem prompt_write (hp : s.host.Prompt) (k : SocketPair) (data : List UInt8) :
    (s.write k data).1.host.Prompt := by
  unfold write
  split
  · rename_i heq
    exact hp.quiet (Host.quiet_sendAll heq)
  · exact Host.prompt_nudge _

theorem prompt_close (hp : s.host.Prompt) (k : SocketPair) : (s.close k).1.host.Prompt := by
  unfold close
  split
  · rename_i heq
    exact hp.quiet (Host.quiet_apply heq)
  · exact Host.prompt_nudge _

theorem prompt_step (hp : s.host.Prompt) (op : Op) : (s.step op).1.host.Prompt := by
  cases op with
  | call c =>
    cases c with
    | connect farHost farPort => exact prompt_connect hp farHost farPort
    | resume ticket =>
      simp only [step, call, resume]
      split
      · exact hp
      · exact hp.quiet (s.quiet_settle _)
    | resumeAll => exact hp.quiet (s.quiet_settleAll s.dials)
    | cancel ticket => exact hp.quiet (s.quiet_cancel ticket)
    | accept p => exact prompt_accept hp p
    | read k buffer => exact hp.quiet (.of_outbox rfl rfl)
    | write k data => exact prompt_write hp k data
    | close k => exact prompt_close hp k
  | receive x => exact Host.prompt_receive hp x
  | receiveFrame f =>
    simp only [step, receiveFrame, Host.receiveFrame]
    split
    · exact hp
    · exact Host.prompt_receive hp _
  | tick => exact Host.prompt_nudge _
  | expire ticket =>
    simp only [step, expire]
    split
    · exact hp
    · exact hp.quiet ((s.quiet_cancel ticket).trans (quiet_cleanUp _ _))
  | poll => exact Host.prompt_of_silent (Outbox.outgoing_afterSending _)
  | sendRound =>
    simp only [step, sendRound]
    split
    · exact Host.prompt_of_silent (Outbox.outgoing_afterSending _)
    · exact hp

theorem prompt_run (hp : s.host.Prompt) (ops : List Op) : (s.run ops).host.Prompt := by
  induction ops generalizing s with
  | nil => exact hp
  | cons op rest ih => exact ih (prompt_step hp op)

/-- After every operation of every run: if a poll would give anything, the next sending round is
taken, for the station is nudged. -/
theorem nudged_of_outgoing (address : HostId) (recvWindow sendWindow patience : Nat)
    (ops : List Op)
    (ho : ((fresh address recvWindow sendWindow patience).run ops).poll.2 ≠ []) :
    ((fresh address recvWindow sendWindow patience).run ops).host.nudged = true :=
  prompt_run (Host.prompt_of_silent rfl) ops ho

def narrow : List Op :=
  [.call (.connect 2 7), .sendRound,
    .receive { dest := ⟨1, 0⟩, src := ⟨2, 7⟩, flags := Kind.synAck.flags }, .sendRound,
    .call (.resume 0), .call (.write ⟨⟨2, 7⟩, ⟨1, 0⟩⟩ [104]),
    .call (.write ⟨⟨2, 7⟩, ⟨1, 0⟩⟩ [105]), .sendRound,
    .receive { dest := ⟨1, 0⟩, src := ⟨2, 7⟩, flags := Kind.ack.flags, seq := 1 }]

theorem nudged_of_outgoing_narrow :
    ((fresh 1 4 1 4).run (narrow.take 8)).poll.2 = [] ∧
      ((fresh 1 4 1 4).run (narrow.take 8)).host.nudged = false ∧
      ((fresh 1 4 1 4).run narrow).poll.2 ≠ [] ∧
      ((fresh 1 4 1 4).run narrow).host.nudged = true := by
  have ho : ((fresh 1 4 1 4).run narrow).poll.2 ≠ [] := by decide +kernel
  exact ⟨by decide +kernel, by decide +kernel, ho, nudged_of_outgoing 1 4 1 4 narrow ho⟩

end Station

end ReliableStream
