import ReliableStream.Proofs.SendState

namespace ReliableStream

open Side

namespace Side

variable (t : Table) (o : Outbox) (k : SocketPair)

theorem of_adjust (f : Connection → Connection) :
    of (t.adjust k f) o k = { of t o k with entry := (of t o k).entry.map f } := by
  simp [of]

theorem of_remove : of (t.remove k) o k = { of t o k with entry := none } := by
  simp [of]

end Side

namespace Host

/-- Hosts that hold the same of a connection. -/
structure Alike (k : SocketPair) (h g : Host) : Prop where
  filed : h.Filed ∧ g.Filed
  settings : h.settings = g.settings
  side : h.side k = g.side k

inductive Agree (k : SocketPair) :
    Host × Except CallFault Bool → Host × Except CallFault Bool → Prop
  | alike {h g} (result) : Alike k h g → Agree k (h, result) (g, result)

namespace Alike

variable {k : SocketPair} {h g h' g' : Host} {s : Segment} {segment : Option Segment}

theorem map (a : Alike k h g) (f : Side → Side) (th : Touches k True h h')
    (tg : Touches k True g g') (hh : h'.side k = f (h.side k)) (hg : g'.side k = f (g.side k)) :
    Alike k h' g' where
  filed := ⟨th.confined.filed a.filed.1, tg.confined.filed a.filed.2⟩
  settings := th.confined.settings.trans (a.settings.trans tg.confined.settings.symm)
  side := by rw [hh, hg, a.side]

theorem phase (a : Alike k h g) : h.table.phase k = g.table.phase k := congrArg Side.phase a.side

theorem entry (a : Alike k h g) : h.table.get? k = g.table.get? k := congrArg Side.entry a.side

theorem conn (a : Alike k h g) : h.table.get k = g.table.get k := congrArg Side.conn a.side

theorem window (a : Alike k h g) : h.outbox.window k = g.outbox.window k := congrArg Side.win a.side

theorem hasRoom (a : Alike k h g) : h.table.hasRoom k = g.table.hasRoom k := by
  unfold Table.hasRoom
  rw [a.conn, show h.table.capacity = g.table.capacity from congrArg Settings.room a.settings]

theorem facts (a : Alike k h g) : h.facts k = g.facts k := by
  unfold Host.facts Outbox.isDrained
  rw [a.window]

theorem put (a : Alike k h g) (c : Connection) :
    Alike k { h with table := h.table.put k c } { g with table := g.table.put k c } :=
  a.map (·.enter c) (.put h c) (.put g c) (of_put _ _ k c) (of_put _ _ k c)

theorem adjust (a : Alike k h g) (f : Connection → Connection) :
    Alike k { h with table := h.table.adjust k f } { g with table := g.table.adjust k f } :=
  a.map (fun e => { e with entry := e.entry.map f }) (.adjust h f) (.adjust g f)
    (of_adjust _ _ k f) (of_adjust _ _ k f)

theorem reap (a : Alike k h g) : Alike k (h.reap k) (g.reap k) :=
  a.map swept .reap .reap (side_reap h) (side_reap g)

theorem reply (a : Alike k h g) (hs : s.senderPair = k) :
    Alike k { h with outbox := h.outbox.reply s } { g with outbox := g.outbox.reply s } :=
  a.map (·.answer s) (.reply h hs) (.reply g hs) (of_reply _ _ hs) (of_reply _ _ hs)

theorem release (a : Alike k h g) :
    Alike k { h with outbox := h.outbox.release k } { g with outbox := g.outbox.release k } :=
  a.map released (.release h) (.release g) (of_release _ _ k) (of_release _ _ k)

theorem remove (a : Alike k h g) :
    Alike k { h with table := h.table.remove k } { g with table := g.table.remove k } :=
  a.map (fun e => { e with entry := none }) (.remove h) (.remove g)
    (of_remove _ _ k) (of_remove _ _ k)

theorem deliver (a : Alike k h g) (s : Segment) :
    Alike k { h with table := h.table.deliver k s } { g with table := g.table.deliver k s } := by
  unfold Table.deliver Table.ensure
  rw [a.conn, a.hasRoom]
  simp only
  split
  · exact a.put _
  · exact a.put _

theorem tell (a : Alike k h g) (x : Answer) : Alike k (h.tell k x) (g.tell k x) := by
  unfold Host.tell
  rw [a.conn]
  split
  · exact a
  · exact (a.adjust fun c => { c with waiter := none }).map id
      (.aside rfl rfl rfl rfl) (.aside rfl rfl rfl rfl) rfl rfl

theorem enqueue (a : Alike k h g) (hs : s.senderPair = k) :
    Agree k (h.enqueue s) (g.enqueue s) := by
  subst hs
  by_cases hr : (h.outbox.window s.senderPair).stopped ∧ s.kind? = some .data
  · rw [h.enqueue_of_stopped hr, g.enqueue_of_stopped (a.window ▸ hr)]
    exact .alike _ a
  · rw [h.enqueue_of_open hr, g.enqueue_of_open (a.window ▸ hr)]
    exact .alike _ (a.map (·.push s) (.push h rfl) (.push g rfl)
      (of_push _ _ _ s) (of_push _ _ _ s))

theorem act (a : Alike k h g) {action : Action} (hb : Belongs k segment action) :
    Agree k (h.act k segment action) (g.act k segment action) := by
  cases action with
  | transmit kind => exact a.enqueue rfl
  | reply kind =>
    cases segment with
    | none => exact .alike _ a
    | some s => exact .alike _ (a.reply (hb s rfl))
  | queueForAccept =>
    cases segment with
    | none => exact .alike _ a
    | some s =>
      exact .alike _ (a.map (·.greeted s) (.knock h (hb s rfl))
        (.knock g (hb s rfl)) (of_pushPending _ _ (hb s rfl)) (of_pushPending _ _ (hb s rfl)))
  | wakeConnect => exact .alike _ (a.tell .opened)
  | enqueue =>
    cases segment with
    | none => exact .alike _ a
    | some s => exact a.enqueue (hb s rfl)
  | deliver =>
    cases segment with
    | none => exact .alike _ a
    | some s =>
      simp only [Host.act]
      rw [a.hasRoom]
      split
      · exact .alike _ ((a.deliver s).reply (hb s rfl))
      · exact .alike _ (a.deliver s)
  | stopSending =>
    exact .alike _ (a.map stopped (.stop h) (.stop g) (of_stop _ _ k)
      (of_stop _ _ k))
  | releaseSender => exact .alike _ a.release
  | release => exact .alike _ a.release.remove
  | retransmit =>
    exact .alike _ (a.map resent (.resend h trivial) (.resend g trivial)
      (of_resend _ _ a.filed.1.outbox k) (of_resend _ _ a.filed.2.outbox k))

theorem actAll (a : Alike k h g) {l : List Action} (hb : ∀ x ∈ l, Belongs k segment x) :
    Agree k (h.actAll k segment l) (g.actAll k segment l) := by
  induction l generalizing h g with
  | nil => exact .alike _ a
  | cons x rest ih =>
    obtain ⟨hx, hrest⟩ := List.forall_mem_cons.1 hb
    have hact := a.act hx
    unfold Host.actAll
    generalize h.act k segment x = r, g.act k segment x = r' at hact
    obtain @⟨h', g', result, a'⟩ := hact
    cases result with
    | error fault => exact .alike _ a'
    | ok accepted =>
      have hall := ih a' hrest
      simp only
      generalize h'.actAll k segment rest = r, g'.actAll k segment rest = r' at hall
      obtain @⟨_, _, result, a''⟩ := hall
      cases result with
      | error fault => exact .alike _ a''
      | ok others => exact .alike _ a''

theorem apply (a : Alike k h g) (event : Event) (segment : Option Segment) (facts : Facts)
    (hb : ∀ s ∈ segment, if event = .send then s.senderPair = k else s.receiverPair = k) :
    ∃ h' g' r, h.apply k event segment facts = (h', r) ∧ g.apply k event segment facts = (g', r) ∧
      Alike k h' g' := by
  unfold Host.apply
  rw [a.phase]
  cases hm : (g.table.phase k).move? event facts with
  | none =>
    simp only [Phase.move, hm]
    exact ⟨_, _, _, rfl, rfl, a.reap⟩
  | some m =>
    simp only [Phase.move, hm, Table.ensure, a.conn]
    have hall : ∀ x ∈ m.actions, Belongs k segment x := by
      intro x hx s hs
      simpa [Phase.enqueue_mem_actions hm hx] using hb s hs
    have hact := (a.put (g.table.get k)).actAll hall
    generalize Host.actAll { h with table := h.table.put k (g.table.get k) } k segment m.actions = r,
      Host.actAll { g with table := g.table.put k (g.table.get k) } k segment m.actions = r' at hact
    obtain @⟨_, _, result, a'⟩ := hact
    cases result with
    | error fault => exact ⟨_, _, _, rfl, rfl, a'.reap⟩
    | ok accepted => exact ⟨_, _, _, rfl, rfl, (a'.adjust _).reap⟩

theorem arrive (a : Alike s.receiverPair h g) (kind : Kind) :
    Alike s.receiverPair (h.arrive s kind) (g.arrive s kind) := by
  obtain ⟨h', g', r, hh, hg, ha⟩ :=
    a.apply (.arrival kind) (some s) (h.facts s.receiverPair) (by simp)
  unfold Host.arrive
  simp only
  rw [← a.facts, hh, hg]
  cases r with
  | ok outcome =>
    simp only
    split
    · exact ha.adjust _
    · exact ha
  | error failure =>
    cases failure with
    | simultaneousOpen => exact (ha.tell .collided).remove.release
    | _ => exact ha

theorem answerAgain (a : Alike s.receiverPair h g) (kind : Kind) :
    Alike s.receiverPair (h.answerAgain s kind) (g.answerAgain s kind) := by
  unfold Host.answerAgain
  rw [a.phase]
  cases kind with
  | data | stp | fin => exact a.reply rfl
  | syn =>
    simp only
    split
    · exact a.reply rfl
    · exact a.reply rfl
    · exact a
  | _ => exact a

theorem nudge (a : Alike k h g) : Alike k h.nudge g.nudge :=
  a.map id .nudge .nudge rfl rfl

theorem receive (a : Alike s.receiverPair h g) :
    Alike s.receiverPair (h.receive s) (g.receive s) := by
  unfold Host.receive
  cases s.kind? with
  | none => exact a
  | some kind =>
    simp only [Host.receiveKind]
    rw [a.phase, a.entry]
    have hack : Alike s.receiverPair
        { h with outbox := h.outbox.acknowledge s.receiverPair s.seq }
        { g with outbox := g.outbox.acknowledge s.receiverPair s.seq } :=
      a.map (·.acked s.seq) (.acknowledge h _) (.acknowledge g _)
        (of_acknowledge _ _ _ _) (of_acknowledge _ _ _ _)
    split
    · exact (hack.arrive kind).nudge
    split
    · exact ((a.adjust _).arrive kind).nudge
    split
    · exact (a.arrive kind).nudge
    split
    · exact (a.answerAgain kind).nudge
    split
    · exact a
    · exact (a.arrive kind).nudge

theorem read (a : Alike k h g) (buffer : List UInt8) :
    Alike k { h with table := (h.table.read k buffer).1 }
      { g with table := (g.table.read k buffer).1 } := by
  unfold Table.read
  rw [a.entry]
  cases g.table.get? k with
  | none => exact a
  | some c =>
    cases hu : c.unread with
    | nil =>
      simp only [hu]
      split
      · exact a.reap
      · exact a
    | cons s rest =>
      simp only [hu]
      exact (a.put _).reap

theorem sendAll (a : Alike k h g) (l : List (List UInt8)) :
    ∃ h' g' r, Station.sendAll h k l = (h', r) ∧ Station.sendAll g k l = (g', r) ∧
      Alike k h' g' := by
  induction l generalizing h g with
  | nil => exact ⟨h, g, none, rfl, rfl, a⟩
  | cons payload rest ih =>
    obtain ⟨h', g', r, hh, hg, ha⟩ := a.apply .send (some (.data k payload)) {} (by simp)
    unfold Station.sendAll
    rw [hh, hg]
    cases r with
    | ok outcome => exact ih ha
    | error failure => exact ⟨h', g', some failure, rfl, rfl, ha⟩

end Alike

end Host

namespace Station

def Op.isRoutine : Op → Bool
  | .receive _ | .receiveFrame _ | .tick | .poll => true
  | .call (.read _ _) | .call (.write _ _) | .call (.close _) => true
  | _ => false

def Op.concerns (k : SocketPair) : Op → Bool
  | .call (.read j _) | .call (.write j _) | .call (.close j) => j = k
  | .receive s => s.receiverPair = k
  | .receiveFrame f => (Segment.ofFrame f).toOption.any fun s => s.receiverPair = k
  | .tick | .poll => true
  | _ => false

def sentFor (k : SocketPair) (s : Station) (ops : List Op) : List (List Segment) :=
  (s.history ops).filterMap fun x =>
    match x.2 with
    | .sent segments => some (segments.filter fun y => y.senderPair = k)
    | _ => none

variable {k : SocketPair} {s t : Station} {op : Op}

theorem alike_of_concerns (a : s.host.Alike k t.host) (hop : op.isRoutine = true)
    (hc : op.concerns k = true) : (s.step op).1.host.Alike k (t.step op).1.host := by
  cases op with
  | call c =>
    cases c with
    | read j buffer =>
      obtain rfl : j = k := by simpa [Op.concerns] using hc
      exact a.read buffer
    | write j data =>
      obtain rfl : j = k := by simpa [Op.concerns] using hc
      obtain ⟨h', g', r, hh, hg, ha⟩ := a.sendAll (payloads data)
      simp only [step, call, write, hh, hg]
      cases r with
      | none => exact ha.nudge
      | some failure => exact ha
    | close j =>
      obtain rfl : j = k := by simpa [Op.concerns] using hc
      obtain ⟨h', g', r, hh, hg, ha⟩ := a.apply .close none (s.host.facts j) (by simp)
      simp only [step, call, close]
      rw [← a.facts, hh, hg]
      cases r with
      | ok outcome => exact ha.nudge
      | error failure => exact ha
    | _ => cases hop
  | receive x =>
    obtain rfl : x.receiverPair = k := by simpa [Op.concerns] using hc
    exact a.receive
  | receiveFrame f =>
    simp only [step, receiveFrame, Host.receiveFrame]
    cases hx : Segment.ofFrame f with
    | error fault => exact a
    | ok x =>
      obtain rfl : x.receiverPair = k := by
        simpa [Op.concerns, hx, Except.toOption] using hc
      exact a.receive
  | tick =>
    have hs := s.step_steady .tick
    have ht := t.step_steady .tick
    refine ⟨⟨hs.filed a.filed.1, ht.filed a.filed.2⟩,
      hs.settings.trans (a.settings.trans ht.settings.symm), ?_⟩
    show s.host.tick.side k = t.host.tick.side k
    rw [s.host.tick_side a.filed.1, t.host.tick_side a.filed.2, a.side,
      show s.host.patience = t.host.patience from congrArg Settings.patience a.settings]
  | poll =>
    have hs := s.step_steady .poll
    have ht := t.step_steady .poll
    refine ⟨⟨hs.filed a.filed.1, ht.filed a.filed.2⟩,
      hs.settings.trans (a.settings.trans ht.settings.symm), ?_⟩
    show s.poll.1.host.side k = t.poll.1.host.side k
    rw [poll_side, poll_side, a.side, a.settings]
  | expire | sendRound => cases hop

theorem side_of_not_concerns (hf : s.host.Filed) (hop : op.isRoutine = true)
    (hc : op.concerns k = false) : (s.step op).1.host.side k = s.host.side k := by
  cases op with
  | call c =>
    cases c with
    | read j buffer =>
      exact (s.confined_read j buffer).others hf k (by simpa [Op.concerns] using hc)
    | write j data => exact (s.confined_write j data).others hf k (by simpa [Op.concerns] using hc)
    | close j => exact (s.confined_close j).others hf k (by simpa [Op.concerns] using hc)
    | _ => cases hop
  | receive x => exact (s.host.confined_receive x).others hf k (by simpa [Op.concerns] using hc)
  | receiveFrame f =>
    simp only [step, receiveFrame, Host.receiveFrame]
    cases hx : Segment.ofFrame f with
    | error fault => rfl
    | ok x =>
      have hk : x.receiverPair ≠ k := by simpa [Op.concerns, hx, Except.toOption] using hc
      exact (s.host.confined_receive x).others hf k hk
  | tick | poll => cases hc
  | expire | sendRound => cases hop

theorem sentFor_poll (rest : List Op) : s.sentFor k (.poll :: rest) =
    s.host.outbox.outgoing.filter (fun x => x.senderPair = k) :: s.poll.1.sentFor k rest := rfl

theorem sentFor_cons (hop : op.isRoutine = true) (hp : op ≠ .poll) (rest : List Op) :
    s.sentFor k (op :: rest) = (s.step op).1.sentFor k rest := by
  cases op with
  | call c =>
    cases c with
    | read | write | close => rfl
    | _ => cases hop
  | receive | receiveFrame | tick => rfl
  | poll => exact absurd rfl hp
  | expire | sendRound => cases hop

theorem alike_run {ops : List Op} (a : s.host.Alike k t.host)
    (hops : ∀ op ∈ ops, op.isRoutine = true) :
    (s.run (ops.filter (·.concerns k))).host.Alike k (t.run ops).host ∧
      s.sentFor k (ops.filter (·.concerns k)) = t.sentFor k ops := by
  induction ops generalizing s t with
  | nil => exact ⟨a, rfl⟩
  | cons op rest ih =>
    obtain ⟨hop, hrest⟩ := List.forall_mem_cons.1 hops
    cases hc : op.concerns k with
    | true =>
      obtain ⟨hrun, hsent⟩ := ih (alike_of_concerns a hop hc) hrest
      rw [List.filter_cons_of_pos hc]
      refine ⟨hrun, ?_⟩
      by_cases hp : op = .poll
      · subst hp
        rw [sentFor_poll, sentFor_poll, s.host.filter_outgoing a.filed.1,
          t.host.filter_outgoing a.filed.2, a.side, a.settings]
        exact congrArg _ hsent
      · rw [sentFor_cons hop hp, sentFor_cons hop hp, hsent]
    | false =>
      -- Only the run of all operations goes on.
      have hp : op ≠ .poll := by
        rintro rfl
        cases hc
      have ht := t.step_steady op
      obtain ⟨hrun, hsent⟩ := ih (s := s) (t := (t.step op).1)
        ⟨⟨a.filed.1, ht.filed a.filed.2⟩, a.settings.trans ht.settings.symm,
          a.side.trans (side_of_not_concerns a.filed.2 hop hc).symm⟩ hrest
      rw [List.filter_cons_of_neg (by simp [hc]), sentFor_cons hop hp]
      exact ⟨hrun, hsent⟩

/-- From any state that a station can get into: what it holds of a connection, and what it sends for
it, is the same without the operations that are about other connections. -/
theorem connections_independent (address : HostId) (recvWindow sendWindow patience : Nat)
    (before ops : List Op) (hops : ∀ op ∈ ops, op.isRoutine = true) (k : SocketPair) :
    (((fresh address recvWindow sendWindow patience).run before).run
        (ops.filter (·.concerns k))).host.side k =
      (((fresh address recvWindow sendWindow patience).run before).run ops).host.side k ∧
    ((fresh address recvWindow sendWindow patience).run before).sentFor k
        (ops.filter (·.concerns k)) =
      ((fresh address recvWindow sendWindow patience).run before).sentFor k ops := by
  have hf := ((orderly_fresh address recvWindow sendWindow patience).run before).filed
  obtain ⟨ha, hsent⟩ := alike_run (k := k) ⟨⟨hf, hf⟩, rfl, rfl⟩ hops
  exact ⟨ha.side, hsent⟩

def visitors : List Op :=
  [.receive { dest := ⟨2, 9⟩, src := ⟨1, 7⟩, flags := Kind.syn.flags },
    .receive { dest := ⟨2, 9⟩, src := ⟨1, 8⟩, flags := Kind.syn.flags },
    .call (.accept 9), .call (.accept 9)]

def visits : List Op :=
  [.poll,
    .receive { dest := ⟨2, 9⟩, src := ⟨1, 7⟩, flags := Kind.data.flags, seq := 1, payload := [104] },
    .call (.write ⟨⟨1, 8⟩, ⟨2, 9⟩⟩ [105]), .call (.write ⟨⟨1, 7⟩, ⟨2, 9⟩⟩ [106]), .poll,
    .call (.close ⟨⟨1, 8⟩, ⟨2, 9⟩⟩), .tick, .call (.close ⟨⟨1, 7⟩, ⟨2, 9⟩⟩), .poll]

theorem connections_independent_visits :
    (∀ op ∈ visits, op.isRoutine = true) ∧
      (visits.filter (·.concerns ⟨⟨1, 7⟩, ⟨2, 9⟩⟩)).length = 7 ∧
      (((fresh 2 4 4 4).run visitors).sentFor ⟨⟨1, 7⟩, ⟨2, 9⟩⟩ visits).map List.length =
        [1, 2, 2] ∧
      ((fresh 2 4 4 4).run visitors).sentFor ⟨⟨1, 7⟩, ⟨2, 9⟩⟩
          (visits.filter (·.concerns ⟨⟨1, 7⟩, ⟨2, 9⟩⟩)) =
        ((fresh 2 4 4 4).run visitors).sentFor ⟨⟨1, 7⟩, ⟨2, 9⟩⟩ visits := by
  have hroutine : ∀ op ∈ visits, op.isRoutine = true := by decide
  refine ⟨hroutine, by decide, by decide +kernel, ?_⟩
  exact (connections_independent 2 4 4 4 visitors visits hroutine ⟨⟨1, 7⟩, ⟨2, 9⟩⟩).2

end Station

end ReliableStream
