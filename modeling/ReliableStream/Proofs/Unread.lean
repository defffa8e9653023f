import ReliableStream.Proofs.Completion
import ReliableStream.Proofs.SendState

namespace ReliableStream

/-- What is left of a list of segments after bytes have been read off its front. A segment stays
until all its bytes are read. -/
inductive Reading : List Segment → List UInt8 → List Segment → Prop
  | between (gone rest) : Reading (gone ++ rest) (bytes gone) rest
  | within (gone s rest n) : n < s.payload.length →
      Reading (gone ++ s :: rest) (bytes gone ++ s.payload.take n) (s.dropPayload n :: rest)

namespace Reading

variable {log rest : List Segment} {out : List UInt8} {s : Segment}

theorem refl (log : List Segment) : Reading log [] log := .between [] log

theorem append (h : Reading log out rest) (new : List Segment) :
    Reading (log ++ new) out (rest ++ new) := by
  cases h with
  | between gone => rw [List.append_assoc]; exact .between gone _
  | within gone s rest n hn => rw [List.append_assoc]; exact .within gone s _ n hn

theorem read {n : Nat} (h : Reading log out (s :: rest)) (hn : n ≤ s.payload.length) :
    Reading log (out ++ s.payload.take n)
      (if n < s.payload.length then s.dropPayload n :: rest else rest) := by
  generalize hl : s :: rest = l at h
  cases h with
  | between gone =>
    subst hl
    split
    · rename_i hlt
      exact .within gone s rest n hlt
    · rename_i hge
      rw [List.take_of_length_le (by omega)]
      have := between (gone ++ [s]) rest
      simpa using this
  | within gone t rest' m hm =>
    obtain ⟨rfl, rfl⟩ := List.cons.inj hl
    simp only [Segment.dropPayload, List.length_drop] at hn ⊢
    rw [List.append_assoc, ← List.take_add, List.drop_drop]
    split
    · exact .within gone t rest (m + n) (by omega)
    · rw [List.take_of_length_le (by omega)]
      have := between (gone ++ [t]) rest
      simpa using this

end Reading

open Side

namespace Side

variable {cfg : Settings} {room : Nat} {k : SocketPair} {op : Station.Op} {r : Station.Reply}
  {e e' : Side} {s : Segment} {kind : Kind}

inductive Reads (k : SocketPair) (op : Station.Op) (r : Station.Reply) (e e' : Side) : Prop
  | grows {l} : op.took k r = [] → e'.conn.unread = e.conn.unread ++ l → Reads k op r e e'
  | read {buffer s rest n} : op = .call (.read k buffer) → e.conn.unread = s :: rest →
      n ≤ s.payload.length → op.took k r = s.payload.take n →
      e'.conn.unread = (if n < s.payload.length then s.dropPayload n :: rest else rest) →
      Reads k op r e e'
  | ended {x} : Arrives k op x → x.kind? = some .finAck → e.phase = .closing ∨ e.phase = .closed →
      Reads k op r e e'
  | collided : op.took k r = [] → e.phase = .synSent → e'.conn.unread = [] → Reads k op r e e'
  | expired : e.phase = .closing → Reads k op r e e'
  | forgot : op.settles = true → op.took k r = [] → Reads k op r e e'

theorem reads_of_conn (ht : op.took k r = []) (h : e'.conn.unread = e.conn.unread) :
    Reads k op r e e' :=
  .grows (l := []) ht (by rw [h, List.append_nil])

theorem reads_of_entry {c c' : Connection} (ht : op.took k r = []) (hc : e.entry = some c)
    (hc' : e'.entry = some c') (h : c'.unread = c.unread) : Reads k op r e e' :=
  reads_of_conn ht (by rw [conn_of_entry hc, conn_of_entry hc', h])

theorem took_arrival (h : op.arrival? = some s) (r : Station.Reply) : op.took k r = [] := by
  cases op with
  | call c => cases h
  | _ => rfl

theorem Hears.reads (h : Hears room k s kind e e') (ha : Arrives k op s)
    (hk : s.kind? = some kind) : Reads k op r e e' := by
  have ht : op.took k r = [] := took_arrival ha.1 r
  cases h with
  | noted => exact reads_of_conn ht (unread_swept (e.acked s.seq))
  | ended hp => exact .ended ha hk hp
  | knocked => exact reads_of_conn ht rfl
  | collided hc hp => exact .collided ht ((phase_of_entry hc).trans hp) rfl
  | kept hc =>
    refine .grows (l := [s]) ht ?_
    rw [conn_of_entry hc]
    rfl
  | opened hc | drained hc | discarded hc | halted hc | crossed hc | greeted hc | repeated hc =>
    exact reads_of_entry ht hc rfl rfl
  | finished hc | finishedAgain hc =>
    refine reads_of_conn ht ((unread_swept _).trans ?_)
    rw [conn_of_entry hc]
    rfl
  | misplaced => exact reads_of_conn ht (unread_swept e)
  | strange | strangeFin | stale | early | full => exact reads_of_conn ht rfl

theorem Step.reads (h : Step cfg k op r e e') : Reads k op r e e' := by
  cases h with
  | apart _ ht => exact reads_of_conn ht rfl
  | heard ha hk hp hh => exact hh.reads ⟨ha, hp⟩ hk
  | dialled he => exact reads_of_conn rfl (by simp [conn, he, enter, push])
  | forgot hop _ ht => exact .forgot hop ht
  | accepted hc | closedDrained hc | closedBusy hc | closedStopped hc =>
    exact reads_of_entry rfl hc rfl rfl
  | tickedClosing hc => exact reads_of_entry rfl hc rfl rfl
  | @read _ c x rest buffer n hc hu hn =>
    have hle : n ≤ x.payload.length := hn ▸ Nat.min_le_right _ _
    refine .read rfl (by rw [conn_of_entry hc, hu]) hle ?_ (unread_swept _)
    rw [Station.Op.took, if_pos rfl, List.take_append_of_le_length (by simp [hle]), List.take_take,
      Nat.min_self]
  | readNothing => exact reads_of_conn (by simp [Station.Op.took]) rfl
  | wrote => exact reads_of_conn rfl (by rw [conn_congr (pushData_eq _ _).1])
  | expired hc hp => exact .expired ((phase_of_entry hc).trans hp)
  | readRefused | writeRefused | closedIdle | tickedIdle =>
    exact reads_of_conn rfl (unread_swept e)
  | polled hop => exact reads_of_conn (by rcases hop with rfl | rfl <;> rfl) rfl
  | passed | closeRefused | ticked => exact reads_of_conn rfl rfl

structure Unclosed (e : Side) : Prop where
  stopSent : e.phase ≠ .stopSent
  closing : e.phase ≠ .closing
  unopened : e.phase = .synSent → e.conn.unread = []

theorem Unclosed.blank : Unclosed {} := ⟨by simp, by simp, by simp⟩

theorem Moves.not_closing {p p' : Phase} (h : Moves k op r p p') (ho : op ≠ .call (.close k))
    (hp : p ≠ .stopSent ∧ p ≠ .closing) : p' ≠ .stopSent ∧ p' ≠ .closing := by
  cases h with
  | stay => exact hp
  | stopped hc => exact absurd hc ho
  | finished hf =>
    rcases hf with hf | ⟨-, hc⟩
    · exact absurd hf hp.1
    · exact absurd hc ho
  | shut | opened | knocked | accepted | halted => exact ⟨by simp, by simp⟩

theorem Step.unopened (h : Step cfg k op r e e') (hu : e.phase = .synSent → e.conn.unread = [])
    (hp' : e'.phase = .synSent) : e'.conn.unread = [] := by
  by_cases hd : ∃ ticket, r = .dialled (.ok ticket)
  · obtain ⟨ticket, hr⟩ := hd
    rcases h.of_dialled hr with rfl | rfl | ⟨-, -, rfl⟩
    · exact hu hp'
    · cases hp'
    · rfl
  · have hd : ∀ ticket, r ≠ .dialled (.ok ticket) := fun ticket hr => hd ⟨ticket, hr⟩
    have hmoves := h.moves hd
    rw [hp'] at hmoves
    have hp := hmoves.to_synSent
    have hsame : e.appendedSince e' = e'.conn.unread := by
      rw [appendedSince, hu hp]
      rfl
    rw [← hsame]
    cases h.takes hd with
    | still _ _ _ ha => exact ha
    | again _ _ _ _ _ _ he => rw [hsame, conn_congr he, hu hp]
    | dealt _ _ _ _ _ _ _ _ _ _ _ ha =>
      rcases ha with ⟨-, hk, -⟩ | ⟨-, ha⟩
      · rcases hk with hk | hk <;> rw [hp] at hk <;> cases hk
      · exact ha
    | knocked _ _ hc => rw [hp] at hc; cases hc
    | accepted _ hc => rw [hp] at hc; cases hc
    | shut _ hc => rw [hp'] at hc; cases hc
    | strayed _ _ hc => rw [hp] at hc; cases hc

theorem Unclosed.step (hu : e.Unclosed) (h : Step cfg k op r e e') (ho : op ≠ .call (.close k)) :
    e'.Unclosed := by
  rcases h.moves_or_dials with hmoves | ⟨-, hp'⟩
  · obtain ⟨hs, hc⟩ := hmoves.not_closing ho ⟨hu.stopSent, hu.closing⟩
    exact ⟨hs, hc, h.unopened hu.unopened⟩
  · exact ⟨by simp [hp'], by simp [hp'], h.unopened hu.unopened⟩

structure Keeps (k : SocketPair) (op : Station.Op) (r : Station.Reply) (e e' : Side) : Prop where
  reading : ∀ log out, Reading log out e.conn.unread →
    Reading (log ++ e.appendedSince e') (out ++ op.took k r) e'.conn.unread
  unread : (∀ buffer, op ≠ .call (.read k buffer)) →
    e'.conn.unread = e.conn.unread ++ e.appendedSince e'

theorem Keeps.of_grows {l : List Segment} (ht : op.took k r = [])
    (hl : e'.conn.unread = e.conn.unread ++ l) : Keeps k op r e e' := by
  have ha : e.appendedSince e' = l := by rw [appendedSince, hl, List.drop_left]
  constructor
  · intro log out hlog
    rw [ha, ht, List.append_nil, hl]
    exact hlog.append l
  · rw [ha]
    exact fun _ => hl

theorem Keeps.of_read {buffer : List UInt8} {rest : List Segment} {n : Nat}
    (hop : op = .call (.read k buffer)) (hu : e.conn.unread = s :: rest)
    (hn : n ≤ s.payload.length) (ht : op.took k r = s.payload.take n)
    (he : e'.conn.unread = if n < s.payload.length then s.dropPayload n :: rest else rest) :
    Keeps k op r e e' := by
  have ha : e.appendedSince e' = [] := by
    rw [appendedSince, he, hu]
    refine List.drop_eq_nil_of_le ?_
    split <;> simp
  constructor
  · intro log out hlog
    rw [hu] at hlog
    rw [ha, List.append_nil, ht, he]
    exact hlog.read hn
  · exact fun hr => absurd hop (hr buffer)

theorem Unclosed.keeps (hu : e.Unclosed) (h : Step cfg k op r e e')
    (hsettles : op.settles = true → e' = e)
    (hend : ∀ x, Arrives k op x → x.kind? = some .finAck → e.phase ≠ .closed) :
    Keeps k op r e e' := by
  cases h.reads with
  | grows ht hl => exact .of_grows ht hl
  | read hop hu hn ht he => exact .of_read hop hu hn ht he
  | ended ha hk hp => exact absurd hp (not_or.2 ⟨hu.closing, hend _ ha hk⟩)
  -- The entry goes, but a dial that has not been answered holds no data.
  | collided ht hp he =>
    refine .of_grows (l := []) ht ?_
    rw [he, hu.unopened hp]
    rfl
  | expired hp => exact absurd hp hu.closing
  | forgot hop ht =>
    rw [hsettles hop]
    exact .of_grows ht (List.append_nil _).symm

end Side

namespace Station

variable {s : Station} {k : SocketPair} {op : Op} {ops : List Op}

def unread (s : Station) (k : SocketPair) : List Segment := (s.host.table.get k).unread

def appended (s : Station) (k : SocketPair) : List Op → List Segment
  | [] => []
  | op :: rest =>
    ((s.step op).1.unread k).drop (s.unread k).length ++ (s.step op).1.appended k rest

def readOut (s : Station) (k : SocketPair) (ops : List Op) : List UInt8 :=
  (s.history ops).flatMap fun x => x.1.took k x.2

def Reply.endings : Reply → List Ending
  | .ended endings => endings
  | _ => []

def givesUp (s : Station) (k : SocketPair) (op : Op) : Bool :=
  s.dials.any fun d => d.pair = k ∧ (op = .expire d.ticket ∨
    (s.step op).2.endings.any fun e => e.ticket = d.ticket ∧ e.result.isOk = false)

def endsAgain (s : Station) (k : SocketPair) (op : Op) : Bool :=
  s.host.table.phase k = .closed ∧
    op.arrival?.any fun x => x.receiverPair = k ∧ x.kind? = some .finAck

/-- No step of a run gives a dial of the connection up, or takes a FIN-ACK for the connection while
it is closed. -/
def spares (s : Station) (k : SocketPair) : List Op → Bool
  | [] => true
  | op :: rest => !s.givesUp k op && !s.endsAgain k op && (s.step op).1.spares k rest

theorem givesUp_settle (hf : s.host.Filed) (d : Dial) (k : SocketPair) :
    (s.settle d).1.host.side k = s.host.side k ∨
      d.pair = k ∧ ∃ f, (s.settle d).2 = some ⟨d.ticket, .error f⟩ := by
  unfold settle
  split
  · exact .inl rfl
  · exact .inl rfl
  all_goals
    by_cases hk : d.pair = k
    · exact .inr ⟨hk, _, rfl⟩
    · exact .inl (s.cleanUp_side_of_ne hf d.ticket hk)

theorem givesUp_settleAll (hf : s.host.Filed) (l : List Dial) (k : SocketPair) :
    (s.settleAll l).1.host.side k = s.host.side k ∨
      ∃ d ∈ l, d.pair = k ∧ ∃ f, ⟨d.ticket, .error f⟩ ∈ (s.settleAll l).2 := by
  induction l generalizing s with
  | nil => exact .inl rfl
  | cons d rest ih =>
    rcases givesUp_settle hf d k with hsame | ⟨hk, f, he⟩
    · rcases ih ((s.steady_settle d).filed hf) with hrest | ⟨d', hd', hk, f, he⟩
      · exact .inl (hrest.trans hsame)
      · exact .inr ⟨d', List.mem_cons_of_mem d hd', hk, f, List.mem_append_right _ he⟩
    · refine .inr ⟨d, List.mem_cons_self, hk, f, List.mem_append_left _ ?_⟩
      exact Option.mem_toList.2 he

theorem givesUp_of_ending {d : Dial} {f : Failure} (hd : d ∈ s.dials) (hk : d.pair = k)
    (he : ⟨d.ticket, .error f⟩ ∈ (s.step op).2.endings) : s.givesUp k op = true := by
  refine List.any_eq_true.2 ⟨d, hd, decide_eq_true ⟨hk, .inr ?_⟩⟩
  exact List.any_eq_true.2 ⟨_, he, decide_eq_true ⟨rfl, rfl⟩⟩

theorem side_of_settles (hf : s.host.Filed) (hop : op.settles = true)
    (hg : s.givesUp k op = false) : (s.step op).1.host.side k = s.host.side k := by
  have never (h : s.givesUp k op = true) : False := by
    rw [hg] at h
    cases h
  cases op with
  | call c =>
    cases c with
    | resume ticket =>
      cases hd : s.dials.find? (fun d => d.ticket = ticket) with
      | none => simp [step, call, resume, hd]
      | some d =>
        have hstep : s.step (.call (.resume ticket)) =
            ((s.settle d).1, .ended (s.settle d).2.toList) := by simp [step, call, resume, hd]
        rcases givesUp_settle hf d k with hsame | ⟨hk, f, he⟩
        · rw [hstep, hsame]
        · refine (never (givesUp_of_ending (List.mem_of_find?_eq_some hd) hk (f := f) ?_)).elim
          rw [hstep]
          exact Option.mem_toList.2 he
    | resumeAll =>
      rcases givesUp_settleAll hf s.dials k with hsame | ⟨d, hd, hk, f, he⟩
      · exact hsame
      · exact (never (givesUp_of_ending hd hk he)).elim
    | _ => cases hop
  | expire ticket =>
    cases hd : s.dials.find? (fun d => d.ticket = ticket) with
    | none => simp [step, expire, hd]
    | some d =>
      obtain rfl : d.ticket = ticket := by simpa using List.find?_some hd
      have hk : d.pair ≠ k := fun hk => never <|
        List.any_eq_true.2 ⟨d, List.mem_of_find?_eq_some hd, decide_eq_true ⟨hk, .inl rfl⟩⟩
      simp only [step, expire, hd]
      exact s.cleanUp_side_of_ne hf d.ticket hk
  | _ => cases hop

theorem appended_singleton : s.appended k [op] =
    (s.host.side k).appendedSince ((s.step op).1.host.side k) := List.append_nil _

theorem appended_cons : s.appended k (op :: ops) =
    s.appended k [op] ++ (s.step op).1.appended k ops := by
  rw [appended_singleton]
  rfl

theorem spares_cons : s.spares k (op :: ops) = true ↔ s.givesUp k op = false ∧
    s.endsAgain k op = false ∧ (s.step op).1.spares k ops = true := by
  simp [spares, and_assoc]

theorem spares_append {a b : List Op} (h : s.spares k (a ++ b) = true) :
    (s.run a).spares k b = true := by
  induction a generalizing s with
  | nil => exact h
  | cons op rest ih => exact ih (spares_cons.1 h).2.2

theorem unclosed_run (hs : s.Orderly) (hu : (s.host.side k).Unclosed)
    (hops : ∀ op ∈ ops, op ≠ .call (.close k)) : ((s.run ops).host.side k).Unclosed := by
  induction ops generalizing s with
  | nil => exact hu
  | cons op rest ih =>
    obtain ⟨hop, hrest⟩ := List.forall_mem_cons.1 hops
    exact ih (hs.step op) (hu.step (s.step_side hs.filed op k) hop) hrest

theorem keeps_step (hs : s.Orderly) (hu : (s.host.side k).Unclosed)
    (hg : s.givesUp k op = false) (he : s.endsAgain k op = false) :
    Side.Keeps k op (s.step op).2 (s.host.side k) ((s.step op).1.host.side k) := by
  refine hu.keeps (s.step_side hs.filed op k) (fun hop => side_of_settles hs.filed hop hg)
    fun x hx hk hp => ?_
  have hends : s.endsAgain k op = true := by
    refine decide_eq_true ⟨hp, ?_⟩
    rw [hx.1]
    exact decide_eq_true ⟨hx.2, hk⟩
  rw [he] at hends
  cases hends

theorem reads_run (hs : s.Orderly) (hu : (s.host.side k).Unclosed)
    (hops : ∀ op ∈ ops, op ≠ .call (.close k)) (hspares : s.spares k ops = true)
    {log : List Segment} {out : List UInt8} (hlog : Reading log out (s.unread k)) :
    Reading (log ++ s.appended k ops) (out ++ s.readOut k ops) ((s.run ops).unread k) := by
  induction ops generalizing s log out with
  | nil => simpa [appended, readOut, history, run] using hlog
  | cons op rest ih =>
    obtain ⟨hop, hrest⟩ := List.forall_mem_cons.1 hops
    obtain ⟨hg, he, hspares⟩ := spares_cons.1 hspares
    have hread := (keeps_step hs hu hg he).reading log out hlog
    rw [← appended_singleton] at hread
    have := ih (hs.step op) (hu.step (s.step_side hs.filed op k) hop) hrest hspares hread
    rwa [List.append_assoc, ← appended_cons, List.append_assoc] at this

/-- In a run in which the application does not close a connection, what joins its unread data stays
among them, in order, until its bytes are read, and only a read takes any of it away. Left aside are
steps that give a dial of the connection up, and FIN-ACKs that arrive while it is closed. -/
theorem unread_stay (address : HostId) (recvWindow sendWindow patience : Nat) (k : SocketPair)
    (before after : List Op) (hclose : ∀ op ∈ before ++ after, op ≠ .call (.close k))
    (hspares : ((fresh address recvWindow sendWindow patience).run before).spares k after = true) :
    Reading (((fresh address recvWindow sendWindow patience).run before).unread k ++
        ((fresh address recvWindow sendWindow patience).run before).appended k after)
      (((fresh address recvWindow sendWindow patience).run before).readOut k after)
      (((fresh address recvWindow sendWindow patience).run (before ++ after)).unread k) ∧
    ∀ xs op ys, after = xs ++ op :: ys → (∀ buffer, op ≠ .call (.read k buffer)) →
      ((fresh address recvWindow sendWindow patience).run (before ++ xs ++ [op])).unread k =
        ((fresh address recvWindow sendWindow patience).run (before ++ xs)).unread k ++
          ((fresh address recvWindow sendWindow patience).run (before ++ xs)).appended k [op] := by
  have hfresh := orderly_fresh address recvWindow sendWindow patience
  have hunclosed {ops rest : List Op} (he : before ++ after = ops ++ rest) :
      (((fresh address recvWindow sendWindow patience).run ops).host.side k).Unclosed :=
    unclosed_run hfresh Unclosed.blank fun op hop =>
      hclose op (he ▸ List.mem_append_left rest hop)
  constructor
  · have := reads_run (hfresh.run before) (hunclosed rfl)
      (fun op hop => hclose op (List.mem_append_right _ hop)) hspares (.refl _)
    rwa [List.nil_append, ← run_append] at this
  · rintro xs op ys rfl hread
    have hrest := spares_append hspares
    rw [← run_append] at hrest
    obtain ⟨hg, he, -⟩ := spares_cons.1 hrest
    have hkeeps := keeps_step (hfresh.run (before ++ xs))
      (hunclosed (List.append_assoc before xs (op :: ys)).symm) hg he
    rw [run_append _ (before ++ xs), appended_singleton]
    exact hkeeps.unread hread

def incoming (port : Port) (kind : Kind) (seq : SequenceNumber) (payload : List UInt8) : Segment :=
  { dest := ⟨2, port⟩, src := ⟨1, 7⟩, flags := kind.flags, seq, payload }

def letters : List Op :=
  [.receive (incoming 9 .syn 0 []), .call (.accept 9), .receive (incoming 9 .data 1 [104, 101]),
    .receive (incoming 9 .data 2 [121])]

def firstLetter : List Op :=
  [.call (.read ⟨⟨1, 7⟩, ⟨2, 9⟩⟩ [0]), .tick, .receive (incoming 9 .fin 3 []), .tick]

theorem unread_stay_firstLetter :
    Reading [incoming 9 .data 1 [104, 101], incoming 9 .data 2 [121]] [104]
        (((fresh 2 4 4 4).run (letters ++ firstLetter)).unread ⟨⟨1, 7⟩, ⟨2, 9⟩⟩) ∧
      ((fresh 2 4 4 4).run (letters ++ firstLetter)).unread ⟨⟨1, 7⟩, ⟨2, 9⟩⟩ =
        [incoming 9 .data 1 [101], incoming 9 .data 2 [121]] := by
  have h := (unread_stay 2 4 4 4 ⟨⟨1, 7⟩, ⟨2, 9⟩⟩ letters firstLetter (by decide)
    (by decide +kernel)).1
  have hunread : ((fresh 2 4 4 4).run letters).unread ⟨⟨1, 7⟩, ⟨2, 9⟩⟩ =
      [incoming 9 .data 1 [104, 101], incoming 9 .data 2 [121]] := by decide +kernel
  have hnew : ((fresh 2 4 4 4).run letters).appended ⟨⟨1, 7⟩, ⟨2, 9⟩⟩ firstLetter = [] := by
    decide +kernel
  have hread : ((fresh 2 4 4 4).run letters).readOut ⟨⟨1, 7⟩, ⟨2, 9⟩⟩ firstLetter = [104] := by
    decide +kernel
  rw [hunread, hnew, hread] at h
  exact ⟨h, by decide +kernel⟩

def parting : List Op :=
  [.receive (incoming 9 .syn 0 []), .call (.accept 9), .receive (incoming 9 .data 1 [104]),
    .receive (incoming 9 .fin 2 [])]

def crossed : List Op :=
  [.call (.connect 1 7), .receive (incoming 0 .syn 0 []), .receive (incoming 0 .syn 0 []),
    .call (.accept 0), .receive (incoming 0 .data 1 [104])]

theorem unread_lost :
    (∀ op ∈ parting ++ [.receive (incoming 9 .finAck 2 [])],
        op ≠ .call (.close ⟨⟨1, 7⟩, ⟨2, 9⟩⟩)) ∧
      ((fresh 2 4 4 4).run parting).unread ⟨⟨1, 7⟩, ⟨2, 9⟩⟩ = [incoming 9 .data 1 [104]] ∧
      (incoming 9 .data 1 [104]).answer .ack ∈ ((fresh 2 4 4 4).run parting).host.outbox.replies ∧
      ((fresh 2 4 4 4).run (parting ++ [.receive (incoming 9 .finAck 2 [])])).unread
        ⟨⟨1, 7⟩, ⟨2, 9⟩⟩ = [] ∧
    (∀ op ∈ crossed ++ [.call .resumeAll], op ≠ .call (.close ⟨⟨1, 7⟩, ⟨2, 0⟩⟩)) ∧
      ((fresh 2 4 4 4).run crossed).unread ⟨⟨1, 7⟩, ⟨2, 0⟩⟩ = [incoming 0 .data 1 [104]] ∧
      (incoming 0 .data 1 [104]).answer .ack ∈ ((fresh 2 4 4 4).run crossed).host.outbox.replies ∧
      ((fresh 2 4 4 4).run (crossed ++ [.call .resumeAll])).unread ⟨⟨1, 7⟩, ⟨2, 0⟩⟩ = [] := by
  decide +kernel

end Station

end ReliableStream
