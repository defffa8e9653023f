import ReliableStream.Proofs.Agreement
import ReliableStream.Proofs.Passive

namespace ReliableStream

open Side

def Phase.live : Phase → Bool
  | .established | .stopReceived | .stopSent | .closing => true
  | _ => false

namespace Side

variable {cfg : Settings} {k : SocketPair} {op : Station.Op} {r : Station.Reply} {e e' : Side}

theorem Step.phase_of_accepted (h : Step cfg k op r e e') (hr : r = .accepted (.ok (some k))) :
    e.phase = .synReceived ∧ e'.phase = .established := by
  subst hr
  cases h with
  | apart _ _ hr => exact absurd rfl hr
  | forgot _ _ _ hr => exact absurd rfl hr
  | accepted hc hp => exact ⟨(phase_of_entry hc).trans hp, rfl⟩
  | passed _ _ hr => exact absurd rfl hr

theorem Moves.of_not_live {p p' : Phase} (h : Moves k op r p p') (hp' : p'.live = false) :
    p' = p ∨ p' = .closed ∧ (p.live = true ∨ p = .synReceived ∨ p = .synSent) ∨
      p = .closed ∧ p' = .synReceived ∧ ∃ x, Arrives k op x ∧ x.kind? = some .syn := by
  cases h with
  | stay => exact .inl rfl
  | shut => cases p <;> simp [Phase.live]
  | knocked ha hk => exact .inr (.inr ⟨rfl, rfl, _, ha, hk⟩)
  | opened | accepted | halted | stopped | finished => cases hp'

theorem not_held_forgotten (e : Side) (s : Segment) : ¬e.forgotten.held s := by
  simp [held, Window.has, win, forgotten, released]

end Side

namespace Link

variable {k : SocketPair} {ev : Event} {v v' : Link}

/-- A SYN of the near end is under way, or may still be sent. -/
def Calling (v : Link) : Prop :=
  (∃ x, v.out x ∧ x.kind? = some .syn) ∨ ∃ x, v.near.held x ∧ x.kind? = some .syn

/-- The far end may accept once more, without another call of `connect`. -/
def Owes (v : Link) : Prop :=
  v.far.phase = .synReceived ∨ (v.far.phase = .closed ∨ v.far.phase = .synSent) ∧ v.Calling

def Dials (ev : Event) (v v' : Link) : Prop :=
  v'.near ≠ v.near ∧ ∃ farHost farPort ticket,
    ev = .near (.call (.connect farHost farPort)) (.dialled (.ok ticket))

theorem Calling.mono (h : v'.Calling) (hout : ∀ x, v'.out x → v.out x)
    (hheld : ∀ x, v'.near.held x → v.near.held x) : v.Calling := by
  rcases h with ⟨x, hx, hk⟩ | ⟨x, hx, hk⟩
  · exact .inl ⟨x, hout x hx, hk⟩
  · exact .inr ⟨x, hheld x hx, hk⟩

theorem Calling.of_sending (hs : v.near.Sound) {x : Segment} (hx : v.near.sending x)
    (hk : x.kind? = some .syn) : v.Calling :=
  .inr ⟨x, hs.held_of_sending hx (by simp [Segment.isReply, hk, Kind.isReply]), hk⟩

theorem Calling.step (h : v'.Calling) (hs : v.near.Sound) (hst : Link.Step k ev v v') :
    v.Calling ∨ Dials ev v v' := by
  cases hst with
  | @near _ op r _ _ hside _ _ hout _ =>
    rcases h with ⟨x, hx, hk⟩ | ⟨x, hx, hk⟩
    · exact .inl ((hout x hx).elim (fun hx => .inl ⟨x, hx, hk⟩) fun hx => .of_sending hs hx hk)
    by_cases hd : ∃ ticket, r = .dialled (.ok ticket)
    · obtain ⟨ticket, hr⟩ := hd
      rcases hside.of_dialled hr with hsame | hforgot | ⟨hnone, hop, hdial⟩
      · exact .inl (.inr ⟨x, hsame ▸ hx, hk⟩)
      · rw [hforgot] at hx
        exact absurd hx (not_held_forgotten _ x)
      · refine .inr ⟨fun hsame => ?_, k.far.host, k.far.port, ticket, by rw [hop, hr]⟩
        rw [hdial] at hsame
        rw [← hsame] at hnone
        cases hnone
    · have hd : ∀ ticket, r ≠ .dialled (.ok ticket) := fun ticket hr => hd ⟨ticket, hr⟩
      rcases hside.held hs hd hx with hx | hx
      · exact .inl (.inr ⟨x, hx, hk⟩)
      · exact absurd hk ((hside.sends hd).queues.not_syn hx)
  | far _ hsame _ hout => exact .inl (h.mono hout (by simp [hsame]))
  | none hsame _ hout => exact .inl (h.mono hout (by simp [hsame]))

theorem Owes.of_calling (h : v'.Owes) (hp : v'.far.phase = v.far.phase)
    (hc : v'.Calling → v.Calling) : v.Owes := by
  rw [Owes, hp] at h
  exact h.imp id (And.imp id hc)

theorem Owes.not_live (h : v.Owes) : v.far.phase.live = false := by
  rcases h with hp | ⟨hp | hp, -⟩ <;> rw [hp] <;> rfl

theorem Owes.calling (h : v.Owes) (hp : v.far.phase ≠ .synReceived) : v.Calling :=
  (h.resolve_left hp).2

theorem Owes.step (h : v'.Owes) (hs : v.near.Sound) (hst : Link.Step k ev v v') :
    v.Owes ∨ Dials ev v v' ∨
      v.far.phase.live = true ∧ v'.far.phase = .closed ∧ v'.Calling := by
  by_cases hd : Dials ev v v'
  · exact .inr (.inl hd)
  have hc (hc : v'.Calling) : v.Calling := (hc.step hs hst).resolve_right hd
  cases hst with
  | near _ hsame => exact .inl (h.of_calling (by rw [hsame]) hc)
  | far hside _ harr =>
    rcases hside.moves_or_dials with hmoves | ⟨hp, hp'⟩
    · -- A SYN that arrives was on the wire, so the near end was calling already.
      rcases hmoves.of_not_live h.not_live with hp | ⟨hp', hp | hp | hp⟩ | ⟨hp, -, x, hx, hk⟩
      · exact .inl (h.of_calling hp hc)
      · exact .inr (.inr ⟨hp, hp', h.calling (by simp [hp'])⟩)
      · exact .inl (.inl hp)
      · exact .inl (.inr ⟨.inr hp, hc (h.calling (by simp [hp']))⟩)
      · exact .inl (.inr ⟨.inl hp, .inl ⟨x, harr x hx.1 hx.2, hk⟩⟩)
    · exact .inl (.inr ⟨.inl hp, hc (h.calling (by simp [hp']))⟩)
  | none _ hsame => exact .inl (h.of_calling (by rw [hsame]) hc)

theorem Owes.of_accepted {op : Station.Op}
    (hst : Link.Step k (.far op (.accepted (.ok (some k.swap)))) v v') : v.Owes ∧ ¬v'.Owes := by
  cases hst with
  | far hside =>
    obtain ⟨hp, hp'⟩ := hside.phase_of_accepted rfl
    refine ⟨.inl hp, fun h => ?_⟩
    have := h.not_live
    rw [hp'] at this
    cases this

theorem Owes.not_blank (hv : v.Blank) : ¬v.Owes := by
  rintro (hp | ⟨-, ⟨x, hx, -⟩ | ⟨x, hx, -⟩⟩)
  · rw [hv.far] at hp
    cases hp
  · exact hv.out x hx
  · rw [hv.near] at hx
    exact not_held_forgotten {} x hx

end Link

namespace Network

variable {n : Network} {i j : Nat} {k : SocketPair} {op : Op} {ops : List Op}

def calling (n : Network) (i : Nat) (k : SocketPair) : Bool :=
  (n.wire.any fun f => (Segment.ofFrame f).toOption.any fun x =>
    x.senderPair = k ∧ x.kind? = some .syn) ||
  ((n.side i k).win.pending ++ (n.side i k).win.unacked.values ++ (n.side i k).resends).any
    fun x => x.kind? = some .syn

def hands (n : Network) (i : Nat) (k : SocketPair) (op : Op) : Bool :=
  match op, (n.step op).2 with
  | .call m (.accept _), .accepted (.ok (some q)) => m = i ∧ q = k
  | _, _ => false

def dials (n : Network) (i : Nat) (k : SocketPair) (op : Op) : Bool :=
  match op, (n.step op).2 with
  | .call m (.connect _ _), .dialled (.ok ticket) =>
    m = i ∧ ((n.step op).1.stations[i]?).any fun s => ⟨ticket, k⟩ ∈ s.dials
  | _, _ => false

/-- A connection that is open at station `j` ends there while station `i` is calling. -/
def exposes (n : Network) (i j : Nat) (k : SocketPair) (op : Op) : Bool :=
  (n.side j k.swap).phase.live ∧ ((n.step op).1.side j k.swap).phase = .closed ∧
    (n.step op).1.calling i k

def countSteps (p : Network → Op → Bool) (n : Network) : List Op → Nat
  | [] => 0
  | op :: rest => (p n op).toNat + countSteps p (n.step op).1 rest

def accepts (n : Network) (i : Nat) (k : SocketPair) (ops : List Op) : Nat :=
  countSteps (fun n op => n.hands i k op) n ops

def connects (n : Network) (i : Nat) (k : SocketPair) (ops : List Op) : Nat :=
  countSteps (fun n op => n.dials i k op) n ops

def exposures (n : Network) (i j : Nat) (k : SocketPair) (ops : List Op) : Nat :=
  countSteps (fun n op => n.exposes i j k op) n ops

theorem calling_iff : n.calling i k = true ↔ (n.link i j k).Calling := by
  have hwire : (n.wire.any fun f => (Segment.ofFrame f).toOption.any fun x =>
      x.senderPair = k ∧ x.kind? = some .syn) = true ↔
      ∃ x, (n.link i j k).out x ∧ x.kind? = some .syn := by
    simp only [List.any_eq_true, Option.any_eq_true, decide_eq_true_eq]
    constructor
    · rintro ⟨f, hf, x, hx, hk, hs⟩
      have hx : Segment.ofFrame f = .ok x := by
        cases hr : Segment.ofFrame f <;> simp_all [Except.toOption]
      exact ⟨x, ⟨⟨f, hf, hx⟩, hk⟩, hs⟩
    · rintro ⟨x, ⟨⟨f, hf, hx⟩, hk⟩, hs⟩
      exact ⟨f, hf, x, by rw [hx]; rfl, hk, hs⟩
  have hheld : (((n.side i k).win.pending ++ (n.side i k).win.unacked.values ++
      (n.side i k).resends).any fun x => x.kind? = some .syn) = true ↔
      ∃ x, (n.link i j k).near.held x ∧ x.kind? = some .syn := by
    simp only [List.any_eq_true, List.mem_append, decide_eq_true_eq, SortedMap.mem_values_iff]
    rfl
  rw [calling, Bool.or_eq_true, hwire, hheld]
  rfl

def owes (n : Network) (i j : Nat) (k : SocketPair) : Bool :=
  (n.side j k.swap).phase = .synReceived ∨
    ((n.side j k.swap).phase = .closed ∨ (n.side j k.swap).phase = .synSent) ∧ n.calling i k

theorem owes_iff : n.owes i j k = true ↔ (n.link i j k).Owes := by
  rw [owes, decide_eq_true_eq, n.calling_iff (j := j)]
  rfl

theorem of_hands (hh : n.hands j k op = true) : ∃ p s, op = .call j (.accept p) ∧
    n.stations[j]? = some s ∧ (s.step (.call (.accept p))).2 = .accepted (.ok (some k)) := by
  unfold hands at hh
  split at hh
  · rename_i m p q hr
    obtain ⟨rfl, rfl⟩ := of_decide_eq_true hh
    cases hs : n.stations[m]? with
    | none => simp [step, call, hs] at hr
    | some s => exact ⟨p, s, rfl, rfl, by simpa [step, call, hs, Station.step] using hr⟩
  · cases hh

theorem EventOf.of_hands {ev : Link.Event} {q : SocketPair} (h : n.EventOf op i j ev) (hij : i ≠ j)
    (hh : n.hands j q op = true) : ∃ o, ev = .far o (.accepted (.ok (some q))) := by
  obtain ⟨p, s, rfl, hs, hr⟩ := Network.of_hands hh
  cases h with
  | near ha =>
    cases ha
    exact absurd rfl hij
  | far ha hs' =>
    cases ha
    obtain rfl := Option.some.inj (hs.symm.trans hs')
    exact ⟨_, by rw [hr]⟩
  | none _ hn => simp [hn _ (.call j (.accept p))] at hs

theorem Joins.dials_of_event {ev : Link.Event} (h : n.Joins i j k) (hev : n.EventOf op i j ev)
    (hd : Link.Dials ev (n.link i j k) ((n.step op).1.link i j k)) : n.dials i k op = true := by
  obtain ⟨hne, farHost, farPort, ticket, rfl⟩ := hd
  generalize ho : Station.Op.call (.connect farHost farPort) = o at hev
  generalize Station.Reply.dialled (.ok ticket) = r at hev
  cases hev with
  | near ha =>
    subst ho
    cases ha
    have hconnect : (n.step (.call i (.connect farHost farPort))).1 = n ∨
        ∃ s t q, n.Starts i farHost farPort s t q := h.tidy.connect
    rcases hconnect with hsame | ⟨s, t, q, hs⟩
    · exact absurd (by rw [hsame]) hne
    · have hq : q = k := by
        apply Classical.byContradiction
        intro hq
        refine hne (show (n.step _).1.side i k = n.side i k from ?_)
        rw [side_of_some hs.after, side_of_some hs.before, hs.others k hq]
      subst hq
      simp [dials, hs.reply, hs.after, hs.dials]

theorem toNat_add_le {a b c d e : Bool} (ha : a = true → c = true ∧ b = false)
    (hb : b = true → c = true ∨ d = true ∨ e = true) :
    a.toNat + b.toNat ≤ c.toNat + d.toNat + e.toNat := by
  revert a b c d e
  decide

theorem Joins.owes_step (h : n.Joins i j k) (op : Op) :
    (n.hands j k.swap op).toNat + ((n.step op).1.owes i j k).toNat ≤
      (n.owes i j k).toNat + (n.dials i k op).toNat + (n.exposes i j k op).toNat := by
  obtain ⟨ev, hev, hst⟩ := h.link_step op
  -- What is accepted was owed and is owed no more. What is owed otherwise was owed before, or is
  -- paid for on the right.
  refine toNat_add_le (fun hh => ?_) fun ho => ?_
  · obtain ⟨o, rfl⟩ := hev.of_hands h.apart hh
    obtain ⟨howes, hnot⟩ := Link.Owes.of_accepted hst
    exact ⟨owes_iff.2 howes, Bool.eq_false_iff.2 (mt owes_iff.1 hnot)⟩
  · rcases (owes_iff.1 ho).step (h.tidy.side_sound i k) hst with howes | hd | ⟨hl, hp, hc⟩
    · exact .inl (owes_iff.2 howes)
    · exact .inr (.inl (h.dials_of_event hev hd))
    · exact .inr (.inr (decide_eq_true ⟨hl, hp, calling_iff.2 hc⟩))

theorem Joins.accepts_run (h : n.Joins i j k) (ops : List Op) :
    n.accepts j k.swap ops ≤
      (n.owes i j k).toNat + n.connects i k ops + n.exposures i j k ops := by
  induction ops generalizing n with
  | nil => exact Nat.zero_le _
  | cons op rest ih =>
    have hstep := h.owes_step op
    have hrest := ih (h.step op)
    simp only [accepts, connects, exposures, countSteps] at hrest ⊢
    omega

theorem Tidy.accepts_run (h : n.Tidy)
    (hk : ∀ s, n.stations[j]? = some s → k.near.host ≠ s.address) (ops : List Op) :
    n.accepts j k ops = 0 := by
  induction ops generalizing n with
  | nil => rfl
  | cons op rest ih =>
    have hnone : n.hands j k op = false := by
      refine Bool.eq_false_iff.2 fun hh => ?_
      obtain ⟨p, s, rfl, hs, hr⟩ := of_hands hh
      obtain ⟨-, hentry⟩ := (s.step_side (h.filed j s hs) _ k).of_accepted hr
      rw [h.home j s hs k (hk s hs)] at hentry
      exact hentry rfl
    have hrest := ih (h.step op) fun s' hs' => by
      obtain ⟨s, hs, ha⟩ := address_station hs'
      exact ha ▸ hk s hs
    simp only [accepts, countSteps, hnone, Bool.toNat_false, Nat.zero_add] at hrest ⊢
    exact hrest

/-- In a run of two hosts, a connection is accepted at the far end at most as often as a call of
`connect` has used it and an open connection has ended at the far end while a SYN of it was on the
wire or still to be sent. -/
theorem accepts_le_connects {a b : HostId} (hab : a ≠ b) (ra sa pa rb sb pb : Nat) (k : SocketPair)
    (hk : k.near.host = a) (ops : List Op) :
    (pair (.fresh a ra sa pa) (.fresh b rb sb pb)).accepts 1 k.swap ops ≤
      (pair (.fresh a ra sa pa) (.fresh b rb sb pb)).connects 0 k ops +
        (pair (.fresh a ra sa pa) (.fresh b rb sb pb)).exposures 0 1 k ops := by
  by_cases hk' : k.far.host = b
  · have hjoins : (pair (.fresh a ra sa pa) (.fresh b rb sb pb)).Joins 0 1 k :=
      joins_fresh hab hk hk'
    have hrun := hjoins.accepts_run ops
    have hnone : (pair (.fresh a ra sa pa) (.fresh b rb sb pb)).owes 0 1 k = false :=
      Bool.eq_false_iff.2 fun h => Link.Owes.not_blank (blank_fresh k) (owes_iff.1 h)
    rw [hnone, Bool.toNat_false, Nat.zero_add] at hrun
    exact hrun
  · rw [tidy_fresh.accepts_run fun s hs => ?_]
    · exact Nat.zero_le _
    · obtain rfl := Option.some.inj hs
      exact hk'

def ghost : List Op :=
  [.call 0 (.connect 2 7), .flush 0, .tick 0, .flush 0, .deliver 0, .call 1 (.accept 7),
    .call 1 (.close ⟨⟨1, 0⟩, ⟨2, 7⟩⟩), .flush 1, .deliver 1, .deliver 1, .flush 0, .deliver 1,
    .deliver 0, .call 1 (.accept 7)]

theorem accepts_le_connects_ghost :
    (pair (.fresh 1 4 4 1) (.fresh 2 4 4 1)).accepts 1 ⟨⟨1, 0⟩, ⟨2, 7⟩⟩ ghost ≤
        (pair (.fresh 1 4 4 1) (.fresh 2 4 4 1)).connects 0 ⟨⟨2, 7⟩, ⟨1, 0⟩⟩ ghost +
          (pair (.fresh 1 4 4 1) (.fresh 2 4 4 1)).exposures 0 1 ⟨⟨2, 7⟩, ⟨1, 0⟩⟩ ghost ∧
      (pair (.fresh 1 4 4 1) (.fresh 2 4 4 1)).accepts 1 ⟨⟨1, 0⟩, ⟨2, 7⟩⟩ ghost = 2 ∧
      (pair (.fresh 1 4 4 1) (.fresh 2 4 4 1)).exposures 0 1 ⟨⟨2, 7⟩, ⟨1, 0⟩⟩ ghost = 1 :=
  ⟨accepts_le_connects (show (1 : HostId) ≠ 2 by decide) 4 4 1 4 4 1 ⟨⟨2, 7⟩, ⟨1, 0⟩⟩ rfl ghost,
    by decide +kernel, by decide +kernel⟩

theorem one_connect_accepted_twice :
    (∀ op ∈ ghost, ∀ m, op ≠ .duplicate m) ∧
      (pair (.fresh 1 4 4 1) (.fresh 2 4 4 1)).connects 0 ⟨⟨2, 7⟩, ⟨1, 0⟩⟩ ghost <
        (pair (.fresh 1 4 4 1) (.fresh 2 4 4 1)).accepts 1 ⟨⟨1, 0⟩, ⟨2, 7⟩⟩ ghost :=
  ⟨by simp [ghost], by decide +kernel⟩

end Network

end ReliableStream
