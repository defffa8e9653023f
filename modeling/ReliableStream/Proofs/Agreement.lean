import ReliableStream.Proofs.Dials
import ReliableStream.Proofs.Run

namespace ReliableStream

open Side

def Phase.begun (p : Phase) : Prop := p ≠ .closed ∧ p ≠ .synReceived

namespace Side

variable {cfg : Settings} {room : Nat} {k : SocketPair} {op : Station.Op} {r : Station.Reply}
  {e e' : Side} {s x : Segment} {kind : Kind}

theorem Moves.begun {p p' : Phase} (h : Moves k op r p p') (hp : p'.begun) :
    p.begun ∨ r = .accepted (.ok (some k)) := by
  cases h with
  | stay => exact .inl hp
  | shut => exact absurd rfl hp.1
  | knocked => exact absurd rfl hp.2
  | accepted _ hr => exact .inr hr
  | opened | halted | stopped => exact .inl ⟨by simp, by simp⟩
  | finished hp' =>
    refine .inl ?_
    rcases hp' with rfl | ⟨rfl | rfl, -⟩ <;> exact ⟨by simp, by simp⟩

theorem begun_of_again {p : Phase} (h : p.again kind = some .synAck) : p.begun := by
  cases kind <;> cases p <;> simp_all [Phase.again, Phase.begun]

theorem Hears.synAck (h : Hears room k s kind e e') (hx : x ∈ e'.replies)
    (hk : x.kind? = some .synAck) : x ∈ e.replies ∨ e.phase.begun := by
  have other {l : Kind} (hl : l ≠ .synAck) (hx : x ∈ e.replies ++ [s.answer l]) :
      x ∈ e.replies ∨ e.phase.begun := by
    refine (List.mem_append.1 hx).imp id fun hx => ?_
    rw [List.mem_singleton.1 hx, Segment.kind?_answer] at hk
    exact absurd (Option.some.inj hk) hl
  cases h with
  | strangeFin => exact other (by simp) hx
  | stale _ hc =>
    refine (List.mem_append.1 hx).imp id fun hx => ?_
    obtain ⟨l, hl, rfl⟩ := List.mem_map.1 hx
    rw [Segment.kind?_answer] at hk
    obtain rfl := Option.some.inj hk
    rw [phase_of_entry hc]
    exact begun_of_again (Option.mem_toList.1 hl)
  | kept | discarded | halted | crossed => exact other (by simp) hx
  | greeted hc hp =>
    refine .inr ?_
    rw [phase_of_entry hc]
    rcases hp with hp | hp <;> simp [Phase.begun, hp]
  | finished | finishedAgain => exact other (by simp) hx
  | _ => exact .inl hx

theorem Step.synAck (h : Step cfg k op r e e') (hx : x ∈ e'.replies)
    (hk : x.kind? = some .synAck) :
    x ∈ e.replies ∨ e.phase.begun ∨ r = .accepted (.ok (some k)) := by
  cases h with
  | heard _ _ _ hh => exact (hh.synAck hx hk).imp id .inl
  | accepted => exact .inr (.inr rfl)
  | wrote =>
    rw [(pushData_eq _ _).2.1] at hx
    exact .inl hx
  | polled => cases hx
  | _ => exact .inl hx

theorem Step.of_accepted (h : Step cfg k op r e e') (hr : r = .accepted (.ok (some k))) :
    op = .call (.accept k.near.port) ∧ e.entry ≠ none := by
  subst hr
  cases h with
  | apart _ _ hr => exact absurd rfl hr
  | forgot _ _ _ hr => exact absurd rfl hr
  | accepted hc => exact ⟨rfl, by simp [hc]⟩
  | passed _ _ hr => exact absurd rfl hr

end Side

/-- The far end shows that it has accepted, in its phase, its replies or what it has sent, only if
`accepted` holds. -/
structure Link.Agreed (accepted : Prop) (v : Link) : Prop where
  far : v.far.phase.begun → accepted
  replies : ∀ x ∈ v.far.replies, x.kind? = some .synAck → accepted
  back : ∀ x, v.back x → x.kind? = some .synAck → accepted

namespace Link.Agreed

variable {accepted : Prop} {k : SocketPair} {ev : Link.Event} {v v' : Link}

theorem mono {accepted' : Prop} (h : Agreed accepted v) (ha : accepted → accepted') :
    Agreed accepted' v :=
  ⟨ha ∘ h.far, fun x hx => ha ∘ h.replies x hx, fun x hx => ha ∘ h.back x hx⟩

theorem sending (h : Agreed accepted v) (hs : v.far.Sound) {x : Segment} (hx : v.far.sending x)
    (hk : x.kind? = some .synAck) : accepted := by
  have hr : x.isReply = true := by simp [Segment.isReply, hk, Kind.isReply]
  rcases hx with hx | hx | hx
  · exact h.replies x hx hk
  · rw [hs.resends x hx] at hr
    cases hr
  · rw [hs.pending x hx] at hr
    cases hr

theorem of_far (h : Agreed accepted v) (hfar : v'.far = v.far)
    (hback : ∀ x, v'.back x → v.back x) : Agreed accepted v' := by
  refine ⟨?_, ?_, fun x hx => h.back x (hback x hx)⟩
  · rw [hfar]
    exact h.far
  · rw [hfar]
    exact h.replies

theorem step (h : Agreed accepted v) (hs : v.far.Sound) (hst : Link.Step k ev v v')
    (hd : ∀ o r ticket, ev = .far o r → r ≠ .dialled (.ok ticket)) :
    Agreed (accepted ∨ ∃ o, ev = .far o (.accepted (.ok (some k.swap)))) v' := by
  cases hst with
  | near _ hsame _ _ hback => exact (h.of_far hsame hback).mono .inl
  | @far _ o r _ _ hside _ _ _ hback =>
    have hmoves := hside.moves fun ticket => hd o r ticket rfl
    have hacc (hr : r = .accepted (.ok (some k.swap))) :
        ∃ o', Link.Event.far o r = .far o' (.accepted (.ok (some k.swap))) := ⟨o, by rw [hr]⟩
    constructor
    · intro hp
      exact (hmoves.begun hp).imp h.far hacc
    · intro x hx hk
      rcases hside.synAck hx hk with hx | hp | hr
      · exact .inl (h.replies x hx hk)
      · exact .inl (h.far hp)
      · exact .inr (hacc hr)
    · intro x hx hk
      exact .inl ((hback x hx).elim (h.back x · hk) fun hx => h.sending hs hx hk)
  | none _ hsame _ hback => exact (h.of_far hsame hback).mono .inl

theorem blank (hfar : v.far = {}) (hback : ∀ x, ¬v.back x) : Agreed accepted v := by
  refine ⟨fun hp => ?_, fun x hx => ?_, fun x hx => absurd hx (hback x)⟩
  · rw [hfar] at hp
    exact absurd rfl hp.1
  · rw [hfar] at hx
    cases hx

end Link.Agreed

namespace Network

variable {n : Network} {i j : Nat} {k : SocketPair} {op : Op} {ops : List Op}

structure Within (n : Network) (P : SocketPair → Prop) : Prop where
  side : ∀ i k, ¬P k → n.side i k = {}
  wire : ∀ x, n.Carries x → P x.senderPair

theorem Tidy.side_step (h : n.Tidy) (op : Op) (i : Nat) (k : SocketPair) :
    (∃ o s, n.Acts op i o ∧ n.stations[i]? = some s ∧
      Side.Step s.host.settings k o (s.step o).2 (n.side i k) ((n.step op).1.side i k)) ∨
    (n.step op).1.side i k = n.side i k := by
  rcases n.step_station op i with ⟨o, ha, hs'⟩ | ⟨-, hs'⟩
  · cases hs : n.stations[i]? with
    | none =>
      refine .inr ?_
      rw [side, hs', hs, side, hs]
      rfl
    | some s =>
      have hst := s.step_side (h.filed i s hs) o k
      rw [hs] at hs'
      rw [← side_of_some hs, ← side_of_some hs'] at hst
      exact .inl ⟨o, s, ha, rfl, hst⟩
  · refine .inr ?_
    rw [side, hs', side]

theorem Within.step {P : SocketPair → Prop} (h : n.Within P) (ht : n.Tidy)
    (hP : ∀ k, P k.swap → P k) (hop : op.isConnect = false) : (n.step op).1.Within P := by
  constructor
  · intro i k hk
    rcases ht.side_step op i k with ⟨o, s, ha, hs, hst⟩ | hsame
    · rw [h.side i k hk] at hst
      refine (hst.blank (fun x hx hxk => hk (hP k ?_)) (ha.not_dialled (Op.ne_connect hop))).1
      exact hxk ▸ h.wire x (ha.arrival hx).1
    · exact hsame.trans (h.side i k hk)
  · intro x hx
    rcases carries_step hx with hx | ⟨i, s, -, hs, hx⟩
    · exact h.wire x hx
    · apply Classical.byContradiction
      intro hn
      have hsend := sending_of_outgoing (ht.filed i s hs) hx
      rw [← side_of_some hs, h.side i _ hn] at hsend
      exact not_sending_blank x hsend

structure Agreed (n : Network) (i j : Nat) (K : Option SocketPair) (accepted : Prop) : Prop where
  tidy : n.Tidy
  within : n.Within fun m => ∃ k ∈ K, m = k ∨ m = k.swap
  dials : ∀ s, n.stations[i]? = some s → ∀ d ∈ s.dials, d.pair ∈ K
  opened : ∀ s, n.stations[i]? = some s → ∀ ticket, (ticket, Answer.opened) ∈ s.host.answers →
    accepted
  joins : ∀ k ∈ K, n.Joins i j k
  link : ∀ k ∈ K, (n.link i j k).Agreed accepted

def Accepts (n : Network) (op : Op) (j : Nat) (k : SocketPair) : Prop :=
  op = .call j (.accept k.near.port) ∧ (n.step op).2 = .accepted (.ok (some k))

theorem EventOf.accepts {o : Station.Op} {r : Station.Reply} {v v' : Link}
    (h : n.EventOf op i j (.far o r)) (hst : Link.Step k (.far o r) v v')
    (hr : r = .accepted (.ok (some k.swap))) : n.Accepts op j k.swap := by
  cases hst with
  | far hside =>
    obtain ⟨rfl, -⟩ := hside.of_accepted hr
    cases h with
    | far ha hs =>
      cases ha
      exact ⟨rfl, by simpa [step, call, hs, Station.step] using hr⟩

namespace Agreed

variable {K : Option SocketPair} {accepted : Prop}

theorem mono {accepted' : Prop} (h : n.Agreed i j K accepted) (ha : accepted → accepted') :
    n.Agreed i j K accepted' :=
  ⟨h.tidy, h.within, h.dials, fun s hs ticket ht => ha (h.opened s hs ticket ht), h.joins,
    fun k hk => (h.link k hk).mono ha⟩

theorem synAck {o : Station.Op} {x : Segment} (h : n.Agreed i j K accepted) (ha : n.Acts op i o)
    (hx : o.arrival? = some x) (hk : x.kind? = some .synAck) : accepted := by
  obtain ⟨hc, s, hs, hd⟩ := ha.arrival hx
  obtain ⟨k, hkK, hp⟩ := h.within.wire x hc
  have hj := h.joins k hkK
  rcases hp with hp | hp
  · have hfar : s.address = k.far.host := by
      rw [hd, ← hp]
      rfl
    exact absurd (hj.far i s hs hfar) hj.apart
  · exact (h.link k hkK).back x ⟨hc, hp⟩ hk

theorem step (h : n.Agreed i j K accepted) (hop : op.isConnect = false) :
    (n.step op).1.Agreed i j K (accepted ∨ ∃ k ∈ K, n.Accepts op j k.swap) := by
  have hne : ∀ o, n.Acts op i o → ∀ farHost farPort, o ≠ .call (.connect farHost farPort) := by
    rintro o ha farHost farPort rfl
    cases ha
    cases hop
  constructor
  case tidy => exact h.tidy.step op
  case within =>
    refine h.within.step h.tidy ?_ hop
    rintro m ⟨k, hk, hm⟩
    exact ⟨k, hk, hm.symm.imp (congrArg SocketPair.swap) (congrArg SocketPair.swap)⟩
  case dials =>
    intro s' hs' d hd
    rcases n.step_station op i with ⟨o, ha, hs⟩ | ⟨-, hs⟩
    · rw [hs'] at hs
      obtain ⟨s, hn, rfl⟩ := Option.map_eq_some_iff.1 hs.symm
      exact h.dials s hn d ((s.dials_step (hne o ha)).subset hd)
    · exact h.dials s' (hs ▸ hs') d hd
  case opened =>
    intro s' hs' ticket ht
    refine .inl ?_
    rcases n.step_station op i with ⟨o, ha, hs⟩ | ⟨-, hs⟩
    · rw [hs'] at hs
      obtain ⟨s, hn, rfl⟩ := Option.map_eq_some_iff.1 hs.symm
      by_cases hx : ∃ x, o.arrival? = some x ∧ x.kind? = some .synAck
      · obtain ⟨x, hx, hk⟩ := hx
        exact h.synAck ha hx hk
      · exact h.opened s hn ticket (s.untold_step (fun x hx' hk => hx ⟨x, hx', hk⟩) ticket ht)
    · exact h.opened s' (hs ▸ hs') ticket ht
  case joins => exact fun k hk => (h.joins k hk).step op
  case link =>
    intro k hk
    obtain ⟨ev, hev, hst⟩ := (h.joins k hk).link_step op
    refine ((h.link k hk).step (h.tidy.side_sound j k.swap) hst ?_).mono (Or.imp id ?_)
    · rintro o r ticket rfl
      exact hev.far_not_dialled hop ticket
    · rintro ⟨o, rfl⟩
      exact ⟨k, hk, hev.accepts hst rfl⟩

theorem run (h : n.Agreed i j K accepted) (hops : ∀ op ∈ ops, op.isConnect = false) :
    (n.run ops).Agreed i j K (accepted ∨ ∃ k ∈ K,
      (.call j (.accept k.far.port), .accepted (.ok (some k.swap))) ∈ n.history ops) := by
  induction ops generalizing n accepted with
  | nil => exact h.mono .inl
  | cons op rest ih =>
    obtain ⟨hop, hrest⟩ := List.forall_mem_cons.1 hops
    refine (ih (h.step hop) hrest).mono ?_
    rintro ((ha | ⟨k, hk, hop, hr⟩) | ⟨k, hk, hin⟩)
    · exact .inl ha
    · refine .inr ⟨k, hk, List.mem_cons.2 (.inl ?_)⟩
      rw [hop] at hr
      rw [hop, hr]
      rfl
    · exact .inr ⟨k, hk, List.mem_cons_of_mem _ hin⟩

end Agreed

def Obtains (n : Network) (i : Nat) (op : Op) (k : SocketPair) : Prop :=
  ∃ ticket s, (n.step op).2 = .dialled (.ok ticket) ∧ (n.step op).1.stations[i]? = some s ∧
    ⟨ticket, k⟩ ∈ s.dials

structure Starts (n : Network) (i : Nat) (farHost : HostId) (farPort : Port) (s t : Station)
    (k : SocketPair) : Prop where
  before : n.stations[i]? = some s
  after : (n.step (.call i (.connect farHost farPort))).1.stations[i]? = some t
  reply : (n.step (.call i (.connect farHost farPort))).2 = .dialled (.ok s.host.issued)
  far : k.far = ⟨farHost, farPort⟩
  near : k.near.host = s.address
  dials : t.dials = s.dials ++ [⟨s.host.issued, k⟩]
  answers : t.host.answers = s.host.answers
  others : ∀ q, k ≠ q → t.host.side q = s.host.side q

section Connect

variable {farHost : HostId} {farPort : Port}

theorem Tidy.connect (h : n.Tidy) : (n.step (.call i (.connect farHost farPort))).1 = n ∨
    ∃ s t k, n.Starts i farHost farPort s t k := by
  cases hs : n.stations[i]? with
  | none => exact .inl (by simp [Network.step, Network.call, hs])
  | some s =>
    rcases s.connect_spec (h.filed i s hs) farHost farPort with
      ⟨f, hf⟩ | ⟨k, hfar, hnear, -, hr, hd, -, ho⟩
    · obtain ⟨hl, rfl⟩ := List.getElem?_eq_some_iff.1 hs
      exact .inl (by simp [Network.step, Network.call, hl, Station.call, hf])
    · refine .inr ⟨s, (s.connect farHost farPort).1, k, hs, ?_, ?_, hfar, hnear, hd,
        s.answers_connect farHost farPort, ho⟩
      · exact (Acts.call i (.connect farHost farPort)).step_station hs
      · simp [Network.step, Network.call, hs, Station.call, hr]

variable {s t : Station}

theorem Starts.obtains (h : n.Starts i farHost farPort s t k) :
    n.Obtains i (.call i (.connect farHost farPort)) k := by
  refine ⟨s.host.issued, t, h.reply, h.after, ?_⟩
  rw [h.dials]
  exact List.mem_append_right _ (List.mem_singleton.2 rfl)

theorem Starts.within (h : n.Starts i farHost farPort s t k) (hblank : ∀ m q, n.side m q = {})
    (hwire : ∀ x, ¬n.Carries x) : (n.step (.call i (.connect farHost farPort))).1.Within
      fun m => ∃ q ∈ some k, m = q ∨ m = q.swap := by
  constructor
  · intro m q hq
    obtain ⟨hqk, -⟩ := not_or.1 fun hq' => hq ⟨k, rfl, hq'⟩
    rcases n.step_station (.call i (.connect farHost farPort)) m with ⟨o, ha, -⟩ | ⟨-, hsame⟩
    · cases ha
      rw [side_of_some h.after, h.others q (Ne.symm hqk), ← side_of_some h.before]
      exact hblank i q
    · rw [side, hsame]
      exact hblank m q
  · intro x hx
    rcases carries_step hx with hx | ⟨m, -, ha, -⟩
    · exact absurd hx (hwire x)
    · cases ha

theorem Agreed.starts {accepted : Prop} (h : n.Agreed i j none accepted)
    (hs : n.Starts i farHost farPort s t k) (hj : n.Joins i j k) :
    (n.step (.call i (.connect farHost farPort))).1.Agreed i j (some k) accepted := by
  have hblank (m : Nat) (q : SocketPair) : n.side m q = {} := h.within.side m q (by simp)
  have hwire : ∀ x, ¬n.Carries x := by
    intro x hx
    obtain ⟨m, hm, -⟩ := h.within.wire x hx
    cases hm
  constructor
  case tidy => exact h.tidy.step _
  case within => exact hs.within hblank hwire
  case dials =>
    intro t' ht d hd
    rw [hs.after] at ht
    rw [← Option.some.inj ht, hs.dials] at hd
    rcases List.mem_append.1 hd with hd | hd
    · cases h.dials s hs.before d hd
    · rw [List.mem_singleton.1 hd]
      rfl
  case opened =>
    intro t' ht ticket hticket
    rw [hs.after] at ht
    rw [← Option.some.inj ht, hs.answers] at hticket
    exact h.opened s hs.before ticket hticket
  case joins =>
    intro q hq
    obtain rfl := Option.some.inj hq
    exact hj.step _
  case link =>
    intro q hq
    obtain rfl := Option.some.inj hq
    have hb : (n.link i j k).Blank :=
      ⟨hblank i k, hblank j k.swap, fun x hx => hwire x hx.1, fun x hx => hwire x hx.1⟩
    rcases hj.connect_step farHost farPort hb with hb | ⟨-, -, -, hfar, -, hback⟩
    · exact .blank hb.far hb.back
    · exact .blank hfar hback

end Connect

/-- What the calls of `connect` of a station come to in a step. -/
def resolved (n : Network) (i : Nat) : Op → List (Except Failure SocketPair)
  | .call j c => if j = i then (n.stations[i]?).elim [] (·.resolved (.call c)) else []
  | .expire j ticket => if j = i then (n.stations[i]?).elim [] (·.resolved (.expire ticket)) else []
  | _ => []

def resolutions (n : Network) (i : Nat) : List Op → List (Except Failure SocketPair)
  | [] => []
  | op :: rest => n.resolved i op ++ (n.step op).1.resolutions i rest

def dialling (n : Network) (i : Nat) : Nat := (n.stations[i]?).elim 0 (·.dials.length)

theorem Acts.resolved {o : Station.Op} {s : Station} (ha : n.Acts op i o)
    (hs : n.stations[i]? = some s) : n.resolved i op = s.resolved o := by
  cases ha with
  | call | expire => simp [Network.resolved, hs]
  | _ => rfl

theorem resolved_of_idle (hn : ∀ o, n.Acts op i o → n.stations[i]? = none) :
    n.resolved i op = [] := by
  cases op with
  | call j c =>
    by_cases hj : j = i
    · subst hj
      simp [resolved, hn _ (.call j c)]
    · simp [resolved, hj]
  | expire j ticket =>
    by_cases hj : j = i
    · subst hj
      simp [resolved, hn _ (.expire j ticket)]
    · simp [resolved, hj]
  | _ => rfl

theorem length_resolved (hn : n.dialling i ≤ 1) (op : Op) :
    (n.resolved i op).length + (n.step op).1.dialling i ≤
      n.dialling i + ([op].filter Op.isConnect).length := by
  rcases n.step_station op i with ⟨o, ha, hs'⟩ | ⟨hna, hs'⟩
  · cases hs : n.stations[i]? with
    | none =>
      rw [resolved_of_idle fun _ _ => hs, dialling, hs', hs]
      exact Nat.zero_le _
    | some s =>
      rw [dialling, hs] at hn
      rw [ha.resolved hs, dialling, hs', dialling, hs]
      cases hop : op.isConnect with
      | true =>
        rw [List.filter_cons_of_pos (by exact hop)]
        cases op with
        | call m c =>
          cases c with
          | connect farHost farPort =>
            cases ha
            exact s.length_connect farHost farPort
          | _ => cases hop
        | _ => cases hop
      | false =>
        rw [List.filter_cons_of_neg (by simp [hop])]
        refine s.length_resolved hn ?_
        rintro farHost farPort rfl
        cases ha
        cases hop
  · rw [resolved_of_idle fun o ha => absurd ha (hna o), dialling, hs', dialling, List.length_nil,
      Nat.zero_add]
    exact Nat.le_add_right _ _

theorem length_resolutions (ops : List Op) (hn : n.dialling i + (ops.filter Op.isConnect).length ≤ 1) :
    (n.resolutions i ops).length ≤ n.dialling i + (ops.filter Op.isConnect).length := by
  induction ops generalizing n with
  | nil => exact Nat.zero_le _
  | cons op rest ih =>
    have hcons : ((op :: rest).filter Op.isConnect).length =
        ([op].filter Op.isConnect).length + (rest.filter Op.isConnect).length := by
      rw [← List.singleton_append, List.filter_append, List.length_append]
    have hstep := n.length_resolved (i := i) (by omega) op
    have hrest := ih (n := (n.step op).1) (by omega)
    rw [resolutions, List.length_append]
    omega

theorem opened_of_resolved (h : .ok k ∈ n.resolved i op) : ∃ s, n.stations[i]? = some s ∧
    ∃ d ∈ s.dials, d.pair = k ∧ (d.ticket, .opened) ∈ s.host.answers := by
  by_cases hn : ∀ o, n.Acts op i o → n.stations[i]? = none
  · rw [resolved_of_idle hn] at h
    cases h
  · obtain ⟨o, hn⟩ := Classical.not_forall.1 hn
    obtain ⟨ha, hs⟩ := Classical.not_imp.1 hn
    obtain ⟨s, hs⟩ := Option.ne_none_iff_exists'.1 hs
    rw [ha.resolved hs] at h
    exact ⟨s, hs, s.opened_of_resolved h⟩

namespace Agreed

variable {K : Option SocketPair} {accepted : Prop}

theorem of_resolved (h : n.Agreed i j K accepted) (hk : .ok k ∈ n.resolved i op) :
    k ∈ K ∧ accepted := by
  obtain ⟨s, hs, d, hd, rfl, ho⟩ := opened_of_resolved hk
  exact ⟨h.dials s hs d hd, h.opened s hs d.ticket ho⟩

theorem of_accepted {q : Port} {m : SocketPair} (h : n.Agreed i j K accepted)
    (hr : (n.step (.call j (.accept q))).2 = .accepted (.ok (some m))) : ∃ k ∈ K, m = k.swap := by
  cases hs : n.stations[j]? with
  | none =>
    simp [Network.step, Network.call, hs] at hr
  | some s =>
    have hreply : (s.step (.call (.accept q))).2 = .accepted (.ok (some m)) := by
      simpa [Network.step, Network.call, Station.step, hs] using hr
    obtain ⟨-, hentry⟩ := (s.step_side (h.tidy.filed j s hs) (.call (.accept q)) m).of_accepted hreply
    rw [← side_of_some hs] at hentry
    apply Classical.byContradiction
    intro hm
    by_cases hK : m ∈ K
    · have hj := h.joins m hK
      have haddr : m.near.host ≠ s.address := fun he => hj.apart (hj.near j s hs he.symm).symm
      rw [side_of_some hs, h.tidy.home j s hs m haddr] at hentry
      exact hentry rfl
    · refine hentry ?_
      rw [h.within.side j m ?_]
      rintro ⟨k, hk, rfl | rfl⟩
      · exact hK hk
      · exact hm ⟨k, hk, rfl⟩

theorem dialled {farHost : HostId} {farPort : Port} (h : n.Agreed i j none False)
    (hj : ∀ s k, n.stations[i]? = some s → k.near.host = s.address → k.far = ⟨farHost, farPort⟩ →
      n.Joins i j k)
    (hops : (ops.filter Op.isConnect).Sublist [.call i (.connect farHost farPort)]) :
    (n.run ops).Agreed i j none False ∨
      ∃ k before after, ops = before ++ .call i (.connect farHost farPort) :: after ∧
        k.far = ⟨farHost, farPort⟩ ∧
        (n.run before).Obtains i (.call i (.connect farHost farPort)) k ∧
        (n.run ops).Agreed i j (some k)
          ((.call j (.accept farPort), .accepted (.ok (some k.swap))) ∈ n.history ops) := by
  rcases split_connect rfl hops with hnone | ⟨before, after, rfl, hbefore, hafter⟩
  · exact .inl ((h.run hnone).mono (by simp))
  · have hstart := (h.run hbefore).mono (by simp : _ → False)
    have hj' : ∀ s k, (n.run before).stations[i]? = some s → k.near.host = s.address →
        k.far = ⟨farHost, farPort⟩ → (n.run before).Joins i j k := by
      intro s k hs hnear hfar
      obtain ⟨t, ht, hta⟩ := address_run hs
      exact (hj t k ht (hnear.trans hta.symm) hfar).run before
    have hrun : n.run (before ++ .call i (.connect farHost farPort) :: after) =
        ((n.run before).step (.call i (.connect farHost farPort))).1.run after := run_append n _ _
    rw [hrun]
    rcases hstart.tidy.connect (i := i) with hsame | ⟨s, t, k, hs⟩
    · rw [hsame]
      exact .inl ((hstart.run hafter).mono (by simp))
    · have hopen := hstart.starts hs (hj' s k hs.before hs.near hs.far)
      refine .inr ⟨k, before, after, rfl, hs.far, hs.obtains, (hopen.run hafter).mono ?_⟩
      rintro (hfalse | ⟨m, hm, hin⟩)
      · exact hfalse.elim
      · obtain rfl := Option.some.inj hm
        rw [hs.far] at hin
        rw [history_append]
        exact List.mem_append_right _ (List.mem_cons_of_mem _ hin)

end Agreed

theorem agreed_fresh {a b : HostId} {ra sa pa rb sb pb : Nat} :
    (pair (.fresh a ra sa pa) (.fresh b rb sb pb)).Agreed 0 1 none False := by
  have hwire : ∀ x, ¬(pair (.fresh a ra sa pa) (.fresh b rb sb pb)).Carries x := by
    rintro x ⟨f, hf, -⟩
    cases hf
  refine ⟨tidy_fresh, ⟨fun m k _ => ?_, fun x hx => absurd hx (hwire x)⟩, fun s hs d hd => ?_,
    fun s hs ticket ht => ?_, by simp, by simp⟩
  · cases hs : (pair (.fresh a ra sa pa) (.fresh b rb sb pb)).stations[m]? with
    | none =>
      rw [side, hs]
      rfl
    | some s =>
      rw [side_of_some hs]
      rcases fresh_station hs with ⟨-, rfl⟩ | ⟨-, rfl⟩ <;> rfl
  · rcases fresh_station hs with ⟨-, rfl⟩ | ⟨-, rfl⟩ <;> cases hd
  · rcases fresh_station hs with ⟨-, rfl⟩ | ⟨-, rfl⟩ <;> cases ht

/-- In a run of two hosts with one call of `connect`: the call comes to one thing at most; if it
succeeds, the far end has accepted the connection before; and what the far end accepts is the
connection that the call has dialled before. -/
theorem handshake_agrees {a b : HostId} (hab : a ≠ b) (ra sa pa rb sb pb : Nat) (p : Port)
    (ops : List Op) (hconnect : (ops.filter Op.isConnect).Sublist [.call 0 (.connect b p)]) :
    ((pair (.fresh a ra sa pa) (.fresh b rb sb pb)).resolutions 0 ops).length ≤ 1 ∧
    (∀ before op after k, ops = before ++ op :: after →
      .ok k ∈ ((pair (.fresh a ra sa pa) (.fresh b rb sb pb)).run before).resolved 0 op →
      (.call 1 (.accept p), .accepted (.ok (some k.swap))) ∈
        (pair (.fresh a ra sa pa) (.fresh b rb sb pb)).history before) ∧
    (∀ before q after k, ops = before ++ .call 1 (.accept q) :: after →
      (((pair (.fresh a ra sa pa) (.fresh b rb sb pb)).run before).step (.call 1 (.accept q))).2 =
        .accepted (.ok (some k)) →
      ∃ xs ys, before = xs ++ .call 0 (.connect b p) :: ys ∧
        ((pair (.fresh a ra sa pa) (.fresh b rb sb pb)).run xs).Obtains 0 (.call 0 (.connect b p))
          k.swap) := by
  have hjoins : ∀ s k, (pair (.fresh a ra sa pa) (.fresh b rb sb pb)).stations[0]? = some s →
      k.near.host = s.address → k.far = ⟨b, p⟩ →
        (pair (.fresh a ra sa pa) (.fresh b rb sb pb)).Joins 0 1 k := by
    intro s k hs hnear hfar
    obtain rfl := Option.some.inj hs
    exact joins_fresh hab hnear (congrArg Endpoint.host hfar)
  have hinit {before rest : List Op} (he : ops = before ++ rest) :
      (before.filter Op.isConnect).Sublist [.call 0 (.connect b p)] := by
    rw [he, List.filter_append] at hconnect
    exact (List.sublist_append_left _ _).trans hconnect
  refine ⟨?_, ?_, ?_⟩
  · have hlen := hconnect.length_le
    rw [List.length_singleton] at hlen
    have hdial : (pair (.fresh a ra sa pa) (.fresh b rb sb pb)).dialling 0 = 0 := rfl
    have hle := length_resolutions ops (show (pair (.fresh a ra sa pa) (.fresh b rb sb pb)).dialling 0 +
      (ops.filter Op.isConnect).length ≤ 1 by omega)
    omega
  · intro before op after k he hk
    rcases agreed_fresh.dialled hjoins (hinit he) with hnone | ⟨m, -, -, -, -, -, hsome⟩
    · cases (hnone.of_resolved hk).1
    · obtain ⟨hm, hin⟩ := hsome.of_resolved hk
      obtain rfl := Option.some.inj hm
      exact hin
  · intro before q after k he hk
    rcases agreed_fresh.dialled hjoins (hinit he) with hnone | ⟨m, xs, ys, hsplit, -, hobt, hsome⟩
    · obtain ⟨m, hm, -⟩ := hnone.of_accepted hk
      cases hm
    · obtain ⟨m', hm, rfl⟩ := hsome.of_accepted hk
      obtain rfl := Option.some.inj hm
      exact ⟨xs, ys, hsplit, hobt⟩

def handshake : List Op :=
  [.call 0 (.connect 2 7), .flush 0, .duplicate 0, .deliver 0, .call 1 (.accept 7), .flush 1,
    .duplicate 0, .deliver 0, .call 0 .resumeAll]

theorem handshake_agrees_handshake :
    ((pair (.fresh 1 4 4 4) (.fresh 2 4 4 4)).resolutions 0 handshake).length ≤ 1 ∧
      (.call 1 (.accept 7), .accepted (.ok (some ⟨⟨1, 0⟩, ⟨2, 7⟩⟩))) ∈
        (pair (.fresh 1 4 4 4) (.fresh 2 4 4 4)).history (handshake.take 8) ∧
      ∃ xs ys, handshake.take 4 = xs ++ .call 0 (.connect 2 7) :: ys ∧
        ((pair (.fresh 1 4 4 4) (.fresh 2 4 4 4)).run xs).Obtains 0 (.call 0 (.connect 2 7))
          ⟨⟨2, 7⟩, ⟨1, 0⟩⟩ := by
  obtain ⟨honce, hok, hacc⟩ := handshake_agrees (show (1 : HostId) ≠ 2 by decide) 4 4 4 4 4 4 7
    handshake (by decide)
  have hresolved : ((pair (.fresh 1 4 4 4) (.fresh 2 4 4 4)).run (handshake.take 8)).resolved 0
      (.call 0 .resumeAll) = [.ok ⟨⟨2, 7⟩, ⟨1, 0⟩⟩] := by rfl
  refine ⟨honce, ?_, ?_⟩
  · exact hok (handshake.take 8) (.call 0 .resumeAll) [] ⟨⟨2, 7⟩, ⟨1, 0⟩⟩ rfl
      (hresolved ▸ List.mem_singleton.2 rfl)
  · exact hacc (handshake.take 4) 7 (handshake.drop 5) ⟨⟨1, 0⟩, ⟨2, 7⟩⟩ rfl rfl

end Network

end ReliableStream
