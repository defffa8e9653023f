import ReliableStream.Network
import ReliableStream.Proofs.Sound
import ReliableStream.Proofs.Wire

/-!
The two ends of a connection and the frames between them. Each step of a network is a `Link.Step` of
each of its connections.
-/

namespace ReliableStream

/-- The near side and the far side of a connection, and the segments on the wire that they have
sent. -/
structure Link where
  near : Side
  far : Side
  out : Segment → Prop
  back : Segment → Prop

namespace Link

inductive Event where
  | near (op : Station.Op) (reply : Station.Reply)
  | far (op : Station.Op) (reply : Station.Reply)
  | none

inductive Step (k : SocketPair) : Event → Link → Link → Prop
  | near {cfg op r v v'} : Side.Step cfg k op r v.near v'.near → v'.far = v.far →
      (∀ x, op.arrival? = some x → x.receiverPair = k → v.back x) →
      (∀ x, v'.out x → v.out x ∨ v.near.sending x) → (∀ x, v'.back x → v.back x) →
      Step k (.near op r) v v'
  | far {cfg op r v v'} : Side.Step cfg k.swap op r v.far v'.far → v'.near = v.near →
      (∀ x, op.arrival? = some x → x.receiverPair = k.swap → v.out x) →
      (∀ x, v'.out x → v.out x) → (∀ x, v'.back x → v.back x ∨ v.far.sending x) →
      Step k (.far op r) v v'
  | none {v v'} : v'.near = v.near → v'.far = v.far → (∀ x, v'.out x → v.out x) →
      (∀ x, v'.back x → v.back x) → Step k .none v v'

def swap (v : Link) : Link := ⟨v.far, v.near, v.back, v.out⟩

def Event.swap : Event → Event
  | near op r => far op r
  | far op r => near op r
  | none => none

theorem Step.swap {k : SocketPair} {ev : Event} {v v' : Link} (h : Step k ev v v') :
    Step k.swap ev.swap v.swap v'.swap := by
  cases h with
  | near h hs ha ho hb => exact .far h hs ha hb ho
  | far h hs ha ho hb => exact .near h hs ha hb ho
  | none hn hf ho hb => exact .none hf hn hb ho

end Link

namespace Network

def side (n : Network) (i : Nat) (k : SocketPair) : Side :=
  (n.stations[i]?).elim {} fun s => s.host.side k

def Carries (n : Network) (x : Segment) : Prop := ∃ f ∈ n.wire, Segment.ofFrame f = .ok x

def link (n : Network) (i j : Nat) (k : SocketPair) : Link where
  near := n.side i k
  far := n.side j k.swap
  out x := n.Carries x ∧ x.senderPair = k
  back x := n.Carries x ∧ x.senderPair = k.swap

inductive Acts (n : Network) : Op → Nat → Station.Op → Prop
  | call (i c) : Acts n (.call i c) i (.call c)
  | tick (i) : Acts n (.tick i) i .tick
  | expire (i ticket) : Acts n (.expire i ticket) i (.expire ticket)
  | flush (i) : Acts n (.flush i) i .poll
  | deliver {m f i} : n.wire[m]? = some f → n.stationAt? f.dest = some i →
      Acts n (.deliver m) i (.receiveFrame f)
  | duplicate {m f i} : n.wire[m]? = some f → n.stationAt? f.dest = some i →
      Acts n (.duplicate m) i (.receiveFrame f)

variable {n : Network} {op : Op} {i j : Nat} {o : Station.Op}

theorem Acts.unique (h : n.Acts op i o) {o' : Station.Op} (h' : n.Acts op j o') : i = j := by
  cases h <;> cases h' <;> simp_all

theorem station_adjust (n : Network) (j : Nat) (f : Station → Station) (i : Nat) :
    (n.adjust j f).stations[i]? =
      if j = i then (n.stations[i]?).map f else n.stations[i]? := by
  by_cases hj : j = i
  · subst hj
    simp [adjust]
  · simp [adjust, hj]

theorem adjust_of_some {j : Nat} {s : Station} (hs : n.stations[j]? = some s)
    (f : Station → Station) : n.stations.set j (f s) = (n.adjust j f).stations := by
  obtain ⟨hl, rfl⟩ := List.getElem?_eq_some_iff.1 hs
  apply List.ext_getElem?
  intro i
  rw [station_adjust]
  by_cases hj : j = i
  · subst hj
    simp [hl]
  · simp [hj]

theorem adjust_of_none {j : Nat} (hs : n.stations[j]? = none) (f : Station → Station) :
    n.stations = (n.adjust j f).stations := by
  apply List.ext_getElem?
  intro i
  rw [station_adjust]
  by_cases hj : j = i
  · subst hj
    simp [hs]
  · simp [hj]

theorem stations_call (n : Network) (j : Nat) (c : Call) :
    (n.step (.call j c)).1.stations = (n.adjust j fun s => (s.step (.call c)).1).stations := by
  simp only [step, call]
  cases hs : n.stations[j]? with
  | none => exact adjust_of_none hs _
  | some s => exact adjust_of_some hs fun s => (s.step (.call c)).1

theorem stations_flush (n : Network) (j : Nat) :
    (n.step (.flush j)).1.stations = (n.adjust j fun s => (s.step .poll).1).stations := by
  simp only [step, flush]
  cases hs : n.stations[j]? with
  | none => exact adjust_of_none hs _
  | some s => exact adjust_of_some hs fun s => (s.step .poll).1

theorem stations_deliver {m : Nat} {f : Frame} (hf : n.wire[m]? = some f) :
    (n.step (.deliver m)).1.stations = (n.hand f).stations := by
  simp only [step, deliver, hf]
  unfold hand
  rw [show (n.lose m).stationAt? f.dest = n.stationAt? f.dest from rfl]
  split <;> rfl

theorem stations_duplicate {m : Nat} {f : Frame} (hf : n.wire[m]? = some f) :
    (n.step (.duplicate m)).1.stations = (n.hand f).stations := by
  simp only [step, duplicate, hf]

theorem step_station (n : Network) (op : Op) (i : Nat) :
    (∃ o, n.Acts op i o ∧
      (n.step op).1.stations[i]? = (n.stations[i]?).map fun s => (s.step o).1) ∨
    (∀ o, ¬n.Acts op i o) ∧ (n.step op).1.stations[i]? = n.stations[i]? := by
  have one {j : Nat} {o : Station.Op} (ha : n.Acts op j o)
      (hst : (n.step op).1.stations = (n.adjust j fun s => (s.step o).1).stations) :
      (∃ o, n.Acts op i o ∧
        (n.step op).1.stations[i]? = (n.stations[i]?).map fun s => (s.step o).1) ∨
      (∀ o, ¬n.Acts op i o) ∧ (n.step op).1.stations[i]? = n.stations[i]? := by
    rw [hst, station_adjust]
    by_cases hj : j = i
    · subst hj
      rw [if_pos rfl]
      exact .inl ⟨o, ha, rfl⟩
    · rw [if_neg hj]
      exact .inr ⟨fun o' ho => hj (ha.unique ho), rfl⟩
  have handed {f : Frame} (hst : (n.step op).1.stations = (n.hand f).stations)
      (ha : ∀ j, n.stationAt? f.dest = some j → n.Acts op j (.receiveFrame f))
      (hn : n.stationAt? f.dest = none → ∀ o, ¬n.Acts op i o) :
      (∃ o, n.Acts op i o ∧
        (n.step op).1.stations[i]? = (n.stations[i]?).map fun s => (s.step o).1) ∨
      (∀ o, ¬n.Acts op i o) ∧ (n.step op).1.stations[i]? = n.stations[i]? := by
    cases hj : n.stationAt? f.dest with
    | none =>
      rw [hst, hand, hj]
      exact .inr ⟨hn hj, rfl⟩
    | some j => exact one (ha j hj) (by rw [hst, hand, hj]; rfl)
  cases op with
  | call j c => exact one (.call j c) (n.stations_call j c)
  | tick j => exact one (.tick j) rfl
  | expire j ticket => exact one (.expire j ticket) rfl
  | flush j => exact one (.flush j) (n.stations_flush j)
  | deliver m =>
    cases hf : n.wire[m]? with
    | none =>
      simp only [step, deliver, hf]
      exact .inr ⟨fun o ho => by cases ho; simp_all, trivial⟩
    | some f =>
      exact handed (stations_deliver hf) (fun j => .deliver hf)
        fun hn o ho => by cases ho; simp_all
  | duplicate m =>
    cases hf : n.wire[m]? with
    | none =>
      simp only [step, duplicate, hf]
      exact .inr ⟨fun o ho => by cases ho; simp_all, trivial⟩
    | some f =>
      exact handed (stations_duplicate hf) (fun j => .duplicate hf)
        fun hn o ho => by cases ho; simp_all
  | lose m => exact .inr ⟨fun o ho => (by cases ho), rfl⟩

theorem placeInRun_perm (s : Segment) (l : List Segment) : (placeInRun s l).Perm (s :: l) := by
  induction l with
  | nil => exact .refl _
  | cons t rest ih =>
    unfold placeInRun
    split
    · exact .refl _
    · exact (ih.cons t).trans (.swap s t rest)

theorem inSendingOrder_perm (l : List Segment) : (inSendingOrder l).Perm l := by
  induction l with
  | nil => exact .refl _
  | cons s rest ih =>
    unfold inSendingOrder
    split
    · exact ih.cons s
    · exact (placeInRun_perm s _).trans (ih.cons s)

theorem mem_of_mem_made {segments : List Segment} {f : Frame} {x : Segment}
    (hf : f ∈ made (frames segments)) (hx : Segment.ofFrame f = .ok x) : x ∈ segments := by
  obtain ⟨r, hr, hrf⟩ := List.mem_filterMap.1 hf
  obtain ⟨s, hs, rfl⟩ := List.mem_map.1 hr
  cases ht : s.toFrame with
  | error fault => simp [ht, Except.toOption] at hrf
  | ok g =>
    simp only [ht, Except.toOption, Option.some.injEq] at hrf
    subst hrf
    rw [Segment.ofFrame_toFrame ht, Except.ok.injEq] at hx
    exact hx ▸ (inSendingOrder_perm segments).mem_iff.1 hs

@[simp] theorem wire_hand (n : Network) (f : Frame) : (n.hand f).wire = n.wire := by
  unfold hand
  split <;> rfl

theorem carries_step {x : Segment} (h : (n.step op).1.Carries x) :
    n.Carries x ∨ ∃ i s, n.Acts op i .poll ∧ n.stations[i]? = some s ∧
      x ∈ s.host.outbox.outgoing := by
  obtain ⟨f, hf, hx⟩ := h
  have old (hf : f ∈ n.wire) : n.Carries x := ⟨f, hf, hx⟩
  have lost {i : Nat} (hf : f ∈ (n.lose i).wire) : n.Carries x :=
    old ((List.eraseIdx_sublist _ _).subset hf)
  cases op with
  | call j c =>
    simp only [step, call] at hf
    split at hf <;> exact .inl (old hf)
  | tick j => exact .inl (old hf)
  | expire j ticket => exact .inl (old hf)
  | flush j =>
    simp only [step, flush] at hf
    cases hs : n.stations[j]? with
    | none =>
      rw [hs] at hf
      exact .inl (old hf)
    | some s =>
      rw [hs] at hf
      rcases List.mem_append.1 hf with hf | hf
      · exact .inl (old hf)
      · exact .inr ⟨j, s, .flush j, hs, mem_of_mem_made hf hx⟩
  | deliver m =>
    simp only [step, deliver] at hf
    split at hf
    · exact .inl (old hf)
    · rw [wire_hand] at hf
      exact .inl (lost hf)
  | duplicate m =>
    simp only [step, duplicate] at hf
    split at hf
    · exact .inl (old hf)
    · rw [wire_hand] at hf
      exact .inl (old hf)
  | lose m => exact .inl (lost hf)

theorem Acts.station {i : Nat} {f : Frame} (h : n.stationAt? f.dest = some i) :
    ∃ s, n.stations[i]? = some s ∧ s.address = f.dest := by
  obtain ⟨hl, hp, -⟩ := List.findIdx?_eq_some_iff_getElem.1 h
  exact ⟨n.stations[i], List.getElem?_eq_getElem hl, by simpa using hp⟩

theorem Acts.arrival (h : n.Acts op i o) {x : Segment} (hx : o.arrival? = some x) :
    n.Carries x ∧ ∃ s, n.stations[i]? = some s ∧ s.address = x.dest.host := by
  have frame {f : Frame} {m : Nat} (hf : n.wire[m]? = some f) (ha : n.stationAt? f.dest = some i)
      (hx : (Segment.ofFrame f).toOption = some x) :
      n.Carries x ∧ ∃ s, n.stations[i]? = some s ∧ s.address = x.dest.host := by
    have hx : Segment.ofFrame f = .ok x := by
      cases hr : Segment.ofFrame f <;> simp_all [Except.toOption]
    obtain ⟨s, hs, hd⟩ := Acts.station ha
    exact ⟨⟨f, List.mem_of_getElem? hf, hx⟩, s, hs, hd.trans (Segment.dest_of_ofFrame hx).symm⟩
  cases h with
  | call | tick | expire | flush => cases hx
  | deliver hf ha => exact frame hf ha hx
  | duplicate hf ha => exact frame hf ha hx

structure Tidy (n : Network) : Prop where
  filed : ∀ (i : Nat) (s : Station), n.stations[i]? = some s → s.host.Filed
  sound : ∀ (i : Nat) (s : Station), n.stations[i]? = some s → ∀ k, (s.host.side k).Sound
  home : ∀ (i : Nat) (s : Station), n.stations[i]? = some s →
    ∀ k : SocketPair, k.near.host ≠ s.address → s.host.side k = {}

theorem Tidy.step (h : n.Tidy) (op : Op) : (n.step op).1.Tidy := by
  have key (i : Nat) (s' : Station) (hs' : (n.step op).1.stations[i]? = some s') :
      s'.host.Filed ∧ (∀ k, (s'.host.side k).Sound) ∧
        ∀ k, k.near.host ≠ s'.address → s'.host.side k = {} := by
    rcases n.step_station op i with ⟨o, ha, hs⟩ | ⟨-, hs⟩
    · rw [hs'] at hs
      obtain ⟨s, hn, rfl⟩ := Option.map_eq_some_iff.1 hs.symm
      have hf := h.filed i s hn
      refine ⟨(s.step_steady o).filed hf, fun k => (s.step_side hf o k).sound (h.sound i s hn k),
        fun k hk => ?_⟩
      rw [Station.address_step] at hk
      have hb := h.home i s hn k hk
      have harr : ∀ x, o.arrival? = some x → x.receiverPair ≠ k := by
        rintro x hx rfl
        obtain ⟨-, s₂, hs₂, hd⟩ := ha.arrival hx
        rw [hn, Option.some.injEq] at hs₂
        exact hk (hs₂ ▸ hd.symm)
      by_cases hd : ∃ farHost farPort, o = .call (.connect farHost farPort)
      · obtain ⟨farHost, farPort, rfl⟩ := hd
        rcases s.connect_spec hf farHost farPort with ⟨f, hc⟩ | ⟨j, -, hj, -, -, -, -, ho⟩
        · rw [show (s.step (.call (.connect farHost farPort))).1 =
            (s.connect farHost farPort).1 from rfl, hc]
          exact hb
        · exact (ho k fun hjk => hk (hjk ▸ hj)).trans hb
      · have hst := s.step_side hf o k
        rw [hb] at hst
        refine (hst.blank harr fun ticket hr => hd ?_).1
        cases o with
        | call c => cases c <;> simp_all [Station.step, Station.call]
        | _ => simp_all [Station.step]
    · rw [hs'] at hs
      exact ⟨h.filed i s' hs.symm, h.sound i s' hs.symm, h.home i s' hs.symm⟩
  exact ⟨fun i s hs => (key i s hs).1, fun i s hs => (key i s hs).2.1, fun i s hs => (key i s hs).2.2⟩

/-- Station `i` alone is at the near end of the connection, station `j` alone at the far end. -/
structure Joins (n : Network) (i j : Nat) (k : SocketPair) : Prop where
  tidy : n.Tidy
  near : ∀ (m : Nat) (s : Station), n.stations[m]? = some s → s.address = k.near.host → m = i
  far : ∀ (m : Nat) (s : Station), n.stations[m]? = some s → s.address = k.far.host → m = j
  hosts : k.near.host ≠ k.far.host
  apart : i ≠ j

variable {k : SocketPair}

theorem Joins.swap (h : n.Joins i j k) : n.Joins j i k.swap :=
  ⟨h.tidy, h.far, h.near, h.hosts.symm, h.apart.symm⟩

theorem address_station {m : Nat} {s' : Station} (hs' : (n.step op).1.stations[m]? = some s') :
    ∃ s, n.stations[m]? = some s ∧ s.address = s'.address := by
  rcases n.step_station op m with ⟨o, -, hs⟩ | ⟨-, hs⟩
  · rw [hs'] at hs
    obtain ⟨s, hn, rfl⟩ := Option.map_eq_some_iff.1 hs.symm
    exact ⟨s, hn, (s.address_step o).symm⟩
  · exact ⟨s', hs ▸ hs', rfl⟩

theorem Joins.step (h : n.Joins i j k) (op : Op) : (n.step op).1.Joins i j k := by
  refine ⟨h.tidy.step op, fun m s' hs' ha => ?_, fun m s' hs' ha => ?_, h.hosts, h.apart⟩
  · obtain ⟨s, hs, he⟩ := address_station hs'
    exact h.near m s hs (he.trans ha)
  · obtain ⟨s, hs, he⟩ := address_station hs'
    exact h.far m s hs (he.trans ha)

inductive EventOf (n : Network) (op : Op) (i j : Nat) : Link.Event → Prop
  | near {o s} : n.Acts op i o → n.stations[i]? = some s → EventOf n op i j (.near o (s.step o).2)
  | far {o s} : n.Acts op j o → n.stations[j]? = some s → EventOf n op i j (.far o (s.step o).2)
  | none : (∀ o, n.Acts op i o → n.stations[i]? = none) →
      (∀ o, n.Acts op j o → n.stations[j]? = none) → EventOf n op i j .none

theorem EventOf.swap {ev : Link.Event} (h : n.EventOf op i j ev) : n.EventOf op j i ev.swap := by
  cases h with
  | near ha hs => exact .far ha hs
  | far ha hs => exact .near ha hs
  | none hi hj => exact .none hj hi

theorem sending_of_outgoing {h : Host} (hf : h.Filed) {x : Segment} (hx : x ∈ h.outbox.outgoing) :
    (h.side x.senderPair).sending x := by
  rcases Outbox.mem_outgoing hf.outbox hx with hx | hx | hx
  · exact .inl (List.mem_filter.2 ⟨hx, by simp⟩)
  · exact .inr (.inl (List.mem_filter.2 ⟨hx, by simp⟩))
  · exact .inr (.inr hx)

theorem Joins.out_step (h : n.Joins i j k) {x : Segment} (hx : (n.step op).1.Carries x)
    (hk : x.senderPair = k) : n.Carries x ∨ n.Acts op i .poll ∧ (n.side i k).sending x := by
  rcases carries_step hx with hx | ⟨m, s, ha, hs, hx⟩
  · exact .inl hx
  · have hsend := sending_of_outgoing (h.tidy.filed m s hs) hx
    rw [hk] at hsend
    by_cases hm : s.address = k.near.host
    · obtain rfl := h.near m s hs hm
      exact .inr ⟨ha, by rwa [side, hs]⟩
    · rw [h.tidy.home m s hs k (Ne.symm hm)] at hsend
      exact absurd hsend (Side.not_sending_blank x)

theorem side_of_some {s : Station} (h : n.stations[i]? = some s) : n.side i k = s.host.side k := by
  rw [side, h]
  rfl

theorem Tidy.side_sound (h : n.Tidy) (i : Nat) (k : SocketPair) : (n.side i k).Sound := by
  cases hs : n.stations[i]? with
  | none =>
    rw [side, hs]
    exact .blank
  | some s =>
    rw [side_of_some hs]
    exact h.sound i s hs k

theorem Acts.step_station {s : Station} (h : n.Acts op i o) (hs : n.stations[i]? = some s) :
    (n.step op).1.stations[i]? = some (s.step o).1 := by
  rcases n.step_station op i with ⟨o', h', hs'⟩ | ⟨hn, -⟩
  · have : o = o' := by cases h <;> cases h' <;> simp_all
    rw [hs', hs, this]
    rfl
  · exact absurd h (hn o)

theorem Joins.link_step_near (h : n.Joins i j k) {s : Station} (ha : n.Acts op i o)
    (hs : n.stations[i]? = some s) :
    Link.Step k (.near o (s.step o).2) (n.link i j k) ((n.step op).1.link i j k) := by
  have hi := ha.step_station hs
  have hj : (n.step op).1.stations[j]? = n.stations[j]? := by
    rcases n.step_station op j with ⟨o', ha', -⟩ | ⟨-, hs'⟩
    · exact absurd (ha.unique ha') h.apart
    · exact hs'
  have hst := s.step_side (h.tidy.filed i s hs) o k
  rw [← side_of_some hs, ← side_of_some hi] at hst
  refine .near hst (by simp [link, side, hj]) ?_ ?_ ?_
  · rintro x hx rfl
    exact ⟨(ha.arrival hx).1, rfl⟩
  · rintro x ⟨hx, hk⟩
    exact (h.out_step hx hk).imp (⟨·, hk⟩) And.right
  · rintro x ⟨hx, hk⟩
    rcases h.swap.out_step hx hk with hx | ⟨ha', -⟩
    · exact ⟨hx, hk⟩
    · exact absurd (ha.unique ha') h.apart

theorem Joins.link_step (h : n.Joins i j k) (op : Op) :
    ∃ ev, n.EventOf op i j ev ∧ Link.Step k ev (n.link i j k) ((n.step op).1.link i j k) := by
  by_cases hi : ∃ o s, n.Acts op i o ∧ n.stations[i]? = some s
  · obtain ⟨o, s, ha, hs⟩ := hi
    exact ⟨_, .near ha hs, h.link_step_near ha hs⟩
  by_cases hj : ∃ o s, n.Acts op j o ∧ n.stations[j]? = some s
  · obtain ⟨o, s, ha, hs⟩ := hj
    exact ⟨_, .far ha hs, (h.swap.link_step_near ha hs).swap⟩
  -- Neither end acts, so nothing of the connection is put on the wire.
  have idle {m : Nat} (hm : ¬∃ o s, n.Acts op m o ∧ n.stations[m]? = some s) :
      (∀ o, n.Acts op m o → n.stations[m]? = none) ∧
        (n.step op).1.stations[m]? = n.stations[m]? := by
    have hn : ∀ o, n.Acts op m o → n.stations[m]? = none := fun o ha =>
      Option.eq_none_iff_forall_ne_some.2 fun s hs => hm ⟨o, s, ha, hs⟩
    refine ⟨hn, ?_⟩
    rcases n.step_station op m with ⟨o, ha, hs⟩ | ⟨-, hs⟩
    · rw [hs, hn o ha]
      rfl
    · exact hs
  refine ⟨_, .none (idle hi).1 (idle hj).1, .none ?_ ?_ ?_ ?_⟩
  · simp [link, side, (idle hi).2]
  · simp [link, side, (idle hj).2]
  · rintro x ⟨hx, hk⟩
    rcases h.out_step hx hk with hx | ⟨ha, hsend⟩
    · exact ⟨hx, hk⟩
    · rw [side, (idle hi).1 _ ha] at hsend
      exact absurd hsend (Side.not_sending_blank x)
  · rintro x ⟨hx, hk⟩
    rcases h.swap.out_step hx hk with hx | ⟨ha, hsend⟩
    · exact ⟨hx, hk⟩
    · rw [side, (idle hj).1 _ ha] at hsend
      exact absurd hsend (Side.not_sending_blank x)

theorem Joins.near_acts (h : n.Joins i j k) (op : Op) :
    (n.step op).1.side i k = n.side i k ∨ ∃ o r, n.EventOf op i j (.near o r) ∧
      Link.Step k (.near o r) (n.link i j k) ((n.step op).1.link i j k) := by
  obtain ⟨ev, hev, hst⟩ := h.link_step op
  cases ev with
  | near o r => exact .inr ⟨o, r, hev, hst⟩
  | far =>
    cases hst with
    | far _ hsame => exact .inl hsame
  | none =>
    cases hst with
    | none hsame => exact .inl hsame

theorem Joins.far_acts (h : n.Joins i j k) (op : Op) :
    (n.step op).1.side j k.swap = n.side j k.swap ∨ ∃ o r, n.EventOf op i j (.far o r) ∧
      Link.Step k (.far o r) (n.link i j k) ((n.step op).1.link i j k) := by
  obtain ⟨ev, hev, hst⟩ := h.link_step op
  cases ev with
  | far o r => exact .inr ⟨o, r, hev, hst⟩
  | near =>
    cases hst with
    | near _ hsame => exact .inl hsame
  | none =>
    cases hst with
    | none _ hsame => exact .inl hsame

end Network

end ReliableStream
