import ReliableStream.LossyHub
import ReliableStream.Proofs.Switching

namespace ReliableStream

theorem Draw.below_one (d : Draw) : d.below .one := by
  have hone : Binary64.magnitude Probability.one.value.toBits = ⟨1 <<< 52, 1022⟩ := by decide
  have hshift : ∀ n, d.val <<< n < (1 <<< 53) <<< n := by
    intro n
    rw [Nat.shiftLeft_eq, Nat.shiftLeft_eq _ n]
    exact Nat.mul_lt_mul_of_pos_right d.isLt (Nat.two_pow_pos n)
  simp only [below, hone, decide_eq_true_eq]
  calc d.val <<< 1021
    _ < (1 <<< 53) <<< 1021 := hshift 1021
    _ = (1 <<< 52) <<< 1022 := by rw [← Nat.shiftLeft_add, ← Nat.shiftLeft_add]

theorem Draw.below_zero (d : Draw) : d.below .zero = false := by
  have hzero : Binary64.magnitude Probability.zero.value.toBits = ⟨0, 0⟩ := by decide
  simp [below, hzero]

namespace Hub

variable {h h' : Hub}

/-- The link does not refuse the frame. -/
def owns (h : Hub) (s : LinkId × Frame) : Bool := h.host? s.1 = some s.2.src

/-- What is queued for a link if the frames of these sends go into the hub. -/
def share (h : Hub) (link : LinkId) (sends : List (LinkId × Frame)) : List (List UInt8) :=
  (sends.filter fun s => h.serves link s.2.dest).map fun s => s.2.toBytes

theorem SameLinks.owns (hs : h.SameLinks h') : h'.owns = h.owns := by
  funext s
  rw [Hub.owns, Hub.owns, hs.host?]

theorem SameLinks.share (hs : h.SameLinks h') (link : LinkId) (sends : List (LinkId × Frame)) :
    h'.share link sends = h.share link sends := by
  simp only [Hub.share, hs.serves]

theorem queue_putAll (h : Hub) (link : LinkId) (sends : List (LinkId × Frame)) :
    (LossyHub.putAll h (sends.map Prod.snd)).queue link = h.queue link ++ h.share link sends := by
  induction sends generalizing h with
  | nil => exact (List.append_nil _).symm
  | cons s rest ih =>
    calc (LossyHub.putAll h ((s :: rest).map Prod.snd)).queue link
      _ = (h.put s.2).queue link ++ (h.put s.2).share link rest := ih (h.put s.2)
      _ = h.queue link ++ h.share link (s :: rest) := by
        rw [(SameLinks.put h s.2).share, queue_put]
        cases hs : h.serves link s.2.dest <;> simp [share, hs]

theorem share_owns (h : Hub) (link : LinkId) (sends : List (LinkId × Frame)) :
    h.share link (sends.filter h.owns) = h.share link sends ↔
      ∀ s ∈ sends, h.serves link s.2.dest → h.owns s := by
  have hcomm : (sends.filter h.owns).filter (fun s => h.serves link s.2.dest) =
      (sends.filter fun s => h.serves link s.2.dest).filter h.owns := by
    rw [List.filter_filter, List.filter_filter]
    exact List.filter_congr fun s _ => Bool.and_comm _ _
  rw [share, hcomm]
  constructor
  · intro heq s hs hserves
    have hlength := congrArg List.length heq
    rw [share, List.length_map, List.length_map] at hlength
    exact List.length_filter_eq_length_iff.1 hlength s (List.mem_filter.2 ⟨hs, hserves⟩)
  · intro hall
    rw [List.filter_eq_self.2 fun s hs =>
      hall s (List.mem_filter.1 hs).1 (List.mem_filter.1 hs).2, share]

end Hub

namespace LossyHub

variable {l : LossyHub} {link : LinkId} {host : HostId} {f : Frame} {sends : List (LinkId × Frame)}

def sendAll (l : LossyHub) (draws : Nat → Draw × Draw) :
    List (LinkId × Frame) → LossyHub × List (Except LinkFault Unit)
  | [] => (l, [])
  | (link, f) :: rest =>
    let (l, result) := l.send link f (draws 0).1 (draws 0).2
    let (l, results) := l.sendAll (fun n => draws (n + 1)) rest
    (l, result :: results)

theorem send_passing (ho : l.odds.pass = .one) (hd : l.delayed = [])
    (hl : l.hub.host? link = some host) (first second : Draw) :
    l.send link f first second =
      if l.hub.owns (link, f) then ({ l with hub := l.hub.put f }, .ok ())
      else (l, .error .foreignSource) := by
  have hfate : l.odds.fate first second = .pass := by
    rw [Odds.fate, ho, if_pos first.below_one]
  rw [send, hfate, sendWith]
  by_cases hsrc : f.src = host
  · subst hsrc
    rw [Hub.send_own hl]
    simp [Hub.owns, hl, flush, hd, putAll]
  · rw [Hub.send_foreign hl hsrc]
    simp [Hub.owns, hl, Ne.symm hsrc]

theorem send_holding (ho : l.odds = ⟨.zero, .one⟩) (first second : Draw) :
    l.send link f first second = ({ l with delayed := l.delayed ++ [f] }, .ok ()) := by
  have hfate : l.odds.fate first second = .hold := by
    rw [Odds.fate, ho, first.below_zero, second.below_one]
    rfl
  rw [send, hfate]
  rfl

theorem sendAll_passing (draws : Nat → Draw × Draw) (ho : l.odds.pass = .one)
    (hd : l.delayed = []) (hl : ∀ s ∈ sends, ∃ host, l.hub.host? s.1 = some host) :
    l.sendAll draws sends =
      ({ l with hub := putAll l.hub ((sends.filter l.hub.owns).map Prod.snd) },
        sends.map fun s => if l.hub.owns s then .ok () else .error .foreignSource) := by
  induction sends generalizing l draws with
  | nil => rfl
  | cons s rest ih =>
    obtain ⟨link, f⟩ := s
    obtain ⟨⟨host, hhost⟩, hrest⟩ := List.forall_mem_cons.1 hl
    rw [sendAll, send_passing ho hd hhost]
    have hput := Hub.SameLinks.put l.hub f
    cases hs : l.hub.owns (link, f) with
    | true =>
      have htail := ih (l := { l with hub := l.hub.put f }) (fun n => draws (n + 1)) ho hd
        fun s hs => by simpa only [hput.host?] using hrest s hs
      simp [htail, hput.owns, hs, putAll]
    | false => simp [ih (fun n => draws (n + 1)) ho hd hrest, hs]

theorem sendAll_holding (draws : Nat → Draw × Draw) (ho : l.odds = ⟨.zero, .one⟩)
    (sends : List (LinkId × Frame)) :
    l.sendAll draws sends =
      ({ l with delayed := l.delayed ++ sends.map Prod.snd }, sends.map fun _ => .ok ()) := by
  induction sends generalizing l draws with
  | nil => simp [sendAll]
  | cons s rest ih =>
    rw [sendAll, send_holding ho]
    simp [ih (l := { l with delayed := l.delayed ++ [s.2] }) (fun n => draws (n + 1)) ho]

structure Heals (hub : Hub) (sends : List (LinkId × Frame))
    (passing held : LossyHub × List (Except LinkFault Unit)) : Prop where
  passing_results : passing.2 =
    sends.map fun s => if hub.owns s then .ok () else .error .foreignSource
  held_results : held.2 = sends.map fun _ => .ok ()
  passing_queue : ∀ link,
    passing.1.hub.queue link = hub.queue link ++ hub.share link (sends.filter hub.owns)
  held_queue : ∀ link, held.1.flush.hub.queue link = hub.queue link ++ hub.share link sends
  held_none : held.1.flush.delayed = []
  same_results_iff : passing.2 = held.2 ↔ ∀ s ∈ sends, hub.owns s
  same_queue_iff : ∀ link, passing.1.hub.queue link = held.1.flush.hub.queue link ↔
    ∀ s ∈ sends, hub.serves link s.2.dest → hub.owns s

/-- A hub on which a partition has healed differs from one without partition by the foreign frames:
these are not refused but delivered. -/
theorem heals_but_foreign (hub : Hub) (p : Probability) (passing held : Nat → Draw × Draw)
    (hl : ∀ s ∈ sends, ∃ host, hub.host? s.1 = some host) :
    Heals hub sends (sendAll { hub, odds := ⟨.one, p⟩ } passing sends)
      (sendAll { hub, odds := ⟨.zero, .one⟩ } held sends) := by
  rw [sendAll_passing passing rfl rfl hl, sendAll_holding held rfl]
  have hpassing := fun link => Hub.queue_putAll hub link (sends.filter hub.owns)
  have hheld := fun link => Hub.queue_putAll hub link sends
  refine ⟨rfl, rfl, hpassing, hheld, rfl, ?_, fun link => ?_⟩
  · rw [List.map_inj_left]
    apply forall₂_congr
    intro s _
    cases hub.owns s <;> simp
  · rw [← hub.share_owns link sends]
    exact (Eq.congr (hpassing link) (hheld link)).trans (List.append_right_inj _)

def letters : List (LinkId × Frame) :=
  [(0, ⟨2, 1, [0x41], by decide⟩), (0, ⟨2, 3, [0x42], by decide⟩), (1, ⟨1, 2, [0x43], by decide⟩)]

theorem heals_but_foreign_letters :
    let hub := ({} : Hub).run [.attach 1, .attach 2]
    let held : LossyHub := { hub, odds := ⟨.zero, .one⟩ }
    (∀ s ∈ letters, ∃ host, hub.host? s.1 = some host) ∧
      Heals hub letters (sendAll { hub, odds := ⟨.one, .zero⟩ } (fun _ => (0, 0)) letters)
        (held.sendAll (fun _ => (0, 0)) letters) ∧
      (held.sendAll (fun _ => (0, 0)) letters).1.flush.hub.queue 1 =
        [[2, 1, 0, 1, 0x41], [2, 3, 0, 1, 0x42]] := by
  intro hub held
  have hl : ∀ s ∈ letters, ∃ host, hub.host? s.1 = some host := by
    intro s hs
    simp only [letters, List.mem_cons, List.not_mem_nil, or_false] at hs
    rcases hs with rfl | rfl | rfl <;> exact ⟨_, rfl⟩
  exact ⟨hl, heals_but_foreign hub .zero _ _ hl, by decide +kernel⟩

theorem foreign_frame_delivered :
    let hub := ({} : Hub).run [.attach 1, .attach 2]
    let sends : List (LinkId × Frame) := [(0, ⟨2, 3, [0x61], by decide⟩)]
    let passing := sendAll { hub, odds := ⟨.one, .zero⟩ } (fun _ => (0, 0)) sends
    let held := sendAll { hub, odds := ⟨.zero, .one⟩ } (fun _ => (0, 0)) sends
    passing.2 = [.error .foreignSource] ∧ held.2 = [.ok ()] ∧ passing.1.hub.queue 1 = [] ∧
      held.1.flush.hub.queue 1 = [[2, 3, 0, 1, 0x61]] := by
  decide +kernel

end LossyHub

end ReliableStream
