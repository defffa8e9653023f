import Mathlib.Data.List.Induction
import ReliableStream.Proofs.SendState
import ReliableStream.Proofs.Waiters

namespace ReliableStream

theorem Side.Step.waiter_or_gone {cfg : Settings} {k : SocketPair} {op : Station.Op}
    {r : Station.Reply} {e e' : Side} (h : Step cfg k op r e e') (he : e.Tended)
    (ha : op.arrival? = none)
    (hd : ∀ farHost farPort, op ≠ .call (.connect farHost farPort)) :
    e'.conn.waiter = e.conn.waiter ∨ e'.entry = none := by
  cases hs : op.settles with
  | false => exact .inl (h.waiter he ha hs hd)
  | true =>
    cases h with
    | apart => exact .inl rfl
    | forgot => exact .inr rfl
    | heard hop =>
      rw [ha] at hop
      cases hop
    | polled hop => rcases hop with rfl | rfl <;> cases hs
    | _ => cases hs

namespace Station

variable {s : Station} {op : Op} {ops : List Op} {d : Dial} {k : SocketPair}

theorem Ticketed.waits_before (h : s.Ticketed)
    (hdial : ∀ farHost farPort, op ≠ .call (.connect farHost farPort)) :
    (s.step op).1.host.Tickets ∧ ∀ t k, (s.step op).1.host.Waits t k → s.host.Waits t k := by
  cases harrival : op.arrival? with
  | some x =>
    have htells : s.host.Tells (s.step op).1.host := by
      rw [s.host_of_arrival harrival]
      exact s.host.tells_receive h.filed h.tended x
    refine ⟨h.tickets.tells (s.issued_step op) htells, fun t k hw => ?_⟩
    cases htells with
    | nobody _ hiff => exact (hiff t k).1 hw
    | somebody _ _ _ hiff => exact ((hiff t k).1 hw).1
  | none =>
    have hbefore (t : Ticket) (k : SocketPair) (hw : (s.step op).1.host.Waits t k) :
        s.host.Waits t k := by
      rcases (s.step_side h.filed op k).waiter_or_gone (h.tended k) harrival hdial with hsame | hgone
      · exact (Host.waits_congr hsame).1 hw
      · exact absurd hgone hw.get?_ne_none
    exact ⟨h.tickets.mono (s.issued_step op) (collects_step harrival).subset hbefore, hbefore⟩

theorem Ticketed.step (h : s.Ticketed) (op : Op) : (s.step op).1.Ticketed := by
  rcases op.connect_or with ⟨farHost, farPort, rfl⟩ | hdial
  · exact h.connect farHost farPort
  · obtain ⟨htickets, hbefore⟩ := h.waits_before hdial
    have hsub := s.dials_step hdial
    constructor
    case filed => exact (s.step_steady op).filed h.filed
    case tended => exact fun k => (s.step_side h.filed op k).tended (h.tended k)
    case tickets => exact htickets
    case given =>
      exact fun d hd => Nat.lt_of_lt_of_le (h.given d (hsub.subset hd)) (s.issued_step op)
    case distinct => exact h.distinct.sublist hsub
    case aimed => exact fun d hd k hw => h.aimed d (hsub.subset hd) k (hbefore _ _ hw)

theorem Ticketed.run (h : s.Ticketed) (ops : List Op) : (s.run ops).Ticketed := by
  induction ops generalizing s with
  | nil => exact h
  | cons op rest ih => exact ih (h.step op)

theorem Ticketed.waits_after (h : s.Ticketed) (op : Op) (hw : s.host.Waits d.ticket d.pair) :
    (s.step op).1.host.Waits d.ticket d.pair ∨
      (s.step op).1.host.answers.lookup d.ticket = some .opened ∨
      (s.step op).1.host.table.get? d.pair = none := by
  rcases op.connect_or with ⟨farHost, farPort, rfl⟩ | hdial
  · rcases connect_waits h.filed farHost farPort with ⟨f, hs⟩ | ⟨k, hc, -, -, -, hother⟩
    · have hstep : (s.step (.call (.connect farHost farPort))).1 = s := congrArg Prod.fst hs
      rw [hstep]
      exact .inl hw
    · have hkd : k ≠ d.pair := fun he => hw.get?_ne_none (he ▸ hc)
      exact .inl ((hother _ _ hkd).2 hw)
  · cases harrival : op.arrival? with
    | some x =>
      have hnone := (h.tickets.waiting _ _ hw).2
      rw [s.host_of_arrival harrival]
      cases h.tickets.tracks (.waiting hw) (by simp [hnone])
        (s.host.tells_receive h.filed h.tended x) with
      | waiting hw' => exact .inl hw'
      | opened hl => exact .inr (.inl hl)
      | collided _ hn => exact .inr (.inr hn)
    | none =>
      rcases (s.step_side h.filed op d.pair).waiter_or_gone (h.tended d.pair) harrival hdial with
        hsame | hgone
      · exact .inl ((Host.waits_congr hsame).2 hw)
      · exact .inr (.inr hgone)

theorem Ticketed.waits_new (h : s.Ticketed) (hd : d ∉ s.dials) (hd' : d ∈ (s.step op).1.dials) :
    (s.step op).1.host.Waits d.ticket d.pair := by
  rcases op.connect_or with ⟨farHost, farPort, rfl⟩ | hdial
  · rcases connect_waits h.filed farHost farPort with ⟨f, hs⟩ | ⟨k, -, hdials, -, hself, -⟩
    · have hstep : (s.step (.call (.connect farHost farPort))).1 = s := congrArg Prod.fst hs
      rw [hstep] at hd'
      exact absurd hd' hd
    · have hnew : d = ⟨s.host.issued, k⟩ := by
        have hmem : d ∈ (s.connect farHost farPort).1.dials := hd'
        rw [hdials] at hmem
        exact List.mem_singleton.1 ((List.mem_append.1 hmem).resolve_left hd)
      rw [hnew]
      exact (hself _).2 rfl
  · exact absurd ((s.dials_step hdial).subset hd') hd

/-- While the call of the dial had not ended yet, its connection had no entry, and an operation
opened it anew. Its entry has been there ever since. -/
def Reopened (s : Station) (ops : List Op) (d : Dial) : Prop :=
  ∃ before op after, ops = before ++ op :: after ∧ d ∈ (s.run before).dials ∧
    (s.run before).host.table.get? d.pair = none ∧
    Side.Opens d.pair op ((s.run before).step op).2 ∧
    ∀ l, l <+: after → (s.run (before ++ op :: l)).host.table.get? d.pair ≠ none

theorem run_concat (s : Station) (ops : List Op) (op : Op) :
    s.run (ops ++ [op]) = ((s.run ops).step op).1 := s.run_append ops [op]

theorem Reopened.concat (h : s.Reopened ops d)
    (hn : (s.run (ops ++ [op])).host.table.get? d.pair ≠ none) : s.Reopened (ops ++ [op]) d := by
  obtain ⟨before, first, after, rfl, hd, hgone, hopens, hsince⟩ := h
  refine ⟨before, first, after ++ [op], by simp, hd, hgone, hopens, fun l hl => ?_⟩
  rcases List.prefix_concat_iff.1 hl with rfl | hl
  · simpa using hn
  · exact hsince l hl

inductive Stands (s : Station) (ops : List Op) (d : Dial) : Prop
  | waiting : (s.run ops).host.Waits d.ticket d.pair → Stands s ops d
  | opened : (s.run ops).host.answers.lookup d.ticket = some .opened → Stands s ops d
  | gone : (s.run ops).host.table.get? d.pair = none → Stands s ops d
  | reopened : s.Reopened ops d → Stands s ops d

theorem Stands.step (h : s.Stands ops d) (hs : (s.run ops).Ticketed) (hd : d ∈ (s.run ops).dials)
    (hd' : d ∈ (s.run (ops ++ [op])).dials) : s.Stands (ops ++ [op]) d := by
  by_cases hn : (s.run (ops ++ [op])).host.table.get? d.pair = none
  · exact .gone hn
  cases h with
  | waiting hw =>
    have hafter := hs.waits_after op hw
    rw [← run_concat] at hafter
    rcases hafter with hw | hl | hgone
    · exact .waiting hw
    · exact .opened hl
    · exact absurd hgone hn
  | opened hl =>
    rw [run_concat] at hd'
    refine .opened ?_
    rw [run_concat]
    exact lookup_kept hs.filed hs.tended hd' hl
  | gone hgone =>
    have hopens := ((s.run ops).step_side hs.filed op d.pair).enters hgone (by rwa [← run_concat])
    refine .reopened ⟨ops, op, [], rfl, hd, hgone, hopens, fun l hl => ?_⟩
    rwa [List.prefix_nil.1 hl]
  | reopened hr => exact .reopened (hr.concat hn)

theorem Ticketed.stands (h : s.Ticketed) (hnone : s.dials = []) (ops : List Op) :
    ∀ d ∈ (s.run ops).dials, s.Stands ops d := by
  induction ops using List.reverseRecOn with
  | nil =>
    intro d hd
    rw [show (s.run []).dials = [] from hnone] at hd
    cases hd
  | append_singleton ops op ih =>
    intro d hd'
    by_cases hd : d ∈ (s.run ops).dials
    · exact (ih d hd).step (h.run ops) hd hd'
    · rw [run_concat] at hd'
      refine .waiting ?_
      rw [run_concat]
      exact (h.run ops).waits_new hd hd'

def Failed (s : Station) (d : Dial) : Prop :=
  s.host.handshake d.ticket ≠ .waiting ∧ s.host.handshake d.ticket ≠ .answered .opened

instance (s : Station) (d : Dial) : Decidable (s.Failed d) := inferInstanceAs (Decidable (_ ∧ _))

theorem Failed.settle (h : s.Failed d) :
    ∃ f, s.settle d = ((s.cancel d.ticket).cleanUp d.pair, some ⟨d.ticket, .error f⟩) := by
  unfold Station.settle
  split
  · rename_i hh
    exact absurd hh h.1
  · rename_i hh
    exact absurd hh h.2
  · exact ⟨_, rfl⟩
  · exact ⟨_, rfl⟩

theorem Ticketed.find_dial (h : s.Ticketed) (hd : d ∈ s.dials) :
    (s.dials.find? fun d' => d'.ticket = d.ticket) = some d := by
  cases hfind : s.dials.find? fun d' => d'.ticket = d.ticket with
  | none => simpa using List.find?_eq_none.1 hfind d hd
  | some d' =>
    have hticket : d'.ticket = d.ticket := by simpa using List.find?_some hfind
    rw [h.eq_of_ticket (List.mem_of_find?_eq_some hfind) hd hticket]

theorem cleanUp_gone (hs : (s.host.side k).Sound) (hn : s.host.table.get? k = none) :
    (s.cleanUp k).host = s.host := by
  obtain ⟨hwindow, hresends⟩ := hs.shut (.inl (Side.phase_of_none hn))
  have htable : s.host.table.remove k = s.host.table := by
    rw [Table.remove, SortedMap.erase_of_not_mem (SortedMap.not_mem_keys hn)]
  rw [cleanUp, htable, s.host.outbox.release_of_none hwindow hresends]

theorem Reopened.of_stands (h : s.Stands ops d) (hs : (s.run ops).Ticketed)
    (hf : (s.run ops).Failed d) (hn : (s.run ops).host.table.get? d.pair ≠ none) :
    s.Reopened ops d := by
  cases h with
  | waiting hw =>
    exact absurd (Host.handshake_of_waits (hs.tickets.waiting _ _ hw).2 hw) hf.1
  | opened hl => exact absurd (Host.handshake_of_lookup hl) hf.2
  | gone hgone => exact absurd hgone hn
  | reopened hr => exact hr

theorem Ticketed.own_entry (h : s.Ticketed) (hd : d ∈ s.dials)
    (hw : s.host.handshake d.ticket = .waiting) :
    ∃ c, s.host.table.get? d.pair = some c ∧ c.waiter = some d.ticket := by
  unfold Host.handshake at hw
  split at hw
  · cases hw
  split at hw
  · rename_i hany
    obtain ⟨c, hc, hticket⟩ := List.any_eq_true.1 hany
    obtain ⟨k, hk⟩ := SortedMap.mem_values_iff.1 hc
    have hticket : c.waiter = some d.ticket := by simpa using hticket
    have hwaits : s.host.Waits d.ticket k := by
      rw [Host.Waits, Side.conn_of_entry hk]
      exact hticket
    exact ⟨c, h.aimed d hd k hwaits ▸ hk, hticket⟩
  · cases hw

/-- What the end of the call does after a run. If its time is up while it waits, the entry that goes
is its own. If it has failed, the entry that goes is one that has been opened anew in the meantime,
and without such an entry nothing changes. -/
structure CleansUp (s : Station) (ops : List Op) (d : Dial) : Prop where
  expires : (s.run ops).host.handshake d.ticket = .waiting →
    ∃ c, (s.run ops).host.table.get? d.pair = some c ∧ c.waiter = some d.ticket
  fails : (s.run ops).Failed d →
    ∃ f, ((s.run ops).step (.call (.resume d.ticket))).2 = .ended [⟨d.ticket, .error f⟩]
  spares : (s.run ops).Failed d → (s.run ops).host.table.get? d.pair = none →
    ((s.run ops).step (.call (.resume d.ticket))).1.host.table = (s.run ops).host.table ∧
      ((s.run ops).step (.call (.resume d.ticket))).1.host.outbox = (s.run ops).host.outbox
  takes : (s.run ops).Failed d → (s.run ops).host.table.get? d.pair ≠ none → s.Reopened ops d ∧
    ((s.run ops).step (.call (.resume d.ticket))).1.host.table.get? d.pair = none ∧
    ((s.run ops).step (.call (.resume d.ticket))).1.host.outbox.windows.get? d.pair = none
  others : ∀ op ∈ [.call (.resume d.ticket), .expire d.ticket], ∀ k, k ≠ d.pair →
    ((s.run ops).step op).1.host.side k = (s.run ops).host.side k
  prompt : s.cleanly ops = true → (s.run ops).Failed d →
    (s.run ops).host.table.get? d.pair = none

theorem settle_side_of_ne (hf : s.host.Filed) (hk : k ≠ d.pair) :
    (s.settle d).1.host.side k = s.host.side k := by
  unfold settle
  split
  · rfl
  · rfl
  · exact s.cleanUp_side_of_ne hf d.ticket hk.symm
  · exact s.cleanUp_side_of_ne hf d.ticket hk.symm

/-- In every run, the clean-up of a failed `connect` takes nothing away but what a later call or a
later SYN has made of its connection in the meantime. If every call cleans up at once, it takes
nothing. -/
theorem clean_up_takes_reopened (address : HostId) (recvWindow sendWindow patience : Nat)
    (ops : List Op) (d : Dial)
    (hd : d ∈ ((fresh address recvWindow sendWindow patience).run ops).dials) :
    (fresh address recvWindow sendWindow patience).CleansUp ops d := by
  have hattended := attended_fresh address recvWindow sendWindow patience
  have hstands := hattended.ticketed.stands rfl ops d hd
  have hticketed := hattended.ticketed.run ops
  have horderly := (orderly_fresh address recvWindow sendWindow patience).run ops
  have hprompt (hops : (fresh address recvWindow sendWindow patience).cleanly ops = true) :=
    (hattended.run hops).dials d hd
  generalize fresh address recvWindow sendWindow patience = s at *
  have hresume : (s.run ops).step (.call (.resume d.ticket)) =
      (((s.run ops).settle d).1, .ended ((s.run ops).settle d).2.toList) := by
    rw [step_resume, hticketed.find_dial hd]
  have hexpire : (s.run ops).step (.expire d.ticket) =
      (((s.run ops).cancel d.ticket).cleanUp d.pair, .none) := by
    simp only [step, expire, hticketed.find_dial hd]
  constructor
  case expires => exact hticketed.own_entry hd
  case fails =>
    intro hf
    obtain ⟨f, hsettle⟩ := hf.settle
    rw [hresume, hsettle]
    exact ⟨f, rfl⟩
  case spares =>
    intro hf hn
    obtain ⟨f, hsettle⟩ := hf.settle
    have hgone := cleanUp_gone (s := (s.run ops).cancel d.ticket) (horderly.sound d.pair) hn
    rw [hresume, hsettle, hgone]
    exact ⟨rfl, rfl⟩
  case takes =>
    intro hf hn
    obtain ⟨f, hsettle⟩ := hf.settle
    rw [hresume, hsettle]
    exact ⟨.of_stands hstands hticketed hf hn, Table.get?_remove_self _ _,
      Outbox.windows_release_self _ _⟩
  case others =>
    intro op hop k hk
    rcases List.mem_pair.1 hop with rfl | rfl
    · rw [hresume]
      exact settle_side_of_ne hticketed.filed hk
    · rw [hexpire]
      exact (s.run ops).cleanUp_side_of_ne hticketed.filed d.ticket hk.symm
  case prompt =>
    intro hops hf
    cases hprompt hops with
    | waiting hw =>
      exact absurd (Host.handshake_of_waits (hticketed.tickets.waiting _ _ hw).2 hw) hf.1
    | opened hl => exact absurd (Host.handshake_of_lookup hl) hf.2
    | collided _ hn => exact hn

def redialled : List Op :=
  [.call (.connect 2 7), .receive (.control ⟨⟨1, 0⟩, ⟨2, 7⟩⟩ .syn), .call (.connect 2 7)]

theorem clean_up_takes_reopened_redialled :
    ⟨0, ⟨⟨2, 7⟩, ⟨1, 0⟩⟩⟩ ∈ ((fresh 1 4 4 4).run redialled).dials ∧
      (fresh 1 4 4 4).CleansUp redialled ⟨0, ⟨⟨2, 7⟩, ⟨1, 0⟩⟩⟩ ∧
      (fresh 1 4 4 4).Reopened redialled ⟨0, ⟨⟨2, 7⟩, ⟨1, 0⟩⟩⟩ := by
  have hd : ⟨0, ⟨⟨2, 7⟩, ⟨1, 0⟩⟩⟩ ∈ ((fresh 1 4 4 4).run redialled).dials := by decide +kernel
  have hf : ((fresh 1 4 4 4).run redialled).Failed ⟨0, ⟨⟨2, 7⟩, ⟨1, 0⟩⟩⟩ := by decide +kernel
  have hn : ((fresh 1 4 4 4).run redialled).host.table.get? ⟨⟨2, 7⟩, ⟨1, 0⟩⟩ ≠ none := by
    decide +kernel
  have hclean := clean_up_takes_reopened 1 4 4 4 redialled ⟨0, ⟨⟨2, 7⟩, ⟨1, 0⟩⟩⟩ hd
  exact ⟨hd, hclean, (hclean.takes hf hn).1⟩

def called : List Op :=
  [.call (.connect 2 7), .receive (.control ⟨⟨1, 0⟩, ⟨2, 7⟩⟩ .syn),
    .receive (.control ⟨⟨1, 0⟩, ⟨2, 7⟩⟩ .syn)]

theorem clean_up_takes_later :
    (((fresh 1 4 4 4).run called).host.table.phase ⟨⟨2, 7⟩, ⟨1, 0⟩⟩ = .synReceived ∧
      (((fresh 1 4 4 4).run (called ++ [.call (.resume 0)])).host.table.get? ⟨⟨2, 7⟩, ⟨1, 0⟩⟩ =
        none) ∧
      (((fresh 1 4 4 4).run (called ++ [.call (.resume 0)])).accept 0).2.toOption = some none) ∧
    ((((fresh 1 4 4 4).run redialled).host.table.get ⟨⟨2, 7⟩, ⟨1, 0⟩⟩).waiter = some 1 ∧
      ((fresh 1 4 4 4).run redialled).host.outbox.pending ⟨⟨2, 7⟩, ⟨1, 0⟩⟩ = 1 ∧
      ((fresh 1 4 4 4).run (redialled ++ [.call (.resume 0)])).host.table.get? ⟨⟨2, 7⟩, ⟨1, 0⟩⟩ =
        none ∧
      ((fresh 1 4 4 4).run (redialled ++ [.call (.resume 0)])).host.outbox.windows.get?
        ⟨⟨2, 7⟩, ⟨1, 0⟩⟩ = none ∧
      ((fresh 1 4 4 4).run (redialled ++ [.call (.resume 0)])).host.handshake 1 = .dropped) := by
  decide +kernel

end Station

end ReliableStream
