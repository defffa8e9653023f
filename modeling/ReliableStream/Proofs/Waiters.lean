import Mathlib.Data.List.Nodup
import ReliableStream.Proofs.Callers
import ReliableStream.Proofs.Ledger
import ReliableStream.Proofs.Unread

namespace ReliableStream

def Answer.result (k : SocketPair) : Answer → Except Failure SocketPair
  | .opened => .ok k
  | .collided => .error .simultaneousOpen

namespace Side

variable {cfg : Settings} {room : Nat} {k : SocketPair} {op : Station.Op} {r : Station.Reply}
  {s : Segment} {kind : Kind} {e e' : Side}

def Awaited (e : Side) : Prop := e.phase = .synSent → e.conn.waiter.isSome = true

namespace Awaited

theorem of_phase (h : e.phase ≠ .synSent) : e.Awaited := fun hp => absurd hp h

theorem swept (h : e.Awaited) : e.swept.Awaited := by
  rw [Awaited, phase_swept, (swept_conn e).2]
  exact h

theorem congr (h : e.Awaited) (he : e'.entry = e.entry) : e'.Awaited := by
  rw [Awaited, conn_congr he, phase_congr he]
  exact h

end Awaited

theorem Hears.awaited (h : Hears room k s kind e e') (he : e.Awaited) : e'.Awaited := by
  cases h with
  | noted =>
    have hacked : (e.acked s.seq).Awaited := he.congr rfl
    exact hacked.swept
  | misplaced => exact he.swept
  | opened | drained | ended | collided | knocked | halted | crossed => exact .of_phase nofun
  | kept hc hp => exact .of_phase (by rcases hp with hp | hp <;> simp [hp])
  | discarded hc _ hp =>
    rcases hp with ⟨-, hp | hp⟩ | ⟨-, hp⟩ <;> exact .of_phase (by simp [hp])
  | greeted hc hp => exact .of_phase (by rcases hp with hp | hp <;> simp [hp])
  | repeated hc hp => exact .of_phase (by simp [hp])
  | finished => exact Awaited.swept (.of_phase nofun)
  | finishedAgain hc hp => exact Awaited.swept (.of_phase (by simp [hp]))
  | strange | strangeFin | stale | early | full => exact he.congr rfl

theorem Step.awaited (h : Step cfg k op r e e') (he : e.Awaited) : e'.Awaited := by
  cases h with
  | heard _ _ _ hh => exact hh.awaited he
  | dialled => exact fun _ => rfl
  | forgot | expired | accepted | closedDrained | closedBusy | closedStopped =>
    exact .of_phase nofun
  | tickedClosing hc hp => exact .of_phase (by simp [resent, phase, enter, hp])
  | read hc =>
    refine Awaited.swept ?_
    rw [Awaited, conn_of_entry hc, phase_of_entry hc] at he
    exact he
  | readRefused | writeRefused | closedIdle | tickedIdle => exact he.swept
  | wrote => exact he.congr (pushData_eq _ _).1
  | _ => exact he.congr rfl

theorem Hears.tells_opened {t : Ticket} (h : Hears room k s kind e e')
    (ht : (t, .opened) ∈ e.tells s kind) : e.conn.waiter = some t ∧ e'.phase = .established := by
  cases kind with
  | synAck =>
    rw [tells] at ht
    split at ht
    · rename_i hp
      obtain ⟨u, hu, heq⟩ := List.mem_map.1 ht
      cases heq
      exact ⟨Option.mem_toList.1 hu, h.synAck_synSent hp⟩
    · cases ht
  | syn =>
    rw [tells] at ht
    split at ht
    · simp at ht
    · cases ht
  | _ => cases ht

end Side

namespace Station

variable {s s' : Station} {op : Op} {d d' : Dial} {l : List Dial} {a : Answer} {ticket : Ticket}

def Waiting (s : Station) (d : Dial) : Prop := d ∈ s.dials ∧ s.host.answers.lookup d.ticket = none

def ending? (s : Station) (d : Dial) : Option Ending :=
  (s.host.answers.lookup d.ticket).map fun a => ⟨d.ticket, a.result d.pair⟩

def Op.resumes (d : Dial) : Op → Bool
  | .call .resumeAll => true
  | .call (.resume ticket) => ticket = d.ticket
  | _ => false

/-! ## Dials that are settled -/

theorem settle_answered (hl : s.host.answers.lookup d.ticket = some a) :
    (s.settle d).2 = some ⟨d.ticket, a.result d.pair⟩ ∧
      (s.settle d).1.dials = s.dials.filter (fun d' => d'.ticket ≠ d.ticket) ∧
      (s.settle d).1.host.answers = s.host.answers.filter fun x => x.1 ≠ d.ticket := by
  unfold settle
  rw [Host.handshake_of_lookup hl]
  cases a <;> exact ⟨rfl, rfl, rfl⟩

def Collects (s s' : Station) : Prop :=
  ∃ p : Ticket → Bool, s'.host.answers = (s.host.answers.filter fun x => p x.1) ∧
    ∀ d ∈ s'.dials, p d.ticket = true

namespace Collects

theorem of_eq (h : s'.host.answers = s.host.answers) : s.Collects s' :=
  ⟨fun _ => true, by rw [h, List.filter_true], fun _ _ => rfl⟩

theorem cancel (s : Station) (ticket : Ticket) : s.Collects (s.cancel ticket) :=
  ⟨fun t => t ≠ ticket, rfl, fun _ hd => (List.mem_filter.1 hd).2⟩

theorem settle (s : Station) (d : Dial) : s.Collects (s.settle d).1 := by
  unfold Station.settle
  split
  · exact .of_eq rfl
  · exact .cancel s d.ticket
  · exact .cancel s d.ticket
  · exact .cancel s d.ticket

theorem settleAll (s : Station) (l : List Dial) : s.Collects (s.settleAll l).1 := by
  induction l generalizing s with
  | nil => exact .of_eq rfl
  | cons d rest ih =>
    obtain ⟨p, hp, hdials⟩ := settle s d
    obtain ⟨q, hq, hrest⟩ := ih (s.settle d).1
    refine ⟨fun t => q t && p t, hq.trans ?_, fun d' hd' => ?_⟩
    · rw [hp, List.filter_filter]
    · have hd := ((s.settle d).1.dials_settleAll rest).subset hd'
      exact Bool.and_eq_true_iff.2 ⟨hrest d' hd', hdials d' hd⟩

theorem lookup (h : s.Collects s') (hd : d ∈ s'.dials) :
    s'.host.answers.lookup d.ticket = s.host.answers.lookup d.ticket := by
  obtain ⟨p, hp, hdials⟩ := h
  rw [hp, lookup_filter s.host.answers (hdials d hd)]

theorem subset (h : s.Collects s') : s'.host.answers ⊆ s.host.answers := by
  obtain ⟨p, hp, -⟩ := h
  exact hp ▸ List.filter_sublist.subset

end Collects

theorem Attended.waits (h : s.Attended) (hw : s.Waiting d) : s.host.Waits d.ticket d.pair := by
  cases h.dials d hw.1 with
  | waiting hd => exact hd
  | opened hl | collided hl => exact absurd (hw.2.symm.trans hl) nofun

theorem Attended.settle_waiting (h : s.Attended) (hw : s.Waiting d) : s.settle d = (s, none) := by
  rw [Station.settle, Host.handshake_of_waits hw.2 (h.waits hw)]

theorem Attended.settle_ending (h : s.Attended) (hd : d ∈ s.dials) :
    (s.settle d).2 = s.ending? d := by
  rw [ending?]
  cases hl : s.host.answers.lookup d.ticket with
  | none => rw [h.settle_waiting ⟨hd, hl⟩, Option.map_none]
  | some a => rw [(settle_answered hl).1, Option.map_some]

theorem Ticketed.nodup (h : s.Ticketed) : (s.dials.map Dial.ticket).Nodup :=
  List.pairwise_map.2 h.distinct

theorem Ticketed.eq_of_ticket (h : s.Ticketed) (hd : d ∈ s.dials) (hd' : d' ∈ s.dials)
    (ht : d.ticket = d'.ticket) : d = d' :=
  List.inj_on_of_nodup_map h.nodup hd hd' ht

theorem Attended.waiting_settle (h : s.Attended) (hd' : d' ∈ s.dials) (hw : s.Waiting d) :
    (s.settle d').1.Waiting d := by
  by_cases ht : d.ticket = d'.ticket
  · rw [← h.ticketed.eq_of_ticket hw.1 hd' ht, h.settle_waiting hw]
    exact hw
  · have hd := mem_dials_settle hw.1 ht
    exact ⟨hd, ((Collects.settle s d').lookup hd).trans hw.2⟩

theorem Attended.waiting_settleAll (h : s.Attended) (hl : ∀ d' ∈ l, d' ∈ s.dials)
    (hp : l.Pairwise fun d d' => d.ticket ≠ d'.ticket) (hw : s.Waiting d) :
    (s.settleAll l).1.Waiting d := by
  induction l generalizing s with
  | nil => exact hw
  | cons d' rest ih =>
    obtain ⟨hne, hp⟩ := List.pairwise_cons.1 hp
    obtain ⟨hd', hl⟩ := List.forall_mem_cons.1 hl
    exact ih (h.settle hd').1 (fun x hx => mem_dials_settle (hl x hx) (hne x hx).symm) hp
      (h.waiting_settle hd' hw)

theorem Attended.settleAll_endings (h : s.Attended) (hl : ∀ d ∈ l, d ∈ s.dials)
    (hp : l.Pairwise fun d d' => d.ticket ≠ d'.ticket) :
    (s.settleAll l).2 = l.filterMap s.ending? := by
  induction l generalizing s with
  | nil => rfl
  | cons d rest ih =>
    obtain ⟨hne, hp⟩ := List.pairwise_cons.1 hp
    obtain ⟨hd, hl⟩ := List.forall_mem_cons.1 hl
    have hrest := ih (h.settle hd).1 (fun x hx => mem_dials_settle (hl x hx) (hne x hx).symm) hp
    have hsame : rest.filterMap (s.settle d).1.ending? = rest.filterMap s.ending? := by
      apply List.filterMap_congr
      intro x hx
      have hx := mem_dials_settle (hl x hx) (hne x hx).symm
      rw [ending?, ending?, (Collects.settle s d).lookup hx]
    have hall : (s.settleAll (d :: rest)).2 =
        (s.ending? d).toList ++ rest.filterMap s.ending? := by
      rw [← h.settle_ending hd, ← hsame, ← hrest]
      rfl
    rw [hall, List.filterMap_cons]
    cases s.ending? d <;> rfl

theorem Attended.settle_tickets (h : s.Attended) (hd : d ∈ s.dials) :
    (s.dials.map Dial.ticket).Perm ((s.settle d).2.toList.map Ending.ticket ++
      (s.settle d).1.dials.map Dial.ticket) := by
  cases hl : s.host.answers.lookup d.ticket with
  | none => rw [h.settle_waiting ⟨hd, hl⟩]; rfl
  | some a =>
    obtain ⟨he, hdials, -⟩ := settle_answered hl
    have hfilter : (s.dials.filter fun d' => d'.ticket ≠ d.ticket).map Dial.ticket =
        (s.dials.map Dial.ticket).erase d.ticket := by
      rw [h.ticketed.nodup.erase_eq_filter, List.filter_map]
      simp only [Function.comp_def, decide_not, ne_eq]
      rfl
    rw [he, hdials, hfilter]
    exact List.perm_cons_erase (List.mem_map_of_mem hd)

theorem Attended.settleAll_tickets (h : s.Attended) (hl : ∀ d ∈ l, d ∈ s.dials)
    (hp : l.Pairwise fun d d' => d.ticket ≠ d'.ticket) :
    (s.dials.map Dial.ticket).Perm ((s.settleAll l).2.map Ending.ticket ++
      (s.settleAll l).1.dials.map Dial.ticket) := by
  induction l generalizing s with
  | nil => rfl
  | cons d rest ih =>
    obtain ⟨hne, hp⟩ := List.pairwise_cons.1 hp
    obtain ⟨hd, hl⟩ := List.forall_mem_cons.1 hl
    have hrest := ih (h.settle hd).1 (fun x hx => mem_dials_settle (hl x hx) (hne x hx).symm) hp
    have hall : (s.settleAll (d :: rest)).2.map Ending.ticket =
        (s.settle d).2.toList.map Ending.ticket ++
          ((s.settle d).1.settleAll rest).2.map Ending.ticket := List.map_append
    rw [hall, List.append_assoc]
    exact (h.settle_tickets hd).trans (hrest.append_left _)

/-! ## One step -/

theorem dials_quiet (hop : op.movesDials = false) : (s.step op).1.dials = s.dials := by
  cases op with
  | call c =>
    cases c with
    | connect | resume | resumeAll | cancel => cases hop
    | accept p =>
      simp only [step, call, accept]
      split
      · rfl
      · split
        · rfl
        · split <;> rfl
    | write k data =>
      simp only [step, call, write]
      split <;> rfl
    | close k =>
      simp only [step, call, close]
      split <;> rfl
    | read k buffer => rfl
  | expire => cases hop
  | sendRound =>
    simp only [step, sendRound]
    split <;> rfl
  | receive | receiveFrame | tick | poll => rfl

theorem step_resume (ticket : Ticket) : s.step (.call (.resume ticket)) =
    match s.dials.find? fun d => d.ticket = ticket with
    | none => (s, .ended [])
    | some d => ((s.settle d).1, .ended (s.settle d).2.toList) := by
  cases hd : s.dials.find? fun d => d.ticket = ticket <;> simp [step, call, resume, hd]

theorem mem_dials_connect (hf : s.host.Filed) (hd : d ∈ s.dials) (farHost : HostId)
    (farPort : Port) : d ∈ (s.connect farHost farPort).1.dials := by
  rcases s.connect_spec hf farHost farPort with ⟨f, hs⟩ | ⟨k, -, -, -, -, hdials, -⟩
  · rw [hs]
    exact hd
  · rw [hdials]
    exact List.mem_append_left _ hd

theorem dials_kept (hf : s.host.Filed) (hd : d ∈ s.dials) (hends : op.ends d = false)
    (hexpire : ∀ ticket, op ≠ .expire ticket) : d ∈ (s.step op).1.dials := by
  have quiet (hop : op.movesDials = false) : d ∈ (s.step op).1.dials := by
    rw [dials_quiet hop]
    exact hd
  cases op with
  | call c =>
    cases c with
    | connect farHost farPort => exact mem_dials_connect hf hd farHost farPort
    | resume ticket =>
      rw [step_resume]
      split
      · exact hd
      · rename_i d' hd'
        have heq : d'.ticket = ticket := by simpa using List.find?_some hd'
        exact mem_dials_settle hd (by simpa [Op.ends, heq, eq_comm] using hends)
    | resumeAll => cases hends
    | cancel ticket =>
      have hne : d.ticket ≠ ticket := by simpa [Op.ends, eq_comm] using hends
      exact List.mem_filter.2 ⟨hd, by simpa using hne⟩
    | _ => exact quiet rfl
  | expire ticket => exact absurd rfl (hexpire ticket)
  | _ => exact quiet rfl

theorem Attended.stays (h : s.Attended) (hw : s.Waiting d) (hc : op ≠ .call (.cancel d.ticket))
    (hexpire : ∀ ticket, op ≠ .expire ticket) : d ∈ (s.step op).1.dials := by
  cases hends : op.ends d with
  | false => exact dials_kept h.filed hw.1 hends hexpire
  | true =>
    cases op with
    | call c =>
      cases c with
      | resume ticket =>
        rw [step_resume]
        split
        · exact hw.1
        · rename_i d' hd'
          exact (h.waiting_settle (List.mem_of_find?_eq_some hd') hw).1
      | resumeAll => exact (h.waiting_settleAll (fun _ => id) h.distinct hw).1
      | cancel ticket => exact absurd (by rw [of_decide_eq_true hends]) hc
      | _ => cases hends
    | _ => cases hends

theorem answers_quiet (harrival : op.arrival? = none) (hop : op.movesDials = false) :
    (s.step op).1.host.answers = s.host.answers := by
  cases op with
  | call c =>
    cases c with
    | connect | resume | resumeAll | cancel => cases hop
    | accept p => exact s.answers_accept p
    | read k buffer => rfl
    | write k data => exact s.answers_write k data
    | close k => exact s.answers_close k
  | receive x => cases harrival
  | receiveFrame f =>
    cases hx : Segment.ofFrame f with
    | error fault => simp only [step, receiveFrame, Host.receiveFrame, hx]
    | ok x =>
      rw [Op.arrival?, hx] at harrival
      cases harrival
  | tick => exact s.host.answers_tickIn _
  | expire => cases hop
  | poll => rfl
  | sendRound =>
    simp only [step, sendRound]
    split <;> rfl

theorem collects_step (harrival : op.arrival? = none) : s.Collects (s.step op).1 := by
  have quiet (hop : op.movesDials = false) : s.Collects (s.step op).1 :=
    .of_eq (answers_quiet harrival hop)
  cases op with
  | call c =>
    cases c with
    | connect farHost farPort => exact .of_eq (s.answers_connect farHost farPort)
    | resume ticket =>
      rw [step_resume]
      split
      · exact .of_eq rfl
      · exact .settle s _
    | resumeAll => exact .settleAll s s.dials
    | cancel ticket => exact .cancel s ticket
    | _ => exact quiet rfl
  | expire ticket =>
    simp only [step, expire]
    split
    · exact .of_eq rfl
    · exact .cancel s ticket
  | _ => exact quiet rfl

theorem lookup_arrival (hf : s.host.Filed) (ht : ∀ k, (s.host.side k).Tended) {x : Segment}
    (hx : op.arrival? = some x) (hl : s.host.answers.lookup ticket = some a) :
    (s.step op).1.host.answers.lookup ticket = some a := by
  rw [s.host_of_arrival hx]
  cases s.host.tells_receive hf ht x with
  | nobody ha => rw [ha, hl]
  | somebody _ ha => rw [ha, List.lookup_append, hl, Option.some_or]

theorem lookup_kept (hf : s.host.Filed) (ht : ∀ k, (s.host.side k).Tended)
    (hd : d ∈ (s.step op).1.dials) (hl : s.host.answers.lookup d.ticket = some a) :
    (s.step op).1.host.answers.lookup d.ticket = some a := by
  cases harrival : op.arrival? with
  | some x => exact lookup_arrival hf ht harrival hl
  | none => exact ((collects_step harrival).lookup hd).trans hl

theorem Attended.keeps (h : s.Attended) (hd : d ∈ s.dials)
    (hl : s.host.answers.lookup d.ticket = some a) (hends : op.ends d = false)
    (hexpire : ∀ ticket, op ≠ .expire ticket) :
    d ∈ (s.step op).1.dials ∧ (s.step op).1.host.answers.lookup d.ticket = some a := by
  have hd' := dials_kept h.filed hd hends hexpire
  exact ⟨hd', lookup_kept h.filed h.tended hd' hl⟩

theorem Attended.opens (h : s.Attended) (hw : s.Waiting d)
    (hl : (s.step op).1.host.answers.lookup d.ticket = some .opened) :
    (s.step op).1.host.table.phase d.pair = .established := by
  have hmem : (d.ticket, Answer.opened) ∈ (s.step op).1.host.answers := by
    obtain ⟨before, after, hsplit, -⟩ := List.lookup_eq_some_iff.1 hl
    rw [hsplit]
    simp
  have hnot : (d.ticket, Answer.opened) ∉ s.host.answers := fun hold => by
    simpa using List.lookup_eq_none_iff.1 hw.2 _ hold
  have harrival : ∃ x, op.arrival? = some x ∧ x.kind? = some .synAck := by
    by_contra hno
    exact hnot (s.untold_step (fun x hx hk => hno ⟨x, hx, hk⟩) _ hmem)
  obtain ⟨x, hx, hkind⟩ := harrival
  rw [s.host_of_arrival hx] at hmem ⊢
  have hreceive : s.host.receive x = s.host.receiveKind x .synAck := by simp [Host.receive, hkind]
  rw [hreceive] at hmem ⊢
  rw [Host.answers_receiveKind] at hmem
  have hhears := s.host.receiveKind_side x .synAck
  obtain ⟨hwaiter, hphase⟩ :=
    hhears.tells_opened ((List.mem_append.1 hmem).resolve_left hnot)
  rw [← h.tickets.alone d.ticket x.receiverPair d.pair hwaiter (h.waits hw)]
  exact hphase

structure Proceeds (s : Station) (op : Op) (d : Dial) : Prop where
  opened : (s.step op).1.host.answers.lookup d.ticket = some .opened ↔
    (s.step op).1.host.table.phase d.pair = .established
  collided : (s.step op).1.host.answers.lookup d.ticket = some .collided ↔
    (s.step op).1.host.table.get? d.pair = none
  stays : op ≠ .call (.cancel d.ticket) → d ∈ (s.step op).1.dials

theorem Attended.proceeds (h : s.Attended) (hclean : s.clean op = true)
    (hexpire : ∀ ticket, op ≠ .expire ticket) (hw : s.Waiting d) : s.Proceeds op d := by
  have h' := h.step hclean
  -- An entry that somebody waits in is dialled.
  have dialled {s' : Station} (h' : s'.Attended) (hd : s'.host.Waits d.ticket d.pair) :
      s'.host.table.phase d.pair = .synSent ∧ s'.host.table.get? d.pair ≠ none := by
    obtain ⟨c, hc, -⟩ := hd.entry
    refine ⟨(h'.tended d.pair).resolve_left fun hn => ?_, by simp [hc]⟩
    exact absurd (hd.symm.trans hn) nofun
  have waiting {s' : Station} (h' : s'.Attended) (hl : s'.host.answers.lookup d.ticket = none)
      (hd : s'.host.Waits d.ticket d.pair) :
      (s'.host.answers.lookup d.ticket = some .opened ↔
        s'.host.table.phase d.pair = .established) ∧
      (s'.host.answers.lookup d.ticket = some .collided ↔ s'.host.table.get? d.pair = none) := by
    obtain ⟨hp, hn⟩ := dialled h' hd
    simp [hl, hp, hn]
  by_cases hc : op = .call (.cancel d.ticket)
  · subst hc
    have hl : (s.cancel d.ticket).host.answers.lookup d.ticket = none :=
      List.lookup_eq_none_iff.2 fun x hx => by
        have hne : x.1 ≠ d.ticket := by simpa using (List.mem_filter.1 hx).2
        exact bne_iff_ne.2 hne.symm
    obtain ⟨hopened, hcollided⟩ := waiting h' hl (h.waits hw)
    exact ⟨hopened, hcollided, fun hne => absurd rfl hne⟩
  · have hstays := h.stays hw hc hexpire
    cases h'.dials d hstays with
    | waiting hd =>
      obtain ⟨hopened, hcollided⟩ := waiting h' (h'.tickets.waiting _ _ hd).2 hd
      exact ⟨hopened, hcollided, fun _ => hstays⟩
    | opened hl =>
      have hp := h.opens hw hl
      have hn : (s.step op).1.host.table.get? d.pair ≠ none := fun hn => by
        rw [Table.phase_of_none hn] at hp
        cases hp
      exact ⟨by simp [hl, hp], by simp [hl, hn], fun _ => hstays⟩
    | collided hl hn =>
      refine ⟨?_, by simp [hl, hn], fun _ => hstays⟩
      rw [hl, Table.phase_of_none hn]
      exact ⟨nofun, nofun⟩

theorem Attended.mem_endings (h : s.Attended) (e : Ending) : e ∈ (s.step op).2.endings ↔
    ∃ d ∈ s.dials, op.resumes d = true ∧ s.ending? d = some e := by
  cases op with
  | call c =>
    cases c with
    | resume ticket =>
      rw [step_resume]
      cases hfind : s.dials.find? fun d => d.ticket = ticket with
      | none =>
        constructor
        · exact fun he => nomatch he
        · rintro ⟨d, hd, hresumes, -⟩
          have hne := List.find?_eq_none.1 hfind d hd
          exact absurd (of_decide_eq_true hresumes).symm (by simpa using hne)
      | some d =>
        have hd := List.mem_of_find?_eq_some hfind
        have hticket : d.ticket = ticket := by simpa using List.find?_some hfind
        simp only [Reply.endings, Option.mem_toList, h.settle_ending hd]
        constructor
        · exact fun he => ⟨d, hd, decide_eq_true hticket.symm, he⟩
        · rintro ⟨d', hd', hresumes, he⟩
          rwa [h.ticketed.eq_of_ticket hd hd' (hticket.trans (of_decide_eq_true hresumes))]
    | resumeAll =>
      have hall : (s.step (.call .resumeAll)).2.endings = s.dials.filterMap s.ending? :=
        h.settleAll_endings (fun _ => id) h.distinct
      rw [hall, List.mem_filterMap]
      exact exists_congr fun d => and_congr_right fun _ => (and_iff_right rfl).symm
    | _ =>
      constructor
      · exact fun he => nomatch he
      · rintro ⟨_, _, hr, _⟩
        cases hr
  | _ =>
    constructor
    · exact fun he => nomatch he
    · rintro ⟨_, _, hr, _⟩
      cases hr

/-! ## Tickets -/

def Reply.ticket? : Reply → Option Ticket
  | .dialled (.ok ticket) => some ticket
  | _ => Option.none

def Op.cancels (d : Dial) : Op → Bool
  | .call (.cancel ticket) => ticket = d.ticket
  | _ => false

def ticketsGiven (s : Station) (ops : List Op) : List Ticket :=
  (s.history ops).filterMap fun x => x.2.ticket?

def ticketsEnded (s : Station) (ops : List Op) : List Ticket :=
  (s.history ops).flatMap fun x => x.2.endings.map Ending.ticket

def ticketsCancelled (s : Station) : List Op → List Ticket
  | [] => []
  | op :: rest =>
    (s.dials.filter fun d => op.cancels d).map Dial.ticket ++ (s.step op).1.ticketsCancelled rest

variable {ops : List Op}

theorem ticketsGiven_cons : s.ticketsGiven (op :: ops) =
    (s.step op).2.ticket?.toList ++ (s.step op).1.ticketsGiven ops := by
  rw [ticketsGiven, history, List.filterMap_cons]
  cases (s.step op).2.ticket? <;> rfl

theorem ticketsEnded_cons : s.ticketsEnded (op :: ops) =
    (s.step op).2.endings.map Ending.ticket ++ (s.step op).1.ticketsEnded ops := by
  rw [ticketsEnded, history, List.flatMap_cons]
  rfl

theorem issued_of_ticket (hf : s.host.Filed) (ht : (s.step op).2.ticket? = some ticket) :
    ticket = s.host.issued ∧ s.host.issued < (s.step op).1.host.issued := by
  cases op with
  | call c =>
    cases c with
    | connect farHost farPort =>
      have hticket : (s.connect farHost farPort).2 = .ok ticket := by
        simp only [step, call] at ht
        cases hr : (s.connect farHost farPort).2 with
        | error f =>
          rw [hr] at ht
          cases ht
        | ok t =>
          rw [hr] at ht
          rw [Option.some.inj ht]
      refine ⟨?_, issued_connect hticket⟩
      rcases s.connect_spec hf farHost farPort with ⟨f, hs⟩ | ⟨k, -, -, -, hok, -⟩
      · rw [hs] at hticket
        cases hticket
      · exact Except.ok.inj (hticket.symm.trans hok)
    | _ => cases ht
  | _ => cases ht

theorem ticketsGiven_nodup (hf : s.host.Filed) (ops : List Op) :
    (s.ticketsGiven ops).Nodup ∧ ∀ ticket ∈ s.ticketsGiven ops, s.host.issued ≤ ticket := by
  induction ops generalizing s with
  | nil => exact ⟨.nil, nofun⟩
  | cons op rest ih =>
    obtain ⟨hnodup, hrest⟩ := ih ((s.step_steady op).filed hf)
    rw [ticketsGiven_cons]
    cases ht : (s.step op).2.ticket? with
    | none => exact ⟨hnodup, fun t hm => Nat.le_trans (s.issued_step op) (hrest t hm)⟩
    | some ticket =>
      obtain ⟨rfl, hlt⟩ := issued_of_ticket hf ht
      refine ⟨List.nodup_cons.2 ⟨fun hm => Nat.not_le_of_lt hlt (hrest _ hm), hnodup⟩, ?_⟩
      intro t hm
      rcases List.mem_cons.1 hm with rfl | hm
      · exact Nat.le_refl _
      · exact Nat.le_trans (Nat.le_of_lt hlt) (hrest t hm)

theorem Attended.tickets_step (h : s.Attended) (hexpire : ∀ ticket, op ≠ .expire ticket) :
    (s.dials.map Dial.ticket ++ (s.step op).2.ticket?.toList).Perm
      ((s.step op).2.endings.map Ending.ticket ++
        (s.dials.filter fun d => op.cancels d).map Dial.ticket ++
        (s.step op).1.dials.map Dial.ticket) := by
  have quiet (hop : op.movesDials = false) (hticket : (s.step op).2.ticket? = none)
      (hendings : (s.step op).2.endings = []) (hcancels : ∀ d, op.cancels d = false) :
      (s.dials.map Dial.ticket ++ (s.step op).2.ticket?.toList).Perm
        ((s.step op).2.endings.map Ending.ticket ++
          (s.dials.filter fun d => op.cancels d).map Dial.ticket ++
          (s.step op).1.dials.map Dial.ticket) := by
    simp [dials_quiet hop, hticket, hendings, hcancels]
  cases op with
  | call c =>
    cases c with
    | connect farHost farPort =>
      rcases s.connect_spec h.filed farHost farPort with ⟨f, hs⟩ | ⟨k, -, -, -, hok, hdials, -⟩
      · simp [Station.step, call, hs, Reply.ticket?, Reply.endings, Op.cancels]
      · simp [Station.step, call, hok, hdials, Reply.ticket?, Reply.endings, Op.cancels]
    | resume ticket =>
      rw [step_resume]
      split
      · simp [Reply.ticket?, Reply.endings, Op.cancels]
      · rename_i d hd
        simpa [Reply.ticket?, Reply.endings, Op.cancels] using
          h.settle_tickets (List.mem_of_find?_eq_some hd)
    | resumeAll =>
      have hall := h.settleAll_tickets (fun _ => id) h.distinct
      simpa [Station.step, call, resumeAll, Reply.ticket?, Reply.endings, Op.cancels] using hall
    | cancel ticket =>
      have hsplit := List.filter_append_perm (fun d : Dial => ticket = d.ticket) s.dials
      have hrest : (s.dials.filter fun d => !decide (ticket = d.ticket)) =
          s.dials.filter fun d => d.ticket ≠ ticket := by
        simp [eq_comm]
      rw [hrest] at hsplit
      simpa [Station.step, call, Station.cancel, Reply.ticket?, Reply.endings, Op.cancels] using
        (hsplit.map Dial.ticket).symm
    | _ => exact quiet rfl rfl rfl fun _ => rfl
  | expire ticket => exact absurd rfl (hexpire ticket)
  | _ => exact quiet rfl rfl rfl fun _ => rfl

theorem Attended.run (h : s.Attended) (hops : s.cleanly ops = true) : (s.run ops).Attended := by
  induction ops generalizing s with
  | nil => exact h
  | cons op rest ih =>
    obtain ⟨hop, hrest⟩ := Bool.and_eq_true_iff.1 hops
    exact ih (h.step hop) hrest

theorem Attended.tickets_run (h : s.Attended) (hops : s.cleanly ops = true)
    (hexpire : ∀ ticket, .expire ticket ∉ ops) :
    (s.dials.map Dial.ticket ++ s.ticketsGiven ops).Perm
      (s.ticketsEnded ops ++ s.ticketsCancelled ops ++ (s.run ops).dials.map Dial.ticket) := by
  induction ops generalizing s with
  | nil => exact List.perm_append_comm
  | cons op rest ih =>
    obtain ⟨hop, hrest⟩ := Bool.and_eq_true_iff.1 hops
    have hne : ∀ ticket, op ≠ .expire ticket := fun ticket he =>
      hexpire ticket (he ▸ List.mem_cons_self)
    have hstep := h.tickets_step hne
    have hrun := ih (h.step hop) hrest fun ticket hm => hexpire ticket (List.mem_cons_of_mem _ hm)
    rw [ticketsGiven_cons, ticketsEnded_cons, ticketsCancelled]
    change List.Perm _ (_ ++ _ ++ (((s.step op).1.run rest).dials.map Dial.ticket))
    rw [List.perm_iff_count] at hstep hrun ⊢
    intro ticket
    have hstep := hstep ticket
    have hrun := hrun ticket
    simp only [List.count_append] at hstep hrun ⊢
    omega

/-! ## Runs -/

/-- Who waits where. An entry is waited for exactly while it is dialled, and a dial that nobody has
told waits in the entry of its connection and nowhere else. -/
structure Awaits (s : Station) : Prop where
  waiter : ∀ k c, s.host.table.get? k = some c → (c.waiter.isSome = true ↔ c.phase = .synSent)
  entry : ∀ d, s.Waiting d →
    ∃ c, s.host.table.get? d.pair = some c ∧ c.phase = .synSent ∧ c.waiter = some d.ticket
  alone : ∀ d, s.Waiting d → ∀ k c, s.host.table.get? k = some c → c.waiter = some d.ticket →
    k = d.pair

theorem Attended.awaits (h : s.Attended) (ha : ∀ k, (s.host.side k).Awaited) : s.Awaits where
  waiter k c hc := by
    have htended := h.tended k
    have hawaited := ha k
    rw [Side.Tended, Side.conn_of_entry hc, Side.phase_of_entry hc] at htended
    rw [Side.Awaited, Side.conn_of_entry hc, Side.phase_of_entry hc] at hawaited
    refine ⟨fun hw => htended.resolve_left fun hn => ?_, hawaited⟩
    rw [hn] at hw
    cases hw
  entry d hd := by
    have hw := h.waits hd
    obtain ⟨c, hc, hticket⟩ := hw.entry
    have hp : s.host.table.phase d.pair = .synSent :=
      (h.tended d.pair).resolve_left fun hn => Option.some_ne_none _ (hw.symm.trans hn)
    exact ⟨c, hc, (Table.phase_of_some hc).symm.trans hp, hticket⟩
  alone d hd k c hc hticket := by
    have hw : s.host.Waits d.ticket k := by
      rw [Host.Waits, Side.conn_of_entry hc]
      exact hticket
    exact h.tickets.alone d.ticket k d.pair hw (h.waits hd)

/-- What a step does for the dials of a station. Whoever has been told keeps the answer until the
call is resumed, and then ends with it. -/
structure Answering (s : Station) (op : Op) : Prop where
  proceeds : ∀ d, s.Waiting d → s.Proceeds op d
  keeps : ∀ d ∈ s.dials, ∀ a, s.host.answers.lookup d.ticket = some a → op.ends d = false →
    d ∈ (s.step op).1.dials ∧ (s.step op).1.host.answers.lookup d.ticket = some a
  endings : ∀ e, e ∈ (s.step op).2.endings ↔
    ∃ d ∈ s.dials, op.resumes d = true ∧ s.ending? d = some e
  running : ∀ e ∈ (s.step op).2.endings, e.result ≠ .error .shutDown

theorem ending?_ne_shutDown {e : Ending} (he : s.ending? d = some e) :
    e.result ≠ .error .shutDown := by
  obtain ⟨a, -, rfl⟩ := Option.map_eq_some_iff.1 he
  cases a <;> exact nofun

theorem Attended.answering (h : s.Attended) (hclean : s.clean op = true)
    (hexpire : ∀ ticket, op ≠ .expire ticket) : s.Answering op where
  proceeds _ hw := h.proceeds hclean hexpire hw
  keeps _ hd _ hl hends := h.keeps hd hl hends hexpire
  endings := h.mem_endings
  running e he := by
    obtain ⟨_, -, -, hending⟩ := (h.mem_endings e).1 he
    exact ending?_ne_shutDown hending

/-- In every run in which a failed `connect` cleans up at once and none runs out of time, each call
that waits has the entry of its connection for itself. It is told that its connection is open by
the step that opens it, and of a collision by the step that takes the entry away. No ticket is given
out twice, and each that is given out ends once, is cancelled once or still waits. -/
theorem connect_answered_once (address : HostId) (recvWindow sendWindow patience : Nat)
    (ops : List Op) (hops : (fresh address recvWindow sendWindow patience).cleanly ops = true)
    (hexpire : ∀ ticket, .expire ticket ∉ ops) :
    ((fresh address recvWindow sendWindow patience).run ops).Awaits ∧
      (∀ op, ((fresh address recvWindow sendWindow patience).run ops).clean op = true →
        (∀ ticket, op ≠ .expire ticket) →
        ((fresh address recvWindow sendWindow patience).run ops).Answering op) ∧
      ((fresh address recvWindow sendWindow patience).ticketsGiven ops).Nodup ∧
      ((fresh address recvWindow sendWindow patience).ticketsGiven ops).Perm
        ((fresh address recvWindow sendWindow patience).ticketsEnded ops ++
          (fresh address recvWindow sendWindow patience).ticketsCancelled ops ++
          ((fresh address recvWindow sendWindow patience).run ops).dials.map Dial.ticket) := by
  have hfresh := attended_fresh address recvWindow sendWindow patience
  have hrun := hfresh.run hops
  refine ⟨hrun.awaits ?_, fun op => hrun.answering, (ticketsGiven_nodup hfresh.filed ops).1,
    hfresh.tickets_run hops hexpire⟩
  exact side_run _ Side.Step.awaited hfresh.filed (fun _ => .of_phase nofun) ops

def dialler : List Op :=
  [.call (.connect 2 7), .poll, .receive (.control ⟨⟨1, 0⟩, ⟨2, 7⟩⟩ .syn), .call (.resume 0),
    .call (.connect 2 7), .poll, .receive (.control ⟨⟨1, 0⟩, ⟨2, 7⟩⟩ .synAck), .call .resumeAll,
    .call (.connect 3 8), .call (.cancel 2), .call (.connect 4 9)]

theorem connect_answered_once_dialler : (fresh 1 4 4 4).cleanly dialler = true ∧
    (∀ ticket, .expire ticket ∉ dialler) ∧ ((fresh 1 4 4 4).run dialler).Awaits ∧
    ((fresh 1 4 4 4).run dialler).Answering .tick ∧
    ((fresh 1 4 4 4).ticketsGiven dialler).Nodup ∧
    ((fresh 1 4 4 4).ticketsGiven dialler).Perm ([0, 1] ++ [2] ++ [3]) := by
  have hops : (fresh 1 4 4 4).cleanly dialler = true := by decide +kernel
  have hexpire : ∀ ticket, .expire ticket ∉ dialler := by simp [dialler]
  have hclean : ((fresh 1 4 4 4).run dialler).clean .tick = true := by decide +kernel
  have hended : (fresh 1 4 4 4).ticketsEnded dialler = [0, 1] := by decide +kernel
  have hcancelled : (fresh 1 4 4 4).ticketsCancelled dialler = [2] := by decide +kernel
  have hleft : ((fresh 1 4 4 4).run dialler).dials.map Dial.ticket = [3] := by decide +kernel
  obtain ⟨hawaits, hanswers, hnodup, hperm⟩ := connect_answered_once 1 4 4 4 dialler hops hexpire
  rw [hended, hcancelled, hleft] at hperm
  exact ⟨hops, hexpire, hawaits, hanswers .tick hclean nofun, hnodup, hperm⟩

end Station

end ReliableStream
