import ReliableStream.Proofs.Passive

namespace ReliableStream

open Side

namespace Side

variable {cfg : Settings} {k : SocketPair} {op : Station.Op} {r : Station.Reply} {e e' : Side}

theorem unread_swept (e : Side) : e.swept.conn.unread = e.conn.unread := by
  obtain ⟨entry, _⟩ := e
  cases entry with
  | none => rfl
  | some c =>
    cases hi : c.isIdle with
    | true => simp_all [swept, conn, Option.filter, Connection.isIdle]
    | false => simp [swept, conn, Option.filter, hi]

theorem Step.falls (h : Step cfg k op r e e') (hp : e.phase = .synReceived ∨ e.phase.keeps)
    (hp' : e'.phase = .closed) (ho : op.settles = false) :
    ∃ x, Arrives k op x ∧ x.kind? = some .fin ∧ x.seq = e.conn.expected ∧
      e.appendedSince e' = [] := by
  have hopen : e.phase ≠ .closed := by rcases hp with hp | hp | hp <;> simp [hp]
  have hdial : e.phase ≠ .synSent := by rcases hp with hp | hp | hp <;> simp [hp]
  have hkeep : ¬e.phase.discards := by rcases hp with hp | hp | hp <;> simp [hp, Phase.discards]
  have hclosing : e.phase ≠ .closing := fun hc => hkeep (.inr hc)
  -- Most steps leave the phase as it is.
  have same (hs : e'.phase = e.phase) : False := hopen (hs.symm.trans hp')
  cases h with
  | @heard _ s _ _ _ ha hk hpair hh =>
    cases hh with
    | noted => exact (same (phase_swept _)).elim
    | ended hc => exact (hc.elim hclosing hopen).elim
    | knocked hc => exact absurd hc hopen
    | collided hc hs => exact absurd ((phase_of_entry hc).trans hs) hdial
    | finished hc _ he =>
      refine ⟨s, ⟨ha, hpair⟩, hk, by rw [conn_of_entry hc, he], ?_⟩
      rw [appendedSince, unread_swept, conn_of_entry hc]
      exact List.drop_length
    | finishedAgain hc hs => exact absurd ((phase_of_entry hc).trans hs) hopen
    | misplaced => exact (same (phase_swept _)).elim
    | opened | drained | halted | crossed => cases hp'
    | kept hc => exact (same (phase_of_entry hc).symm).elim
    | discarded hc => exact (same (phase_of_entry hc).symm).elim
    | greeted hc => exact (same (phase_of_entry hc).symm).elim
    | repeated hc => exact (same (phase_of_entry hc).symm).elim
    | strange | strangeFin | stale | early | full => exact (same rfl).elim
  | dialled | accepted | closedDrained | closedBusy | closedStopped => cases hp'
  | forgot hs => rw [hs] at ho; cases ho
  | read hc => exact (same ((phase_swept _).trans (phase_of_entry hc).symm)).elim
  | readRefused => exact (same (phase_swept _)).elim
  | wrote => exact (same (phase_pushData _ _)).elim
  | writeRefused => exact (same (phase_swept _)).elim
  | closedIdle => exact (same (phase_swept _)).elim
  | tickedClosing hc => exact (same (phase_of_entry hc).symm).elim
  | expired hc hs => exact absurd ((phase_of_entry hc).trans hs) hclosing
  | tickedIdle => exact (same (phase_swept _)).elim
  | _ => exact (same rfl).elim

theorem Moves.listening {p p' : Phase} (h : Moves k op r p p')
    (hp : p = .closed ∨ p = .synReceived ∨ p.keeps) (ho : op ≠ .call (.close k)) :
    p' = .closed ∨ p' = .synReceived ∨ p'.keeps := by
  cases h with
  | stay => exact hp
  | shut => exact .inl rfl
  | opened => exact .inr (.inr (.inl rfl))
  | knocked => exact .inr (.inl rfl)
  | accepted => exact .inr (.inr (.inl rfl))
  | halted => exact .inr (.inr (.inr rfl))
  | stopped hc => exact absurd hc ho
  | finished hq =>
    rcases hq with rfl | ⟨-, hc⟩
    · rcases hp with hp | hp | hp | hp <;> cases hp
    · exact absurd hc ho

end Side

/-- One direction of a connection whose far end has not closed on its own part, nor fallen. -/
structure Draining (k : SocketPair) (log got : List Segment) (v : Link) : Prop where
  flow : Flow k log got v
  far : v.far.phase = .closed ∨ v.far.phase = .synReceived ∨ v.far.phase.keeps

def Link.Ended (v : Link) : Prop := v.near.phase = .closing ∨ v.near.phase = .closed

namespace Network

variable {n : Network} {i j : Nat} {k : SocketPair} {op : Op} {ops : List Op}
  {log got : List Segment}

/-- The connection lasts in a run, and the next operation closes it or loses its entry. -/
def Closes (n : Network) (i : Nat) (k : SocketPair) (before : List Op) (op : Op) : Prop :=
  n.lasts i k before ∧ ((n.run before).side i k).phase ≠ .closed ∧
    ((n.run (before ++ [op])).side i k).phase = .closed

theorem exists_closes (h : ¬n.lasts i k ops) :
    ∃ before op after, ops = before ++ op :: after ∧ n.Closes i k before op := by
  induction ops generalizing n with
  | nil => exact absurd trivial h
  | cons op rest ih =>
    by_cases hop : (n.side i k).phase ≠ .closed → ((n.step op).1.side i k).phase ≠ .closed
    · obtain ⟨before, op', after, rfl, hl, ho, hc⟩ := ih fun hl => h ⟨hop, hl⟩
      exact ⟨op :: before, op', after, rfl, ⟨hop, hl⟩, ho, hc⟩
    · obtain ⟨ho, hc⟩ := Classical.not_imp.1 hop
      exact ⟨[], op, rest, rfl, trivial, ho, Classical.not_not.1 hc⟩

theorem Joins.draining_step (h : n.Joins i j k) (hp : n.Passive j k.swap)
    (hv : Draining k log got (n.link i j k)) (hop : op.isConnect = false)
    (hclose : op ≠ .call j (.close k.swap))
    (hstay : (n.side j k.swap).phase ≠ .closed → ((n.step op).1.side j k.swap).phase ≠ .closed)
    (hlen : (log ++ (n.side i k).queuedSince ((n.step op).1.side i k)).length < UInt32.size) :
    Draining k (log ++ (n.side i k).queuedSince ((n.step op).1.side i k))
      (got ++ (n.side j k.swap).appendedSince ((n.step op).1.side j k.swap))
      ((n.step op).1.link i j k) := by
  obtain ⟨ev, hev, hst⟩ := h.link_step op
  cases ev with
  | near o r =>
    have hd := hev.near_not_dialled hop
    have hflow := hv.flow.near_step (h.tidy.side_sound i k) hst hd
      (fun hc ho => absurd (hp.stays_closed hst hd hc) ho) hlen
    cases hst with
    | near _ hsame =>
      have hsame : (n.step op).1.side j k.swap = n.side j k.swap := hsame
      refine ⟨?_, ?_⟩
      · rw [hsame, appendedSince_self, List.append_nil]
        exact hflow
      · rw [show ((n.step op).1.link i j k).far = n.side j k.swap from hsame]
        exact hv.far
  | far o r =>
    have hd := hev.far_not_dialled hop
    have hflow := hv.flow.far_step (h.tidy.side_sound j k.swap) hst hd hstay (by
      rw [List.length_append] at hlen
      omega)
    cases hst with
    | far hside hsame =>
      have hsame : (n.step op).1.side i k = n.side i k := hsame
      refine ⟨?_, (hside.moves hd).listening hv.far ?_⟩
      · rw [hsame, queuedSince_self, List.append_nil]
        exact hflow
      · rintro rfl
        cases hev with
        | far ha =>
          cases ha
          exact hclose rfl
  | none =>
    have hflow := hv.flow.none_step hst
    cases hst with
    | none hsame hsame' =>
      have hnear : (n.step op).1.side i k = n.side i k := hsame
      have hfar : (n.step op).1.side j k.swap = n.side j k.swap := hsame'
      refine ⟨?_, ?_⟩
      · rw [hnear, hfar, queuedSince_self, appendedSince_self,
          List.append_nil, List.append_nil]
        exact hflow
      · rw [show ((n.step op).1.link i j k).far = n.side j k.swap from hsame']
        exact hv.far

theorem Joins.draining_run (h : n.Joins i j k) (hp : n.Passive j k.swap)
    (hv : Draining k log got (n.link i j k)) (hops : ∀ op ∈ ops, op.isConnect = false)
    (hclose : ∀ op ∈ ops, op ≠ .call j (.close k.swap)) (hlast : n.lasts j k.swap ops)
    (hlen : (log ++ n.queued i k ops).length < UInt32.size) :
    Draining k (log ++ n.queued i k ops) (got ++ n.appended j k.swap ops)
      ((n.run ops).link i j k) := by
  induction ops generalizing n log got with
  | nil =>
    rw [show n.queued i k [] = [] from rfl, show n.appended j k.swap [] = [] from rfl,
      List.append_nil, List.append_nil]
    exact hv
  | cons op rest ih =>
    obtain ⟨hop, hrest⟩ := List.forall_mem_cons.1 hops
    obtain ⟨hcl, hcrest⟩ := List.forall_mem_cons.1 hclose
    rw [queued_cons, ← List.append_assoc] at hlen ⊢
    rw [appended_cons, ← List.append_assoc]
    have hv' := h.draining_step hp hv hop hcl hlast.1 (by
      rw [List.length_append] at hlen
      omega)
    exact ih (h.step op) (hp.step h.swap (Op.ne_connect hop)) hv' hrest hcrest hlast.2 hlen

theorem Joins.draining_connect {farHost : HostId} {farPort : Port} (h : n.Joins i j k)
    (hb : (n.link i j k).Blank) (hop : op = .call i (.connect farHost farPort)) :
    Draining k (n.queued i k [op]) (n.appended j k.swap [op]) ((n.step op).1.link i j k) := by
  subst hop
  have hnear : n.side i k = {} := hb.near
  have hfar : n.side j k.swap = {} := hb.far
  rcases h.connect_step farHost farPort hb with hb' | ⟨-, ticket, hn, hf, ho, hbk⟩
  · have hnear' : (n.step (.call i (.connect farHost farPort))).1.side i k = {} := hb'.near
    have hfar' : (n.step (.call i (.connect farHost farPort))).1.side j k.swap = {} := hb'.far
    simp only [queued, appended, gathered, hnear, hfar, hnear', hfar']
    exact ⟨.blank hb', .inl (by rw [hb'.far]; rfl)⟩
  · have hnear' : (n.step (.call i (.connect farHost farPort))).1.side i k = _ := hn
    have hfar' : (n.step (.call i (.connect farHost farPort))).1.side j k.swap = {} := hf
    simp only [queued, appended, gathered, hnear, hfar, hnear', hfar']
    exact ⟨.dialled hn hf ho hbk, .inl (by rw [hf]; rfl)⟩

theorem Joins.draining {farHost : HostId} {farPort : Port} (h : n.Joins i j k)
    (hb : (n.link i j k).Blank) (hp : n.Passive j k.swap)
    (hops : (ops.filter Op.isConnect).Sublist [.call i (.connect farHost farPort)])
    (hclose : ∀ op ∈ ops, op ≠ .call j (.close k.swap)) (hlast : n.lasts j k.swap ops)
    (hlen : (n.queued i k ops).length < UInt32.size) :
    Draining k (n.queued i k ops) (n.appended j k.swap ops) ((n.run ops).link i j k) := by
  rcases split_connect rfl hops with hops | ⟨before, after, rfl, hbefore, hafter⟩
  · exact h.draining_run hp ⟨.blank hb, .inl (by rw [hb.far]; rfl)⟩ hops hclose hlast hlen
  · have hb' := h.blank_run hb hbefore
    have hp' := hp.run h.swap fun op ho => Op.ne_connect (hbefore op ho)
    obtain ⟨-, hlast⟩ := lasts_append.1 hlast
    rw [queued_append, (h.blank_logs hb hbefore).1, List.nil_append, ← List.singleton_append,
      queued_append] at hlen ⊢
    rw [appended_append, (h.swap.blank_logs hb.swap hbefore).2.1, List.nil_append,
      ← List.singleton_append, appended_append, List.singleton_append, run_append]
    refine ((h.run before).step _).draining_run (hp'.step (h.run before).swap ?_)
      ((h.run before).draining_connect hb' rfl) hafter
      (fun op ho => hclose op (List.mem_append_right _ (List.mem_cons_of_mem _ ho))) hlast.2 hlen
    intro farHost farPort he
    exact h.apart (Op.call.inj he).1

theorem Joins.fall (h : n.Joins i j k) (hp : n.Passive j k.swap)
    (hv : Draining k log got (n.link i j k)) (ho : (n.side j k.swap).phase ≠ .closed)
    (hc : ((n.step op).1.side j k.swap).phase = .closed) :
    bytes (got ++ (n.side j k.swap).appendedSince ((n.step op).1.side j k.swap)) = bytes log ∧
      (n.side i k).queuedSince ((n.step op).1.side i k) = [] ∧ ((n.step op).1.link i j k).Ended := by
  have hfar : (n.side j k.swap).phase = .synReceived ∨ (n.side j k.swap).phase.keeps :=
    hv.far.resolve_left ho
  rcases h.far_acts op with hsame | ⟨o, r, hev, hst⟩
  · rw [hsame] at hc
    exact absurd hc ho
  cases hst with
  | far hside hsame harr =>
    have hs : o.settles = false := eq_false_of_ne_true fun hs => by
      rw [hp.side_of_settles hev hs] at hc
      exact ho hc
    obtain ⟨x, hx, hk, hseq, happ⟩ := hside.falls hfar hc hs
    have hxl : x ∈ log :=
      hv.flow.out x (harr x hx.1 hx.2) (by simp [Segment.isReply, hk, Kind.isReply])
    obtain ⟨hlast, hended⟩ := hv.flow.last x hxl hk
    have hseq : x.seq.toNat = (n.side j k.swap).taken := congrArg UInt32.toNat hseq
    have hkeep : ¬(n.side j k.swap).phase.discards := by
      rcases hfar with hp | hp | hp <;> simp [hp, Phase.discards]
    obtain ⟨m, -, hm, hd⟩ := hv.flow.order
    have hm' : m = (n.side j k.swap).taken := hd hkeep
    have happ : (n.side j k.swap).appendedSince ((n.step op).1.side j k.swap) = [] := happ
    have hsame : (n.step op).1.side i k = n.side i k := hsame
    refine ⟨?_, ?_, ?_⟩
    -- The FIN is the last segment of the log, and carries nothing.
    · rw [happ, List.append_nil, hm, hm', ← hseq]
      have := hv.flow.isLog.bytes_take_succ hxl
      rw [hlast, List.take_length, hv.flow.isLog.empty x hxl (by simp [hk]), List.append_nil] at this
      exact this.symm
    · rw [hsame]
      exact queuedSince_of_eq rfl
    · rw [Link.Ended, show ((n.step op).1.link i j k).near = n.side i k from hsame]
      exact hended

theorem Joins.ended_step (h : n.Joins i j k) (hp : n.Passive j k.swap) (hv : (n.link i j k).Ended)
    (hop : op.isConnect = false) : ((n.step op).1.link i j k).Ended ∧
      (n.side i k).queuedSince ((n.step op).1.side i k) = [] := by
  rcases h.near_acts op with hsame | ⟨o, r, hev, hst⟩
  · refine ⟨?_, by rw [hsame, queuedSince_self]⟩
    rw [Link.Ended, show ((n.step op).1.link i j k).near = n.side i k from hsame]
    exact hv
  · have hd := hev.near_not_dialled hop
    have hclosed := hp.stays_closed hst hd
    cases hst with
    | near hside =>
      constructor
      · rcases hv with hc | hc
        · have hmoves := hside.moves hd
          rw [hc] at hmoves
          exact hmoves.from_closing
        · exact .inr (hclosed hc)
      · apply (hside.sends hd).queues.eq_nil
        intro ho
        rcases hv with hc | hc <;> rw [hc] at ho <;> simp at ho

theorem Joins.ended_run (h : n.Joins i j k) (hp : n.Passive j k.swap) (hv : (n.link i j k).Ended)
    (hops : ∀ op ∈ ops, op.isConnect = false) : n.queued i k ops = [] := by
  induction ops generalizing n with
  | nil => rfl
  | cons op rest ih =>
    obtain ⟨hop, hrest⟩ := List.forall_mem_cons.1 hops
    obtain ⟨hv', hq⟩ := h.ended_step hp hv hop
    rw [queued_cons, hq, ih (h.step op) (hp.step h.swap (Op.ne_connect hop)) hv' hrest]
    rfl

theorem connect_once {a b : List Op} {c : Op} (h : ((a ++ b).filter Op.isConnect).Sublist [c]) :
    (∀ op ∈ a, op.isConnect = false) ∨ ∀ op ∈ b, op.isConnect = false := by
  have none {l : List Op} (hl : l.filter Op.isConnect = []) : ∀ op ∈ l, op.isConnect = false :=
    fun op ho => eq_false_of_ne_true (List.filter_eq_nil_iff.1 hl op ho)
  have hlen := h.length_le
  rw [List.filter_append, List.length_append, List.length_singleton] at hlen
  by_cases ha : (a.filter Op.isConnect).length = 0
  · exact .inl (none (List.length_eq_zero_iff.1 ha))
  · exact .inr (none (List.length_eq_zero_iff.1 (by omega)))

theorem Joins.appended_of_closes {farHost : HostId} {farPort : Port} {before after : List Op}
    (h : n.Joins i j k) (hb : (n.link i j k).Blank) (hp : n.Passive j k.swap)
    (hops : ((before ++ op :: after).filter Op.isConnect).Sublist
      [.call i (.connect farHost farPort)])
    (hclose : ∀ x ∈ before ++ op :: after, x ≠ .call j (.close k.swap))
    (hlen : (n.queued i k (before ++ op :: after)).length < UInt32.size)
    (hc : n.Closes j k.swap before op) :
    bytes (n.appended j k.swap (before ++ [op])) = n.written i k (before ++ op :: after) := by
  obtain ⟨hlast, hopen, hclosed⟩ := hc
  have hrest : ∀ x ∈ op :: after, x.isConnect = false := by
    refine (connect_once hops).resolve_left fun hbefore => hopen ?_
    have hfar : (n.run before).side j k.swap = {} := (h.blank_run hb hbefore).far
    rw [hfar]
    rfl
  obtain ⟨hop, hafter⟩ := List.forall_mem_cons.1 hrest
  have hbefore : (before.filter Op.isConnect).Sublist [.call i (.connect farHost farPort)] := by
    rw [List.filter_append] at hops
    exact (List.sublist_append_left _ _).trans hops
  rw [queued_append, queued_cons] at hlen
  have hv := h.draining hb hp hbefore (fun x hx => hclose x (List.mem_append_left _ hx)) hlast (by
    simp only [List.length_append] at hlen
    omega)
  have hp' : (n.run before).Passive j k.swap := by
    refine hp.run h.swap fun x hx a p he => ?_
    have := hbefore.subset (List.mem_filter.2 ⟨hx, by rw [he]; rfl⟩)
    rw [he] at this
    exact h.apart (Op.call.inj (List.mem_singleton.1 this)).1.symm
  have hj := h.run before
  rw [run_append] at hclosed
  -- The FIN has its turn when all before it is appended, and the near end queues nothing after it.
  obtain ⟨hgot, hq, hended⟩ := hj.fall hp' hv hopen hclosed
  have hq' := (hj.step op).ended_run (hp'.step hj.swap (Op.ne_connect hop)) hended hafter
  rw [← h.bytes_queued, queued_append, queued_cons, hq, hq', List.append_nil, List.append_nil,
    ← hgot, appended_append, appended_singleton]

def Meets (n : Network) (op : Op) (i : Nat) (k : SocketPair) (kind : Kind) : Prop :=
  ∃ o x, n.Acts op i o ∧ Arrives k o x ∧ x.kind? = some kind

theorem not_meets_finAck (hv : Draining k log got (n.link i j k)) : ¬n.Meets op i k .finAck := by
  rintro ⟨o, x, ha, ⟨hx, hk⟩, hkind⟩
  have hr : x.isReply = true := by simp [Segment.isReply, hkind, Kind.isReply]
  exact (hv.flow.back x ⟨(ha.arrival hx).1, hk ▸ rfl⟩ hr).2 hkind

/-- In a run of two hosts with one call of `connect`, in which the far end does not close on its own
part: when the far end first goes back to closed, it has appended all that is written at the near
end in the whole run, and before a FIN-ACK comes to the near end the far end has done so. -/
theorem close_loses_nothing {a b : HostId} (hab : a ≠ b) (ra sa pa rb sb pb : Nat) (p : Port)
    (ops : List Op) (k : SocketPair) (hnear : k.near.host = a) (hfar : k.far.host = b)
    (hconnect : (ops.filter Op.isConnect).Sublist [.call 0 (.connect b p)])
    (hclose : ∀ op ∈ ops, op ≠ .call 1 (.close k.swap))
    (hlen : ((pair (.fresh a ra sa pa) (.fresh b rb sb pb)).queued 0 k ops).length < UInt32.size) :
    (∀ before op after, ops = before ++ op :: after →
      (pair (.fresh a ra sa pa) (.fresh b rb sb pb)).Closes 1 k.swap before op →
      bytes ((pair (.fresh a ra sa pa) (.fresh b rb sb pb)).appended 1 k.swap (before ++ [op])) =
        (pair (.fresh a ra sa pa) (.fresh b rb sb pb)).written 0 k ops) ∧
    (∀ before op after, ops = before ++ op :: after →
      ((pair (.fresh a ra sa pa) (.fresh b rb sb pb)).run before).Meets op 0 k .finAck →
      ∃ before' op' after', before = before' ++ op' :: after' ∧
        (pair (.fresh a ra sa pa) (.fresh b rb sb pb)).Closes 1 k.swap before' op' ∧
        bytes ((pair (.fresh a ra sa pa) (.fresh b rb sb pb)).appended 1 k.swap
          (before' ++ [op'])) =
          (pair (.fresh a ra sa pa) (.fresh b rb sb pb)).written 0 k ops) := by
  have h : (pair (.fresh a ra sa pa) (.fresh b rb sb pb)).Joins 0 1 k := joins_fresh hab hnear hfar
  have hb : ((pair (.fresh a ra sa pa) (.fresh b rb sb pb)).link 0 1 k).Blank := blank_fresh k
  have hp : (pair (.fresh a ra sa pa) (.fresh b rb sb pb)).Passive 1 k.swap := passive_fresh k.swap
  have complete (before : List Op) (op : Op) (after : List Op) (he : ops = before ++ op :: after)
      (hc : (pair (.fresh a ra sa pa) (.fresh b rb sb pb)).Closes 1 k.swap before op) :
      bytes ((pair (.fresh a ra sa pa) (.fresh b rb sb pb)).appended 1 k.swap (before ++ [op])) =
        (pair (.fresh a ra sa pa) (.fresh b rb sb pb)).written 0 k ops := by
    subst he
    exact h.appended_of_closes hb hp hconnect hclose hlen hc
  refine ⟨complete, ?_⟩
  rintro before op after rfl hmeets
  have hnot : ¬(pair (.fresh a ra sa pa) (.fresh b rb sb pb)).lasts 1 k.swap before := by
    intro hlast
    rw [queued_append, List.length_append] at hlen
    rw [List.filter_append] at hconnect
    have hv := h.draining hb hp ((List.sublist_append_left _ _).trans hconnect)
      (fun x hx => hclose x (List.mem_append_left _ hx)) hlast (by omega)
    exact not_meets_finAck hv hmeets
  obtain ⟨before', op', after', rfl, hc⟩ := exists_closes hnot
  refine ⟨before', op', after', rfl, hc, complete before' op' (after' ++ op :: after) ?_ hc⟩
  simp

def farewell : List Op :=
  [.call 0 (.connect 2 7), .flush 0, .deliver 0, .call 1 (.accept 7), .flush 1, .deliver 0,
    .call 0 (.write ⟨⟨2, 7⟩, ⟨1, 0⟩⟩ [104, 105]), .call 0 (.close ⟨⟨2, 7⟩, ⟨1, 0⟩⟩), .flush 0,
    .deliver 0, .deliver 0, .flush 1, .deliver 0, .deliver 0, .flush 0, .deliver 0, .flush 1,
    .deliver 0]

theorem close_loses_nothing_farewell :
    bytes ((pair (.fresh 1 4 4 4) (.fresh 2 4 4 4)).appended 1 ⟨⟨1, 0⟩, ⟨2, 7⟩⟩
        (farewell.take 16)) = [104, 105] ∧
      ∃ before op after, farewell.take 17 = before ++ op :: after ∧
        (pair (.fresh 1 4 4 4) (.fresh 2 4 4 4)).Closes 1 ⟨⟨1, 0⟩, ⟨2, 7⟩⟩ before op := by
  have hwritten : (pair (.fresh 1 4 4 4) (.fresh 2 4 4 4)).written 0 ⟨⟨2, 7⟩, ⟨1, 0⟩⟩ farewell =
      [104, 105] := by decide +kernel
  obtain ⟨hall, hfin⟩ := close_loses_nothing (show (1 : HostId) ≠ 2 by decide) 4 4 4 4 4 4 7
    farewell ⟨⟨2, 7⟩, ⟨1, 0⟩⟩ rfl rfl (by decide) (by decide) (by decide +kernel)
  refine ⟨?_, ?_⟩
  · exact (hall (farewell.take 15) (.deliver 0) [.flush 1, .deliver 0] rfl
      ⟨by decide +kernel, by decide +kernel, by decide +kernel⟩).trans hwritten
  · obtain ⟨before, op, after, he, hc, -⟩ := hfin (farewell.take 17) (.deliver 0) [] rfl
      ⟨.receiveFrame ⟨1, 2, [0, 7, 0, 10, 0, 0, 0, 3], by decide⟩,
        { dest := ⟨1, 0⟩, src := ⟨2, 7⟩, flags := Kind.finAck.flags, seq := 3 },
        .deliver (by decide +kernel) (by decide +kernel), ⟨by decide +kernel, rfl⟩, rfl⟩
    exact ⟨before, op, after, he, hc⟩

end Network

end ReliableStream
