import ReliableStream.Proofs.Callers
import ReliableStream.Proofs.Drain

namespace ReliableStream

open Side

namespace Side

variable {cfg : Settings} {room : Nat} {k : SocketPair} {op : Station.Op} {r : Station.Reply}
  {s : Segment} {kind : Kind} {e e' : Side}

theorem swept_idle (hp : e.phase = .closed) (hu : e.conn.unread = []) (hw : e.conn.waiter = none) :
    e.swept.entry = none := by
  cases hc : e.entry with
  | none => rw [swept_of_none hc, hc]
  | some c =>
    rw [phase_of_entry hc] at hp
    rw [conn_of_entry hc] at hu hw
    simp [swept, hc, Option.filter, Connection.isIdle, hp, hu, hw]

end Side

theorem Host.close_phase (h : Host) (k : SocketPair)
    (hok : ∃ a, (h.apply k .close none (h.facts k)).2 = .ok a) :
    ((h.apply k .close none (h.facts k)).1.side k).phase = .closing ∨
      ((h.apply k .close none (h.facts k)).1.side k).phase = .stopSent ∨
      ((h.apply k .close none (h.facts k)).1.side k).phase = .closed := by
  have idle (hp : h.table.phase k = .closed) :
      ((h.apply k .close none (h.facts k)).1.side k).phase = .closed := by
    rw [(h.apply_close_idle (h.facts k) hp).1, phase_swept]
    exact hp
  cases hc : h.table.get? k with
  | none => exact .inr (.inr (idle (Table.phase_of_none hc)))
  | some c =>
    have hp : h.table.phase k = c.phase := Table.phase_of_some hc
    have refused (hm : c.phase.move? .close (h.facts k) = none) : False := by
      obtain ⟨a, ha⟩ := hok
      rw [apply_of_none h (by rw [hp]; exact hm)] at ha
      cases ha
    cases hcp : c.phase with
    | closed => exact .inr (.inr (idle (hp.trans hcp)))
    | established =>
      cases hd : (h.facts k).drained with
      | true =>
        refine .inl ?_
        rw [(h.apply_close_open (h.facts k) (m := ⟨.closing, [.transmit .fin]⟩) hc
          (by rw [hcp]; simp [Phase.move?, hd]) rfl (by decide) (by simp)).1]
        rfl
      | false =>
        refine .inr (.inl ?_)
        rw [(h.apply_close_open (h.facts k) (m := ⟨.stopSent, [.transmit .stp]⟩) hc
          (by rw [hcp]; simp [Phase.move?, hd]) rfl (by decide) (by simp)).1]
        rfl
    | stopReceived =>
      refine .inl ?_
      rw [(h.apply_close_open (h.facts k) (m := ⟨.closing, [.transmit .fin]⟩) hc
        (by rw [hcp]; rfl) rfl (by decide) (by simp)).1]
      rfl
    | _ => exact (refused (by rw [hcp]; rfl)).elim

namespace Network

variable {n : Network} {i j : Nat} {k : SocketPair} {op : Op} {ops : List Op} {cfg cfg' : Settings}
  {log : List Segment}

def staysShut (n : Network) (i : Nat) (k : SocketPair) : List Op → Prop
  | [] => True
  | op :: rest =>
    ((n.side i k).phase = .closed → ((n.step op).1.side i k).phase = .closed) ∧
      staysShut (n.step op).1 i k rest

instance decidableStaysShut (n : Network) (i : Nat) (k : SocketPair) :
    (ops : List Op) → Decidable (n.staysShut i k ops)
  | [] => .isTrue trivial
  | op :: rest =>
    @instDecidableAnd _ _ inferInstance (decidableStaysShut (n.step op).1 i k rest)

/-- The application of the station has closed the connection, which has not begun again since. -/
def HasClosed (n : Network) (i : Nat) (k : SocketPair) (ops : List Op) : Prop :=
  ∃ before after, ops = before ++ .call i (.close k) :: after ∧
    ((n.run before).step (.call i (.close k))).2 = .closed (.ok ()) ∧
    ((n.run before).step (.call i (.close k))).1.staysShut i k after

theorem phase_of_close (hr : (n.step (.call i (.close k))).2 = .closed (.ok ())) :
    ((n.step (.call i (.close k))).1.side i k).phase = .closing ∨
      ((n.step (.call i (.close k))).1.side i k).phase = .stopSent ∨
      ((n.step (.call i (.close k))).1.side i k).phase = .closed := by
  cases hs : n.stations[i]? with
  | none => simp [step, call, hs] at hr
  | some s =>
    have hreply : (s.close k).2 = .ok () := by
      simpa [step, call, hs, Station.call] using hr
    rw [side_of_some ((Acts.call i (.close k)).step_station hs)]
    have hphase := s.host.close_phase k
    simp only [Station.step, Station.call, Station.close] at hreply ⊢
    split at hreply
    · cases hreply
    · rename_i h _ heq
      rw [heq] at hphase
      exact hphase ⟨_, rfl⟩

theorem Joins.shut_run (h : n.Joins i j k) (hshut : n.staysShut i k ops)
    (hp : (n.side i k).phase = .closing ∨ (n.side i k).phase = .stopSent ∨
      (n.side i k).phase = .closed) :
    ((n.run ops).side i k).phase = .closing ∨ ((n.run ops).side i k).phase = .stopSent ∨
      ((n.run ops).side i k).phase = .closed := by
  induction ops generalizing n with
  | nil => exact hp
  | cons op rest ih =>
    refine ih (h.step op) hshut.2 ?_
    rcases h.tidy.side_step op i k with ⟨o, s, -, -, hst⟩ | hsame
    · by_cases hc : (n.side i k).phase = .closed
      · exact .inr (.inr (hshut.1 hc))
      · have hmoves := hst.moves_or_dials.resolve_right fun hd => hc hd.1
        rcases hp with hp | hp | hp
        · rw [hp] at hmoves
          exact hmoves.from_closing.imp id .inr
        · rw [hp] at hmoves
          rcases hmoves.from_stopSent with hp' | hp' | hp'
          · exact .inr (.inr hp')
          · exact .inr (.inl hp')
          · exact .inl hp'
        · exact absurd hp hc
    · rw [hsame]
      exact hp

theorem Joins.phase_of_closed (h : n.Joins i j k) (hc : n.HasClosed i k ops) :
    ((n.run ops).side i k).phase = .closing ∨ ((n.run ops).side i k).phase = .stopSent ∨
      ((n.run ops).side i k).phase = .closed := by
  obtain ⟨before, after, rfl, hr, hshut⟩ := hc
  rw [run_append]
  exact ((h.run before).step _).shut_run hshut (phase_of_close hr)

theorem Joins.tended_run (h : n.Joins i j k) (ht : (n.side i k).Tended) (ops : List Op) :
    ((n.run ops).side i k).Tended := by
  induction ops generalizing n with
  | nil => exact ht
  | cons op rest ih =>
    refine ih (h.step op) ?_
    rcases h.tidy.side_step op i k with ⟨o, s, -, -, hst⟩ | hsame
    · exact hst.tended ht
    · rw [hsame]
      exact ht

def Gone (n : Network) (i : Nat) (k : SocketPair) : Prop :=
  (n.side i k).entry = none ∧ (n.side i k).window = none

theorem Peers.can {allowed : Op → Bool} {P : Network → Prop} (h : n.Peers i j k cfg cfg')
    (hc : n.Can allowed P) : n.Can allowed fun m => m.Peers i j k cfg cfg' ∧ P m := by
  obtain ⟨ops, hops, hP⟩ := hc
  exact ⟨ops, hops, h.run ops, hP⟩

theorem Peers.gone_of_tick {c : Connection} (h : n.Peers i j k cfg cfg')
    (hc : (n.side i k).entry = some c) (hp : c.phase = .closing)
    (hle : cfg.patience ≤ c.closingTicks) : (n.step (.tick i)).1.Gone i k := by
  have hnear := h.tick.1
  rw [ticked_closing hc hp, if_pos hle] at hnear
  rw [Gone, hnear]
  exact ⟨rfl, rfl⟩

theorem Peers.expires (h : n.Peers i j k cfg cfg') (hp : (n.side i k).phase = .closing) :
    n.Can Op.relaysOrReads fun m => m.Gone i k := by
  -- Induction on a bound of the ticks until the patience is at its end.
  have key (b : Nat) (n : Network) (c : Connection) (h : n.Peers i j k cfg cfg')
      (hc : (n.side i k).entry = some c) (hcp : c.phase = .closing)
      (hb : cfg.patience ≤ c.closingTicks + b) :
      n.Can Op.relaysOrReads fun m => m.Gone i k := by
    induction b generalizing n c with
    | zero => exact .step (.tick i) rfl (.now (h.gone_of_tick hc hcp hb))
    | succ b ih =>
      by_cases hle : cfg.patience ≤ c.closingTicks
      · exact .step (.tick i) rfl (.now (h.gone_of_tick hc hcp hle))
      · have hnear := h.tick.1
        rw [ticked_closing hc hcp, if_neg hle] at hnear
        refine .step (.tick i) rfl (ih _ { c with closingTicks := c.closingTicks + 1 }
          (h.step _) ?_ hcp (by simp only; omega))
        rw [hnear]
        rfl
  obtain ⟨c, hc, hcp⟩ := exists_entry (e := n.side i k) (by simp [hp])
  exact key cfg.patience n c h hc (hcp.trans hp) (Nat.le_add_left _ _)

theorem Peers.sweeps (h : n.Peers i j k cfg cfg') (hp : (n.side i k).phase = .closed)
    (ht : (n.side i k).Tended) : n.Can Op.relaysOrReads fun m => m.Gone i k := by
  have hw : (n.side i k).conn.waiter = none := ht.resolve_right (by simp [hp])
  generalize hu : (n.side i k).conn.unread = unread
  induction unread generalizing n with
  | nil =>
    have hnear := h.tick.1
    rw [ticked_idle (.inl hp)] at hnear
    refine .step (.tick i) rfl (.now ?_)
    have hsound := (h.step (.tick i)).joins.tidy.side_sound i k
    rw [hnear] at hsound
    rw [Gone, hnear]
    exact ⟨swept_idle hp hu hw, (hsound.shut (.inl ((phase_swept _).trans hp))).1⟩
  | cons x rest ih =>
    obtain ⟨c, hc⟩ : ∃ c, (n.side i k).entry = some c := by
      refine Option.ne_none_iff_exists'.1 fun hn => ?_
      rw [conn, hn] at hu
      cases hu
    rw [conn_of_entry hc] at hu hw
    have hnear := (h.read hc hu).1
    have hcp : c.phase = .closed := (phase_of_entry hc).symm.trans hp
    have hp' : ((n.step (.call i (.read k (List.replicate x.payload.length 0)))).1.side i k).phase =
        .closed := by
      rw [hnear, phase_swept]
      exact hcp
    have hw' : ((n.step (.call i (.read k (List.replicate x.payload.length 0)))).1.side i k).conn.waiter
        = none := by
      rw [hnear, (swept_conn _).2]
      exact hw
    refine .step (.call i (.read k (List.replicate x.payload.length 0))) rfl
      (ih (h.step _) hp' (.inl hw') hw' ?_)
    rw [hnear, (swept_conn _).1]
    rfl

theorem Emptying.gone (h : n.Emptying i j k cfg cfg' log) (hroom : 0 < cfg'.room) :
    n.Can Op.relaysOrReads fun m => m.Gone i k :=
  (h.peers.can (h.closes hroom)).trans fun _ ⟨h', hp⟩ => h'.expires hp

theorem Joins.halted_run (h : n.Joins i j k) (hv : (n.link i j k).Halted log)
    (hflow : ∀ before after, ops = before ++ after →
      ∃ got, Flow k (log ++ n.queued i k before) got ((n.run before).link i j k))
    (hlast : n.lasts j k.swap ops) (hlen : (log ++ n.queued i k ops).length < UInt32.size) :
    ((n.run ops).link i j k).Halted (log ++ n.queued i k ops) := by
  -- The log grows along the run, so that the flow is needed after each part of it.
  induction ops generalizing n log with
  | nil =>
    rw [show n.queued i k [] = [] from rfl, List.append_nil]
    exact hv
  | cons op rest ih =>
    obtain ⟨got, hf⟩ := hflow [] _ rfl
    rw [show n.queued i k [] = [] from rfl, List.append_nil] at hf
    obtain ⟨ev, -, hst⟩ := h.link_step op
    have hv' := hf.halted_step hv hst hlast.1 (by
      rw [List.length_append] at hlen
      omega)
    rw [queued_cons, ← List.append_assoc] at hlen ⊢
    refine ih (h.step op) hv' (fun before after he => ?_) hlast.2 hlen
    have := hflow (op :: before) after (by rw [he]; rfl)
    rwa [queued_cons, ← List.append_assoc] at this

theorem Peers.stopped {m : Nat} {farHost : HostId} {farPort : Port} (h : n.Peers i j k cfg cfg')
    (hb : (n.link i j k).Blank) (hm : m = i ∨ m = j)
    (hops : (ops.filter Op.isConnect).Sublist [.call m (.connect farHost farPort)])
    (hi : n.lasts i k ops) (hj : n.lasts j k.swap ops)
    (hlen : (n.queued i k ops).length < UInt32.size)
    (hflow : ∀ before after, ops = before ++ after →
      ∃ got, Flow k (n.queued i k before) got ((n.run before).link i j k))
    (hports : (n.run ops).Ported i k) (hp : ((n.run ops).side i k).phase = .stopSent) :
    (n.run ops).Stopped i j k cfg cfg' (n.queued i k ops) := by
  have hf := hflow ops [] (List.append_nil _).symm
  have hblank : (n.link i j k).Halted [] := fun hr => by
    rw [hb.far] at hr
    cases hr
  refine ⟨h.run ops, ⟨_, h.joins.ledger hb hm hops hi hlen⟩, hf,
    h.joins.halted_run hblank hflow hj hlen, hlen, hports fun hn => ?_, hp, ?_⟩
  · rw [phase, hn] at hp
    cases hp
  · obtain ⟨got, hf⟩ := hf
    rcases hf.met with hc | hc | hc
    · cases hc.symm.trans hp
    · cases hc.symm.trans hp
    · exact hc

section Fresh

variable {a b : HostId} {ra sa pa rb sb pb : Nat} {p : Port} {q : SocketPair}

theorem stopped_fresh (hab : a ≠ b) (hnear : k.near.host = a) (hfar : k.far.host = b)
    (hconnect : (ops.filter Op.isConnect).Sublist [.call 0 (.connect b p)])
    (hlast : (pair (.fresh a ra sa pa) (.fresh b rb sb pb)).lasts 0 k ops)
    (hlast' : (pair (.fresh a ra sa pa) (.fresh b rb sb pb)).lasts 1 k.swap ops)
    (hlen : ((pair (.fresh a ra sa pa) (.fresh b rb sb pb)).queued 0 k ops).length < UInt32.size)
    (hlen' : ((pair (.fresh a ra sa pa) (.fresh b rb sb pb)).queued 1 k.swap ops).length <
      UInt32.size)
    (hend : i = 0 ∧ j = 1 ∧ q = k ∨ i = 1 ∧ j = 0 ∧ q = k.swap)
    (hp : (((pair (.fresh a ra sa pa) (.fresh b rb sb pb)).run ops).side i q).phase = .stopSent) :
    ∃ cfg cfg' log, ((pair (.fresh a ra sa pa) (.fresh b rb sb pb)).run ops).Stopped i j q cfg cfg'
        log ∧ cfg'.room = if i = 0 then rb else ra := by
  have hpeers : (pair (.fresh a ra sa pa) (.fresh b rb sb pb)).Peers 0 1 k _ _ :=
    peers_fresh hab hnear hfar
  have hj := hpeers.joins
  have hb : ((pair (.fresh a ra sa pa) (.fresh b rb sb pb)).link 0 1 k).Blank := blank_fresh k
  have duplex {before after : List Op} (he : ops = before ++ after) :
      Duplex k ((pair (.fresh a ra sa pa) (.fresh b rb sb pb)).tally 0 1 k before)
        ((pair (.fresh a ra sa pa) (.fresh b rb sb pb)).tally 1 0 k.swap before)
        (((pair (.fresh a ra sa pa) (.fresh b rb sb pb)).run before).link 0 1 k) := by
    subst he
    rw [List.filter_append] at hconnect
    rw [queued_append, List.length_append] at hlen hlen'
    exact hj.duplex hb ((List.sublist_append_left _ _).trans hconnect) (lasts_append.1 hlast).1
      (lasts_append.1 hlast').1 (by omega) (by omega)
  rcases hend with ⟨rfl, rfl, rfl⟩ | ⟨rfl, rfl, rfl⟩
  · exact ⟨_, _, _, hpeers.stopped hb (.inl rfl) hconnect hlast hlast' hlen
      (fun _ _ he => ⟨_, (duplex he).out.flow⟩) ((ported_fresh 0 q).run hj ops) hp, rfl⟩
  · exact ⟨_, _, _, hpeers.swap.stopped hb.swap (.inr rfl) hconnect hlast' hlast hlen'
      (fun _ _ he => ⟨_, (duplex he).back.flow⟩) ((ported_fresh 1 k.swap).run hj.swap ops) hp, rfl⟩

theorem live_or_dialling_fresh (hab : a ≠ b) (hnear : k.near.host = a) (hfar : k.far.host = b)
    (hconnect : (ops.filter Op.isConnect).Sublist [.call 0 (.connect b p)])
    (hlast' : (pair (.fresh a ra sa pa) (.fresh b rb sb pb)).lasts 1 k.swap ops)
    (hend : i = 0 ∧ j = 1 ∧ q = k ∨ i = 1 ∧ j = 0 ∧ q = k.swap)
    (hp : (((pair (.fresh a ra sa pa) (.fresh b rb sb pb)).run ops).side i q).phase = .stopSent)
    (ho : (((pair (.fresh a ra sa pa) (.fresh b rb sb pb)).run ops).side j q.swap).phase ≠ .closed) :
    (((pair (.fresh a ra sa pa) (.fresh b rb sb pb)).run ops).side j q.swap).phase.live = true ∨
      j = 0 ∧ (((pair (.fresh a ra sa pa) (.fresh b rb sb pb)).run ops).side j q.swap).phase =
        .synSent := by
  have hj : (pair (.fresh a ra sa pa) (.fresh b rb sb pb)).Joins 0 1 k := joins_fresh hab hnear hfar
  have hb : ((pair (.fresh a ra sa pa) (.fresh b rb sb pb)).link 0 1 k).Blank := blank_fresh k
  have hcalls (op) (hop : op ∈ ops) := ne_connect_of_sublist hconnect (show 0 ≠ 1 by decide) hop
  have hpaired := hj.paired_run (passive_fresh k.swap) ⟨.inl (by rw [hb.near]; rfl),
    .blank hb.far hb.back⟩ hcalls hlast'
  have live {p : Phase} (hb : p.begun) (hs : p ≠ .synSent) : p.live = true := by
    cases p <;> simp_all [Phase.begun, Phase.live]
  rcases hend with ⟨rfl, rfl, rfl⟩ | ⟨rfl, rfl, rfl⟩
  · rcases hpaired.near with hn | hn | ⟨-, hn⟩
    · cases hn.symm.trans hp
    · cases hn.symm.trans hp
    · exact .inl (live hn (hj.swap.not_dialling hcalls
        (show ({} : Side).phase ≠ .synSent by decide)))
  · rw [SocketPair.swap_swap] at ho ⊢
    rcases hpaired.near with hn | hn | ⟨hn, -⟩
    · exact absurd hn ho
    · exact .inr ⟨rfl, hn⟩
    · by_cases hs : (((pair (.fresh a ra sa pa) (.fresh b rb sb pb)).run ops).side 0 k).phase = .synSent
      · exact .inr ⟨rfl, hs⟩
      · exact .inl (live hn hs)

end Fresh

/-- In a run of two hosts with one call of `connect`, after a successful call of `close` at either
end whose connection has not begun again: ticks, flushes, deliveries and reads can take away the
entry and the window there. An end that has still to drain can do so if both ends have lasted, the
other end keeps at least one unread segment, and, while that end is dialling, a SYN-ACK is on the
wire or waits to be sent. -/
theorem close_completes {a b : HostId} (hab : a ≠ b) (ra sa pa rb sb pb : Nat) (p : Port)
    (ops : List Op) (k : SocketPair) (hnear : k.near.host = a) (hfar : k.far.host = b)
    (hconnect : (ops.filter Op.isConnect).Sublist [.call 0 (.connect b p)])
    (i j : Nat) (q : SocketPair) (hend : i = 0 ∧ j = 1 ∧ q = k ∨ i = 1 ∧ j = 0 ∧ q = k.swap)
    (hclosed : (pair (.fresh a ra sa pa) (.fresh b rb sb pb)).HasClosed i q ops)
    (hstop : (((pair (.fresh a ra sa pa) (.fresh b rb sb pb)).run ops).side i q).phase = .stopSent →
      (pair (.fresh a ra sa pa) (.fresh b rb sb pb)).lasts 0 k ops ∧
      (pair (.fresh a ra sa pa) (.fresh b rb sb pb)).lasts 1 k.swap ops ∧
      ((pair (.fresh a ra sa pa) (.fresh b rb sb pb)).queued 0 k ops).length < UInt32.size ∧
      ((pair (.fresh a ra sa pa) (.fresh b rb sb pb)).queued 1 k.swap ops).length < UInt32.size ∧
      0 < (if i = 0 then rb else ra) ∧
      ((((pair (.fresh a ra sa pa) (.fresh b rb sb pb)).run ops).side j q.swap).phase = .synSent →
        ((pair (.fresh a ra sa pa) (.fresh b rb sb pb)).run ops).Welcomes i q)) :
    ((pair (.fresh a ra sa pa) (.fresh b rb sb pb)).run ops).Can Op.relaysOrReads
      fun m => m.Gone i q := by
  obtain ⟨cfg, cfg', hpeers⟩ : ∃ cfg cfg',
      (pair (.fresh a ra sa pa) (.fresh b rb sb pb)).Peers i j q cfg cfg' := by
    rcases hend with ⟨rfl, rfl, rfl⟩ | ⟨rfl, rfl, rfl⟩
    · exact ⟨_, _, peers_fresh hab hnear hfar⟩
    · exact ⟨_, _, (peers_fresh hab hnear hfar).swap⟩
  have hpeers' := hpeers.run ops
  -- A closing entry expires, a stopped one drains first, and a closed one goes when all is read.
  rcases hpeers.joins.phase_of_closed hclosed with hp | hp | hp
  · exact hpeers'.expires hp
  · obtain ⟨hlast, hlast', hlen, hlen', hroom, hw⟩ := hstop hp
    obtain ⟨_, _, log, hs, hr⟩ := stopped_fresh hab hnear hfar hconnect hlast hlast' hlen hlen' hend hp
    rw [← hr] at hroom
    rcases live_or_dialling_fresh hab hnear hfar hconnect hlast' hend hp hs.far with hl | ⟨hj, hd⟩
    · exact Emptying.gone ⟨hs, hl⟩ hroom
    · subst hj
      obtain ⟨rfl, -, rfl⟩ := hend.resolve_left (by simp)
      rw [SocketPair.swap_swap] at hd
      have hl := ledger_dialling_fresh hab hnear hfar hconnect hd
      refine (hs.opens (by rwa [SocketPair.swap_swap]) (hw (by rwa [SocketPair.swap_swap]))
        fun x hx => ?_).trans fun m hm => hm.gone hroom
      obtain ⟨s, -, -, hempty, -⟩ := hl.replies x hx
      exact Segment.fits_of_pair (pair_of_replies hx) hs.ports (by simp [hempty])
  · refine hpeers'.sweeps hp (hpeers.joins.tended_run ?_ ops)
    rcases hend with ⟨rfl, rfl, rfl⟩ | ⟨rfl, rfl, rfl⟩ <;> exact .inl rfl

theorem close_completes_farewell :
    (((pair (.fresh 1 4 4 4) (.fresh 2 4 4 4)).run (farewell.take 9)).side 0
        ⟨⟨2, 7⟩, ⟨1, 0⟩⟩).phase = .stopSent ∧
      ((pair (.fresh 1 4 4 4) (.fresh 2 4 4 4)).run (farewell.take 9)).Can Op.relaysOrReads
        fun m => m.Gone 0 ⟨⟨2, 7⟩, ⟨1, 0⟩⟩ :=
  ⟨by decide +kernel, close_completes (by decide) 4 4 4 4 4 4 7 (farewell.take 9) ⟨⟨2, 7⟩, ⟨1, 0⟩⟩
    rfl rfl (by decide) 0 1 _ (.inl ⟨rfl, rfl, rfl⟩)
    ⟨farewell.take 7, [.flush 0], rfl, rfl, by decide +kernel⟩ fun _ =>
      ⟨by decide +kernel, by decide +kernel, by decide +kernel, by decide +kernel, by decide,
        fun h => absurd h (by decide +kernel)⟩⟩

theorem not_carries (h : n.wire = []) (x : Segment) : ¬n.Carries x := by
  rintro ⟨f, hf, -⟩
  rw [h] at hf
  cases hf

theorem Peers.stranded {S : Standstill k cfg cfg'} (h : n.Peers i j k cfg cfg')
    (hS : S.Holds (n.link i j k)) (hopen : ∀ e, S.near e → e.phase ≠ .closed) :
    ¬n.Can Op.relaysOrReads fun m => m.Gone i k := by
  rintro ⟨ops, hops, hgone, -⟩
  refine hopen _ (hS.run h hops).near ?_
  rw [show ((n.run ops).link i j k).near.phase = ((n.run ops).side i k).phase from rfl, phase, hgone]
  rfl

def deserted : List Op :=
  [.call 0 (.connect 2 7), .flush 0, .deliver 0, .call 1 (.accept 7), .flush 1, .deliver 0,
    .call 1 (.close ⟨⟨1, 0⟩, ⟨2, 7⟩⟩), .flush 1, .lose 0, .tick 1, .tick 1,
    .call 0 (.write ⟨⟨2, 7⟩, ⟨1, 0⟩⟩ [104]), .call 0 (.close ⟨⟨2, 7⟩, ⟨1, 0⟩⟩)]

theorem stranded_deserted :
    ¬((pair (.fresh 1 4 4 1) (.fresh 2 4 4 1)).run deserted).Can Op.relaysOrReads
      fun m => m.Gone 0 ⟨⟨2, 7⟩, ⟨1, 0⟩⟩ := by
  have hpeers : (pair (.fresh 1 4 4 1) (.fresh 2 4 4 1)).Peers 0 1 ⟨⟨2, 7⟩, ⟨1, 0⟩⟩ ⟨4, 4, 1⟩
    ⟨4, 4, 1⟩ := peers_fresh (by decide) rfl rfl
  have hwire : ((pair (.fresh 1 4 4 1) (.fresh 2 4 4 1)).run deserted).wire = [] := by
    decide +kernel
  refine (hpeers.run deserted).stranded (S := .deserted _ _ _) ⟨⟨by decide +kernel, ?_⟩,
    ⟨by decide +kernel, by decide +kernel⟩, fun x hx => absurd hx.1 (not_carries hwire x),
    fun x hx => absurd hx.1 (not_carries hwire x)⟩ fun e he => by simp [he.1]
  rintro x (hx | hx)
  · exact absurd hx (by rw [show (Link.near _).replies = [] by decide +kernel]; exact List.not_mem_nil)
  · exact forall_held (P := fun x => x.kind? ≠ some .syn ∧ x.kind? ≠ some .fin) (by decide +kernel) hx

def starved : List Op :=
  [.call 0 (.connect 2 7), .flush 0, .deliver 0, .call 1 (.accept 7), .flush 1, .deliver 0,
    .call 0 (.write ⟨⟨2, 7⟩, ⟨1, 0⟩⟩ [104]), .call 0 (.close ⟨⟨2, 7⟩, ⟨1, 0⟩⟩)]

theorem stranded_starved :
    ¬((pair (.fresh 1 4 4 4) (.fresh 2 0 4 4)).run starved).Can Op.relaysOrReads
      fun m => m.Gone 0 ⟨⟨2, 7⟩, ⟨1, 0⟩⟩ := by
  have hpeers : (pair (.fresh 1 4 4 4) (.fresh 2 0 4 4)).Peers 0 1 ⟨⟨2, 7⟩, ⟨1, 0⟩⟩ ⟨4, 4, 4⟩
    ⟨0, 4, 4⟩ := peers_fresh (by decide) rfl rfl
  have hwire : ((pair (.fresh 1 4 4 4) (.fresh 2 0 4 4)).run starved).wire = [] := by
    decide +kernel
  refine (hpeers.run starved).stranded (S := .starved _ _ _ rfl 1)
    ⟨⟨by decide +kernel, by decide +kernel, fun x hx => ?_⟩,
      ⟨by decide +kernel, by decide +kernel, by decide +kernel, fun x hx => ?_⟩,
      fun x hx => absurd hx.1 (not_carries hwire x), fun x hx => absurd hx.1 (not_carries hwire x)⟩
    fun e he => by simp [he.1]
  · exact forall_held (P := fun x => x.kind? = some .data ∧ 1 ≤ x.seq ∨ x.kind? = some .stp ∧ 1 < x.seq)
      (by decide +kernel) hx
  · exact forall_held (P := fun _ => False) (by decide +kernel) hx

theorem stranded_hastyClose :
    ¬((pair (.fresh 1 4 4 4) (.fresh 2 4 4 4)).run hastyClose).Can Op.relaysOrReads
      fun m => m.Gone 1 ⟨⟨1, 0⟩, ⟨2, 7⟩⟩ := by
  rintro ⟨more, hmore, hgone, -⟩
  have hstay := unanswered_fresh (P := (· = .stopSent)) (show (1 : HostId) ≠ 2 by decide)
    (k := ⟨⟨2, 7⟩, ⟨1, 0⟩⟩) (p := 7) rfl rfl (by decide) (by decide +kernel)
    (fun _ hp => by simp [hp]) (fun hp => by cases hp) (by decide +kernel)
    not_welcomes_hastyClose hmore
  rw [run_append] at hstay
  have hp : ((((pair (.fresh 1 4 4 4) (.fresh 2 4 4 4)).run hastyClose).run more).side 1
      ⟨⟨1, 0⟩, ⟨2, 7⟩⟩).phase = .stopSent := hstay.2
  rw [phase, hgone] at hp
  cases hp

theorem stranded_ghost :
    ¬((pair (.fresh 1 4 4 1) (.fresh 2 4 4 1)).run (ghost.take 13)).Can Op.relaysOrReads
      fun m => m.Gone 1 ⟨⟨1, 0⟩, ⟨2, 7⟩⟩ := by
  have hpeers : (pair (.fresh 1 4 4 1) (.fresh 2 4 4 1)).Peers 0 1 ⟨⟨2, 7⟩, ⟨1, 0⟩⟩ ⟨4, 4, 1⟩
    ⟨4, 4, 1⟩ := peers_fresh (by decide) rfl rfl
  have hp : (((pair (.fresh 1 4 4 1) (.fresh 2 4 4 1)).run (ghost.take 13)).side 1
      ⟨⟨1, 0⟩, ⟨2, 7⟩⟩).phase = .synReceived := by decide +kernel
  exact (hpeers.swap.run (ghost.take 13)).stranded (S := .unaccepted _ _ _)
    ⟨hp, trivial, fun _ _ => trivial, fun _ _ => trivial⟩ fun e he => by
      simp [show e.phase = .synReceived from he]

/-- After a successful call of `close` the entry can be there for good: when the timer of the far end
has taken its entry away before the window is drained, when the far end still waits for a SYN-ACK
that nobody sends again, when it has no room, and when a SYN that was under way opens the
connection anew. -/
theorem close_stranded :
    ((pair (.fresh 1 4 4 1) (.fresh 2 4 4 1)).HasClosed 0 ⟨⟨2, 7⟩, ⟨1, 0⟩⟩ deserted ∧
      ¬((pair (.fresh 1 4 4 1) (.fresh 2 4 4 1)).run deserted).Can Op.relaysOrReads
        fun m => m.Gone 0 ⟨⟨2, 7⟩, ⟨1, 0⟩⟩) ∧
    ((pair (.fresh 1 4 4 4) (.fresh 2 4 4 4)).HasClosed 1 ⟨⟨1, 0⟩, ⟨2, 7⟩⟩ hastyClose ∧
      ¬((pair (.fresh 1 4 4 4) (.fresh 2 4 4 4)).run hastyClose).Can Op.relaysOrReads
        fun m => m.Gone 1 ⟨⟨1, 0⟩, ⟨2, 7⟩⟩) ∧
    ((pair (.fresh 1 4 4 4) (.fresh 2 0 4 4)).HasClosed 0 ⟨⟨2, 7⟩, ⟨1, 0⟩⟩ starved ∧
      ¬((pair (.fresh 1 4 4 4) (.fresh 2 0 4 4)).run starved).Can Op.relaysOrReads
        fun m => m.Gone 0 ⟨⟨2, 7⟩, ⟨1, 0⟩⟩) ∧
    (((pair (.fresh 1 4 4 1) (.fresh 2 4 4 1)).run (ghost.take 6)).step
        (.call 1 (.close ⟨⟨1, 0⟩, ⟨2, 7⟩⟩))).2 = .closed (.ok ()) ∧
      ghost.take 13 = ghost.take 6 ++ .call 1 (.close ⟨⟨1, 0⟩, ⟨2, 7⟩⟩) :: (ghost.take 13).drop 7 ∧
      ¬((pair (.fresh 1 4 4 1) (.fresh 2 4 4 1)).run (ghost.take 13)).Can Op.relaysOrReads
        fun m => m.Gone 1 ⟨⟨1, 0⟩, ⟨2, 7⟩⟩ := by
  exact ⟨⟨⟨deserted.take 12, [], rfl, rfl, trivial⟩, stranded_deserted⟩,
    ⟨⟨hastyClose.take 8, [], rfl, rfl, trivial⟩, stranded_hastyClose⟩,
    ⟨⟨starved.take 7, [], rfl, rfl, trivial⟩, stranded_starved⟩, rfl, rfl, stranded_ghost⟩

end Network

end ReliableStream
