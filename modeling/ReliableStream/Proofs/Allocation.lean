import ReliableStream.Proofs.Backlog
import ReliableStream.Proofs.SendState

namespace ReliableStream

namespace Table

variable {t : Table} {p : Port}

theorem valid_of_lt {q : Port} (hq : q < p) (hp : validPort p = true) : validPort q = true := by
  rw [validPort, decide_eq_true_eq] at hp ⊢
  exact UInt8.le_trans (UInt8.le_of_lt hq) hp

theorem freePort?_eq_none : t.freePort? = none ↔ ∀ p, validPort p = true → t.inUse p = true := by
  rw [freePort?, List.find?_eq_none]
  simp [mem_usablePorts]

theorem freePort?_eq_some : t.freePort? = some p ↔
    validPort p = true ∧ t.inUse p = false ∧ ∀ q, q < p → t.inUse q = true := by
  have below (hp : ∀ n, n < p.toNat → t.inUse (.ofNat n) = true) (q : Port) (hq : q < p) :
      t.inUse q = true := by
    rw [← UInt8.ofNat_toNat (x := q)]
    exact hp q.toNat (UInt8.lt_iff_toNat_lt.1 hq)
  rw [freePort?, usablePorts, List.find?_map, Option.map_eq_some_iff]
  constructor
  · rintro ⟨n, hn, rfl⟩
    obtain ⟨hfree, hmem, hused⟩ := List.find?_range_eq_some.1 hn
    have hn : n < 128 := List.mem_range.1 hmem
    have htoNat : (UInt8.ofNat n).toNat = n :=
      UInt8.toNat_ofNat_of_lt' (Nat.lt_trans hn (by decide))
    refine ⟨mem_usablePorts.1 (List.mem_map_of_mem hmem), by simpa using hfree, below ?_⟩
    rw [htoNat]
    exact fun m hm => by simpa using hused m hm
  · rintro ⟨hvalid, hfree, hused⟩
    refine ⟨p.toNat, List.find?_range_eq_some.2 ⟨by simpa using hfree, ?_, fun n hn => ?_⟩,
      UInt8.ofNat_toNat⟩
    · obtain ⟨n, hn, rfl⟩ := List.mem_map.1 (mem_usablePorts.2 hvalid)
      rwa [UInt8.toNat_ofNat_of_lt' (Nat.lt_trans (List.mem_range.1 hn) (by decide))]
    · have hlt : UInt8.ofNat n < p := by
        rw [UInt8.lt_iff_toNat_lt, UInt8.toNat_ofNat_of_lt' (Nat.lt_trans hn p.toNat_lt)]
        exact hn
      simpa using hused _ hlt

end Table

def Table.Stocked (t : Table) : Prop :=
  ∀ p, t.backlog.contains p = true → t.listening.contains p = true ∨ t.pending p ≠ []

theorem Table.Stocked.pushPending {t : Table} (h : t.Stocked) (s : Segment) :
    (t.pushPending s).Stocked := by
  intro p hp
  by_cases hd : s.dest.port = p
  · subst hd
    rw [pending_pushPending_self]
    exact .inr (by simp)
  · rw [t.pending_pushPending_of_ne s hd]
    refine h p ?_
    rwa [SortedMap.contains, Table.pushPending, SortedMap.get?_insert_of_ne _ _ hd] at hp

theorem Table.Stocked.listen {t t' : Table} {p : Port} (h : t.Stocked)
    (hl : t'.listening = t.listening.insert p ())
    (hb : ∀ q, p ≠ q → t'.backlog.get? q = t.backlog.get? q) : t'.Stocked := by
  intro q hq
  by_cases hpq : p = q
  · subst hpq
    exact .inl (by simp [hl, SortedMap.contains])
  · rw [SortedMap.contains, hb q hpq] at hq
    rw [hl, Table.pending, hb q hpq, SortedMap.contains, SortedMap.get?_insert_of_ne _ _ hpq]
    exact h q hq

namespace Host

variable {h h' h'' : Host}

structure Restocks (h h' : Host) : Prop where
  stocked : h.table.Stocked → h'.table.Stocked
  listening : h'.table.listening = h.table.listening

theorem Restocks.trans (a : Restocks h h') (b : Restocks h' h'') : Restocks h h'' :=
  ⟨b.stocked ∘ a.stocked, b.listening.trans a.listening⟩

theorem Touches.restocks {k : SocketPair} {timer : Prop} (t : Touches k timer h h') :
    Restocks h h' := by
  induction t with
  | trans _ _ ih ih' => exact ih.trans ih'
  | knock h _ => exact ⟨fun hs => hs.pushPending _, rfl⟩
  | aside ht => exact ⟨ht ▸ id, congrArg Table.listening ht⟩
  | _ => exact ⟨id, rfl⟩

theorem Proceeds.restocks (p : Proceeds h h') : Restocks h h' := by
  induction p with
  | touches t => exact t.restocks
  | aside ht => exact ⟨ht ▸ id, congrArg Table.listening ht⟩
  | trans _ _ ih ih' => exact ih.trans ih'

end Host

namespace Station

variable {s : Station} {op : Op} {ops : List Op} {p : Port} {k : SocketPair}

theorem nextPending_backlog (t : Table) (p : Port) (n : Nat) :
    (nextPending t p n).1.listening = t.listening ∧
      ∀ q, p ≠ q → (nextPending t p n).1.backlog.get? q = t.backlog.get? q := by
  induction n generalizing t with
  | zero => exact ⟨rfl, fun _ _ => rfl⟩
  | succ n ih =>
    cases hp : t.pending p with
    | nil =>
      rw [nextPending, t.popPending_eq_none hp]
      exact ⟨rfl, fun _ _ => rfl⟩
    | cons x rest =>
      have hrest (q : Port) (hq : p ≠ q) : (t.backlog.insert p rest).get? q = t.backlog.get? q :=
        t.backlog.get?_insert_of_ne rest hq
      rw [nextPending, t.popPending_eq_some hp]
      simp only
      split
      · exact ⟨rfl, hrest⟩
      · obtain ⟨hl, hb⟩ := ih { t with backlog := t.backlog.insert p rest }
        exact ⟨hl, fun q hq => (hb q hq).trans (hrest q hq)⟩

theorem restocks_accept (hp : validPort p = true) : Host.Restocks
    { s.host with table := (nextPending (s.host.table.listen p) p (s.host.table.pending p).length).1 }
    (s.accept p).1.host := by
  unfold accept
  rw [hp]
  simp only [Bool.not_true, Bool.false_eq_true, if_false, Table.pending_listen]
  split
  · rename_i hnext
    rw [hnext]
    exact ⟨id, rfl⟩
  · rename_i table syn hnext
    rw [hnext]
    have happly := (Host.touches_apply { s.host with table } syn.receiverPair .accept (some syn) {}
      (by simp)).restocks
    split
    · rename_i heq
      rwa [heq] at happly
    · rename_i heq
      rw [heq] at happly
      exact happly.trans ⟨id, rfl⟩

theorem stocked_accept (h : s.host.table.Stocked) (hp : validPort p = true) :
    (s.accept p).1.host.table.Stocked ∧
      (s.accept p).1.host.table.listening = s.host.table.listening.insert p () := by
  obtain ⟨hl, hb⟩ := nextPending_backlog (s.host.table.listen p) p (s.host.table.pending p).length
  have hrest := restocks_accept (s := s) hp
  exact ⟨hrest.stocked (h.listen hl hb), hrest.listening.trans hl⟩

theorem stocked_step (h : s.host.table.Stocked) (op : Op) : (s.step op).1.host.table.Stocked := by
  by_cases hop : ∃ p, op = .call (.accept p)
  · obtain ⟨p, rfl⟩ := hop
    cases hp : validPort p with
    | true => exact (stocked_accept h hp).1
    | false =>
      simp only [step, call, accept, hp]
      exact h
  · exact (proceeds_step fun p hp => hop ⟨p, hp⟩).restocks.stocked h

theorem listening_step (h : s.host.table.Stocked) (hp : validPort p = true) (op : Op) :
    (s.step op).1.host.table.listening.contains p = true ↔
      s.host.table.listening.contains p = true ∨ op = .call (.accept p) := by
  by_cases hop : ∃ q, op = .call (.accept q)
  · obtain ⟨q, rfl⟩ := hop
    by_cases hq : q = p
    · subst hq
      rw [step, call, (stocked_accept h hp).2]
      simp [SortedMap.contains]
    · cases hv : validPort q with
      | true =>
        rw [step, call, (stocked_accept h hv).2, SortedMap.contains,
          SortedMap.get?_insert_of_ne _ _ hq]
        simp [SortedMap.contains, hq]
      | false => simp [step, call, accept, hv, hq]
  · have hop (q : Port) : op ≠ .call (.accept q) := fun hq => hop ⟨q, hq⟩
    rw [(proceeds_step hop).restocks.listening]
    simp [hop p]

theorem stocked_run (h : s.host.table.Stocked) (ops : List Op) :
    (s.run ops).host.table.Stocked := by
  induction ops generalizing s with
  | nil => exact h
  | cons op rest ih => exact ih (stocked_step h op)

theorem listening_run (h : s.host.table.Stocked) (hp : validPort p = true) (ops : List Op) :
    (s.run ops).host.table.listening.contains p = true ↔
      s.host.table.listening.contains p = true ∨ .call (.accept p) ∈ ops := by
  induction ops generalizing s with
  | nil => simp [run]
  | cons op rest ih =>
    rw [show s.run (op :: rest) = (s.step op).1.run rest from rfl, ih (stocked_step h op),
      listening_step h hp, List.mem_cons, or_assoc, eq_comm (a := op)]

/-- The application has never accepted on the port, and no connection has it as its near port. -/
def Free (s : Station) (ops : List Op) (p : Port) : Prop :=
  (∀ k, s.host.table.get? k ≠ none → k.near.port ≠ p) ∧ .call (.accept p) ∉ ops

theorem inUse_eq_false_iff (hback : s.Backlog) (hstock : s.host.table.Stocked)
    (hlisten : s.host.table.listening.contains p = true ↔ .call (.accept p) ∈ ops) :
    s.host.table.inUse p = false ↔ s.Free ops p := by
  have hentry : s.host.table.connections.keys.any (fun k => k.near.port = p) = false ↔
      ∀ k, s.host.table.get? k ≠ none → k.near.port ≠ p := by
    simp [List.any_eq_false, SortedMap.mem_keys_iff, Table.get?, Option.ne_none_iff_exists']
  rw [Table.inUse, Bool.or_eq_false_iff, Bool.or_eq_false_iff, hentry, ← Bool.not_eq_true _,
    hlisten, Free]
  refine ⟨fun h => h.1, fun h => ⟨h, ?_⟩⟩
  -- A port that only SYNs have made known has a connection that is not accepted yet.
  rw [← Bool.not_eq_true]
  intro hstash
  rcases hstock p hstash with hl | hpending
  · exact h.2 (hlisten.1 hl)
  · obtain ⟨x, hx⟩ := List.exists_mem_of_ne_nil _ hpending
    have hphase := hback.phase_of_pending hx
    refine h.1 x.receiverPair (fun hn => ?_) (hback.port p x hx)
    rw [Table.phase_of_none hn] at hphase
    cases hphase

structure StartsClean (s : Station) (farHost : HostId) (farPort port : Port) : Prop where
  result : (s.connect farHost farPort).2 = .ok s.host.issued
  fresh : s.host.table.get? ⟨⟨farHost, farPort⟩, ⟨s.address, port⟩⟩ = none ∧
    s.host.outbox.windows.get? ⟨⟨farHost, farPort⟩, ⟨s.address, port⟩⟩ = none
  entry : (s.connect farHost farPort).1.host.table.get?
    ⟨⟨farHost, farPort⟩, ⟨s.address, port⟩⟩ =
      some { phase := .synSent, expected := 0, waiter := some s.host.issued }
  window : (s.connect farHost farPort).1.host.outbox.windows.get?
    ⟨⟨farHost, farPort⟩, ⟨s.address, port⟩⟩ = some { next := 1, pending :=
      [{ Segment.control ⟨⟨farHost, farPort⟩, ⟨s.address, port⟩⟩ .syn with seq := 0 }] }

theorem connect_on (farHost : HostId) {farPort port : Port} (hfar : validPort farPort = true)
    (hport : s.host.table.freePort? = some port) (hk : k = ⟨⟨farHost, farPort⟩, ⟨s.address, port⟩⟩) :
    (s.connect farHost farPort).2 = .ok s.host.issued ∧
      (s.connect farHost farPort).1.host.side k = ((s.host.side k).enter
        { phase := .synSent, waiter := some s.host.issued }).push (.control k .syn) := by
  have hgone : s.host.table.get? k = none := Table.get?_of_freePort hport (by rw [hk])
  obtain ⟨hside, hresult⟩ := s.host.apply_connect hgone
  simp only [connect, hfar, hport, Bool.not_true, Bool.false_eq_true, if_false, ← hk]
  rw [← Prod.eta ((s.host.await k).1.apply k .connect none {}), hresult]
  exact ⟨rfl, hside⟩

theorem startsClean (hsend : ∀ k, s.SendState k) {farHost : HostId} {farPort port : Port}
    (hfar : validPort farPort = true) (hport : s.host.table.freePort? = some port) :
    s.StartsClean farHost farPort port := by
  generalize hk : (⟨⟨farHost, farPort⟩, ⟨s.address, port⟩⟩ : SocketPair) = k
  have hgone : s.host.table.get? k = none := Table.get?_of_freePort hport (by rw [← hk])
  obtain ⟨hwindow, -⟩ := (hsend k).idle fun c hc => absurd (hgone.symm.trans hc) nofun
  obtain ⟨hresult, hside⟩ := connect_on farHost hfar hport hk.symm
  have hwin : (s.host.side k).win = {} := by
    rw [Side.win, show (s.host.side k).window = none from hwindow]
    rfl
  constructor
  case result => exact hresult
  case fresh => exact hk ▸ ⟨hgone, hwindow⟩
  case entry => exact hk ▸ congrArg Side.entry hside
  case window =>
    rw [hk]
    refine (congrArg Side.window hside).trans ?_
    rw [Side.push, show ((s.host.side k).enter _).win = (s.host.side k).win from rfl, hwin]
    rfl

/-- How `connect` chooses a port, and what it makes of it. -/
structure Allocates (s : Station) (ops : List Op) : Prop where
  lowest : ∀ p, s.host.table.freePort? = some p ↔
    validPort p = true ∧ s.Free ops p ∧ ∀ q, q < p → ¬s.Free ops q
  exhausted : s.host.table.freePort? = none ↔ ∀ p, validPort p = true → ¬s.Free ops p
  refused : s.host.table.freePort? = none → ∀ farHost farPort, validPort farPort = true →
    (s.connect farHost farPort).2 = .error .noFreePort
  clean : ∀ p, s.host.table.freePort? = some p → ∀ farHost farPort, validPort farPort = true →
    s.StartsClean farHost farPort p

/-- In every run in which a failed `connect` cleans up at once, a call of `connect` gets the lowest
port that no connection has and on which the application has never accepted, and with it a new
connection. -/
theorem connect_starts_clean (address : HostId) (recvWindow sendWindow patience : Nat)
    (ops : List Op) (hops : (fresh address recvWindow sendWindow patience).cleanly ops = true) :
    ((fresh address recvWindow sendWindow patience).run ops).Allocates ops := by
  have hback := ((tallied_fresh address recvWindow sendWindow patience).run hops).backlog
  have hstocked : (fresh address recvWindow sendWindow patience).host.table.Stocked := nofun
  have hstock := stocked_run hstocked ops
  have hsend := ((orderly_fresh address recvWindow sendWindow patience).run ops).sendState
  have hfree {p : Port} (hp : validPort p = true) : _ ↔ Free _ ops p :=
    inUse_eq_false_iff hback hstock
      ((listening_run hstocked hp ops).trans (or_iff_right nofun))
  generalize (fresh address recvWindow sendWindow patience).run ops = s at *
  constructor
  case lowest =>
    intro p
    rw [Table.freePort?_eq_some]
    refine and_congr_right fun hp => and_congr (hfree hp) (forall₂_congr fun q hq => ?_)
    rw [← hfree (Table.valid_of_lt hq hp), Bool.not_eq_false]
  case exhausted =>
    rw [Table.freePort?_eq_none]
    refine forall₂_congr fun p hp => ?_
    rw [← hfree hp, Bool.not_eq_false]
  case refused => exact fun hnone farHost farPort hfar => by simp [connect, hfar, hnone]
  case clean => exact fun p hp farHost farPort hfar => startsClean hsend hfar hp

def threePorts : List Op :=
  [.call (.accept 0), .receive (.control ⟨⟨2, 1⟩, ⟨1, 7⟩⟩ .syn), .call (.connect 1 8)]

theorem connect_starts_clean_threePorts : (fresh 2 4 4 4).cleanly threePorts = true ∧
    ((fresh 2 4 4 4).run threePorts).Allocates threePorts ∧
    ((fresh 2 4 4 4).run threePorts).StartsClean 5 6 3 := by
  have hops : (fresh 2 4 4 4).cleanly threePorts = true := by decide +kernel
  have h := connect_starts_clean 2 4 4 4 threePorts hops
  exact ⟨hops, h, h.clean 3 (by decide +kernel) 5 6 (by decide)⟩

end Station

end ReliableStream
