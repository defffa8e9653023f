import ReliableStream.Table

namespace ReliableStream

namespace SortedMap

variable {κ α : Type} [Ranked κ] (m : SortedMap κ α) {k : κ}

theorem insert_insert (k : κ) (v w : α) : (m.insert k v).insert k w = m.insert k w := by
  apply ext_get?
  intro j
  by_cases hj : k = j
  · subst hj
    rw [get?_insert_self, get?_insert_self]
  · rw [get?_insert_of_ne _ _ hj, get?_insert_of_ne _ _ hj, get?_insert_of_ne _ _ hj]

theorem erase_insert (h : m.get? k = none) (v : α) : (m.insert k v).erase k = m := by
  apply ext_get?
  intro j
  by_cases hj : k = j
  · subst hj
    rw [get?_erase_self, h]
  · rw [get?_erase_of_ne _ hj, get?_insert_of_ne _ _ hj]

end SortedMap

namespace Table

variable (t : Table) {k j : SocketPair}

@[simp] theorem get?_put_self (k : SocketPair) (c : Connection) : (t.put k c).get? k = some c :=
  t.connections.get?_insert_self k c

theorem get?_put_of_ne (c : Connection) (h : k ≠ j) : (t.put k c).get? j = t.get? j :=
  t.connections.get?_insert_of_ne c h

@[simp] theorem get?_remove_self (k : SocketPair) : (t.remove k).get? k = none :=
  t.connections.get?_erase_self k

theorem get?_remove_of_ne (h : k ≠ j) : (t.remove k).get? j = t.get? j :=
  t.connections.get?_erase_of_ne h

@[simp] theorem get?_adjust_self (k : SocketPair) (f : Connection → Connection) :
    (t.adjust k f).get? k = (t.get? k).map f :=
  t.connections.get?_adjust_self k f

theorem get?_adjust_of_ne (f : Connection → Connection) (h : k ≠ j) :
    (t.adjust k f).get? j = t.get? j :=
  t.connections.get?_adjust_of_ne f h

@[simp] theorem get?_ensure_self (k : SocketPair) : (t.ensure k).get? k = some (t.get k) :=
  t.get?_put_self k _

theorem ensure_of_some {c : Connection} (h : t.get? k = some c) : t.ensure k = t := by
  have hc : t.connections.insert k c = t.connections := SortedMap.insert_of_some h
  simp [ensure, put, get, h, hc]

@[simp] theorem get?_reap_self (k : SocketPair) :
    (t.reap k).get? k = (t.get? k).filter (fun c => !c.isIdle) := by
  unfold reap
  cases h : t.get? k with
  | none => simp [h]
  | some c => cases hc : c.isIdle <;> simp [h, hc, Option.filter]

theorem get?_reap_of_ne (h : k ≠ j) : (t.reap k).get? j = t.get? j := by
  unfold reap
  split
  · exact t.get?_remove_of_ne h
  · rfl

@[simp] theorem get?_restart_self (k : SocketPair) : (t.restart k).get? k =
    (t.get? k).map fun c => { c with expected := 0, closingTicks := 0 } :=
  t.get?_adjust_self k _

@[simp] theorem get?_advance_self (k : SocketPair) (seq : SequenceNumber) :
    (t.advance k seq).get? k = (t.get? k).map fun c => { c with expected := seq + 1 } :=
  t.get?_adjust_self k _

@[simp] theorem get?_pushPending (s : Segment) (k : SocketPair) :
    (t.pushPending s).get? k = t.get? k := rfl

@[simp] theorem get?_popPending (p : Port) (k : SocketPair) :
    (t.popPending p).1.get? k = t.get? k := by
  unfold popPending
  split <;> rfl

theorem phase_eq (k : SocketPair) : t.phase k = (t.get? k).elim .closed Connection.phase := rfl

section Known

variable {t} {c : Connection} (hc : t.get? k = some c)

include hc

theorem get_of_some : t.get k = c := by
  rw [get, hc]
  rfl

theorem phase_of_some : t.phase k = c.phase := by
  rw [phase_eq, hc]
  rfl

theorem put_of_some : t.put k c = t := by
  have := t.ensure_of_some hc
  rwa [ensure, get_of_some hc] at this

theorem adjust_of_some (f : Connection → Connection) : t.adjust k f = t.put k (f c) := by
  have hc' : t.connections.get? k = some c := hc
  simp [adjust, put, SortedMap.adjust, hc']

end Known

theorem phase_of_none {t : Table} (hc : t.get? k = none) : t.phase k = .closed := by
  rw [phase_eq, hc]
  rfl

theorem adjust_of_none {t : Table} (hc : t.get? k = none) (f : Connection → Connection) :
    t.adjust k f = t := by
  have hc' : t.connections.get? k = none := hc
  simp [adjust, SortedMap.adjust, hc']

theorem remove_put_of_none {t : Table} (hc : t.get? k = none) (c : Connection) :
    (t.put k c).remove k = t := by
  simp [put, remove, t.connections.erase_insert hc]

theorem put_put (k : SocketPair) (c c' : Connection) : (t.put k c).put k c' = t.put k c' := by
  simp [put, SortedMap.insert_insert]

theorem reap_of_needed {t : Table} {k : SocketPair}
    (h : ∀ c, t.get? k = some c → c.isIdle = false) : t.reap k = t := by
  unfold reap
  cases hc : t.get? k with
  | none => rfl
  | some c => simp [h c hc]

theorem reap_of_open {t : Table} {k : SocketPair} {c : Connection} (hc : t.get? k = some c)
    (hp : c.phase ≠ .closed) : t.reap k = t :=
  reap_of_needed fun c' hc' => by
    obtain rfl := Option.some.inj (hc.symm.trans hc')
    simp [Connection.isIdle, hp]

theorem phase_restart (k : SocketPair) : (t.restart k).phase k = t.phase k := by
  rw [phase_eq, phase_eq, get?_restart_self]
  cases t.get? k <;> rfl

@[simp] theorem pending_put (c : Connection) (p : Port) : (t.put k c).pending p = t.pending p := rfl

@[simp] theorem pending_remove (p : Port) : (t.remove k).pending p = t.pending p := rfl

@[simp] theorem pending_adjust (f : Connection → Connection) (p : Port) :
    (t.adjust k f).pending p = t.pending p := rfl

@[simp] theorem pending_restart (p : Port) : (t.restart k).pending p = t.pending p := rfl

@[simp] theorem pending_advance (seq : SequenceNumber) (p : Port) :
    (t.advance k seq).pending p = t.pending p := rfl

@[simp] theorem pending_listen (q p : Port) : (t.listen q).pending p = t.pending p := rfl

@[simp] theorem pending_reap (p : Port) : (t.reap k).pending p = t.pending p := by
  unfold reap
  split <;> rfl

theorem pending_pushPending_self (s : Segment) :
    (t.pushPending s).pending s.dest.port = t.pending s.dest.port ++ [s] := by
  simp [pending, pushPending]

theorem pending_pushPending_of_ne (s : Segment) {p : Port} (h : s.dest.port ≠ p) :
    (t.pushPending s).pending p = t.pending p := by
  simp [pending, pushPending, SortedMap.get?_insert_of_ne _ _ h]

theorem popPending_eq_none {p : Port} (h : t.pending p = []) : t.popPending p = (t, none) := by
  simp [popPending, h]

theorem popPending_eq_some {p : Port} {s : Segment} {rest : List Segment}
    (h : t.pending p = s :: rest) :
    t.popPending p = ({ t with backlog := t.backlog.insert p rest }, some s) := by
  simp [popPending, h]

def Filed : Prop := ∀ p, ∀ s ∈ t.pending p, s.dest.port = p

variable {t}

theorem filed_empty (capacity : Nat) : (Table.empty capacity).Filed := by
  intro p s hs
  cases hs

theorem Filed.pushPending (h : t.Filed) (s : Segment) : (t.pushPending s).Filed := by
  intro p x hx
  by_cases hp : s.dest.port = p
  · subst hp
    rw [pending_pushPending_self] at hx
    rcases List.mem_append.1 hx with hx | hx
    · exact h _ x hx
    · rw [List.mem_singleton.1 hx]
  · rw [pending_pushPending_of_ne _ _ hp] at hx
    exact h p x hx

variable (t)

theorem mem_usablePorts {p : Port} : p ∈ usablePorts ↔ validPort p = true := by
  rw [validPort, decide_eq_true_eq, UInt8.le_iff_toNat_le]
  constructor
  · intro hp
    obtain ⟨n, hn, rfl⟩ := List.mem_map.1 hp
    have hn : n < 128 := List.mem_range.1 hn
    rw [UInt8.toNat_ofNat_of_lt' (Nat.lt_trans hn (by decide))]
    exact Nat.le_of_lt_succ hn
  · intro hp
    exact List.mem_map.2 ⟨p.toNat, List.mem_range.2 (Nat.lt_succ_of_le hp), UInt8.ofNat_toNat⟩

variable {t} in
theorem validPort_of_freePort {p : Port} (h : t.freePort? = some p) : validPort p = true :=
  mem_usablePorts.1 (List.mem_of_find?_eq_some h)

@[simp] theorem capacity_reap : (t.reap k).capacity = t.capacity := by
  unfold reap
  split <;> rfl

@[simp] theorem capacity_popPending (p : Port) : (t.popPending p).1.capacity = t.capacity := by
  unfold popPending
  split <;> rfl

end Table

end ReliableStream
