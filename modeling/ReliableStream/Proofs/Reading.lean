import ReliableStream.Proofs.Motion
import ReliableStream.Table.Op

namespace ReliableStream.Table

variable {t : Table} {k j : SocketPair} {c : Connection} {s : Segment} {op : Op} {ops : List Op}

def unread (t : Table) (k : SocketPair) : List Segment := (t.get k).unread

theorem unread_of_some (hc : t.get? k = some c) : t.unread k = c.unread := by
  rw [unread, get_of_some hc]

theorem unread_of_none (hc : t.get? k = none) : t.unread k = [] := by
  rw [unread, get, hc]
  rfl

theorem unread_congr {t' : Table} (h : t'.get? k = t.get? k) : t'.unread k = t.unread k := by
  rw [unread, get, h, unread, get]

@[simp] theorem unread_put_self (t : Table) (k : SocketPair) (c : Connection) :
    (t.put k c).unread k = c.unread := unread_of_some (t.get?_put_self k c)

theorem unread_put (hc : c.unread = t.unread j) : (t.put j c).unread k = t.unread k := by
  by_cases hj : j = k
  · subst hj
    rw [unread_put_self, hc]
  · exact unread_congr (t.get?_put_of_ne c hj)

theorem unread_adjust {f : Connection → Connection} (hf : ∀ c, (f c).unread = c.unread) :
    (t.adjust j f).unread k = t.unread k := by
  cases hc : t.get? j with
  | none => rw [adjust_of_none hc]
  | some c =>
    rw [adjust_of_some hc]
    exact unread_put ((hf c).trans (unread_of_some hc).symm)

theorem unread_reap (t : Table) (j k : SocketPair) : (t.reap j).unread k = t.unread k := by
  by_cases hj : j = k
  · subst hj
    cases hc : t.get? j with
    | none => rw [reap_of_needed (by simp [hc])]
    | some c =>
      cases hi : c.isIdle with
      | false => exact congrArg (unread · j) (reap_of_needed (by simp [hc, hi]))
      | true =>
        have hu : c.unread = [] := by
          simp only [Connection.isIdle, Bool.and_eq_true, List.isEmpty_iff] at hi
          exact hi.1.2
        rw [unread_of_some hc, hu, unread_of_none]
        simp [hc, hi, Option.filter]
  · exact unread_congr (t.get?_reap_of_ne hj)

theorem unread_deliver_of_ne (hj : j ≠ k) (s : Segment) :
    (t.deliver j s).unread k = t.unread k := by
  unfold deliver ensure
  split <;> exact unread_congr (t.get?_put_of_ne _ hj)

theorem unread_deliver_self (t : Table) (k : SocketPair) (s : Segment) :
    (t.deliver k s).unread k = if t.hasRoom k then t.unread k ++ [s] else t.unread k := by
  unfold deliver ensure
  split
  · exact unread_put_self t k _
  · exact unread_put_self t k _

structure Reads (buffer : List UInt8) (filled : Filled) (before after : List Segment) : Prop where
  count_le : filled.count ≤ buffer.length
  length_eq : filled.buffer.length = buffer.length
  rest_eq : filled.buffer.drop filled.count = buffer.drop filled.count
  bytes_eq : filled.buffer.take filled.count ++ bytes after = bytes before
  shorter : after.length ≤ before.length

theorem reads_nothing (buffer : List UInt8) (l : List Segment) : Reads buffer ⟨0, buffer⟩ l l where
  count_le := Nat.zero_le _
  length_eq := rfl
  rest_eq := rfl
  bytes_eq := rfl
  shorter := Nat.le_refl _

theorem reads_oldest (buffer : List UInt8) (s : Segment) (rest : List Segment) {n : Nat}
    (hn : n = min buffer.length s.payload.length) :
    Reads buffer ⟨n, s.payload.take n ++ buffer.drop n⟩ (s :: rest)
      (if n < s.payload.length then s.dropPayload n :: rest else rest) := by
  have hlength : (s.payload.take n).length = n := by
    rw [List.length_take]
    omega
  refine ⟨hn ▸ Nat.min_le_left _ _, ?_, List.drop_left' hlength, ?_, ?_⟩
  · rw [List.length_append, hlength, List.length_drop]
    omega
  · rw [List.take_left' hlength]
    split
    · simp [Segment.dropPayload, ← List.append_assoc]
    · rename_i hall
      rw [List.take_of_length_le (Nat.le_of_not_lt hall)]
      rfl
  · split <;> simp

theorem read_cases (t : Table) (k : SocketPair) (buffer : List UInt8) :
    (t.unread k = [] ∧ t.read k buffer = (t.reap k, .error .connectionClosed)) ∨
    (t.unread k = [] ∧ t.read k buffer = (t, .ok ⟨0, buffer⟩)) ∨
    ∃ c s rest n, t.get? k = some c ∧ c.unread = s :: rest ∧
      n = min buffer.length s.payload.length ∧ t.read k buffer =
        ((t.put k { c with
            unread := if n < s.payload.length then s.dropPayload n :: rest else rest }).reap k,
          .ok ⟨n, s.payload.take n ++ buffer.drop n⟩) := by
  unfold read
  cases hc : t.get? k with
  | none => exact .inl ⟨unread_of_none hc, by rw [reap_of_needed (by simp [hc])]⟩
  | some c =>
    cases hu : c.unread with
    | nil =>
      have hnil : t.unread k = [] := (unread_of_some hc).trans hu
      by_cases hp : c.phase = .closed
      · exact .inl ⟨hnil, by simp [hu, hp]⟩
      · exact .inr (.inl ⟨hnil, by simp [hu, hp]⟩)
    | cons s rest => exact .inr (.inr ⟨c, s, rest, _, rfl, hu, rfl, by simp only [hu]⟩)

theorem reads_of_read {buffer : List UInt8} {filled : Filled}
    (h : (t.read k buffer).2 = .ok filled) :
    Reads buffer filled (t.unread k) ((t.read k buffer).1.unread k) := by
  rcases t.read_cases k buffer with ⟨-, heq⟩ | ⟨-, heq⟩ | ⟨c, s, rest, n, hc, hu, hn, heq⟩
  · rw [heq] at h
    cases h
  · rw [heq] at h ⊢
    cases h
    exact reads_nothing buffer _
  · rw [heq] at h ⊢
    cases h
    rw [unread_reap, unread_put_self, unread_of_some hc, hu]
    exact reads_oldest buffer s rest hn

theorem unread_of_read_error {buffer : List UInt8} {fault : CallFault}
    (h : (t.read k buffer).2 = .error fault) :
    t.unread k = [] ∧ (t.read k buffer).1.unread k = [] := by
  rcases t.read_cases k buffer with ⟨hu, heq⟩ | ⟨-, heq⟩ | ⟨_, _, _, _, -, -, -, heq⟩
  · rw [heq, unread_reap]
    exact ⟨hu, hu⟩
  · rw [heq] at h
    cases h
  · rw [heq] at h
    cases h

theorem unread_read_of_ne (hj : j ≠ k) (buffer : List UInt8) :
    (t.read j buffer).1.unread k = t.unread k := by
  rcases t.read_cases j buffer with ⟨-, heq⟩ | ⟨-, heq⟩ | ⟨_, _, _, _, -, -, -, heq⟩
  · rw [heq, unread_reap]
  · rw [heq]
  · rw [heq, unread_reap]
    exact unread_congr (t.get?_put_of_ne _ hj)

structure Conserves (t : Table) (k : SocketPair) (op : Op) : Prop where
  bytes_eq : op.took k (t.step op).2 ++ bytes ((t.step op).1.unread k) =
    bytes (t.unread k) ++ bytes (op.kept k (t.step op).2)
  bounded : (t.unread k).length ≤ t.capacity → ((t.step op).1.unread k).length ≤ t.capacity

theorem capacity_step (t : Table) (op : Op) : (t.step op).1.capacity = t.capacity := by
  cases op with
  | deliver j s =>
    simp only [step, deliver]
    split <;> rfl
  | read j buffer =>
    simp only [step]
    rcases t.read_cases j buffer with ⟨-, heq⟩ | ⟨-, heq⟩ | ⟨_, _, _, _, -, -, -, heq⟩
    · rw [heq, capacity_reap]
    · rw [heq]
    · rw [heq, capacity_reap]
      rfl
  | reap j => exact t.capacity_reap
  | popPending p => exact t.capacity_popPending p
  | remove | restart | advance | set | pushPending | listen => rfl

theorem conserves_of_unread (ht : op.took k (t.step op).2 = []) (hk : op.kept k (t.step op).2 = [])
    (hu : (t.step op).1.unread k = t.unread k) : t.Conserves k op := by
  constructor
  · rw [ht, hk, hu, bytes_nil, List.nil_append, List.append_nil]
  · rw [hu]
    exact id

theorem conserves_deliver (t : Table) (k : SocketPair) (s : Segment) :
    t.Conserves k (.deliver k s) := by
  cases hroom : t.hasRoom k with
  | false =>
    refine conserves_of_unread rfl ?_ ?_
    · simp only [step, hroom]
      rfl
    · simp [step, unread_deliver_self, hroom]
  | true =>
    have hlt : (t.unread k).length < t.capacity := by
      simpa [hasRoom, unread] using hroom
    constructor
    · simp [step, unread_deliver_self, hroom, Op.took, Op.kept]
    · intro _
      simp only [step, unread_deliver_self, hroom, if_true, List.length_append,
        List.length_singleton]
      omega

theorem conserves_read (t : Table) (k : SocketPair) (buffer : List UInt8) :
    t.Conserves k (.read k buffer) := by
  cases hr : (t.read k buffer).2 with
  | error fault =>
    obtain ⟨hu, hu'⟩ := unread_of_read_error hr
    refine conserves_of_unread ?_ rfl (hu'.trans hu.symm)
    simp only [step, hr]
    rfl
  | ok filled =>
    have hreads := reads_of_read hr
    constructor
    · simp only [step, hr, Op.took, Op.kept, if_true, bytes_nil, List.append_nil]
      exact hreads.bytes_eq
    · exact fun hle => Nat.le_trans hreads.shorter hle

theorem conserves_step (t : Table) (hop : op ≠ .remove k) : t.Conserves k op := by
  cases op with
  | deliver j s =>
    by_cases hj : j = k
    · exact hj ▸ conserves_deliver t j s
    · refine conserves_of_unread rfl ?_ (unread_deliver_of_ne hj s)
      simp only [step]
      cases t.hasRoom j <;> simp [Op.kept, hj]
  | read j buffer =>
    by_cases hj : j = k
    · exact hj ▸ conserves_read t j buffer
    · refine conserves_of_unread ?_ rfl (unread_read_of_ne hj buffer)
      simp only [step]
      cases (t.read j buffer).2 <;> simp [Op.took, hj]
  | reap j => exact conserves_of_unread rfl rfl (unread_reap t j k)
  | remove j =>
    have hj : j ≠ k := fun hj => hop (by rw [hj])
    exact conserves_of_unread rfl rfl (unread_congr (t.get?_remove_of_ne hj))
  | restart j => exact conserves_of_unread rfl rfl (unread_adjust fun _ => rfl)
  | advance j seq => exact conserves_of_unread rfl rfl (unread_adjust fun _ => rfl)
  | set j phase expected waiter closingTicks => exact conserves_of_unread rfl rfl (unread_put rfl)
  | pushPending s => exact conserves_of_unread rfl rfl rfl
  | popPending p => exact conserves_of_unread rfl rfl (unread_congr (t.get?_popPending p k))
  | listen p => exact conserves_of_unread rfl rfl rfl

theorem capacity_run (t : Table) (ops : List Op) : (t.run ops).capacity = t.capacity := by
  induction ops generalizing t with
  | nil => rfl
  | cons op rest ih => exact (ih (t.step op).1).trans (t.capacity_step op)

theorem bytes_run (t : Table) (hops : .remove k ∉ ops) :
    t.taken k ops ++ bytes ((t.run ops).unread k) =
      bytes (t.unread k) ++ bytes (t.kept k ops) := by
  induction ops generalizing t with
  | nil => simp [taken, kept, history, run]
  | cons op rest ih =>
    obtain ⟨hop, hrest⟩ := not_or.1 (mt List.mem_cons.2 hops)
    have hstep := (t.conserves_step (Ne.symm hop)).bytes_eq
    calc t.taken k (op :: rest) ++ bytes ((t.run (op :: rest)).unread k)
      _ = op.took k (t.step op).2 ++ ((t.step op).1.taken k rest ++
            bytes (((t.step op).1.run rest).unread k)) := by
          rw [← List.append_assoc]
          rfl
      _ = op.took k (t.step op).2 ++ bytes ((t.step op).1.unread k) ++
            bytes ((t.step op).1.kept k rest) := by
          rw [ih _ hrest, List.append_assoc]
      _ = bytes (t.unread k) ++ bytes (op.kept k (t.step op).2 ++ (t.step op).1.kept k rest) := by
          rw [hstep, bytes_append, List.append_assoc]
      _ = bytes (t.unread k) ++ bytes (t.kept k (op :: rest)) := rfl

theorem bounded_run (t : Table) (hops : .remove k ∉ ops)
    (h : (t.unread k).length ≤ t.capacity) : ((t.run ops).unread k).length ≤ t.capacity := by
  induction ops generalizing t with
  | nil => exact h
  | cons op rest ih =>
    obtain ⟨hop, hrest⟩ := not_or.1 (mt List.mem_cons.2 hops)
    have hcapacity := t.capacity_step op
    rw [← hcapacity]
    refine ih _ hrest ?_
    rw [hcapacity]
    exact (t.conserves_step (Ne.symm hop)).bounded h

/-- The unread data of a connection as a stream of bytes. -/
structure Stream (t : Table) (k : SocketPair) (ops : List Op) : Prop where
  bytes_eq : t.taken k ops ++ bytes ((t.run ops).unread k) =
    bytes (t.unread k) ++ bytes (t.kept k ops)
  bounded : (t.unread k).length ≤ t.capacity → ((t.run ops).unread k).length ≤ t.capacity
  filled : ∀ buffer filled, ((t.run ops).read k buffer).2 = .ok filled →
    filled.count ≤ buffer.length ∧ filled.buffer.length = buffer.length ∧
      filled.buffer.drop filled.count = buffer.drop filled.count
  failed : ∀ buffer fault, ((t.run ops).read k buffer).2 = .error fault →
    (t.run ops).unread k = []
  refused : ∀ s, ((t.run ops).step (.deliver k s)).2 = .delivered false →
    ((t.run ops).get? k ≠ none → ((t.run ops).step (.deliver k s)).1 = t.run ops) ∧
      ((t.run ops).get? k = none →
        t.capacity = 0 ∧ ((t.run ops).step (.deliver k s)).1 = (t.run ops).put k {})

theorem deliver_refused (h : (t.step (.deliver k s)).2 = .delivered false) :
    (t.get? k ≠ none → (t.step (.deliver k s)).1 = t) ∧
      (t.get? k = none → t.capacity = 0 ∧ (t.step (.deliver k s)).1 = t.put k {}) := by
  have hroom : t.hasRoom k = false := Reply.delivered.inj h
  have hensure : (t.step (.deliver k s)).1 = t.ensure k := by
    simp [step, deliver, hroom]
  refine ⟨fun hne => ?_, fun hc => ?_⟩
  · obtain ⟨c, hc⟩ := Option.ne_none_iff_exists'.1 hne
    rw [hensure, t.ensure_of_some hc]
  · have hfull : t.capacity ≤ (t.unread k).length := by
      simpa [hasRoom, unread] using hroom
    rw [unread_of_none hc] at hfull
    refine ⟨Nat.le_zero.1 hfull, ?_⟩
    rw [hensure, ensure, get, hc]
    rfl

/-- While the entry of a connection is not removed, what is read of it and then unread is what was
unread and what has been kept, byte by byte. -/
theorem unread_is_stream (t : Table) (k : SocketPair) (ops : List Op) (hops : .remove k ∉ ops) :
    t.Stream k ops where
  bytes_eq := t.bytes_run hops
  bounded := t.bounded_run hops
  filled buffer filled h :=
    have hreads := reads_of_read h
    ⟨hreads.count_le, hreads.length_eq, hreads.rest_eq⟩
  failed buffer fault h := (unread_of_read_error h).1
  refused s h := by
    rw [← t.capacity_run ops]
    exact deliver_refused h

def shortReads : List Op :=
  let k : SocketPair := ⟨⟨2, 7⟩, ⟨1, 3⟩⟩
  [.deliver k (.data k.swap [1, 2, 3]), .deliver k (.data k.swap [4, 5]), .read k [0, 0],
    .read k [], .read k (.replicate 8 0), .deliver k (.data k.swap [4, 5]), .read k [0]]

theorem unread_is_stream_shortReads :
    .remove ⟨⟨2, 7⟩, ⟨1, 3⟩⟩ ∉ shortReads ∧
      (Table.empty 1).Stream ⟨⟨2, 7⟩, ⟨1, 3⟩⟩ shortReads ∧
      (Table.empty 1).taken ⟨⟨2, 7⟩, ⟨1, 3⟩⟩ shortReads = [1, 2, 3, 4] := by
  have hops : .remove ⟨⟨2, 7⟩, ⟨1, 3⟩⟩ ∉ shortReads := by decide
  exact ⟨hops, unread_is_stream _ _ _ hops, by decide +kernel⟩

theorem refused_delivery_makes_entry :
    let k : SocketPair := ⟨⟨2, 7⟩, ⟨1, 3⟩⟩
    let s : Segment := .data k.swap [0x61]
    ((Table.empty 0).step (.deliver k s)).2 = .delivered false ∧
      ((Table.empty 0).step (.deliver k s)).1 ≠ Table.empty 0 ∧
      (Table.empty 0).get? k = none ∧
      ((Table.empty 0).step (.deliver k s)).1.get? k = some {} :=
  ⟨rfl, by decide +kernel, rfl, by decide +kernel⟩

end ReliableStream.Table
