import ReliableStream.Proofs.Outbox

namespace ReliableStream

namespace Window

variable {w : Window} {limit : Nat} {s : Segment}

theorem mem_admitFrom {u : SortedMap SequenceNumber Segment} {l : List Segment}
    {i : SequenceNumber} (h : (admitFrom limit u l).1.get? i = some s) :
    u.get? i = some s ∨ s ∈ (admitFrom limit u l).2.1 := by
  induction l generalizing u with
  | nil => exact .inl h
  | cons t rest ih =>
    unfold admitFrom at h ⊢
    split at h
    · rename_i hlt
      rw [if_pos hlt]
      rcases ih h with h | h
      · by_cases hi : t.seq = i
        · rw [hi, SortedMap.get?_insert_self, Option.some.injEq] at h
          exact .inr (h ▸ List.mem_cons_self)
        · exact .inl (by rwa [SortedMap.get?_insert_of_ne _ _ hi] at h)
      · exact .inr (List.mem_cons_of_mem _ h)
    · exact .inl h

theorem unacked_advance {i : SequenceNumber} (h : (w.advance limit).unacked.get? i = some s) :
    w.unacked.get? i = some s ∨ s ∈ w.admitted limit :=
  mem_admitFrom h

theorem admitted_sublist (limit : Nat) (w : Window) : (w.admitted limit).Sublist w.pending := by
  rw [← admitted_append limit w]
  exact List.sublist_append_left _ _

theorem not_mem_advance (hw : w.pending.Pairwise fun s t => s.seq ≠ t.seq)
    (hs : s ∈ w.admitted limit) : s ∉ (w.advance limit).pending := by
  rw [← admitted_append limit w] at hw
  exact fun hp => (List.pairwise_append.1 hw).2.2 s hs s hp rfl

theorem kept_advance (hw : w.pending.Pairwise fun s t => s.seq ≠ t.seq)
    (hs : s ∈ w.pending ∨ w.unacked.get? s.seq = some s ∧ ∀ t ∈ w.pending, t.seq ≠ s.seq) :
    s ∈ (w.advance limit).pending ∨ (w.advance limit).unacked.get? s.seq = some s := by
  rcases hs with hs | ⟨hs, hne⟩
  · rw [← admitted_append limit w] at hs
    exact (List.mem_append.1 hs).symm.imp id (get?_admitFrom_of_mem hw)
  · exact .inr ((get?_admitFrom_of_ne hne).trans hs)

theorem eq_of_isDrained (h : w.isDrained = true) : w.pending = [] ∧ w.unacked = {} := by
  simp only [isDrained, Bool.and_eq_true, List.isEmpty_iff, SortedMap.isEmpty] at h
  exact ⟨h.1, SortedMap.ext_entries h.2⟩

structure Fresh (u : SortedMap SequenceNumber Segment) (l : List Segment) : Prop where
  absent : ∀ s ∈ l, s.seq ∉ u.keys
  distinct : (l.map Segment.seq).Nodup

theorem Fresh.insert {u : SortedMap SequenceNumber Segment} {l : List Segment}
    (h : Fresh u (s :: l)) : Fresh (u.insert s.seq s) l := by
  obtain ⟨hs, hl⟩ := List.forall_mem_cons.1 h.absent
  obtain ⟨hne, hnodup⟩ := List.nodup_cons.1 h.distinct
  refine ⟨fun x hx hmem => ?_, hnodup⟩
  rcases List.mem_cons.1 ((SortedMap.keys_insert s hs).mem_iff.1 hmem) with heq | hmem
  · exact hne (List.mem_map.2 ⟨x, hx, heq⟩)
  · exact hl x hx hmem

theorem keys_admitFrom {limit : Nat} {u : SortedMap SequenceNumber Segment} {l : List Segment}
    (h : Fresh u l) : (admitFrom limit u l).1.keys.Perm
      (u.keys ++ (admitFrom limit u l).2.1.map Segment.seq) := by
  induction l generalizing u with
  | nil => simp [admitFrom]
  | cons s rest ih =>
    have hins := SortedMap.keys_insert s (h.absent s List.mem_cons_self)
    unfold admitFrom
    split
    · exact (ih h.insert).trans ((hins.append_right _).trans List.perm_middle.symm)
    · simp

/-- A window has numbered the segments from 0 on, and what waits is the last of them. -/
structure Counts (w : Window) (log : List Segment) : Prop where
  next : w.next = UInt32.ofNat log.length
  pending : w.pending <:+ log
  numbered : ∀ (i : Nat) (s : Segment), log[i]? = some s → s.seq = UInt32.ofNat i

namespace Counts

variable {w w' : Window} {log : List Segment}

theorem blank : Counts {} [] := by
  constructor <;> simp

theorem congr (h : w.Counts log) (hn : w'.next = w.next) (hp : w'.pending <:+ w.pending) :
    w'.Counts log :=
  ⟨hn.trans h.next, hp.trans h.pending, h.numbered⟩

theorem push (h : w.Counts log) (s : Segment) :
    (w.push s).Counts (log ++ [{ s with seq := w.next }]) where
  next := by rw [next_push, h.next, List.length_append, UInt32.ofNat_add]; rfl
  pending := by
    obtain ⟨l, hl⟩ := h.pending
    exact ⟨l, by rw [pending_push, ← List.append_assoc, hl]⟩
  numbered i x hi := by
    by_cases hlt : i < log.length
    · exact h.numbered i x (by rwa [List.getElem?_append_left hlt] at hi)
    · have hbound := (List.getElem?_eq_some_iff.1 hi).1
      rw [List.length_append, List.length_singleton] at hbound
      obtain rfl : i = log.length := by omega
      simp only [List.getElem?_concat_length, Option.some.injEq] at hi
      rw [← hi]
      exact h.next

theorem extend (h : w.Counts log) (k : SocketPair) (l : List (List UInt8)) :
    (w.extend (Segment.numbered k w.next l)).Counts (log ++ Segment.numbered k w.next l) := by
  induction l generalizing w log with
  | nil => simpa [Segment.numbered] using h
  | cons payload rest ih =>
    rw [Segment.numbered, List.append_cons, ← Window.push_extend]
    exact ih (h.push (.data k payload))

theorem numbers (h : w.Counts log) :
    log.map Segment.seq = (List.range log.length).map UInt32.ofNat := by
  refine List.ext_getElem? fun i => ?_
  by_cases hi : i < log.length
  · simp [hi, h.numbered i log[i] (List.getElem?_eq_getElem hi)]
  · simp [Nat.not_lt.1 hi]

theorem nodup (h : w.Counts log) (hl : log.length ≤ UInt32.size) :
    (log.map Segment.seq).Nodup := by
  rw [h.numbers]
  refine List.pairwise_map.2 (List.nodup_range.imp_of_mem fun {a b} ha hb hne heq => hne ?_)
  have hsmall {i : Nat} (hi : i ∈ List.range log.length) : (UInt32.ofNat i).toNat = i :=
    UInt32.toNat_ofNat_of_lt' (Nat.lt_of_lt_of_le (List.mem_range.1 hi) hl)
  rw [← hsmall ha, ← hsmall hb, heq]

end Counts

inductive Turn (w : Window) :
    Window → List Segment → List Segment → List SequenceNumber → Prop
  | idle : Turn w w [] [] []
  | stopped : Turn w { w with stopped := true } [] [] []
  | pushed (s : Segment) : Turn w (w.push s) [{ s with seq := w.next }] [] []
  | advanced (limit : Nat) : Turn w (w.advance limit) [] (w.admitted limit) []
  | acknowledged {seq : SequenceNumber} : seq ∈ w.unacked.keys →
      Turn w { w with unacked := w.unacked.erase seq } [] [] [seq]

/-- The numbered segments of a window: the ones sent, and after them the ones that wait. Of the ones
sent, each is acknowledged or unacknowledged. -/
structure Accounts (w : Window) (sent : List Segment) (acked : List SequenceNumber) : Prop where
  counts : w.Counts (sent ++ w.pending)
  split : (w.unacked.keys ++ acked).Perm (sent.map Segment.seq)
  kept : ∀ i s, w.unacked.get? i = some s → s ∈ sent ∧ s.seq = i

namespace Accounts

variable {w w' : Window} {sent queued out : List Segment} {acked done : List SequenceNumber}

theorem blank : Accounts {} [] [] where
  counts := .blank
  split := .nil
  kept i s h := by cases h

theorem mem_sent (h : w.Accounts sent acked) {seq : SequenceNumber} (hs : seq ∈ w.unacked.keys) :
    seq ∈ sent.map Segment.seq :=
  h.split.subset (List.mem_append_left _ hs)

theorem push (h : w.Accounts sent acked) (s : Segment) : (w.push s).Accounts sent acked where
  counts := by
    rw [pending_push, ← List.append_assoc]
    exact h.counts.push s
  split := h.split
  kept := h.kept

theorem fresh (h : w.Accounts sent acked) (hl : (sent ++ w.pending).length ≤ UInt32.size) :
    Fresh w.unacked w.pending := by
  have hnodup := h.counts.nodup hl
  rw [List.map_append, List.nodup_append] at hnodup
  exact ⟨fun s hs hmem => hnodup.2.2 _ (h.mem_sent hmem) _ (List.mem_map_of_mem hs) rfl,
    hnodup.2.1⟩

theorem advance (h : w.Accounts sent acked) (hl : (sent ++ w.pending).length ≤ UInt32.size)
    (limit : Nat) : (w.advance limit).Accounts (sent ++ w.admitted limit) acked where
  counts := by
    rw [List.append_assoc, admitted_append]
    exact h.counts.congr rfl ⟨_, admitted_append limit w⟩
  split := by
    have hkeys : (w.advance limit).unacked.keys.Perm
        (w.unacked.keys ++ (w.admitted limit).map Segment.seq) :=
      keys_admitFrom (h.fresh hl)
    rw [List.map_append]
    refine (hkeys.append_right acked).trans (.trans ?_ (h.split.append_right _))
    rw [List.append_assoc, List.append_assoc]
    exact List.perm_append_comm.append_left _
  kept i s hi := by
    rcases get?_admitFrom hi with hold | ⟨-, hseq⟩
    · exact (h.kept i s hold).imp (List.mem_append_left _) id
    · rcases unacked_advance hi with hold | hnew
      · exact (h.kept i s hold).imp (List.mem_append_left _) id
      · exact ⟨List.mem_append_right _ hnew, hseq⟩

theorem acknowledge (h : w.Accounts sent acked) {seq : SequenceNumber} (hs : seq ∈ w.unacked.keys) :
    { w with unacked := w.unacked.erase seq : Window }.Accounts sent (acked ++ [seq]) where
  counts := h.counts.congr rfl (List.suffix_refl _)
  split := by
    have hkeys := (SortedMap.keys_erase hs).append_right acked
    rw [← List.append_assoc]
    exact ((List.perm_append_singleton seq _).trans hkeys.symm).trans h.split
  kept i s hi := h.kept i s (SortedMap.get?_of_erase hi)

theorem turn (h : w.Accounts sent acked) (ht : w.Turn w' queued out done)
    (hl : (sent ++ w.pending ++ queued).length ≤ UInt32.size) :
    w'.Accounts (sent ++ out) (acked ++ done) ∧ out ++ w'.pending = w.pending ++ queued := by
  cases ht with
  | idle | stopped =>
    simp only [List.append_nil]
    exact ⟨⟨h.counts.congr rfl (List.suffix_refl _), h.split, h.kept⟩, rfl⟩
  | pushed s =>
    simp only [List.append_nil]
    exact ⟨h.push s, rfl⟩
  | advanced limit =>
    simp only [List.append_nil] at hl ⊢
    exact ⟨h.advance hl limit, admitted_append limit w⟩
  | acknowledged hseq =>
    simp only [List.append_nil]
    exact ⟨h.acknowledge hseq, rfl⟩

end Accounts

end Window

end ReliableStream
