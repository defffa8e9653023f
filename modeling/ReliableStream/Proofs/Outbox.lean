import ReliableStream.Outbox

namespace ReliableStream

namespace SortedMap

variable {κ α : Type} [Ranked κ]

theorem mem_values_iff {m : SortedMap κ α} {v : α} : v ∈ m.values ↔ ∃ k, m.get? k = some v := by
  constructor
  · intro h
    obtain ⟨⟨k, w⟩, he, rfl⟩ := List.mem_map.1 h
    exact ⟨k, mem_entries_iff.1 he⟩
  · rintro ⟨k, h⟩
    exact List.mem_map.2 ⟨(k, v), mem_entries_iff.2 h, rfl⟩

theorem mem_keys_iff {m : SortedMap κ α} {k : κ} : k ∈ m.keys ↔ ∃ v, m.get? k = some v := by
  constructor
  · intro h
    obtain ⟨⟨j, v⟩, he, rfl⟩ := List.mem_map.1 h
    exact ⟨v, mem_entries_iff.1 he⟩
  · rintro ⟨v, h⟩
    exact List.mem_map.2 ⟨(k, v), mem_entries_iff.2 h, rfl⟩

theorem nodup_keys (m : SortedMap κ α) : m.keys.Nodup := by
  refine List.pairwise_map.2 (m.ascending.imp fun {a b} h e => ?_)
  rw [e] at h
  exact Nat.lt_irrefl _ h

theorem get?_of_erase {m : SortedMap κ α} {k j : κ} {v : α} (h : (m.erase j).get? k = some v) :
    m.get? k = some v := by
  by_cases hj : j = k
  · rw [hj, get?_erase_self] at h
    cases h
  · rwa [get?_erase_of_ne _ hj] at h

theorem contains_iff {m : SortedMap κ α} {k : κ} : m.contains k = true ↔ k ∈ m.keys := by
  rw [contains, Option.isSome_iff_exists, mem_keys_iff]

theorem not_mem_keys {m : SortedMap κ α} {k : κ} (h : m.get? k = none) : k ∉ m.keys := fun hk => by
  obtain ⟨v, hv⟩ := mem_keys_iff.1 hk
  exact absurd (hv.symm.trans h) nofun

theorem erase_of_not_mem {m : SortedMap κ α} {k : κ} (h : k ∉ m.keys) : m.erase k = m := by
  refine ext_get? fun j => ?_
  by_cases hj : k = j
  · rw [hj, get?_erase_self, eq_comm, Option.eq_none_iff_forall_ne_some]
    exact fun v hv => h (hj ▸ mem_keys_iff.2 ⟨v, hv⟩)
  · exact get?_erase_of_ne m hj

theorem keys_insert {m : SortedMap κ α} {k : κ} (v : α) (h : k ∉ m.keys) :
    (m.insert k v).keys.Perm (k :: m.keys) := by
  refine (List.perm_ext_iff_of_nodup (nodup_keys _) (List.nodup_cons.2 ⟨h, nodup_keys m⟩)).2
    fun j => ?_
  rw [List.mem_cons, mem_keys_iff, mem_keys_iff]
  by_cases hj : k = j
  · simp [← hj]
  · simp [get?_insert_of_ne m v hj, Ne.symm hj]

theorem keys_erase {m : SortedMap κ α} {k : κ} (h : k ∈ m.keys) :
    m.keys.Perm (k :: (m.erase k).keys) := by
  have hk : k ∉ (m.erase k).keys := fun hk => by
    obtain ⟨v, hv⟩ := mem_keys_iff.1 hk
    rw [get?_erase_self] at hv
    cases hv
  refine (List.perm_ext_iff_of_nodup (nodup_keys m) (List.nodup_cons.2 ⟨hk, nodup_keys _⟩)).2
    fun j => ?_
  rw [List.mem_cons, mem_keys_iff, mem_keys_iff]
  by_cases hj : k = j
  · simpa [← hj] using mem_keys_iff.1 h
  · simp [get?_erase_of_ne m hj, Ne.symm hj]

theorem filter_flatMap_values {β : Type} {m : SortedMap κ α} {k : κ}
    {f : α → List β} {p : β → Bool}
    (h : ∀ j v, m.get? j = some v → j ≠ k → (f v).filter p = []) :
    (m.values.flatMap f).filter p = ((m.get? k).elim [] f).filter p := by
  have key (l : List (κ × α)) (hl : Ascending l) (h : ∀ e ∈ l, e.1 ≠ k → (f e.2).filter p = []) :
      ((l.map Prod.snd).flatMap f).filter p = ((find k l).elim [] f).filter p := by
    induction l with
    | nil => rfl
    | cons e rest ih =>
      obtain ⟨he, hrest⟩ := List.forall_mem_cons.1 h
      obtain ⟨hlt, hl⟩ := List.pairwise_cons.1 hl
      rw [List.map_cons, List.flatMap_cons, List.filter_append, ih hl hrest]
      by_cases hk : Ranked.rank e.1 = Ranked.rank k
      · rw [find, if_pos hk, find_eq_none fun e' he' => hk ▸ Nat.ne_of_gt (hlt e' he')]
        simp
      · rw [find, if_neg hk, he fun hek => hk (hek ▸ rfl), List.nil_append]
  exact key m.entries m.ascending fun e he => h e.1 e.2 (mem_entries_iff.1 he)

end SortedMap

namespace Window

theorem admitFrom_append (limit : Nat) (u : SortedMap SequenceNumber Segment) (l : List Segment) :
    (admitFrom limit u l).2.1 ++ (admitFrom limit u l).2.2 = l := by
  induction l generalizing u with
  | nil => rfl
  | cons s rest ih =>
    unfold admitFrom
    split
    · simp [ih]
    · rfl

theorem get?_admitFrom {limit : Nat} {u : SortedMap SequenceNumber Segment} {l : List Segment}
    {i : SequenceNumber} {s : Segment} (h : (admitFrom limit u l).1.get? i = some s) :
    u.get? i = some s ∨ (s ∈ l ∧ s.seq = i) := by
  induction l generalizing u with
  | nil => exact .inl h
  | cons t rest ih =>
    unfold admitFrom at h
    split at h
    · rcases ih h with h | ⟨hm, hs⟩
      · by_cases hi : t.seq = i
        · subst hi
          rw [SortedMap.get?_insert_self, Option.some.injEq] at h
          subst h
          exact .inr ⟨List.mem_cons_self, rfl⟩
        · exact .inl (by rwa [SortedMap.get?_insert_of_ne _ _ hi] at h)
      · exact .inr ⟨List.mem_cons_of_mem _ hm, hs⟩
    · exact .inl h

theorem get?_admitFrom_of_ne {limit : Nat} {u : SortedMap SequenceNumber Segment}
    {l : List Segment} {i : SequenceNumber} (h : ∀ s ∈ l, s.seq ≠ i) :
    (admitFrom limit u l).1.get? i = u.get? i := by
  induction l generalizing u with
  | nil => rfl
  | cons t rest ih =>
    unfold admitFrom
    split
    · rw [ih fun s hs => h s (List.mem_cons_of_mem _ hs),
        SortedMap.get?_insert_of_ne _ _ (h t List.mem_cons_self)]
    · rfl

theorem get?_admitFrom_of_mem {limit : Nat} {u : SortedMap SequenceNumber Segment}
    {l : List Segment} (hl : l.Pairwise fun s t => s.seq ≠ t.seq) {s : Segment}
    (h : s ∈ (admitFrom limit u l).2.1) : (admitFrom limit u l).1.get? s.seq = some s := by
  induction l generalizing u with
  | nil => cases h
  | cons t rest ih =>
    obtain ⟨ht, hr⟩ := List.pairwise_cons.1 hl
    unfold admitFrom at h ⊢
    split at h
    · rename_i hlt
      simp only [hlt, if_true]
      rcases List.mem_cons.1 h with rfl | h
      · rw [get?_admitFrom_of_ne fun x hx => (ht x hx).symm, SortedMap.get?_insert_self]
      · exact ih hr h
    · cases h

theorem admitted_append (limit : Nat) (w : Window) :
    w.admitted limit ++ (w.advance limit).pending = w.pending :=
  admitFrom_append limit w.unacked w.pending

theorem mem_pending_of_admitted {limit : Nat} {w : Window} {s : Segment}
    (h : s ∈ w.admitted limit) : s ∈ w.pending := by
  rw [← admitted_append limit w]
  exact List.mem_append_left _ h

theorem mem_pending_of_advance {limit : Nat} {w : Window} {s : Segment}
    (h : s ∈ (w.advance limit).pending) : s ∈ w.pending := by
  rw [← admitted_append limit w]
  exact List.mem_append_right _ h

theorem advance_of_silent {limit : Nat} {w : Window} (h : w.admitted limit = []) :
    w.advance limit = w := by
  obtain ⟨next, pending, unacked, stopped⟩ := w
  cases pending with
  | nil => rfl
  | cons s rest =>
    simp only [admitted, admitFrom] at h
    split at h
    · cases h
    · rename_i hfull
      simp only [advance, admitFrom, hfull, if_false]

@[simp] theorem next_advance (limit : Nat) (w : Window) : (w.advance limit).next = w.next := rfl

@[simp] theorem stopped_advance (limit : Nat) (w : Window) :
    (w.advance limit).stopped = w.stopped := rfl

@[simp] theorem next_push (w : Window) (s : Segment) : (w.push s).next = w.next + 1 := rfl

@[simp] theorem pending_push (w : Window) (s : Segment) :
    (w.push s).pending = w.pending ++ [{ s with seq := w.next }] := rfl

@[simp] theorem unacked_push (w : Window) (s : Segment) : (w.push s).unacked = w.unacked := rfl

def extend (w : Window) (l : List Segment) : Window :=
  { w with pending := w.pending ++ l, next := w.next + .ofNat l.length }

@[simp] theorem extend_nil (w : Window) : w.extend [] = w := by
  simp [extend]

theorem push_extend (w : Window) (s : Segment) (l : List Segment) :
    (w.push s).extend l = w.extend ({ s with seq := w.next } :: l) := by
  simp only [extend, push, List.append_assoc, List.singleton_append, List.length_cons,
    UInt32.ofNat_add, UInt32.add_assoc, UInt32.add_comm 1]
  rfl

end Window

namespace Segment

def numbered (k : SocketPair) (next : SequenceNumber) : List (List UInt8) → List Segment
  | [] => []
  | payload :: rest => { data k payload with seq := next } :: numbered k (next + 1) rest

variable {k : SocketPair} {next : SequenceNumber} {l : List (List UInt8)} {s : Segment}

theorem getElem?_numbered {i : Nat} (hs : (numbered k next l)[i]? = some s) :
    s.payload ∈ l ∧ s = { data k s.payload with seq := next + .ofNat i } := by
  induction l generalizing next i with
  | nil => cases hs
  | cons payload rest ih =>
    cases i with
    | zero =>
      obtain rfl := Option.some.inj hs
      exact ⟨List.mem_cons_self, by simp [data]⟩
    | succ i =>
      obtain ⟨hmem, heq⟩ := ih hs
      refine ⟨List.mem_cons_of_mem _ hmem, ?_⟩
      have hseq : next + 1 + UInt32.ofNat i = next + .ofNat (i + 1) := by
        rw [UInt32.ofNat_add, UInt32.add_assoc, UInt32.add_comm 1]
        rfl
      rw [← hseq]
      exact heq

theorem payload_of_numbered (hs : s ∈ numbered k next l) : s.payload ∈ l := by
  obtain ⟨i, hi⟩ := List.mem_iff_getElem?.1 hs
  exact (getElem?_numbered hi).1

theorem kind_of_numbered (hs : s ∈ numbered k next l) : s.kind? = some .data := by
  obtain ⟨i, hi⟩ := List.mem_iff_getElem?.1 hs
  rw [(getElem?_numbered hi).2]
  rfl

end Segment

namespace Outbox

variable (o : Outbox) {k j : SocketPair}

theorem window_eq (k : SocketPair) : o.window k = (o.windows.get? k).getD {} := rfl

def put (k : SocketPair) (w : Window) : Outbox := { o with windows := o.windows.insert k w }

@[simp] theorem windows_put_self (k : SocketPair) (w : Window) :
    (o.put k w).windows.get? k = some w :=
  o.windows.get?_insert_self k w

theorem window_put (k : SocketPair) (w : Window) : (o.put k w).window k = w := by
  rw [window_eq, windows_put_self, Option.getD_some]

theorem windows_put_of_ne (w : Window) (h : k ≠ j) :
    (o.put k w).windows.get? j = o.windows.get? j :=
  o.windows.get?_insert_of_ne w h

theorem enqueue_of_open {s : Segment}
    (h : ¬((o.window s.senderPair).stopped ∧ s.kind? = some .data)) :
    o.enqueue s = (o.put s.senderPair ((o.window s.senderPair).push s),
      .ok (o.window s.senderPair).next) := by
  simp only [enqueue, h, if_false, put]

theorem put_of_stopped (h : (o.window k).stopped = true) : o.put k (o.window k) = o := by
  cases hw : o.windows.get? k with
  | none =>
    rw [window_eq, hw] at h
    cases h
  | some w =>
    have hsame : o.windows.insert k (o.window k) = o.windows := by
      refine SortedMap.insert_of_some ?_
      rw [window_eq, hw]
      rfl
    rw [put, hsame]

theorem enqueue_of_stopped {s : Segment}
    (h : (o.window s.senderPair).stopped ∧ s.kind? = some .data) :
    o.enqueue s = (o, .error .sendingStopped) := by
  have hsame := o.put_of_stopped h.1
  rw [put] at hsame
  simp only [enqueue, h, and_self, if_true, hsame]

@[simp] theorem windows_acknowledge_self (k : SocketPair) (seq : SequenceNumber) :
    (o.acknowledge k seq).windows.get? k =
      (o.windows.get? k).map fun w => { w with unacked := w.unacked.erase seq } :=
  o.windows.get?_adjust_self k _

theorem windows_acknowledge_of_ne (seq : SequenceNumber) (h : k ≠ j) :
    (o.acknowledge k seq).windows.get? j = o.windows.get? j :=
  o.windows.get?_adjust_of_ne _ h

@[simp] theorem windows_stop_self (k : SocketPair) :
    (o.stop k).windows.get? k = some { o.window k with stopped := true } :=
  o.windows.get?_insert_self k _

@[simp] theorem windows_release_self (k : SocketPair) : (o.release k).windows.get? k = none :=
  o.windows.get?_erase_self k

theorem windows_release_of_ne (h : k ≠ j) : (o.release k).windows.get? j = o.windows.get? j :=
  o.windows.get?_erase_of_ne h

theorem release_of_none (hw : o.windows.get? k = none)
    (hr : o.resends.filter (fun s => s.senderPair = k) = []) : o.release k = o := by
  have hkeep : o.resends.filter (fun s => s.senderPair ≠ k) = o.resends :=
    List.filter_eq_self.2 fun s hs => by simpa using List.filter_eq_nil_iff.1 hr s hs
  rw [release, SortedMap.erase_of_not_mem (SortedMap.not_mem_keys hw), hkeep]

@[simp] theorem windows_afterSending (k : SocketPair) :
    o.afterSending.windows.get? k = (o.windows.get? k).map (Window.advance o.limit) :=
  SortedMap.get?_mapValues _ _ k

theorem mem_addMissing {queue segments : List Segment} {s : Segment} :
    s ∈ addMissing queue segments ↔ s ∈ queue ∨ s ∈ segments := by
  induction segments generalizing queue with
  | nil => simp [addMissing]
  | cons t rest ih =>
    rw [addMissing, List.foldl_cons, ← addMissing, ih]
    split
    · rename_i ht
      constructor
      · exact Or.imp_right (List.mem_cons_of_mem _)
      · rintro (h | h)
        · exact .inl h
        · rcases List.mem_cons.1 h with rfl | h
          · exact .inl ht
          · exact .inr h
    · simp [or_assoc]

theorem addMissing_append (queue : List Segment) (segments : List Segment) :
    ∃ l, addMissing queue segments = queue ++ l ∧ ∀ s ∈ l, s ∈ segments := by
  induction segments generalizing queue with
  | nil => exact ⟨[], by simp [addMissing], by simp⟩
  | cons t rest ih =>
    rw [addMissing, List.foldl_cons, ← addMissing]
    split
    · obtain ⟨l, hl, hm⟩ := ih queue
      exact ⟨l, hl, fun s hs => List.mem_cons_of_mem _ (hm s hs)⟩
    · obtain ⟨l, hl, hm⟩ := ih (queue ++ [t])
      refine ⟨t :: l, by simp [hl], fun s hs => ?_⟩
      rcases List.mem_cons.1 hs with rfl | hs
      · exact List.mem_cons_self
      · exact List.mem_cons_of_mem _ (hm s hs)

theorem addMissing_of_subset {queue segments : List Segment} (h : segments ⊆ queue) :
    addMissing queue segments = queue := by
  induction segments with
  | nil => rfl
  | cons t rest ih =>
    rw [addMissing, List.foldl_cons, ← addMissing, if_pos (h List.mem_cons_self)]
    exact ih (List.subset_of_cons_subset h)

theorem addMissing_of_nodup {queue segments : List Segment} (h : (queue ++ segments).Nodup) :
    addMissing queue segments = queue ++ segments := by
  induction segments generalizing queue with
  | nil => exact (List.append_nil queue).symm
  | cons t rest ih =>
    have ht : t ∉ queue := fun ht =>
      (List.nodup_append.1 h).2.2 t ht t List.mem_cons_self rfl
    rw [List.append_cons] at h ⊢
    rw [addMissing, List.foldl_cons, ← addMissing, if_neg ht]
    exact ih h

theorem filter_addMissing {queue segments : List Segment} {p : Segment → Bool}
    (h : ∀ s ∈ segments, p s = true) :
    (addMissing queue segments).filter p = addMissing (queue.filter p) segments := by
  induction segments generalizing queue with
  | nil => rfl
  | cons t rest ih =>
    have ht := h t List.mem_cons_self
    have hr := fun s hs => h s (List.mem_cons_of_mem t hs)
    simp only [addMissing, List.foldl_cons] at ih ⊢
    rw [ih hr]
    by_cases hm : t ∈ queue <;> simp [hm, ht]

def Filed : Prop := ∀ k w, o.windows.get? k = some w →
  (∀ s ∈ w.pending, s.senderPair = k) ∧ ∀ i s, w.unacked.get? i = some s → s.senderPair = k

variable {o}

theorem Filed.window (h : o.Filed) (k : SocketPair) :
    (∀ s ∈ (o.window k).pending, s.senderPair = k) ∧
      ∀ i s, (o.window k).unacked.get? i = some s → s.senderPair = k := by
  cases hw : o.windows.get? k with
  | none => simp [window_eq, hw]
  | some w => simpa [window_eq, hw] using h k w hw

theorem filed_empty (window : Nat) : (Outbox.empty window).Filed := by
  intro k w h
  cases h

theorem Filed.put (h : o.Filed) {w : Window} (hp : ∀ s ∈ w.pending, s.senderPair = k)
    (hu : ∀ i s, w.unacked.get? i = some s → s.senderPair = k) : (o.put k w).Filed := by
  intro j v hv
  by_cases hj : k = j
  · subst hj
    rw [windows_put_self, Option.some.injEq] at hv
    subst hv
    exact ⟨hp, hu⟩
  · rw [windows_put_of_ne _ _ hj] at hv
    exact h j v hv

theorem Filed.push (h : o.Filed) (s : Segment) :
    (o.put s.senderPair ((o.window s.senderPair).push s)).Filed := by
  refine h.put ?_ (h.window _).2
  intro x hx
  rcases List.mem_append.1 hx with hx | hx
  · exact (h.window _).1 x hx
  · rw [List.mem_singleton.1 hx]
    rfl

theorem Filed.enqueue (h : o.Filed) (s : Segment) : (o.enqueue s).1.Filed := by
  by_cases hs : (o.window s.senderPair).stopped ∧ s.kind? = some .data
  · rwa [enqueue_of_stopped o hs]
  · rw [enqueue_of_open o hs]
    exact h.push s

theorem Filed.acknowledge (h : o.Filed) (k : SocketPair) (seq : SequenceNumber) :
    (o.acknowledge k seq).Filed := by
  intro j w hw
  by_cases hj : k = j
  · subst hj
    rw [windows_acknowledge_self] at hw
    obtain ⟨v, hv, rfl⟩ := Option.map_eq_some_iff.1 hw
    refine ⟨(h k v hv).1, fun i s hs => (h k v hv).2 i s ?_⟩
    by_cases hi : seq = i
    · subst hi
      simp at hs
    · rwa [SortedMap.get?_erase_of_ne _ hi] at hs
  · rw [windows_acknowledge_of_ne _ _ hj] at hw
    exact h j w hw

theorem Filed.stop (h : o.Filed) (k : SocketPair) : (o.stop k).Filed :=
  h.put (h.window k).1 (h.window k).2

theorem Filed.release (h : o.Filed) (k : SocketPair) : (o.release k).Filed := by
  intro j w hw
  by_cases hj : k = j
  · subst hj
    simp at hw
  · rw [windows_release_of_ne _ hj] at hw
    exact h j w hw

theorem Filed.afterSending (h : o.Filed) : o.afterSending.Filed := by
  intro k w hw
  rw [windows_afterSending] at hw
  obtain ⟨v, hv, rfl⟩ := Option.map_eq_some_iff.1 hw
  refine ⟨fun s hs => (h k v hv).1 s (Window.mem_pending_of_advance hs), fun i s hs => ?_⟩
  rcases Window.get?_admitFrom hs with hs | ⟨hs, -⟩
  · exact (h k v hv).2 i s hs
  · exact (h k v hv).1 s hs

theorem mem_outgoing (h : o.Filed) {s : Segment} (hs : s ∈ o.outgoing) :
    s ∈ o.replies ∨ s ∈ o.resends ∨ s ∈ (o.window s.senderPair).pending := by
  simp only [outgoing, List.mem_append, List.mem_flatMap, SortedMap.mem_values_iff] at hs
  rcases hs with (hs | hs) | ⟨w, ⟨k, hw⟩, hs⟩
  · exact .inl hs
  · exact .inr (.inl hs)
  · have hp := Window.mem_pending_of_admitted hs
    refine .inr (.inr ?_)
    rw [(h k w hw).1 s hp, window_eq, hw]
    exact hp

theorem Filed.filter_admitted (h : o.Filed) (k : SocketPair) :
    (o.windows.values.flatMap (Window.admitted o.limit)).filter (fun s => s.senderPair = k) =
      (o.window k).admitted o.limit := by
  rw [SortedMap.filter_flatMap_values (k := k)]
  · have hall : ∀ s ∈ (o.window k).admitted o.limit, s.senderPair = k := fun s hs =>
      (h.window k).1 s (Window.mem_pending_of_admitted hs)
    cases hw : o.windows.get? k with
    | none =>
      rw [window_eq, hw]
      rfl
    | some w =>
      rw [window_eq, hw] at hall ⊢
      exact List.filter_eq_self.2 fun s hs => by simpa using hall s hs
  · intro j w hw hj
    refine List.filter_eq_nil_iff.2 fun s hs hp => hj ?_
    rw [decide_eq_true_eq] at hp
    exact ((h j w hw).1 s (Window.mem_pending_of_admitted hs)).symm.trans hp

theorem mem_outgoing_of {s : Segment}
    (h : s ∈ o.replies ∨ s ∈ o.resends ∨ s ∈ (o.window k).admitted o.limit) : s ∈ o.outgoing := by
  simp only [outgoing, List.mem_append, List.mem_flatMap]
  rcases h with h | h | h
  · exact .inl (.inl h)
  · exact .inl (.inr h)
  · refine .inr ⟨o.window k, ?_, h⟩
    cases hw : o.windows.get? k with
    | none => simp [window_eq, hw, Window.admitted, Window.admitFrom] at h
    | some w =>
      rw [window_eq, hw]
      exact SortedMap.mem_values_iff.2 ⟨k, hw⟩

theorem afterSending_of_silent {o : Outbox} (h : o.outgoing = []) : o.afterSending = o := by
  obtain ⟨⟨hreplies, hresends⟩, hwindows⟩ :
      (o.replies = [] ∧ o.resends = []) ∧ _ = [] := by
    simpa only [outgoing, List.append_eq_nil_iff] using h
  have hsame : o.windows.mapValues (Window.advance o.limit) = o.windows := by
    apply SortedMap.ext_get?
    intro k
    rw [SortedMap.get?_mapValues]
    cases hw : o.windows.get? k with
    | none => rfl
    | some w =>
      have hempty := List.flatMap_eq_nil_iff.1 hwindows w (SortedMap.mem_values_iff.2 ⟨k, hw⟩)
      rw [Option.map_some, Window.advance_of_silent hempty]
  rw [afterSending, hsame]
  obtain ⟨_, _, _, _, _⟩ := o
  cases hreplies
  cases hresends
  rfl

end Outbox

end ReliableStream
