/-!
Finite maps as lists in ascending order of their keys. A map is determined by what `get?` answers
(`SortedMap.ext_get?`), and the entries come out in the order of the keys.
-/

namespace ReliableStream

/-- Keys that are compared by a number of their own. -/
class Ranked (κ : Type) where
  rank : κ → Nat
  rank_inj : ∀ {a b : κ}, rank a = rank b → a = b

instance : Ranked UInt8 := ⟨UInt8.toNat, UInt8.toNat_inj.mp⟩

instance : Ranked UInt32 := ⟨UInt32.toNat, UInt32.toNat_inj.mp⟩

instance : Ranked Nat := ⟨id, id⟩

open Ranked

def Ascending {κ α : Type} [Ranked κ] (l : List (κ × α)) : Prop :=
  l.Pairwise (fun a b => rank a.1 < rank b.1)

theorem ascending_nil {κ α : Type} [Ranked κ] : Ascending ([] : List (κ × α)) := List.Pairwise.nil

/-- A finite map with its entries in ascending order of the keys. -/
structure SortedMap (κ α : Type) [Ranked κ] where
  entries : List (κ × α) := []
  ascending : Ascending entries := by exact ascending_nil

namespace SortedMap

variable {κ α β : Type} [Ranked κ]

theorem ext_entries {m n : SortedMap κ α} (h : m.entries = n.entries) : m = n := by
  cases m; cases n; cases h; rfl

instance [DecidableEq κ] [DecidableEq α] : DecidableEq (SortedMap κ α) := fun m n =>
  if h : m.entries = n.entries then isTrue (ext_entries h)
  else isFalse (fun e => h (congrArg entries e))

instance : Inhabited (SortedMap κ α) := ⟨{}⟩

def find (k : κ) : List (κ × α) → Option α
  | [] => none
  | (j, v) :: rest => if rank j = rank k then some v else find k rest

def place (k : κ) (v : α) : List (κ × α) → List (κ × α)
  | [] => [(k, v)]
  | (j, w) :: rest =>
    if rank k < rank j then (k, v) :: (j, w) :: rest
    else if rank k = rank j then (k, v) :: rest
    else (j, w) :: place k v rest

theorem mem_place {k : κ} {v : α} {l : List (κ × α)} {e : κ × α} (h : e ∈ place k v l) :
    e = (k, v) ∨ e ∈ l := by
  induction l with
  | nil => simpa [place] using h
  | cons head rest ih =>
    obtain ⟨j, w⟩ := head
    simp only [place] at h
    split at h
    · simpa using h
    · split at h
      · rcases List.mem_cons.1 h with h | h
        · exact .inl h
        · exact .inr (List.mem_cons_of_mem _ h)
      · rcases List.mem_cons.1 h with h | h
        · exact .inr (h ▸ List.mem_cons_self)
        · exact (ih h).imp id (List.mem_cons_of_mem _)

theorem ascending_place (k : κ) (v : α) {l : List (κ × α)} (h : Ascending l) :
    Ascending (place k v l) := by
  induction l with
  | nil => exact List.pairwise_singleton _ _
  | cons head rest ih =>
    obtain ⟨j, w⟩ := head
    obtain ⟨hj, hr⟩ := List.pairwise_cons.1 h
    simp only [place]
    split
    · rename_i hlt
      refine List.pairwise_cons.2 ⟨fun e he => ?_, h⟩
      rcases List.mem_cons.1 he with rfl | he
      · exact hlt
      · exact Nat.lt_trans hlt (hj e he)
    · split
      · rename_i heq
        exact List.pairwise_cons.2 ⟨fun e he => by simpa [heq] using hj e he, hr⟩
      · rename_i hlt hne
        refine List.pairwise_cons.2 ⟨fun e he => ?_, ih hr⟩
        rcases mem_place he with rfl | he
        · exact Nat.lt_of_le_of_ne (Nat.le_of_not_lt hlt) (Ne.symm hne)
        · exact hj e he

def get? (m : SortedMap κ α) (k : κ) : Option α := find k m.entries

def contains (m : SortedMap κ α) (k : κ) : Bool := (m.get? k).isSome

def insert (m : SortedMap κ α) (k : κ) (v : α) : SortedMap κ α :=
  ⟨place k v m.entries, ascending_place k v m.ascending⟩

def erase (m : SortedMap κ α) (k : κ) : SortedMap κ α :=
  ⟨m.entries.filter (fun e => rank e.1 ≠ rank k), m.ascending.filter _⟩

def adjust (m : SortedMap κ α) (k : κ) (f : α → α) : SortedMap κ α :=
  match m.get? k with
  | some v => m.insert k (f v)
  | none => m

def mapValues (m : SortedMap κ α) (f : α → β) : SortedMap κ β :=
  ⟨m.entries.map (fun e => (e.1, f e.2)), by
    simpa [Ascending, List.pairwise_map] using m.ascending⟩

def size (m : SortedMap κ α) : Nat := m.entries.length

def isEmpty (m : SortedMap κ α) : Bool := m.entries.isEmpty

def keys (m : SortedMap κ α) : List κ := m.entries.map Prod.fst

def values (m : SortedMap κ α) : List α := m.entries.map Prod.snd

theorem find_eq_none {k : κ} {l : List (κ × α)} (h : ∀ e ∈ l, rank e.1 ≠ rank k) :
    find k l = none := by
  induction l with
  | nil => rfl
  | cons head rest ih =>
    have h₁ := h head List.mem_cons_self
    have h₂ := ih (fun e he => h e (List.mem_cons_of_mem _ he))
    simp [find, h₁, h₂]

theorem find_place_self (k : κ) (v : α) (l : List (κ × α)) : find k (place k v l) = some v := by
  induction l with
  | nil => simp [place, find]
  | cons head rest ih =>
    obtain ⟨j, w⟩ := head
    simp only [place]
    split
    · simp [find]
    · split
      · simp [find]
      · rename_i hne
        simp [find, Ne.symm hne, ih]

theorem find_place_of_ne {k j : κ} (v : α) (l : List (κ × α)) (h : rank k ≠ rank j) :
    find j (place k v l) = find j l := by
  induction l with
  | nil => simp [place, find, h]
  | cons head rest ih =>
    obtain ⟨i, w⟩ := head
    simp only [place]
    split
    · simp [find, h]
    · split
      · rename_i heq
        have : rank i ≠ rank j := heq ▸ h
        simp [find, h, this]
      · simp [find, ih]

theorem rank_ne {k j : κ} (h : k ≠ j) : rank k ≠ rank j := fun e => h (rank_inj e)

@[simp] theorem get?_empty (k : κ) : ({} : SortedMap κ α).get? k = none := rfl

@[simp] theorem get?_insert_self (m : SortedMap κ α) (k : κ) (v : α) :
    (m.insert k v).get? k = some v := find_place_self k v m.entries

theorem get?_insert_of_ne (m : SortedMap κ α) {k j : κ} (v : α) (h : k ≠ j) :
    (m.insert k v).get? j = m.get? j := find_place_of_ne v m.entries (rank_ne h)

@[simp] theorem get?_erase_self (m : SortedMap κ α) (k : κ) : (m.erase k).get? k = none :=
  find_eq_none (fun e he => by simpa using (List.mem_filter.1 he).2)

theorem get?_erase_of_ne (m : SortedMap κ α) {k j : κ} (h : k ≠ j) :
    (m.erase k).get? j = m.get? j := by
  have hr := rank_ne h
  simp only [get?, erase]
  induction m.entries with
  | nil => rfl
  | cons head rest ih =>
    by_cases hk : rank head.1 = rank k
    · have : rank head.1 ≠ rank j := hk ▸ hr
      simp_all [find]
    · simp_all [find]

theorem find_eq_some_mem {k : κ} {v : α} {l : List (κ × α)} (h : find k l = some v) :
    (k, v) ∈ l := by
  induction l with
  | nil => simp [find] at h
  | cons head rest ih =>
    obtain ⟨j, w⟩ := head
    simp only [find] at h
    split at h
    · rename_i hr
      cases h
      exact rank_inj hr ▸ List.mem_cons_self
    · exact List.mem_cons_of_mem _ (ih h)

theorem find_eq_some_of_mem {k : κ} {v : α} {l : List (κ × α)} (ha : Ascending l)
    (h : (k, v) ∈ l) : find k l = some v := by
  induction l with
  | nil => cases h
  | cons head rest ih =>
    obtain ⟨hj, hr⟩ := List.pairwise_cons.1 ha
    rcases List.mem_cons.1 h with rfl | h
    · simp [find]
    · have : rank head.1 ≠ rank k := Nat.ne_of_lt (hj _ h)
      simp [find, this, ih hr h]

theorem mem_entries_iff {m : SortedMap κ α} {k : κ} {v : α} :
    (k, v) ∈ m.entries ↔ m.get? k = some v :=
  ⟨find_eq_some_of_mem m.ascending, find_eq_some_mem⟩

theorem ext_find {l r : List (κ × α)} (hl : Ascending l) (hr : Ascending r)
    (h : ∀ k, find k l = find k r) : l = r := by
  induction l generalizing r with
  | nil =>
    cases r with
    | nil => rfl
    | cons head rest => simpa [find] using h head.1
  | cons a as ih =>
    cases r with
    | nil => simpa [find] using h a.1
    | cons b bs =>
      obtain ⟨ha, has⟩ := List.pairwise_cons.1 hl
      obtain ⟨hb, hbs⟩ := List.pairwise_cons.1 hr
      have hab : a = b := by
        have h₁ : (b.1, b.2) ∈ a :: as := find_eq_some_mem (by rw [h]; simp [find])
        have h₂ : (a.1, a.2) ∈ b :: bs := find_eq_some_mem (by rw [← h]; simp [find])
        rcases List.mem_cons.1 h₁ with h₁ | h₁
        · exact h₁.symm
        · rcases List.mem_cons.1 h₂ with h₂ | h₂
          · exact h₂
          · exact absurd (ha _ h₁) (Nat.lt_asymm (hb _ h₂))
      subst hab
      refine congrArg _ (ih has hbs (fun k => ?_))
      by_cases hk : rank a.1 = rank k
      · rw [find_eq_none (fun e he => Nat.ne_of_gt (hk ▸ ha e he)),
          find_eq_none (fun e he => Nat.ne_of_gt (hk ▸ hb e he))]
      · simpa [find, hk] using h k

theorem ext_get? {m n : SortedMap κ α} (h : ∀ k, m.get? k = n.get? k) : m = n :=
  ext_entries (ext_find m.ascending n.ascending h)

theorem insert_of_some {m : SortedMap κ α} {k : κ} {v : α} (h : m.get? k = some v) :
    m.insert k v = m := by
  refine ext_get? fun j => ?_
  by_cases hj : k = j
  · rw [← hj, get?_insert_self, h]
  · exact get?_insert_of_ne m v hj

theorem get?_adjust_self (m : SortedMap κ α) (k : κ) (f : α → α) :
    (m.adjust k f).get? k = (m.get? k).map f := by
  cases h : m.get? k <;> simp [adjust, h]

theorem get?_adjust_of_ne (m : SortedMap κ α) {k j : κ} (f : α → α) (h : k ≠ j) :
    (m.adjust k f).get? j = m.get? j := by
  cases hk : m.get? k <;> simp [adjust, hk, get?_insert_of_ne, h]

theorem get?_mapValues (m : SortedMap κ α) (f : α → β) (k : κ) :
    (m.mapValues f).get? k = (m.get? k).map f := by
  simp only [get?, mapValues]
  induction m.entries with
  | nil => rfl
  | cons head rest ih =>
    by_cases hk : rank head.1 = rank k <;> simp [find, hk, ih]

end SortedMap

end ReliableStream
