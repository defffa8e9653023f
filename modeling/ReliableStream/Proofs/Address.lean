import ReliableStream.Endpoint.Text

namespace ReliableStream

namespace Decimal

variable {n m : UInt8} {cs ds : List Char}

structure Writes (ds : List Char) (n : Nat) : Prop where
  nonempty : ds ≠ []
  digits : ∀ c ∈ ds, c.isDigit = true
  value : Nat.ofDigitChars 10 ds 0 = n

inductive Numeral : List Char → Nat → Prop
  | bare {ds : List Char} {n : Nat} : Writes ds n → Numeral ds n
  | signed {ds : List Char} {n : Nat} : Writes ds n → Numeral ('+' :: ds) n

theorem writes_digits (n : Nat) : Writes (digits n) n where
  nonempty := Nat.toDigits_ne_nil
  digits _ := Nat.isDigit_of_mem_toDigits (by decide) (by decide)
  value := Nat.ofDigitChars_ten_toDigits

theorem Writes.not_mem {n : Nat} {c : Char} (h : Writes ds n) (hc : c.isDigit = false) :
    c ∉ ds := fun hmem => by
  rw [h.digits c hmem] at hc
  cases hc

theorem Numeral.slash_not_mem {n : Nat} (h : Numeral cs n) : '/' ∉ cs := by
  cases h with
  | bare h => exact h.not_mem rfl
  | signed h => simp [h.not_mem (c := '/') rfl]

theorem le_ofDigitChars (n : Nat) (ds : List Char) : n ≤ Nat.ofDigitChars 10 ds n := by
  rw [Nat.ofDigitChars_eq_ofDigitChars_zero]
  exact Nat.le_add_right_of_le (Nat.le_mul_of_pos_left n (Nat.pow_pos (by decide)))

theorem continue?_eq_ok : continue? n cs = .ok m ↔
    (∀ c ∈ cs, c.isDigit = true) ∧ Nat.ofDigitChars 10 cs n.toNat = m.toNat := by
  induction cs generalizing n with
  | nil => simp [continue?, UInt8.toNat_inj]
  | cons c rest ih =>
    rw [Nat.ofDigitChars_cons, show '0'.toNat = 48 from rfl, List.forall_mem_cons, Nat.mul_comm]
    by_cases hc : c.isDigit = true
    · simp only [continue?, value?, hc, if_true, true_and]
      generalize n.toNat * 10 + (c.toNat - 48) = next
      by_cases hsmall : next < 256
      · rw [if_pos hsmall, ih, UInt8.toNat_ofNat_of_lt' hsmall]
      · rw [if_neg hsmall]
        have hgrows := le_ofDigitChars next rest
        have hbound := m.toNat_lt
        exact ⟨nofun, fun h => by omega⟩
    · simp [continue?, value?, hc]

theorem writes_iff (hcs : cs ≠ []) : continue? 0 cs = .ok n ↔ Writes cs n.toNat := by
  rw [continue?_eq_ok]
  exact ⟨fun h => ⟨hcs, h.1, h.2⟩, fun h => ⟨h.digits, h.value⟩⟩

theorem byte?_eq_ok : byte? cs = .ok n ↔ Numeral cs n.toNat := by
  unfold byte?
  split
  case h_1 => exact ⟨nofun, fun | .bare h => absurd rfl h.nonempty⟩
  case h_2 =>
    refine ⟨nofun, fun h => ?_⟩
    cases h with
    | bare h => exact absurd List.mem_cons_self (h.not_mem rfl)
    | signed h => exact absurd rfl h.nonempty
  case h_3 ds hds =>
    rw [writes_iff fun h => hds (h ▸ rfl)]
    refine ⟨.signed, fun h => ?_⟩
    cases h with
    | bare h => exact absurd List.mem_cons_self (h.not_mem rfl)
    | signed h => exact h
  case h_4 hnil _ hplus =>
    rw [writes_iff hnil]
    refine ⟨.bare, fun h => ?_⟩
    cases h with
    | bare h => exact h
    | signed => exact absurd rfl (hplus _)

end Decimal

namespace Endpoint

open Decimal

variable {cs : List Char} {e : Endpoint} {port : Port} {rest ps : List (List Char)}

/-- The texts of an endpoint. -/
inductive Written : List Char → Endpoint → Prop
  | host {h : List Char} {n : Nat} : Numeral h n → n ≤ 255 →
      Written ("/host/".toList ++ h) ⟨.ofNat n, 0⟩
  | port {h p : List Char} {n m : Nat} : Numeral h n → n ≤ 255 → Numeral p m → m ≤ 127 →
      Written ("/host/".toList ++ h ++ "/port/".toList ++ p) ⟨.ofNat n, .ofNat m⟩

theorem parts_eq_splitOn (cs : List Char) : parts cs = cs.splitOn '/' := by
  induction cs with
  | nil => rfl
  | cons c rest ih =>
    rw [List.splitOn_cons_eq_if_modifyHead, ← ih]
    by_cases hc : c = '/'
    · subst hc
      rfl
    · have hne : parts rest ≠ [] := ih ▸ List.splitOn_ne_nil _ _
      obtain ⟨part, others, hparts⟩ := List.exists_cons_of_ne_nil hne
      simp [parts, hc, hparts]

theorem intercalate_parts (cs : List Char) : ['/'].intercalate (parts cs) = cs := by
  rw [parts_eq_splitOn, List.intercalate_splitOn]

theorem parts_intercalate (hps : ps ≠ []) (hslash : ∀ p ∈ ps, '/' ∉ p) :
    parts (['/'].intercalate ps) = ps := by
  rw [parts_eq_splitOn, List.splitOn_intercalate _ hslash hps]

theorem number?_eq_ok : number? cs = .ok port ↔ Numeral cs port.toNat := by
  rw [← byte?_eq_ok, number?]
  cases byte? cs with
  | error => exact ⟨nofun, nofun⟩
  | ok n => exact ⟨fun h => congrArg _ (Except.ok.inj h), fun h => congrArg _ (Except.ok.inj h)⟩

theorem bind_eq_ok {α β : Type} {x : Except AddressFault α} {f : α → Except AddressFault β}
    {b : β} : (x >>= f) = .ok b ↔ ∃ a, x = .ok a ∧ f a = .ok b := by
  cases x with
  | error => exact ⟨nofun, nofun⟩
  | ok a => exact ⟨fun h => ⟨a, rfl, h⟩, fun ⟨_, rfl, h⟩ => h⟩

theorem port?_eq_ok : port? cs = .ok port ↔ Numeral cs port.toNat ∧ port ≤ portLimit := by
  rw [← number?_eq_ok, port?, bind_eq_ok]
  constructor
  · rintro ⟨p, hp, h⟩
    split at h
    case isTrue hlimit =>
      obtain rfl := Except.ok.inj h
      exact ⟨hp, of_decide_eq_true hlimit⟩
    case isFalse => cases h
  · rintro ⟨hp, hlimit⟩
    exact ⟨port, hp, if_pos (decide_eq_true hlimit)⟩

theorem portParts?_eq_ok : portParts? rest = .ok port ↔ rest = [] ∧ port = 0 ∨
    ∃ p, rest = [['p', 'o', 'r', 't'], p] ∧ Numeral p port.toNat ∧ port ≤ portLimit := by
  unfold portParts?
  split
  case h_1 =>
    refine ⟨fun h => .inl ⟨rfl, (Except.ok.inj h).symm⟩, ?_⟩
    rintro (⟨-, rfl⟩ | ⟨p, hp, -⟩)
    · rfl
    · cases hp
  case h_2 p others =>
    simp only [← port?_eq_ok, bind_eq_ok]
    cases others <;> simp
  case h_3 hnil hport =>
    refine ⟨nofun, ?_⟩
    rintro (⟨rfl, -⟩ | ⟨p, rfl, -⟩)
    · exact absurd rfl hnil
    · exact absurd rfl (hport _ _)

theorem ofParts?_eq_ok : ofParts? ps = .ok e ↔ ∃ h rest,
    ps = [] :: ['h', 'o', 's', 't'] :: h :: rest ∧ Numeral h e.host.toNat ∧
      portParts? rest = .ok e.port := by
  unfold ofParts?
  split
  case h_1 h rest =>
    simp only [bind_eq_ok, number?_eq_ok]
    constructor
    · rintro ⟨host, hhost, port, hport, he⟩
      obtain rfl := Except.ok.inj he
      exact ⟨h, rest, rfl, hhost, hport⟩
    · rintro ⟨_, _, heq, hhost, hport⟩
      cases heq
      exact ⟨e.host, hhost, e.port, hport, rfl⟩
  case h_2 hother =>
    refine ⟨nofun, ?_⟩
    rintro ⟨h, rest, rfl, -⟩
    exact absurd rfl (hother _ _)

theorem ofNat_toNat_of_le {n : Nat} (hn : n ≤ 255) : (UInt8.ofNat n).toNat = n :=
  UInt8.toNat_ofNat_of_lt' (Nat.lt_succ_of_le hn)

theorem hostText_eq (h : List Char) :
    "/host/".toList ++ h = ['/'].intercalate [[], ['h', 'o', 's', 't'], h] := by
  simp [List.intercalate]

theorem portText_eq (h p : List Char) : "/host/".toList ++ h ++ "/port/".toList ++ p =
    ['/'].intercalate [[], ['h', 'o', 's', 't'], h, ['p', 'o', 'r', 't'], p] := by
  simp [List.intercalate]

theorem ofChars?_eq_ok : ofChars? cs = .ok e ↔ Written cs e := by
  rw [ofChars?, ofParts?_eq_ok]
  constructor
  · rintro ⟨h, rest, hparts, hhost, hrest⟩
    have hle := Nat.le_of_lt_succ e.host.toNat_lt
    rw [← intercalate_parts cs, hparts]
    rcases portParts?_eq_ok.1 hrest with ⟨rfl, hzero⟩ | ⟨p, rfl, hport, hlimit⟩
    · have hw := Written.host hhost hle
      rwa [hostText_eq, UInt8.ofNat_toNat, ← hzero] at hw
    · have hw := Written.port hhost hle hport (UInt8.le_iff_toNat_le.1 hlimit)
      rwa [portText_eq, UInt8.ofNat_toNat, UInt8.ofNat_toNat] at hw
  · intro hw
    cases hw with
    | @host h n hh hn =>
      refine ⟨h, [], ?_, ?_, rfl⟩
      · rw [hostText_eq, parts_intercalate (List.cons_ne_nil _ _)]
        simp [hh.slash_not_mem]
      · rwa [ofNat_toNat_of_le hn]
    | @port h p n m hh hn hp hm =>
      have hm' := ofNat_toNat_of_le (Nat.le_trans hm (by decide))
      refine ⟨h, [['p', 'o', 'r', 't'], p], ?_, ?_, portParts?_eq_ok.2 (.inr ⟨p, rfl, ?_, ?_⟩)⟩
      · rw [portText_eq, parts_intercalate (List.cons_ne_nil _ _)]
        simp [hh.slash_not_mem, hp.slash_not_mem]
      · rwa [ofNat_toNat_of_le hn]
      · rwa [hm']
      · rw [UInt8.le_iff_toNat_le, hm']
        exact hm

theorem written_chars (h : e.port ≤ portLimit) : Written e.chars e := by
  have hw := Written.port (.bare (writes_digits e.host.toNat)) (Nat.le_of_lt_succ e.host.toNat_lt)
    (.bare (writes_digits e.port.toNat)) (UInt8.le_iff_toNat_le.1 h)
  rwa [UInt8.ofNat_toNat, UInt8.ofNat_toNat] at hw

theorem ofText?_text_of_le (h : e.port ≤ portLimit) : ofText? e.text = .ok e := by
  rw [ofText?, text, String.toList_ofList, ofChars?_eq_ok]
  exact written_chars h

theorem port_le_of_written (h : Written cs e) : e.port ≤ portLimit := by
  cases h with
  | host => exact UInt8.zero_le
  | port _ _ _ hm =>
    rw [UInt8.le_iff_toNat_le, ofNat_toNat_of_le (Nat.le_trans hm (by decide))]
    exact hm

/-- A text is read as an endpoint if and only if the grammar has it as a text of this endpoint.
Reading the text that a valid endpoint is written as gives the endpoint back, so a text that is read
may be replaced by the text of what it is read as. -/
theorem reads_grammar :
    (∀ s e, ofText? s = .ok e ↔ Written s.toList e) ∧
      (∀ e : Endpoint, e.port ≤ portLimit → ofText? e.text = .ok e) ∧
      ∀ s e, ofText? s = .ok e → ofText? e.text = .ok e :=
  ⟨fun _ _ => ofChars?_eq_ok, fun _ => ofText?_text_of_le,
    fun _ _ h => ofText?_text_of_le (port_le_of_written (ofChars?_eq_ok.1 h))⟩

theorem reads_grammar_padded :
    ofText? "/host/+007" = .ok ⟨7, 0⟩ ∧ Written "/host/+007".toList ⟨7, 0⟩ ∧
      ofText? (⟨7, 0⟩ : Endpoint).text = .ok ⟨7, 0⟩ ∧
      (⟨255, 127⟩ : Endpoint).port ≤ portLimit ∧
      ofText? (⟨255, 127⟩ : Endpoint).text = .ok ⟨255, 127⟩ := by
  obtain ⟨hiff, htext, hagain⟩ := reads_grammar
  have hread : ofText? "/host/+007" = .ok ⟨7, 0⟩ := rfl
  have hvalid : (⟨255, 127⟩ : Endpoint).port ≤ portLimit := by decide
  exact ⟨hread, (hiff _ _).1 hread, hagain _ _ hread, hvalid, htext _ hvalid⟩

end Endpoint

end ReliableStream
