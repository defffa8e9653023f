import ReliableStream.Proofs.Log
import ReliableStream.Proofs.Operations
import ReliableStream.Proofs.SendState

namespace ReliableStream

/-- The segments take the data along the connection. None of them is empty or too long, and they are
numbered one after another from `next` on, and from 0 again after the greatest number. -/
structure Carries (k : SocketPair) (next : SequenceNumber) (data : List UInt8)
    (l : List Segment) : Prop where
  bytes : bytes l = data
  size : ∀ s ∈ l, 1 ≤ s.payload.length ∧ s.payload.length ≤ payloadLength
  numbered : ∀ (i : Nat) (s : Segment), l[i]? = some s →
    s = { Segment.data k s.payload with seq := next + .ofNat i }

theorem carries_payloads (k : SocketPair) (next : SequenceNumber) (data : List UInt8) :
    Carries k next data (Segment.numbered k next (Station.payloads data)) where
  bytes := (bytes_numbered k next _).trans (Station.flatten_payloads data)
  size _ hs := Station.length_payloads (Segment.payload_of_numbered hs)
  numbered _ _ hi := (Segment.getElem?_numbered hi).2

theorem Outbox.put_put (o : Outbox) (k : SocketPair) (w w' : Window) :
    (o.put k w).put k w' = o.put k w' := by
  simp only [put, SortedMap.insert_insert]

namespace Host

variable {h : Host} {k : SocketPair}

def queue (h : Host) (k : SocketPair) (l : List Segment) : Host :=
  { h with outbox := h.outbox.put k ((h.outbox.window k).extend l) }

theorem sendAll_of_open (hp : h.table.phase k = .established)
    (hw : (h.outbox.window k).stopped = false) {l : List (List UInt8)} (hl : l ≠ []) :
    Station.sendAll h k l = (h.queue k (Segment.numbered k (h.outbox.window k).next l), none) := by
  induction l generalizing h with
  | nil => exact absurd rfl hl
  | cons payload rest ih =>
    rw [Station.sendAll, h.send_of_open payload hp hw]
    by_cases hr : rest = []
    · subst hr
      rfl
    · have hall := ih (h := { h with
        outbox := h.outbox.put k ((h.outbox.window k).push (.data k payload)) }) hp
        (by rw [Outbox.window_put]; exact hw) hr
      simp only [queue, Outbox.window_put, Outbox.put_put, Window.push_extend] at hall
      exact hall

theorem sendAll_of_refused
    (hn : ¬(h.table.phase k = .established ∧ (h.outbox.window k).stopped = false))
    {l : List (List UInt8)} (hl : l ≠ []) :
    ∃ f, Station.sendAll h k l = (h.reap k, some f) := by
  cases l with
  | nil => exact absurd rfl hl
  | cons payload rest =>
    obtain ⟨f, hf⟩ := h.send_of_refused payload hn
    exact ⟨f, by rw [Station.sendAll, hf]⟩

end Host

namespace Station

variable {s : Station} {k : SocketPair} {data : List UInt8}

theorem write_of_open (hp : s.host.table.phase k = .established)
    (hw : (s.host.outbox.window k).stopped = false) (hd : data ≠ []) :
    s.write k data = ({ s with host := (s.host.queue k
      (Segment.numbered k (s.host.outbox.window k).next (payloads data))).nudge },
        .ok data.length) := by
  rw [write, Host.sendAll_of_open hp hw (mt payloads_eq_nil.1 hd)]

theorem write_of_refused
    (hn : ¬(s.host.table.phase k = .established ∧ (s.host.outbox.window k).stopped = false))
    (hd : data ≠ []) : ∃ f, s.write k data = ({ s with host := s.host.reap k }, .error f) := by
  obtain ⟨f, hf⟩ := Host.sendAll_of_refused hn (mt payloads_eq_nil.1 hd)
  exact ⟨f, by rw [write, hf]⟩

theorem write_error_iff (hd : data ≠ []) : (∃ f, (s.write k data).2 = .error f) ↔
    ¬(s.host.table.phase k = .established ∧ (s.host.outbox.window k).stopped = false) := by
  constructor
  · rintro ⟨f, hf⟩ ⟨hp, hw⟩
    rw [write_of_open hp hw hd] at hf
    cases hf
  · intro hn
    obtain ⟨f, hf⟩ := write_of_refused hn hd
    exact ⟨f, by rw [hf]⟩

inductive Writes (s : Station) (k : SocketPair) (data : List UInt8) :
    Station × Except Failure Nat → Prop
  | refused {h : Host} {f : Failure} : s.host.Untouched k h →
      Writes s k data ({ s with host := h }, .error f)
  | taken {l : List Segment} : Carries k (s.host.outbox.window k).next data l →
      Writes s k data ({ s with host := { s.host with
        outbox := s.host.outbox.put k { s.host.outbox.window k with
          pending := (s.host.outbox.window k).pending ++ l
          next := (s.host.outbox.window k).next + .ofNat l.length }
        nudged := true } }, .ok data.length)

theorem writes_write (hd : data ≠ []) : s.Writes k data (s.write k data) := by
  by_cases ho : s.host.table.phase k = .established ∧ (s.host.outbox.window k).stopped = false
  · rw [write_of_open ho.1 ho.2 hd]
    exact .taken (carries_payloads k _ data)
  · obtain ⟨f, hf⟩ := write_of_refused ho hd
    rw [hf]
    exact .refused (s.host.untouched_reap k)

theorem Orderly.write_error_iff (h : s.Orderly) (hd : data ≠ []) :
    (∃ f, (s.write k data).2 = .error f) ↔ s.host.table.phase k ≠ .established := by
  have hrunning (hp : s.host.table.phase k = .established) :
      (s.host.outbox.window k).stopped = false := by
    have hside : (s.host.side k).phase = .established := hp
    exact (h.stopping k).running (by simp [hside])
  rw [Station.write_error_iff hd, and_iff_left_of_imp hrunning]

/-- A write does all or nothing, whatever state the station is in and however long the data are. In
every run of a station it fails if and only if the connection is not open. -/
theorem write_all_or_nothing (k : SocketPair) (data : List UInt8) (hd : data ≠ []) :
    (∀ s : Station, s.Writes k data (s.write k data)) ∧
      ∀ (address : HostId) (recvWindow sendWindow patience : Nat) (ops : List Op),
        (∃ f, (((fresh address recvWindow sendWindow patience).run ops).write k data).2 =
            .error f) ↔
          ((fresh address recvWindow sendWindow patience).run ops).host.table.phase k ≠
            .established :=
  ⟨fun _ => writes_write hd, fun address recvWindow sendWindow patience ops =>
    ((orderly_fresh address recvWindow sendWindow patience).run ops).write_error_iff hd⟩

theorem write_all_or_nothing_hi :
    [104, 105] ≠ ([] : List UInt8) ∧
      (∀ s : Station, s.Writes ⟨⟨2, 7⟩, ⟨1, 0⟩⟩ [104, 105]
        (s.write ⟨⟨2, 7⟩, ⟨1, 0⟩⟩ [104, 105])) ∧
      ∀ (address : HostId) (recvWindow sendWindow patience : Nat) (ops : List Op),
        (∃ f, (((fresh address recvWindow sendWindow patience).run ops).write
            ⟨⟨2, 7⟩, ⟨1, 0⟩⟩ [104, 105]).2 = .error f) ↔
          ((fresh address recvWindow sendWindow patience).run ops).host.table.phase
            ⟨⟨2, 7⟩, ⟨1, 0⟩⟩ ≠ .established :=
  ⟨by simp, write_all_or_nothing ⟨⟨2, 7⟩, ⟨1, 0⟩⟩ [104, 105] (by simp)⟩

end Station

end ReliableStream
