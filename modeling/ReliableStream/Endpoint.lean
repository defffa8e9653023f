import ReliableStream.SortedMap

/-!
The ends of a connection. A host has a one-byte address, an endpoint is a port on a host, and a
pair of endpoints names a connection from the point of view of its near end.
-/

namespace ReliableStream

abbrev HostId := UInt8

abbrev Port := UInt8

def portLimit : Port := 127

def validPort (p : Port) : Bool := p ≤ portLimit

structure Endpoint where
  host : HostId
  port : Port
  deriving DecidableEq, Repr, Inhabited

namespace Endpoint

def rank (e : Endpoint) : Nat := e.host.toNat * 256 + e.port.toNat

theorem rank_lt (e : Endpoint) : e.rank < 65536 := by
  have := e.host.toNat_lt
  have := e.port.toNat_lt
  simp only [rank]
  omega

theorem rank_inj {a b : Endpoint} (h : a.rank = b.rank) : a = b := by
  have := a.port.toNat_lt
  have := b.port.toNat_lt
  simp only [rank] at h
  have hh : a.host = b.host := UInt8.toNat_inj.mp (by omega)
  have hp : a.port = b.port := UInt8.toNat_inj.mp (by omega)
  cases a; cases b
  simp_all

instance : Ranked Endpoint := ⟨rank, rank_inj⟩

end Endpoint

/-- A connection as its near end names it. -/
structure SocketPair where
  far : Endpoint
  near : Endpoint
  deriving DecidableEq, Repr, Inhabited

namespace SocketPair

def rank (k : SocketPair) : Nat := k.far.rank * 65536 + k.near.rank

theorem rank_inj {a b : SocketPair} (h : a.rank = b.rank) : a = b := by
  have := a.near.rank_lt
  have := b.near.rank_lt
  simp only [rank] at h
  have hf : a.far = b.far := Endpoint.rank_inj (by omega)
  have hn : a.near = b.near := Endpoint.rank_inj (by omega)
  cases a; cases b
  simp_all

instance : Ranked SocketPair := ⟨rank, rank_inj⟩

/-- The same connection as its far end names it. -/
def swap (k : SocketPair) : SocketPair := ⟨k.near, k.far⟩

@[simp] theorem swap_swap (k : SocketPair) : k.swap.swap = k := rfl

def facing (k j : SocketPair) : Bool := k.swap = j

end SocketPair

end ReliableStream
