import ReliableStream.Failure

/-!
A hub: a switch in memory that carries raw frames between links. A frame goes to the link attached
last for its destination; it is lost if there is none.
-/

namespace ReliableStream

abbrev LinkId := Nat

structure HubLink where
  host : HostId
  queue : List (List UInt8) := []
  held : Bool := true
  deriving DecidableEq, Repr

structure Hub where
  links : List HubLink := []
  attached : SortedMap HostId LinkId := {}
  deriving DecidableEq

namespace Hub

def attach (h : Hub) (host : HostId) : Hub × LinkId :=
  ({ links := h.links ++ [{ host }], attached := h.attached.insert host h.links.length },
    h.links.length)

def detach (h : Hub) (host : HostId) : Hub := { h with attached := h.attached.erase host }

def close (h : Hub) (link : LinkId) : Hub :=
  { h with links := h.links.modify link fun l => { l with held := false } }

def isAttached (h : Hub) (link : LinkId) : Bool :=
  match h.links[link]? with
  | none => false
  | some l => h.attached.get? l.host = some link

def put (h : Hub) (f : Frame) : Hub :=
  match h.attached.get? f.dest with
  | none => h
  | some link =>
    { h with
      links := h.links.modify link fun l =>
        if l.held then { l with queue := l.queue ++ [f.toBytes] } else l }

/-- Sends a frame over a link. Its source has to be the host of the link. -/
def send (h : Hub) (link : LinkId) (f : Frame) : Hub × Except LinkFault Unit :=
  match h.links[link]? with
  | none => (h, .error .detached)
  | some l => if f.src = l.host then (h.put f, .ok ()) else (h, .error .foreignSource)

def receive (h : Hub) (link : LinkId) : Hub × Except LinkFault (Option Frame) :=
  match h.links[link]? with
  | none => (h, .error .detached)
  | some l =>
    match l.queue with
    | [] => (h, if h.isAttached link then .ok none else .error .detached)
    | raw :: rest =>
      ({ h with links := h.links.set link { l with queue := rest } },
        match Frame.ofBytes raw with
        | .error fault => .error (.frame fault)
        | .ok f => .ok (some f))

inductive Op where
  | attach (host : HostId)
  | detach (host : HostId)
  | close (link : LinkId)
  | put (frame : Frame)
  | send (link : LinkId) (frame : Frame)
  | receive (link : LinkId)
  deriving DecidableEq, Repr

inductive Reply where
  | none
  | attached (link : LinkId)
  | sent (result : Except LinkFault Unit)
  | received (result : Except LinkFault (Option Frame))

def step (h : Hub) : Op → Hub × Reply
  | .attach host => let (h, link) := h.attach host; (h, .attached link)
  | .detach host => (h.detach host, .none)
  | .close link => (h.close link, .none)
  | .put f => (h.put f, .none)
  | .send link f => let (h, result) := h.send link f; (h, .sent result)
  | .receive link => let (h, result) := h.receive link; (h, .received result)

def run (h : Hub) (ops : List Op) : Hub := ops.foldl (fun h op => (h.step op).1) h

def history (h : Hub) : List Op → List (Op × Reply)
  | [] => []
  | op :: rest => (op, (h.step op).2) :: (h.step op).1.history rest

end Hub

end ReliableStream
