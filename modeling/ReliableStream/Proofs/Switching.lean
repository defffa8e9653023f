import Mathlib.Data.List.Basic
import ReliableStream.Hub

namespace ReliableStream

namespace Hub

variable {h h' : Hub} {link j : LinkId} {host k : HostId} {f : Frame} {fs : List Frame} {op : Op}
  {ops : List Op}

/-- The frame for a host that goes into the hub. One that a link refuses does not. -/
def Op.accepted (host : HostId) : Op → Reply → List Frame
  | .put f, _ => if f.dest = host then [f] else []
  | .send _ f, .sent (.ok ()) => if f.dest = host then [f] else []
  | _, _ => []

def Op.received (link : LinkId) : Op → Reply → List Frame
  | .receive j, .received (.ok (some f)) => if j = link then [f] else []
  | _, _ => []

def Op.ends (link : LinkId) (host : HostId) : Op → Bool
  | .attach k | .detach k => k = host
  | .close j => j = link
  | .put _ | .send _ _ | .receive _ => false

/-- The frames for a host that go into the hub while a link is the one attached for it. -/
def addressed (h : Hub) (link : LinkId) (host : HostId) (ops : List Op) : List Frame :=
  ((h.history ops).takeWhile fun x => !x.1.ends link host).flatMap fun x => x.1.accepted host x.2

def received (h : Hub) (link : LinkId) (ops : List Op) : List Frame :=
  (h.history ops).flatMap fun x => x.1.received link x.2

theorem addressed_of_ends (hop : op.ends link host) : h.addressed link host (op :: ops) = [] := by
  simp [addressed, history, hop]

theorem addressed_cons (hop : op.ends link host = false) : h.addressed link host (op :: ops) =
    op.accepted host (h.step op).2 ++ (h.step op).1.addressed link host ops := by
  simp [addressed, history, hop]

theorem accepted_of_ends (hop : op.ends link host) (reply : Reply) :
    op.accepted host reply = [] := by
  cases op with
  | attach | detach | close => rfl
  | put | send | receive => cases hop

def queue (h : Hub) (link : LinkId) : List (List UInt8) := (h.links[link]?).elim [] HubLink.queue

def host? (h : Hub) (link : LinkId) : Option HostId := (h.links[link]?).map HubLink.host

def held (h : Hub) (link : LinkId) : Bool := (h.links[link]?).any HubLink.held

def serves (h : Hub) (link : LinkId) (host : HostId) : Bool :=
  h.attached.get? host = some link && h.held link

theorem lt_of_host? (hl : h.host? link = some host) : link < h.links.length := by
  obtain ⟨l, hl, -⟩ := Option.map_eq_some_iff.1 hl
  exact (List.getElem?_eq_some_iff.1 hl).1

theorem host?_modify (h : Hub) (j link : LinkId) {g : HubLink → HubLink}
    (hg : ∀ l, (g l).host = l.host) :
    host? { h with links := h.links.modify j g } link = h.host? link := by
  simp only [host?, List.getElem?_modify]
  cases h.links[link]? with
  | none => rfl
  | some l => by_cases hj : j = link <;> simp [hj, hg]

theorem links_attach (hl : h.host? link = some host) (k : HostId) :
    (h.attach k).1.links[link]? = h.links[link]? :=
  List.getElem?_append_left (lt_of_host? hl)

theorem queue_attach (h : Hub) (k : HostId) (link : LinkId) :
    (h.attach k).1.queue link = h.queue link := by
  simp only [attach, queue, List.getElem?_append]
  split
  · rfl
  · rename_i hle
    rw [List.getElem?_eq_none (Nat.le_of_not_lt hle), List.getElem?_singleton]
    split <;> rfl

theorem queue_close (h : Hub) (j link : LinkId) : (h.close j).queue link = h.queue link := by
  simp only [close, queue, List.getElem?_modify]
  cases h.links[link]? with
  | none => rfl
  | some l => by_cases he : j = link <;> simp [he]

theorem queue_put (h : Hub) (f : Frame) (link : LinkId) :
    (h.put f).queue link =
      if h.serves link f.dest then h.queue link ++ [f.toBytes] else h.queue link := by
  unfold put serves held queue
  cases hj : h.attached.get? f.dest with
  | none => simp
  | some j =>
    simp only [List.getElem?_modify]
    by_cases he : j = link
    · cases hl : h.links[link]? with
      | none => simp
      | some l => cases hh : l.held <;> simp [he, hh]
    · cases hl : h.links[link]? <;> simp [he]

theorem send_own (hl : h.host? j = some f.src) : h.send j f = (h.put f, .ok ()) := by
  obtain ⟨l, hj, hhost⟩ := Option.map_eq_some_iff.1 hl
  simp [send, hj, hhost]

theorem send_foreign (hl : h.host? j = some host) (hf : f.src ≠ host) :
    h.send j f = (h, .error .foreignSource) := by
  obtain ⟨l, hj, rfl⟩ := Option.map_eq_some_iff.1 hl
  simp [send, hj, hf]

theorem send_cases (h : Hub) (j : LinkId) (f : Frame) :
    h.send j f = (h.put f, .ok ()) ∨ ∃ fault, h.send j f = (h, .error fault) := by
  unfold send
  split
  · exact .inr ⟨_, rfl⟩
  · split
    · exact .inl rfl
    · exact .inr ⟨_, rfl⟩

theorem receive_empty (hl : h.host? j = some host) (hq : h.queue j = []) : h.receive j =
    (h, if h.attached.get? host = some j then .ok none else .error .detached) := by
  obtain ⟨l, hj, rfl⟩ := Option.map_eq_some_iff.1 hl
  have hnil : l.queue = [] := by simpa [queue, hj] using hq
  simp [receive, isAttached, hj, hnil]

theorem receive_next {raws : List (List UInt8)} (hq : h.queue j = f.toBytes :: raws) :
    (h.receive j).2 = .ok (some f) := by
  cases hj : h.links[j]? with
  | none => simp [queue, hj] at hq
  | some l =>
    have hcons : l.queue = f.toBytes :: raws := by simpa [queue, hj] using hq
    simp [receive, hj, hcons, Frame.ofBytes_toBytes]

theorem receive_fst (h : Hub) (j : LinkId) : (h.receive j).1 =
    { h with links := h.links.modify j fun l => { l with queue := l.queue.tail } } := by
  unfold receive
  cases hj : h.links[j]? with
  | none => rw [List.modify_eq_self (List.getElem?_eq_none_iff.1 hj)]
  | some l =>
    obtain ⟨hlt, rfl⟩ := List.getElem?_eq_some_iff.1 hj
    rw [List.modify_eq_set_get _ hlt]
    cases hq : h.links[j].queue with
    | nil =>
      have hl : { h.links[j] with queue := [] } = h.links[j] := by rw [← hq]
      simp [hl, hq]
    | cons raw rest => simp [hq]

theorem queue_receive (h : Hub) (j link : LinkId) : (h.receive j).1.queue link =
    if j = link then (h.queue link).tail else h.queue link := by
  rw [receive_fst, queue, List.getElem?_modify]
  cases hl : h.links[link]? with
  | none => simp [queue, hl]
  | some l => by_cases hj : j = link <;> simp [queue, hl, hj]

structure SameLinks (h h' : Hub) : Prop where
  attached : h'.attached = h.attached
  host? : ∀ j, h'.host? j = h.host? j
  held : ∀ j, h'.held j = h.held j

namespace SameLinks

theorem refl (h : Hub) : h.SameLinks h := ⟨rfl, fun _ => rfl, fun _ => rfl⟩

theorem serves (hs : h.SameLinks h') (link : LinkId) (host : HostId) :
    h'.serves link host = h.serves link host := by
  unfold Hub.serves
  rw [hs.attached, hs.held]

theorem modify (h : Hub) (j : LinkId) {g : HubLink → HubLink}
    (hg : ∀ l, (g l).host = l.host ∧ (g l).held = l.held) :
    h.SameLinks { h with links := h.links.modify j g } where
  attached := rfl
  host? i := host?_modify h j i fun l => (hg l).1
  held i := by
    simp only [Hub.held, List.getElem?_modify]
    cases h.links[i]? with
    | none => rfl
    | some l => by_cases hi : j = i <;> simp [hi, hg]

theorem put (h : Hub) (f : Frame) : h.SameLinks (h.put f) := by
  unfold Hub.put
  cases h.attached.get? f.dest with
  | none => exact refl h
  | some j =>
    apply modify h j
    intro l
    split <;> exact ⟨rfl, rfl⟩

theorem send (h : Hub) (j : LinkId) (f : Frame) : h.SameLinks (h.send j f).1 := by
  rcases h.send_cases j f with heq | ⟨fault, heq⟩
  · exact heq ▸ put h f
  · exact heq ▸ refl h

theorem receive (h : Hub) (j : LinkId) : h.SameLinks (h.receive j).1 := by
  rw [receive_fst]
  exact modify h j fun _ => ⟨rfl, rfl⟩

end SameLinks

theorem host?_attach (h : Hub) (k : HostId) (link : LinkId) : (h.attach k).1.host? link =
    if link = h.links.length then some k else h.host? link := by
  simp only [attach, host?, List.getElem?_append]
  split
  · rename_i hlt
    rw [if_neg (Nat.ne_of_lt hlt)]
  · rename_i hle
    rw [List.getElem?_singleton]
    by_cases he : link = h.links.length
    · simp [he]
    · have hsub : link - h.links.length ≠ 0 :=
        Nat.sub_ne_zero_of_lt (Nat.lt_of_le_of_ne (Nat.le_of_not_lt hle) (Ne.symm he))
      simp [he, hsub, List.getElem?_eq_none (Nat.le_of_not_lt hle)]

theorem host?_step_of_ne (hop : ∀ k, op ≠ .attach k) (link : LinkId) :
    (h.step op).1.host? link = h.host? link := by
  cases op with
  | attach k => exact absurd rfl (hop k)
  | detach k => rfl
  | close j => exact host?_modify h j link fun _ => rfl
  | put f => exact (SameLinks.put h f).host? link
  | send j f => exact (SameLinks.send h j f).host? link
  | receive j => exact (SameLinks.receive h j).host? link

theorem host?_step (hl : h.host? link = some host) (op : Op) :
    (h.step op).1.host? link = some host := by
  by_cases hop : ∃ k, op = .attach k
  · obtain ⟨k, rfl⟩ := hop
    exact (congrArg (Option.map HubLink.host) (links_attach hl k)).trans hl
  · exact (host?_step_of_ne (not_exists.1 hop) link).trans hl

theorem host?_of_step (hl : (h.step op).1.host? link = some host) :
    h.host? link = some host ∨ op = .attach host ∧ (h.attach host).2 = link := by
  by_cases hop : ∃ k, op = .attach k
  · obtain ⟨k, rfl⟩ := hop
    rw [step, host?_attach] at hl
    split at hl
    · rename_i he
      cases hl
      exact .inr ⟨rfl, he.symm⟩
    · exact .inl hl
  · exact .inl ((host?_step_of_ne (not_exists.1 hop) link).symm.trans hl)

theorem held_close (h : Hub) (j link : LinkId) :
    (h.close j).held link = (h.held link && !decide (j = link)) := by
  simp only [close, held, List.getElem?_modify]
  cases h.links[link]? with
  | none => rfl
  | some l => by_cases hj : j = link <;> simp [hj]

theorem held_step (hl : h.host? link = some host) (hop : op ≠ .close link) :
    (h.step op).1.held link = h.held link := by
  cases op with
  | attach k => exact congrArg (Option.any HubLink.held) (links_attach hl k)
  | detach k => rfl
  | close j =>
    have hj : j ≠ link := fun hj => hop (by rw [hj])
    rw [step, held_close, decide_eq_false hj, Bool.not_false, Bool.and_true]
  | put f => exact (SameLinks.put h f).held link
  | send j f => exact (SameLinks.send h j f).held link
  | receive j => exact (SameLinks.receive h j).held link

theorem serves_step (hl : h.host? link = some host) (op : Op) (k : HostId) :
    (h.step op).1.serves link k = (h.serves link k && !op.ends link k) := by
  cases op with
  | attach i =>
    have hheld : (h.attach i).1.held link = h.held link := held_step hl (nofun : Op.attach i ≠ .close link)
    have hne : h.links.length ≠ link := Nat.ne_of_gt (lt_of_host? hl)
    simp only [step, serves, hheld, Op.ends]
    by_cases hi : i = k
    · simp [attach, hi, hne]
    · simp [attach, hi, SortedMap.get?_insert_of_ne]
  | detach i =>
    simp only [step, serves, Op.ends]
    by_cases hi : i = k
    · simp [detach, hi]
    · simp [detach, held, hi, SortedMap.get?_erase_of_ne]
  | close j =>
    simp only [step, serves, held_close, Op.ends, Bool.and_assoc]
    rfl
  | put f => simp [step, (SameLinks.put h f).serves, Op.ends]
  | send j f => simp [step, (SameLinks.send h j f).serves, Op.ends]
  | receive j => simp [step, (SameLinks.receive h j).serves, Op.ends]

theorem serves_dest (hown : ∀ k, h.serves link k → k = host) (f : Frame) :
    h.serves link f.dest ↔ h.serves link host ∧ f.dest = host :=
  ⟨fun hs => ⟨hown _ hs ▸ hs, hown _ hs⟩, fun hs => hs.2 ▸ hs.1⟩

theorem queue_put_own (hown : ∀ k, h.serves link k → k = host)
    (hq : h.queue link = fs.map Frame.toBytes) (f : Frame) : (h.put f).queue link =
      (fs ++ if h.serves link host then if f.dest = host then [f] else [] else []).map
        Frame.toBytes := by
  rw [queue_put, hq]
  by_cases hs : h.serves link f.dest
  · obtain ⟨hserves, hdest⟩ := (serves_dest hown f).1 hs
    simp [hserves, hdest]
  · rw [if_neg hs]
    split
    · rename_i hserves
      rw [if_neg fun hdest => hs ((serves_dest hown f).2 ⟨hserves, hdest⟩), List.append_nil]
    · rw [List.append_nil]

theorem received_receive (hl : h.host? link = some host)
    (hq : h.queue link = fs.map Frame.toBytes) :
    Op.received link (.receive link) (.received (h.receive link).2) ++ fs.tail = fs := by
  cases fs with
  | nil =>
    rw [receive_empty hl hq]
    split <;> rfl
  | cons f rest => simp [receive_next hq, Op.received]

theorem received_receive_of_ne (hj : j ≠ link) (reply : Reply) :
    Op.received link (.receive j) reply = [] := by
  unfold Op.received
  split
  · rename_i heq
    cases heq
    exact if_neg hj
  · rfl

theorem queue_step (hl : h.host? link = some host) (hown : ∀ k, h.serves link k → k = host)
    (hq : h.queue link = fs.map Frame.toBytes) (op : Op) :
    ∃ rest : List Frame, (h.step op).1.queue link = rest.map Frame.toBytes ∧
      op.received link (h.step op).2 ++ rest =
        fs ++ if h.serves link host then op.accepted host (h.step op).2 else [] := by
  -- Most operations leave the queue as it is.
  have hquiet : ∀ reply, op.received link reply = [] → op.accepted host reply = [] →
      op.received link reply ++ fs =
        fs ++ if h.serves link host then op.accepted host reply else [] := by
    intro reply hreceived haccepted
    rw [hreceived, haccepted, ite_self, List.append_nil, List.nil_append]
  cases op with
  | attach k => exact ⟨fs, (queue_attach h k link).trans hq, hquiet _ rfl rfl⟩
  | detach k => exact ⟨fs, hq, hquiet _ rfl rfl⟩
  | close j => exact ⟨fs, (queue_close h j link).trans hq, hquiet _ rfl rfl⟩
  | put f => exact ⟨_, queue_put_own hown hq f, rfl⟩
  | send j f =>
    rcases h.send_cases j f with heq | ⟨fault, heq⟩
    · simp only [step, heq]
      exact ⟨_, queue_put_own hown hq f, rfl⟩
    · simp only [step, heq]
      exact ⟨fs, hq, hquiet _ rfl rfl⟩
  | receive j =>
    have hqueue := queue_receive h j link
    by_cases hj : j = link
    · subst hj
      refine ⟨fs.tail, ?_, ?_⟩
      · rw [step, hqueue, if_pos rfl, hq, List.map_tail]
      · have haccepted : Op.accepted host (.receive j) (h.step (.receive j)).2 = [] := rfl
        rw [haccepted, ite_self, List.append_nil]
        exact received_receive hl hq
    · rw [if_neg hj] at hqueue
      exact ⟨fs, hqueue.trans hq, hquiet _ (received_receive_of_ne hj _) rfl⟩

theorem host?_run (hl : h.host? link = some host) (ops : List Op) :
    (h.run ops).host? link = some host := by
  induction ops generalizing h with
  | nil => exact hl
  | cons op rest ih => exact ih (host?_step hl op)

theorem serves_run (hl : h.host? link = some host) (ops : List Op) (k : HostId) :
    (h.run ops).serves link k = (h.serves link k && ops.all fun op => !op.ends link k) := by
  induction ops generalizing h with
  | nil => simp [run]
  | cons op rest ih =>
    calc (h.run (op :: rest)).serves link k
      _ = ((h.step op).1.serves link k && rest.all fun op => !op.ends link k) :=
        ih (host?_step hl op)
      _ = (h.serves link k && (op :: rest).all fun op => !op.ends link k) := by
        rw [serves_step hl, List.all_cons, Bool.and_assoc]

theorem queue_run (hl : h.host? link = some host) (hown : ∀ k, h.serves link k → k = host)
    (hq : h.queue link = fs.map Frame.toBytes) (ops : List Op) :
    ∃ rest : List Frame, (h.run ops).queue link = rest.map Frame.toBytes ∧
      h.received link ops ++ rest =
        fs ++ if h.serves link host then h.addressed link host ops else [] := by
  -- What one operation leaves in the queue is what the next one finds there.
  induction ops generalizing h fs with
  | nil => exact ⟨fs, hq, by simp [received, addressed, history]⟩
  | cons op ops ih =>
    have hserves := serves_step hl op
    obtain ⟨mid, hmid, heq⟩ := queue_step hl hown hq op
    obtain ⟨rest, hrest, htail⟩ := ih (host?_step hl op)
      (fun k hk => hown k (by rw [hserves, Bool.and_eq_true] at hk; exact hk.1)) hmid
    refine ⟨rest, hrest, ?_⟩
    calc h.received link (op :: ops) ++ rest
      _ = op.received link (h.step op).2 ++ ((h.step op).1.received link ops ++ rest) :=
        List.append_assoc ..
      _ = fs ++ ((if h.serves link host then op.accepted host (h.step op).2 else []) ++
            if (h.step op).1.serves link host then (h.step op).1.addressed link host ops
            else []) := by
        rw [htail, ← List.append_assoc, heq, List.append_assoc]
      _ = fs ++ if h.serves link host then h.addressed link host (op :: ops) else [] := by
        rw [hserves]
        cases hop : op.ends link host with
        | true => simp [accepted_of_ends hop, addressed_of_ends hop]
        | false =>
          rw [addressed_cons hop]
          cases h.serves link host <;> rfl

theorem held_run (hl : h.host? link = some host) (hops : .close link ∉ ops) :
    (h.run ops).held link = h.held link := by
  induction ops generalizing h with
  | nil => rfl
  | cons op rest ih =>
    obtain ⟨hop, hrest⟩ := not_or.1 (mt List.mem_cons.2 hops)
    exact (ih (host?_step hl op) hrest).trans (held_step hl (Ne.symm hop))

theorem exists_attach (hl : (h.run ops).host? link = some host) : h.host? link = some host ∨
    ∃ before after, ops = before ++ .attach host :: after ∧
      ((h.run before).attach host).2 = link := by
  induction ops generalizing h with
  | nil => exact .inl hl
  | cons op rest ih =>
    rcases ih hl with hstep | ⟨before, after, rfl, hlink⟩
    · rcases host?_of_step hstep with hl | ⟨rfl, hlink⟩
      · exact .inl hl
      · exact .inr ⟨[], rest, rfl, hlink⟩
    · exact .inr ⟨op :: before, after, rfl, hlink⟩

def Numbered (h : Hub) : Prop := ∀ k j, h.attached.get? k = some j → ∃ host, h.host? j = some host

theorem numbered_empty : ({} : Hub).Numbered := by
  intro k j hj
  cases hj

theorem numbered_step (hn : h.Numbered) (op : Op) : (h.step op).1.Numbered := by
  intro k j hj
  suffices h.attached.get? k = some j ∨ ∃ i, op = .attach i ∧ j = h.links.length by
    rcases this with hold | ⟨i, rfl, rfl⟩
    · obtain ⟨host, hhost⟩ := hn k j hold
      exact ⟨host, host?_step hhost op⟩
    · exact ⟨i, (host?_attach h i _).trans (if_pos rfl)⟩
  cases op with
  | attach i =>
    by_cases hi : i = k
    · subst hi
      simp only [step, attach, SortedMap.get?_insert_self, Option.some.injEq] at hj
      exact .inr ⟨i, rfl, hj.symm⟩
    · simp only [step, attach, SortedMap.get?_insert_of_ne _ _ hi] at hj
      exact .inl hj
  | detach i =>
    by_cases hi : i = k
    · subst hi
      simp [step, detach] at hj
    · simp only [step, detach, SortedMap.get?_erase_of_ne _ hi] at hj
      exact .inl hj
  | close i => exact .inl hj
  | put f => exact .inl ((SameLinks.put h f).attached ▸ hj)
  | send i f => exact .inl ((SameLinks.send h i f).attached ▸ hj)
  | receive i => exact .inl ((SameLinks.receive h i).attached ▸ hj)

theorem numbered_run (hn : h.Numbered) (ops : List Op) : (h.run ops).Numbered := by
  induction ops generalizing h with
  | nil => exact hn
  | cons op rest ih => exact ih (numbered_step hn op)

theorem held_attach (h : Hub) (host : HostId) : (h.attach host).1.held h.links.length := by
  simp [attach, held]

theorem serves_attach (hn : h.Numbered) (host k : HostId) :
    (h.attach host).1.serves h.links.length k = decide (host = k) := by
  rw [serves, held_attach, Bool.and_true]
  by_cases hk : host = k
  · subst hk
    simp [attach]
  · have hnew : h.attached.get? k ≠ some h.links.length := by
      intro hget
      obtain ⟨i, hi⟩ := hn k _ hget
      exact Nat.lt_irrefl _ (lt_of_host? hi)
    simp [attach, SortedMap.get?_insert_of_ne _ _ hk, hnew, hk]

theorem queue_attach_self (h : Hub) (host : HostId) :
    (h.attach host).1.queue h.links.length = [] := by
  rw [queue_attach, queue, List.getElem?_eq_none (Nat.le_refl _)]
  rfl

structure Delivers (h : Hub) (link : LinkId) (host : HostId) (ops : List Op) : Prop where
  in_order : ∃ queued : List Frame, (h.run ops).queue link = queued.map Frame.toBytes ∧
    h.received link ops ++ queued = h.addressed link host ops
  send_eq : ∀ f, ((h.run ops).send link f).2 =
    if f.src = host then .ok () else .error .foreignSource
  next : ∀ f raws, (h.run ops).queue link = f.toBytes :: raws →
    ((h.run ops).receive link).2 = .ok (some f)
  detached_iff : .close link ∉ ops → (((h.run ops).receive link).2 = .error .detached ↔
    (h.run ops).queue link = [] ∧ ∃ op ∈ ops, op.ends link host)
  decodes : ∀ fault, ((h.run ops).receive link).2 ≠ .error (.frame fault)

theorem receive_detached_iff (hl : h.host? link = some host) (hheld : h.held link)
    (hq : h.queue link = fs.map Frame.toBytes) :
    (h.receive link).2 = .error .detached ↔ h.queue link = [] ∧ h.serves link host = false := by
  cases fs with
  | nil =>
    rw [receive_empty hl hq, serves, hheld, Bool.and_true, decide_eq_false_iff_not]
    by_cases hattached : h.attached.get? host = some link <;> simp [hattached, hq]
  | cons f rest => simp [receive_next hq, hq]

theorem receive_decodes (hl : h.host? link = some host) (hq : h.queue link = fs.map Frame.toBytes)
    (fault : FrameFault) : (h.receive link).2 ≠ .error (.frame fault) := by
  cases fs with
  | nil =>
    rw [receive_empty hl hq]
    split <;> nofun
  | cons f rest =>
    rw [receive_next hq]
    nofun

theorem Numbered.delivers (hn : h.Numbered) (host : HostId) (ops : List Op) :
    (h.attach host).1.Delivers h.links.length host ops := by
  have hl : (h.attach host).1.host? h.links.length = some host :=
    (host?_attach h host _).trans (if_pos rfl)
  have hserves := serves_attach hn host
  have hown : ∀ k, (h.attach host).1.serves h.links.length k → k = host := by
    intro k hk
    rw [hserves, decide_eq_true_eq] at hk
    exact hk.symm
  have hempty : (h.attach host).1.queue h.links.length = ([] : List Frame).map Frame.toBytes :=
    queue_attach_self h host
  obtain ⟨queued, hqueue, heq⟩ := queue_run hl hown hempty ops
  rw [hserves, if_pos (decide_eq_true rfl), List.nil_append] at heq
  have hhost := host?_run hl ops
  refine ⟨⟨queued, hqueue, heq⟩, fun f => ?_, fun _ _ => receive_next, fun hclose => ?_,
    receive_decodes hhost hqueue⟩
  · split
    · rename_i hsrc
      rw [send_own (hsrc ▸ hhost)]
    · rename_i hsrc
      rw [send_foreign hhost hsrc]
  · rw [receive_detached_iff hhost ((held_run hl hclose).trans (held_attach h host)) hqueue,
      serves_run hl, hserves]
    simp

/-- From when it is attached a link delivers the frames for its host until it is replaced, detached
or dropped. -/
theorem delivers_in_order (hl : (({} : Hub).run ops).host? link = some host) :
    ∃ before after, ops = before ++ .attach host :: after ∧
      ((({} : Hub).run before).attach host).2 = link ∧
      ((({} : Hub).run before).attach host).1.Delivers link host after := by
  rcases exists_attach hl with hempty | ⟨before, after, hops, rfl⟩
  · cases hempty
  · have hn : (({} : Hub).run before).Numbered := numbered_run numbered_empty before
    exact ⟨before, after, hops, rfl, hn.delivers host after⟩

def relocation : List Op :=
  [.attach 2, .attach 1, .send 1 ⟨2, 1, [0x61], by decide⟩, .put ⟨2, 9, [0x62], by decide⟩,
    .send 1 ⟨2, 3, [0x63], by decide⟩, .receive 0, .attach 2, .send 1 ⟨2, 1, [0x64], by decide⟩,
    .receive 0, .receive 0]

theorem delivers_in_order_relocation :
    (({} : Hub).run relocation).host? 0 = some 2 ∧
      (∃ before after, relocation = before ++ .attach 2 :: after ∧
        ((({} : Hub).run before).attach 2).2 = 0 ∧
        ((({} : Hub).run before).attach 2).1.Delivers 0 2 after) ∧
      (({} : Hub).attach 2).1.received 0 relocation.tail =
        [⟨2, 1, [0x61], by decide⟩, ⟨2, 9, [0x62], by decide⟩] := by
  have hl : (({} : Hub).run relocation).host? 0 = some 2 := by decide +kernel
  exact ⟨hl, delivers_in_order hl, by decide +kernel⟩

end Hub

end ReliableStream
