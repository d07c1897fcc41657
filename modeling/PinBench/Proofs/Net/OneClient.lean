import PinBench.Net.Listener

/-! A listener with one client that is not done yet.  `Holds` says that the client waits or is
served, and `LetGo` that the listener has let go of it; both follow the client's connection through
what the client and the server do. -/

namespace PinBench.Net

namespace Connection

theorem takeBytes_append_flatten (n : Nat) (segments : List (List UInt8)) :
    (takeBytes n segments).1 ++ (takeBytes n segments).2.flatten = segments.flatten := by
  induction segments generalizing n with
  | nil => rfl
  | cons segment rest ih =>
    rw [takeBytes]
    split
    · simp only [List.flatten_cons, List.append_assoc, ih]
    · split
      · simp
      · rw [List.flatten_cons, ← List.append_assoc, List.take_append_drop, List.flatten_cons]

theorem length_takeBytes (n : Nat) (segments : List (List UInt8)) :
    (takeBytes n segments).1.length = min n segments.flatten.length := by
  induction segments generalizing n with
  | nil => simp [takeBytes]
  | cons segment rest ih =>
    rw [takeBytes]
    split
    · simp only [List.length_append, List.flatten_cons, ih]
      omega
    · split
      · rename_i hlong hleft
        have := List.drop_eq_nil_iff.mp hleft
        simp only [List.flatten_cons, List.length_append]
        omega
      · simp only [List.length_take, List.flatten_cons, List.length_append]
        omega

theorem readUpTo_of_open {c : Connection} (hopen : c.reset = false) (n : Nat) :
    c.readUpTo n =
      ((takeBytes n c.incoming).1, { c with incoming := (takeBytes n c.incoming).2 }) := by
  simp [readUpTo, hopen]

/-- What a write does to a connection that was not reset.  What the client has got and what the
server is left with are what they were together with the bytes written. -/
structure Writes (c : Connection) (bytes : List UInt8) (c' : Connection) (left : List UInt8) :
    Prop where
  client_eq : c'.client = c.client
  incoming_eq : c'.incoming = c.incoming
  ended_eq : c'.ended = c.ended
  reset_eq : c'.reset = c.reset
  outgoing_eq : c'.outgoing.toList ++ left = c.outgoing.toList ++ bytes
  /-- A connection that never blocks takes everything. -/
  free : c.room = none → c'.room = none ∧ left = []

theorem write?_of_open {c : Connection} (hopen : c.reset = false) (bytes : List UInt8) :
    ∃ c' left, c.write? bytes = some (c', left) ∧ c.Writes bytes c' left := by
  simp only [write?, hopen, Bool.false_eq_true, if_false]
  cases hroom : c.room with
  | none =>
    refine ⟨_, _, rfl, rfl, rfl, rfl, hopen.symm, ?_, fun _ => ⟨rfl, rfl⟩⟩
    rw [Array.toList_appendList, List.append_nil]
  | some n =>
    refine ⟨_, _, rfl, rfl, rfl, rfl, hopen.symm, ?_, fun hfree => nomatch hroom.symm.trans hfree⟩
    rw [Array.toList_appendList, List.append_assoc, List.take_append_drop]

/-- Nothing is written. -/
theorem Writes.nothing (c : Connection) : c.Writes [] c [] :=
  ⟨rfl, rfl, rfl, rfl, rfl, fun hfree => ⟨hfree, rfl⟩⟩

end Connection

namespace Listener

/-- The listener's client waits or is served, with connection `c`. -/
structure Holds (l : Listener) (client : Nat) (c : Connection) : Prop where
  client_eq : c.client = client
  parted_ne : ∀ p ∈ l.parted, p.client ≠ client
  place : l.queue = [c] ∧ l.attached = none ∨ l.queue = [] ∧ l.attached = some c

/-- The listener has let go of its client, whose connection is `c`. -/
structure LetGo (l : Listener) (client : Nat) (c : Connection) : Prop where
  client_eq : c.client = client
  queue_eq : l.queue = []
  attached_eq : l.attached = none
  parted_eq : ∃ earlier, l.parted = earlier ++ [c] ∧ ∀ p ∈ earlier, p.client ≠ client

/-- The bytes that a client would collect. -/
def collectable (l : Listener) (client : Nat) : List UInt8 :=
  match l.collect? client with
  | some ((bytes, _), _) => bytes.toList
  | none => []

variable {l : Listener} {client : Nat} {c : Connection}

theorem collectable_of_find? (hfind : l.connections.find? (·.client == client) = some c) :
    l.collectable client = c.outgoing.toList := by
  simp [collectable, collect?, hfind]

theorem find?_of_forall_ne {earlier : List Connection} (hne : ∀ p ∈ earlier, p.client ≠ client) :
    earlier.find? (·.client == client) = none := by
  rw [List.find?_eq_none]
  intro p hp
  simp [hne p hp]

theorem map_of_forall_ne {earlier : List Connection} (hne : ∀ p ∈ earlier, p.client ≠ client)
    (f : Connection → Connection) :
    (earlier.map fun c => if c.client = client then f c else c) = earlier := by
  conv => rhs; rw [← List.map_id earlier]
  apply List.map_congr_left
  intro p hp
  rw [if_neg (hne p hp)]
  rfl

theorem knows_of_find? (hfind : l.connections.find? (·.client == client) = some c) :
    l.knows client = true := by
  rw [knows, List.any_eq_true]
  exact ⟨c, List.mem_of_find?_eq_some hfind,
    List.find?_some (p := fun c : Connection => c.client == client) hfind⟩

theorem act_send (hknown : l.knows client = true) (bytes : List UInt8) :
    l.act (.send client bytes) = .ok (l.update client (·.send bytes)) := by
  simp [act, act.known, hknown]

theorem act_limit (hknown : l.knows client = true) (room : Option Nat) :
    l.act (.limit client room) = .ok (l.update client (·.limit room)) := by
  simp [act, act.known, hknown]

theorem act_close (hknown : l.knows client = true) :
    l.act (.close client) = .ok (l.update client .finish) := by
  simp [act, act.known, hknown]

namespace Holds

theorem find? (h : l.Holds client c) : l.connections.find? (·.client == client) = some c := by
  have hc : (c.client == client) = true := by
    rw [h.client_eq]
    exact beq_self_eq_true client
  rcases h.place with ⟨hqueue, hattached⟩ | ⟨hqueue, hattached⟩
  · simp [connections, hqueue, hattached, hc]
  · simp [connections, hqueue, hattached, hc]

theorem update (h : l.Holds client c) {f : Connection → Connection} (hf : (f c).client = c.client) :
    (l.update client f).Holds client (f c) := by
  refine ⟨hf.trans h.client_eq, ?_, ?_⟩
  · show ∀ p ∈ l.parted.map (fun c => if c.client = client then f c else c), p.client ≠ client
    rw [map_of_forall_ne h.parted_ne]
    exact h.parted_ne
  · rcases h.place with ⟨hqueue, hattached⟩ | ⟨hqueue, hattached⟩
    · left
      simp [Listener.update, hqueue, hattached, h.client_eq]
    · right
      simp [Listener.update, hqueue, hattached, h.client_eq]

theorem accept (h : l.Holds client c) : l.accept.Holds client c := by
  rcases h.place with ⟨hqueue, hattached⟩ | ⟨hqueue, hattached⟩
  · simp only [Listener.accept, hqueue, hattached]
    exact ⟨h.client_eq, h.parted_ne, .inr ⟨rfl, rfl⟩⟩
  · simpa only [Listener.accept, hqueue, hattached] using h

theorem attached_accept (h : l.Holds client c) : l.accept.attached = some c := by
  rcases h.place with ⟨hqueue, hattached⟩ | ⟨hqueue, hattached⟩ <;>
    simp [Listener.accept, hqueue, hattached]

theorem queue_eq_nil (h : l.Holds client c) (hattached : l.attached = some c) : l.queue = [] := by
  rcases h.place with ⟨-, hnone⟩ | ⟨hqueue, -⟩
  · simp [hnone] at hattached
  · exact hqueue

theorem attach (h : l.Holds client c) (hattached : l.attached = some c) {c' : Connection}
    (hc : c'.client = c.client) : { l with attached := some c' }.Holds client c' :=
  ⟨hc.trans h.client_eq, h.parted_ne, .inr ⟨h.queue_eq_nil hattached, rfl⟩⟩

theorem detach (h : l.Holds client c) (hattached : l.attached = some c) :
    l.detach.LetGo client c.close := by
  simp only [Listener.detach, hattached]
  exact ⟨h.client_eq, h.queue_eq_nil hattached, rfl, l.parted, rfl, h.parted_ne⟩

end Holds

namespace LetGo

theorem find? (h : l.LetGo client c) : l.connections.find? (·.client == client) = some c := by
  obtain ⟨earlier, hparted, hne⟩ := h.parted_eq
  have hc : (c.client == client) = true := by
    rw [h.client_eq]
    exact beq_self_eq_true client
  simp [connections, h.queue_eq, h.attached_eq, hparted, find?_of_forall_ne hne, hc]

theorem update (h : l.LetGo client c) {f : Connection → Connection}
    (hf : (f c).client = c.client) : (l.update client f).LetGo client (f c) := by
  obtain ⟨earlier, hparted, hne⟩ := h.parted_eq
  refine ⟨hf.trans h.client_eq, ?_, ?_, earlier, ?_, hne⟩
  · simp [Listener.update, h.queue_eq]
  · simp [Listener.update, h.attached_eq]
  · show l.parted.map (fun c => if c.client = client then f c else c) = earlier ++ [f c]
    rw [hparted, List.map_append, map_of_forall_ne hne]
    simp [h.client_eq]

theorem accept_eq (h : l.LetGo client c) : l.accept = l := by
  simp [Listener.accept, h.queue_eq, h.attached_eq]

end LetGo

end Listener

end PinBench.Net
