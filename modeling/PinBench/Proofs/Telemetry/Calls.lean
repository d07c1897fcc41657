import PinBench.Proofs.Net.Clients
import PinBench.Proofs.Telemetry.Lines

/-! What the calls of a telemetry server do for the observer whose turn it is.  A poll hands over
what waits, as far as the connection takes it, then reads everything there is and either keeps the
observer or lets go of it; a push hands over what waits and the change. -/

namespace PinBench.Telemetry

/-- What can happen to a server once the channel tables are known. -/
inductive Event where
  | client (action : Net.ClientAction)
  | poll
  | push (change : Change)
  deriving DecidableEq, Repr

def Event.action? : Event → Option Net.ClientAction
  | .client action => some action
  | _ => none

def Event.change? : Event → Option Change
  | .push change => some change
  | _ => none

/-- What clients do in some events. -/
def actionsOf (events : List Event) : List Net.ClientAction := events.filterMap Event.action?

/-- The changes that are published in some events. -/
def changesOf (events : List Event) : List Change := events.filterMap Event.change?

section Concat

variable (events : List Event)

theorem actionsOf_client (action : Net.ClientAction) :
    actionsOf (events ++ [.client action]) = actionsOf events ++ [action] := by
  simp [actionsOf, Event.action?]

theorem actionsOf_poll : actionsOf (events ++ [.poll]) = actionsOf events := by
  simp [actionsOf, Event.action?]

theorem actionsOf_push (change : Change) :
    actionsOf (events ++ [.push change]) = actionsOf events := by
  simp [actionsOf, Event.action?]

theorem changesOf_client (action : Net.ClientAction) :
    changesOf (events ++ [.client action]) = changesOf events := by
  simp [changesOf, Event.change?]

theorem changesOf_poll : changesOf (events ++ [.poll]) = changesOf events := by
  simp [changesOf, Event.change?]

theorem changesOf_push (change : Change) :
    changesOf (events ++ [.push change]) = changesOf events ++ [change] := by
  simp [changesOf, Event.change?]

end Concat

theorem changesOf_cons (e : Event) (events : List Event) :
    changesOf (e :: events) = e.change?.toList ++ changesOf events := by
  cases e <;> rfl

theorem actionsOf_cons (e : Event) (events : List Event) :
    actionsOf (e :: events) = e.action?.toList ++ actionsOf events := by
  cases e <;> rfl

theorem actionsOf_append (events more : List Event) :
    actionsOf (events ++ more) = actionsOf events ++ actionsOf more := List.filterMap_append

theorem changesOf_append (events more : List Event) :
    changesOf (events ++ more) = changesOf events ++ changesOf more := List.filterMap_append

theorem mem_actionsOf {action : Net.ClientAction} {events : List Event}
    (h : .client action ∈ events) : action ∈ actionsOf events :=
  List.mem_filterMap.mpr ⟨_, h, rfl⟩

namespace Server

/-- A server that has been told the channel tables. -/
def opened (inputs : List InputChannel) (outputs : List OutputChannel) : Server :=
  (listen true).register inputs outputs

def meet (s : Server) : Event → Server
  | .client action => { s with listener := s.listener.meet action }
  | .poll => s.poll.1
  | .push change => s.push change

def run (s : Server) (events : List Event) : Server := events.foldl meet s

/-- The lines that a poll would handle. -/
def takes (s : Server) : List (List UInt8) :=
  let s := s.accept.flush.fillInbox
  if s.connected then linesOf s.inbox else []

/-- The server with `c` as the observer's connection. -/
def holding (s : Server) (c : Net.Connection) : Server :=
  { s with listener := { s.listener with attached := some c } }

/-- The server once it has written to the observer, whose connection is then `c`, and is left with
`outbox`. -/
def handed (s : Server) (c : Net.Connection) (outbox : List UInt8) : Server :=
  { s.holding c with outbox }

/-- The server once it has also read all that is there, and these bytes are in its inbox. -/
def kept (s : Server) (c : Net.Connection) (outbox bytes : List UInt8) : Server :=
  { s.holding { c with incoming := [] } with inbox := unfinished bytes, outbox }

theorem run_append (s : Server) (events more : List Event) :
    s.run (events ++ more) = (s.run events).run more := List.foldl_append

theorem run_concat (s : Server) (events : List Event) (e : Event) :
    s.run (events ++ [e]) = (s.run events).meet e := by
  simp [run]

variable {s : Server} {client : Nat} {c : Net.Connection}

/-! ### Accepting -/

theorem accept_of_attached (hattached : s.listener.attached = some c) : s.accept = s := by
  simp [accept, connected, Net.Listener.connected, hattached]

theorem accept_listener (s : Server) : s.accept.listener = s.listener.accept := by
  cases hattached : s.listener.attached with
  | some c => rw [accept_of_attached hattached, Net.Listener.accept_of_attached hattached]
  | none =>
    simp only [accept]
    split
    · rfl
    · rename_i hnot
      cases hqueue : s.listener.queue with
      | nil => simp [Net.Listener.accept, hattached, hqueue]
      | cons c rest =>
        simp [connected, Net.Listener.connected, Net.Listener.accept, hattached, hqueue] at hnot

theorem accept_of_turn (hvacant : s.connected = false) (hturn : s.listener.turn ≠ none) :
    s.accept =
      { s with
        listener := s.listener.accept, inbox := [], outbox := s.registration ++ s.levelLines } := by
  have hconnected : s.listener.accept.connected = true := by
    rw [Net.Listener.connected, Option.isSome_iff_ne_none]
    intro hnone
    exact hturn (by rw [Net.Listener.turn, hnone]; rfl)
  rw [accept, if_pos ⟨hvacant, hconnected⟩]

/-- As long as it is someone's turn, the server may accept before the next action of a client. -/
theorem accept_meet_client (hreachable : s.listener.reachable = true)
    (hturn : s.listener.turn ≠ none) (action : Net.ClientAction) :
    (s.meet (.client action)).accept = s.accept.meet (.client action) := by
  have hlistener := Net.Listener.accept_meet hreachable hturn action
  have hconnected : (s.meet (.client action)).connected = s.connected :=
    Net.Listener.connected_meet s.listener action
  cases hvacant : s.connected with
  | true =>
    obtain ⟨c, hc⟩ := Option.isSome_iff_exists.mp hvacant
    obtain ⟨c', hc'⟩ := Option.isSome_iff_exists.mp (hconnected.trans hvacant)
    rw [accept_of_attached hc, accept_of_attached hc']
  | false =>
    have hturn' : (s.meet (.client action)).listener.turn ≠ none := by
      rw [Net.Listener.turn, ne_eq, Option.map_eq_none_iff] at hturn ⊢
      show ¬(s.listener.meet action).accept.attached = none
      rw [hlistener]
      intro hnone
      have := Net.Listener.connected_meet s.listener.accept action
      simp [Net.Listener.connected, hnone] at this
      exact hturn this
    rw [accept_of_turn hvacant hturn, accept_of_turn (hconnected.trans hvacant) hturn']
    simp only [meet, hlistener]
    rfl

/-! ### Parts of a call -/

theorem flush_of_attached (hattached : s.listener.attached = some c) (hopen : c.reset = false) :
    ∃ c' outbox, c.Writes s.outbox c' outbox ∧ s.flush = s.handed c' outbox := by
  unfold flush
  by_cases hempty : s.outbox = []
  · have hsame : s.handed c [] = s := by
      rw [handed, holding, ← hattached, ← hempty]
    refine ⟨c, [], ?_, ?_⟩
    · rw [hempty]
      exact .nothing c
    · simp [hattached, hempty, hsame]
  · obtain ⟨c', outbox, hwrite, hwrites⟩ := Net.Connection.write?_of_open hopen s.outbox
    exact ⟨c', outbox, hwrites, by simp [hattached, hempty, hwrite, handed, holding]⟩

/-- What writing what waits can do, whoever is served. -/
inductive Flushes (s : Server) : Server → Prop
  | vacant : s.listener.attached = none → Flushes s s
  | taken {c c' : Net.Connection} {outbox : List UInt8} :
      s.listener.attached = some c → c.Writes s.outbox c' outbox → Flushes s (s.handed c' outbox)
  | empty : s.outbox = [] → Flushes s s
  | lost {c : Net.Connection} :
      s.listener.attached = some c → c.reset = true → Flushes s s.disconnect

theorem flush_cases (s : Server) : s.Flushes s.flush := by
  cases hattached : s.listener.attached with
  | none =>
    have hflush : s.flush = s := by simp [flush, hattached]
    rw [hflush]
    exact .vacant hattached
  | some c =>
    cases hreset : c.reset with
    | false =>
      obtain ⟨c', outbox, hwrites, hflush⟩ := flush_of_attached hattached hreset
      rw [hflush]
      exact .taken hattached hwrites
    | true =>
      by_cases hempty : s.outbox = []
      · have hflush : s.flush = s := by simp [flush, hattached, hempty]
        rw [hflush]
        exact .empty hempty
      · have hflush : s.flush = s.disconnect := by
          simp [flush, hattached, hempty, Net.Connection.write?_reset hreset]
        rw [hflush]
        exact .lost hattached hreset

/-- The observer stays if it has not left and no unfinished line is too long. -/
theorem fillInbox_holding (s : Server) (hopen : c.reset = false) :
    (s.holding c).fillInbox =
      if c.ended then (s.holding { c with incoming := [] }).disconnect
      else
        match fill? s.inbox (c.incoming.flatMap (Net.Connection.chunks readSize)) with
        | some inbox => { s.holding { c with incoming := [] } with inbox }
        | none => (s.holding { c with incoming := [] }).disconnect := by
  rw [fillInbox]
  simp only [holding, readChunks_of_open hopen, Net.Connection.tail, hopen, Bool.false_eq_true,
    if_false]
  cases c.ended <;>
    cases fill? s.inbox (c.incoming.flatMap (Net.Connection.chunks readSize)) <;> rfl

theorem flush_tends (s : Server) : Net.Listener.Tends s.listener s.flush.listener := by
  have hcases := s.flush_cases
  generalize s.flush = flushed at hcases
  cases hcases with
  | vacant | empty => exact .refl
  | taken hattached hwrites => exact Net.Listener.Tends.refl.serve hattached hwrites.sameEnd
  | lost => exact Net.Listener.Tends.refl.detach

theorem fillInbox_tends (s : Server) : Net.Listener.Tends s.listener s.fillInbox.listener := by
  unfold fillInbox
  split
  · exact .refl
  · rename_i c hattached
    have hserve : Net.Listener.Tends s.listener
        { s.listener with attached := some (c.readChunks readSize).2 } := by
      refine Net.Listener.Tends.refl.serve hattached ?_
      unfold Net.Connection.readChunks
      split <;> exact ⟨rfl, rfl, rfl, id⟩
    simp only
    split
    · exact hserve
    · exact hserve.detach

theorem poll_listener (s : Server) :
    s.poll.1.listener = s.accept.flush.fillInbox.listener := by
  rw [poll]
  simp only
  split <;> rfl

theorem poll_tends (s : Server) : Net.Listener.Tends s.listener.accept s.poll.1.listener := by
  rw [poll_listener, ← accept_listener]
  exact (flush_tends _).trans (fillInbox_tends _)

theorem send_listener (s : Server) (m : ServerMessage) : (s.send m).listener = s.listener := by
  unfold send
  split <;> rfl

theorem push_tends (s : Server) (change : Change) :
    Net.Listener.Tends s.listener.accept (s.push change).listener := by
  have h := flush_tends ((s.accept.remember change).send (.output change))
  rwa [send_listener, show (s.accept.remember change).listener = _ from accept_listener s] at h

theorem reachable_meet (hreachable : s.listener.reachable = true) (e : Event) :
    (s.meet e).listener.reachable = true := by
  have htends : ∀ {l}, Net.Listener.Tends s.listener.accept l → l.reachable = true := by
    intro l h
    rw [h.reachable_eq, Net.Listener.reachable_accept, hreachable]
  cases e with
  | client action => exact Net.Listener.reachable_meet hreachable action
  | poll => exact htends (poll_tends s)
  | push change => exact htends (push_tends s change)

/-- An observer that has been let go of is not written to again. -/
theorem parted_meet (hat : s.listener.At client (.parted c))
    (hreachable : s.listener.reachable = true) {e : Event} (hold : e ≠ .client (.connect client)) :
    ∃ c', (s.meet e).listener.At client (.parted c') ∧ c'.outgoing = c.outgoing := by
  cases e with
  | client action =>
    exact ⟨c.heed client action, hat.heed hreachable fun heq => hold (congrArg _ heq),
      Net.Connection.heed_outgoing c⟩
  | poll => exact ⟨c, hat.parted_tends (poll_tends s), rfl⟩
  | push change => exact ⟨c, hat.parted_tends (push_tends s change), rfl⟩

theorem turn_of_accept (hat : s.accept.listener.At client (.served c)) :
    s.listener.turn = some client := by
  rw [accept_listener] at hat
  exact hat.turn_of_accept

/-- What the clients and the server have made of the listener. -/
theorem became_run (inputs : List InputChannel) (outputs : List OutputChannel)
    (events : List Event) :
    Net.Listener.Became .loopback (actionsOf events)
      ((opened inputs outputs).run events).listener := by
  induction events using List.reverseRecOn with
  | nil => exact .start
  | append_singleton events e ih =>
    rw [run_concat]
    cases e with
    | client action =>
      rw [actionsOf_client]
      exact ih.meet action
    | poll =>
      rw [actionsOf_poll]
      exact ih.accept.tends (poll_tends _)
    | push change =>
      rw [actionsOf_push]
      exact ih.accept.tends (push_tends _ change)

/-! ### Whole calls -/

/-- An observer that is let go of gets what waited for it, and none of its lines is handled. -/
theorem poll_of_disconnect {b : Server} (hfill : s.accept.flush.fillInbox = b.disconnect)
    (hat : b.listener.At client (.served c)) :
    s.takes = [] ∧ s.poll.1.listener.At client (.parted c.close) := by
  constructor
  · have hconnected : b.disconnect.connected = false := by
      simp [disconnect, connected, Net.Listener.connected, Net.Listener.detach,
        hat.client_of_served.1]
    rw [takes, hfill]
    simp [hconnected]
  · rw [poll_listener, hfill]
    exact hat.detach

/-- A poll writes what waits.  Then it either keeps the observer, having read all that was there, or
lets go of it, and with it what could not be written. -/
theorem poll_of_turn (hat : s.accept.listener.At client (.served c)) (hopen : c.reset = false) :
    ∃ c₁ outbox, c.Writes s.accept.outbox c₁ outbox ∧
      ((c.ended = false ∧
        (∃ chunks, (∀ chunk ∈ chunks, chunk.length ≤ readSize) ∧
          fill? s.accept.inbox chunks = some (s.accept.inbox ++ c.incoming.flatten)) ∧
        s.takes = linesOf (s.accept.inbox ++ c.incoming.flatten) ∧
        s.poll.1 = s.accept.kept c₁ outbox (s.accept.inbox ++ c.incoming.flatten)) ∨
      (c.ended = true ∨ ¬Short (s.accept.inbox ++ c.incoming.flatten)) ∧ s.takes = [] ∧
        s.poll.1.listener.At client (.parted ({ c₁ with incoming := [] } : Net.Connection).close)) := by
  obtain ⟨hattached, -⟩ := hat.client_of_served
  have hflatten := flatten_chunks c.incoming
  obtain ⟨c₁, outbox, hwrites, hflush⟩ := flush_of_attached hattached hopen
  have hended₁ := hwrites.ended_eq
  have hincoming₁ := hwrites.incoming_eq
  refine ⟨c₁, outbox, hwrites, ?_⟩
  -- The observer's connection once what waited has been written and all has been read.
  let read : Net.Connection := { c₁ with incoming := [] }
  let b : Server := { s.accept.holding read with outbox }
  have hread : b.listener.At client (.served read) :=
    hat.serve (hwrites.sameEnd.trans ⟨rfl, rfl, rfl, id⟩)
  have hfill : s.accept.flush.fillInbox =
      if c.ended then b.disconnect
      else
        match fill? s.accept.inbox (c.incoming.flatMap (Net.Connection.chunks readSize)) with
        | some inbox => { b with inbox }
        | none => b.disconnect := by
    have hopen₁ : c₁.reset = false := hwrites.reset_eq.trans hopen
    rw [hflush, ← hended₁, ← hincoming₁]
    exact fillInbox_holding { s.accept with outbox } hopen₁
  cases hended : c.ended with
  | true =>
    rw [hended, if_pos rfl] at hfill
    obtain ⟨htakes, hparted⟩ := poll_of_disconnect hfill hread
    exact .inr ⟨.inl rfl, htakes, hparted⟩
  | false =>
    rw [hended, if_neg Bool.false_ne_true] at hfill
    cases hchunks : fill? s.accept.inbox (c.incoming.flatMap (Net.Connection.chunks readSize)) with
    | none =>
      rw [hchunks] at hfill
      obtain ⟨htakes, hparted⟩ := poll_of_disconnect hfill hread
      refine .inr ⟨.inr fun hshort => ?_, htakes, hparted⟩
      rw [← hflatten] at hshort
      rw [fill?_of_short hshort] at hchunks
      cases hchunks
    | some inbox =>
      have hinbox := fill?_eq_some hchunks
      rw [hflatten] at hinbox
      rw [hchunks] at hfill
      rw [hinbox] at hchunks hfill
      refine .inl ⟨rfl, ⟨_, fun _ => length_le_of_mem_chunks, hchunks⟩, ?_, ?_⟩
      · rw [takes, hfill]
        rfl
      · rw [poll, hfill]
        rfl

/-- An observer that has reset its connection is let go of by a poll that has nothing to write. -/
theorem poll_of_reset (hat : s.accept.listener.At client (.served c)) (hreset : c.reset = true)
    (hempty : s.accept.outbox = []) : s.poll.1.listener.At client (.parted c.close) := by
  obtain ⟨hattached, -⟩ := hat.client_of_served
  have hflush : s.accept.flush = s.accept := by simp [flush, hattached, hempty]
  have hfill : s.accept.flush.fillInbox = (s.accept.holding c).disconnect := by
    rw [hflush, fillInbox]
    simp [hattached, Net.Connection.readChunks, Net.Connection.tail, hreset, fill?, holding]
  exact (poll_of_disconnect hfill (hat.serve (.refl c))).2

/-- The change waits for the observer, unless too much waits already. -/
theorem send_of_turn (hat : s.accept.listener.At client (.served c))
    (hroom : s.accept.outbox.length ≤ maxPendingOutput) (change : Change) :
    (s.accept.remember change).send (.output change) =
      { s.accept.remember change with
        outbox := s.accept.outbox ++ (ServerMessage.output change).line } := by
  have hconnected : (s.accept.remember change).connected = true := by
    simp [remember, connected, Net.Listener.connected, hat.client_of_served.1]
  have hwaits : ¬maxPendingOutput < (s.accept.remember change).outbox.length :=
    Nat.not_lt.mpr hroom
  rw [send, if_neg (by simp [hconnected, hwaits])]
  rfl

/-- What waits and the change are written, unless too much waits. -/
theorem push_of_turn (hat : s.accept.listener.At client (.served c)) (hopen : c.reset = false)
    (hroom : s.accept.outbox.length ≤ maxPendingOutput) (change : Change) :
    ∃ c₁ outbox, c.Writes (s.accept.outbox ++ (ServerMessage.output change).line) c₁ outbox ∧
      s.push change = (s.accept.remember change).handed c₁ outbox := by
  have hsend := send_of_turn hat hroom change
  have hattached :
      ((s.accept.remember change).send (.output change)).listener.attached = some c := by
    rw [send_listener]
    exact hat.client_of_served.1
  obtain ⟨c₁, outbox, hwrites, hflush⟩ := flush_of_attached hattached hopen
  rw [hsend] at hwrites
  refine ⟨c₁, outbox, hwrites, hflush.trans ?_⟩
  rw [hsend]
  rfl

end Server

end PinBench.Telemetry
