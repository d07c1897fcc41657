import PinBench.Jtag.Server
import PinBench.Proofs.Jtag.Clocking
import PinBench.Proofs.Net.OneClient

/-! A client's session with the debug server.  Bytes arrive in pieces between the server's steps,
the client may end its stream, and its connection may block.  A session is `Idle` between requests,
`Busy` while one is clocked and `Over` after the server has let go of the client.  Each part of a
step has one lemma that says from which of these it goes to which; a busy server has nothing in its
inbox and its outbox. -/

namespace PinBench.Jtag

/-- What can happen to a server. -/
inductive Event where
  | client (action : Net.ClientAction)
  | step (cycle : Nat) (tdo : Bool)
  | close
  deriving DecidableEq, Repr

/-- The events of one client's session: it sends, ends its stream or makes room for replies, and
the server steps. -/
inductive Event.Within (client : Nat) : Event → Prop
  | send (bytes : List UInt8) : Within client (.client (.send client bytes))
  | hangUp : Within client (.client (.close client))
  | limit (room : Option Nat) : Within client (.client (.limit client room))
  | step (cycle : Nat) (tdo : Bool) : Within client (.step cycle tdo)

def Event.bytes : Event → List UInt8
  | .client (.send _ bytes) => bytes
  | _ => []

/-- Whether the client ends its stream with an event. -/
def Event.endsStream : Event → Bool
  | .client (.close _) => true
  | _ => false

/-- Whether an event leaves a client's connection with only so much room. -/
def Event.limits : Event → Bool
  | .client (.limit _ room) => room.isSome
  | _ => false

/-- The bytes that arrive with some events. -/
def arrived (events : List Event) : List UInt8 := events.flatMap Event.bytes

/-- Whether the client ends its stream with one of some events. -/
def hungUp (events : List Event) : Bool := events.any Event.endsStream

/-- Whether some event leaves the connection with only so much room.  If none does, every write
takes all its bytes. -/
def limited (events : List Event) : Bool := events.any Event.limits

/-- What a step of the server shows. -/
structure Observation where
  /-- A request was loaded or clocked. -/
  active : Bool
  tdo : Bool
  before : Lines
  after : Lines
  status : Status
  connected : Bool
  deriving DecidableEq, Repr

namespace Server

/-- Whether a step loads a request or clocks one. -/
def active (s : Server) : Bool :=
  let s := ({ s with listener := s.listener.accept } : Server).flush.1
  s.connected && s.fetch.1.shifter.busy

def observe (s : Server) (cycle : Nat) (tdo : Bool) : Observation :=
  let s' := s.step cycle tdo
  { active := s.active, tdo, before := s.lines, after := s'.lines, status := s'.lastStatus,
    connected := s'.connected }

/-- The server after an event.  An action of a client without a connection changes nothing. -/
def meet (s : Server) : Event → Server
  | .client action =>
    match s.listener.act action with
    | .ok listener => { s with listener }
    | .error _ => s
  | .step cycle tdo => s.step cycle tdo
  | .close => s.close

def run (s : Server) (events : List Event) : Server := events.foldl meet s

/-- What an event shows, if it is a step. -/
def shows (s : Server) : Event → List Observation
  | .step cycle tdo => [s.observe cycle tdo]
  | .client _ | .close => []

/-- What the steps among some events show. -/
def history (s : Server) : List Event → List Observation
  | [] => []
  | event :: rest => s.shows event ++ (s.meet event).history rest

/-- Between sessions, with one client waiting that has done nothing yet. -/
structure Awaits (s : Server) (client : Nat) : Prop where
  inbox_eq : s.inbox = []
  outbox_eq : s.outbox = []
  transfer_eq : s.shifter.transfer = none
  holds : s.listener.Holds client (.fresh client)

theorem awaits_of_connect (interface : Net.Interface) (client : Nat) :
    ((listen interface true).meet (.client (.connect client))).Awaits client := by
  refine ⟨rfl, rfl, rfl, rfl, ?_, .inl ⟨rfl, rfl⟩⟩
  intro p hp
  cases hp

end Server

/-- What a step comes to that finds no request to clock, in a stream with such an ending, which the
client has ended or not. -/
def Ending.status : Ending → Bool → Status
  | .refused, _ => .protocolError
  | .stopped, _ => .clientDisconnected
  | .more, true => .clientDisconnected
  | .more, false => .success

/-- What has happened in a session: which bytes have arrived and whether the stream has ended,
whether the connection has had only so much room, the levels that the session found, and the levels
and data-out of its active steps. -/
structure Past where
  client : Nat
  start : Lines
  bytes : List UInt8
  ended : Bool
  limited : Bool
  levels : List Lines
  tdos : List Bool

namespace Past

def arrive (p : Past) (new : List UInt8) : Past := { p with bytes := p.bytes ++ new }

def hangUp (p : Past) : Past := { p with ended := true }

def limit (p : Past) (room : Option Nat) : Past := { p with limited := p.limited || room.isSome }

/-- A step clocks a request and leaves the lines at `after`. -/
def clock (p : Past) (tdo : Bool) (after : Lines) : Past :=
  { p with levels := p.levels ++ [after], tdos := p.tdos ++ [tdo] }

def lines (p : Past) : Lines := p.levels.getLastD p.start

/-- What a step comes to that finds no request to clock. -/
def verdict (p : Past) : Status := (ending p.bytes).status p.ended

end Past

/-- The client's connection is `c`, and it is as the past says. -/
structure Linked (p : Past) (c : Net.Connection) (s : Server) : Prop where
  holds : s.listener.Holds p.client c
  reset_eq : c.reset = false
  ended_eq : c.ended = p.ended
  room_eq : p.limited = false → c.room = none

/-- No request is under way.  The requests `done` are over and what has not been written of their
replies waits, and what follows them in the stream is in the inbox or unread. -/
structure Idle (p : Past) (c : Net.Connection) (done : List Transfer) (s : Server) : Prop where
  linked : Linked p c s
  shifter_eq : s.shifter = ⟨none, p.lines⟩
  inbox_lt : s.inbox.length < recordSize
  leads : Leads p.bytes done (s.inbox ++ c.incoming.flatten)
  settled : Settled p.start done p.levels p.tdos (c.outgoing.toList ++ s.outbox)

/-- Request `t` is under way, with data-out at `current` in its steps so far. -/
structure Busy (p : Past) (c : Net.Connection) (done : List Transfer) (t : Transfer)
    (current : List Bool) (s : Server) : Prop where
  linked : Linked p c s
  shifter_eq : s.shifter = ⟨some (t.after current), p.lines⟩
  inbox_eq : s.inbox = []
  outbox_eq : s.outbox = []
  leads : Leads p.bytes (done ++ [t]) c.incoming.flatten
  clocking : Clocking p.start done t current p.levels p.tdos c.outgoing.toList

/-- The server has let go of the client after the requests `done`. -/
structure Over (p : Past) (c : Net.Connection) (done : List Transfer) (s : Server) : Prop where
  letGo : s.listener.LetGo p.client c
  shifter_eq : s.shifter = ⟨none, p.lines⟩
  outbox_eq : s.outbox = []
  done_le : ∀ more, done <+: requests (p.bytes ++ more)
  settled : Settled p.start done p.levels p.tdos c.outgoing.toList

section Arrivals

variable {p : Past} {c : Net.Connection} {done : List Transfer} {t : Transfer}
  {current : List Bool} {s : Server}

theorem Server.meet_send {client : Nat} (hknown : s.listener.knows client = true)
    (bytes : List UInt8) :
    s.meet (.client (.send client bytes)) =
      { s with listener := s.listener.update client (·.send bytes) } := by
  simp only [meet, Net.Listener.act_send hknown]

theorem Server.meet_hangUp {client : Nat} (hknown : s.listener.knows client = true) :
    s.meet (.client (.close client)) =
      { s with listener := s.listener.update client .finish } := by
  simp only [meet, Net.Listener.act_close hknown]

theorem Server.meet_limit {client : Nat} (hknown : s.listener.knows client = true)
    (room : Option Nat) :
    s.meet (.client (.limit client room)) =
      { s with listener := s.listener.update client (·.limit room) } := by
  simp only [meet, Net.Listener.act_limit hknown]

theorem Linked.knows (h : Linked p c s) : s.listener.knows p.client = true :=
  Net.Listener.knows_of_find? h.holds.find?

theorem Over.knows (h : Over p c done s) : s.listener.knows p.client = true :=
  Net.Listener.knows_of_find? h.letGo.find?

theorem Linked.send (h : Linked p c s) (new : List UInt8) :
    Linked (p.arrive new) (c.send new)
      { s with listener := s.listener.update p.client (·.send new) } :=
  ⟨h.holds.update rfl, h.reset_eq, h.ended_eq, h.room_eq⟩

theorem Linked.hangUp (h : Linked p c s) :
    Linked p.hangUp c.finish { s with listener := s.listener.update p.client .finish } :=
  ⟨h.holds.update rfl, h.reset_eq, rfl, h.room_eq⟩

theorem Linked.limit (h : Linked p c s) (room : Option Nat) :
    Linked (p.limit room) (c.limit room)
      { s with listener := s.listener.update p.client (·.limit room) } := by
  refine ⟨h.holds.update rfl, h.reset_eq, h.ended_eq, fun hfree => ?_⟩
  have hroom : room.isSome = false := (Bool.or_eq_false_iff.mp hfree).2
  simpa [Net.Connection.limit] using hroom

theorem flatten_send (c : Net.Connection) (new : List UInt8) :
    (c.send new).incoming.flatten = c.incoming.flatten ++ new := by
  simp [Net.Connection.send]

theorem Idle.send (h : Idle p c done s) (new : List UInt8) :
    Idle (p.arrive new) (c.send new) done (s.meet (.client (.send p.client new))) := by
  rw [Server.meet_send h.linked.knows]
  refine ⟨h.linked.send new, h.shifter_eq, h.inbox_lt, ?_, h.settled⟩
  rw [flatten_send, ← List.append_assoc]
  exact h.leads.arrive new

theorem Busy.send (h : Busy p c done t current s) (new : List UInt8) :
    Busy (p.arrive new) (c.send new) done t current
      (s.meet (.client (.send p.client new))) := by
  rw [Server.meet_send h.linked.knows]
  refine ⟨h.linked.send new, h.shifter_eq, h.inbox_eq, h.outbox_eq, ?_, h.clocking⟩
  rw [flatten_send]
  exact h.leads.arrive new

theorem Over.send (h : Over p c done s) (new : List UInt8) :
    Over (p.arrive new) (c.send new) done (s.meet (.client (.send p.client new))) := by
  rw [Server.meet_send h.knows]
  refine ⟨h.letGo.update rfl, h.shifter_eq, h.outbox_eq, ?_, h.settled⟩
  intro more
  show done <+: requests (p.bytes ++ new ++ more)
  rw [List.append_assoc]
  exact h.done_le (new ++ more)

theorem Idle.hangUp (h : Idle p c done s) :
    Idle p.hangUp c.finish done (s.meet (.client (.close p.client))) := by
  rw [Server.meet_hangUp h.linked.knows]
  exact ⟨h.linked.hangUp, h.shifter_eq, h.inbox_lt, h.leads, h.settled⟩

theorem Busy.hangUp (h : Busy p c done t current s) :
    Busy p.hangUp c.finish done t current (s.meet (.client (.close p.client))) := by
  rw [Server.meet_hangUp h.linked.knows]
  exact ⟨h.linked.hangUp, h.shifter_eq, h.inbox_eq, h.outbox_eq, h.leads, h.clocking⟩

theorem Over.hangUp (h : Over p c done s) :
    Over p.hangUp c.finish done (s.meet (.client (.close p.client))) := by
  rw [Server.meet_hangUp h.knows]
  exact ⟨h.letGo.update rfl, h.shifter_eq, h.outbox_eq, h.done_le, h.settled⟩

theorem Idle.limit (h : Idle p c done s) (room : Option Nat) :
    Idle (p.limit room) (c.limit room) done (s.meet (.client (.limit p.client room))) := by
  rw [Server.meet_limit h.linked.knows]
  exact ⟨h.linked.limit room, h.shifter_eq, h.inbox_lt, h.leads, h.settled⟩

theorem Busy.limit (h : Busy p c done t current s) (room : Option Nat) :
    Busy (p.limit room) (c.limit room) done t current
      (s.meet (.client (.limit p.client room))) := by
  rw [Server.meet_limit h.linked.knows]
  exact ⟨h.linked.limit room, h.shifter_eq, h.inbox_eq, h.outbox_eq, h.leads, h.clocking⟩

theorem Over.limit (h : Over p c done s) (room : Option Nat) :
    Over (p.limit room) (c.limit room) done (s.meet (.client (.limit p.client room))) := by
  rw [Server.meet_limit h.knows]
  exact ⟨h.letGo.update rfl, h.shifter_eq, h.outbox_eq, h.done_le, h.settled⟩

end Arrivals

end PinBench.Jtag
