import PinBench.Net.Connection

/-! A listening server that serves one client at a time.  Clients that have connected wait in a
queue until the server accepts them in order.  A connection that the server has let go of is kept,
so that its client can still collect what was written to it. -/

namespace PinBench.Net

/-- Which clients may connect: those on the same machine, or any. -/
inductive Interface where
  | loopback
  | any
  deriving DecidableEq, Repr

def Interface.address : Interface → String
  | .loopback => "127.0.0.1"
  | .any => "0.0.0.0"

inductive ClientAction where
  | connect (client : Nat)
  | send (client : Nat) (bytes : List UInt8)
  | close (client : Nat)
  | abort (client : Nat)
  /-- What the client's side makes room for. -/
  | limit (client : Nat) (room : Option Nat)
  deriving DecidableEq, Repr

/-- Why a client cannot do what it wants. -/
inductive ClientError where
  | unreachable
  | unknownClient
  deriving DecidableEq, Repr

def ClientError.message : ClientError → String
  | .unreachable => "connect"
  | .unknownClient => "unknown client"

structure Listener where
  interface : Interface
  /-- Whether clients can reach the server's address. -/
  reachable : Bool
  /-- Connections not accepted yet, the oldest first. -/
  queue : List Connection
  /-- The connection being served. -/
  attached : Option Connection
  /-- Connections that the server has let go of. -/
  parted : List Connection
  deriving DecidableEq, Repr

namespace Listener

/-- A listener that no client has connected to. -/
def listen (interface : Interface) (reachable : Bool) : Listener :=
  { interface, reachable, queue := [], attached := none, parted := [] }

def connected (l : Listener) : Bool := l.attached.isSome

/-- The oldest waiting client is served, if none is served yet. -/
def accept (l : Listener) : Listener :=
  match l.attached, l.queue with
  | none, c :: rest => { l with attached := some c, queue := rest }
  | _, _ => l

/-- The server closes the connection that it serves. -/
def detach (l : Listener) : Listener :=
  match l.attached with
  | some c => { l with attached := none, parted := l.parted ++ [c.close] }
  | none => l

/-- The server goes away, and with it every connection. -/
def shut (l : Listener) : Listener :=
  { l with
    queue := []
    attached := none
    parted := l.parted ++ (l.attached.toList ++ l.queue).map Connection.close }

def connections (l : Listener) : List Connection := l.queue ++ l.attached.toList ++ l.parted

def knows (l : Listener) (client : Nat) : Bool := l.connections.any (·.client == client)

/-- The listener with the connection of one client changed. -/
def update (l : Listener) (client : Nat) (f : Connection → Connection) : Listener :=
  let change (c : Connection) : Connection := if c.client = client then f c else c
  { l with
    queue := l.queue.map change
    attached := l.attached.map change
    parted := l.parted.map change }

def act (l : Listener) (action : ClientAction) : Except ClientError Listener :=
  match action with
  | .connect client =>
    if l.reachable then .ok { l with queue := l.queue ++ [.fresh client] } else .error .unreachable
  | .send client bytes => known client (·.send bytes)
  | .close client => known client .finish
  | .abort client => known client .abort
  | .limit client room => known client (·.limit room)
where
  /-- A change of one client's connection, which has to exist. -/
  known (client : Nat) (f : Connection → Connection) : Except ClientError Listener :=
    if l.knows client then .ok (l.update client f) else .error .unknownClient

/-- A client collects what was written to it, and learns whether its connection is over. -/
def collect? (l : Listener) (client : Nat) : Option ((Array UInt8 × Bool) × Listener) := do
  let c ← l.connections.find? (·.client == client)
  return ((c.outgoing, c.closed || c.reset), l.update client fun c => c.collect.2)

end Listener

end PinBench.Net
