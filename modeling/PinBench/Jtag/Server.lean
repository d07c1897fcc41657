import PinBench.Net.Listener
import PinBench.Jtag.Shifter

/-! The server that a debugger connects to.  It serves one client at a time.  Between requests it
reads until it has a whole record; a record that arrives in pieces waits until it is complete.  What
a client does not take of a reply waits, and until it has gone no more is read.  A request that is
refused, a stop request and the end of the stream end the session. -/

namespace PinBench.Jtag

/-- What a step of the server came to. -/
inductive Status where
  | success
  | clientDisconnected
  | protocolError
  deriving DecidableEq, Repr

structure Server where
  listener : Net.Listener
  /-- The bytes of a record that is not complete yet. -/
  inbox : List UInt8
  /-- Bytes of replies that the client has not taken yet. -/
  outbox : List UInt8
  shifter : Shifter
  lastCycle : Nat
  lastStatus : Status
  deriving DecidableEq, Repr

namespace Server

/-- A server that no client has connected to. -/
def listen (interface : Net.Interface) (reachable : Bool) : Server :=
  { listener := .listen interface reachable, inbox := [], outbox := [], shifter := .idle,
    lastCycle := 0, lastStatus := .success }

def connected (s : Server) : Bool := s.listener.connected

def lines (s : Server) : Lines := s.shifter.lines

/-- The client is let go of, and with it its unfinished record and what it has not taken. -/
def close (s : Server) : Server :=
  { s with listener := s.listener.detach, inbox := [], outbox := [] }

/-- The client is let go of for a reason. -/
def fail (s : Server) (status : Status) : Server × Status := (s.close, status)

/-- What waits is written to the client, as far as the connection takes it. -/
def flush (s : Server) : Server × Status :=
  match s.listener.attached with
  | none => (s, .success)
  | some c =>
    if s.outbox.isEmpty then (s, .success)
    else
      match c.write? s.outbox with
      | some (c, outbox) =>
        ({ s with listener := { s.listener with attached := some c }, outbox }, .success)
      | none => s.fail .clientDisconnected

/-- What reading a record from the client came to. -/
inductive Received where
  | record (r : Record)
  | incomplete
  | disconnected
  deriving DecidableEq, Repr

/-- Reads from the client until a record is complete or there are no more bytes. -/
def receive (s : Server) : Server × Received :=
  match s.listener.attached with
  | none => (s, .incomplete)
  | some c =>
    let (bytes, c) := c.readUpTo (recordSize - s.inbox.length)
    let inbox := s.inbox ++ bytes
    let s := { s with listener := { s.listener with attached := some c } }
    match Record.decode? inbox with
    | some r => ({ s with inbox := [] }, .record r)
    | none =>
      let s := { s with inbox }
      match c.tail with
      | .waiting => (s, .incomplete)
      | .ended | .failed => (s, .disconnected)

/-- Between requests, once the client has taken the last reply, the next one is taken from it. -/
def fetch (s : Server) : Server × Status :=
  if s.shifter.busy = false ∧ s.outbox = [] then
    match s.receive with
    | (s, .incomplete) => (s, .success)
    | (s, .disconnected) => s.fail .clientDisconnected
    | (s, .record r) =>
      match r.command with
      | .ok .stop => s.fail .clientDisconnected
      | .ok c => ({ s with shifter := s.shifter.load c r }, .success)
      | .error _ => s.fail .protocolError
  else (s, .success)

/-- One phase of the test clock, and the reply that it completes. -/
def clock (s : Server) (tdo : Bool) : Server × Status :=
  match s.shifter.step tdo with
  | (shifter, some r) => { s with shifter, outbox := s.outbox ++ r.encode }.flush
  | (shifter, none) => ({ s with shifter }, .success)

/-- Serves the client, who may have connected just now.  Without one nothing happens. -/
def serve (s : Server) (tdo : Bool) : Server × Status :=
  let s := { s with listener := s.listener.accept }
  if s.connected = false then (s, .success)
  else
    match s.flush with
    | (s, .success) =>
      match s.fetch with
      | (s, .success) => s.clock tdo
      | failed => failed
    | failed => failed

/-- One step of the server, with data-out at `tdo`. -/
def step (s : Server) (cycle : Nat) (tdo : Bool) : Server :=
  let (s, status) := s.serve tdo
  { s with lastCycle := cycle, lastStatus := status }

end Server

end PinBench.Jtag
