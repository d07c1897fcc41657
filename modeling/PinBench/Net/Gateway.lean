import Std.Async.TCP
import PinBench.Net.Listener

/-! The clients of a listener on the machine's network.  A gateway accepts them, tells what they do
as client actions, and sends them what the listener has written to them.  It never waits for a
client. -/

namespace PinBench.Net

open Std.Async

/-- The address of an interface for a socket. -/
def Interface.socketAddress (i : Interface) (port : UInt16) : Std.Net.SocketAddress :=
  match i with
  | .loopback => .v4 ⟨.ofParts 127 0 0 1, port⟩
  | .any => .v4 ⟨.ofParts 0 0 0 0, port⟩

/-- A client at the other end of a socket. -/
structure Peer where
  client : Nat
  socket : TCP.Socket.Client
  /-- The read that is under way.  There is none once the stream is over. -/
  reading : Option (AsyncTask (Option ByteArray))

namespace Peer

def readSize : UInt64 := 4096

def beginRead (p : Peer) : IO Peer := do
  let task ← (p.socket.recv? readSize).toIO
  return { p with reading := some task }

/-- What the client has done since it was last asked. -/
def poll (p : Peer) : IO (List ClientAction × Peer) := do
  match p.reading with
  | none => return ([], p)
  | some task =>
    unless ← IO.hasFinished task do return ([], p)
    match task.get with
    | .ok (some bytes) => return ([.send p.client bytes.toList], ← p.beginRead)
    | .ok none => return ([.close p.client], { p with reading := none })
    | .error _ => return ([.abort p.client], { p with reading := none })

/-- The client is sent what the listener has written to it.  It is no peer any more once the
listener has closed its connection; the task is what is still under way then. -/
def deliver (p : Peer) (l : Listener) : IO (Listener × Except (AsyncTask Unit) Peer) := do
  let some ((bytes, gone), l) := l.collect? p.client | return (l, .ok p)
  unless bytes.isEmpty do discard (p.socket.send ⟨bytes⟩).toIO
  unless gone do return (l, .ok p)
  p.socket.native.cancelRecv
  return (l, .error (← p.socket.shutdown.toIO))

end Peer

/-- The network side of a listener. -/
structure Gateway where
  socket : TCP.Socket.Server
  peers : List Peer
  accepted : Nat
  /-- Connections that are being closed. -/
  closing : List (AsyncTask Unit)

namespace Gateway

/-- A gateway that listens on a port.  This fails if the port is taken. -/
def listen (interface : Interface) (port : UInt16) : IO Gateway := do
  let socket ← TCP.Socket.Server.mk
  socket.bind (interface.socketAddress port)
  socket.listen 128
  return { socket, peers := [], accepted := 0, closing := [] }

/-- A client that waits, if there is one. -/
def waiting? (g : Gateway) : IO (Option TCP.Socket.Client) :=
  try g.socket.tryAccept catch _ => return none

partial def acceptAll (g : Gateway) : IO (List ClientAction × Gateway) := do
  let some socket ← g.waiting? | return ([], g)
  let peer ← Peer.beginRead { client := g.accepted, socket, reading := none }
  let (actions, g) ←
    acceptAll { g with peers := g.peers ++ [peer], accepted := g.accepted + 1 }
  return (.connect peer.client :: actions, g)

/-- What clients have done since they were last asked. -/
def poll (g : Gateway) : IO (List ClientAction × Gateway) := do
  let (connects, g) ← g.acceptAll
  let polled ← g.peers.mapM Peer.poll
  return (connects ++ polled.flatMap (·.1), { g with peers := polled.map (·.2) })

/-- Every client is sent what the listener has written to it. -/
def deliver (g : Gateway) (l : Listener) : IO (Listener × Gateway) := do
  let mut listener := l
  let mut peers : List Peer := []
  let mut closing := g.closing
  for p in g.peers do
    let (l, outcome) ← p.deliver listener
    listener := l
    match outcome with
    | .ok p => peers := peers ++ [p]
    | .error task => closing := closing ++ [task]
  return (listener, { g with peers, closing })

/-- Connections that are being closed are given up to `patience` milliseconds to end. -/
def finish (g : Gateway) (patience : Nat) : IO Unit := do
  for _ in [0:patience] do
    if ← g.closing.allM fun task => IO.hasFinished task then return
    IO.sleep 1

end Gateway

end PinBench.Net
