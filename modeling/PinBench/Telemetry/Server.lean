import PinBench.Net.Listener
import PinBench.Telemetry.Endpoint
import PinBench.Telemetry.Message
import PinBench.Text.Blank

/-! The server that an observer connects to.  It serves one observer at a time and talks in lines of
JSON.  A new observer is told the channel tables and then the last level of every level channel, in
the order of the channels' names.  From then on it is told every change.  Its own lines set the
inputs; a line that is no message is passed over. -/

namespace PinBench.Telemetry

/-- Waiting bytes above which an observer misses changes. -/
def maxPendingOutput : Nat := 1024 * 1024

/-- The longest line of an observer, without its end. -/
def maxPendingInput : Nat := 64 * 1024

/-- The most bytes that the server reads at once. -/
def readSize : Nat := 4096

/-- The complete lines at the front of some bytes, without their ends, and the rest. -/
def splitLines : List UInt8 → List (List UInt8) × List UInt8
  | [] => ([], [])
  | b :: bytes =>
    match splitLines bytes with
    | (lines, rest) =>
      if b = 10 then ([] :: lines, rest)
      else
        match lines with
        | [] => ([], b :: rest)
        | line :: lines => ((b :: line) :: lines, rest)

/-- The levels that a line sets, if it is a message. -/
def levelsOfLine? (line : List UInt8) : Option (List Bool) :=
  match ObserverMessage.read? (Blank.trim (Utf8.decode line)) with
  | some (.inputs values) => some (values.map (· != 0))
  | none => none

/-- The server.  Without an observer both boxes are empty. -/
structure Server where
  listener : Net.Listener
  /-- Bytes of the observer that are no complete line yet. -/
  inbox : List UInt8
  /-- Bytes that wait to be written to the observer. -/
  outbox : List UInt8
  /-- The line with the channel tables. -/
  registration : List UInt8
  /-- The level channels in the order of their names, each with its last change. -/
  levels : List (String × Option Change)
  deriving DecidableEq, Repr

namespace Server

/-- A server that no observer has connected to. -/
def listen (reachable : Bool) : Server :=
  { listener := .listen .loopback reachable, inbox := [], outbox := [], registration := [],
    levels := [] }

def connected (s : Server) : Bool := s.listener.connected

/-- The lines with the last change of every level channel that has had one. -/
def levelLines (s : Server) : List UInt8 :=
  (s.levels.filterMap (·.2)).flatMap fun c => (ServerMessage.output c).line

/-- The oldest waiting observer is served, if none is served yet, and will be told how things
stand. -/
def accept (s : Server) : Server :=
  let listener := s.listener.accept
  if s.connected = false ∧ listener.connected = true then
    { s with listener, inbox := [], outbox := s.registration ++ s.levelLines }
  else s

def disconnect (s : Server) : Server :=
  { s with listener := s.listener.detach, inbox := [], outbox := [] }

/-- What waits is written to the observer, as far as the connection takes it. -/
def flush (s : Server) : Server :=
  match s.listener.attached with
  | none => s
  | some c =>
    if s.outbox.isEmpty then s
    else
      match c.write? s.outbox with
      | some (c, outbox) => { s with listener := { s.listener with attached := some c }, outbox }
      | none => s.disconnect

/-- The inbox after more reads, or `none` once an unfinished line has become too long. -/
def fill? (inbox : List UInt8) (chunks : List (List UInt8)) : Option (List UInt8) :=
  chunks.foldlM (fun inbox chunk =>
    let inbox := inbox ++ chunk
    if maxPendingInput < (inbox.reverse.takeWhile (· != 10)).length then none else some inbox) inbox

/-- Everything that the observer has sent is read.  An observer who has left, or whose line is too
long, is let go of at once. -/
def fillInbox (s : Server) : Server :=
  match s.listener.attached with
  | none => s
  | some c =>
    let (chunks, c) := c.readChunks readSize
    let s := { s with listener := { s.listener with attached := some c } }
    match fill? s.inbox chunks, c.tail with
    | some inbox, .waiting => { s with inbox }
    | _, _ => s.disconnect

/-- The channel tables: they are kept for every observer to come, and the one being served is told
them. -/
def register (s : Server) (inputs : List InputChannel) (outputs : List OutputChannel) : Server :=
  let registration := (ServerMessage.register inputs outputs).line
  let names := ((outputs.filter (·.isLevel)).map (·.name)).eraseDups
  { s with
    registration
    levels := (names.mergeSort fun a b => decide (a ≤ b)).map (·, none)
    outbox := if s.connected then s.outbox ++ registration else s.outbox }

/-- The levels of the last message among the lines that are complete. -/
def poll (s : Server) : Server × Option (List Bool) :=
  let s := s.accept.flush.fillInbox
  if s.connected then
    let (lines, inbox) := splitLines s.inbox
    ({ s with inbox }, (lines.filterMap levelsOfLine?).getLast?)
  else (s, none)

/-- A message waits for the observer, unless too much waits already. -/
def send (s : Server) (m : ServerMessage) : Server :=
  if s.connected = false ∨ maxPendingOutput < s.outbox.length then s
  else { s with outbox := s.outbox ++ m.line }

/-- The last change of a level channel is kept. -/
def remember (s : Server) (change : Change) : Server :=
  { s with levels := s.levels.map fun l => if l.1 = change.channel then (l.1, some change) else l }

/-- A change of an output: it is kept if it is a level, and the observer is told. -/
def push (s : Server) (change : Change) : Server :=
  ((s.accept.remember change).send (.output change)).flush

/-- The observer is told what waits, then let go of. -/
def close (s : Server) : Server := s.flush.disconnect

instance : Endpoint Server where
  register := register
  poll := poll
  push := push
  close := close

end Server

end PinBench.Telemetry
