/-! One byte-stream connection between a client and a server.  The client's bytes reach the server
in segments, one for each time the client sent some; a read takes bytes of one segment only.  A
write takes as many bytes as the connection has room for. -/

namespace PinBench.Net

/-- A connection, with both directions. -/
structure Connection where
  client : Nat
  /-- Segments sent by the client that the server has not read yet. -/
  incoming : List (List UInt8)
  /-- The client has ended its sending side. -/
  ended : Bool
  reset : Bool
  /-- Bytes written by the server that the client has not collected yet. -/
  outgoing : Array UInt8
  /-- How many more bytes of the server the connection takes before it blocks.  `none` if it never
  does. -/
  room : Option Nat
  closed : Bool
  deriving DecidableEq, Repr

namespace Connection

/-- A connection on which nothing has been sent. -/
def fresh (client : Nat) : Connection :=
  { client, incoming := [], ended := false, reset := false, outgoing := #[], room := none,
    closed := false }

def send (c : Connection) (bytes : List UInt8) : Connection :=
  { c with incoming := c.incoming ++ [bytes] }

def finish (c : Connection) : Connection := { c with ended := true }

def abort (c : Connection) : Connection := { c with reset := true }

/-- From now on the connection has so much room. -/
def limit (c : Connection) (room : Option Nat) : Connection := { c with room }

def collect (c : Connection) : Array UInt8 × Connection := (c.outgoing, { c with outgoing := #[] })

def close (c : Connection) : Connection := { c with closed := true }

/-- The server writes bytes until the connection blocks, and is left with those that it did not
take.  `none` if the connection was reset. -/
def write? (c : Connection) (bytes : List UInt8) : Option (Connection × List UInt8) :=
  if c.reset then none
  else
    match c.room with
    | none => some ({ c with outgoing := c.outgoing ++ bytes }, [])
    | some n =>
      some ({ c with outgoing := c.outgoing ++ bytes.take n, room := some (n - bytes.length) },
        bytes.drop n)

/-- What a server finds once it has read all the bytes that are there. -/
inductive Tail where
  /-- More may come. -/
  | waiting
  /-- The client has ended its sending side. -/
  | ended
  | failed
  deriving DecidableEq, Repr

/-- What comes after the bytes that are there. -/
def tail (c : Connection) : Tail :=
  if c.reset then .failed else if c.ended then .ended else .waiting

/-- Up to `n` bytes from the front of some segments, and what is left of them. -/
def takeBytes (n : Nat) : List (List UInt8) → List UInt8 × List (List UInt8)
  | [] => ([], [])
  | segment :: rest =>
    if segment.length < n then
      let (bytes, rest) := takeBytes (n - segment.length) rest
      (segment ++ bytes, rest)
    else
      match segment.drop n with
      | [] => (segment, rest)
      | left => (segment.take n, left :: rest)

/-- The server reads until it has `n` bytes or there are no more.  A reset connection gives
none. -/
def readUpTo (c : Connection) (n : Nat) : List UInt8 × Connection :=
  if c.reset then ([], c)
  else
    let (bytes, incoming) := takeBytes n c.incoming
    (bytes, { c with incoming })

/-- The reads of at most `size` bytes that empty one segment. -/
def chunks (size : Nat) (segment : List UInt8) : List (List UInt8) :=
  go segment.length segment
where
  /-- `fuel` bounds the number of reads. -/
  go : Nat → List UInt8 → List (List UInt8)
    | 0, _ => []
    | fuel + 1, segment =>
      if segment.isEmpty then []
      else segment.take size :: go fuel (segment.drop size)

/-- The server reads all the bytes that are there, at most `size` at a time. -/
def readChunks (c : Connection) (size : Nat) : List (List UInt8) × Connection :=
  if c.reset then ([], c)
  else (c.incoming.flatMap (chunks size), { c with incoming := [] })

end Connection

end PinBench.Net
