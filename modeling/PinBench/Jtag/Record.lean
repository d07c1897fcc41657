import PinBench.Bytes

/-! The records of the `jtag_vpi` protocol.  A request and a reply have the same fixed layout: the
command, a buffer of bits to send, a buffer of bits captured, the number of meaningful bytes and the
number of bits, with every number in four bytes, least significant first. -/

namespace PinBench.Jtag

def bufferSize : Nat := 512

def recordSize : Nat := 4 + bufferSize + bufferSize + 4 + 4

inductive Command where
  /-- Forces the port into its reset state. -/
  | reset
  /-- Clocks a sequence of mode-select levels. -/
  | tmsSequence
  /-- Shifts bits through the selected register with mode-select low. -/
  | scan
  /-- The same with mode-select high on the last bit. -/
  | scanFlipTms
  /-- Ends the session. -/
  | stop
  deriving DecidableEq, Repr

namespace Command

/-- The number of a command in a record. -/
def code : Command → UInt32
  | .reset => 0
  | .tmsSequence => 1
  | .scan => 2
  | .scanFlipTms => 3
  | .stop => 4

def ofCode? (code : UInt32) : Option Command :=
  if code = 0 then some .reset
  else if code = 1 then some .tmsSequence
  else if code = 2 then some .scan
  else if code = 3 then some .scanFlipTms
  else if code = 4 then some .stop
  else none

/-- Whether the record says how many bits a command clocks. -/
def carriesBits : Command → Bool
  | .tmsSequence | .scan | .scanFlipTms => true
  | .reset | .stop => false

end Command

inductive RecordError where
  | unknownCommand (code : UInt32)
  | lengthTooLarge (length : UInt32)
  | bitCountExceedsLength (bits length : UInt32)
  deriving DecidableEq, Repr

def RecordError.message : RecordError → String
  | .unknownCommand code => "unknown jtag_vpi command " ++ toString code.toNat
  | .lengthTooLarge length => "transfer length " ++ toString length.toNat ++ " exceeds 512 bytes"
  | .bitCountExceedsLength bits length =>
    toString bits.toNat ++ " bits do not fit in " ++ toString length.toNat ++ " bytes"

abbrev Buffer := Vector UInt8 bufferSize

/-- A buffer that starts with `bytes`, as far as they fit, and is zero after them. -/
def Buffer.ofBytes (bytes : List UInt8) : Buffer := Vector.ofFn fun i => bytes.getD i.val 0

structure Record where
  code : UInt32
  /-- Bits to send. -/
  out : Buffer
  /-- Bits captured. -/
  captured : Buffer
  /-- The number of meaningful bytes in the buffers. -/
  length : UInt32
  /-- The number of bits to clock. -/
  bits : UInt32
  deriving DecidableEq, Repr

namespace Record

/-- A request for `bits` bits, which start the buffer of bits to send. -/
def request (command : Command) (data : List UInt8) (bits : UInt32) : Record :=
  { code := command.code, out := .ofBytes data, captured := .ofBytes [],
    length := UInt32.ofNat (min data.length bufferSize), bits }

def encode (r : Record) : List UInt8 :=
  Bytes.bytes32 r.code ++ (r.out.toList ++ (r.captured.toList ++
    (Bytes.bytes32 r.length ++ Bytes.bytes32 r.bits)))

/-- The record at the front of some bytes, if they are enough for one. -/
def decode? (bytes : List UInt8) : Option Record :=
  if h : recordSize ≤ bytes.length then
    let afterCode := bytes.drop 4
    let afterOut := afterCode.drop bufferSize
    let afterCaptured := afterOut.drop bufferSize
    some
      { code := Bytes.word32 bytes
        out := ⟨(afterCode.take bufferSize).toArray, by
          simp only [List.size_toArray, List.length_take, afterCode, List.length_drop]
          simp only [recordSize, bufferSize] at h ⊢
          omega⟩
        captured := ⟨(afterOut.take bufferSize).toArray, by
          simp only [List.size_toArray, List.length_take, afterOut, afterCode, List.length_drop]
          simp only [recordSize, bufferSize] at h ⊢
          omega⟩
        length := Bytes.word32 afterCaptured
        bits := Bytes.word32 (afterCaptured.drop 4) }
  else none

/-- What a record asks for.  A command that carries bits needs a length that the buffers have, and
no more bits than the length holds. -/
def command (r : Record) : Except RecordError Command :=
  match Command.ofCode? r.code with
  | none => .error (.unknownCommand r.code)
  | some c =>
    if c.carriesBits = false then .ok c
    else if bufferSize < r.length.toNat then .error (.lengthTooLarge r.length)
    else if r.length.toNat * 8 < r.bits.toNat then .error (.bitCountExceedsLength r.bits r.length)
    else .ok c

theorem length_encode (r : Record) : r.encode.length = recordSize := by
  simp only [encode, recordSize, List.length_append, Bytes.length_bytes32, Vector.length_toList]
  omega

end Record

end PinBench.Jtag
