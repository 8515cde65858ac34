import Pepper.Base.Fallible

/-!
# Buffer Chains

The scatter and gather payloads of `pepper-buffer`: segments of encoded bytes,
each with a logical length of its own, and the two totals that a chain keeps
beside its segments. Lengths are 64-bit words.

`push` updates the totals one after the other and each with its own check, so the
model of it is a call on the chain: what was assigned before a failure stays.

## Main definitions

* `OwnedBuffer`, `BufferChain`: One segment, and the chain.
* `push`: Add a segment.
* `slice`: The part of a chain between two positions.
-/

namespace Pepper

namespace Buffer

open Fallible

inductive Checksum where
  | crc32c (value : UInt32)
  | blake3 (digest : List UInt8)
deriving DecidableEq, Repr

/-- Encoded bytes and how long they are decoded. -/
structure OwnedBuffer where
  bytes : List UInt8
  logicalLen : Nat
  checksum : Option Checksum := none
deriving DecidableEq, Repr

inductive BufferError where
  | invalidRange (start stop length : Nat)
  | lengthOverflow
deriving DecidableEq, Repr

namespace OwnedBuffer

def encodedLen (buffer : OwnedBuffer) : Nat :=
  buffer.bytes.length

/-- A part of a buffer is as long as its bytes; only the whole keeps its logical
    length. -/
def slice (buffer : OwnedBuffer) (start stop : Nat) : Except BufferError OwnedBuffer :=
  if start > stop ∨ stop > buffer.encodedLen then
    .error (.invalidRange start stop buffer.encodedLen)
  else
    .ok ⟨(buffer.bytes.drop start).take (stop - start),
      if stop - start = buffer.encodedLen then buffer.logicalLen else stop - start, none⟩

end OwnedBuffer

/-- Segments and two totals. -/
structure BufferChain where
  segments : List OwnedBuffer := []
  encodedLen : Nat := 0
  logicalLen : Nat := 0
deriving DecidableEq, Repr

/-- The first total is assigned before the second one is checked. -/
def push (segment : OwnedBuffer) : Fallible BufferChain BufferError Unit := do
  let chain ← get
  require (chain.encodedLen + segment.encodedLen < 2 ^ 64) .lengthOverflow
  modify fun chain => { chain with encodedLen := chain.encodedLen + segment.encodedLen }
  require (chain.logicalLen + segment.logicalLen < 2 ^ 64) .lengthOverflow
  modify fun chain =>
    { chain with
      logicalLen := chain.logicalLen + segment.logicalLen
      segments := chain.segments ++ [segment] }

/-- Push the part of a segment, which starts at the cursor, that lies between the
    positions. -/
def pushOverlap (start stop cursor : Nat) (segment : OwnedBuffer) :
    Fallible BufferChain BufferError Unit :=
  let overlapStart := max start cursor
  let overlapEnd := min stop (cursor + segment.encodedLen)
  if overlapStart < overlapEnd then do
    let part ← ofExcept (segment.slice (overlapStart - cursor) (overlapEnd - cursor))
    push part
  else pure ()

/-- The loop of `slice`. -/
def sliceSegments (start stop : Nat) :
    Nat → List OwnedBuffer → Fallible BufferChain BufferError Unit
  | _, [] => pure ()
  | cursor, segment :: rest => do
      pushOverlap start stop cursor segment
      let segmentEnd := cursor + segment.encodedLen
      if segmentEnd ≥ stop then pure () else sliceSegments start stop segmentEnd rest

namespace BufferChain

def slice (chain : BufferChain) (start stop : Nat) : Except BufferError BufferChain :=
  if start > stop ∨ stop > chain.encodedLen then
    .error (.invalidRange start stop chain.encodedLen)
  else
    match sliceSegments start stop 0 chain.segments {} with
    | (.ok _, output) => .ok output
    | (.error e, _) => .error e

/-- What a reader of the chain gets. -/
def bytes (chain : BufferChain) : List UInt8 :=
  chain.segments.flatMap (·.bytes)

end BufferChain

end Buffer

end Pepper
