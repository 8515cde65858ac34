import Pepper.Base.Collections
import Pepper.Base.Fallible

/-!
# Extent Stores

The store an ordered log keeps its records in: append-only extents that can be
sealed, as the `ExtentStore` trait of `pepper-extent` offers them.

Each call either takes effect or not. What the calls leave to the machine (an
input or output error, a full device, the identifier of a new extent) comes
from a script that the store reads one entry a call, so a statement about
every store is a statement about every script. Some calls can report an error
after their effect: sealing, since the file is cut to length after the seal has
been made durable, and the two calls that take an extent away, since the
directory is synced after the file is gone. Whether a reader still holds an
extent is not the machine's answer, so these two get it as an argument.

Payload bytes and record identities are kept as they are; the framing,
checksums and padding of the file format are not modelled.

## Main definitions

* `Record`, `Extent`, `Store`: The contents of a store.
* `Store.create`, `append`, `sealExtent`, `readRange`, `truncate`, `recover`,
  `replaceSealed`, `reclaim`: The calls of the trait that the ordered log makes.
-/

namespace Pepper

namespace ExtentStore

/-- The identity the ordered log encodes into a record id. -/
structure RecordIdentity where
  partitionKey : Nat
  epoch : Nat
  baseOffset : Nat
  lastOffset : Nat
  timestampMs : Nat
deriving DecidableEq, Repr

structure Record where
  identity : RecordIdentity
  payload : List UInt8
deriving DecidableEq, Repr

/-- The records of an extent. -/
structure Extent where
  records : List Record
  sealed : Bool
deriving DecidableEq, Repr

inductive ExtentError where
  | notFound (extentId : Nat)
  | sealed (extentId : Nat)
  | recordNotFound (extentId recordIndex : Nat)
  | invalidRange (offset rangeEnd length : Nat)
  | invalidTruncation (extentId recordCount : Nat)
  | emptyBatch
  | activeExtent (extentId : Nat)
  | extentLeased (extentId : Nat)
  | refused
deriving DecidableEq, Repr

/-- One entry of a store's script: the answer to a call, and the identifier it
    offers to a new extent. -/
structure Io where
  outcome : Outcome
  freshId : Nat
deriving DecidableEq, Repr

/-- The extents, and a script of what calls do. -/
structure Store where
  extents : BTreeMap Nat Extent
  script : Nat → Io
  clock : Nat

/-- Calls on a store. -/
abbrev StoreM (α : Type) := Fallible Store ExtentError α

/-- What a successful append reports. -/
structure AppendReceipt where
  extentId : Nat
  recordIndex : Nat
  encodedLen : Nat
deriving DecidableEq, Repr

namespace Store

open Fallible

/-- The next call of the script. -/
def nextIo : StoreM Io :=
  fun s => (.ok (s.script s.clock), { s with clock := s.clock + 1 })

/-- The machine performs the call. -/
def perform : StoreM Unit := do
  let io ← nextIo
  require (io.outcome = .done) .refused

def find (extentId : Nat) : StoreM Extent := do
  let s ← get
  expect s.extents[extentId]? (.notFound extentId)

def put (extentId : Nat) (extent : Extent) : StoreM Unit :=
  modify fun s => { s with extents := s.extents.insert extentId extent }

/-- Creation refuses an identifier that is taken. -/
def create : StoreM Nat := do
  let io ← nextIo
  let s ← get
  require (io.outcome = .done ∧ io.freshId ∉ s.extents) .refused
  put io.freshId ⟨[], false⟩
  pure io.freshId

/-- An extent that is sealed takes nothing. -/
def append (extentId : Nat) (record : Record) : StoreM AppendReceipt := do
  let extent ← find extentId
  require (extent.sealed = false) (.sealed extentId)
  perform
  put extentId { extent with records := extent.records ++ [record] }
  pure ⟨extentId, extent.records.length, record.payload.length⟩

/-- Sealing a sealed extent changes nothing. -/
def sealExtent (extentId : Nat) : StoreM Unit := do
  let extent ← find extentId
  let io ← nextIo
  require (io.outcome ≠ .refused) .refused
  put extentId { extent with sealed := true }
  -- The seal is durable; cutting the file to length may still fail.
  require (io.outcome = .done) .refused

/-- Part of a record. -/
def readRange (extentId recordIndex offset length : Nat) : StoreM (List UInt8) := do
  let extent ← find extentId
  let record ← expect extent.records[recordIndex]? (.recordNotFound extentId recordIndex)
  require (offset + length ≤ record.payload.length)
    (.invalidRange offset (offset + length) record.payload.length)
  perform
  pure ((record.payload.drop offset).take length)

/-- Cutting an extent back to its first records. Every record was appended as a
    batch of its own, so every count is a batch boundary. -/
def truncate (extentId recordCount : Nat) : StoreM Unit := do
  let extent ← find extentId
  require (extent.sealed = false) (.sealed extentId)
  require (recordCount ≤ extent.records.length) (.invalidTruncation extentId recordCount)
  perform
  put extentId { extent with records := extent.records.take recordCount }

def extentIds : StoreM (List Nat) := do
  let s ← get
  pure s.extents.keys

/-- Reading an extent back from the device. -/
def recover (extentId : Nat) : StoreM Extent := do
  let extent ← find extentId
  perform
  pure extent

/-- Put an extent with the given records in the place of a sealed one. -/
def replaceSealed (leased : Bool) (extentId : Nat) (records : List Record) : StoreM Nat := do
  require (records ≠ []) .emptyBatch
  let extent ← find extentId
  require (extent.sealed = true) (.activeExtent extentId)
  require (leased = false) (.extentLeased extentId)
  let io ← nextIo
  let s ← get
  require (io.outcome ≠ .refused ∧ io.freshId ∉ s.extents) .refused
  modify fun s =>
    { s with extents := (s.extents.erase extentId).insert io.freshId ⟨records, true⟩ }
  -- The new extent is installed; taking the old file away may still fail.
  require (io.outcome = .done) .refused
  pure io.freshId

/-- Delete a sealed extent. -/
def reclaim (leased : Bool) (extentId : Nat) : StoreM Unit := do
  let extent ← find extentId
  require (extent.sealed = true) (.activeExtent extentId)
  require (leased = false) (.extentLeased extentId)
  let io ← nextIo
  require (io.outcome ≠ .refused) .refused
  modify fun s => { s with extents := s.extents.erase extentId }
  -- The file is gone; syncing the directory may still fail.
  require (io.outcome = .done) .refused

end Store

end ExtentStore

end Pepper
