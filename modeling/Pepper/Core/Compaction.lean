import Pepper.Base.Bytes
import Pepper.Base.Collections

/-!
# Selection of Batches for Compaction

Which batches of a log the cleaner keeps: `select_retained_batches`.

Records are decoded elsewhere, so the decoder is a parameter. It gives the
records of all record sets in a batch, or none at all. The keys of a batch are
compared with the base offset of the last batch that has the key.

## Main definitions

* `decodeBatch`, `noteLatest`: The two results of the first loop.
* `selectRetainedBatches`: The selection.
-/

namespace Pepper

namespace Kafka

structure CompactionBatch where
  baseOffset : Nat
  timestampMs : Nat
  bytes : Bytes
deriving DecidableEq, Repr

/-- The fields of a decoded record that the cleaner reads. -/
structure CompactionRecord where
  control : Bool
  producerId : Int
  timestamp : Int
  key : Option Bytes
  value : Option Bytes
deriving DecidableEq, Repr

/-- The batches to keep, and counts. -/
structure CompactionSelection where
  inputBatches : Nat
  retainedBatches : Nat
  obsoleteBatches : Nat
  undecodableBatches : Nat
  nullKeyBatches : Nat
  protectedTombstoneBatches : Nat
  retainedOffsets : BTreeSet Nat

/-- A key comes with whether its record is a tombstone, and its time. -/
structure DecodedBatch where
  baseOffset : Nat
  keys : List (Bytes × Bool × Nat)
  retainAlways : Bool
  undecodable : Bool
  nullKey : Bool

section Select

variable (decodeAll : Bytes → Option (List CompactionRecord))

/-- A record without a time of its own has that of its batch. -/
def CompactionRecord.time (record : CompactionRecord) (batch : CompactionBatch) : Nat :=
  if 0 ≤ record.timestamp then record.timestamp.toNat else batch.timestampMs

def decodeBatch (batch : CompactionBatch) : DecodedBatch :=
  match decodeAll batch.bytes with
  | some records =>
    { baseOffset := batch.baseOffset
      keys := records.filterMap fun record =>
        record.key.map fun key => (key, record.value.isNone, record.time batch)
      retainAlways := records.any fun record =>
        record.control || decide (0 ≤ record.producerId) || record.key.isNone
      undecodable := false
      nullKey := records.any (·.key.isNone) }
  | none => ⟨batch.baseOffset, [], true, true, false⟩

/-- The last batch of each key, with the keys of one more batch. -/
def noteLatest (latest : BTreeMap Bytes Nat) (batch : DecodedBatch) : BTreeMap Bytes Nat :=
  batch.keys.foldl (fun latest entry => latest.insert entry.1 batch.baseOffset) latest

/-- A tombstone of the batch is younger than the retention. -/
def DecodedBatch.protectedTombstone (batch : DecodedBatch) (nowMs deleteRetentionMs : Nat) : Bool :=
  batch.keys.any fun (_, tombstone, timestamp) =>
    tombstone && decide (nowMs - timestamp < deleteRetentionMs)

/-- A batch with the last record of a key stays, as do exempt ones. -/
def DecodedBatch.retained (batch : DecodedBatch) (latest : BTreeMap Bytes Nat)
    (nowMs deleteRetentionMs : Nat) : Bool :=
  batch.retainAlways || batch.protectedTombstone nowMs deleteRetentionMs ||
    batch.keys.any fun entry => latest[entry.1]? = some batch.baseOffset

def selectRetainedBatches (batches : List CompactionBatch) (nowMs deleteRetentionMs : Nat) :
    CompactionSelection :=
  let decoded := batches.map (decodeBatch decodeAll)
  let latest := decoded.foldl noteLatest ∅
  let retained : BTreeSet Nat := .ofList
    ((decoded.filter (·.retained latest nowMs deleteRetentionMs)).map (·.baseOffset))
  { inputBatches := batches.length
    retainedBatches := retained.size
    obsoleteBatches := batches.length - retained.size
    undecodableBatches := decoded.countP (·.undecodable)
    nullKeyBatches := decoded.countP (·.nullKey)
    protectedTombstoneBatches := decoded.countP (·.protectedTombstone nowMs deleteRetentionMs)
    retainedOffsets := retained }

end Select

end Kafka

end Pepper
