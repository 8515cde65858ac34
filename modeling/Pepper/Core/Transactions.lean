import Pepper.Base.Collections
import Pepper.Base.Fallible

/-!
# The Transaction Coordinator

Producer sequencing and transaction decisions, as `TransactionCoordinator` of
`pepper-kafka` makes them.

Producers live in 32 shards. A shard is one lock and one snapshot file, so a
call that only concerns one producer is atomic, and writing a snapshot writes
the whole shard. The calls of the produce path (`prepareAppend`,
`completeAppend`, `cancelAppend`) change memory only; every other call writes
the snapshot before it returns, and a failure to write is reported after memory
has changed.

The snapshot files are part of the state, with a script of what each write does.
A file that does not exist reads as the default, so a file is a value here.
Importing the single-file format of older versions is not modelled.

## Main definitions

* `SequenceState`, `ProducerState`, `TransactionState`: What a shard holds.
* `TransactionCoordinator`: Memory, files and the script of writes.
* `initProducer`, `addPartitions`, `prepareAppend`, `completeAppend`,
  `cancelAppend`, `stageOffsets`, `endTransaction`, `markOffsetsApplied`,
  `expire`, `flushDirty`: The calls that change it.
* `recoverPartition`: The way back after a crash.
* `CoordinatorOp`, `step`: One call with its arguments, and the state it leaves.
-/

namespace Pepper

namespace Kafka

open Fallible

/-- Where the transaction of a producer is. -/
inductive TransactionStatus where
  | ready
  | ongoing
  | committed
  | aborted
deriving DecidableEq, Repr

structure TransactionPartition where
  topic : String
  partition : Int
deriving DecidableEq, Repr

namespace TransactionPartition

/-- Partitions are ordered by topic and then by number. -/
instance instOrd : Ord TransactionPartition where
  compare := compareLex (compareOn topic) (compareOn partition)

instance instTransOrd : Std.TransOrd TransactionPartition :=
  inferInstanceAs (Std.TransCmp (compareLex (compareOn topic) (compareOn partition)))

instance instLawfulEqOrd : Std.LawfulEqOrd TransactionPartition where
  eq_of_compare {a b} h := by
    have hlex : (compare a.topic b.topic).then (compare a.partition b.partition) = .eq := h
    rw [Ordering.then_eq_eq, Std.LawfulEqCmp.compare_eq_iff_eq,
      Std.LawfulEqCmp.compare_eq_iff_eq] at hlex
    cases a
    cases b
    simp only [TransactionPartition.mk.injEq]
    exact hlex

end TransactionPartition

/-- What the coordinator reads from the header of a record batch. -/
structure RecordBatchIdentity where
  transactional : Bool
  control : Bool
  producerId : Int
  producerEpoch : Int
  baseSequence : Int
  recordCount : Nat
deriving DecidableEq, Repr

/-- The next sequence of a producer on a partition, and its last batch. -/
structure SequenceState where
  nextSequence : Int
  lastBaseSequence : Int
  lastRecordCount : Nat
  lastBaseOffset : Nat
  lastOffset : Nat
  firstTransactionOffset : Option Nat
  pending : Option (Int × Nat)
deriving DecidableEq, Repr

/-- The entry of a partition that a producer has not written to. -/
def SequenceState.fresh : SequenceState :=
  ⟨0, -1, 0, 0, 0, none, none⟩

/-- An offset that is committed with the transaction. -/
structure PendingOffset where
  group : String
  topic : String
  partition : Int
  offset : Int
  metadata : String
deriving DecidableEq, Repr

/-- The record of a producer. -/
structure ProducerState where
  transactionalId : Option String
  epoch : Int
  timeoutMs : Nat
  deadlineMs : Nat
  status : TransactionStatus
  partitions : BTreeSet TransactionPartition
  sequences : BTreeMap TransactionPartition SequenceState
  pendingOffsets : List PendingOffset
  offsetsApplied : Bool

/-- Offsets of a partition that belong to an aborted transaction. -/
structure AbortedRange where
  producerId : Int
  firstOffset : Nat
  lastOffset : Nat
deriving DecidableEq, Repr

/-- One shard. -/
structure TransactionState where
  producers : BTreeMap Int ProducerState
  aborted : BTreeMap TransactionPartition (List AbortedRange)

/-- The next producer id and the ids of transactional producers. -/
structure CoordinatorMetadata where
  nextProducerId : Int
  transactionalIds : BTreeMap String Int

def TransactionState.default : TransactionState := ⟨∅, ∅⟩

def CoordinatorMetadata.default : CoordinatorMetadata := ⟨0, ∅⟩

def transactionShards : Nat := 32

/-- Records in shards, each with its file. -/
structure TransactionCoordinator where
  metadata : CoordinatorMetadata
  shards : Fin transactionShards → TransactionState
  dirty : Fin transactionShards → Bool
  metadataFile : CoordinatorMetadata
  shardFiles : Fin transactionShards → TransactionState
  script : Nat → Outcome
  clock : Nat

inductive TransactionError where
  | unknownProducer
  | fencedProducer
  | outOfOrderSequence
  | invalidTransactionState
  | notTransactional
  | invalidRecordBatch
  | io
deriving DecidableEq, Repr

structure ProducerIdentity where
  producerId : Int
  producerEpoch : Int
deriving DecidableEq, Repr

/-- What is to be done with a batch. -/
inductive AppendDecision where
  | nonIdempotent
  | append
  | duplicate (baseOffset : Nat)
deriving DecidableEq, Repr

/-- A coordinator opened over an empty directory whose writes all succeed. -/
def TransactionCoordinator.empty : TransactionCoordinator where
  metadata := .default
  shards := fun _ => .default
  dirty := fun _ => false
  metadataFile := .default
  shardFiles := fun _ => .default
  script := fun _ => .done
  clock := 0

/-- Calls on the coordinator. -/
abbrev CoordinatorM (α : Type) := Fallible TransactionCoordinator TransactionError α

/-- Signed addition that stops at the bounds of a type with the given greatest
    value. -/
def saturatingAddSigned (greatest a b : Int) : Int :=
  max (-greatest - 1) (min greatest (a + b))

/-- The 32-bit signed value with the same bits. -/
def asI32 (n : Nat) : Int :=
  if n % 2 ^ 32 < 2 ^ 31 then (n % 2 ^ 32 : Nat) else (n % 2 ^ 32 : Nat) - 2 ^ 32

def RecordBatchIdentity.producer (identity : RecordBatchIdentity) : ProducerIdentity :=
  ⟨identity.producerId, identity.producerEpoch⟩

/-- The shard of a producer, by its id. -/
def producerShard (producerId : Int) : Fin transactionShards :=
  ⟨(producerId % 32).toNat, by unfold transactionShards; omega⟩

/-- The sequence state of a partition, with the entry that would be created for
    one that has none. -/
def ProducerState.sequence (producer : ProducerState) (partition : TransactionPartition) :
    SequenceState :=
  producer.sequences[partition]?.getD .fresh

def ProducerState.setSequence (producer : ProducerState) (partition : TransactionPartition)
    (sequence : SequenceState) : ProducerState :=
  { producer with sequences := producer.sequences.insert partition sequence }

/-- The effect of a completed batch on the sequence state, without the offset at
    which a transaction starts. -/
def SequenceState.advance (sequence : SequenceState) (identity : RecordBatchIdentity)
    (baseOffset lastOffset : Nat) : SequenceState :=
  { sequence with
    pending := none
    lastBaseSequence := identity.baseSequence
    lastRecordCount := identity.recordCount
    nextSequence := saturatingAddSigned (2 ^ 31 - 1) identity.baseSequence
      (asI32 identity.recordCount)
    lastBaseOffset := baseOffset
    lastOffset := lastOffset }

/-- Record where the transaction starts, unless that is known already. -/
def SequenceState.beginAt (sequence : SequenceState) (baseOffset : Nat) : SequenceState :=
  { sequence with firstTransactionOffset := some (sequence.firstTransactionOffset.getD baseOffset) }

namespace TransactionCoordinator

def producer (c : TransactionCoordinator) (producerId : Int) : Option ProducerState :=
  (c.shards (producerShard producerId)).producers[producerId]?

/-- Replace the state of one shard in memory. -/
def setShard (c : TransactionCoordinator) (shard : Fin transactionShards)
    (state : TransactionState) : TransactionCoordinator :=
  { c with shards := Function.update c.shards shard state }

def setProducer (c : TransactionCoordinator) (producerId : Int) (producer : ProducerState) :
    TransactionCoordinator :=
  let state := c.shards (producerShard producerId)
  c.setShard (producerShard producerId)
    { state with producers := state.producers.insert producerId producer }

/-- The next write of the script. -/
def nextOutcome : CoordinatorM Outcome :=
  fun c => (.ok (c.script c.clock), { c with clock := c.clock + 1 })

/-- A file is replaced by renaming; the directory is synced afterwards, so the
    error may come after the effect. -/
def persistFile (write : TransactionCoordinator → TransactionCoordinator) : CoordinatorM Unit := do
  let outcome ← nextOutcome
  require (outcome ≠ .refused) .io
  modify write
  require (outcome = .done) .io

def persistMetadata : CoordinatorM Unit :=
  persistFile fun c => { c with metadataFile := c.metadata }

/-- Write one shard; a write may fail. -/
def persistShard (shard : Fin transactionShards) : CoordinatorM Unit :=
  persistFile fun c =>
    { c with shardFiles := Function.update c.shardFiles shard (c.shards shard) }

/-- The shard is written later, by `flushDirty`. -/
def markDirty (shard : Fin transactionShards) : CoordinatorM Unit :=
  modify fun c => { c with dirty := Function.update c.dirty shard true }

/-- The producer with the given identity; another epoch is fenced. -/
def producerMut (identity : ProducerIdentity) : CoordinatorM ProducerState := do
  let c ← get
  let producer ← expect (c.producer identity.producerId) .unknownProducer
  require (producer.epoch = identity.producerEpoch) .fencedProducer
  pure producer

def putProducer (producerId : Int) (producer : ProducerState) : CoordinatorM Unit :=
  modify fun c => c.setProducer producerId producer

/-- The producer that a call to `initProducer` is about. -/
def producerIdFor (c : TransactionCoordinator) (transactionalId : Option String) : Int :=
  (transactionalId.bind fun id => c.metadata.transactionalIds[id]?).getD
    (saturatingAddSigned (2 ^ 63 - 1) c.metadata.nextProducerId 1)

/-- The record of a producer that has just been initialised. -/
def newProducer (transactionalId : Option String) (epoch : Int) (timeoutMs nowMs : Nat) :
    ProducerState where
  transactionalId := transactionalId
  epoch := epoch
  timeoutMs := timeoutMs
  deadlineMs := min (nowMs + timeoutMs) (2 ^ 64 - 1)
  status := .ready
  partitions := ∅
  sequences := ∅
  pendingOffsets := []
  offsetsApplied := false

/-- The epoch a call to `initProducer` hands out. -/
def epochFor (c : TransactionCoordinator) (producerId : Int) : Int :=
  (c.producer producerId).elim 0 fun producer =>
    saturatingAddSigned (2 ^ 15 - 1) producer.epoch 1

/-- The metadata after a call to `initProducer`. -/
def metadataFor (c : TransactionCoordinator) (transactionalId : Option String) :
    CoordinatorMetadata where
  nextProducerId :=
    if (transactionalId.bind fun id => c.metadata.transactionalIds[id]?).isSome then
      c.metadata.nextProducerId
    else c.producerIdFor transactionalId
  transactionalIds := transactionalId.elim c.metadata.transactionalIds fun id =>
    c.metadata.transactionalIds.insert id (c.producerIdFor transactionalId)

/-- A known transactional id keeps its producer, whose record is replaced. -/
def initProducer (transactionalId : Option String) (timeoutMs nowMs : Nat) :
    CoordinatorM ProducerIdentity := do
  let c ← get
  let producerId := c.producerIdFor transactionalId
  let epoch := c.epochFor producerId
  putProducer producerId (newProducer transactionalId epoch timeoutMs nowMs)
  modify fun c' => { c' with metadata := c.metadataFor transactionalId }
  persistMetadata
  persistShard (producerShard producerId)
  pure ⟨producerId, epoch⟩

/-- Begin or extend a transaction. The deadline starts anew. -/
def addPartitions (identity : ProducerIdentity) (partitions : List TransactionPartition)
    (nowMs : Nat) : CoordinatorM Unit := do
  let producer ← producerMut identity
  require (producer.transactionalId.isSome = true) .notTransactional
  putProducer identity.producerId
    { producer with
      partitions := partitions.foldl (fun set partition => set.insert partition) producer.partitions
      status := .ongoing
      deadlineMs := min (nowMs + producer.timeoutMs) (2 ^ 64 - 1) }
  persistShard (producerShard identity.producerId)

/-- The entry of the partition is created before the batch is looked at. -/
def prepareAppend (partition : TransactionPartition) (identity : RecordBatchIdentity) :
    CoordinatorM AppendDecision := do
  if identity.producerId < 0 then pure .nonIdempotent
  else
    require (identity.control = false ∧ identity.recordCount ≠ 0 ∧ 0 ≤ identity.baseSequence)
      .invalidRecordBatch
    let producer ← producerMut identity.producer
    require (identity.transactional = true →
        producer.status = .ongoing ∧ partition ∈ producer.partitions)
      .invalidTransactionState
    let sequence := producer.sequence partition
    putProducer identity.producerId (producer.setSequence partition sequence)
    if identity.baseSequence = sequence.lastBaseSequence ∧
        identity.recordCount = sequence.lastRecordCount then
      pure (.duplicate sequence.lastBaseOffset)
    else
      require (identity.baseSequence = sequence.nextSequence ∧ sequence.pending = none)
        .outOfOrderSequence
      putProducer identity.producerId <| producer.setSequence partition
        { sequence with pending := some (identity.baseSequence, identity.recordCount) }
      markDirty (producerShard identity.producerId)
      pure .append

/-- The batch is in the log: its sequence counts now. -/
def completeAppend (partition : TransactionPartition) (identity : RecordBatchIdentity)
    (baseOffset lastOffset : Nat) : CoordinatorM Unit := do
  if identity.producerId < 0 then pure ()
  else
    let producer ← producerMut identity.producer
    let sequence ← expect producer.sequences[partition]? .outOfOrderSequence
    require (sequence.pending = some (identity.baseSequence, identity.recordCount))
      .outOfOrderSequence
    let advanced := sequence.advance identity baseOffset lastOffset
    -- Whether the transaction is still going on is not looked at.
    putProducer identity.producerId <| producer.setSequence partition
      (if identity.transactional then advanced.beginAt baseOffset else advanced)
    markDirty (producerShard identity.producerId)

/-- The batch is not in the log: its sequence is free again. -/
def cancelAppend (partition : TransactionPartition) (identity : RecordBatchIdentity) :
    CoordinatorM Unit := do
  if identity.producerId < 0 then pure ()
  else
    let producer ← producerMut identity.producer
    match producer.sequences[partition]? with
    | none => pure ()
    | some sequence =>
      if sequence.pending = some (identity.baseSequence, identity.recordCount) then do
        putProducer identity.producerId
          (producer.setSequence partition { sequence with pending := none })
        markDirty (producerShard identity.producerId)
      else pure ()

/-- Offsets wait for the end of the transaction. -/
def stageOffsets (identity : ProducerIdentity) (offsets : List PendingOffset) :
    CoordinatorM Unit := do
  let producer ← producerMut identity
  require (producer.status = .ongoing) .invalidTransactionState
  putProducer identity.producerId
    { producer with pendingOffsets := offsets, offsetsApplied := false }
  persistShard (producerShard identity.producerId)

/-- What an abort of the producer records: for each partition the transaction
    has written to, from its first offset to the producer's last one. -/
def abortRanges (producerId : Int) (producer : ProducerState) :
    List (TransactionPartition × AbortedRange) :=
  producer.sequences.toList.filterMap fun (partition, sequence) =>
    sequence.firstTransactionOffset.map fun first =>
      (partition, ⟨producerId, first, sequence.lastOffset⟩)

/-- The producer's record after a transaction has ended. -/
def endedProducer (producer : ProducerState) (commit : Bool) : ProducerState :=
  { producer with
    status := if commit then .committed else .aborted
    sequences := producer.sequences.map fun _ sequence =>
      { sequence with firstTransactionOffset := none }
    pendingOffsets := if commit then producer.pendingOffsets else []
    offsetsApplied := if commit then producer.offsetsApplied else true }

def pushRange (aborted : BTreeMap TransactionPartition (List AbortedRange))
    (range : TransactionPartition × AbortedRange) :
    BTreeMap TransactionPartition (List AbortedRange) :=
  aborted.insert range.1 (aborted[range.1]?.getD [] ++ [range.2])

/-- Aborted ranges are kept in the shard of their producer. -/
def pushRanges (c : TransactionCoordinator) (producerId : Int)
    (ranges : List (TransactionPartition × AbortedRange)) : TransactionCoordinator :=
  let state := c.shards (producerShard producerId)
  c.setShard (producerShard producerId)
    { state with aborted := ranges.foldl pushRange state.aborted }

/-- Ending a transaction that has already ended the same way changes nothing. -/
def endTransaction (identity : ProducerIdentity) (commit : Bool) :
    CoordinatorM (List PendingOffset) := do
  let producer ← producerMut identity
  if producer.status = (if commit then .committed else .aborted) then
    pure (if commit ∧ producer.offsetsApplied = false then producer.pendingOffsets else [])
  else
    require (producer.status = .ongoing) .invalidTransactionState
    putProducer identity.producerId (endedProducer producer commit)
    modify fun c => c.pushRanges identity.producerId
      (if commit then [] else abortRanges identity.producerId producer)
    persistShard (producerShard identity.producerId)
    pure (if commit then producer.pendingOffsets else [])

/-- The group has taken the offsets. -/
def markOffsetsApplied (identity : ProducerIdentity) : CoordinatorM Unit := do
  let producer ← producerMut identity
  require (producer.status = .committed) .invalidTransactionState
  putProducer identity.producerId { producer with offsetsApplied := true, pendingOffsets := [] }
  persistShard (producerShard identity.producerId)

/-- The transactions past their deadline, shard by shard. -/
def overdue (c : TransactionCoordinator) (nowMs : Nat) : List ProducerIdentity :=
  (List.finRange transactionShards).flatMap fun shard =>
    ((c.shards shard).producers.toList.filter fun (_, producer) =>
      decide (producer.status = .ongoing ∧ producer.deadlineMs ≤ nowMs)).map
        fun (producerId, producer) => ⟨producerId, producer.epoch⟩

/-- Overdue transactions are collected first and aborted afterwards. -/
def expire (nowMs : Nat) : CoordinatorM Nat := do
  let c ← get
  ForM.forM (c.overdue nowMs) fun identity => do
    let _ ← endTransaction identity false
    pure ()
  pure (c.overdue nowMs).length

/-- The offsets of committed transactions that have not been applied, by producer. -/
def pendingCommittedOffsets (c : TransactionCoordinator) :
    List (ProducerIdentity × List PendingOffset) :=
  ((List.finRange transactionShards).flatMap fun shard =>
    ((c.shards shard).producers.toList.filter fun (_, producer) =>
      decide (producer.status = .committed ∧ producer.offsetsApplied = false ∧
        producer.pendingOffsets ≠ [])).map fun (producerId, producer) =>
          ((⟨producerId, producer.epoch⟩ : ProducerIdentity),
          producer.pendingOffsets)).insertionSort
            fun a b => a.1.producerId ≤ b.1.producerId

/-- Write the snapshots of those of the given shards that have changed since, and
    count them. -/
def flushShards : List (Fin transactionShards) → Nat → CoordinatorM Nat
  | [], flushed => pure flushed
  | shard :: rest, flushed => do
      let c ← get
      if c.dirty shard then
        modify fun c => { c with dirty := Function.update c.dirty shard false }
        let outcome ← attempt (persistShard shard)
        match outcome with
        | .ok _ => flushShards rest (flushed + 1)
        | .error e =>
          markDirty shard
          fail e
      else flushShards rest flushed

/-- Write the shards that have changed. -/
def flushDirty : CoordinatorM Nat :=
  flushShards (List.finRange transactionShards) 0

end TransactionCoordinator

/-- A logged batch with the offsets it has. -/
structure LoggedBatch where
  identity : RecordBatchIdentity
  baseOffset : Nat
  lastOffset : Nat
deriving DecidableEq, Repr

/-- Re-apply a logged batch. Which transaction it belonged to is not known; the
    producer's current status decides. -/
def SequenceState.replay (sequence : SequenceState) (status : TransactionStatus)
    (batch : LoggedBatch) : SequenceState :=
  if sequence.lastBaseSequence ≤ batch.identity.baseSequence then
    let advanced := sequence.advance batch.identity batch.baseOffset batch.lastOffset
    if batch.identity.transactional = true ∧ status = .ongoing then
      advanced.beginAt batch.baseOffset
    else advanced
  else sequence

def ProducerState.clearPending (producer : ProducerState) (partition : TransactionPartition) :
    ProducerState :=
  { producer with
    sequences := producer.sequences.modify partition fun sequence =>
      { sequence with pending := none } }

namespace TransactionState

/-- All pending markers of a partition are cleared. -/
def clearPending (state : TransactionState) (partition : TransactionPartition) :
    TransactionState :=
  { state with producers := state.producers.map fun _ producer => producer.clearPending partition }

def hasPending (state : TransactionState) (partition : TransactionPartition) : Bool :=
  state.producers.values.any fun producer =>
    (producer.sequences[partition]?.bind (·.pending)).isSome

/-- The producer in the shard that a logged batch is replayed to. -/
def replayTarget (state : TransactionState) (shard : Fin transactionShards)
    (batch : LoggedBatch) : Option ProducerState :=
  if batch.identity.producerId < 0 ∨ producerShard batch.identity.producerId ≠ shard then none
  else
    state.producers[batch.identity.producerId]?.filter fun producer =>
      producer.epoch = batch.identity.producerEpoch

/-- Re-apply a batch; the flag says whether a sequence state was written. The
    entry of the partition is created in any case. -/
def replay (partition : TransactionPartition) (shard : Fin transactionShards)
    (acc : TransactionState × Bool) (batch : LoggedBatch) : TransactionState × Bool :=
  match acc.1.replayTarget shard batch with
  | none => acc
  | some producer =>
    let sequence := producer.sequence partition
    ({ acc.1 with
        producers := acc.1.producers.insert batch.identity.producerId
          (producer.setSequence partition (sequence.replay producer.status batch)) },
      acc.2 || decide (sequence.lastBaseSequence ≤ batch.identity.baseSequence))

/-- A shard after recovery from the batches of one partition, and whether it
    differs. -/
def recovered (state : TransactionState) (partition : TransactionPartition)
    (batches : List LoggedBatch) (shard : Fin transactionShards) : TransactionState × Bool :=
  batches.foldl (replay partition shard) (state.clearPending partition, state.hasPending partition)

end TransactionState

namespace TransactionCoordinator

/-- Rebuild the sequence states of a partition from the batches in its log. -/
def recoverPartition (partition : TransactionPartition) (batches : List LoggedBatch) :
    CoordinatorM Unit :=
  ForM.forM (List.finRange transactionShards) fun shard => do
    let c ← get
    let recovered := (c.shards shard).recovered partition batches shard
    modify fun c => c.setShard shard recovered.1
    if recovered.2 then persistShard shard else pure ()

end TransactionCoordinator

/-- One call on the coordinator with its arguments. -/
inductive CoordinatorOp where
  | initProducer (transactionalId : Option String) (timeoutMs nowMs : Nat)
  | addPartitions (identity : ProducerIdentity) (partitions : List TransactionPartition)
      (nowMs : Nat)
  | prepareAppend (partition : TransactionPartition) (identity : RecordBatchIdentity)
  | completeAppend (partition : TransactionPartition) (identity : RecordBatchIdentity)
      (baseOffset lastOffset : Nat)
  | cancelAppend (partition : TransactionPartition) (identity : RecordBatchIdentity)
  | stageOffsets (identity : ProducerIdentity) (offsets : List PendingOffset)
  | endTransaction (identity : ProducerIdentity) (commit : Bool)
  | markOffsetsApplied (identity : ProducerIdentity)
  | expire (nowMs : Nat)
  | flushDirty
deriving DecidableEq, Repr

/-- The state a call leaves behind, whether it succeeds or fails. -/
def TransactionCoordinator.step (c : TransactionCoordinator) :
    CoordinatorOp → TransactionCoordinator
  | .initProducer transactionalId timeoutMs nowMs =>
    (initProducer transactionalId timeoutMs nowMs c).2
  | .addPartitions identity partitions nowMs => (addPartitions identity partitions nowMs c).2
  | .prepareAppend partition identity => (prepareAppend partition identity c).2
  | .completeAppend partition identity baseOffset lastOffset =>
    (completeAppend partition identity baseOffset lastOffset c).2
  | .cancelAppend partition identity => (cancelAppend partition identity c).2
  | .stageOffsets identity offsets => (stageOffsets identity offsets c).2
  | .endTransaction identity commit => (endTransaction identity commit c).2
  | .markOffsetsApplied identity => (markOffsetsApplied identity c).2
  | .expire nowMs => (expire nowMs c).2
  | .flushDirty => (flushDirty c).2

end Kafka

end Pepper
