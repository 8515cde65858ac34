import Pepper.Core.Replication
import Pepper.Core.Transactions

/-!
# Producing to a Partition

`KafkaCluster::produce` on one partition: the part that runs under the
partition's replication lock, from the lookup of the leader's log end to the
completed append.

A record set enters as what the protocol layer has validated of it: its span of
offsets, the identities of its batches, and the bytes it has once offsets are
assigned. The validator lets no batch through that counts more records than
offsets, which is a field of the record set.

## Main definitions

* `RecordSet`, `Request`: What a producer sends.
* `Partition`: The partition's runtime together with the coordinator.
* `accept`, `appendAccepted`, `produce`: The call, in the two halves between which
  the overlapped checkpoint is spawned.
* `setReplicaOnline`: A replica leaves or comes back.
-/

namespace Pepper

namespace Kafka

open Fallible Log

/-- A validated record set. -/
structure RecordSet where
  offsetSpan : Nat
  identities : List RecordBatchIdentity
  /-- The bytes with base offset and leader epoch filled in. -/
  assigned : Nat → Nat → List UInt8
  counted : ∀ identity ∈ identities, identity.recordCount ≤ offsetSpan

/-- A produce request. -/
structure Request where
  brokerId : Nat
  timestampMs : Nat
  records : RecordSet
  acknowledgments : Acknowledgments

/-- The controller's record of a partition. -/
structure PartitionRecord where
  leaderId : Nat
  leaderEpoch : Nat
  assignmentEpoch : Nat
  replicas : List Nat
  minimumInSyncReplicas : Nat
deriving DecidableEq, Repr

/-- The errors of a partition. -/
inductive KafkaError where
  | invalidRequest (message : String)
  | notLeader (leaderId leaderEpoch : Nat)
  | unknownPartition
  | offsetOverflow
  | orderedLog (error : LogError)
  | transaction (error : TransactionError)
  | io
deriving DecidableEq, Repr

/-- A partition at runtime, with the coordinator of its cluster. -/
structure Partition where
  name : TransactionPartition
  descriptor : PartitionRecord
  replication : ReplicatedPartition
  coordinator : TransactionCoordinator

abbrev KafkaM (α : Type) := Fallible Partition KafkaError α

def onCoordinator {α : Type} (x : CoordinatorM α) : KafkaM α :=
  zoom (fun p => p.coordinator) (fun p coordinator => { p with coordinator }) .transaction x

def onReplication {α : Type} (x : PartitionM α) : KafkaM α :=
  zoom (fun p => p.replication) (fun p replication => { p with replication }) .orderedLog x

namespace Partition

/-- The log of the broker that leads. -/
def leaderLog (p : Partition) : Option OrderedLog :=
  p.replication.replicas[p.descriptor.leaderId]?

/-- The answer to a batch that the coordinator knows already: nothing is
    appended, and it counts as acknowledged. -/
def duplicateAnswer (p : Partition) (log : OrderedLog) (identity : RecordBatchIdentity)
    (baseOffset : Nat) : ReplicatedAppend where
  result :=
    { baseOffset
      lastOffset := saturatingAdd baseOffset identity.recordCount - 1
      leaderEpoch := p.descriptor.leaderEpoch
      highWatermark := log.highWatermark }
  durableReplicas := ∅
  acknowledged := true

/-- The outcome of the first half of a call. -/
inductive Acceptance where
  | duplicate (answer : ReplicatedAppend)
  | proceed (baseOffset : Nat) (identity : Option RecordBatchIdentity)

/-- The batch of the set that belongs to an idempotent producer. -/
def idempotentIdentity (records : RecordSet) : Option RecordBatchIdentity :=
  records.identities.find? fun identity => 0 ≤ identity.producerId

/-- Check the request and register the batch with the coordinator. -/
def accept (request : Request) : KafkaM Acceptance := do
  require (request.records.offsetSpan ≠ 0 ∧ request.records.offsetSpan < 2 ^ 32)
    (.invalidRequest "empty or oversized record set")
  let p ← get
  require (p.descriptor.leaderId = request.brokerId)
    (.notLeader p.descriptor.leaderId p.descriptor.leaderEpoch)
  let log ← expect p.leaderLog .unknownPartition
  require (log.nextOffset < 2 ^ 63) .offsetOverflow
  let identity? := idempotentIdentity request.records
  require (identity?.isSome = true → request.records.identities.length = 1)
    (.invalidRequest "idempotent requests must contain one record batch")
  match identity? with
  | none => pure (.proceed log.nextOffset none)
  | some identity => do
      let decision ← onCoordinator (TransactionCoordinator.prepareAppend p.name identity)
      match decision with
      | .duplicate baseOffset => pure (.duplicate (p.duplicateAnswer log identity baseOffset))
      -- The other answer is for batches without a producer.
      | _ => pure (.proceed log.nextOffset (some identity))

/-- Append an accepted record set and tell the coordinator how that went. -/
def appendAccepted (request : Request) (baseOffset : Nat)
    (identity? : Option RecordBatchIdentity) : KafkaM ReplicatedAppend := do
  let p ← get
  let outcome ← attempt <| onReplication <| ReplicatedPartition.append p.descriptor.leaderId
    p.descriptor.leaderEpoch request.timestampMs request.records.offsetSpan
    (request.records.assigned baseOffset p.descriptor.leaderEpoch) request.acknowledgments
  match outcome with
  | .error e => do
      match identity? with
      | none => pure ()
      | some identity => onCoordinator (TransactionCoordinator.cancelAppend p.name identity)
      fail e
  | .ok appended => do
      match identity? with
      | none => pure ()
      | some identity =>
        onCoordinator <| TransactionCoordinator.completeAppend p.name identity
          appended.result.baseOffset appended.result.lastOffset
      pure appended

/-- The call under the replication lock. Checkpoint and retention come after the
    lock is released; they can turn the answer into an error and nothing else. -/
def produce (request : Request) : KafkaM ReplicatedAppend := do
  let acceptance ← accept request
  match acceptance with
  | .duplicate answer => pure answer
  | .proceed baseOffset identity? => appendAccepted request baseOffset identity?

def setReplicaOnline (brokerId : Nat) (online : Bool) : KafkaM Unit :=
  onReplication <|
    if online then ReplicatedPartition.recoverReplica brokerId
    else ReplicatedPartition.setOnline brokerId false

end Partition

end Kafka

end Pepper
