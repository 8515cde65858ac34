import Pepper.Base.Runs
import Pepper.Core.OrderedLog

/-!
# Replicated Partitions

A partition over several logs, as `ReplicatedPartition` of
`pepper-ordered-log` runs it: the leader appends and copies each batch to its
in-sync followers, elections pick the longest voter as the source of the
committed part, and replicas join by catching up with the leader.

The state of a partition contains its replicas' logs by value. In the source
they are shared references; no log is used under two node identifiers.

## Main definitions

* `ReplicatedPartition`, `new`, `append`, `elect`, `catchUp`, `setOnline`,
  `addReplica`, `removeReplica`, `recoverReplica`, `reconfigure`: The source's
  operations.
* `Op`, `step`: One call with its arguments, and the state it leaves.
-/

namespace Pepper

namespace Log

open Fallible

/-- What a producer waits for. -/
inductive Acknowledgments where
  | none
  | leader
  | all
deriving DecidableEq, Repr

/-- The logs of a partition and who leads. -/
structure ReplicatedPartition where
  replicas : BTreeMap Nat OrderedLog
  assignment : BTreeSet Nat
  isr : BTreeSet Nat
  online : BTreeSet Nat
  leader : Nat
  epoch : Nat
  controllerEpoch : Nat
  minimumIsr : Nat
  highWatermark : Nat

/-- Calls on a partition. -/
abbrev PartitionM (α : Type) := Fallible ReplicatedPartition LogError α

/-- Run a call on one replica's log. -/
def onReplica {α : Type} (node : Nat) (x : LogM α) : PartitionM α :=
  within (fun p => p.replicas[node]?)
    (fun p log => { p with replicas := p.replicas.insert node log }) (.unknownReplica node) x

/-- The end of a replica's log. -/
def logEnd (node : Nat) : PartitionM Nat := do
  let p ← get
  let log ← expect p.replicas[node]? (.unknownReplica node)
  pure log.nextOffset

structure ReplicatedAppend where
  result : AppendResult
  durableReplicas : BTreeSet Nat
  acknowledged : Bool

namespace ReplicatedPartition

/-- Every replica promises the epoch in the order of the nodes and the leader is
    activated; its watermark is the partition's. -/
def setUp (nodes : List Nat) (leader epoch controllerEpoch : Nat) : PartitionM Nat := do
  ForM.forM nodes fun node => onReplica node (promiseEpoch controllerEpoch epoch)
  onReplica leader (activateLeader controllerEpoch epoch)
  let p ← get
  let log ← expect p.replicas[leader]? (.unknownReplica leader)
  pure log.highWatermark

/-- All replicas join the epoch of the leader. -/
def new (replicas : BTreeMap Nat OrderedLog) (leader epoch controllerEpoch minimumIsr : Nat) :
    Except LogError ReplicatedPartition :=
  if replicas.isEmpty ∨ leader ∉ replicas ∨ minimumIsr = 0 ∨ replicas.size < minimumIsr then
    .error .invalidReplicaSet
  else
    let assignment : BTreeSet Nat := .ofList replicas.keys
    match setUp replicas.keys leader epoch controllerEpoch
      ⟨replicas, assignment, assignment, assignment, leader, epoch, controllerEpoch, minimumIsr,
        0⟩ with
    | (.error e, _) => .error e
    | (.ok highWatermark, p) => .ok { p with highWatermark }

/-- Copy the appended batch to the followers one after the other; a follower
    that refuses is left out. -/
def replicateTo (epoch baseOffset timestampMs recordCount : Nat) (payload : List UInt8) :
    List Nat → BTreeSet Nat → PartitionM (BTreeSet Nat)
  | [], durable => pure durable
  | follower :: rest, durable => do
      let p ← get
      let _ ← expect p.replicas[follower]? (.unknownReplica follower)
      let outcome ← attempt <| onReplica follower <|
        replicate epoch baseOffset timestampMs recordCount payload
      match outcome with
      | .ok _ =>
        replicateTo epoch baseOffset timestampMs recordCount payload rest
          (durable.insert follower)
      | .error _ => replicateTo epoch baseOffset timestampMs recordCount payload rest durable

/-- The in-sync followers that are online. -/
def followers (p : ReplicatedPartition) : List Nat :=
  p.isr.toList.filter fun node => node ≠ p.leader ∧ node ∈ p.online

/-- Commit the batch on every replica that has it, and then in the partition. -/
def commitOn (epoch highWatermark : Nat) (durable : BTreeSet Nat) : PartitionM Unit := do
  ForM.forM durable.toList fun node => onReplica node (commit epoch highWatermark)
  modify fun p => { p with highWatermark }

/-- Write to the leader and the followers, then commit. -/
def append (claimedLeader claimedEpoch timestampMs recordCount : Nat) (payload : List UInt8)
    (acknowledgments : Acknowledgments) : PartitionM ReplicatedAppend := do
  let p ← get
  require (claimedLeader = p.leader ∧ claimedEpoch = p.epoch) .staleLeader
  require (p.leader ∈ p.online) (.replicaOffline p.leader)
  let result ← onReplica p.leader (Log.append p.epoch timestampMs recordCount payload)
  let durable ← replicateTo p.epoch result.baseOffset timestampMs recordCount payload p.followers
    (.ofList [p.leader])
  let commitEligible := decide (p.minimumIsr ≤ durable.size)
  let highWatermark := wrappingSucc result.lastOffset
  if commitEligible then commitOn p.epoch highWatermark durable else pure ()
  let acknowledged :=
    match acknowledgments with
    | .none => true
    | .leader => true
    | .all => commitEligible && p.isr.toList.all fun node => node ∈ durable
  pure ⟨{ result with
      highWatermark := if commitEligible then highWatermark else result.highWatermark },
    durable, acknowledged⟩

/-- Copy fetched batches into the target, each under the epoch it was written
    in. -/
def copyBatches (target epoch : Nat) : List FetchedBatch → PartitionM Unit
  | [] => pure ()
  | batch :: rest => do
      let count := batch.lastOffset - batch.baseOffset + 1
      require (count < 2 ^ 32) .offsetOverflow
      let _ ← onReplica target <|
        replicateWithIdentity epoch batch.leaderEpoch batch.baseOffset batch.timestampMs count
          batch.bytes
      copyBatches target epoch rest

/-- Bring the target up to an offset from the source's log. Only log ends are
    compared. -/
def catchUp (source target through epoch : Nat) : PartitionM Unit := do
  let targetEnd ← logEnd target
  if source = target then
    require (through ≤ targetEnd) .missingCommittedPrefix
  else
    require (targetEnd ≤ through) .divergentReplica
    let fetched ← onReplica source (fetch targetEnd (offsetLimit - 1) false)
    copyBatches target epoch (fetched.batches.filter fun batch => batch.lastOffset < through)
    onReplica target (commit epoch through)

/-- The log end an election compares; zero for a node without a log. -/
def electionEnd (p : ReplicatedPartition) (node : Nat) : Nat :=
  p.replicas[node]?.elim 0 (·.nextOffset)

/-- The voter with the greatest log end, the last one among equals. -/
def electionSource (p : ReplicatedPartition) (voters : BTreeSet Nat) : Option Nat :=
  maxByKey p.electionEnd voters.toList

/-- The epochs advance, and the voters are a majority of assigned replicas that
    are online and include the candidate. -/
def quorumFor (p : ReplicatedPartition) (candidate newEpoch newControllerEpoch : Nat)
    (voters : BTreeSet Nat) : Bool :=
  decide (p.epoch < newEpoch) && decide (p.controllerEpoch ≤ newControllerEpoch) &&
    decide (p.assignment.size / 2 + 1 ≤ voters.size) && decide (candidate ∈ voters) &&
    voters.toList.all fun node => node ∈ p.assignment ∧ node ∈ p.online

/-- The candidate catches up with the longest log of the voters. -/
def elect (candidate newEpoch newControllerEpoch : Nat) (voters : BTreeSet Nat) :
    PartitionM Unit := do
  let p ← get
  require (p.quorumFor candidate newEpoch newControllerEpoch voters = true) .noQuorum
  ForM.forM voters.toList fun node => onReplica node (promiseEpoch newControllerEpoch newEpoch)
  let promised ← get
  let source ← expect (promised.electionSource voters) .noQuorum
  catchUp source candidate p.highWatermark newEpoch
  onReplica candidate (activateLeader newControllerEpoch newEpoch)
  modify fun p => { p with
    leader := candidate, epoch := newEpoch, controllerEpoch := newControllerEpoch, isr := voters }

/-- A replica goes or comes back, without catching up. -/
def setOnline (node : Nat) (online : Bool) : PartitionM Unit := do
  let p ← get
  require (node ∈ p.assignment) (.unknownReplica node)
  modify fun p =>
    { p with online := if online then p.online.insert node else p.online.erase node }

/-- The promise of a joining replica is raised only when it is behind. -/
def promiseJoining (replica : OrderedLog) (controllerEpoch epoch : Nat) :
    Except LogError Unit × OrderedLog :=
  if replica.promisedEpoch < epoch then promiseEpoch controllerEpoch epoch replica
  else if epoch < replica.promisedEpoch then (.error .staleLeader, replica)
  else (.ok (), replica)

def addReplica (node : Nat) (replica : OrderedLog) : PartitionM Unit := do
  let p ← get
  require (node ∉ p.replicas) (.replicaAlreadyExists node)
  match promiseJoining replica p.controllerEpoch p.epoch with
  | (.error e, _) => fail e
  | (.ok (), replica') =>
    modify fun p => { p with
      replicas := p.replicas.insert node replica'
      assignment := p.assignment.insert node
      online := p.online.insert node }
    catchUp p.leader node p.highWatermark p.epoch
    modify fun p => { p with isr := p.isr.insert node }

def removeReplica (node : Nat) : PartitionM Unit := do
  let p ← get
  require (node ≠ p.leader ∧ node ∈ p.assignment ∧
      p.minimumIsr ≤ p.isr.size - (if node ∈ p.isr then 1 else 0))
    (.unsafeAssignmentChange node)
  modify fun p => { p with
    isr := p.isr.erase node, assignment := p.assignment.erase node,
    online := p.online.erase node }

def recoverReplica (node : Nat) : PartitionM Unit := do
  let p ← get
  require (node ∈ p.assignment) (.unknownReplica node)
  modify fun p => { p with online := p.online.insert node }
  catchUp p.leader node p.highWatermark p.epoch
  modify fun p => { p with isr := p.isr.insert node }

/-- Move to another set of replicas. -/
def reconfigure (assignment : BTreeSet Nat) (newEpoch newControllerEpoch : Nat) :
    PartitionM Unit := do
  let p ← get
  require (p.minimumIsr ≤ assignment.size ∧ p.leader ∈ assignment ∧
      assignment.toList.all (fun node => p.replicas.contains node) = true ∧
      p.epoch < newEpoch ∧ p.controllerEpoch < newControllerEpoch)
    .unsafeAssignment
  ForM.forM (assignment.toList.filter fun node => node ∉ p.assignment) fun node => do
    modify fun p => { p with online := p.online.insert node }
    catchUp p.leader node p.highWatermark p.epoch
  ForM.forM assignment.toList fun node => onReplica node (promiseEpoch newControllerEpoch newEpoch)
  onReplica p.leader (activateLeader newControllerEpoch newEpoch)
  modify fun p =>
    let online := p.online.filter fun node => node ∈ assignment
    { p with
      assignment, online, isr := assignment.filter fun node => node ∈ online,
      epoch := newEpoch, controllerEpoch := newControllerEpoch }

end ReplicatedPartition

/-- One call on a partition with its arguments. -/
inductive Op where
  | append (claimedLeader claimedEpoch timestampMs recordCount : Nat) (payload : List UInt8)
      (acknowledgments : Acknowledgments)
  | elect (candidate newEpoch newControllerEpoch : Nat) (voters : BTreeSet Nat)
  | setOnline (node : Nat) (online : Bool)
  | addReplica (node : Nat) (replica : OrderedLog)
  | removeReplica (node : Nat)
  | recoverReplica (node : Nat)
  | reconfigure (assignment : BTreeSet Nat) (newEpoch newControllerEpoch : Nat)

/-- The state a call leaves behind, whether it succeeds or fails. -/
def step (p : ReplicatedPartition) : Op → ReplicatedPartition
  | .append claimedLeader claimedEpoch timestampMs recordCount payload acknowledgments =>
    (ReplicatedPartition.append claimedLeader claimedEpoch timestampMs recordCount payload
      acknowledgments p).2
  | .elect candidate newEpoch newControllerEpoch voters =>
    (ReplicatedPartition.elect candidate newEpoch newControllerEpoch voters p).2
  | .setOnline node online => (ReplicatedPartition.setOnline node online p).2
  | .addReplica node replica => (ReplicatedPartition.addReplica node replica p).2
  | .removeReplica node => (ReplicatedPartition.removeReplica node p).2
  | .recoverReplica node => (ReplicatedPartition.recoverReplica node p).2
  | .reconfigure assignment newEpoch newControllerEpoch =>
    (ReplicatedPartition.reconfigure assignment newEpoch newControllerEpoch p).2

end Log

end Pepper
