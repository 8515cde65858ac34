import Pepper.Core.Produce
import Pepper.Core.Recovery

/-!
# Overlapped Checkpoints

The runtime of a partition with one replica. Its produce calls write the
checkpoint record while the append is still running: the watermark after the
append is predicted when the call holds the replication lock, a task that
persists it is spawned, and the call is answered when both are through.

A call is therefore a small state machine. Its steps are the ones between which
other calls can run: `start` up to the spawn, `append` up to the release of the
replication lock, `lock` and `write` for the two parts of the task that are
separated by input and output, and `answer`. The append writes to the extents
and the task to the checkpoint record, so a crash inside one of them is a script
that refuses everything from there on.

Retention, which runs before the answer when the topic asks for it, is not part
of the model, and neither are partitions with several replicas, which write
their checkpoint after the append.

## Main definitions

* `PartitionCheckpoint`: The record that survives next to the extents.
* `Call`, `Runtime`: Calls under way, and the state they share.
* `RuntimeOp`, `step`: The steps of calls and tasks.
* `openReplica`, `openPartition`: Coming back after a crash.
-/

namespace Pepper

namespace Kafka

open Fallible Log ExtentStore

/-- The marks that are written beside the log. -/
structure PartitionCheckpoint where
  highWatermark : Nat
  logStartOffset : Nat
  safeFloor : Nat
deriving DecidableEq, Repr

/-- How far the append of a call has come. -/
inductive AppendStage where
  | holding
  | failed
  | stored (answer : ReplicatedAppend)

/-- How far the checkpoint task of a call has come. -/
inductive TaskStage where
  | spawned
  | finished
  | failed
deriving DecidableEq, Repr

/-- A produce call after its task has been spawned, with what the task captured. -/
structure Call where
  request : Request
  baseOffset : Nat
  identity? : Option RecordBatchIdentity
  logStartOffset : Nat
  append : AppendStage
  task : TaskStage

/-- The watermark after the append, known before the append runs. -/
def Call.predictedEnd (c : Call) : Nat :=
  saturatingAdd c.baseOffset c.request.records.offsetSpan

/-- The record a task writes. The floor is where its own call appends. -/
def Call.checkpoint (call : Call) (target : Nat) : PartitionCheckpoint :=
  ⟨target, call.logStartOffset, call.baseOffset⟩

/-- A partition, its calls and the checkpoint file. -/
structure Runtime where
  partition : Partition
  /-- The record on disk. -/
  checkpoint : PartitionCheckpoint
  requested : Nat
  persisted : Nat
  calls : BTreeMap Nat Call
  /-- The call that has the replication lock. -/
  holder : Option Nat
  /-- The call whose task has the checkpoint lock, with the watermark it is
      about to write. -/
  writer : Option (Nat × Nat)
  /-- The calls that have returned, in the order of their return. -/
  answered : List (Request × ReplicatedAppend)

/-- The steps of calls and of their tasks. -/
inductive RuntimeOp where
  | start (id : Nat) (request : Request)
  | append
  | lock (id : Nat)
  | write (outcome : Outcome)
  | answer (id : Nat)
  | coordinate (op : CoordinatorOp)

namespace Runtime

/-- A call up to the spawn of its task. A duplicate is answered at once. -/
def start (s : Runtime) (id : Nat) (request : Request) : Runtime :=
  if s.holder.isSome ∨ id ∈ s.calls then s
  else
    match Partition.accept request s.partition with
    | (.error _, partition) => { s with partition }
    | (.ok (.duplicate answer), partition) =>
      { s with partition, answered := s.answered ++ [(request, answer)] }
    | (.ok (.proceed baseOffset identity?), partition) =>
      let call : Call :=
        ⟨request, baseOffset, identity?, partition.leaderLog.elim 0 (·.logStartOffset), .holding,
          .spawned⟩
      { s with
        partition
        requested := max s.requested call.predictedEnd
        calls := s.calls.insert id call
        holder := some id }

def setCall (s : Runtime) (id : Nat) (call : Call) : Runtime :=
  { s with calls := s.calls.insert id call }

/-- The call that has the replication lock appends and gives the lock back. -/
def append (s : Runtime) : Runtime :=
  match s.holder with
  | none => s
  | some id =>
    match s.calls[id]? with
    | none => s
    | some call =>
      match Partition.appendAccepted call.request call.baseOffset call.identity?
        s.partition with
      | (.error _, partition) =>
        { s with partition, holder := none }.setCall id { call with append := .failed }
      | (.ok answer, partition) =>
        { s with partition, holder := none }.setCall id { call with append := .stored answer }

/-- A task takes the checkpoint lock. It has nothing to do when its watermark is
    covered, and otherwise goes for the highest one anybody asked for. -/
def lock (s : Runtime) (id : Nat) : Runtime :=
  match s.writer, s.calls[id]? with
  | none, some call =>
    if call.task = .spawned then
      if call.predictedEnd ≤ s.persisted then s.setCall id { call with task := .finished }
      else { s with writer := some (id, max s.requested call.predictedEnd) }
    else s
  | _, _ => s

/-- The task that has the checkpoint lock writes its record and gives the lock
    back. The write may fail before or after it reached the disk. -/
def write (s : Runtime) (outcome : Outcome) : Runtime :=
  match s.writer with
  | none => s
  | some (id, target) =>
    match s.calls[id]? with
    | none => s
    | some call =>
      match outcome with
      | .done =>
        { s with
          checkpoint := call.checkpoint target
          persisted := max s.persisted target
          writer := none }.setCall id { call with task := .finished }
      | .refused => { s with writer := none }.setCall id { call with task := .failed }
      | .late =>
        { s with checkpoint := call.checkpoint target, writer := none }.setCall id
          { call with task := .failed }

/-- A call returns when its append and its task are through. -/
def answer (s : Runtime) (id : Nat) : Runtime :=
  match s.calls[id]? with
  | none => s
  | some call =>
    match call.append, call.task with
    | .stored answer, .finished =>
      { s with
        calls := s.calls.erase id
        answered := s.answered ++ [(call.request, answer)] }
    | _, _ => s

def step (s : Runtime) : RuntimeOp → Runtime
  | .start id request => s.start id request
  | .append => s.append
  | .lock id => s.lock id
  | .write outcome => s.write outcome
  | .answer id => s.answer id
  | .coordinate op =>
    { s with partition := { s.partition with coordinator := s.partition.coordinator.step op } }

end Runtime

/-! ## Opening -/

/-- What a broker's directory holds of a partition. -/
abbrev ReplicaFiles := Nat → PartitionCheckpoint × Store

end Kafka

end Pepper
