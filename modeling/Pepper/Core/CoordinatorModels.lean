import Pepper.Core.PartitionModel

/-!
# The Producer, Group and Transaction Models

The three other executable models of `pepper-kafka-model`: the idempotent
producer, the consumer group and the transaction. As in the partition model,
every operation returns its result and the state it leaves behind, so that a
call that fails after its first assignment shows what it has assigned.

Sequence numbers and generations are 32 bits wide and offsets 64; additions
to them are checked, as in the source. Producer epochs are compared only.

## Main definitions

* `ProducerState.bumpEpoch`, `produce`: The producer.
* `GroupModel.join`, `leave`, `sync`: The group.
* `TransactionModel.begin`, `append`, `prepare`, `recordMarker`, `complete`:
  The transaction.
* `ProducerOp`, `GroupOp`, `TransactionOp`: One call with its arguments.
-/

namespace Pepper

namespace KafkaModel

/-- The sum, if it fits into the given number of bits. -/
def checkedAdd (width a b : Nat) : Option Nat :=
  if a + b < 2 ^ width then some (a + b) else none

/-! ## The producer -/

/-- A batch that a producer may send again. -/
structure AcceptedBatch where
  lastSequence : Nat
  baseOffset : Nat
  lastOffset : Nat
  digest : Nat
deriving DecidableEq, Repr

/-- The batch is new, or was appended before. -/
inductive ProduceOutcome where
  | appended (batch : AcceptedBatch)
  | duplicate (batch : AcceptedBatch)
deriving DecidableEq, Repr

/-- The batches a producer has sent in its epoch, by their first sequence
    number. -/
structure ProducerState where
  epoch : Nat
  nextSequence : Nat
  accepted : BTreeMap Nat AcceptedBatch
deriving DecidableEq

namespace ProducerState

def new (epoch : Nat) : ProducerState :=
  { epoch, nextSequence := 0, accepted := ∅ }

/-- A greater epoch starts the sequences anew. -/
def bumpEpoch (s : ProducerState) (epoch : Nat) : Except ModelError Unit × ProducerState :=
  if epoch ≤ s.epoch then (.error .producerFenced, s)
  else (.ok (), { epoch, nextSequence := 0, accepted := ∅ })

/-- A retried batch: the same bytes and the same end get the first answer. -/
def retry (accepted : AcceptedBatch) (firstSequence count digest : Nat) :
    Except ModelError ProduceOutcome :=
  if accepted.digest ≠ digest then .error .duplicateSequenceConflict
  else
    match checkedAdd 32 firstSequence (count - 1) with
    | none => .error .sequenceOverflow
    | some last =>
      if accepted.lastSequence = last then .ok (.duplicate accepted)
      else .error .duplicateSequenceConflict

/-- A batch comes next in its sequence or was accepted before. -/
def produce (s : ProducerState) (epoch firstSequence count digest nextOffset : Nat) :
    Except ModelError ProduceOutcome × ProducerState :=
  if epoch ≠ s.epoch then (.error .producerFenced, s)
  else if count = 0 then (.error .emptyBatch, s)
  else
    match s.accepted[firstSequence]? with
    | some accepted => (retry accepted firstSequence count digest, s)
    | none =>
      if firstSequence ≠ s.nextSequence then (.error .outOfOrderSequence, s)
      else
        match checkedAdd 32 firstSequence (count - 1), checkedAdd 64 nextOffset (count - 1) with
        | none, _ => (.error .sequenceOverflow, s)
        | some _, none => (.error .offsetOverflow, s)
        | some lastSequence, some lastOffset =>
          let batch : AcceptedBatch := ⟨lastSequence, nextOffset, lastOffset, digest⟩
          let s1 := { s with accepted := s.accepted.insert firstSequence batch }
          -- The batch stays in the table when no sequence number is left after it.
          match checkedAdd 32 lastSequence 1 with
          | none => (.error .sequenceOverflow, s1)
          | some next => (.ok (.appended batch), { s1 with nextSequence := next })

end ProducerState

inductive ProducerOp where
  | bumpEpoch (epoch : Nat)
  | produce (epoch firstSequence count digest nextOffset : Nat)

/-- The outcome of a call; a new epoch has none beyond its success. -/
def ProducerOp.apply (s : ProducerState) :
    ProducerOp → Except ModelError (Option ProduceOutcome) × ProducerState
  | .bumpEpoch epoch => ((s.bumpEpoch epoch).1.map fun _ => none, (s.bumpEpoch epoch).2)
  | .produce epoch firstSequence count digest nextOffset =>
    let out := s.produce epoch firstSequence count digest nextOffset
    (out.1.map some, out.2)

/-! ## The group -/

structure GroupModel where
  generation : Nat
  leader : Option String
  members : BTreeSet String
  assignments : BTreeMap Nat String
  synchronized : Bool

namespace GroupModel

def new : GroupModel :=
  { generation := 0, leader := none, members := ∅, assignments := ∅, synchronized := false }

/-- Each change of the members is a new generation. -/
def rebalance (g : GroupModel) : Except ModelError Nat × GroupModel :=
  match checkedAdd 32 g.generation 1 with
  | none => (.error .generationOverflow, g)
  | some generation =>
    (.ok generation, { g with
      generation
      leader := g.members.toList.head?
      assignments := ∅
      synchronized := false })

def join (g : GroupModel) (member : String) : Except ModelError Nat × GroupModel :=
  if member = "" then (.error .invalidMember, g)
  else rebalance { g with members := g.members.insert member }

def leave (g : GroupModel) (member : String) : Except ModelError Nat × GroupModel :=
  if member ∉ g.members then (.error .unknownMember, g)
  else rebalance { g with members := g.members.erase member }

/-- Some partition is assigned to someone who is not a member. -/
def assignsStranger (g : GroupModel) (assignments : BTreeMap Nat String) : Bool :=
  assignments.toList.any fun e => !g.members.contains e.2

def checkInvariants (g : GroupModel) : Except ModelError Unit :=
  if g.synchronized ∧ g.leader = none then .error .missingGroupLeader
  else if g.assignsStranger g.assignments then .error .unknownMember
  else .ok ()

/-- The leader assigns the partitions of a generation. -/
def sync (g : GroupModel) (leader : String) (generation : Nat)
    (assignments : BTreeMap Nat String) : Except ModelError Unit × GroupModel :=
  if generation ≠ g.generation then (.error .illegalGeneration, g)
  else if g.leader ≠ some leader then (.error .notGroupLeader, g)
  else if g.assignsStranger assignments then (.error .unknownMember, g)
  else
    let g' := { g with assignments, synchronized := true }
    (g'.checkInvariants, g')

end GroupModel

inductive GroupOp where
  | join (member : String)
  | leave (member : String)
  | sync (leader : String) (generation : Nat) (assignments : BTreeMap Nat String)

/-- The outcome of a call; members that join or leave get the generation. -/
def GroupOp.apply (g : GroupModel) : GroupOp → Except ModelError (Option Nat) × GroupModel
  | .join member => ((g.join member).1.map some, (g.join member).2)
  | .leave member => ((g.leave member).1.map some, (g.leave member).2)
  | .sync leader generation assignments =>
    let out := g.sync leader generation assignments
    (out.1.map fun _ => none, out.2)

/-! ## The transaction -/

/-- The two phases of a transaction. -/
inductive TransactionPhase where
  | empty
  | ongoing
  | prepareCommit
  | prepareAbort
  | completeCommit
  | completeAbort
deriving DecidableEq, Repr

structure TransactionModel where
  producerId : Nat
  producerEpoch : Nat
  phase : TransactionPhase
  firstOffset : Option Nat
  lastOffset : Option Nat
  partitions : BTreeSet Nat
  markers : BTreeMap Nat Bool

namespace TransactionModel

def new (producerId producerEpoch : Nat) : TransactionModel :=
  { producerId, producerEpoch, phase := .empty, firstOffset := none, lastOffset := none,
    partitions := ∅, markers := ∅ }

def begin (t : TransactionModel) (producerEpoch : Nat) :
    Except ModelError Unit × TransactionModel :=
  if producerEpoch ≠ t.producerEpoch then (.error .producerFenced, t)
  else
    match t.phase with
    | .empty | .completeCommit | .completeAbort =>
      (.ok (), { t with
        phase := .ongoing
        firstOffset := none
        lastOffset := none
        partitions := ∅
        markers := ∅ })
    | _ => (.error .invalidTransactionTransition, t)

def append (t : TransactionModel) (producerEpoch partition firstOffset lastOffset : Nat) :
    Except ModelError Unit × TransactionModel :=
  if producerEpoch ≠ t.producerEpoch then (.error .producerFenced, t)
  else if t.phase ≠ .ongoing ∨ lastOffset < firstOffset then
    (.error .invalidTransactionTransition, t)
  else
    (.ok (), { t with
      partitions := t.partitions.insert partition
      firstOffset := some (t.firstOffset.elim firstOffset (min · firstOffset))
      lastOffset := some (t.lastOffset.elim lastOffset (max · lastOffset)) })

/-- The decision is made and stays. -/
def prepare (t : TransactionModel) (producerEpoch : Nat) (commit : Bool) :
    Except ModelError Unit × TransactionModel :=
  if producerEpoch ≠ t.producerEpoch then (.error .producerFenced, t)
  else if t.phase ≠ .ongoing then (.error .invalidTransactionTransition, t)
  else (.ok (), { t with phase := if commit then .prepareCommit else .prepareAbort })

/-- The markers a transaction waits for. -/
def expected (t : TransactionModel) : Option Bool :=
  match t.phase with
  | .prepareCommit => some true
  | .prepareAbort => some false
  | _ => none

/-- The marker of one partition, as it was decided. -/
def recordMarker (t : TransactionModel) (producerEpoch partition : Nat) (commit : Bool) :
    Except ModelError Unit × TransactionModel :=
  if producerEpoch ≠ t.producerEpoch then (.error .producerFenced, t)
  else
    match t.expected with
    | none => (.error .invalidTransactionTransition, t)
    | some expected =>
      if commit ≠ expected ∨ partition ∉ t.partitions then (.error .invalidTransactionMarker, t)
      else
        let t' := { t with markers := t.markers.insert partition commit }
        -- The marker has been written before the old one is looked at.
        if partition ∈ t.markers then (.error .duplicateTransactionMarker, t') else (.ok (), t')

/-- All markers are there. -/
def complete (t : TransactionModel) (producerEpoch : Nat) :
    Except ModelError Unit × TransactionModel :=
  if producerEpoch ≠ t.producerEpoch then (.error .producerFenced, t)
  else if t.markers.size ≠ t.partitions.size then (.error .missingTransactionMarker, t)
  else
    match t.phase with
    | .prepareCommit => (.ok (), { t with phase := .completeCommit })
    | .prepareAbort => (.ok (), { t with phase := .completeAbort })
    | _ => (.error .invalidTransactionTransition, t)

end TransactionModel

inductive TransactionOp where
  | begin (producerEpoch : Nat)
  | append (producerEpoch partition firstOffset lastOffset : Nat)
  | prepare (producerEpoch : Nat) (commit : Bool)
  | recordMarker (producerEpoch partition : Nat) (commit : Bool)
  | complete (producerEpoch : Nat)

def TransactionOp.apply (t : TransactionModel) :
    TransactionOp → Except ModelError Unit × TransactionModel
  | .begin producerEpoch => t.begin producerEpoch
  | .append producerEpoch partition firstOffset lastOffset =>
    t.append producerEpoch partition firstOffset lastOffset
  | .prepare producerEpoch commit => t.prepare producerEpoch commit
  | .recordMarker producerEpoch partition commit => t.recordMarker producerEpoch partition commit
  | .complete producerEpoch => t.complete producerEpoch

end KafkaModel

end Pepper
