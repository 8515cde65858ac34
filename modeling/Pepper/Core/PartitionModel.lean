import Pepper.Base.Collections
import Pepper.Base.Runs

/-!
# The Partition Model

The executable model of one majority-replicated partition from
`pepper-kafka-model`: quorum elections with log repair, appends by the
leader, replication of single entries, commits counted over replicas, and
the propagation of a commit to a follower.

Every operation returns its result and the state it leaves behind. A failing
call is not rolled back in the source, so an error does not imply that the
state is unchanged: a replication refused at a truncation has already raised
the follower's promise, and a failed final check leaves the whole mutation.

Node identifiers, epochs, offsets and digests are natural numbers. A log is
indexed by its own length, which an address space bounds far below the
offset type, so the conversions between the two never fail.

## Main definitions

* `PartitionModel.new`, `elect`, `append`, `replicate`, `commit`,
  `propagateCommit`, `checkInvariants`: The operations of the source.
* `Op`, `Op.apply`, `step`: One call with its arguments, and what it does.
-/

namespace Pepper

namespace KafkaModel

/-- One entry of a replica's log. -/
structure LogEntry where
  offset : Nat
  epoch : Nat
  digest : Nat
deriving DecidableEq, Repr

/-- What the modelled calls can refuse with. -/
inductive ModelError where
  | invalidReplicaSet
  | unknownReplica
  | noQuorum
  | staleEpoch
  | noSafeElectionSource
  | missingCommittedValue
  | unsafeElection
  | noLeader
  | leaderEntryMismatch
  | logGap
  | prefixMismatch
  | unknownOffset
  | oldEpochCommit
  | commitGap
  | committedTruncation
  | committedValueChanged
  | offsetOverflow
  | sequenceOverflow
  | producerFenced
  | emptyBatch
  | duplicateSequenceConflict
  | outOfOrderSequence
  | invalidMember
  | unknownMember
  | generationOverflow
  | illegalGeneration
  | notGroupLeader
  | missingGroupLeader
  | invalidTransactionTransition
  | invalidTransactionMarker
  | duplicateTransactionMarker
  | missingTransactionMarker
deriving DecidableEq, Repr

/-- One replica: the highest epoch it has promised, its log, and the offset up
    to which it knows the log to be committed. -/
structure Replica where
  promisedEpoch : Nat
  log : List LogEntry
  committed : Option Nat
deriving DecidableEq, Repr

namespace Replica

def entry (r : Replica) (offset : Nat) : Option LogEntry :=
  r.log[offset]?

def lastOffset (r : Replica) : Option Nat :=
  r.log.getLast?.map (·.offset)

/-- Cut the log, unless the cut reaches into the part known to be committed. -/
def truncateUncommitted (r : Replica) (offset : Nat) : Except ModelError Replica :=
  if r.committed.any (fun committed => offset ≤ committed) then
    .error .committedTruncation
  else
    .ok { r with log := r.log.take offset }

end Replica

structure Leader where
  node : Nat
  epoch : Nat
deriving DecidableEq, Repr

/-- One majority-replicated partition. -/
structure PartitionModel where
  replicas : BTreeMap Nat Replica
  leader : Option Leader
  committedValues : BTreeMap Nat Nat
deriving DecidableEq

namespace PartitionModel

/-- A partition over the given nodes, refused unless their number is odd and at
    least three. -/
def new (nodes : List Nat) : Except ModelError PartitionModel :=
  let replicas : BTreeMap Nat Replica :=
    nodes.foldl (fun reps node => reps.insert node ⟨0, [], none⟩) ∅
  if replicas.size < 3 ∨ replicas.size % 2 = 0 then
    .error .invalidReplicaSet
  else
    .ok { replicas, leader := none, committedValues := ∅ }

/-- The partition with one replica replaced. -/
def setReplica (m : PartitionModel) (node : Nat) (r : Replica) : PartitionModel :=
  { m with replicas := m.replicas.insert node r }

/-- More than half of the replicas. -/
def quorum (m : PartitionModel) : Nat :=
  m.replicas.size / 2 + 1

/-- The committed values are numbered from zero without a gap. -/
def checkCommitted (m : PartitionModel) : Except ModelError Unit :=
  forM m.committedValues.toList.zipIdx fun ((offset, _), expectedOffset) =>
    if offset ≠ expectedOffset then .error .commitGap else .ok ()

/-- A replica's entries are numbered by their place. -/
def checkLog (r : Replica) : Except ModelError Unit :=
  forM r.log.zipIdx fun (entry, index) =>
    if entry.offset ≠ index then .error .logGap else .ok ()

/-- The part of a replica's log known to be committed carries the committed
    values. -/
def checkKnown (m : PartitionModel) (r : Replica) : Except ModelError Unit :=
  match r.committed with
  | none => .ok ()
  | some committed =>
    forM (List.range (committed + 1)) fun offset =>
      match m.committedValues[offset]? with
      | none => .error .missingCommittedValue
      | some expected =>
        if (r.entry offset).map (·.digest) ≠ some expected then
          .error .committedValueChanged
        else .ok ()

/-- Committed values are those of the logs. -/
def checkInvariants (m : PartitionModel) : Except ModelError Unit := do
  m.checkCommitted
  forM m.replicas.toList fun (_, r) => do
    checkLog r
    m.checkKnown r

/-- The greatest commit any voter knows of. -/
def safeCommitted (m : PartitionModel) (voters : BTreeSet Nat) : Option Nat :=
  (voters.toList.filterMap fun node => m.replicas[node]?.bind (·.committed)).max?

/-- What elections compare: last epoch, last offset, then the node. -/
def electionKey (e : Nat × Replica) : (Nat ×ₗ Nat) ×ₗ Nat :=
  match e.2.log.getLast? with
  | none => toLex (toLex (0, 0), e.1)
  | some last => toLex (toLex (last.epoch, last.offset), e.1)

/-- The voters whose log reaches the greatest known commit. -/
def reachingVoters (m : PartitionModel) (voters : BTreeSet Nat) : List (Nat × Replica) :=
  (voters.toList.filterMap fun node => m.replicas[node]?.map fun r => (node, r)).filter fun e =>
    (m.safeCommitted voters).all fun offset => e.2.lastOffset.any fun last => offset ≤ last

/-- The log an election installs: the greatest of those by `electionKey`. -/
def electionSource (m : PartitionModel) (voters : BTreeSet Nat) : Option (List LogEntry) :=
  (maxByKey electionKey (m.reachingVoters voters)).map (·.2.log)

/-- The source log carries every committed value up to the known commit. -/
def checkSource (m : PartitionModel) (source : List LogEntry) (safe : Option Nat) :
    Except ModelError Unit :=
  match safe with
  | none => .ok ()
  | some committed =>
    forM (List.range (committed + 1)) fun offset =>
      match m.committedValues[offset]? with
      | none => .error .missingCommittedValue
      | some expected =>
        if source[offset]?.map (·.digest) ≠ some expected then .error .unsafeElection
        else .ok ()

/-- Every voter promises the epoch, and the candidate takes over the source log
    and the known commit. -/
def installLeader (m : PartitionModel) (candidate epoch : Nat) (voters : BTreeSet Nat)
    (source : List LogEntry) (safe : Option Nat) : PartitionModel :=
  let promised := voters.toList.foldl
    (fun reps node => reps.modify node fun r => { r with promisedEpoch := epoch }) m.replicas
  { m with
    replicas := promised.modify candidate fun r => { r with log := source, committed := safe }
    leader := some ⟨candidate, epoch⟩ }

/-- The candidate takes over the log of the best voter. -/
def elect (m : PartitionModel) (candidate epoch : Nat) (voters : BTreeSet Nat) :
    Except ModelError Unit × PartitionModel :=
  if voters.size < m.quorum ∨ candidate ∉ voters then (.error .noQuorum, m)
  else if voters.toList.any fun node => !m.replicas.contains node then
    (.error .unknownReplica, m)
  else if voters.toList.any fun node => m.replicas[node]?.any fun r => epoch ≤ r.promisedEpoch then
    (.error .staleEpoch, m)
  else
    match m.electionSource voters with
    | none => (.error .noSafeElectionSource, m)
    | some source =>
      match m.checkSource source (m.safeCommitted voters) with
      | .error e => (.error e, m)
      | .ok () =>
        let m' := m.installLeader candidate epoch voters source (m.safeCommitted voters)
        (m'.checkInvariants, m')

/-- The leader appends to its own log. -/
def append (m : PartitionModel) (digest : Nat) : Except ModelError LogEntry × PartitionModel :=
  match m.leader with
  | none => (.error .noLeader, m)
  | some leader =>
    match m.replicas[leader.node]? with
    | none => (.error .unknownReplica, m)
    | some r =>
      if r.promisedEpoch ≠ leader.epoch then (.error .staleEpoch, m)
      else
        let entry : LogEntry := ⟨r.log.length, leader.epoch, digest⟩
        let m' := m.setReplica leader.node { r with log := r.log ++ [entry] }
        match m'.checkInvariants with
        | .error e => (.error e, m')
        | .ok () => (.ok entry, m')

/-- The first place below both lengths where the two logs differ. -/
def firstMismatch (log leaderPrefix : List LogEntry) : Option Nat :=
  (List.range (min log.length leaderPrefix.length)).find? fun position =>
    log[position]? ≠ leaderPrefix[position]?

/-- Cut the follower's log at its first difference from the leader's. -/
def repairLog (r : Replica) (leaderPrefix : List LogEntry) : Except ModelError Replica :=
  match firstMismatch r.log leaderPrefix with
  | none => .ok r
  | some mismatch => r.truncateUncommitted mismatch

/-- Copy the rest of the leader's log up to the entry being replicated. -/
def extendLog (r : Replica) (leaderPrefix : List LogEntry) : Replica :=
  { r with log := r.log ++ leaderPrefix.drop r.log.length }

/-- Put the entry at its own offset. The flag tells whether the call goes on to
    the final check; an entry that is already there ends it. -/
def placeEntry (r : Replica) (leaderPrefix : List LogEntry) (entry : LogEntry) :
    Except ModelError Bool × Replica :=
  let index := entry.offset
  if r.log[index]? = some entry then (.ok false, r)
  else
    let cut := if index < r.log.length then r.truncateUncommitted index else .ok r
    match cut with
    | .error e => (.error e, r)
    | .ok r' =>
      if index ≠ r'.log.length then (.error .logGap, r')
      else if r'.log.take index ≠ leaderPrefix then (.error .prefixMismatch, r')
      else (.ok true, { r' with log := r'.log ++ [entry] })

/-- What replication does to the follower once its promise has been raised. -/
def replicateLog (r : Replica) (leaderPrefix : List LogEntry) (entry : LogEntry) :
    Except ModelError Bool × Replica :=
  match repairLog r leaderPrefix with
  | .error e => (.error e, r)
  | .ok r' => placeEntry (extendLog r' leaderPrefix) leaderPrefix entry

/-- A follower takes an entry of the leader at its place. -/
def replicate (m : PartitionModel) (follower : Nat) (entry : LogEntry) :
    Except ModelError Unit × PartitionModel :=
  match m.leader with
  | none => (.error .noLeader, m)
  | some leader =>
    if entry.epoch ≠ leader.epoch ∨ follower = leader.node then (.error .staleEpoch, m)
    else
      match m.replicas[leader.node]? with
      | none => (.error .unknownReplica, m)
      | some leaderReplica =>
        if leaderReplica.entry entry.offset ≠ some entry then (.error .leaderEntryMismatch, m)
        else
          match m.replicas[follower]? with
          | none => (.error .unknownReplica, m)
          | some r =>
            if entry.epoch < r.promisedEpoch then (.error .staleEpoch, m)
            else
              let promised := { r with promisedEpoch := entry.epoch }
              let leaderPrefix := leaderReplica.log.take entry.offset
              match replicateLog promised leaderPrefix entry with
              | (.error e, r') => (.error e, m.setReplica follower r')
              | (.ok false, r') => (.ok (), m.setReplica follower r')
              | (.ok true, r') =>
                let m' := m.setReplica follower r'
                (m'.checkInvariants, m')

/-- A quorum has the entry. -/
def commit (m : PartitionModel) (offset : Nat) : Except ModelError Unit × PartitionModel :=
  match m.leader with
  | none => (.error .noLeader, m)
  | some leader =>
    match m.replicas[leader.node]? with
    | none => (.error .unknownOffset, m)
    | some r =>
      match r.entry offset with
      | none => (.error .unknownOffset, m)
      | some leaderEntry =>
        if leaderEntry.epoch ≠ leader.epoch then (.error .oldEpochCommit, m)
        else if m.replicas.toList.countP (fun e => e.2.entry offset = some leaderEntry)
            < m.quorum then (.error .noQuorum, m)
        else if 0 < offset ∧ (offset - 1) ∉ m.committedValues then (.error .commitGap, m)
        else
          let m1 := { m with
            committedValues := m.committedValues.insert offset leaderEntry.digest }
          -- The insertion stands even when it replaced a different digest.
          if m.committedValues[offset]?.any (· ≠ leaderEntry.digest) then
            (.error .committedValueChanged, m1)
          else
            let m2 := m1.setReplica leader.node { r with committed := some offset }
            (m2.checkInvariants, m2)

/-- A follower learns what is committed. -/
def propagateCommit (m : PartitionModel) (node offset : Nat) :
    Except ModelError Unit × PartitionModel :=
  match m.committedValues[offset]? with
  | none => (.error .unknownOffset, m)
  | some expected =>
    match m.replicas[node]? with
    | none => (.error .unknownReplica, m)
    | some r =>
      if (r.entry offset).map (·.digest) ≠ some expected then
        (.error .missingCommittedValue, m)
      else
        let m' := m.setReplica node { r with committed := some offset }
        (m'.checkInvariants, m')

end PartitionModel

/-- One call with its arguments. -/
inductive Op where
  | elect (candidate epoch : Nat) (voters : BTreeSet Nat)
  | append (digest : Nat)
  | replicate (follower : Nat) (entry : LogEntry)
  | commit (offset : Nat)
  | propagateCommit (node offset : Nat)

/-- The outcome of a call, without the entry an append returns, and the state
    it leaves behind. -/
def Op.apply (m : PartitionModel) : Op → Except ModelError Unit × PartitionModel
  | .elect candidate epoch voters => m.elect candidate epoch voters
  | .append digest => ((m.append digest).1.map fun _ => (), (m.append digest).2)
  | .replicate follower entry => m.replicate follower entry
  | .commit offset => m.commit offset
  | .propagateCommit node offset => m.propagateCommit node offset

def step (m : PartitionModel) (op : Op) : PartitionModel :=
  (op.apply m).2

end KafkaModel

end Pepper
