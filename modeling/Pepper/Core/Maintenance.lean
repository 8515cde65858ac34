import Pepper.Core.Recovery

/-!
# Maintaining an Ordered Log

The calls of `OrderedLog` in `pepper-ordered-log` that are not made by
replication: rotation on demand, authorized truncation, compaction of sealed
segments, and the retention of the log's tail, which advances the start of the
log first and takes extents away later.

## Main definitions

* `sealAndRotate`, `truncate`: Rotation and truncation as calls of their own.
* `compactSealed`: Rewriting a sealed segment with fewer batches.
* `retentionCandidates`: The sealed segments that a policy lets go.
* `advanceLogStart`, `reclaimBelowLogStart`: Letting them go.
* `LogOp`, `perform`: One call on a log with its arguments.
-/

namespace Pepper

namespace Log

open ExtentStore Fallible

/-- Rotation by the leader. -/
def sealAndRotate (epoch : Nat) : LogM SegmentManifest := do
  let log ← get
  require (log.promisedEpoch = epoch ∧ log.leaderEpoch = some epoch)
    (.staleEpoch log.promisedEpoch epoch)
  rotateActive

/-! ## Truncation -/

/-- The holder of the key that recovery commands are signed with; `sign` is the
    keyed hash of partition, epochs and offset. -/
structure RecoveryAuthority where
  sign : Nat → Nat → Nat → Nat → Nat

/-- Where a replica is to be cut. -/
structure RecoveryCommand where
  partitionKey : Nat
  controllerEpoch : Nat
  leaderEpoch : Nat
  truncateTo : Nat
  authenticator : Nat
deriving DecidableEq, Repr

/-- Nothing that is committed is cut off. -/
def truncate (authority : RecoveryAuthority) (command : RecoveryCommand) : LogM Unit := do
  let log ← get
  require (command.partitionKey = log.config.partitionKey ∧
      command.controllerEpoch = log.controllerEpoch ∧ command.leaderEpoch = log.promisedEpoch ∧
      command.authenticator = authority.sign command.partitionKey command.controllerEpoch
        command.leaderEpoch command.truncateTo)
    .unauthenticatedRecovery
  require (log.highWatermark ≤ command.truncateTo)
    (.committedTruncation command.truncateTo log.highWatermark)
  truncateActiveTo command.truncateTo
  modify OrderedLog.rebuildSparseIndex

/-! ## Compaction -/

structure CompactionResult where
  replaced : SegmentManifest
  replacement : SegmentManifest
  inputBatches : Nat
  retainedBatches : Nat
  reclaimedPayloadBytes : Nat
deriving DecidableEq, Repr

/-- Compaction keeps the batches that were asked for, and the first and the last
    one so that the segment spans the same offsets. -/
def Segment.keeps (segment : Segment) (retained : BTreeSet Nat) (b : BatchLocation) : Bool :=
  decide (b.baseOffset ∈ retained) ||
    decide (some b.baseOffset = segment.batches.head?.map (·.baseOffset)) ||
    decide (some b.baseOffset = segment.batches.getLast?.map (·.baseOffset))

/-- The batches of an extent that holds just these, in their order. -/
def relocated (extentId : Nat) : Nat → List BatchLocation → List BatchLocation
  | _, [] => []
  | index, b :: rest =>
    { b with extentId, recordIndex := index } :: relocated extentId (index + 1) rest

/-- The record of a batch with the bytes that were read for it. -/
def replacementRecord (partitionKey : Nat) (b : FetchedBatch) : Record :=
  ⟨⟨partitionKey, b.leaderEpoch, b.baseOffset, b.lastOffset, b.timestampMs⟩, b.bytes⟩

/-- The segment over the extent that has replaced its own. -/
def Segment.rewritten (segment : Segment) (extentId : Nat) (kept : List BatchLocation) : Segment :=
  let batches := relocated extentId 0 kept
  let segment : Segment :=
    ⟨extentId, segment.baseOffset, payloadSum batches, batches, none⟩
  { segment with sealed := some (manifestOf segment) }

/-- The other fields of the index do not depend on where the batches are, apart
    from the sparse index, which is rebuilt as a whole. -/
def compactSealed (leased : Bool) (extentId : Nat) (retained : BTreeSet Nat) :
    LogM CompactionResult := do
  let log ← get
  let index ← expect (log.segments.findIdx? fun s => s.extentId = extentId)
    (.unknownExtent extentId)
  let segment ← expect log.segments[index]? (.unknownExtent extentId)
  let replaced ← expect segment.sealed .activeCompaction
  require (segment.endOffset ≤ log.highWatermark) .uncommittedSealedSegment
  let kept := segment.batches.filter (segment.keeps retained)
  if kept.length = segment.batches.length then
    pure ⟨replaced, replaced, segment.batches.length, kept.length, 0⟩
  else do
    let batches ← readLocations kept
    let newId ← onStore <| Store.replaceSealed leased extentId <|
      batches.map (replacementRecord log.config.partitionKey)
    let rewritten := segment.rewritten newId kept
    modify fun log =>
      ({ log with segments := log.segments.set index rewritten } : OrderedLog).rebuildSparseIndex
    pure ⟨replaced, manifestOf rewritten, segment.batches.length, kept.length,
      segment.payloadBytes - rewritten.payloadBytes⟩

/-! ## Retention -/

structure RetentionPolicy where
  retainAfterTimestampMs : Option Nat
  maximumSealedBytes : Option Nat
deriving DecidableEq, Repr

def OrderedLog.sealedManifests (log : OrderedLog) : List SegmentManifest :=
  log.segments.filterMap (·.sealed)

/-- All batches of the segment are older than the policy asks for. -/
def RetentionPolicy.expired (policy : RetentionPolicy) (manifest : SegmentManifest) : Bool :=
  policy.retainAfterTimestampMs.any fun cutoff => manifest.maximumTimestampMs < cutoff

/-- The sealed segments together have more bytes than the policy allows. -/
def RetentionPolicy.oversized (policy : RetentionPolicy) (bytes : Nat) : Bool :=
  policy.maximumSealedBytes.any fun maximum => maximum < bytes

/-- Walk over the manifests with the bytes that are still retained. -/
def selectCandidates (policy : RetentionPolicy) :
    Nat → List SegmentManifest → List SegmentManifest
  | _, [] => []
  | retained, manifest :: rest =>
    if policy.expired manifest || policy.oversized retained then
      manifest :: selectCandidates policy (retained - manifest.payloadBytes) rest
    else selectCandidates policy retained rest

/-- The bytes of all manifests, summed in 64 bits. -/
def totalBytes (manifests : List SegmentManifest) : Nat :=
  (manifests.map (·.payloadBytes)).sum % offsetLimit

/-- Segments that are expired or too many, oldest first. -/
def OrderedLog.retentionCandidates (log : OrderedLog) (policy : RetentionPolicy) :
    List SegmentManifest :=
  selectCandidates policy (totalBytes log.sealedManifests) log.sealedManifests

/-- The new start has to be where a sealed segment ends. -/
def advanceLogStart (controllerEpoch offset : Nat) : LogM Unit := do
  let log ← get
  require (controllerEpoch = log.controllerEpoch ∧ log.logStartOffset ≤ offset ∧
      offset ≤ log.highWatermark ∧
      log.segments.any (fun s => s.sealed.isSome && decide (s.endOffset = offset)) = true)
    (.invalidLogStart offset)
  modify fun log => { log with logStartOffset := offset }

/-- The loop of `reclaimBelowLogStart`, over the segments it may still take. -/
def reclaimSegments (leased : Nat → Bool) : List Segment → LogM (List SegmentManifest)
  | [] => pure []
  | segment :: rest => do
      let log ← get
      match segment.sealed.filter fun manifest =>
          decide (manifest.endOffset ≤ log.logStartOffset ∧
            manifest.endOffset ≤ log.highWatermark) with
      | none => pure []
      | some manifest => do
          onStore (Store.reclaim (leased manifest.extentId) manifest.extentId)
          modify fun log =>
            { log with
              segments := log.segments.tail
              totalBatches := log.totalBatches - manifest.batchCount }
          let reclaimed ← reclaimSegments leased rest
          pure (manifest :: reclaimed)

/-- Take whole extents away that lie below the start of the log. -/
def reclaimBelowLogStart (leased : Nat → Bool) : LogM (List SegmentManifest) := do
  let log ← get
  let reclaimed ← reclaimSegments leased log.segments
  if reclaimed.isEmpty then pure []
  else do
    modify OrderedLog.rebuildSparseIndex
    pure reclaimed

/-! ## Calls -/

/-- One call on a log with its arguments. -/
inductive LogOp where
  | promiseEpoch (controllerEpoch epoch : Nat)
  | activateLeader (controllerEpoch epoch : Nat)
  | append (epoch timestampMs recordCount : Nat) (payload : List UInt8)
  | replicate (commandEpoch recordEpoch baseOffset timestampMs recordCount : Nat)
      (payload : List UInt8)
  | commit (epoch highWatermark : Nat)
  | truncate (authority : RecoveryAuthority) (command : RecoveryCommand)
  | sealAndRotate (epoch : Nat)
  | compactSealed (leased : Bool) (extentId : Nat) (retained : BTreeSet Nat)
  | advanceLogStart (controllerEpoch offset : Nat)
  | reclaimBelowLogStart (leased : Nat → Bool)

/-- Make the call and forget its answer. -/
def perform : LogOp → LogM Unit
  | .promiseEpoch controllerEpoch epoch => promiseEpoch controllerEpoch epoch
  | .activateLeader controllerEpoch epoch => activateLeader controllerEpoch epoch
  | .append epoch timestampMs recordCount payload => do
      let _ ← append epoch timestampMs recordCount payload
      pure ()
  | .replicate commandEpoch recordEpoch baseOffset timestampMs recordCount payload => do
      let _ ← replicateWithIdentity commandEpoch recordEpoch baseOffset timestampMs recordCount
        payload
      pure ()
  | .commit epoch highWatermark => commit epoch highWatermark
  | .truncate authority command => truncate authority command
  | .sealAndRotate epoch => do
      let _ ← sealAndRotate epoch
      pure ()
  | .compactSealed leased extentId retained => do
      let _ ← compactSealed leased extentId retained
      pure ()
  | .advanceLogStart controllerEpoch offset => advanceLogStart controllerEpoch offset
  | .reclaimBelowLogStart leased => do
      let _ ← reclaimBelowLogStart leased
      pure ()

end Log

end Pepper
