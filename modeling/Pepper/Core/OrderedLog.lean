import Pepper.Core.Extent

/-!
# The Ordered Log

One replica's log of a partition, as `OrderedLog` of `pepper-ordered-log` keeps
it: segments of batch locations over an extent store, a promised epoch that
fences writers, and a high watermark.

The index (segments and locations) is what the source holds in memory; the
bytes are only in the store. The two are separate here as well, and their
agreement is an invariant and not a definition.

Offsets are 64-bit in the source. Where it checks for overflow the check is
here, where it saturates the sum is cut, and where it adds without either the
sum wraps.

## Main definitions

* `OrderedLog`, `Segment`, `BatchLocation`: The state of a log.
* `appendAssigned`, `rotateActive`: Writing a batch, with rotation.
* `promiseEpoch`, `activateLeader`, `append`, `replicateWithIdentity`,
  `commit`, `fetch`: The calls replication makes.
* `contents`: The batches a log holds, with their bytes.
-/

namespace Pepper

namespace Log

open ExtentStore Fallible

/-- One past the greatest 64-bit value. -/
def offsetLimit : Nat := 2 ^ 64

/-- 64-bit addition that stops at the greatest value. -/
def saturatingAdd (a b : Nat) : Nat := min (a + b) (offsetLimit - 1)

/-- 64-bit addition of one that wraps. -/
def wrappingSucc (a : Nat) : Nat := (a + 1) % offsetLimit

inductive LogError where
  | staleEpoch (promised supplied : Nat)
  | emptyRecordBatch
  | assignedOffsetMismatch (expected supplied : Nat)
  | offsetOverflow
  | activeExtentCount (count : Nat)
  | invalidConfiguration
  | emptyRotation
  | uncommittedRotation
  | invalidCommit (highWatermark : Nat)
  | offsetBeforeLogStart (offset logStart : Nat)
  | extent (error : ExtentError)
  | foreignPartition (extentId : Nat)
  | offsetGap
  | invalidRecoveryPoint (logStart highWatermark logEnd : Nat)
  | uncommittedSealedSegment
  | invalidTruncateOffset (offset : Nat)
  | unauthenticatedRecovery
  | committedTruncation (requested highWatermark : Nat)
  | unknownExtent (extentId : Nat)
  | activeCompaction
  | invalidLogStart (offset : Nat)
  | invalidReplicaSet
  | unknownReplica (node : Nat)
  | staleLeader
  | replicaOffline (node : Nat)
  | noQuorum
  | missingCommittedPrefix
  | divergentReplica
  | replicaAlreadyExists (node : Nat)
  | unsafeAssignmentChange (node : Nat)
  | unsafeAssignment
deriving DecidableEq, Repr

/-- The bounds of a segment and of the index. -/
structure LogConfig where
  partitionKey : Nat
  sparseIndexStride : Nat
  maximumSegmentBytes : Nat
  maximumSegmentBatches : Nat
deriving DecidableEq, Repr

/-- Where a batch is, and what the log knows about it without reading it. -/
structure BatchLocation where
  baseOffset : Nat
  lastOffset : Nat
  epoch : Nat
  timestampMs : Nat
  extentId : Nat
  recordIndex : Nat
  encodedLen : Nat
deriving DecidableEq, Repr

/-- The manifest of a sealed segment, without the digest of its extent. -/
structure SegmentManifest where
  extentId : Nat
  baseOffset : Nat
  endOffset : Nat
  batchCount : Nat
  payloadBytes : Nat
  minimumTimestampMs : Nat
  maximumTimestampMs : Nat
  maximumEpoch : Nat
deriving DecidableEq, Repr

/-- An extent and the batches in it. -/
structure Segment where
  extentId : Nat
  baseOffset : Nat
  payloadBytes : Nat
  batches : List BatchLocation
  sealed : Option SegmentManifest
deriving DecidableEq, Repr

structure SparseIndexEntry where
  baseOffset : Nat
  extentId : Nat
  recordIndex : Nat
deriving DecidableEq, Repr

/-- A log, its segments and its counters. -/
structure OrderedLog where
  config : LogConfig
  store : Store
  segments : List Segment
  sparseIndex : List SparseIndexEntry
  promisedEpoch : Nat
  leaderEpoch : Option Nat
  controllerEpoch : Nat
  highWatermark : Nat
  logStartOffset : Nat
  nextOffset : Nat
  totalBatches : Nat

/-- Calls on a log. -/
abbrev LogM (α : Type) := Fallible OrderedLog LogError α

/-- The offset behind the last batch; the addition may wrap. -/
def Segment.endOffset (s : Segment) : Nat :=
  match s.batches.getLast? with
  | none => s.baseOffset
  | some batch => saturatingAdd batch.lastOffset 1

def manifestOf (s : Segment) : SegmentManifest where
  extentId := s.extentId
  baseOffset := s.baseOffset
  endOffset := (s.batches.getLast?.map fun b => wrappingSucc b.lastOffset).getD s.baseOffset
  batchCount := s.batches.length
  payloadBytes := s.payloadBytes
  minimumTimestampMs := (s.batches.map (·.timestampMs)).min?.getD 0
  maximumTimestampMs := (s.batches.map (·.timestampMs)).max?.getD 0
  maximumEpoch := (s.batches.map (·.epoch)).max?.getD 0

/-- A batch as a reader of the log sees it. -/
structure FetchedBatch where
  baseOffset : Nat
  lastOffset : Nat
  leaderEpoch : Nat
  timestampMs : Nat
  bytes : List UInt8
deriving DecidableEq, Repr

namespace OrderedLog

/-- All locations of the log in the order of its segments. -/
def locations (log : OrderedLog) : List BatchLocation :=
  log.segments.flatMap (·.batches)

/-- Replace the last segment. -/
def setActive (log : OrderedLog) (active : Segment) : OrderedLog :=
  { log with segments := log.segments.dropLast ++ [active] }

end OrderedLog

/-- Run a call on the log's store. -/
def onStore {α : Type} (x : StoreM α) : LogM α :=
  zoom (fun log => log.store) (fun log store => { log with store }) LogError.extent x

/-- The last segment. -/
def active : LogM Segment := do
  let log ← get
  expect log.segments.getLast? (.activeExtentCount 0)

/-- The first half of a rotation: the last segment is sealed, in the store and
    then in the index. -/
def sealActive : LogM SegmentManifest := do
  let segment ← active
  require (segment.batches ≠ []) .emptyRotation
  let log ← get
  require (segment.endOffset ≤ log.highWatermark) .uncommittedRotation
  onStore (Store.sealExtent segment.extentId)
  modify fun log => log.setActive { segment with sealed := some (manifestOf segment) }
  pure (manifestOf segment)

/-- The second half of a rotation: an empty segment over a new extent. -/
def pushActive : LogM Unit := do
  let extentId ← onStore Store.create
  modify fun log =>
    { log with segments := log.segments ++ [⟨extentId, log.nextOffset, 0, [], none⟩] }

/-- Seal the active segment and create the next. -/
def rotateActive : LogM SegmentManifest := do
  let manifest ← sealActive
  pushActive
  pure manifest

/-- The active segment has batches and has reached one of its limits. -/
def OrderedLog.shouldRotate (log : OrderedLog) (payloadLen : Nat) : Bool :=
  log.segments.getLast?.any fun segment =>
    !segment.batches.isEmpty &&
      (decide (log.config.maximumSegmentBytes < saturatingAdd segment.payloadBytes payloadLen) ||
        decide (log.config.maximumSegmentBatches ≤ segment.batches.length))

/-- Enter a stored batch into the index. -/
def OrderedLog.pushBatch (log : OrderedLog) (segment : Segment) (b : BatchLocation) : OrderedLog :=
  { log.setActive
      { segment with
        baseOffset := if segment.batches.isEmpty then b.baseOffset else segment.baseOffset
        payloadBytes := saturatingAdd segment.payloadBytes b.encodedLen
        batches := segment.batches ++ [b] } with
    sparseIndex :=
      if log.totalBatches % log.config.sparseIndexStride = 0 then
        log.sparseIndex ++ [⟨b.baseOffset, b.extentId, b.recordIndex⟩]
      else log.sparseIndex
    totalBatches := saturatingAdd log.totalBatches 1
    nextOffset := wrappingSucc b.lastOffset }

/-- Store a batch in the active extent and enter it into the index. -/
def appendRecord (epoch baseOffset lastOffset timestampMs : Nat) (payload : List UInt8) :
    LogM Unit := do
  let segment ← active
  let log ← get
  let receipt ← onStore <| Store.append segment.extentId
    ⟨⟨log.config.partitionKey, epoch, baseOffset, lastOffset, timestampMs⟩, payload⟩
  modify fun log => log.pushBatch segment
    ⟨baseOffset, lastOffset, epoch, timestampMs, receipt.extentId, receipt.recordIndex,
      receipt.encodedLen⟩

structure AppendResult where
  baseOffset : Nat
  lastOffset : Nat
  leaderEpoch : Nat
  highWatermark : Nat
deriving DecidableEq, Repr

/-- Rotate first when the active segment is full. -/
def rotateIfFull (payloadLen : Nat) : LogM Unit := do
  let log ← get
  if log.shouldRotate payloadLen then
    let _ ← rotateActive
    pure ()
  else pure ()

/-- Write a batch at an assigned offset, which must be the end of the log. -/
def appendAssigned (epoch baseOffset timestampMs recordCount : Nat) (payload : List UInt8) :
    LogM AppendResult := do
  require (recordCount ≠ 0) .emptyRecordBatch
  let log ← get
  require (baseOffset = log.nextOffset) (.assignedOffsetMismatch log.nextOffset baseOffset)
  let lastOffset := baseOffset + (recordCount - 1)
  require (lastOffset < offsetLimit) .offsetOverflow
  rotateIfFull payload.length
  appendRecord epoch baseOffset lastOffset timestampMs payload
  let log ← get
  pure ⟨baseOffset, lastOffset, epoch, log.highWatermark⟩

/-- Promise an epoch; the log stops leading. -/
def promiseEpoch (controllerEpoch epoch : Nat) : LogM Unit := do
  let log ← get
  require (log.controllerEpoch ≤ controllerEpoch ∧ log.promisedEpoch < epoch)
    (.staleEpoch log.promisedEpoch epoch)
  modify fun log => { log with controllerEpoch, promisedEpoch := epoch, leaderEpoch := none }

/-- Lead in the epoch that was promised. -/
def activateLeader (controllerEpoch epoch : Nat) : LogM Unit := do
  let log ← get
  require (controllerEpoch = log.controllerEpoch ∧ epoch = log.promisedEpoch)
    (.staleEpoch log.promisedEpoch epoch)
  modify fun log => { log with leaderEpoch := some epoch }

/-- The leader gives the batch its offsets. -/
def append (epoch timestampMs recordCount : Nat) (payload : List UInt8) : LogM AppendResult := do
  let log ← get
  require (log.leaderEpoch = some epoch ∧ log.promisedEpoch = epoch)
    (.staleEpoch log.promisedEpoch epoch)
  appendAssigned epoch log.nextOffset timestampMs recordCount payload

/-- Take over a batch from another replica under the epoch it was written in. -/
def replicateWithIdentity (commandEpoch recordEpoch baseOffset timestampMs recordCount : Nat)
    (payload : List UInt8) : LogM AppendResult := do
  let log ← get
  require (log.promisedEpoch = commandEpoch) (.staleEpoch log.promisedEpoch commandEpoch)
  appendAssigned recordEpoch baseOffset timestampMs recordCount payload

/-- A follower takes the offsets of the leader. -/
def replicate (epoch baseOffset timestampMs recordCount : Nat) (payload : List UInt8) :
    LogM AppendResult :=
  replicateWithIdentity epoch epoch baseOffset timestampMs recordCount payload

/-- The offset lies between two batches. -/
def OrderedLog.isBatchBoundary (log : OrderedLog) (offset : Nat) : Bool :=
  decide (offset = log.logStartOffset) || decide (offset = log.nextOffset) ||
    log.locations.any fun b =>
      decide (b.baseOffset = offset) || decide (wrappingSucc b.lastOffset = offset)

/-- The watermark moves up to a batch boundary. -/
def commit (epoch highWatermark : Nat) : LogM Unit := do
  let log ← get
  require (log.promisedEpoch = epoch) (.staleEpoch log.promisedEpoch epoch)
  require (log.highWatermark ≤ highWatermark ∧ highWatermark ≤ log.nextOffset ∧
      log.isBatchBoundary highWatermark = true)
    (.invalidCommit highWatermark)
  modify fun log => { log with highWatermark }

/-- The number of leading elements that satisfy the predicate. On a list that is
    partitioned by it this is where a binary search ends. -/
def partitionPoint {α : Type} (p : α → Bool) (l : List α) : Nat :=
  (l.takeWhile p).length

/-- Within the first segment the locations from the first batch that reaches the
    offset, and all locations of the others. -/
def locationsFrom (offset : Nat) : List Segment → List BatchLocation
  | [] => []
  | first :: rest =>
    first.batches.drop (partitionPoint (fun b => b.lastOffset < offset) first.batches) ++
      rest.flatMap (·.batches)

/-- The locations a fetch looks at, from the first segment that ends after the
    offset. -/
def OrderedLog.candidates (log : OrderedLog) (offset : Nat) : List BatchLocation :=
  locationsFrom offset <|
    log.segments.drop (partitionPoint (fun s => s.endOffset ≤ offset) log.segments)

/-- Take locations until the visible end or the byte limit; the first one is
    taken whatever its size. -/
def takeVisible (visibleEnd maximumBytes : Nat) (bytes : Nat) (started : Bool) :
    List BatchLocation → List BatchLocation
  | [] => []
  | b :: rest =>
    if visibleEnd ≤ b.lastOffset then []
    else if started ∧ maximumBytes < saturatingAdd bytes b.encodedLen then []
    else b :: takeVisible visibleEnd maximumBytes (saturatingAdd bytes b.encodedLen) true rest

structure FetchResult where
  batches : List FetchedBatch
  highWatermark : Nat
  logStartOffset : Nat
  logEndOffset : Nat
deriving DecidableEq, Repr

/-- Read the whole record of a location. -/
def readLocation (b : BatchLocation) : LogM FetchedBatch := do
  let bytes ← onStore (Store.readRange b.extentId b.recordIndex 0 b.encodedLen)
  pure ⟨b.baseOffset, b.lastOffset, b.epoch, b.timestampMs, bytes⟩

/-- Read batches one by one. -/
def readLocations : List BatchLocation → LogM (List FetchedBatch)
  | [] => pure []
  | b :: rest => do
      let batch ← readLocation b
      let batches ← readLocations rest
      pure (batch :: batches)

/-- Batches from an offset on, up to a number of bytes. -/
def fetch (offset maximumBytes : Nat) (committedOnly : Bool) : LogM FetchResult := do
  let log ← get
  require (log.logStartOffset ≤ offset) (.offsetBeforeLogStart offset log.logStartOffset)
  let visibleEnd := if committedOnly then log.highWatermark else log.nextOffset
  let batches ← readLocations (takeVisible visibleEnd maximumBytes 0 false (log.candidates offset))
  pure ⟨batches, log.highWatermark, log.logStartOffset, log.nextOffset⟩

/-- The stored bytes a location points at. -/
def OrderedLog.bytesAt (log : OrderedLog) (b : BatchLocation) : List UInt8 :=
  (log.store.extents[b.extentId]?.bind (·.records[b.recordIndex]?)).elim [] (·.payload)

/-- The batches the log holds: its index with the bytes the store has for it. -/
def OrderedLog.contents (log : OrderedLog) : List FetchedBatch :=
  log.locations.map fun b =>
    ⟨b.baseOffset, b.lastOffset, b.epoch, b.timestampMs, log.bytesAt b⟩

/-- A log as it is opened over an empty store whose calls all succeed. -/
def OrderedLog.empty : OrderedLog where
  config := ⟨0, 256, 1073741824, 1000000⟩
  store := ⟨.ofList [(0, (⟨[], false⟩ : Extent))], fun n => ⟨.done, n + 1⟩, 0⟩
  segments := [⟨0, 0, 0, [], none⟩]
  sparseIndex := []
  promisedEpoch := 0
  leaderEpoch := none
  controllerEpoch := 0
  highWatermark := 0
  logStartOffset := 0
  nextOffset := 0
  totalBatches := 0

end Log

end Pepper
