import Pepper.Core.OrderedLog

/-!
# Opening an Ordered Log

How the index of a log is rebuilt from its store, as `OrderedLog::open` of
`pepper-ordered-log` does it: every extent is read back, the extents are put in
order, the one unsealed extent becomes the active segment, and what lies above
the watermark given by the caller is cut off.

## Main definitions

* `RecoveryState`: What the caller knows: epoch, watermark and log start.
* `scanExtent`, `scanExtents`, `scanStore`: Reading extents back.
* `truncateActiveTo`: Cutting the active segment at a batch boundary.
* `openLog`: The whole way from a store to a log.
-/

namespace Pepper

namespace Log

open ExtentStore Fallible

/-- What the caller knows of the log. -/
structure RecoveryState where
  promisedEpoch : Nat
  highWatermark : Nat
  logStartOffset : Nat
deriving DecidableEq, Repr

/-- Calls on a store that may fail for the log's reasons. -/
abbrev OpenM (α : Type) := Fallible Store LogError α

def fromStore {α : Type} (x : StoreM α) : OpenM α :=
  zoom (fun store => store) (fun _ store => store) LogError.extent x

/-- The locations of an extent's records, in order from the given index. -/
def recordLocations (extentId : Nat) : Nat → List Record → List BatchLocation
  | _, [] => []
  | index, record :: rest =>
    ⟨record.identity.baseOffset, record.identity.lastOffset, record.identity.epoch,
      record.identity.timestampMs, extentId, index, record.payload.length⟩ ::
      recordLocations extentId (index + 1) rest

/-- No batch starts before the previous one has ended; gaps are allowed. -/
def contiguous : List BatchLocation → Bool
  | [] => true
  | [_] => true
  | a :: b :: rest => decide (a.lastOffset < b.baseOffset) && contiguous (b :: rest)

def payloadSum (batches : List BatchLocation) : Nat :=
  (batches.map (·.encodedLen)).sum

/-- The segment of an extent that has been read back. -/
def scannedSegment (extentId : Nat) (extent : Extent) : Segment :=
  let batches := recordLocations extentId 0 extent.records
  let segment : Segment :=
    ⟨extentId, batches.head?.elim 0 (·.baseOffset), payloadSum batches, batches, none⟩
  { segment with sealed := if extent.sealed then some (manifestOf segment) else none }

/-- The segment of an extent, from its records. -/
def scanExtent (config : LogConfig) (extentId : Nat) : OpenM Segment := do
  let extent ← fromStore (Store.recover extentId)
  require (∀ record ∈ extent.records, record.identity.partitionKey = config.partitionKey)
    (.foreignPartition extentId)
  require (contiguous (recordLocations extentId 0 extent.records) = true) .offsetGap
  pure (scannedSegment extentId extent)

def scanExtents (config : LogConfig) : List Nat → OpenM (List Segment)
  | [] => pure []
  | extentId :: rest => do
      let segment ← scanExtent config extentId
      let segments ← scanExtents config rest
      pure (segment :: segments)

/-- Segments with batches come first, by base offset; ties go by extent. -/
def SegmentLe (a b : Segment) : Prop :=
  if a.batches.isEmpty = b.batches.isEmpty then
    a.baseOffset < b.baseOffset ∨ a.baseOffset = b.baseOffset ∧ a.extentId ≤ b.extentId
  else a.batches.isEmpty = false

instance instDecidableSegmentLe : DecidableRel SegmentLe := fun a b =>
  inferInstanceAs (Decidable (if a.batches.isEmpty = b.batches.isEmpty then _ else _))

/-- An empty store gets a first extent. -/
def withFirstExtent (highWatermark : Nat) (segments : List Segment) : OpenM (List Segment) :=
  if segments.isEmpty then do
    let extentId ← fromStore Store.create
    pure [⟨extentId, highWatermark, 0, [], none⟩]
  else pure segments

/-- The unsealed segment goes to the end. -/
def activeLast (segments : List Segment) : List Segment :=
  segments.filter (fun s => s.sealed.isSome) ++ segments.filter fun s => s.sealed.isNone

/-- Where an empty active segment starts: behind the last batch before it. -/
def inferredBase (highWatermark : Nat) (before : List Segment) : Nat :=
  (before.reverse.find? fun s => !s.batches.isEmpty).elim highWatermark Segment.endOffset

/-- Fill in the base of an active segment without batches. -/
def inferBase (highWatermark : Nat) (segments : List Segment) : List Segment :=
  match segments.getLast? with
  | none => segments
  | some active =>
    if active.batches.isEmpty then
      segments.dropLast ++
        [{ active with baseOffset := inferredBase highWatermark segments.dropLast }]
    else segments

/-- The end of the last batch, or the watermark of a log without batches. -/
def scannedEnd (highWatermark : Nat) (segments : List Segment) : Nat :=
  (segments.flatMap (·.batches)).getLast?.elim highWatermark fun b => wrappingSucc b.lastOffset

/-- Cut the active segment. The offset has to be where a batch starts or the
    segment ends, and not below the watermark. -/
def truncateActiveTo (truncateTo : Nat) : LogM Unit := do
  let log ← get
  require (log.highWatermark ≤ truncateTo ∧ truncateTo ≤ log.nextOffset)
    (.invalidTruncateOffset truncateTo)
  let segment ← active
  require (segment.sealed = none ∧ segment.baseOffset ≤ truncateTo)
    (.invalidTruncateOffset truncateTo)
  let kept := segment.batches.takeWhile fun b => b.lastOffset < truncateTo
  let boundary := (segment.batches[kept.length]?).elim segment.endOffset (·.baseOffset)
  require (boundary = truncateTo) (.invalidTruncateOffset truncateTo)
  if kept.length ≠ segment.batches.length then do
    onStore (Store.truncate segment.extentId kept.length)
    modify fun log =>
      log.setActive { segment with batches := kept, payloadBytes := payloadSum kept }
  else pure ()
  modify fun log => { log with nextOffset := truncateTo }

/-- The sparse index over all batches, counted from the given ordinal. -/
def sparseEntries (stride : Nat) : Nat → List BatchLocation → List SparseIndexEntry
  | _, [] => []
  | ordinal, b :: rest =>
    (if ordinal % stride = 0 then [⟨b.baseOffset, b.extentId, b.recordIndex⟩] else []) ++
      sparseEntries stride (ordinal + 1) rest

def OrderedLog.rebuildSparseIndex (log : OrderedLog) : OrderedLog :=
  { log with
    sparseIndex := sparseEntries log.config.sparseIndexStride 0 log.locations
    totalBatches := log.locations.length }

/-- The log before anything is cut off. -/
def scannedLog (config : LogConfig) (recovery : RecoveryState) (segments : List Segment)
    (store : Store) : OrderedLog where
  config := config
  store := store
  segments := segments
  sparseIndex := []
  promisedEpoch := recovery.promisedEpoch
  leaderEpoch := none
  controllerEpoch := recovery.promisedEpoch
  highWatermark := recovery.highWatermark
  logStartOffset := recovery.logStartOffset
  nextOffset := scannedEnd recovery.highWatermark segments
  totalBatches := 0

/-- Cut the scanned log at the watermark and rebuild its sparse index. -/
def cutToWatermark (log : OrderedLog) : OpenM OrderedLog :=
  fun _ =>
    match truncateActiveTo log.highWatermark log with
    | (.error e, log') => (.error e, log'.store)
    | (.ok _, log') => (.ok log'.rebuildSparseIndex, log'.store)

/-- Read all extents back and put their segments in order. -/
def scanStore (config : LogConfig) (highWatermark : Nat) : OpenM (List Segment) := do
  let extentIds ← fromStore Store.extentIds
  let scanned ← scanExtents config extentIds
  let sorted := scanned.insertionSort SegmentLe
  require (contiguous (sorted.flatMap (·.batches)) = true) .offsetGap
  let segments ← withFirstExtent highWatermark sorted
  let unsealed := (segments.filter fun s => s.sealed.isNone).length
  require (unsealed = 1) (.activeExtentCount unsealed)
  pure (inferBase highWatermark (activeLast segments))

/-- Read all extents, order them and cut off what is not committed. -/
def openLog (config : LogConfig) (recovery : RecoveryState) : OpenM OrderedLog := do
  require (config.sparseIndexStride ≠ 0 ∧ config.maximumSegmentBytes ≠ 0 ∧
      config.maximumSegmentBatches ≠ 0)
    .invalidConfiguration
  let segments ← scanStore config recovery.highWatermark
  let logEnd := scannedEnd recovery.highWatermark segments
  require (recovery.highWatermark ≤ logEnd ∧ recovery.logStartOffset ≤ recovery.highWatermark)
    (.invalidRecoveryPoint recovery.logStartOffset recovery.highWatermark logEnd)
  require (∀ s ∈ segments, s.sealed.isSome = true → s.endOffset ≤ recovery.highWatermark)
    .uncommittedSealedSegment
  let store ← get
  cutToWatermark (scannedLog config recovery segments store)

end Log

end Pepper
