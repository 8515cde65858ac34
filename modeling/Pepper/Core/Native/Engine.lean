import Pepper.Base.Disk
import Pepper.Base.Fallible
import Pepper.Core.Native.Format

/-!
# The Segment Engine

The append-only block engine of `pepper-storage`: an index in memory over
segment files, one writer for each owner shard.

A block belongs to the owner that its identifier hashes to. Data batches are
written, made durable by one barrier for each device and only then indexed; a
tombstone is written and synced at once. Compaction copies the indexed records
of an owner to fresh segments and removes the old files. Recovery replays all
segments in the order of their numbers.

Calls are atomic: an owner's lock is held from the first write to the
publication in the index. The machine may lose power before any input or output
operation; `power` counts the operations that are left. Operations do not fail
otherwise. Reads of a range, the directories themselves, statistics and the
counters that decide when to compact are left out.

## Main definitions

* `SegmentHandle`, `RecordLocation`, `SegmentWriter`, `NativeInner`: The state.
* `putBatch`, `read`, `delete`, `compactOwner`: The calls.
-/

namespace Pepper

namespace Native

open Bytes Fallible

/-- A segment file: its directory, given by location and owner, and the two
    numbers in its name. -/
structure SegmentHandle where
  generation : Nat
  segmentId : Nat
  locationIndex : Nat
  owner : Nat
deriving DecidableEq, Repr

namespace SegmentHandle

/-- Recovery lists the directories location by location and owner by owner and
    sorts the files by their two numbers; the sort is stable. -/
instance instOrd : Ord SegmentHandle where
  compare := compareLex (compareOn generation) (compareLex (compareOn segmentId)
    (compareLex (compareOn locationIndex) (compareOn owner)))

instance instTransOrd : Std.TransOrd SegmentHandle :=
  inferInstanceAs (Std.TransCmp (compareLex (compareOn generation) (compareLex
    (compareOn segmentId) (compareLex (compareOn locationIndex) (compareOn owner)))))

instance instLawfulEqOrd : Std.LawfulEqOrd SegmentHandle where
  eq_of_compare {a b} h := by
    have hlex : (compare a.generation b.generation).then ((compare a.segmentId b.segmentId).then
        ((compare a.locationIndex b.locationIndex).then (compare a.owner b.owner))) = .eq := h
    simp only [Ordering.then_eq_eq, Std.LawfulEqCmp.compare_eq_iff_eq] at hlex
    cases a
    cases b
    simp only [SegmentHandle.mk.injEq]
    exact hlex

end SegmentHandle

/-- Where a block lies. -/
structure RecordLocation (Cid : Type) where
  cid : Cid
  logicalSize : Nat
  storedSize : Nat
  payloadOffset : Nat
  paddedSize : Nat
  segment : SegmentHandle
deriving DecidableEq

/-- The answer for one block of a put. -/
structure NativeRecord (Cid : Type) where
  location : RecordLocation Cid
  alreadyExisted : Bool
deriving DecidableEq

/-- The segment that an owner appends to. -/
structure SegmentWriter where
  handle : SegmentHandle
  offset : Nat
deriving DecidableEq, Repr

/-- The locations are numbered; `capacities` has the greatest number of bytes of
    each, and `device` the file system it is on. -/
structure NativeConfig where
  segmentBytes : Nat
  capacities : List Nat
  device : Nat → Nat
  segmentBytes_lt : segmentBytes < 2 ^ 64

abbrev Index (Cid : Type) [Ord Cid] := BTreeMap Cid (RecordLocation Cid)

/-- The engine and the disk below it. -/
structure NativeInner (Cid : Type) [Ord Cid] where
  owners : Nat
  writers : Nat → Option SegmentWriter
  index : Index Cid
  nextGeneration : Nat
  nextSegmentId : Nat
  allocated : Nat → Nat
  disk : Disk SegmentHandle
  power : Option Nat

/-- Calls on the engine. -/
abbrev EngineM (Cid : Type) [Ord Cid] (α : Type) := Fallible (NativeInner Cid) NativeError α

/-- An order in which a hash map or a directory yields its entries. -/
def Arrangement (α : Type) := { arrange : List α → List α // ∀ l, (arrange l).Perm l }

def Arrangement.same (α : Type) : Arrangement α := ⟨id, fun _ => List.Perm.refl _⟩

section Engine

variable {Cid : Type} [Ord Cid] [Std.TransOrd Cid] [DecidableEq Cid] (p : Primitives Cid)
  (config : NativeConfig)

/-- The owner of a block depends on the number of owners. -/
def ownerFor (owners : Nat) (cid : Cid) : Nat :=
  ofLe ((p.blake3 (p.text cid)).take 8) % owners

/-- A configured count of zero stands for the processors the process sees. -/
def ownerCount (configured parallelism : Nat) : Nat :=
  if configured = 0 then max 1 (min parallelism 32) else configured

/-! ## Input and output -/

/-- One operation on the disk. -/
def tick : EngineM Cid Unit := fun s =>
  match s.power with
  | none => (.ok (), s)
  | some 0 => (.error .powerLost, s)
  | some (n + 1) => (.ok (), { s with power := some n })

/-- An operation on the disk, unless the power is lost before it. -/
def onDisk (change : Disk SegmentHandle → Disk SegmentHandle) : EngineM Cid Unit := do
  tick
  modify fun s => { s with disk := change s.disk }

/-- Write and sync are submitted together, but the power can fail in between. -/
def writeAligned (handle : SegmentHandle) (offset : Nat) (bytes : Bytes) : EngineM Cid Unit := do
  onDisk fun disk => disk.write handle offset bytes
  onDisk fun disk => disk.syncFile handle

def writeAlignedBuffered (handle : SegmentHandle) (offset : Nat) (bytes : Bytes) :
    EngineM Cid Unit :=
  onDisk fun disk => disk.write handle offset bytes

/-- The entries of one directory become durable. -/
def syncNativeDirectory (locationIndex owner : Nat) : EngineM Cid Unit :=
  onDisk fun disk => disk.syncEntries fun handle =>
    handle.locationIndex = locationIndex ∧ handle.owner = owner

/-- One barrier for each device that a staged record is on. -/
def durabilityBarrier (staged : List (RecordLocation Cid)) : EngineM Cid Unit :=
  ForM.forM (staged.map fun record => config.device record.segment.locationIndex).dedup
    fun device => onDisk fun disk => disk.syncFiles fun handle =>
      config.device handle.locationIndex = device

/-- The payload is read with its padding and cut to its size. -/
def readRecord (record : RecordLocation Cid) : EngineM Cid Bytes := do
  let s ← get
  let file ← expect s.disk[record.segment]? .io
  let bytes ← expect (readAt file.bytes record.payloadOffset record.paddedSize) .io
  pure (bytes.take record.storedSize)

/-- The bytes of a block. -/
def read (cid : Cid) : EngineM Cid Bytes := do
  let s ← get
  let record ← expect s.index[cid]? .notFound
  readRecord record

/-! ## Segments -/

/-- A number that no segment and no batch has got yet. -/
def takeSegmentId : EngineM Cid Nat := do
  let s ← get
  modify fun s => { s with nextSegmentId := s.nextSegmentId + 1 }
  pure s.nextSegmentId

def takeGeneration : EngineM Cid Nat := do
  let s ← get
  modify fun s => { s with nextGeneration := s.nextGeneration + 1 }
  pure s.nextGeneration

/-- Whether a location has room for one more segment. -/
def hasRoom (allocated : Nat → Nat) (locationIndex : Nat) : Bool :=
  decide (min (allocated locationIndex + config.segmentBytes) (2 ^ 64 - 1) ≤
    config.capacities.getD locationIndex 0)

/-- The locations are tried in turn, from one that depends on the owner. -/
def reserveSegmentLocation (allocated : Nat → Nat) (owner generation : Nat) : Option Nat :=
  let count := config.capacities.length
  ((List.range count).map fun offset => ((owner + generation) % count + offset) % count).find?
    (hasRoom config allocated)

/-- Take the capacity of a segment. -/
def allocateSegment (locationIndex : Nat) : EngineM Cid Unit :=
  modify fun s => { s with
    allocated := Function.update s.allocated locationIndex
      (s.allocated locationIndex + config.segmentBytes) }

/-- Give the capacity back. -/
def releaseSegment (locationIndex : Nat) : EngineM Cid Unit :=
  modify fun s => { s with
    allocated := Function.update s.allocated locationIndex
      (s.allocated locationIndex - config.segmentBytes) }

def setWriter (owner : Nat) (writer : Option SegmentWriter) : EngineM Cid Unit :=
  modify fun s => { s with writers := Function.update s.writers owner writer }

/-- Make the file and give it its length. -/
def createSegmentFile (handle : SegmentHandle) : EngineM Cid Unit := do
  onDisk fun disk => disk.create handle
  onDisk fun disk => disk.allocate handle config.segmentBytes

/-- Preallocate the file and write its header. -/
def initializeSegment (handle : SegmentHandle) : EngineM Cid Unit := do
  let header ← ofExcept (segmentHeader p handle.owner handle.generation handle.segmentId)
  writeAligned handle 0 header
  syncNativeDirectory handle.locationIndex handle.owner

/-- Start a new segment. The two numbers are used up even if that fails. -/
def createSegment (owner : Nat) : EngineM Cid SegmentWriter := do
  let generation ← takeGeneration
  let segmentId ← takeSegmentId
  let s ← get
  let locationIndex ← expect (reserveSegmentLocation config s.allocated owner generation)
    (.capacityExceeded config.segmentBytes)
  allocateSegment config locationIndex
  let handle : SegmentHandle := ⟨generation, segmentId, locationIndex, owner⟩
  match ← attempt (createSegmentFile config handle) with
  | .error e =>
    releaseSegment config locationIndex
    fail e
  | .ok _ =>
    match ← attempt (initializeSegment p handle) with
    | .error e =>
      -- Whether the file could be removed is not looked at.
      let _ ← attempt (onDisk fun disk => disk.unlink handle)
      releaseSegment config locationIndex
      fail e
    | .ok _ =>
      let writer : SegmentWriter := ⟨handle, segmentHeaderBytes⟩
      setWriter owner (some writer)
      pure writer

/-- A writer with room for the bytes. -/
def ensureWriter (owner required : Nat) : EngineM Cid SegmentWriter := do
  require (required + segmentHeaderBytes ≤ config.segmentBytes)
    (.batchExceedsSegment required config.segmentBytes)
  let s ← get
  match s.writers owner with
  | some writer =>
    if writer.offset + required ≤ config.segmentBytes then pure writer
    else createSegment p config owner
  | none => createSegment p config owner

/-! ## Writing -/

/-- How many of the blocks fit in one batch, given the size it has already. -/
def chunkCount (maximumBatch : Nat) : Nat → List (EncodedBlock Cid) → Nat
  | _, [] => 0
  | encodedSize, block :: rest =>
    let recordSize := recordHeaderBytes + alignUp block.bytes.length
    if maximumBatch < encodedSize + recordSize then 0
    else chunkCount maximumBatch (encodedSize + recordSize) rest + 1

/-- The records of a batch that starts at an offset. -/
def batchLocations (handle : SegmentHandle) (start : Nat) (blocks : List (EncodedBlock Cid)) :
    List (RecordLocation Cid) :=
  (blocks.zip (payloadOffsets start blocks)).map fun (block, payloadOffset) =>
    { cid := block.cid
      logicalSize := block.logicalSize.toNat
      storedSize := block.bytes.length
      payloadOffset := payloadOffset
      paddedSize := alignUp block.bytes.length
      segment := handle }

/-- Write one batch. It is neither durable nor indexed yet. -/
def writeChunk (owner : Nat) (chunk : List (EncodedBlock Cid)) :
    EngineM Cid (List (RecordLocation Cid)) := do
  let batchId ← takeSegmentId
  let encoded ← ofExcept (encodeBatch p (batchId % 2 ^ 64) chunk)
  let writer ← ensureWriter p config owner encoded.length
  writeAlignedBuffered writer.handle writer.offset encoded
  setWriter owner (some { writer with offset := writer.offset + encoded.length })
  pure (batchLocations writer.handle writer.offset chunk)

def maximumBatch : Nat :=
  config.segmentBytes - segmentHeaderBytes

/-- Write blocks batch by batch; a batch takes at least one of them, so there are
    at most as many batches as blocks. -/
def writeChunks (owner : Nat) : Nat → List (EncodedBlock Cid) →
    EngineM Cid (List (RecordLocation Cid))
  | _, [] => pure []
  | 0, _ => pure []
  | rounds + 1, first :: rest =>
    match chunkCount (maximumBatch config) recordHeaderBytes (first :: rest) with
    | 0 => fail (.blockExceedsSegment first.bytes.length (maximumBatch config))
    | count + 1 => do
        let written ← writeChunk p config owner (first :: rest.take count)
        let more ← writeChunks owner rounds (rest.drop count)
        pure (written ++ more)

/-- Append blocks to the segments of an owner. -/
def writeDataExclusive (owner : Nat) (blocks : List (EncodedBlock Cid)) :
    EngineM Cid (List (RecordLocation Cid)) :=
  writeChunks p config owner blocks.length blocks

/-- Enter records in the index. -/
def installRecords (staged : List (RecordLocation Cid)) : EngineM Cid Unit :=
  modify fun s => { s with
    index := staged.foldl (fun index record => index.insert record.cid record) s.index }

/-- The blocks that are not indexed, each once. -/
def missingBlocks (index : Index Cid) : List Cid → List (EncodedBlock Cid) →
    List (EncodedBlock Cid)
  | _, [] => []
  | seen, block :: rest =>
    if index.contains block.cid || decide (block.cid ∈ seen) then missingBlocks index seen rest
    else block :: missingBlocks index (block.cid :: seen) rest

/-- The answers of a put: what was indexed before, and what has been staged. Of
    two blocks with one identifier the second counts as existing. -/
def putResults (index : Index Cid) (staged : List (RecordLocation Cid)) :
    List Cid → List (EncodedBlock Cid) → Option (List (NativeRecord Cid))
  | _, [] => some []
  | seen, block :: rest => do
      let record ← match index[block.cid]? with
        | some existing => some ⟨existing, true⟩
        | none => (staged.find? fun record => record.cid = block.cid).map fun record =>
          ⟨record, decide (block.cid ∈ seen)⟩
      let more ← putResults index staged (block.cid :: seen) rest
      pure (record :: more)

/-- Write the missing blocks owner by owner. -/
def writeOwners (missing : List (EncodedBlock Cid)) (owners : Nat) :
    List Nat → EngineM Cid (List (RecordLocation Cid))
  | [] => pure []
  | owner :: rest => do
      let written ← writeDataExclusive p config owner
        (missing.filter fun block => ownerFor p owners block.cid = owner)
      let more ← writeOwners missing owners rest
      pure (written ++ more)

/-- Blocks that are missing are written, made durable and indexed. -/
def putBatch (blocks : List (EncodedBlock Cid)) : EngineM Cid (List (NativeRecord Cid)) := do
  let s ← get
  let staged ← writeOwners p config (missingBlocks s.index [] blocks) s.owners
    (List.range s.owners)
  durabilityBarrier config staged
  installRecords staged
  expect (putResults s.index staged [] blocks) .batchResultMissing

/-- A tombstone is durable before the index changes. -/
def appendTombstone (owner : Nat) (cid : Cid) : EngineM Cid Unit := do
  let batchId ← takeSegmentId
  let encoded ← ofExcept (encodeTombstoneBatch p (batchId % 2 ^ 64) cid)
  let writer ← ensureWriter p config owner encoded.length
  writeAligned writer.handle writer.offset encoded
  setWriter owner (some { writer with offset := writer.offset + encoded.length })
  modify fun s => { s with index := s.index.erase cid }

/-- Deleting what is not indexed does nothing. -/
def delete (cid : Cid) : EngineM Cid Unit := do
  let s ← get
  if s.index.contains cid then appendTombstone p config (ownerFor p s.owners cid) cid
  else pure ()

/-! ## Compaction -/

def compactionBufferBytes : Nat := 64 * 1024 * 1024

/-- How many records one round of compaction reads. The first one is always
    taken. -/
def roundCount : Nat → List (RecordLocation Cid) → Nat
  | _, [] => 0
  | buffered, record :: rest =>
    if compactionBufferBytes < buffered + record.storedSize then 0
    else roundCount (buffered + record.storedSize) rest + 1

/-- Read records back as blocks. -/
def readBlocks : List (RecordLocation Cid) → EngineM Cid (List (EncodedBlock Cid))
  | [] => pure []
  | record :: rest => do
      let bytes ← readRecord record
      let more ← readBlocks rest
      pure (⟨record.cid, UInt64.ofNat record.logicalSize, bytes⟩ :: more)

/-- Copy records to the owner's new segments, round by round. -/
def copyRounds (owner : Nat) : Nat → List (RecordLocation Cid) → EngineM Cid Unit
  | _, [] => pure ()
  | 0, _ => pure ()
  | rounds + 1, first :: rest => do
      let blocks ← readBlocks (first :: rest.take (roundCount first.storedSize rest))
      let staged ← writeDataExclusive p config owner blocks
      durabilityBarrier config staged
      installRecords staged
      copyRounds owner rounds (rest.drop (roundCount first.storedSize rest))

/-- Write the live records of an owner again. -/
def copyRecords (owner : Nat) (snapshot : List (RecordLocation Cid)) : EngineM Cid Unit :=
  copyRounds p config owner snapshot.length snapshot

/-- The records of an owner. -/
def ownerRecords (index : Index Cid) (owner : Nat) : List (RecordLocation Cid) :=
  (index.toList.map Prod.snd).filter fun record => record.segment.owner = owner

/-- The segments of an owner that are listed. -/
def ownerSegmentPaths (disk : Disk SegmentHandle) (owner : Nat) : List SegmentHandle :=
  disk.visible.filter fun handle => handle.owner = owner

/-- The capacity is given back before the directory is synced. -/
def unlinkSegment (handle : SegmentHandle) : EngineM Cid Unit := do
  onDisk fun disk => disk.unlink handle
  releaseSegment config handle.locationIndex

/-- Rewrite the owner's records and remove the segments they were in. The two
    arrangements are the orders of the index and of the directories. -/
def compactOwner (owner : Nat) (records : Arrangement (RecordLocation Cid))
    (paths : Arrangement SegmentHandle) : EngineM Cid Unit := do
  setWriter owner none
  let s ← get
  let oldPaths := paths.1 (ownerSegmentPaths s.disk owner)
  copyRecords p config owner (records.1 (ownerRecords s.index owner))
  let s' ← get
  let newPaths : List SegmentHandle := (ownerRecords s'.index owner).map (·.segment)
  let dropped := oldPaths.filter fun handle => !newPaths.contains handle
  ForM.forM dropped (unlinkSegment config)
  ForM.forM (dropped.map (·.locationIndex)).dedup fun locationIndex =>
    syncNativeDirectory locationIndex owner

end Engine

end Native

end Pepper
