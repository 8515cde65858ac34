import Pepper.Core.Native.Engine

/-!
# Recovery of the Segment Engine

What the engine does when it is opened: read every segment from the start and
apply the batches whose commit record is valid.

Damage within a segment ends the reading of that segment. The block after the
last valid batch is then overwritten with zeros, so that nothing behind it can
come back. A segment without a valid header, or more segments than a location
has room for, make the whole open fail.

Each round of the loop moves forward by at least a header, so the source's
check that it did is left out.

## Main definitions

* `Scan`, `scanRecord`, `scan`: Reading the records of a segment.
* `recoverSegment`, `recover`, `openEngine`: Opening the engine.
-/

namespace Pepper

namespace Native

open Bytes Fallible

structure RecoveredRecord (Cid : Type) where
  parsed : ParsedHeader Cid
  payloadOffset : Nat

/-- The variables of the loop over the records of a segment. -/
structure Scan (Cid : Type) [Ord Cid] where
  offset : Nat
  committedEnd : Nat
  tornTail : Bool
  pending : BTreeMap Nat (List (RecoveredRecord Cid))
  index : Index Cid

/-- One round of the loop ends the reading or goes on. -/
inductive Round (α : Type) where
  | stop (a : α)
  | next (a : α)

section Recovery

variable {Cid : Type} [Ord Cid] [Std.TransOrd Cid] (p : Primitives Cid)
  (config : NativeConfig)

def Scan.torn (scan : Scan Cid) : Scan Cid :=
  { scan with tornTail := true }

/-- Keep a record until the commit record of its batch. -/
def Scan.hold (scan : Scan Cid) (record : RecoveredRecord Cid) (next : Nat) : Scan Cid :=
  { scan with
    offset := next
    pending := scan.pending.insert record.parsed.batchId
      (scan.pending[record.parsed.batchId]?.getD [] ++ [record]) }

/-- Apply one record of a committed batch. -/
def applyRecord (handle : SegmentHandle) (index : Index Cid) (record : RecoveredRecord Cid) :
    Index Cid :=
  if record.parsed.kind = recordTombstone then index.erase record.parsed.cid
  else
    index.insert record.parsed.cid
      { cid := record.parsed.cid
        logicalSize := record.parsed.logicalSize
        storedSize := record.parsed.storedSize
        payloadOffset := record.payloadOffset
        paddedSize := record.parsed.paddedSize
        segment := handle }

/-- The commit record of a batch. -/
def scanCommit (handle : SegmentHandle) (scan : Scan Cid) (parsed : ParsedHeader Cid)
    (next : Nat) : Round (Scan Cid) :=
  match scan.pending[parsed.batchId]? with
  | none => .stop scan.torn
  | some records =>
    if records.length ≠ parsed.logicalSize ∨
        batchDigest p (records.map (·.parsed)) ≠ parsed.commitDigest then
      .stop { scan.torn with pending := scan.pending.erase parsed.batchId }
    else
      .next { scan with
        offset := next
        committedEnd := next
        pending := scan.pending.erase parsed.batchId
        index := records.foldl (applyRecord handle) scan.index }

/-- A data record with the bytes after its header. -/
def scanData (bytes : Bytes) (scan : Scan Cid) (parsed : ParsedHeader Cid) (start : Nat) :
    Round (Scan Cid) :=
  if parsed.paddedSize < parsed.storedSize ∨ parsed.paddedSize = 0 ∨
      parsed.paddedSize % alignment ≠ 0 ∨ config.segmentBytes < start + parsed.paddedSize then
    .stop scan.torn
  else
    match readAt bytes start parsed.paddedSize with
    | none => .stop scan.torn
    | some payload =>
      if (p.crc32c (payload.take parsed.storedSize)).toNat ≠ parsed.payloadCrc then
        .stop scan.torn
      else .next (scan.hold ⟨parsed, start⟩ (start + parsed.paddedSize))

/-- What a record is for is in its header. -/
def scanParsed (handle : SegmentHandle) (bytes : Bytes) (scan : Scan Cid)
    (parsed : ParsedHeader Cid) (start : Nat) : Round (Scan Cid) :=
  if parsed.kind = recordData then scanData p config bytes scan parsed start
  else if parsed.kind = recordTombstone then .next (scan.hold ⟨parsed, start⟩ start)
  else if parsed.kind = recordCommit then scanCommit p handle scan parsed start
  else .stop scan.torn

/-- One round of the loop, at an offset where a header fits. -/
def scanRecord (handle : SegmentHandle) (bytes : Bytes) (scan : Scan Cid) : Round (Scan Cid) :=
  match readAt bytes scan.offset recordHeaderBytes with
  | none => .stop scan.torn
  | some header =>
    if header = zeros recordHeaderBytes then
      .stop { scan with tornTail := !scan.pending.isEmpty }
    else
      match parseRecordHeader p header with
      | none => .stop scan.torn
      | some parsed =>
        scanParsed p config handle bytes scan parsed (scan.offset + recordHeaderBytes)

omit [Std.TransOrd Cid] in
theorem scanData_next {bytes : Bytes} {scan next : Scan Cid} {parsed : ParsedHeader Cid}
    {start : Nat} (h : scanData p config bytes scan parsed start = .next next) :
    next = scan.hold ⟨parsed, start⟩ (start + parsed.paddedSize) := by
  unfold scanData at h
  repeat' split at h
  case h_2.isFalse =>
    rw [Round.next.injEq] at h
    exact h.symm
  all_goals cases h

theorem scanCommit_next {handle : SegmentHandle} {scan next : Scan Cid}
    {parsed : ParsedHeader Cid} {stop : Nat}
    (h : scanCommit p handle scan parsed stop = .next next) :
    next.offset = stop := by
  unfold scanCommit at h
  repeat' split at h
  case h_2.isFalse =>
    rw [Round.next.injEq] at h
    rw [← h]
  all_goals cases h

theorem scanParsed_advances {handle : SegmentHandle} {bytes : Bytes} {scan next : Scan Cid}
    {parsed : ParsedHeader Cid} {start : Nat}
    (h : scanParsed p config handle bytes scan parsed start = .next next) :
    start ≤ next.offset := by
  unfold scanParsed at h
  by_cases hdata : parsed.kind = recordData
  · rw [if_pos hdata] at h
    rw [scanData_next p config h]
    exact Nat.le_add_right _ _
  rw [if_neg hdata] at h
  by_cases htombstone : parsed.kind = recordTombstone
  · rw [if_pos htombstone, Round.next.injEq] at h
    rw [← h, Scan.hold]
  rw [if_neg htombstone] at h
  by_cases hcommit : parsed.kind = recordCommit
  · rw [if_pos hcommit] at h
    exact (scanCommit_next p h).ge
  · rw [if_neg hcommit] at h
    cases h

theorem scanRecord_advances {handle : SegmentHandle} {bytes : Bytes} {scan next : Scan Cid}
    (h : scanRecord p config handle bytes scan = .next next) :
    scan.offset + recordHeaderBytes ≤ next.offset := by
  unfold scanRecord at h
  repeat' split at h
  case h_2 => exact scanParsed_advances p config h
  all_goals cases h

/-- The loop over the records of a segment. -/
def scan (handle : SegmentHandle) (bytes : Bytes) (st : Scan Cid) : Scan Cid :=
  if _hroom : st.offset + recordHeaderBytes ≤ config.segmentBytes then
    match _hround : scanRecord p config handle bytes st with
    | .stop last => last
    | .next next => scan handle bytes next
  else st
termination_by config.segmentBytes - st.offset
decreasing_by
  have hnext := scanRecord_advances p config _hround
  have hpos : 0 < recordHeaderBytes := by decide
  omega

/-- Read a segment into the index; the answer is the offset to go on from. -/
def recoverSegment (handle : SegmentHandle) : EngineM Cid Nat := do
  let s ← get
  let file ← expect s.disk[handle]? .io
  let header ← expect (readAt file.bytes 0 segmentHeaderBytes) .io
  require (validateSegmentHeader p header handle.owner handle.generation handle.segmentId = true)
    .invalidSegmentHeader
  let result := scan p config handle file.bytes
    ⟨segmentHeaderBytes, segmentHeaderBytes, false, ∅, s.index⟩
  modify fun s => { s with index := result.index }
  if (result.tornTail || !result.pending.isEmpty) &&
      decide (result.committedEnd + recordHeaderBytes ≤ config.segmentBytes) then
    writeAligned handle result.committedEnd (zeros recordHeaderBytes)
  else pure ()
  pure result.committedEnd

/-- Recover one segment. The writers end up at the newest segments. -/
def recoverFile (handle : SegmentHandle) : EngineM Cid Unit := do
  let s ← get
  require (hasRoom config s.allocated handle.locationIndex = true)
    (.capacityExceeded config.segmentBytes)
  allocateSegment config handle.locationIndex
  let stop ← recoverSegment p config handle
  setWriter handle.owner (some ⟨handle, stop⟩)
  modify fun s => { s with
    nextGeneration := max s.nextGeneration (handle.generation + 1)
    nextSegmentId := max s.nextSegmentId (handle.segmentId + 1) }

/-- The directories of other owners than those of this engine are not read. -/
def recover : EngineM Cid Unit := do
  let s ← get
  ForM.forM (s.disk.visible.filter fun handle => handle.owner < s.owners)
    (recoverFile p config)
  -- A segment without room for anything is no use as a writer.
  modify fun s => { s with
    writers := fun owner => (s.writers owner).filter fun writer =>
      decide (writer.offset < config.segmentBytes) }

/-- The engine before it has read anything. -/
def freshEngine (owners : Nat) (disk : Disk SegmentHandle) (power : Option Nat) :
    NativeInner Cid where
  owners := owners
  writers := fun _ => none
  index := ∅
  nextGeneration := 1
  nextSegmentId := 1
  allocated := fun _ => 0
  disk := disk
  power := power

def openEngine (owners : Nat) (disk : Disk SegmentHandle) (power : Option Nat) :
    Except NativeError Unit × NativeInner Cid :=
  recover p config (freshEngine owners disk power)

end Recovery

end Native

end Pepper
