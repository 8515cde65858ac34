import Pepper.Base.Bytes
import Pepper.Base.Collections

/-!
# The Segment Format

The bytes of a native segment: a header block, then batches of aligned data and
tombstone records, each batch closed by a commit record with a digest over the
records before it.

The checksum, the hash and the text of a content identifier come from
elsewhere. `Primitives` collects them with the few facts about them that the
format relies on.

Numbers of the source's fixed-width types are natural numbers here and are cut
to their width where they are written.

## Main definitions

* `Primitives`: Checksum, hash and identifier text.
* `recordHeader`, `parseRecordHeader`: One record header and its reader.
* `segmentHeader`, `validateSegmentHeader`: The first block of a segment.
* `encodeBatch`, `encodeTombstoneBatch`: What an append writes.
-/

namespace Pepper

namespace Native

open Bytes

def alignment : Nat := 4096

def segmentHeaderBytes : Nat := alignment

def recordHeaderBytes : Nat := alignment

/-- `PEPNVME1` -/
def segmentMagic : Bytes := [0x50, 0x45, 0x50, 0x4E, 0x56, 0x4D, 0x45, 0x31]

/-- `PEPNVREC` -/
def recordMagic : Bytes := [0x50, 0x45, 0x50, 0x4E, 0x56, 0x52, 0x45, 0x43]

def formatVersion : Nat := 1

def recordData : UInt8 := 1

def recordTombstone : UInt8 := 2

def recordCommit : UInt8 := 3

def maxCidBytes : Nat := 512

/-- The next multiple of the alignment. -/
def alignUp (value : Nat) : Nat :=
  (value + (alignment - 1)) / alignment * alignment

/-- What the format takes from elsewhere. `raw` is the identifier of a byte
    string under the raw codec. -/
structure Primitives (Cid : Type) where
  text : Cid → Bytes
  parse : Bytes → Option Cid
  raw : Bytes → Cid
  crc32c : Bytes → UInt32
  blake3 : Bytes → Bytes
  parse_text : ∀ cid, parse (text cid) = some cid
  text_pos : ∀ cid, 0 < (text cid).length
  text_le : ∀ cid, (text cid).length ≤ maxCidBytes
  blake3_length : ∀ bytes, (blake3 bytes).length = 32

inductive NativeError where
  | ownerExceedsU32
  | cidExceedsRecordLimit
  | blockExceedsSegment (size maximum : Nat)
  | batchExceedsSegment (size segmentBytes : Nat)
  | capacityExceeded (size : Nat)
  | invalidSegmentHeader
  | batchResultMissing
  | notFound
  | io
  /-- The machine stops; no call returns this. -/
  | powerLost
deriving DecidableEq, Repr

/-- The stored form of a block. -/
structure EncodedBlock (Cid : Type) where
  cid : Cid
  logicalSize : UInt64
  bytes : Bytes
deriving DecidableEq

/-- The fields of a record header. -/
structure ParsedHeader (Cid : Type) where
  kind : UInt8
  batchId : Nat
  cid : Cid
  logicalSize : Nat
  storedSize : Nat
  paddedSize : Nat
  payloadCrc : Nat
  commitDigest : Bytes
deriving DecidableEq

variable {Cid : Type} (p : Primitives Cid)

/-- The fields of a record header and where they start. Only commit records have
    a digest; the others leave that field zero. -/
def headerFields (parsed : ParsedHeader Cid) : List (Nat × Bytes) :=
  [(0, recordMagic), (8, le 2 formatVersion), (10, [parsed.kind]), (16, le 8 parsed.batchId),
    (24, le 8 parsed.logicalSize), (32, le 8 parsed.storedSize), (40, le 8 parsed.paddedSize),
    (48, le 2 (p.text parsed.cid).length), (52, le 4 parsed.payloadCrc),
    (64, p.text parsed.cid), (576, parsed.commitDigest)]

/-- The header without its own checksum. -/
def uncheckedHeader (parsed : ParsedHeader Cid) : Bytes :=
  patchAll (zeros recordHeaderBytes) (headerFields p parsed)

/-- The header with its checksum filled in. -/
def sealedHeader (parsed : ParsedHeader Cid) : Bytes :=
  patch (uncheckedHeader p parsed) 56 (le 4 (p.crc32c (uncheckedHeader p parsed)).toNat)

/-- One aligned block with the fields of a record. -/
def recordHeader (parsed : ParsedHeader Cid) : Except NativeError Bytes :=
  if maxCidBytes < (p.text parsed.cid).length then .error .cidExceedsRecordLimit
  else .ok (sealedHeader p parsed)

/-- The checksum in the header is that of the other bytes. -/
def headerIntact (header : Bytes) : Prop :=
  ofLe (slice header 56 4) = (p.crc32c (patch header 56 (zeros 4))).toNat

instance instDecidableHeaderIntact (header : Bytes) : Decidable (headerIntact p header) :=
  inferInstanceAs (Decidable (_ = _))

/-- Every way a header can be wrong is the same to the caller. -/
def parseRecordHeader (header : Bytes) : Option (ParsedHeader Cid) :=
  if header.length ≠ recordHeaderBytes ∨ slice header 0 8 ≠ recordMagic then none
  else if ¬ headerIntact p header ∨ ofLe (slice header 8 2) ≠ formatVersion then none
  else
    let cidLength := ofLe (slice header 48 2)
    if cidLength = 0 ∨ maxCidBytes < cidLength then none
    else
      (p.parse (slice header 64 cidLength)).map fun cid =>
        { kind := header.getD 10 0
          batchId := ofLe (slice header 16 8)
          cid := cid
          logicalSize := ofLe (slice header 24 8)
          storedSize := ofLe (slice header 32 8)
          paddedSize := ofLe (slice header 40 8)
          payloadCrc := ofLe (slice header 52 4)
          commitDigest := slice header 576 32 }

/-- The digest covers what identifies a record's contents. -/
def batchDigest (records : List (ParsedHeader Cid)) : Bytes :=
  p.blake3 <| (records.map fun record =>
    [record.kind] ++ p.text record.cid ++ le 8 record.logicalSize ++ le 8 record.storedSize ++
      le 4 record.payloadCrc).flatten

/-- The header of a block's data record. -/
def dataHeader (batchId : Nat) (block : EncodedBlock Cid) : ParsedHeader Cid where
  kind := recordData
  batchId := batchId
  cid := block.cid
  logicalSize := block.logicalSize.toNat
  storedSize := block.bytes.length
  paddedSize := alignUp block.bytes.length
  payloadCrc := (p.crc32c block.bytes).toNat
  commitDigest := zeros 32

def tombstoneHeader (batchId : Nat) (cid : Cid) : ParsedHeader Cid where
  kind := recordTombstone
  batchId := batchId
  cid := cid
  logicalSize := 0
  storedSize := 0
  paddedSize := 0
  payloadCrc := 0
  commitDigest := zeros 32

/-- The commit record that closes a batch. -/
def commitHeader (batchId : Nat) (records : List (ParsedHeader Cid)) : ParsedHeader Cid where
  kind := recordCommit
  batchId := batchId
  cid := p.raw (batchDigest p records)
  logicalSize := records.length
  storedSize := 0
  paddedSize := 0
  payloadCrc := 0
  commitDigest := batchDigest p records

/-- A data record: its header, the bytes, and zeros up to the alignment. -/
def encodeData (batchId : Nat) (block : EncodedBlock Cid) : Except NativeError Bytes := do
  let header ← recordHeader p (dataHeader p batchId block)
  pure (header ++ block.bytes ++ zeros (alignUp block.bytes.length - block.bytes.length))

/-- Data records and the commit record that closes them. -/
def encodeBatch (batchId : Nat) (blocks : List (EncodedBlock Cid)) : Except NativeError Bytes := do
  let records ← blocks.mapM (encodeData p batchId)
  let commit ← recordHeader p (commitHeader p batchId (blocks.map (dataHeader p batchId)))
  pure (records.flatten ++ commit)

/-- Where the payloads of a batch start, relative to a position. -/
def payloadOffsets : Nat → List (EncodedBlock Cid) → List Nat
  | _, [] => []
  | start, block :: rest =>
    (start + recordHeaderBytes) ::
      payloadOffsets (start + recordHeaderBytes + alignUp block.bytes.length) rest

def encodeTombstoneBatch (batchId : Nat) (cid : Cid) : Except NativeError Bytes := do
  let tombstone ← recordHeader p (tombstoneHeader batchId cid)
  let commit ← recordHeader p (commitHeader p batchId [tombstoneHeader batchId cid])
  pure (tombstone ++ commit)

/-- The fields of a segment header and where they start. -/
def segmentFields (owner generation segmentId : Nat) : List (Nat × Bytes) :=
  [(0, segmentMagic), (8, le 2 formatVersion), (12, le 4 owner), (16, le 8 generation),
    (24, le 8 segmentId)]

/-- The first block of a segment. -/
def segmentHeader (owner generation segmentId : Nat) : Except NativeError Bytes :=
  if 2 ^ 32 ≤ owner then .error .ownerExceedsU32
  else
    let header := patchAll (zeros segmentHeaderBytes) (segmentFields owner generation segmentId)
    .ok (patch header 32 (le 4 (p.crc32c (header.take 32)).toNat))

/-- The numbers that the header is compared with come from the file's path and
    are 64 bits wide. -/
def validateSegmentHeader (header : Bytes) (owner generation segmentId : Nat) : Bool :=
  decide (header.length = segmentHeaderBytes ∧ slice header 0 8 = segmentMagic ∧
    ofLe (slice header 8 2) = formatVersion ∧ ofLe (slice header 12 4) = owner ∧
    ofLe (slice header 16 8) = generation % 2 ^ 64 ∧
    ofLe (slice header 24 8) = segmentId % 2 ^ 64 ∧
    ofLe (slice header 32 4) = (p.crc32c (header.take 32)).toNat)

end Native

end Pepper
