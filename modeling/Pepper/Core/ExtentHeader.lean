import Pepper.Base.Bytes

/-!
# Headers of Extent Records

The header that `pepper-extent` writes in front of each record of a file: fixed
fields, the record's identifier and a checksum in the last four bytes of the
header, whose length is the alignment of the file.

The numbers have the widths of the source. The checksum function is a parameter.

## Main definitions

* `validateConfig`: The alignments that are accepted.
* `encodeRecordHeader`, `parseRecordHeader`: The two directions.
-/

namespace Pepper

namespace Extent

open Bytes

structure FileExtentConfig where
  alignment : Nat
  maximumExtentBytes : Nat
  maximumBatchBytes : Nat
  maximumBatchRecords : Nat
  groupCommitMaxRequests : Nat
deriving DecidableEq, Repr

def fixedHeaderBytes : Nat := 96

def maxRecordIdBytes : Nat := 512

/-- The alignment is a power of two that holds a header. -/
def validateConfig (config : FileExtentConfig) : Bool :=
  fixedHeaderBytes ≤ config.alignment && config.alignment &&& (config.alignment - 1) = 0 &&
    config.alignment * 3 ≤ config.maximumExtentBytes && config.maximumBatchBytes ≠ 0 &&
    config.maximumBatchRecords ≠ 0 && config.groupCommitMaxRequests ≠ 0

inductive Compression where
  | none
  | zstd
deriving DecidableEq, Repr

inductive Encryption where
  | none
  | aes256Gcm
deriving DecidableEq, Repr

inductive StorageClass where
  | hot
  | warm
  | cold
deriving DecidableEq, Repr

structure RecordMetadata where
  compression : Compression
  encryption : Encryption
  storageClass : StorageClass
  live : Bool
deriving DecidableEq, Repr

/-- The metadata in one byte. -/
def metadataFlags (metadata : RecordMetadata) : UInt8 :=
  let compression : UInt8 := match metadata.compression with
    | .none => 0
    | .zstd => 1
  let encryption : UInt8 := match metadata.encryption with
    | .none => 0
    | .aes256Gcm => 1
  let storage : UInt8 := match metadata.storageClass with
    | .hot => 0
    | .warm => 1
    | .cold => 2
  compression ||| (encryption <<< 2) ||| (storage <<< 4) ||| (metadata.live.toUInt8 <<< 7)

def parseMetadataFlags (flags : UInt8) : Except String RecordMetadata := do
  let compression ← match flags &&& 0b11 with
    | 0 => pure Compression.none
    | 1 => pure .zstd
    | _ => throw "unknown compression flag"
  let encryption ← match (flags >>> 2) &&& 0b11 with
    | 0 => pure Encryption.none
    | 1 => pure .aes256Gcm
    | _ => throw "unknown encryption flag"
  let storageClass ← match (flags >>> 4) &&& 0b111 with
    | 0 => pure StorageClass.hot
    | 1 => pure .warm
    | 2 => pure .cold
    | _ => throw "unknown storage-class flag"
  return ⟨compression, encryption, storageClass, flags &&& 0x80 ≠ 0⟩

/-- An identifier that was accepted. -/
abbrev RecordId := { bytes : Bytes // bytes ≠ [] ∧ bytes.length ≤ maxRecordIdBytes }

abbrev RecordDigest := { bytes : Bytes // bytes.length = 32 }

/-- The fields of a header, as they are given and as they are found. -/
structure RecordFields (ι δ : Type) where
  kind : UInt8
  metadata : RecordMetadata
  batchId : UInt64
  recordIndex : UInt64
  recordId : ι
  logicalLen : UInt64
  encodedLen : UInt64
  paddedLen : UInt64
  payloadCrc : UInt32
  digest : δ
deriving DecidableEq

def recordMagic : Bytes := "PEPEXREC".toList.map fun c => .ofNat c.toNat

def formatVersion : Nat := 1

/-- What is written before the checksum. A record without a digest has zeros
    there. -/
def headerFields (fields : RecordFields RecordId (Option RecordDigest)) : List (Nat × Bytes) :=
  [(0, recordMagic), (8, le 2 formatVersion), (10, [fields.kind]),
    (11, [metadataFlags fields.metadata]), (12, le 2 fields.recordId.val.length),
    (16, le 8 fields.batchId.toNat), (24, le 8 fields.recordIndex.toNat),
    (32, le 8 fields.logicalLen.toNat), (40, le 8 fields.encodedLen.toNat),
    (48, le 8 fields.paddedLen.toNat), (56, le 4 fields.payloadCrc.toNat),
    (60, fields.digest.elim (zeros 32) (·.val)), (fixedHeaderBytes, fields.recordId.val)]

inductive HeaderError where
  | invalidRecordIdLength (length : Nat)
deriving DecidableEq, Repr

variable (crc32c : Bytes → UInt32)

/-- The checksum is written last, over the end of an identifier that reaches it. -/
def encodeRecordHeader (alignment : Nat)
    (fields : RecordFields RecordId (Option RecordDigest)) : Except HeaderError Bytes :=
  if fields.recordId.val.length > alignment - fixedHeaderBytes then
    .error (.invalidRecordIdLength fields.recordId.val.length)
  else
    let header := patchAll (zeros alignment) (headerFields fields)
    .ok (patch header (alignment - 4) (le 4 (crc32c (header.take (alignment - 4))).toNat))

/-- The checksum is checked before the length of the identifier. -/
def parseRecordHeader (header : Bytes) (alignment : Nat) :
    Except String (RecordFields Bytes Bytes) := do
  if header.length ≠ alignment ∨ slice header 0 8 ≠ recordMagic then
    throw "record magic mismatch"
  if ofLe (slice header 8 2) ≠ formatVersion then throw "record version mismatch"
  if (crc32c (header.take (alignment - 4))).toNat ≠ ofLe (slice header (alignment - 4) 4) then
    throw "record header checksum mismatch"
  let idLen := ofLe (slice header 12 2)
  if idLen = 0 ∨ idLen > maxRecordIdBytes ∨ fixedHeaderBytes + idLen > alignment - 4 then
    throw "record ID length is invalid"
  let metadata ← parseMetadataFlags (header.getD 11 0)
  return {
    kind := header.getD 10 0
    metadata
    batchId := .ofNat (ofLe (slice header 16 8))
    recordIndex := .ofNat (ofLe (slice header 24 8))
    recordId := slice header fixedHeaderBytes idLen
    logicalLen := .ofNat (ofLe (slice header 32 8))
    encodedLen := .ofNat (ofLe (slice header 40 8))
    paddedLen := .ofNat (ofLe (slice header 48 8))
    payloadCrc := .ofNat (ofLe (slice header 56 4))
    digest := slice header 60 32 }

end Extent

end Pepper
