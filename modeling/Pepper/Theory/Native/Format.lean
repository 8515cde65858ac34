import Pepper.Core.Native.Recovery

/-!
# Reading Back What Was Written

The record header and the segment header are read back as they were written,
and a batch is the sequence of its records.

A put writes data records and a delete a tombstone. `Batch` is what the two
have in common: a list of records closed by a commit record. Its bytes are
described here once, so that what recovery does with a segment can be proved
over batches.

## Main definitions

* `ParsedHeader.Fits`: Each field of a header fits its width.
* `Record`, `Batch`: The records of one append, and their bytes.
* `Batch.Fits`: A batch that an engine writes.

## Theorems

* `parse_sealedHeader`: A record header is read back.
* `validate_segmentHeaderBlock`: A segment header is accepted.
* `encodeBatch_eq`, `encodeTombstoneBatch_eq`: What the two appends write.
-/

namespace Pepper

namespace Native

open Bytes List

theorem alignment_eq : alignment = 4096 := rfl

theorem recordHeaderBytes_eq : recordHeaderBytes = 4096 := rfl

theorem segmentHeaderBytes_eq : segmentHeaderBytes = 4096 := rfl

theorem le_alignUp (n : Nat) : n ≤ alignUp n := by
  rw [alignUp, alignment_eq]
  omega

theorem alignUp_mod (n : Nat) : alignUp n % alignment = 0 := by
  rw [alignUp]
  exact Nat.mul_mod_left _ _

variable {Cid : Type} (p : Primitives Cid)

/-- Each field of the header fits the width it is written in. -/
structure ParsedHeader.Fits (parsed : ParsedHeader Cid) : Prop where
  batchId : parsed.batchId < 2 ^ 64
  logicalSize : parsed.logicalSize < 2 ^ 64
  storedSize : parsed.storedSize < 2 ^ 64
  paddedSize : parsed.paddedSize < 2 ^ 64
  payloadCrc : parsed.payloadCrc < 2 ^ 32
  commitDigest : parsed.commitDigest.length = 32

section Header

variable {parsed : ParsedHeader Cid}

theorem headerFields_laid (h : parsed.commitDigest.length = 32) :
    Laid (headerFields p parsed) recordHeaderBytes := by
  have htext := p.text_le parsed.cid
  rw [maxCidBytes] at htext
  simp only [Laid, headerFields, pairwise_cons, mem_cons, forall_eq_or_imp,
    not_mem_nil, length_le, length_cons, length_nil, recordMagic, h,
    recordHeaderBytes_eq, IsEmpty.forall_iff, implies_true, List.Pairwise.nil, and_true]
  omega

theorem length_uncheckedHeader (h : parsed.commitDigest.length = 32) :
    (uncheckedHeader p parsed).length = 4096 := by
  have hlaid := (headerFields_laid p h).2
  rw [uncheckedHeader, length_patchAll (by rw [length_zeros]; exact hlaid), length_zeros,
    recordHeaderBytes_eq]

theorem length_sealedHeader (h : parsed.commitDigest.length = 32) :
    (sealedHeader p parsed).length = 4096 := by
  have hlen := length_uncheckedHeader p h
  rw [sealedHeader, length_patch (by rw [length_le, hlen]; omega), hlen]

/-- The header is longer than any identifier that fits. -/
theorem recordHeader_eq (parsed : ParsedHeader Cid) :
    recordHeader p parsed = .ok (sealedHeader p parsed) :=
  if_neg (Nat.not_lt.mpr (p.text_le parsed.cid))

section

variable (h : parsed.commitDigest.length = 32)

include h

/-- Outside its checksum the header is the unchecked one. -/
theorem slice_sealedHeader {o n : Nat} (hrange : o + n ≤ 56 ∨ 60 ≤ o) :
    slice (sealedHeader p parsed) o n = slice (uncheckedHeader p parsed) o n := by
  have hlen := length_uncheckedHeader p h
  rcases hrange with hrange | hrange
  · exact slice_patch_left hrange (by omega)
  · exact slice_patch_right (by rw [length_le]; omega) (by omega)

theorem slice_field {f : Nat × Bytes} (hf : f ∈ headerFields p parsed)
    (hrange : f.1 + f.2.length ≤ 56 ∨ 60 ≤ f.1) :
    slice (sealedHeader p parsed) f.1 f.2.length = f.2 := by
  rw [slice_sealedHeader p h hrange, uncheckedHeader]
  refine slice_patchAll ?_ hf
  rw [length_zeros]
  exact headerFields_laid p h

/-- No field lies where the checksum goes. -/
theorem slice_unchecked_checksum : slice (uncheckedHeader p parsed) 56 4 = zeros 4 := by
  have hlaid := (headerFields_laid p h).2
  rw [uncheckedHeader, slice_patchAll_gap (by rw [length_zeros]; exact hlaid)]
  · rfl
  · simp only [headerFields, mem_cons, forall_eq_or_imp, not_mem_nil, length_le,
      length_cons, length_nil, recordMagic, IsEmpty.forall_iff, implies_true, and_true]
    omega

theorem sealedHeader_intact : headerIntact p (sealedHeader p parsed) := by
  have hlen := length_uncheckedHeader p h
  have hread : slice (sealedHeader p parsed) 56 4 =
      le 4 (p.crc32c (uncheckedHeader p parsed)).toNat := by
    have hself : slice (sealedHeader p parsed) 56
        (le 4 (p.crc32c (uncheckedHeader p parsed)).toNat).length = _ :=
      slice_patch_self (by omega)
    rw [length_le] at hself
    exact hself
  have hblank : patch (sealedHeader p parsed) 56 (zeros 4) = uncheckedHeader p parsed := by
    rw [sealedHeader, patch_patch (by omega) (by rw [length_zeros, length_le])]
    exact patch_slice (slice_unchecked_checksum p h)
  rw [headerIntact, hread, hblank, ofLe_le]
  exact (p.crc32c (uncheckedHeader p parsed)).toNat_lt

end

/-- A record header is read back. -/
theorem parse_sealedHeader (h : parsed.Fits) :
    parseRecordHeader p (sealedHeader p parsed) = some parsed := by
  have hdig := h.commitDigest
  have htext := p.text_le parsed.cid
  have hpos := p.text_pos parsed.cid
  rw [maxCidBytes] at htext
  have hmem : ∀ f ∈ headerFields p parsed, f.1 + f.2.length ≤ 56 ∨ 60 ≤ f.1 →
      slice (sealedHeader p parsed) f.1 f.2.length = f.2 :=
    fun f hf hrange => slice_field p hdig hf hrange
  -- One equation for each field of the table.
  simp only [headerFields, mem_cons, forall_eq_or_imp, not_mem_nil, length_le,
    length_cons, length_nil, recordMagic, IsEmpty.forall_iff, implies_true, and_true,
    hdig] at hmem
  rcases hmem with ⟨hmagic, hversion, hkind, hbat, hlogical, hstored, hpadded, hlength, hcrc,
    hcid, hcommit⟩
  have hlen := length_sealedHeader p hdig
  have hintact := sealedHeader_intact p hdig
  have hlength' : ofLe (slice (sealedHeader p parsed) 48 2) = (p.text parsed.cid).length := by
    rw [hlength (by omega), ofLe_le (by omega)]
  unfold parseRecordHeader
  rw [if_neg, if_neg, hlength', if_neg, hcid (by omega), p.parse_text, Option.map_some,
    getD_of_slice (hkind (by omega)), hbat (by omega), hlogical (by omega),
    hstored (by omega), hpadded (by omega), hcrc (by omega), hcommit (by omega),
    ofLe_le h.batchId, ofLe_le h.logicalSize, ofLe_le h.storedSize, ofLe_le h.paddedSize,
    ofLe_le h.payloadCrc]
  · rw [maxCidBytes]
    omega
  · rw [hversion (by omega), ofLe_le (by decide)]
    simp only [hintact, not_true_eq_false, ne_eq, or_self, not_false_eq_true]
  · rw [hmagic (by omega), recordMagic]
    simp only [hlen, recordHeaderBytes_eq, ne_eq, not_true_eq_false, or_self, not_false_eq_true]

/-- A header starts with its magic, so it is not blank. -/
theorem sealedHeader_ne_zeros (h : parsed.commitDigest.length = 32) :
    sealedHeader p parsed ≠ zeros recordHeaderBytes := by
  intro heq
  have hmagic : slice (sealedHeader p parsed) 0 8 = recordMagic :=
    slice_field p h (f := (0, recordMagic)) mem_cons_self (Or.inl (by decide))
  rw [heq, slice, drop_zero, take_zeros] at hmagic
  exact absurd hmagic (by decide)

end Header

/-! ## Segment headers -/

theorem segmentFields_laid (owner gen segmentId : Nat) :
    Laid (segmentFields owner gen segmentId) segmentHeaderBytes := by
  simp only [Laid, segmentFields, pairwise_cons, mem_cons, forall_eq_or_imp,
    not_mem_nil, length_le, length_cons, length_nil, segmentMagic,
    segmentHeaderBytes_eq, IsEmpty.forall_iff, implies_true, List.Pairwise.nil, and_true]
  omega

/-- The header block of a segment. -/
def segmentHeaderBlock (owner gen segmentId : Nat) : Bytes :=
  let header := patchAll (zeros segmentHeaderBytes) (segmentFields owner gen segmentId)
  patch header 32 (le 4 (p.crc32c (header.take 32)).toNat)

variable {owner : Nat}

theorem segmentHeader_eq (h : owner < 2 ^ 32) (gen segmentId : Nat) :
    segmentHeader p owner gen segmentId = .ok (segmentHeaderBlock p owner gen segmentId) :=
  if_neg (Nat.not_le.mpr h)

theorem length_patched_segmentFields (owner gen segmentId : Nat) :
    (patchAll (zeros segmentHeaderBytes) (segmentFields owner gen segmentId)).length = 4096 := by
  have hlaid := (segmentFields_laid owner gen segmentId).2
  rw [length_patchAll (by rw [length_zeros]; exact hlaid), length_zeros, segmentHeaderBytes_eq]

theorem length_segmentHeaderBlock (owner gen segmentId : Nat) :
    (segmentHeaderBlock p owner gen segmentId).length = 4096 := by
  have hlen := length_patched_segmentFields owner gen segmentId
  rw [segmentHeaderBlock, length_patch (by rw [length_le, hlen]; omega), hlen]

/-- A segment header is accepted under the numbers it was made for. -/
theorem validate_segmentHeaderBlock (h : owner < 2 ^ 32) (gen segmentId : Nat) :
    validateSegmentHeader p (segmentHeaderBlock p owner gen segmentId) owner gen
      segmentId = true := by
  have hlaid := segmentFields_laid owner gen segmentId
  have hlen := length_patched_segmentFields owner gen segmentId
  have hmem : ∀ f ∈ segmentFields owner gen segmentId,
      slice (segmentHeaderBlock p owner gen segmentId) f.1 f.2.length = f.2 := by
    intro f hf
    have hbef : f.1 + f.2.length ≤ 32 := by
      simp only [segmentFields, mem_cons, not_mem_nil, or_false] at hf
      rcases hf with rfl | rfl | rfl | rfl | rfl
      all_goals simp only [length_le, segmentMagic, length_cons, length_nil]
      all_goals omega
    rw [segmentHeaderBlock, slice_patch_left hbef (by omega)]
    exact slice_patchAll (by rw [length_zeros]; exact hlaid) hf
  simp only [segmentFields, mem_cons, forall_eq_or_imp, not_mem_nil, length_le,
    length_cons, length_nil, segmentMagic, IsEmpty.forall_iff, implies_true,
    and_true] at hmem
  rcases hmem with ⟨hmagic, hversion, hown, hgen, hseg⟩
  -- The checksum covers the bytes before it, which its own write leaves alone.
  have hcovers : (segmentHeaderBlock p owner gen segmentId).take 32 =
      (patchAll (zeros segmentHeaderBytes) (segmentFields owner gen segmentId)).take 32 := by
    have hleft : slice (segmentHeaderBlock p owner gen segmentId) 0 32 = _ :=
      slice_patch_left (le_refl 32) (by omega)
    rw [slice, slice, drop_zero, drop_zero] at hleft
    exact hleft
  have hchecksum : slice (segmentHeaderBlock p owner gen segmentId) 32 4 =
      le 4 (p.crc32c ((patchAll (zeros segmentHeaderBytes)
        (segmentFields owner gen segmentId)).take 32)).toNat := by
    have hself : slice (segmentHeaderBlock p owner gen segmentId) 32 (le 4 (p.crc32c
        ((patchAll (zeros segmentHeaderBytes)
          (segmentFields owner gen segmentId)).take 32)).toNat).length = _ :=
      slice_patch_self (by omega)
    rw [length_le] at hself
    exact hself
  unfold validateSegmentHeader
  rw [decide_eq_true_eq, hmagic, hversion, hown, hgen, hseg, hcovers, hchecksum,
    length_segmentHeaderBlock, ofLe_le (by decide), ofLe_le h, ofLe_le_mod, ofLe_le_mod,
    ofLe_le (UInt32.toNat_lt _)]
  exact ⟨rfl, rfl, rfl, rfl, rfl, rfl, rfl⟩

/-! ## Batches -/

/-- One record of a batch. -/
inductive Record (Cid : Type) where
  | data (block : EncodedBlock Cid)
  | tombstone (cid : Cid)

/-- The records of one append. -/
structure Batch (Cid : Type) where
  id : Nat
  records : List (Record Cid)

namespace Record

/-- The bytes a record takes in a segment. -/
def size : Record Cid → Nat
  | .data block => recordHeaderBytes + alignUp block.bytes.length
  | .tombstone _ => recordHeaderBytes

def header (id : Nat) : Record Cid → ParsedHeader Cid
  | .data block => dataHeader p id block
  | .tombstone cid => tombstoneHeader id cid

/-- What follows the header. -/
def payload : Record Cid → Bytes
  | .data block => block.bytes ++ zeros (alignUp block.bytes.length - block.bytes.length)
  | .tombstone _ => []

def encode (id : Nat) (record : Record Cid) : Bytes :=
  sealedHeader p (record.header p id) ++ record.payload

/-- A data record without bytes is taken for damage. -/
def Filled : Record Cid → Prop
  | .data block => block.bytes ≠ []
  | .tombstone _ => True

theorem commitDigest_header (id : Nat) (record : Record Cid) :
    (record.header p id).commitDigest.length = 32 := by
  cases record with
  | data block => exact length_zeros 32
  | tombstone cid => exact length_zeros 32

theorem length_payload (record : Record Cid) :
    recordHeaderBytes + record.payload.length = record.size := by
  cases record with
  | data block =>
    have halign := le_alignUp block.bytes.length
    rw [payload, size, length_append, length_zeros, Nat.add_sub_cancel' halign]
  | tombstone cid => rfl

theorem length_encode (id : Nat) (record : Record Cid) :
    (record.encode p id).length = record.size := by
  rw [encode, length_append, length_sealedHeader p (commitDigest_header p id record),
    ← length_payload, recordHeaderBytes_eq]

theorem le_size (record : Record Cid) : recordHeaderBytes ≤ record.size := by
  rw [← length_payload]
  exact Nat.le_add_right _ _

/-- The header of a record that is not too large fits. -/
theorem fits_header {id : Nat} {record : Record Cid} (hid : id < 2 ^ 64)
    (hsize : record.size < 2 ^ 64) : (record.header p id).Fits := by
  cases record with
  | data block =>
    rw [size] at hsize
    have halign := le_alignUp block.bytes.length
    exact ⟨hid, block.logicalSize.toNat_lt, show block.bytes.length < 2 ^ 64 by omega,
      show alignUp block.bytes.length < 2 ^ 64 by omega, UInt32.toNat_lt _, length_zeros 32⟩
  | tombstone cid =>
    exact ⟨hid, show 0 < 2 ^ 64 by decide, show 0 < 2 ^ 64 by decide,
      show 0 < 2 ^ 64 by decide, show 0 < 2 ^ 32 by decide, length_zeros 32⟩

end Record

/-- The bytes of several records. -/
def recordsSize (records : List (Record Cid)) : Nat :=
  (records.map Record.size).sum

theorem recordsSize_append (first second : List (Record Cid)) :
    recordsSize (first ++ second) = recordsSize first + recordsSize second := by
  rw [recordsSize, map_append, sum_append, recordsSize, recordsSize]

theorem recordsSize_cons (record : Record Cid) (rest : List (Record Cid)) :
    recordsSize (record :: rest) = record.size + recordsSize rest := by
  rw [recordsSize, map_cons, sum_cons, recordsSize]

namespace Batch

def size (batch : Batch Cid) : Nat :=
  recordsSize batch.records + recordHeaderBytes

def headers (batch : Batch Cid) : List (ParsedHeader Cid) :=
  batch.records.map (Record.header p batch.id)

def body (batch : Batch Cid) : Bytes :=
  (batch.records.map (Record.encode p batch.id)).flatten

def commit (batch : Batch Cid) : ParsedHeader Cid :=
  commitHeader p batch.id (batch.headers p)

def encode (batch : Batch Cid) : Bytes :=
  batch.body p ++ sealedHeader p (batch.commit p)

/-- A batch as the engine writes it. -/
structure Fits (batch : Batch Cid) : Prop where
  id_lt : batch.id < 2 ^ 64
  nonempty : batch.records ≠ []
  filled : ∀ record ∈ batch.records, record.Filled
  size_lt : batch.size < 2 ^ 64

theorem length_flatten_encode (id : Nat) (records : List (Record Cid)) :
    ((records.map (Record.encode p id)).flatten).length = recordsSize records := by
  induction records with
  | nil => rfl
  | cons record records ih =>
    rw [map_cons, flatten_cons, length_append, Record.length_encode, ih, recordsSize_cons]

theorem commitDigest_commit (batch : Batch Cid) : (batch.commit p).commitDigest.length = 32 :=
  p.blake3_length _

theorem length_encode (batch : Batch Cid) : (batch.encode p).length = batch.size := by
  rw [encode, length_append, body, length_flatten_encode,
    length_sealedHeader p (commitDigest_commit p batch), size, recordHeaderBytes_eq]

/-- Each record takes a block of its own. -/
theorem length_le_recordsSize (records : List (Record Cid)) :
    records.length ≤ recordsSize records := by
  induction records with
  | nil => exact Nat.zero_le _
  | cons record records ih =>
    have hsize := record.le_size
    rw [recordHeaderBytes_eq] at hsize
    rw [length_cons, recordsSize_cons]
    omega

variable {record : Record Cid} {batch : Batch Cid}

theorem size_le_recordsSize {records : List (Record Cid)} (h : record ∈ records) :
    record.size ≤ recordsSize records :=
  le_sum_of_mem (mem_map_of_mem h)

theorem Fits.commit (h : batch.Fits) : (batch.commit p).Fits := by
  have hlen := length_le_recordsSize batch.records
  have hsize := h.size_lt
  rw [size] at hsize
  refine ⟨h.id_lt, ?_, show 0 < 2 ^ 64 by decide, show 0 < 2 ^ 64 by decide,
    show 0 < 2 ^ 32 by decide, commitDigest_commit p batch⟩
  show (batch.headers p).length < 2 ^ 64
  rw [headers, length_map]
  omega

theorem Fits.header (h : batch.Fits) (hrec : record ∈ batch.records) :
    (record.header p batch.id).Fits := by
  have hsize := size_le_recordsSize hrec
  have hlt := h.size_lt
  rw [size] at hlt
  exact Record.fits_header p h.id_lt (by omega)

end Batch

/-- A put writes the batch of its blocks. -/
theorem encodeBatch_eq (id : Nat) (blocks : List (EncodedBlock Cid)) :
    encodeBatch p id blocks = .ok ((⟨id, blocks.map .data⟩ : Batch Cid).encode p) := by
  have hdata : encodeData p id = fun block => pure ((Record.data block).encode p id) := by
    funext block
    rw [encodeData, recordHeader_eq]
    simp only [Record.encode, Record.payload, Record.header, append_assoc]
    rfl
  have hrecords : blocks.mapM (encodeData p id) =
      .ok (blocks.map fun block => (Record.data block).encode p id) := by
    rw [hdata, mapM_pure]
    rfl
  rw [encodeBatch, hrecords, recordHeader_eq]
  simp only [Batch.encode, Batch.body, Batch.commit, Batch.headers, map_map]
  rfl

/-- A delete writes the batch of its tombstone. -/
theorem encodeTombstoneBatch_eq (id : Nat) (cid : Cid) :
    encodeTombstoneBatch p id cid = .ok ((⟨id, [.tombstone cid]⟩ : Batch Cid).encode p) := by
  rw [encodeTombstoneBatch, recordHeader_eq, recordHeader_eq]
  simp only [Batch.encode, Batch.body, Batch.commit, Batch.headers, map_cons, map_nil,
    flatten_cons, flatten_nil, Record.encode, Record.header, Record.payload,
    append_nil]
  rfl

end Native

end Pepper
