import Pepper.Base.Collections
import Pepper.Core.ExtentHeader

/-!
# Reading Record Headers Back

The encoder lets an identifier reach up to the end of the header, the parser only
up to the checksum. Between the two bounds the checksum is written over the end
of the identifier and the parser refuses the header. Below them every field is
read back.

## Theorems

* `headerFields_laid`: The fields lie one after the other.
* `encodeRecordHeader_holds`: What can be read from a header that was written.
* `parse_encodeRecordHeader`: Which headers are read back.
-/

namespace Pepper

namespace Extent

open Bytes List

variable {fields : RecordFields RecordId (Option RecordDigest)} {alignment : Nat}

theorem parse_metadataFlags (metadata : RecordMetadata) :
    parseMetadataFlags (metadataFlags metadata) = .ok metadata := by
  rcases metadata with ⟨compression, encryption, storageClass, live⟩
  cases compression <;> cases encryption <;> cases storageClass <;> cases live <;> rfl

/-- The digest of a header, zeros if there is none. -/
def digestBytes (digest : Option RecordDigest) : Bytes :=
  digest.elim (zeros 32) (·.val)

theorem length_digestBytes (digest : Option RecordDigest) : (digestBytes digest).length = 32 := by
  cases digest with
  | none => rfl
  | some digest => exact digest.property

theorem headerFields_laid (hroom : fixedHeaderBytes + fields.recordId.val.length ≤ alignment) :
    Laid (headerFields fields) alignment := by
  have hdig := length_digestBytes fields.digest
  have hmagic : recordMagic.length = 8 := by decide
  unfold digestBytes at hdig
  unfold fixedHeaderBytes at hroom
  constructor
  · simp [headerFields, fixedHeaderBytes, hdig, hmagic]
  · simp [headerFields, fixedHeaderBytes, hdig, hmagic]
    omega

variable (crc32c : Bytes → UInt32) {header : Bytes}

/-- What a header that was written holds: the fields that end before the
    checksum, and the checksum of all that is before it. -/
theorem encodeRecordHeader_holds (henc : encodeRecordHeader crc32c alignment fields = .ok header) :
    fixedHeaderBytes + fields.recordId.val.length ≤ alignment ∧ header.length = alignment ∧
      (∀ f ∈ headerFields fields, f.1 + f.2.length ≤ alignment - 4 →
        slice header f.1 f.2.length = f.2) ∧
      (crc32c (header.take (alignment - 4))).toNat = ofLe (slice header (alignment - 4) 4) := by
  have hpos := length_pos_of_ne_nil fields.recordId.property.1
  unfold encodeRecordHeader at henc
  split_ifs at henc with hfits
  have hroom : fixedHeaderBytes + fields.recordId.val.length ≤ alignment := by omega
  have hlaid := headerFields_laid hroom
  have hbodyLen : (patchAll (zeros alignment) (headerFields fields)).length = alignment := by
    rw [length_patchAll (by rw [length_zeros]; exact hlaid.2), length_zeros]
  have hread : ∀ f ∈ headerFields fields,
      slice (patchAll (zeros alignment) (headerFields fields)) f.1 f.2.length = f.2 :=
    fun f hf => slice_patchAll (by rwa [length_zeros]) hf
  dsimp only at henc
  generalize patchAll (zeros alignment) (headerFields fields) = body at henc hbodyLen hread
  generalize hsum : le 4 (crc32c (body.take (alignment - 4))).toNat = sum at henc
  have hsumLen : sum.length = 4 := by rw [← hsum, length_le]
  have hbelow : alignment - 4 ≤ body.length := by omega
  cases henc
  refine ⟨hroom, ?_, ?_, ?_⟩
  · unfold fixedHeaderBytes at hroom
    rw [length_patch (by omega), hbodyLen]
  · -- The checksum is written last, over what reaches into its place.
    intro f hf hend
    rw [slice_patch_left hend hbelow, hread f hf]
  · have htake : (patch body (alignment - 4) sum).take (alignment - 4) =
        body.take (alignment - 4) := by
      rw [patch, append_assoc, take_left' (length_take_of_le hbelow)]
    have hslice : slice (patch body (alignment - 4) sum) (alignment - 4) sum.length = sum :=
      slice_patch_self hbelow
    rw [hsumLen] at hslice
    rw [htake, hslice, ← hsum, ofLe_le (UInt32.toNat_lt _)]

/-- A header is read back exactly if its identifier does not reach the checksum. -/
theorem parse_encodeRecordHeader
    (henc : encodeRecordHeader crc32c alignment fields = .ok header) :
    parseRecordHeader crc32c header alignment =
        .ok { fields with recordId := fields.recordId.val, digest := digestBytes fields.digest } ↔
      fixedHeaderBytes + fields.recordId.val.length + 4 ≤ alignment := by
  rcases encodeRecordHeader_holds crc32c henc with ⟨hfits, hlen, hread, hchecksum⟩
  have hidProp := fields.recordId.property
  have hpos := length_pos_of_ne_nil hidProp.1
  -- One equation for each field of the table; only the identifier can reach the checksum.
  have hdig := length_digestBytes fields.digest
  have hmagic : recordMagic.length = 8 := by decide
  have hlow : 92 ≤ alignment - 4 := by
    unfold fixedHeaderBytes at hfits
    omega
  unfold digestBytes at hdig
  simp only [headerFields, mem_cons, forall_eq_or_imp, not_mem_nil, IsEmpty.forall_iff,
    implies_true, and_true, length_le, length_cons, length_nil, hmagic, hdig] at hread
  rcases hread with ⟨hm, hversion, hkind, hflags, hidLen, hbatch, hindex, hlogical, hencoded,
    hpadded, hcrc, hdigest, hid⟩
  have hidLen' : ofLe (slice header 12 2) = fields.recordId.val.length := by
    rw [hidLen (by omega), ofLe_le]
    exact hidProp.2.trans_lt (by decide)
  have hword : ∀ x : UInt64, UInt64.ofNat (ofLe (le 8 x.toNat)) = x := fun x => by
    rw [ofLe_le x.toNat_lt, UInt64.ofNat_toNat]
  have hcrc' : UInt32.ofNat (ofLe (slice header 56 4)) = fields.payloadCrc := by
    rw [hcrc (by omega), ofLe_le (UInt32.toNat_lt _), UInt32.ofNat_toNat]
  simp only [parseRecordHeader, hidLen', getD_of_slice (hkind (by omega)),
    getD_of_slice (hflags (by omega)), parse_metadataFlags]
  rw [if_neg (by simp [hlen, hm (by omega)]),
    if_neg (by rw [hversion (by omega), ofLe_le (by decide), not_not]),
    if_neg (by rw [hchecksum, not_not])]
  by_cases hroom : fixedHeaderBytes + fields.recordId.val.length + 4 ≤ alignment
  · rw [if_neg (by have := hidProp.2; omega)]
    refine iff_of_true ?_ hroom
    show Except.ok _ = _
    simp only [hbatch (by omega), hindex (by omega), hlogical (by omega), hencoded (by omega),
      hpadded (by omega), hcrc', hdigest (by omega), hid (by omega), hword, digestBytes]
  · rw [if_pos (by omega)]
    exact iff_of_false (by rintro ⟨⟩) hroom

/-- The shortest header there is. -/
def shortFields (recordId : RecordId) : RecordFields RecordId (Option RecordDigest) :=
  ⟨1, ⟨.none, .none, .hot, true⟩, 1, 0, recordId, 1, 1, 128, 0, none⟩

theorem parse_encodeRecordHeader_short : ∃ header,
    encodeRecordHeader (fun _ => 0) 128 (shortFields ⟨zeros 28, by decide⟩) = .ok header ∧
      (parseRecordHeader (fun _ => 0) header 128).map (·.recordId) = .ok (zeros 28) := by
  refine ⟨_, rfl, ?_⟩
  rw [(parse_encodeRecordHeader (fun _ => 0)
    (rfl : encodeRecordHeader _ 128 (shortFields ⟨zeros 28, by decide⟩) = _)).mpr (by decide)]
  rfl

/-- An identifier that reaches into the checksum, under an alignment that is
    accepted. -/
theorem encodeRecordHeader_unreadable : validateConfig ⟨128, 1024, 1, 1, 1⟩ = true ∧ ∃ header,
      encodeRecordHeader (fun _ => 0) 128 (shortFields ⟨zeros 32, by decide⟩) = .ok header ∧
        parseRecordHeader (fun _ => 0) header 128 = .error "record ID length is invalid" :=
  ⟨by decide, _, rfl, by decide +kernel⟩

end Extent

end Pepper
