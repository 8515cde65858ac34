import Pepper.Theory.Native.Scan

/-!
# A Checksum That Notices Torn Writes

The theorems about recovery assume that the checksums notice bytes that did not
reach the disk. Here is one that does: it counts the bytes that are not zero.

A torn copy has fewer of them, so a torn payload never passes. A header holds
its own checksum, which may be torn as well. So the count is written with digits
that are never zero; a torn one is then no count at all.

## Main definitions

* `countingSum`: The checksum.
* `countingPrimitives`: A format with this checksum, for identifiers of one byte.

## Theorems

* `counting_detects`: The assumption of the recovery theorems can be met.
-/

namespace Pepper

namespace Native

open Bytes

/-- How many bytes are not zero. -/
def filledBytes (bytes : Bytes) : Nat :=
  bytes.countP fun b => b ≠ 0

/-- A number in base 255 with the digits from 1 to 255, each in a byte. -/
def shiftedDigits (n : Nat) : Nat :=
  (n % 255 + 1) + 256 * ((n / 255 % 255 + 1) + 256 * ((n / 255 ^ 2 % 255 + 1) +
    256 * (n / 255 ^ 3 % 255 + 1)))

def countingSum (bytes : Bytes) : UInt32 :=
  UInt32.ofNat (shiftedDigits (filledBytes bytes))

/-- A torn copy with as many bytes that are not zero is complete. -/
theorem filledBytes_le_of_torn {a t : Bytes} (h : Torn a t) :
    filledBytes t ≤ filledBytes a ∧ (filledBytes t = filledBytes a → t = a) := by
  unfold Torn at h
  induction h with
  | nil => exact ⟨le_rfl, fun _ => rfl⟩
  | @cons b c t a hbyte _ ih =>
    rcases ih with ⟨hle, heq⟩
    unfold filledBytes at hle heq ⊢
    rw [List.countP_cons, List.countP_cons]
    rcases hbyte with rfl | rfl
    · refine ⟨by omega, fun hsame => ?_⟩
      rw [heq (by omega)]
    · by_cases hc : c = 0
      · subst hc
        refine ⟨by omega, fun hsame => ?_⟩
        rw [heq (by omega)]
      · -- One byte was lost, and no other can make up for it.
        have hlost : decide ((0 : UInt8) ≠ 0) = false := by decide
        rw [hlost, decide_eq_true hc]
        simp only [Bool.false_eq_true, if_false, if_true]
        exact ⟨by omega, fun hsame => absurd hsame (by omega)⟩

theorem filledBytes_le_length (bytes : Bytes) : filledBytes bytes ≤ bytes.length :=
  List.countP_le_length

theorem shiftedDigits_lt (n : Nat) : shiftedDigits n < 2 ^ 32 := by
  unfold shiftedDigits
  omega

theorem countingSum_toNat (bytes : Bytes) :
    (countingSum bytes).toNat = shiftedDigits (filledBytes bytes) := by
  rw [countingSum, UInt32.toNat_ofNat', Nat.mod_eq_of_lt (shiftedDigits_lt _)]

theorem filledBytes_of_countingSum {a t : Bytes} (ha : a.length < 255 ^ 4)
    (ht : t.length < 255 ^ 4) (h : (countingSum t).toNat = (countingSum a).toNat) :
    filledBytes t = filledBytes a := by
  rw [countingSum_toNat, countingSum_toNat] at h
  have hcount := filledBytes_le_length a
  have hcount' := filledBytes_le_length t
  unfold shiftedDigits at h
  omega

/-- Four bytes that stand for digits from 1 to 255 are not zero. -/
theorem filled_of_ofLe {bytes : Bytes} (hlen : bytes.length = 4) {n : Nat}
    (h : ofLe bytes = shiftedDigits n) : ∀ b ∈ bytes, b ≠ 0 := by
  match bytes, hlen with
  | [b0, b1, b2, b3], _ =>
    have h0 : b0.toNat < 256 := b0.toNat_lt
    have h1 : b1.toNat < 256 := b1.toNat_lt
    have h2 : b2.toNat < 256 := b2.toNat_lt
    have h3 : b3.toNat < 256 := b3.toNat_lt
    simp only [ofLe, Nat.mul_zero, Nat.add_zero, shiftedDigits] at h
    have hzero : ∀ b : UInt8, b = 0 → b.toNat = 0 := by
      intro b hb
      rw [hb]
      rfl
    intro b hb heq
    have hb0 := hzero b heq
    simp only [List.mem_cons, List.not_mem_nil, or_false] at hb
    rcases hb with rfl | rfl | rfl | rfl
    all_goals omega

/-- A format with the counting checksum. Identifiers are single bytes, and the
    hash of a byte string starts with its first byte. -/
def countingPrimitives : Primitives UInt8 where
  text cid := [cid]
  parse bytes := bytes.head?
  raw bytes := bytes.headD 0
  crc32c := countingSum
  blake3 bytes := bytes.headD 0 :: zeros 31
  parse_text _ := rfl
  text_pos _ := Nat.one_pos
  text_le _ := show 1 ≤ 512 by decide
  blake3_length _ := rfl

/-- A checksum can notice torn writes. -/
theorem counting_detects {limit : Nat} (hlim : limit < 255 ^ 4) :
    countingPrimitives.Detects limit where
  payload a t ha ht hne heq := by
    have hlen := ht.length_eq
    have hcount := filledBytes_of_countingSum (by omega) (by omega) (congrArg UInt32.toNat heq)
    exact hne ((filledBytes_le_of_torn ht).2 hcount)
  header h t hlen hintact ht hne _ hintact' := by
    rw [recordHeaderBytes_eq] at hlen
    have hlen' : t.length = 4096 := by rw [ht.length_eq, hlen]
    have hlength : ∀ bytes : Bytes, bytes.length = 4096 →
        (Bytes.patch bytes 56 (zeros 4)).length = 4096 := by
      intro bytes hbytes
      rw [length_patch (by rw [length_zeros]; omega), hbytes]
    unfold headerIntact at hintact hintact'
    have hbody := hlength h hlen
    have hbody' := hlength t hlen'
    -- The checksum of the copy is a count, so none of its bytes was lost.
    have hfield : Bytes.slice t 56 4 = Bytes.slice h 56 4 := by
      have hcount : ofLe (Bytes.slice t 56 4) =
          shiftedDigits (filledBytes (Bytes.patch t 56 (zeros 4))) :=
        hintact'.trans (countingSum_toNat _)
      exact (torn_slice ht 56 4).eq_of_filled (filled_of_ofLe (length_slice (by omega)) hcount)
    -- So the rest has as many bytes as before.
    have hsum : (countingSum (Bytes.patch t 56 (zeros 4))).toNat =
        (countingSum (Bytes.patch h 56 (zeros 4))).toNat :=
      hintact'.symm.trans ((congrArg ofLe hfield).trans hintact)
    have hrest : Bytes.patch t 56 (zeros 4) = Bytes.patch h 56 (zeros 4) :=
      (filledBytes_le_of_torn (torn_patch ht 56 (zeros 4))).2
        (filledBytes_of_countingSum (by omega) (by omega) hsum)
    refine hne ?_
    have hwhole : ∀ bytes : Bytes, bytes.length = 4096 →
        Bytes.patch (Bytes.patch bytes 56 (zeros 4)) 56 (Bytes.slice bytes 56 4) = bytes := by
      intro bytes hbytes
      rw [patch_patch (by omega) (by rw [length_slice (by omega), length_zeros]), patch_slice]
      rw [length_slice (by omega)]
    rw [← hwhole t hlen', hrest, hfield, hwhole h hlen]

end Native

end Pepper
