import Pepper.Core.Compaction

/-!
# Compaction Keeps the Last Record of a Key

The cleaner decides for whole batches, while readers look for the last record of
a key. The last batch with a key is always kept, and no batch behind it has the
key. So it does not matter which other batches are kept: the last record with
the key is in that batch, where it was.

## Main definitions

* `lastRecord`: The last record with a key, and its place.
* `Exempt`: The batches that are kept whatever their keys are.

## Theorems

* `lastRecord_filter`: It is enough to keep the last batch with a key.
* `retained_keeps_last_records`: What is kept serves every key as before.
-/

namespace Pepper

namespace Kafka

open List

section Selection

variable (decodeAll : Bytes → Option (List CompactionRecord))

/-- A record is found with the base offset of its batch and its index there. -/
def lastRecord (key : Bytes) (batches : List CompactionBatch) :
    Option (Nat × Nat × CompactionRecord) :=
  (batches.flatMap fun batch =>
    (((decodeAll batch.bytes).getD []).zipIdx.filter (·.1.key = some key)).map
      fun (record, index) => (batch.baseOffset, index, record)).getLast?

/-- The batch cannot be decoded, or it has a record that is not compacted. -/
def Exempt (nowMs deleteRetentionMs : Nat) (batch : CompactionBatch) : Prop :=
  decodeAll batch.bytes = none ∨ ∃ record ∈ (decodeAll batch.bytes).getD [],
    record.key = none ∨ record.control = true ∨ 0 ≤ record.producerId ∨
      record.value = none ∧ nowMs - record.time batch < deleteRetentionMs

variable {decodeAll} {key : Bytes} {batch : CompactionBatch} {nowMs deleteRetentionMs : Nat}

theorem lastRecord_append (front back : List CompactionBatch) :
    lastRecord decodeAll key (front ++ back) =
      (lastRecord decodeAll key back).or (lastRecord decodeAll key front) := by
  simp [lastRecord, getLast?_append]

theorem baseOffset_decodeBatch : (decodeBatch decodeAll batch).baseOffset = batch.baseOffset := by
  unfold decodeBatch
  split <;> rfl

/-- The keys of a decoded batch are those that have a last record in it. -/
theorem any_keys_decodeBatch :
    (decodeBatch decodeAll batch).keys.any (·.1 = key) =
    (lastRecord decodeAll key [batch]).isSome := by
  have hsome : (lastRecord decodeAll key [batch]).isSome = true ↔
      ∃ record ∈ (decodeAll batch.bytes).getD [], record.key = some key := by
    simp only [lastRecord, Option.isSome_iff_ne_none, flatMap_singleton, ne_eq,
      getLast?_eq_none_iff, map_eq_nil_iff, filter_eq_nil_iff, Prod.forall,
      mem_zipIdx_iff_getElem?]
    grind [mem_iff_getElem?]
  rw [Bool.eq_iff_iff, hsome]
  unfold decodeBatch
  cases decodeAll batch.bytes with
  | none => simp
  | some records =>
    simp only [any_eq_true, mem_filterMap, Option.map_eq_some_iff]
    grind

theorem getElem?_noteLatest (latest : BTreeMap Bytes Nat) (batch : DecodedBatch) (key : Bytes) :
    (noteLatest latest batch)[key]? =
      if batch.keys.any (·.1 = key) then some batch.baseOffset else latest[key]? := by
  unfold noteLatest
  induction batch.keys generalizing latest with
  | nil => simp
  | cons entry keys ih =>
    rw [foldl_cons, ih, getElem?_insert_eq, any_cons]
    by_cases hkey : entry.1 = key
    · simp [hkey]
    · rw [if_neg hkey, decide_eq_false hkey, Bool.false_or]

/-- It is enough to keep the batch that the cleaner knows as the last one with a
    key. -/
theorem lastRecord_filter (keeps : CompactionBatch → Bool) (batches : List CompactionBatch)
    (h : ∀ batch ∈ batches, (lastRecord decodeAll key [batch]).isSome = true →
      ((batches.map (decodeBatch decodeAll)).foldl noteLatest ∅)[key]? = some batch.baseOffset →
        keeps batch = true) :
    lastRecord decodeAll key (batches.filter keeps) = lastRecord decodeAll key batches := by
  induction batches using List.reverseRecOn with
  | nil => rfl
  | append_singleton batches last ih =>
    simp only [map_append, map_cons, map_nil, foldl_append, foldl_cons,
      foldl_nil, getElem?_noteLatest, any_keys_decodeBatch, baseOffset_decodeBatch] at h
    rw [filter_append, lastRecord_append, lastRecord_append]
    cases hlast : lastRecord decodeAll key [last] with
    | none =>
      have hrest : lastRecord decodeAll key ([last].filter keeps) = none := by
        cases hkeeps : keeps last <;> simp [hkeeps, hlast]
        rfl
      rw [hrest, ih]
      intro batch hbat hsome hlatest
      exact h batch (by simp [hbat]) hsome (by simpa [hlast] using hlatest)
    | some record =>
      have hkeeps : keeps last = true := h last (by simp) (by simp [hlast]) (by simp [hlast])
      simp [hkeeps, hlast]

theorem Exempt.retained (h : Exempt decodeAll nowMs deleteRetentionMs batch)
    (latest : BTreeMap Bytes Nat) :
    (decodeBatch decodeAll batch).retained latest nowMs deleteRetentionMs = true := by
  unfold DecodedBatch.retained DecodedBatch.protectedTombstone decodeBatch
  rcases h with hnone | ⟨record, hrec, hkind⟩
  · simp [hnone]
  · cases hdecoded : decodeAll batch.bytes with
    | none => simp
    | some records =>
      rw [hdecoded, Option.getD_some] at hrec
      simp only [Bool.or_eq_true, any_eq_true, mem_filterMap]
      cases hkey : record.key with
      | none => exact Or.inl (Or.inl ⟨record, hrec, by simp [hkey]⟩)
      | some key =>
        rcases hkind with h | h | h | ⟨hvalue, hyoung⟩
        · simp [hkey] at h
        · exact Or.inl (Or.inl ⟨record, hrec, by simp [h]⟩)
        · exact Or.inl (Or.inl ⟨record, hrec, by simp [h]⟩)
        · exact Or.inl (Or.inr ⟨(key, true, record.time batch),
            ⟨record, hrec, by simp [hkey, hvalue]⟩, by simpa using hyoung⟩)

end Selection

/-- Whatever is kept besides the selected batches, the last record with a key is
    the one it was. Batches with records that are not compacted are selected. -/
theorem retained_keeps_last_records (decodeAll : Bytes → Option (List CompactionRecord))
    (batches : List CompactionBatch) (nowMs deleteRetentionMs : Nat) (kept : BTreeSet Nat) :
    let retained := (selectRetainedBatches decodeAll batches nowMs
      deleteRetentionMs).retainedOffsets
    ((∀ offset ∈ retained, offset ∈ kept) → ∀ key,
      lastRecord decodeAll key (batches.filter fun batch => batch.baseOffset ∈ kept) =
        lastRecord decodeAll key batches) ∧
    ∀ batch ∈ batches, Exempt decodeAll nowMs deleteRetentionMs batch →
      batch.baseOffset ∈ retained := by
  intro retained
  -- A batch that passes the check of the second loop is selected.
  have hselected : ∀ batch ∈ batches, (decodeBatch decodeAll batch).retained
      ((batches.map (decodeBatch decodeAll)).foldl noteLatest ∅) nowMs deleteRetentionMs = true →
      batch.baseOffset ∈ retained := by
    intro batch hbatch hretained
    simp only [retained, selectRetainedBatches, Std.ExtTreeSet.mem_ofList, contains_iff_mem,
      mem_map, mem_filter]
    exact ⟨_, ⟨⟨batch, hbatch, rfl⟩, hretained⟩, baseOffset_decodeBatch⟩
  refine ⟨fun hkept key => ?_, fun batch hbatch h => hselected batch hbatch (h.retained _)⟩
  refine lastRecord_filter _ batches fun batch hbatch hsome hlatest => ?_
  rw [← any_keys_decodeBatch, any_eq_true] at hsome
  rcases hsome with ⟨entry, hentry, hkey⟩
  refine decide_eq_true (hkept _ (hselected batch hbatch ?_))
  simp only [DecodedBatch.retained, Bool.or_eq_true, any_eq_true]
  refine Or.inr ⟨entry, hentry, decide_eq_true ?_⟩
  rw [of_decide_eq_true hkey, hlatest, baseOffset_decodeBatch]

/-- A decoder for batches of one record, whose bytes are its key and its value. -/
def oneRecord : Bytes → Option (List CompactionRecord)
  | key :: value => some [⟨false, -1, 0, some [key], if value = [] then none else some value⟩]
  | [] => none

theorem retained_keeps_last_records_tombstone :
    let batches := [⟨0, 0, [1, 7]⟩, ⟨1, 0, [2, 8]⟩, ⟨2, 0, [1]⟩]
    let retained := (selectRetainedBatches oneRecord batches 9 5).retainedOffsets
    retained.toList = [1, 2] ∧
      lastRecord oneRecord [1] (batches.filter fun batch => batch.baseOffset ∈ retained) =
        lastRecord oneRecord [1] batches :=
  ⟨by decide +kernel, (retained_keeps_last_records oneRecord _ 9 5 _).1 (fun _ h => h) [1]⟩

end Kafka

end Pepper
