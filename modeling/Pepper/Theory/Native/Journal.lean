import Pepper.Base.Journal
import Pepper.Theory.Native.Scan

/-!
# The Engine as a Journal

What the batches in the segments mean: each record is an update of the map from
identifiers to blocks, and an index is right if it points at the blocks of that
map.

The engine never compares its index with the segments. Both are brought about
by the same updates, one by the call and one by recovery, and `Represents` is
kept by each of them. It does not fix where a block is found, because a
compaction that fails half way leaves two copies of a block and the index may
point at either.

## Main definitions

* `Record.update`, `Batch.updates`: Records as updates.
* `locate`, `Points`: A location is that of a block in the journal.
* `Represents`: An index shows the blocks that are held.
* `image`: The bytes of a segment.
* `Stores`: A file starts with the batches of a segment.
* `Serves`: What the calls of an engine show.

## Theorems

* `represents_replay`: Recovery applies the updates.
* `represents_install`: A put applies the updates.
* `read_points`: A block is read where a location says.
* `patch_image`: Appending a batch to a segment.
* `serves_of_represents`: A right index and the files behind it.
-/

namespace Pepper

namespace Native

open List hiding after

open Bytes

variable {Cid : Type}

def Record.update : Record Cid → Update Cid (EncodedBlock Cid)
  | .data block => (block.cid, some block)
  | .tombstone cid => (cid, none)

def Batch.updates (batch : Batch Cid) : List (Update Cid (EncodedBlock Cid)) :=
  batch.records.map Record.update

/-- The location of a block whose payload starts at an offset. -/
def locate (seg : SegmentHandle) (payloadOffset : Nat) (block : EncodedBlock Cid) :
    RecordLocation Cid where
  cid := block.cid
  logicalSize := block.logicalSize.toNat
  storedSize := block.bytes.length
  payloadOffset := payloadOffset
  paddedSize := alignUp block.bytes.length
  segment := seg

/-- The location is that of the data record of the block. -/
def Points (log : SegmentHandle → List (Batch Cid)) (location : RecordLocation Cid)
    (block : EncodedBlock Cid) : Prop :=
  ∃ before batch after, ∃ pre post : List (Record Cid),
    log location.segment = before ++ batch :: after ∧ batch.records = pre ++ .data block :: post ∧
    location = locate location.segment
      (segmentHeaderBytes + batchesSize before + recordsSize pre + recordHeaderBytes) block

variable {block : EncodedBlock Cid} {location : RecordLocation Cid}
  {log : SegmentHandle → List (Batch Cid)}

theorem Points.mono {log' : SegmentHandle → List (Batch Cid)} (h : Points log location block)
    (hlog : log location.segment <+: log' location.segment) : Points log' location block := by
  rcases h with ⟨before, batch, after, pre, post, hbat, hrecords, hloc⟩
  rcases hlog with ⟨more, hmore⟩
  refine ⟨before, batch, after ++ more, pre, post, ?_, hrecords, hloc⟩
  rw [← hmore, hbat, append_assoc, cons_append]

theorem Points.cid_eq (h : Points log location block) :
    location.cid = block.cid := by
  rcases h with ⟨_, _, _, _, _, _, _, hloc⟩
  rw [hloc]
  rfl

/-- What a location points at is in the journal. -/
theorem Points.mem (h : Points log location block) :
    ∃ batch ∈ log location.segment, .data block ∈ batch.records := by
  rcases h with ⟨before, batch, after, pre, post, hbat, hrecords, _⟩
  refine ⟨batch, ?_, ?_⟩
  · rw [hbat]
    exact mem_append_right _ mem_cons_self
  · rw [hrecords]
    exact mem_append_right _ mem_cons_self

theorem batchesSize_singleton (batch : Batch Cid) : batchesSize [batch] = batch.size := by
  rw [batchesSize_cons, batchesSize, map_nil, sum_nil, Nat.add_zero]

theorem encodeAll_singleton (p : Primitives Cid) (batch : Batch Cid) :
    encodeAll p [batch] = batch.encode p := by
  rw [encodeAll_cons, encodeAll, map_nil, flatten_nil, append_nil]

/-! ## Indexes -/

variable {batch : Batch Cid}

section Index

variable [Ord Cid] [Std.TransOrd Cid] [Std.LawfulEqOrd Cid] [DecidableEq Cid]

/-- The index shows each block that is held, and no other. -/
def Represents (log : SegmentHandle → List (Batch Cid)) (index : Index Cid)
    (held : Cid → Option (EncodedBlock Cid)) : Prop :=
  ∀ cid, Option.Rel (fun location block => block.cid = cid ∧ Points log location block)
    index[cid]? (held cid)

variable {log log' : SegmentHandle → List (Batch Cid)} {index : Index Cid}
  {held : Cid → Option (EncodedBlock Cid)}

omit [DecidableEq Cid] [Std.LawfulEqOrd Cid] in
theorem represents_empty : Represents log (∅ : Index Cid) emptyMap := by
  intro cid
  rw [Std.ExtTreeMap.getElem?_empty]
  exact Option.Rel.none

section

variable (h : Represents log index held)

include h

omit [DecidableEq Cid] [Std.LawfulEqOrd Cid] in
theorem Represents.mono
    (hlog : ∀ (cid : Cid) (location : RecordLocation Cid), index[cid]? = some location →
      log location.segment <+: log' location.segment) : Represents log' index held := by
  intro cid
  have hcid := h cid
  cases hidx : index[cid]? with
  | none =>
    rw [hidx] at hcid
    cases hheld : held cid with
    | none => exact Option.Rel.none
    | some block =>
      rw [hheld] at hcid
      cases hcid
  | some location =>
    rw [hidx] at hcid
    cases hheld : held cid with
    | none =>
      rw [hheld] at hcid
      cases hcid
    | some block =>
      rw [hheld] at hcid
      cases hcid with
      | some hpoints => exact .some ⟨hpoints.1, hpoints.2.mono (hlog cid location hidx)⟩

variable {cid : Cid} {after before : List (Batch Cid)}

omit [DecidableEq Cid] [Std.LawfulEqOrd Cid] in
/-- What is indexed is held. -/
theorem Represents.of_index (hidx : index[cid]? = some location) :
    ∃ block, held cid = some block ∧ block.cid = cid ∧ Points log location block := by
  have hcid := h cid
  rw [hidx] at hcid
  cases hheld : held cid with
  | none =>
    rw [hheld] at hcid
    cases hcid
  | some block =>
    rw [hheld] at hcid
    cases hcid with
    | some hpoints => exact ⟨block, rfl, hpoints⟩

omit [DecidableEq Cid] [Std.LawfulEqOrd Cid] in
theorem Represents.of_held (hheld : held cid = some block) :
    ∃ location, index[cid]? = some location ∧ block.cid = cid ∧ Points log location block := by
  have hcid := h cid
  rw [hheld] at hcid
  cases hidx : index[cid]? with
  | none =>
    rw [hidx] at hcid
    cases hcid
  | some location =>
    rw [hidx] at hcid
    cases hcid with
    | some hpoints => exact ⟨location, rfl, hpoints⟩

omit [DecidableEq Cid] [Std.LawfulEqOrd Cid] in
theorem Represents.none_iff (cid : Cid) : index[cid]? = none ↔ held cid = none := by
  have hcid := h cid
  constructor
  · intro hidx
    rw [hidx] at hcid
    cases hheld : held cid with
    | none => rfl
    | some block =>
      rw [hheld] at hcid
      cases hcid
  · intro hheld
    rw [hheld] at hcid
    cases hidx : index[cid]? with
    | none => rfl
    | some location =>
      rw [hidx] at hcid
      cases hcid

theorem Represents.insert (hpoints : Points log location block) :
    Represents log (index.insert block.cid location)
      (Function.update held block.cid (some block)) := by
  intro cid
  rw [getElem?_insert_eq]
  by_cases hcid : cid = block.cid
  · rw [if_pos hcid.symm, hcid, Function.update_self]
    exact .some ⟨rfl, hpoints⟩
  · rw [if_neg fun heq => hcid heq.symm, Function.update_of_ne hcid]
    exact h cid

theorem Represents.erase (cid : Cid) :
    Represents log (index.erase cid) (Function.update held cid none) := by
  intro c
  rw [getElem?_erase_eq]
  by_cases hc : c = cid
  · rw [if_pos hc.symm, hc, Function.update_self]
    exact .none
  · rw [if_neg fun heq => hc heq.symm, Function.update_of_ne hc]
    exact h c

/-- A put enters the locations of its blocks. -/
theorem represents_install {staged : List (RecordLocation Cid)} {blocks : List (EncodedBlock Cid)}
    (hstaged : List.Forall₂ (Points log) staged blocks) :
    Represents log (staged.foldl (fun index record => index.insert record.cid record) index)
      (outcome held (blocks.map fun block => (Record.data block).update)) := by
  induction hstaged generalizing index held with
  | nil => exact h
  | cons hpoints _ ih =>
    rw [foldl_cons, map_cons, outcome_cons, hpoints.cid_eq]
    exact ih (h.insert hpoints)

end

variable (p : Primitives Cid)

theorem represents_records {seg : SegmentHandle} {id : Nat}
    (hlog : log seg = before ++ batch :: after) {pre post : List (Record Cid)}
    (hrecords : batch.records = pre ++ post) (h : Represents log index held) :
    Represents log ((recovered p id (segmentHeaderBytes + batchesSize before + recordsSize pre)
      post).foldl (applyRecord seg) index) (outcome held (post.map Record.update)) := by
  induction post generalizing pre index held with
  | nil => exact h
  | cons record post ih =>
    rw [recovered, foldl_cons, map_cons, outcome_cons]
    have hnext : recordsSize pre + record.size = recordsSize (pre ++ [record]) := by
      rw [recordsSize_append, recordsSize_cons, show recordsSize ([] : List (Record Cid)) = 0
        from rfl, Nat.add_zero]
    rw [Nat.add_assoc _ _ record.size, hnext]
    refine ih (by rw [hrecords, append_assoc, singleton_append]) ?_
    cases record with
    | data block =>
      have hne : recordData ≠ recordTombstone := by decide
      have happly : applyRecord seg index ⟨(Record.data block).header p id,
          segmentHeaderBytes + batchesSize before + recordsSize pre + recordHeaderBytes⟩ =
          index.insert block.cid (locate seg (segmentHeaderBytes + batchesSize before +
            recordsSize pre + recordHeaderBytes) block) :=
        if_neg hne
      rw [happly]
      exact h.insert ⟨before, batch, after, pre, post, hlog, hrecords, rfl⟩
    | tombstone cid => exact h.erase cid

/-- Recovery of a segment applies the updates of its batches. -/
theorem represents_replay {seg : SegmentHandle} {batches : List (Batch Cid)}
    (hlog : log seg = before ++ batches ++ after) (h : Represents log index held) :
    Represents log (replay p seg (segmentHeaderBytes + batchesSize before) batches index)
      (outcome held (batches.flatMap Batch.updates)) := by
  induction batches generalizing before index held with
  | nil => exact h
  | cons batch batches ih =>
    rw [append_assoc, cons_append] at hlog
    have hnext : segmentHeaderBytes + batchesSize before + batch.size =
        segmentHeaderBytes + batchesSize (before ++ [batch]) := by
      rw [batchesSize_append, batchesSize_singleton, Nat.add_assoc]
    rw [replay, flatMap_cons, outcome_append, hnext]
    refine ih ?_ ?_
    · rw [hlog, append_assoc, append_assoc, singleton_append]
    · have hrecords : batch.records = [] ++ batch.records := rfl
      exact represents_records p hlog hrecords h

end Index

/-! ## Bytes -/

variable (p : Primitives Cid)

/-- The file starts with a header block and these batches. -/
def Stores (bytes : Bytes) (batches : List (Batch Cid)) : Prop :=
  ∃ header rest, header.length = segmentHeaderBytes ∧
    bytes = header ++ (encodeAll p batches ++ rest)

/-- A block is read where its location says. -/
theorem read_points (hpoints : Points log location block) {bytes : Bytes}
    (hbytes : Stores p bytes (log location.segment)) :
    ∃ found, readAt bytes location.payloadOffset location.paddedSize = some found ∧
      found.take location.storedSize = block.bytes := by
  rcases hpoints with ⟨before, batch, after, pre, post, hbat, hrecords, hloc⟩
  rcases hbytes with ⟨header, rest, hheader, hbytes⟩
  have halign := le_alignUp block.bytes.length
  have hpay : (Record.data block).payload.length = alignUp block.bytes.length := by
    rw [Record.payload, length_append, length_zeros, Nat.add_sub_cancel' halign]
  -- The file up to the payload, the payload, and what follows.
  have hsplit : ∃ front back, front.length = segmentHeaderBytes + batchesSize before +
      recordsSize pre + recordHeaderBytes ∧
      bytes = front ++ ((Record.data block).payload ++ back) := by
    refine ⟨header ++ encodeAll p before ++ (pre.map (Record.encode p batch.id)).flatten ++
        sealedHeader p ((Record.data block).header p batch.id),
      (post.map (Record.encode p batch.id)).flatten ++ sealedHeader p (batch.commit p) ++
        (encodeAll p after ++ rest), ?_, ?_⟩
    · simp only [length_append, hheader, length_encodeAll, Batch.length_flatten_encode,
        length_sealedHeader p (Record.commitDigest_header p batch.id _), recordHeaderBytes_eq]
    · rw [hbytes, hbat, encodeAll_append, encodeAll_cons, Batch.encode, Batch.body, hrecords,
        map_append, flatten_append, map_cons, flatten_cons, Record.encode]
      simp only [append_assoc]
  rcases hsplit with ⟨front, back, hfront, hbytes'⟩
  refine ⟨(Record.data block).payload, ?_, ?_⟩
  · rw [hloc, hbytes']
    show readAt _ (segmentHeaderBytes + batchesSize before + recordsSize pre + recordHeaderBytes)
      (alignUp block.bytes.length) = _
    rw [← hfront, ← hpay, readAt_append (by rw [length_append]; omega), take_left]
  · rw [hloc]
    show ((Record.data block).payload).take block.bytes.length = _
    rw [Record.payload, take_left]

variable (cfg : NativeConfig)

/-- The bytes of a segment with some batches. -/
def image (seg : SegmentHandle) (batches : List (Batch Cid)) : Bytes :=
  segmentHeaderBlock p seg.owner seg.generation seg.segmentId ++ (encodeAll p batches ++
      zeros (cfg.segmentBytes - (segmentHeaderBytes + batchesSize batches)))

section Image

variable {p cfg} {seg : SegmentHandle} {batches : List (Batch Cid)}

theorem stores_image : Stores p (image p cfg seg batches) batches :=
  ⟨_, _, length_segmentHeaderBlock p _ _ _, rfl⟩

theorem length_front : (segmentHeaderBlock p seg.owner seg.generation seg.segmentId ++
    encodeAll p batches).length = segmentHeaderBytes + batchesSize batches := by
  rw [length_append, length_segmentHeaderBlock, length_encodeAll, segmentHeaderBytes_eq]

/-- Appending a batch to a segment. -/
theorem patch_image : patch (image p cfg seg batches) (segmentHeaderBytes + batchesSize batches)
      (batch.encode p) = image p cfg seg (batches ++ [batch]) := by
  rw [image, ← append_assoc, ← length_front (p := p), patch_zeros, image, encodeAll_append,
    encodeAll_singleton, batchesSize_append, batchesSize_singleton, length_front,
    Batch.length_encode]
  simp only [append_assoc]
  rw [Nat.sub_sub, Nat.add_assoc]

/-- Zeros behind the batches change nothing. -/
theorem patch_image_zeros {n : Nat}
    (h : segmentHeaderBytes + batchesSize batches + n ≤ cfg.segmentBytes) :
    patch (image p cfg seg batches) (segmentHeaderBytes + batchesSize batches) (zeros n) =
      image p cfg seg batches := by
  rw [image, ← append_assoc, ← length_front (p := p), patch_zeros, length_zeros,
    append_assoc _ (zeros n), zeros_append, length_front]
  congr 2
  omega

end Image

/-! ## Reading -/

section Reading

variable {p} [Ord Cid] {s : NativeInner Cid} {log : SegmentHandle → List (Batch Cid)}
  {held : Cid → Option (EncodedBlock Cid)}

theorem readRecord_of_stores {file : DiskFile} (hpoints : Points log location block)
    (hfile : s.disk[location.segment]? = some file)
    (hstores : Stores p file.bytes (log location.segment)) :
    readRecord location s = (.ok block.bytes, s) := by
  rcases read_points p hpoints hstores with ⟨found, hread, htake⟩
  unfold readRecord
  simp only [Bind.bind, Fallible.get, hfile, Fallible.expect, Pure.pure, hread, htake]

variable [Std.TransOrd Cid]

/-- The engine shows these blocks and no others. -/
def Serves (s : NativeInner Cid) (held : Cid → Option (EncodedBlock Cid)) : Prop :=
  ∀ cid, s.index.contains cid = (held cid).isSome ∧
    ∀ block, held cid = some block → read cid s = (.ok block.bytes, s)

theorem serves_of_represents (h : Represents log s.index held)
    (hstores : ∀ location block, Points log location block → ∃ file : DiskFile,
      s.disk[location.segment]? = some file ∧ Stores p file.bytes (log location.segment)) :
    Serves s held := by
  intro cid
  constructor
  · rw [Std.ExtTreeMap.contains_eq_isSome_getElem?]
    cases hheld : held cid with
    | none =>
      rw [(h.none_iff cid).mpr hheld]
      rfl
    | some block =>
      rcases h.of_held hheld with ⟨location, hidx, _⟩
      rw [hidx]
      rfl
  · intro block hheld
    rcases h.of_held hheld with ⟨location, hidx, _, hpoints⟩
    rcases hstores location block hpoints with ⟨file, hfile, hbytes⟩
    unfold read
    simp only [Bind.bind, Fallible.get, hidx, Fallible.expect]
    exact readRecord_of_stores hpoints hfile hbytes

end Reading

end Native

end Pepper
