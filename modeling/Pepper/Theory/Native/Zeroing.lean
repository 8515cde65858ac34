import Pepper.Theory.Native.Ledger

/-!
# Segments That End in Zeros

A segment from which everything behind some position is lost, as a write that
did not get through leaves it, and what recovery makes of it.

The batches of a segment are followed from the calls that wrote them, whether or
not those calls succeeded: a put that fails may leave batches behind. A position
inside of a batch need not change it, because a commit record ends in zeros; the
batches that are read are those that still have all their bytes.

## Main definitions

* `Call.Writes`: The records a call can write.
* `Shows`: An index has what the last record of each identifier says.
* `Restores`: What a recovery answers, and a second one after it.

## Theorems

* `written_call`, `written_run`: The batches of a segment come from the calls, in
  their order.
* `lt_intactCount_iff`: The batches that are read are those without a change.
* `shows_replay`: Batches that are applied in their order.
* `zeroed_tail_recovers`: Recovery of a segment that ends in zeros.
-/

namespace Pepper

namespace Native

open Bytes Fallible List

/-! ## Batches and zeros -/

section Batches

variable {Cid : Type} {p : Primitives Cid} (batch : Batch Cid)

/-- A batch starts with a header. -/
theorem take_encode_ne_zeros :
    (batch.encode p).take recordHeaderBytes ≠ zeros recordHeaderBytes := by
  have hfront : ∀ parsed : ParsedHeader Cid, parsed.commitDigest.length = 32 → ∀ rest : Bytes,
      (sealedHeader p parsed ++ rest).take recordHeaderBytes ≠ zeros recordHeaderBytes := by
    intro parsed hdig rest
    have hlen : (sealedHeader p parsed).length = recordHeaderBytes := by
      rw [length_sealedHeader p hdig, recordHeaderBytes_eq]
    rw [take_left' hlen]
    exact sealedHeader_ne_zeros p hdig
  rcases batch with ⟨id, records⟩
  cases records with
  | nil =>
    rw [Batch.encode, Batch.body, map_nil, flatten_nil, nil_append, ← append_nil (sealedHeader p _)]
    exact hfront _ (Batch.commitDigest_commit p ⟨id, []⟩) []
  | cons record rest =>
    rw [Batch.encode, Batch.body, map_cons, flatten_cons, Record.encode, append_assoc, append_assoc]
    exact hfront _ (Record.commitDigest_header p id record) _

/-- The zeros at the front of a batch are enough to break it. -/
theorem encode_ne_of_zeros {t : Bytes} (h : t.take recordHeaderBytes = zeros recordHeaderBytes) : t
    ≠ batch.encode p := by
  intro heq
  rw [heq] at h
  exact take_encode_ne_zeros batch h

theorem recordHeaderBytes_le_size : recordHeaderBytes ≤ batch.size :=
  Nat.le_add_left _ _

variable (batches : List (Batch Cid))

theorem intactCount_le (t : Bytes) :
    intactCount p batches t ≤ batches.length := by
  induction batches generalizing t with
  | nil => exact le_rfl
  | cons first rest ih =>
    rw [intactCount, length_cons]
    by_cases hintact : t.take first.size = first.encode p
    · rw [if_pos hintact]
      exact Nat.succ_le_succ (ih _)
    · rw [if_neg hintact]
      exact Nat.zero_le _

/-- A batch stands behind those before it. -/
theorem slice_encodeAll {batches : List (Batch Cid)} {i : Nat} {batch : Batch Cid}
    (hbat : batches[i]? = some batch) (rest : Bytes) :
    slice (encodeAll p batches ++ rest) (batchesSize (batches.take i)) batch.size =
      batch.encode p := by
  rcases List.getElem?_eq_some_iff.mp hbat with ⟨hi, rfl⟩
  have hsplit : batches = batches.take i ++ batches[i] :: batches.drop (i + 1) := by
    rw [← drop_eq_getElem_cons hi, take_append_drop]
  have hencode : encodeAll p batches = encodeAll p (batches.take i) ++
      (batches[i].encode p ++ encodeAll p (batches.drop (i + 1))) := by
    rw [← encodeAll_cons, ← encodeAll_append, ← hsplit]
  rw [hencode, append_assoc, append_assoc]
  exact slice_middle (length_encodeAll p _).symm (Batch.length_encode p _).symm

/-- Exactly the batches that have lost no byte are found at the front. -/
theorem lt_intactCount_iff (n position : Nat) {i : Nat} {batch : Batch Cid}
    (hbat : batches[i]? = some batch) :
    i < intactCount p batches (zeroFrom position (encodeAll p batches ++ zeros n)) ↔
      slice (zeroFrom position (encodeAll p batches ++ zeros n)) (batchesSize (batches.take i))
        batch.size = batch.encode p := by
  induction batches generalizing position i with
  | nil => exact absurd hbat (by simp)
  | cons first rest ih =>
    have hlen := Batch.length_encode p first
    rw [encodeAll_cons, append_assoc, intactCount, ← hlen, take_zeroFrom, drop_zeroFrom]
    cases i with
    | zero =>
      rw [getElem?_cons_zero, Option.some.injEq] at hbat
      subst hbat
      rw [take_zero, batchesSize, map_nil, sum_nil, slice, drop_zero, ← hlen, take_zeroFrom]
      by_cases hintact : zeroFrom position (first.encode p) = first.encode p
      · simp only [hintact, if_true, Nat.succ_pos]
      · simp only [hintact, if_false, lt_irrefl]
    | succ i =>
      rw [getElem?_cons_succ] at hbat
      rw [take_succ_cons, batchesSize_cons, ← hlen, slice, ← drop_drop, drop_zeroFrom]
      by_cases hintact : zeroFrom position (first.encode p) = first.encode p
      · rw [if_pos hintact, Nat.succ_lt_succ_iff]
        exact ih (position - (first.encode p).length) hbat
      · -- Behind a batch that was changed there are only zeros.
        rw [if_neg hintact]
        have hposition : position - (first.encode p).length = 0 := by
          by_contra hlt
          exact hintact (zeroFrom_of_le (by omega))
        refine ⟨fun h => absurd h (Nat.not_lt_zero _), fun heq => absurd heq ?_⟩
        rw [hposition, zeroFrom_zero, drop_zeros, take_zeros]
        intro heq
        have hsize := Batch.length_encode p batch
        have hheader := recordHeaderBytes_le_size batch
        rw [← heq, length_zeros] at hsize
        refine encode_ne_of_zeros batch ?_ heq
        rw [hsize, take_zeros, Nat.min_eq_left hheader]

/-- The zeros that recovery writes do not change how much is read. -/
theorem intactCount_patch (t : Bytes) :
    intactCount p batches (patch t (batchesSize (batches.take (intactCount p batches t)))
      (zeros recordHeaderBytes)) = intactCount p batches t := by
  induction batches generalizing t with
  | nil => rfl
  | cons first rest ih =>
    have hheader := recordHeaderBytes_le_size first
    by_cases hintact : t.take first.size = first.encode p
    · have hcount : intactCount p (first :: rest) t = intactCount p rest (t.drop first.size) + 1 :=
        by
        rw [intactCount, if_pos hintact]
      rw [hcount, take_succ_cons, batchesSize_cons, intactCount]
      have hsplit : t = first.encode p ++ t.drop first.size := by
        rw [← hintact, take_append_drop]
      have hpatch : patch t (first.size + batchesSize (rest.take
          (intactCount p rest (t.drop first.size)))) (zeros recordHeaderBytes) =
          first.encode p ++ patch (t.drop first.size) (batchesSize (rest.take
            (intactCount p rest (t.drop first.size)))) (zeros recordHeaderBytes) := by
        rw [← patch_append, ← hsplit, Batch.length_encode]
      rw [hpatch, take_left' (Batch.length_encode p first),
        drop_left' (Batch.length_encode p first), if_pos rfl, ih]
    · have hcount : intactCount p (first :: rest) t = 0 := by
        rw [intactCount, if_neg hintact]
      rw [hcount, take_zero, intactCount, if_neg]
      refine encode_ne_of_zeros first ?_
      rw [take_take, Nat.min_eq_left hheader]
      exact take_left' (length_zeros _)

end Batches

/-! ## The batches of a segment -/

section Written

variable {Cid : Type}

/-- The calls that write what they are given. -/
def Call.Direct : Call Cid → Prop
  | .put _ => True
  | .delete _ => True
  | .compact _ _ _ => False

/-- A call can write this record. -/
def Call.Writes : Call Cid → Record Cid → Prop
  | .put blocks, .data block => block ∈ blocks.map Subtype.val
  | .delete cid, .tombstone other => other = cid
  | _, _ => False

variable [Ord Cid] [Std.TransOrd Cid] [DecidableEq Cid] {p : Primitives Cid}
  {config : NativeConfig} {st : Ledger Cid} {j : Journal SegmentHandle (Batch Cid)}

/-- A call leaves the batches of the segments in place and writes its own records
    behind them. -/
theorem written_call (h : Sound p config st.engine j) (hpow : st.engine.power = none)
    {c : Call Cid} (hdir : c.Direct) :
    ∃ (l : List (SegmentHandle × Batch Cid)) (j' : _),
      Sound p config (st.call p config c).engine j' ∧
      (st.call p config c).engine.power = none ∧
      (∀ handle, j'.log handle = j.log handle ++
        (l.filter fun entry => entry.1 = handle).map Prod.snd) ∧
      ∀ entry ∈ l, ∀ record ∈ entry.2.records, c.Writes record := by
  cases c with
  | put blocks =>
    have hwrites : ∀ entry : SegmentHandle × Batch Cid, ∀ owner,
        Carries owner (missingBlocks st.engine.index [] (blocks.map Subtype.val)) entry →
        ∀ record ∈ entry.2.records, (Call.put blocks).Writes record := by
      intro entry owner hcarries record hrec
      rcases hcarries.2 record hrec with ⟨block, hblock, rfl⟩
      exact mem_of_missing hblock
    have hends := putBatch_ends h hpow (filled_blocks blocks)
    rw [Ledger.call]
    rcases hres : putBatch p config (blocks.map Subtype.val) st.engine with ⟨r, s'⟩
    have hr := hends.of_eq hres
    cases r with
    | ok results =>
      rcases hr with ⟨l, j', staged, hcommits, hrecords, _, _⟩
      rcases hcommits.durable with ⟨written, which, rfl, _, happends⟩
      refine ⟨l, _, hcommits.sound, hcommits.power_none, happends.log_eq,
        fun entry hent => hwrites entry entry.1.owner ⟨rfl, fun record hrec => ?_⟩⟩
      rcases (carries_of_records hrecords hent).2 record hrec with ⟨block, hblock, hdata⟩
      exact ⟨block, mem_of_mem_filter hblock, hdata⟩
    | error e =>
      -- A put that fails may have written some of its batches.
      rcases hr with ⟨l, j', hsound, hnone, hlog, hcarries⟩
      exact ⟨l, j', hsound, hnone, hlog, fun entry hent =>
        hwrites entry _ (hcarries entry hent)⟩
  | delete cid =>
    have hends := delete_ends h hpow cid
    have hnone : ∀ entry ∈ ([] : List (SegmentHandle × Batch Cid)),
        ∀ record ∈ entry.2.records, (Call.delete cid).Writes record :=
      forall_mem_nil _
    rw [Ledger.call]
    rcases hres : Native.delete p config cid st.engine with ⟨r, s'⟩
    have hr := hends.of_eq hres
    cases r with
    | ok results =>
      rcases hr with ⟨_, rfl⟩ | ⟨_, handle, id, _, ⟨j', hcommits⟩, _⟩
      · exact ⟨[], j, h, hpow, fun _ => (append_nil _).symm, hnone⟩
      · rcases hcommits.durable with ⟨written, which, rfl, _, happends⟩
        refine ⟨_, _, hcommits.sound, hcommits.power_none, happends.log_eq,
          fun entry hent record hrec => ?_⟩
        rw [mem_singleton] at hent
        subst hent
        rw [mem_singleton] at hrec
        subst hrec
        rfl
    | error e =>
      exact ⟨[], j, hr.sound, hr.power_none hpow, fun _ => (append_nil _).symm, hnone⟩
  | compact owner records paths => exact hdir.elim

/-- After any number of calls a segment holds what each of them wrote to it, in
    the order of the calls. -/
theorem written_run (h : Sound p config st.engine j) (hpow : st.engine.power = none)
    {calls : List (Call Cid)} (hdir : ∀ c ∈ calls, c.Direct) :
    ∃ j', Sound p config (runOps (Ledger.call p config) st calls).engine j' ∧
      ∀ handle, ∃ written : List (List (Batch Cid)),
        List.Forall₂ (fun c batches => ∀ batch ∈ batches, ∀ record ∈ batch.records,
          Call.Writes c record) calls written ∧
        j'.log handle = j.log handle ++ written.flatten := by
  induction calls generalizing st j with
  | nil => exact ⟨j, h, fun handle => ⟨[], .nil, (append_nil _).symm⟩⟩
  | cons c rest ih =>
    rcases written_call h hpow (hdir c mem_cons_self) with
      ⟨l, j1, hsound, hnone, hlog, hwrites⟩
    rcases ih hsound hnone fun c' hc' => hdir c' (mem_cons_of_mem _ hc') with
      ⟨j', hsound', hrest⟩
    refine ⟨j', hsound', fun handle => ?_⟩
    rcases hrest handle with ⟨written, hforall, hlog'⟩
    refine ⟨(l.filter fun entry => entry.1 = handle).map Prod.snd :: written,
      .cons (fun batch hbat => ?_) hforall, ?_⟩
    · rcases mem_map.mp hbat with ⟨entry, hent, rfl⟩
      exact hwrites entry (mem_of_mem_filter hent)
    · rw [hlog', hlog, flatten_cons, append_assoc]

end Written

/-! ## Recovery -/

section Zeroing

variable {Cid : Type} [Ord Cid] [Std.TransOrd Cid] {p : Primitives Cid}
  {config : NativeConfig} {handle : SegmentHandle} {batches : List (Batch Cid)}

/-- What recovery writes to a segment that ends in zeros leaves it to be read as
    before. -/
theorem legible_cleaned (hdet : p.Detects config.segmentBytes) {header t : Bytes} {n : Nat}
    (hheader : header.length = segmentHeaderBytes)
    (hval : validateSegmentHeader p header handle.owner handle.generation handle.segmentId = true)
    (hfits : ∀ batch ∈ batches, batch.Fits) (ht : Torn (encodeAll p batches ++ zeros n) t)
    (hlen : segmentHeaderBytes + batchesSize batches + n = config.segmentBytes)
    {before after : DiskFile} (hbef : before.bytes = header ++ t)
    (hcleaned : Cleaned config
      (segmentHeaderBytes + batchesSize (batches.take (intactCount p batches t))) before after) :
    Legible p config handle after.bytes (batches.take (intactCount p batches t)) := by
  rcases hcleaned with rfl | ⟨hroom, rfl⟩
  · rw [hbef]
    exact legible_torn hheader hval hfits ht (Or.inl hdet) (by omega)
  · have hpatch : patch before.bytes
        (segmentHeaderBytes + batchesSize (batches.take (intactCount p batches t)))
        (zeros recordHeaderBytes) =
        header ++ patch t (batchesSize (batches.take (intactCount p batches t)))
          (zeros recordHeaderBytes) := by
      rw [hbef, ← hheader, patch_append]
    have hbound : (encodeAll p batches ++ zeros n).length = batchesSize batches + n := by
      rw [length_append, length_encodeAll, length_zeros]
    have hpatched := ht.patch_zeros (o := batchesSize (batches.take (intactCount p batches t)))
      (n := recordHeaderBytes) (by omega)
    have hlegible : Legible p config handle _ _ :=
      legible_torn hheader hval hfits hpatched (Or.inl hdet) (by omega)
    rw [intactCount_patch, ← hpatch] at hlegible
    exact hlegible

theorem replay_append (start : Nat) (first second : List (Batch Cid)) (index : Index Cid) :
    replay p handle start (first ++ second) index =
      replay p handle (start + batchesSize first) second (replay p handle start first index) := by
  induction first generalizing start index with
  | nil => rfl
  | cons batch first ih =>
    rw [cons_append, replay, ih, replay, batchesSize_cons, Nat.add_assoc]

variable [DecidableEq Cid] [Std.LawfulEqOrd Cid]

/-- What the index has for a record that starts at an offset. -/
def Record.entry (handle : SegmentHandle) (start : Nat) : Record Cid → Option (RecordLocation Cid)
  | .data block => some (locate handle (start + recordHeaderBytes) block)
  | .tombstone _ => none

/-- The last record of an identifier decides: a block is found where its record is,
    and what has a tombstone is not found. Identifiers without a record are as they
    were. -/
structure Shows (handle : SegmentHandle) (batches : List (Batch Cid)) (index index' : Index Cid) :
    Prop where
  others : ∀ cid, (∀ r ∈ batches.flatMap Batch.records, r.update.1 ≠ cid) →
    index'[cid]? = index[cid]?
  last : ∀ before batch after pre record post, batches = before ++ batch :: after →
    batch.records = pre ++ record :: post →
    (∀ r ∈ post ++ after.flatMap Batch.records, r.update.1 ≠ record.update.1) →
    index'[record.update.1]? =
      record.entry handle (segmentHeaderBytes + batchesSize before + recordsSize pre)

theorem getElem?_applyRecord (record : Record Cid) (id start : Nat) (index : Index Cid)
    (cid : Cid) : (applyRecord handle index ⟨record.header p id, start + recordHeaderBytes⟩)[cid]? =
      if record.update.1 = cid then record.entry handle start else index[cid]? := by
  cases record with
  | data block => exact getElem?_insert_eq index block.cid cid _
  | tombstone other => exact getElem?_erase_eq index other cid

theorem getElem?_recovered_of_ne {records : List (Record Cid)} {cid : Cid} (id start : Nat)
    (h : ∀ r ∈ records, r.update.1 ≠ cid) (index : Index Cid) :
    ((recovered p id start records).foldl (applyRecord handle) index)[cid]? = index[cid]? := by
  induction records generalizing start index with
  | nil => rfl
  | cons record rest ih =>
    rw [forall_mem_cons] at h
    rw [recovered, foldl_cons, ih _ h.2, getElem?_applyRecord, if_neg h.1]

theorem getElem?_replay_of_ne {cid : Cid} (start : Nat)
    (h : ∀ r ∈ batches.flatMap Batch.records, r.update.1 ≠ cid) (index : Index Cid) :
    (replay p handle start batches index)[cid]? = index[cid]? := by
  induction batches generalizing start index with
  | nil => rfl
  | cons batch rest ih =>
    rw [flatMap_cons, forall_mem_append] at h
    rw [replay, ih _ h.2]
    exact getElem?_recovered_of_ne batch.id start h.1 index

theorem shows_replay (batches : List (Batch Cid)) (index : Index Cid) :
    Shows handle batches index (replay p handle segmentHeaderBytes batches index) where
  others cid h := getElem?_replay_of_ne segmentHeaderBytes h index
  last before batch after pre record post hsplit hrecords hlast := by
    rw [forall_mem_append] at hlast
    rw [hsplit, replay_append, replay, getElem?_replay_of_ne _ hlast.2, Batch.apply, hrecords,
      recovered_append, foldl_append, recovered, foldl_cons, getElem?_recovered_of_ne _ _ hlast.1,
      getElem?_applyRecord, if_pos rfl]

/-- Recovery of a segment applies the batches to the index and answers with their
    end, and recovery of the segment that it leaves behind does the same. -/
def Restores (p : Primitives Cid) (config : NativeConfig) (handle : SegmentHandle)
    (batches : List (Batch Cid)) (s : NativeInner Cid) : Prop :=
  ∃ s', recoverSegment p config handle s =
      (.ok (segmentHeaderBytes + batchesSize batches), s') ∧
    Shows handle batches s.index s'.index ∧
    ∀ again : NativeInner Cid, again.power = none → again.index = s.index →
      again.disk[handle]? = s'.disk[handle]? →
      ∃ s'', recoverSegment p config handle again =
          (.ok (segmentHeaderBytes + batchesSize batches), s'') ∧ s''.index = s'.index

/-- A segment that can be read before and after it is cleaned is restored. -/
theorem restores_of_legible {s : NativeInner Cid} {file : DiskFile} (hpower : s.power = none)
    (hfile : s.disk[handle]? = some file) (hlegible : Legible p config handle file.bytes batches)
    (hcleaned : ∀ after, Cleaned config (segmentHeaderBytes + batchesSize batches) file after →
      Legible p config handle after.bytes batches) : Restores p config handle batches s := by
  rcases hresult : recoverSegment p config handle s with ⟨r, s'⟩
  rcases (recoverSegment_ends hpower hfile hlegible).of_eq hresult with
    ⟨rfl, after, disk', hclean, hdisk, rfl⟩
  refine ⟨_, hresult, shows_replay _ s.index, fun again hagain hindex hdisk' => ?_⟩
  have hafter : again.disk[handle]? = some after := by
    rw [hdisk']
    show disk'[handle]? = _
    rw [hdisk handle, if_pos rfl]
  rcases hresult' : recoverSegment p config handle again with ⟨r', s''⟩
  rcases (recoverSegment_ends hagain hafter (hcleaned after hclean)).of_eq hresult' with
    ⟨rfl, _, _, _, _, rfl⟩
  exact ⟨_, rfl, congrArg (replay p handle segmentHeaderBytes _) hindex⟩

/-- Whatever puts and deletes have written to a segment, recovery of the segment
    with zeros from some position on applies the batches that have lost no byte,
    and a second recovery does the same. -/
theorem zeroed_tail_recovers (hdetects : p.Detects config.segmentBytes)
    {configured parallelism : Nat} {calls : List (Call Cid)} (hdirect : ∀ c ∈ calls, c.Direct)
    {file : DiskFile} (hfile : (runOps (Ledger.call p config)
      (Ledger.start (ownerCount configured parallelism)) calls).engine.disk[handle]? = some file)
    (hentry : file.entry ≠ .unlinked) :
    ∃ written : List (List (Batch Cid)),
      List.Forall₂ (fun c batches => ∀ batch ∈ batches, ∀ record ∈ batch.records,
        Call.Writes c record) calls written ∧
      file.bytes = image p config handle written.flatten ∧
      ∀ position, segmentHeaderBytes ≤ position → ∃ count ≤ written.flatten.length,
        (∀ i batch, written.flatten[i]? = some batch → (i < count ↔
          slice (zeroFrom position file.bytes)
              (segmentHeaderBytes + batchesSize (written.flatten.take i)) batch.size =
            slice file.bytes (segmentHeaderBytes + batchesSize (written.flatten.take i))
              batch.size)) ∧
        ∀ (s : NativeInner Cid) (damaged : DiskFile), s.power = none →
          s.disk[handle]? = some damaged → damaged.bytes = zeroFrom position file.bytes →
          Restores p config handle (written.flatten.take count) s := by
  have hstart : Sound p config
      (Ledger.start (ownerCount configured parallelism) : Ledger Cid).engine Journal.empty :=
    sound_fresh (ownerCount configured parallelism)
  rcases written_run hstart rfl hdirect with ⟨j, hsound, hwritten⟩
  have hvisible := Disk.mem_visible.mpr ⟨file, hfile, hentry⟩
  rcases hwritten handle with ⟨written, hforall, hlog⟩
  rw [show Journal.empty.log handle = ([] : List (Batch Cid)) from rfl, nil_append] at hlog
  have hbytes : file.bytes = image p config handle written.flatten := by
    have hsame := hsound.mem_visible.mp hvisible
    rw [hfile, Option.some.injEq] at hsame
    rw [hsame, ← hlog]
    rfl
  have hfits := hsound.fits handle
  have hroom := hsound.room handle hvisible
  have howner := hsound.owner_lt hvisible
  rw [hlog] at hfits hroom
  refine ⟨written, hforall, hbytes, fun position hposition => ?_⟩
  generalize written.flatten = batches at hbytes hfits hroom
  -- The header stays, and the batches behind it are torn.
  obtain ⟨header, hheader⟩ : ∃ header, header =
    segmentHeaderBlock p handle.owner handle.generation handle.segmentId := ⟨_, rfl⟩
  obtain ⟨n, hn⟩ : ∃ n, n = config.segmentBytes - (segmentHeaderBytes + batchesSize batches) :=
    ⟨_, rfl⟩
  have hheaderLen : header.length = segmentHeaderBytes := by
    rw [hheader]
    exact length_segmentHeaderBlock p _ _ _
  have hvalid : validateSegmentHeader p header handle.owner handle.generation handle.segmentId =
      true := by
    rw [hheader]
    exact validate_segmentHeaderBlock p howner _ _
  rw [image, ← hheader, ← hn] at hbytes
  have hzeroed : zeroFrom position file.bytes =
      header ++ zeroFrom (position - segmentHeaderBytes) (encodeAll p batches ++ zeros n) := by
    rw [hbytes, zeroFrom_append, zeroFrom_of_le (by rw [hheaderLen]; exact hposition), hheaderLen]
  have htorn := zeroFrom_torn (position - segmentHeaderBytes) (encodeAll p batches ++ zeros n)
  have hlen : segmentHeaderBytes + batchesSize batches + n = config.segmentBytes := by
    omega
  refine ⟨intactCount p batches (zeroFrom (position - segmentHeaderBytes)
    (encodeAll p batches ++ zeros n)), ?_, fun i batch hbatch => ?_, ?_⟩
  · exact intactCount_le batches _
  · have hslice : ∀ t : Bytes, slice (header ++ t)
        (segmentHeaderBytes + batchesSize (batches.take i)) batch.size =
        slice t (batchesSize (batches.take i)) batch.size := by
      intro t
      rw [← hheaderLen, slice_append_right]
    rw [lt_intactCount_iff batches n _ hbatch, hzeroed, hbytes, hslice, hslice,
      slice_encodeAll hbatch]
  · intro s damaged hpower hdamaged hsame
    rw [hzeroed] at hsame
    have hlegible : Legible p config handle _ _ :=
      legible_torn hheaderLen hvalid hfits htorn (Or.inl hdetects) (by omega)
    rw [← hsame] at hlegible
    exact restores_of_legible hpower hdamaged hlegible fun _ hcleaned =>
      legible_cleaned hdetects hheaderLen hvalid hfits htorn hlen hsame hcleaned

/-- A segment with one block, cut off anywhere. -/
theorem zeroed_tail_recovers_block : ∃ (handle : SegmentHandle) (file : DiskFile),
    (runOps (Ledger.call countingPrimitives smallConfig) (Ledger.start (ownerCount 1 1))
      [.put [smallBlock]]).engine.disk[handle]? = some file ∧
    ∃ written : List (List (Batch UInt8)),
      file.bytes = image countingPrimitives smallConfig handle written.flatten ∧
      ∀ position, segmentHeaderBytes ≤ position → ∃ count ≤ written.flatten.length,
        ∀ (s : NativeInner UInt8) (damaged : DiskFile), s.power = none →
          s.disk[handle]? = some damaged → damaged.bytes = zeroFrom position file.bytes →
          Restores countingPrimitives smallConfig handle (written.flatten.take count) s := by
  have hstart : Balanced countingPrimitives smallConfig (ownerCount 1 1)
      (ownerFor countingPrimitives (ownerCount 1 1)) (Ledger.start (ownerCount 1 1)) :=
    Balanced.start (ownerCount_pos 1 1)
  have hroom : (Call.put [smallBlock]).HasRoom smallConfig (Ledger.start (ownerCount 1 1)) := by
    decide +kernel
  have hput := hstart.call hroom fun _ _ => rfl
  have hheld := hstart.held_put hroom
  rcases hput.holds with ⟨j, hholds⟩
  have hblock : (Ledger.call countingPrimitives smallConfig (Ledger.start (ownerCount 1 1))
      (.put [smallBlock])).held 1 = some smallBlock.val := by
    rw [hheld]
    rfl
  rcases hholds.represents.of_held hblock with ⟨location, _, _, hpoints⟩
  have hfile : (runOps (Ledger.call countingPrimitives smallConfig)
      (Ledger.start (ownerCount 1 1)) [.put [smallBlock]]).engine.disk[location.segment]? =
        some (segmentFile countingPrimitives smallConfig j location.segment) := by
    rw [runOps, foldl_cons, foldl_nil]
    exact hholds.sound.mem_visible.mp (hholds.sound.visible_of_points hpoints)
  have hdirect : ∀ c ∈ [Call.put [smallBlock]], c.Direct := by
    intro c hc
    rw [mem_singleton] at hc
    rw [hc]
    trivial
  rcases zeroed_tail_recovers (counting_detects (by decide)) hdirect hfile
    (segmentFile_entry_ne _ _ _ _) with ⟨written, _, hbytes, hrecovers⟩
  refine ⟨location.segment, _, hfile, written, hbytes, fun position hposition => ?_⟩
  rcases hrecovers position hposition with ⟨count, hcount, _, hrestores⟩
  exact ⟨count, hcount, hrestores⟩

end Zeroing

end Native

end Pepper
