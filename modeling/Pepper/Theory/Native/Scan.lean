import Pepper.Theory.Native.Format

/-!
# Reading a Damaged Segment

A segment that was written batch by batch and then lost some of its bytes is
read back up to the first batch that is not as it was written.

Damage is `Torn`: bytes that did not reach the disk are still zero. That covers
a write that was interrupted and a file whose end was cut off. The checksums are
assumed to notice it; nothing is assumed of the batch digest, because a batch
whose commit record is reached has been read completely.

## Main definitions

* `Primitives.Detects`: The checksums notice torn headers and payloads.
* `Batch.apply`, `replay`: What the batches of a segment do to an index.
* `intactCount`: How many batches at the front are as they were written.

## Theorems

* `scan_intact`, `scan_torn`: Reading one batch.
* `scan_batches`: Reading a damaged segment replays the intact batches in front.
-/

namespace Pepper

namespace Native

open Bytes List

variable {Cid : Type} (p : Primitives Cid)

/-- The checksums notice bytes that are still zero. A header of zeros is not
    checked. -/
structure Primitives.Detects (limit : Nat) : Prop where
  header : ∀ h t, h.length = recordHeaderBytes → headerIntact p h → Torn h t → t ≠ h →
    t ≠ zeros recordHeaderBytes → ¬ headerIntact p t
  payload : ∀ a t, a.length ≤ limit → Torn a t → t ≠ a → p.crc32c t ≠ p.crc32c a

/-- The records of a batch as recovery holds them. -/
def recovered (id : Nat) : Nat → List (Record Cid) → List (RecoveredRecord Cid)
  | _, [] => []
  | start, record :: rest =>
    ⟨record.header p id, start + recordHeaderBytes⟩ :: recovered id (start + record.size) rest

def batchesSize (batches : List (Batch Cid)) : Nat :=
  (batches.map Batch.size).sum

def encodeAll (batches : List (Batch Cid)) : Bytes :=
  (batches.map (Batch.encode p)).flatten

/-- How many of the batches at the front are found as they were written. -/
def intactCount : List (Batch Cid) → Bytes → Nat
  | [], _ => 0
  | batch :: rest, found =>
    if found.take batch.size = batch.encode p then
      intactCount rest (found.drop batch.size) + 1
    else 0

section Apply

variable [Ord Cid] [Std.TransOrd Cid]

/-- What a batch that starts at an offset does to the index. -/
def Batch.apply (seg : SegmentHandle) (start : Nat) (index : Index Cid) (batch : Batch Cid) :
    Index Cid :=
  (recovered p batch.id start batch.records).foldl (applyRecord seg) index

/-- Batches that follow one another are applied in turn. -/
def replay (seg : SegmentHandle) : Nat → List (Batch Cid) → Index Cid → Index Cid
  | _, [], index => index
  | start, batch :: rest, index =>
    replay seg (start + batch.size) rest (batch.apply p seg start index)

end Apply

theorem batchesSize_append (first second : List (Batch Cid)) :
    batchesSize (first ++ second) = batchesSize first + batchesSize second := by
  rw [batchesSize, map_append, sum_append, batchesSize, batchesSize]

theorem batchesSize_cons (batch : Batch Cid) (rest : List (Batch Cid)) :
    batchesSize (batch :: rest) = batch.size + batchesSize rest := by
  rw [batchesSize, map_cons, sum_cons, batchesSize]

theorem encodeAll_append (first second : List (Batch Cid)) :
    encodeAll p (first ++ second) = encodeAll p first ++ encodeAll p second := by
  rw [encodeAll, map_append, flatten_append, encodeAll, encodeAll]

theorem encodeAll_cons (batch : Batch Cid) (rest : List (Batch Cid)) :
    encodeAll p (batch :: rest) = batch.encode p ++ encodeAll p rest := by
  rw [encodeAll, map_cons, flatten_cons, encodeAll]

theorem length_recovered (id start : Nat) (records : List (Record Cid)) :
    (recovered p id start records).length = records.length := by
  induction records generalizing start with
  | nil => rfl
  | cons record records ih => rw [recovered, length_cons, ih, length_cons]

theorem map_parsed_recovered (id start : Nat) (records : List (Record Cid)) :
    (recovered p id start records).map (·.parsed) = records.map (Record.header p id) := by
  induction records generalizing start with
  | nil => rfl
  | cons record records ih => rw [recovered, map_cons, ih, map_cons]

theorem recovered_append (id start : Nat) (first second : List (Record Cid)) :
    recovered p id start (first ++ second) =
      recovered p id start first ++ recovered p id (start + recordsSize first) second := by
  induction first generalizing start with
  | nil => rfl
  | cons record first ih =>
    rw [cons_append, recovered, ih, recovered, cons_append, recordsSize_cons,
      Nat.add_assoc]

theorem length_encodeAll (batches : List (Batch Cid)) :
    (encodeAll p batches).length = batchesSize batches := by
  induction batches with
  | nil => rfl
  | cons batch batches ih =>
    rw [encodeAll_cons, length_append, ih, Batch.length_encode, batchesSize_cons]

/-! ## Damaged headers -/

variable {a t : Bytes} {n : Nat}

theorem readAt_append (h : n ≤ t.length) : readAt (a ++ t) a.length n = some (t.take n) := by
  rw [readAt_eq (by rw [length_append]; omega), slice, drop_left]

theorem parse_of_not_intact {header : Bytes} (h : ¬ headerIntact p header) :
    parseRecordHeader p header = none := by
  unfold parseRecordHeader
  by_cases hshape : header.length ≠ recordHeaderBytes ∨ slice header 0 8 ≠ recordMagic
  · rw [if_pos hshape]
  · rw [if_neg hshape, if_pos (Or.inl h)]

section Rounds

variable [Ord Cid] [Std.TransOrd Cid] {cfg : NativeConfig} {seg : SegmentHandle}

/-- Reading ends with the index and the boundary it had. -/
def Halts (round : Round (Scan Cid)) (st : Scan Cid) : Prop :=
  ∃ last, round = .stop last ∧ last.index = st.index ∧ last.committedEnd = st.committedEnd

variable {p} {limit id : Nat} {parsed : ParsedHeader Cid} {rest : Bytes} {st : Scan Cid}
  {batch : Batch Cid}

/-- A header that lost bytes ends the reading. -/
theorem scanRecord_torn_header (hdet : p.Detects limit)
    (hdig : parsed.commitDigest.length = 32) (ht : Torn (sealedHeader p parsed) t)
    (hne : t ≠ sealedHeader p parsed) (hoff : st.offset = a.length) :
    Halts (scanRecord p cfg seg (a ++ (t ++ rest)) st) st := by
  have hlen : t.length = recordHeaderBytes := by
    rw [ht.length_eq, length_sealedHeader p hdig, recordHeaderBytes_eq]
  have hread : readAt (a ++ (t ++ rest)) st.offset recordHeaderBytes = some t := by
    rw [hoff, readAt_append (by rw [length_append]; omega), take_left' hlen]
  unfold scanRecord
  rw [hread]
  by_cases hzero : t = zeros recordHeaderBytes
  · simp only [if_pos hzero]
    exact ⟨_, rfl, rfl, rfl⟩
  · have hbad : ¬ headerIntact p t :=
      hdet.header _ t (length_sealedHeader p hdig) (sealedHeader_intact p hdig) ht hne
        hzero
    simp only [if_neg hzero, parse_of_not_intact p hbad]
    exact ⟨_, rfl, rfl, rfl⟩

/-- A header that is intact is read. -/
theorem scanRecord_header (hfits : parsed.Fits) (hoff : st.offset = a.length) :
    scanRecord p cfg seg (a ++ (sealedHeader p parsed ++ rest)) st =
      scanParsed p cfg seg (a ++ (sealedHeader p parsed ++ rest)) st parsed
        (a.length + recordHeaderBytes) := by
  have hlen : (sealedHeader p parsed).length = recordHeaderBytes :=
    length_sealedHeader p hfits.commitDigest
  have hread : readAt (a ++ (sealedHeader p parsed ++ rest)) st.offset recordHeaderBytes =
      some (sealedHeader p parsed) := by
    rw [hoff, readAt_append (by rw [length_append]; omega), take_left' hlen]
  unfold scanRecord
  rw [hread, hoff]
  simp only [if_neg (sealedHeader_ne_zeros p hfits.commitDigest), parse_sealedHeader p hfits]

/-! ## One record -/

variable {record : Record Cid} {bytes : Bytes} {start : Nat}

/-- A record that is intact is held. -/
theorem scanRecord_intact (hfil : record.Filled) (hfits : (record.header p id).Fits)
    (hoff : st.offset = a.length) (hroom : a.length + record.size ≤ cfg.segmentBytes) :
    scanRecord p cfg seg (a ++ (record.encode p id ++ rest)) st =
      .next (st.hold ⟨record.header p id, a.length + recordHeaderBytes⟩
        (a.length + record.size)) := by
  rw [Record.encode, append_assoc, scanRecord_header hfits hoff]
  cases record with
  | tombstone cid => rfl
  | data block =>
    rw [Record.size] at hroom ⊢
    have hlen : (sealedHeader p (dataHeader p id block)).length = recordHeaderBytes :=
      length_sealedHeader p hfits.commitDigest
    have halign := le_alignUp block.bytes.length
    have hpos : 0 < block.bytes.length := length_pos_iff.mpr hfil
    have hread : readAt (a ++ (sealedHeader p (dataHeader p id block) ++
        ((Record.data block).payload ++ rest))) (a.length + recordHeaderBytes)
          (alignUp block.bytes.length) = some (Record.data block).payload := by
      have hpay : (Record.data block).payload.length = alignUp block.bytes.length := by
        rw [Record.payload, length_append, length_zeros, Nat.add_sub_cancel' halign]
      rw [← append_assoc, ← hlen, ← length_append, readAt_append
        (by rw [length_append]; omega), take_left' hpay]
    show scanData p cfg (a ++ (sealedHeader p (dataHeader p id block) ++
      ((Record.data block).payload ++ rest))) st (dataHeader p id block) _ = _
    unfold scanData
    rw [if_neg]
    · rw [show (dataHeader p id block).paddedSize = alignUp block.bytes.length from rfl, hread]
      have hcrc : (Record.data block).payload.take block.bytes.length = block.bytes := by
        rw [Record.payload, take_left]
      simp only [dataHeader, hcrc, ne_eq, not_true_eq_false, if_false, Record.header,
        Nat.add_assoc]
    · simp only [dataHeader, alignUp_mod, ne_eq, not_true_eq_false, false_or]
      omega

/-- A payload that lost bytes ends the reading. -/
theorem scanRecord_torn_payload {block : EncodedBlock Cid} (hdet : p.Detects limit)
    (hlim : block.bytes.length ≤ limit) (hfits : (dataHeader p id block).Fits)
    (ht : Torn (Record.data block).payload t) (hne : t ≠ (Record.data block).payload)
    (hoff : st.offset = a.length) :
    Halts (scanRecord p cfg seg
      (a ++ (sealedHeader p (dataHeader p id block) ++ (t ++ rest))) st) st := by
  rw [scanRecord_header hfits hoff]
  show Halts (scanData p cfg _ st (dataHeader p id block) _) st
  have hlen : (sealedHeader p (dataHeader p id block)).length = recordHeaderBytes :=
    length_sealedHeader p hfits.commitDigest
  have halign := le_alignUp block.bytes.length
  have hpay : t.length = alignUp block.bytes.length := by
    rw [ht.length_eq, Record.payload, length_append, length_zeros, Nat.add_sub_cancel' halign]
  -- The padding is zero in any case, so the block's own bytes differ.
  have hsplit := torn_append ht
  have hblock : t.take block.bytes.length ≠ block.bytes := by
    intro heq
    refine hne ?_
    rw [Record.payload, ← take_append_drop block.bytes.length t, heq, hsplit.2.zeros_eq]
  have hcrc := hdet.payload _ _ hlim hsplit.1 hblock
  have hread : readAt (a ++ (sealedHeader p (dataHeader p id block) ++ (t ++ rest)))
      (a.length + recordHeaderBytes) (alignUp block.bytes.length) = some t := by
    rw [← append_assoc, ← hlen, ← length_append, readAt_append
      (by rw [length_append]; omega), take_left' hpay]
  unfold scanData
  split
  · exact ⟨_, rfl, rfl, rfl⟩
  · rw [show (dataHeader p id block).paddedSize = alignUp block.bytes.length from rfl, hread]
    have hbad : (p.crc32c (t.take (dataHeader p id block).storedSize)).toNat ≠
        (dataHeader p id block).payloadCrc := by
      intro heq
      exact hcrc (UInt32.toNat_inj.mp heq)
    simp only [if_pos hbad]
    exact ⟨_, rfl, rfl, rfl⟩

/-- A record that lost bytes ends the reading. -/
theorem scanRecord_torn (hdet : p.Detects limit) (hlim : record.size ≤ limit)
    (hfits : (record.header p id).Fits) (ht : Torn (record.encode p id) t)
    (hne : t ≠ record.encode p id) (hoff : st.offset = a.length) :
    Halts (scanRecord p cfg seg (a ++ (t ++ rest)) st) st := by
  have hlen := length_sealedHeader p hfits.commitDigest
  have hsplit := torn_append ht
  rw [hlen] at hsplit
  have htake : t = t.take 4096 ++ t.drop 4096 := (take_append_drop 4096 t).symm
  by_cases hheader : t.take 4096 = sealedHeader p (record.header p id)
  · -- The damage is behind the header, so there is a payload.
    have hpay : t.drop 4096 ≠ record.payload := by
      intro heq
      exact hne (by rw [htake, hheader, heq, Record.encode])
    rw [htake, hheader, append_assoc]
    cases record with
    | data block =>
      rw [Record.size] at hlim
      have halign := le_alignUp block.bytes.length
      exact scanRecord_torn_payload hdet (by omega) hfits hsplit.2 hpay hoff
    | tombstone cid =>
      exact absurd hsplit.2.length_eq (by
        intro hzero
        exact hpay (eq_nil_of_length_eq_zero hzero))
  · rw [htake, append_assoc]
    exact scanRecord_torn_header hdet hfits.commitDigest hsplit.1 hheader hoff

/-! ## One batch -/

theorem scan_next {next : Scan Cid} (hroom : st.offset + recordHeaderBytes ≤ cfg.segmentBytes)
    (hround : scanRecord p cfg seg bytes st = .next next) :
    scan p cfg seg bytes st = scan p cfg seg bytes next := by
  conv_lhs => rw [scan, dif_pos hroom]
  split
  · next last hlast => rw [hround] at hlast; exact absurd hlast (by simp)
  · next other hother =>
      rw [hround, Round.next.injEq] at hother
      rw [hother]

/-- The reading is over, with the index and the boundary it had. -/
def Rests (last st : Scan Cid) : Prop :=
  last.index = st.index ∧ last.committedEnd = st.committedEnd

theorem scan_rests (h : Halts (scanRecord p cfg seg bytes st) st) :
    Rests (scan p cfg seg bytes st) st := by
  rcases h with ⟨last, hround, hidx, hend⟩
  rw [scan]
  split
  · split
    · next other hother =>
        rw [hround, Round.stop.injEq] at hother
        rw [← hother]
        exact ⟨hidx, hend⟩
    · next other hother => rw [hround] at hother; exact absurd hother (by simp)
  · exact ⟨rfl, rfl⟩

/-- The records of one batch that are held. -/
def held (id : Nat) : List (RecoveredRecord Cid) → BTreeMap Nat (List (RecoveredRecord Cid))
  | [] => ∅
  | record :: rest => (∅ : BTreeMap Nat (List (RecoveredRecord Cid))).insert id (record :: rest)

omit [Ord Cid] [Std.TransOrd Cid] in
theorem getElem?_held (id : Nat) (records : List (RecoveredRecord Cid)) :
    (held id records)[id]?.getD [] = records := by
  cases records with
  | nil => simp only [held, Std.ExtTreeMap.getElem?_empty, Option.getD_none]
  | cons record rest => simp only [held, getElem?_insert_eq, if_true, Option.getD_some]

omit [Ord Cid] [Std.TransOrd Cid] in
theorem insert_held (id : Nat) (records : List (RecoveredRecord Cid))
    (record : RecoveredRecord Cid) :
    (held id records).insert id (records ++ [record]) = held id (records ++ [record]) := by
  cases records with
  | nil => rfl
  | cons first rest =>
    refine Std.ExtTreeMap.ext_getElem? ?_
    intro k
    simp only [held, cons_append, getElem?_insert_eq]
    by_cases hk : id = k
    · rw [if_pos hk, if_pos hk]
    · rw [if_neg hk, if_neg hk, if_neg hk]

omit [Ord Cid] [Std.TransOrd Cid] in
theorem erase_held (id : Nat) (records : List (RecoveredRecord Cid)) :
    (held id records).erase id = ∅ := by
  refine Std.ExtTreeMap.ext_getElem? ?_
  intro k
  rw [getElem?_erase_eq]
  by_cases hk : id = k
  · rw [if_pos hk, Std.ExtTreeMap.getElem?_empty]
  · rw [if_neg hk]
    cases records with
    | nil => rfl
    | cons record rest => rw [held, getElem?_insert_eq, if_neg hk]

/-- Intact records are held one after the other. -/
theorem scan_records (done todo : List (Record Cid)) (hfil : ∀ record ∈ todo, record.Filled)
    (hfits : ∀ record ∈ todo, (record.header p id).Fits) (ha : a.length = start + recordsSize done)
    (hoff : st.offset = a.length) (hpending : st.pending = held id (recovered p id start done))
    (hroom : a.length + recordsSize todo ≤ cfg.segmentBytes) :
    scan p cfg seg (a ++ ((todo.map (Record.encode p id)).flatten ++ rest)) st =
      scan p cfg seg (a ++ ((todo.map (Record.encode p id)).flatten ++ rest)) { st with
        offset := a.length + recordsSize todo
        pending := held id (recovered p id start (done ++ todo)) } := by
  induction todo generalizing done a st with
  | nil =>
    rw [append_nil, ← hpending]
    congr 1
    rw [recordsSize, map_nil, sum_nil, Nat.add_zero, ← hoff]
  | cons record todo ih =>
    have hheader := record.le_size
    rw [recordsSize_cons] at hroom
    rw [map_cons, flatten_cons, append_assoc]
    have hround : scanRecord p cfg seg (a ++ (record.encode p id ++
        ((todo.map (Record.encode p id)).flatten ++ rest))) st = .next _ :=
      scanRecord_intact (hfil record mem_cons_self) (hfits record mem_cons_self)
        hoff (by omega)
    rw [scan_next (by omega) hround]
    -- From here on the bytes of this record belong to what has been read.
    have hlen : (a ++ record.encode p id).length = a.length + record.size := by
      rw [length_append, Record.length_encode]
    have hdone : recordsSize (done ++ [record]) = recordsSize done + record.size := by
      rw [recordsSize_append, recordsSize_cons]
      rfl
    have hheld : (st.hold ⟨record.header p id, a.length + recordHeaderBytes⟩
        (a.length + record.size)).pending = held id (recovered p id start (done ++ [record])) := by
      have hbat : (record.header p id).batchId = id := by
        cases record with
        | data block => rfl
        | tombstone cid => rfl
      rw [Scan.hold, recovered_append, hpending, ← ha]
      simp only [hbat, getElem?_held, recovered]
      exact insert_held id _ _
    have hrest := ih (done ++ [record]) (fun r hr => hfil r (mem_cons_of_mem _ hr))
      (fun r hr => hfits r (mem_cons_of_mem _ hr)) (by rw [hlen, ha, hdone]; omega)
      hlen.symm hheld (by rw [hlen]; omega)
    rw [← append_assoc, hrest, hlen, recordsSize_cons, append_assoc, ← append_cons,
      Nat.add_assoc]
    rfl

/-- The commit record of a batch whose records are all held. -/
theorem scanRecord_commit (hfits : batch.Fits) (hoff : st.offset = a.length)
    (hpending : st.pending = held batch.id (recovered p batch.id start batch.records)) :
    scanRecord p cfg seg (a ++ (sealedHeader p (batch.commit p) ++ rest)) st =
      .next { st with
        offset := a.length + recordHeaderBytes
        committedEnd := a.length + recordHeaderBytes
        pending := ∅
        index := batch.apply p seg start st.index } := by
  have hrecords : st.pending[batch.id]? =
      some (recovered p batch.id start batch.records) := by
    have hlen := length_recovered p batch.id start batch.records
    rcases hlist : recovered p batch.id start batch.records with _ | ⟨record, more⟩
    · rw [hlist] at hlen
      exact absurd (eq_nil_of_length_eq_zero hlen.symm) hfits.nonempty
    · rw [hpending, hlist, held, getElem?_insert_eq, if_pos rfl]
  rw [scanRecord_header (hfits.commit p) hoff]
  show scanCommit p seg st (batch.commit p) _ = _
  unfold scanCommit
  rw [show (batch.commit p).batchId = batch.id from rfl, hrecords]
  have hmatches : ¬ ((recovered p batch.id start batch.records).length ≠
      (batch.commit p).logicalSize ∨ batchDigest p ((recovered p batch.id start batch.records).map
        (·.parsed)) ≠ (batch.commit p).commitDigest) := by
    rw [length_recovered, map_parsed_recovered]
    simp only [Batch.commit, commitHeader, Batch.headers, length_map, ne_eq,
      not_true_eq_false, or_self, not_false_eq_true]
  simp only [if_neg hmatches, hpending, erase_held]
  rfl

/-- An intact batch is applied, and the boundary moves behind it. -/
theorem scan_intact (hfits : batch.Fits) (hoff : st.offset = a.length)
    (hpending : st.pending = ∅) (hroom : a.length + batch.size ≤ cfg.segmentBytes) :
    scan p cfg seg (a ++ (batch.encode p ++ rest)) st =
      scan p cfg seg (a ++ (batch.encode p ++ rest)) { st with
        offset := a.length + batch.size
        committedEnd := a.length + batch.size
        index := batch.apply p seg a.length st.index } := by
  rw [Batch.size] at hroom ⊢
  have hbody : (a ++ batch.body p).length = a.length + recordsSize batch.records := by
    rw [length_append, Batch.body, Batch.length_flatten_encode]
  rw [Batch.encode, append_assoc, Batch.body, scan_records [] batch.records hfits.filled
    (fun record hrec => hfits.header p hrec) rfl hoff hpending (by omega), ← Batch.body,
    ← append_assoc]
  have hround : scanRecord p cfg seg (a ++ batch.body p ++ (sealedHeader p (batch.commit p)
      ++ rest)) { st with
        offset := a.length + recordsSize batch.records
        pending := held batch.id (recovered p batch.id a.length ([] ++ batch.records)) } =
      .next _ := scanRecord_commit hfits hbody.symm rfl
  rw [scan_next (show a.length + recordsSize batch.records + recordHeaderBytes ≤ _ by omega)
    hround, hbody, Nat.add_assoc, hpending]

/-- What is left of a batch that lost bytes ends the reading. -/
theorem scan_torn_records (hdet : p.Detects limit) (hparsed : parsed.Fits)
    (todo : List (Record Cid)) (hfil : ∀ record ∈ todo, record.Filled)
    (hfits : ∀ record ∈ todo, (record.header p id).Fits)
    (hlim : ∀ record ∈ todo, record.size ≤ limit) (hoff : st.offset = a.length)
    (hroom : a.length + recordsSize todo + recordHeaderBytes ≤ cfg.segmentBytes)
    (ht : Torn ((todo.map (Record.encode p id)).flatten ++ sealedHeader p parsed) t)
    (hne : t ≠ (todo.map (Record.encode p id)).flatten ++ sealedHeader p parsed) :
    Rests (scan p cfg seg (a ++ (t ++ rest)) st) st := by
  induction todo generalizing a t st with
  | nil =>
    rw [map_nil, flatten_nil, nil_append] at ht hne
    exact scan_rests (scanRecord_torn_header hdet hparsed.commitDigest ht hne hoff)
  | cons record todo ih =>
    rw [map_cons, flatten_cons, append_assoc] at ht hne
    have hsplit := torn_append ht
    rw [Record.length_encode] at hsplit
    rw [recordsSize_cons] at hroom
    have hheader := record.le_size
    have htake : t = t.take record.size ++ t.drop record.size :=
      (take_append_drop record.size t).symm
    by_cases hrec : t.take record.size = record.encode p id
    · -- This record is intact, so the damage is in the rest.
      have hrest : t.drop record.size ≠
          (todo.map (Record.encode p id)).flatten ++ sealedHeader p parsed := by
        intro heq
        exact hne (by rw [htake, hrec, heq])
      have hround : scanRecord p cfg seg (a ++ (record.encode p id ++
          (t.drop record.size ++ rest))) st = .next _ :=
        scanRecord_intact (hfil record mem_cons_self)
          (hfits record mem_cons_self) hoff (by omega)
      have hlen : (a ++ record.encode p id).length = a.length + record.size := by
        rw [length_append, Record.length_encode]
      rw [htake, hrec, append_assoc, scan_next (by omega) hround, ← append_assoc]
      exact ih (fun r hr => hfil r (mem_cons_of_mem _ hr))
        (fun r hr => hfits r (mem_cons_of_mem _ hr))
        (fun r hr => hlim r (mem_cons_of_mem _ hr)) hlen.symm
        (by rw [hlen]; omega) hsplit.2 hrest
    · rw [htake, append_assoc]
      exact scan_rests (scanRecord_torn hdet (hlim record mem_cons_self)
        (hfits record mem_cons_self) hsplit.1 hrec hoff)

/-- A batch that lost bytes is not applied. -/
theorem scan_torn (hdet : p.Detects limit) (hfits : batch.Fits) (hlim : batch.size ≤ limit)
    (hoff : st.offset = a.length) (hroom : a.length + batch.size ≤ cfg.segmentBytes)
    (ht : Torn (batch.encode p) t) (hne : t ≠ batch.encode p) :
    Rests (scan p cfg seg (a ++ (t ++ rest)) st) st := by
  rw [Batch.size] at hroom hlim
  refine scan_torn_records hdet (hfits.commit p) batch.records hfits.filled
    (fun record hrec => hfits.header p hrec) ?_ hoff (by omega) ht hne
  intro record hrec
  have hsize := Batch.size_le_recordsSize hrec
  omega

/-! ## A whole segment -/

/-- Behind the last batch there are zeros, which end the reading. -/
theorem scan_blank (hoff : st.offset = a.length) :
    Rests (scan p cfg seg (a ++ zeros n) st) st := by
  by_cases hroom : st.offset + recordHeaderBytes ≤ cfg.segmentBytes
  · refine scan_rests ?_
    unfold scanRecord
    by_cases hle : recordHeaderBytes ≤ n
    · have hread : readAt (a ++ zeros n) st.offset recordHeaderBytes =
          some (zeros recordHeaderBytes) := by
        rw [hoff, readAt_append (by rw [length_zeros]; exact hle), take_zeros,
          Nat.min_eq_left hle]
      rw [hread]
      simp only [if_true]
      exact ⟨_, rfl, rfl, rfl⟩
    · -- The file ends before the header would.
      have hread : readAt (a ++ zeros n) st.offset recordHeaderBytes = none := by
        refine if_neg ?_
        rw [hoff, length_append, length_zeros]
        omega
      rw [hread]
      exact ⟨_, rfl, rfl, rfl⟩
  · rw [scan, dif_neg hroom]
    exact ⟨rfl, rfl⟩

/-- A damaged segment is read up to the first batch that lost bytes. Nothing is
    asked of the checksums if nothing is damaged. -/
theorem scan_batches (batches : List (Batch Cid)) (hfits : ∀ batch ∈ batches, batch.Fits)
    (ht : Torn (encodeAll p batches ++ zeros n) t)
    (hdet : p.Detects cfg.segmentBytes ∨ t = encodeAll p batches ++ zeros n)
    (hoff : st.offset = a.length) (hend : st.committedEnd = a.length) (hpending : st.pending = ∅)
    (hroom : batchesSize batches ≤ cfg.segmentBytes - a.length) :
    (scan p cfg seg (a ++ t) st).index =
        replay p seg a.length (batches.take (intactCount p batches t)) st.index ∧
      (scan p cfg seg (a ++ t) st).committedEnd =
        a.length + batchesSize (batches.take (intactCount p batches t)) := by
  induction batches generalizing a t st with
  | nil =>
    rw [encodeAll, map_nil, flatten_nil, nil_append] at ht
    have hrests : Rests (scan p cfg seg (a ++ zeros n) st) st := scan_blank hoff
    rw [ht.zeros_eq, take_nil]
    exact ⟨hrests.1, hrests.2.trans hend⟩
  | cons batch batches ih =>
    have hbat := hfits batch mem_cons_self
    have hpos : 0 < batch.size := Nat.add_pos_right _ (by decide)
    rw [batchesSize_cons] at hroom
    rw [encodeAll_cons, append_assoc] at ht hdet
    have hsplit := torn_append ht
    rw [Batch.length_encode] at hsplit
    have htake : t = t.take batch.size ++ t.drop batch.size :=
      (take_append_drop batch.size t).symm
    rw [intactCount]
    by_cases hintact : t.take batch.size = batch.encode p
    · -- The first batch is whole, and the scan goes on behind it.
      rw [if_pos hintact, take_succ_cons, replay]
      have hlen : (a ++ batch.encode p).length = a.length + batch.size := by
        rw [length_append, Batch.length_encode]
      have hscan : scan p cfg seg (a ++ (batch.encode p ++ t.drop batch.size)) st = _ :=
        scan_intact hbat hoff hpending (by omega)
      have hstart : ({ st with
          offset := a.length + batch.size
          committedEnd := a.length + batch.size
          index := batch.apply p seg a.length st.index } : Scan Cid).offset =
          (a ++ batch.encode p).length := hlen.symm
      have hrest := ih (fun b hb => hfits b (mem_cons_of_mem _ hb)) hsplit.2
        (hdet.imp_right fun heq => by rw [heq, drop_left' (Batch.length_encode p batch)])
        hstart hlen.symm hpending (by rw [hlen]; omega)
      rw [hlen, append_assoc, ← hscan, ← hintact, ← htake] at hrest
      rw [batchesSize_cons, ← Nat.add_assoc]
      exact hrest
    · -- It lost bytes, so its checksum fails and the scan ends.
      rw [if_neg hintact, take_zero]
      have hdet' := hdet.resolve_right fun heq => hintact (by
        rw [heq, take_left' (Batch.length_encode p batch)])
      have hrests : Rests (scan p cfg seg (a ++ (t.take batch.size ++ t.drop batch.size)) st)
          st := scan_torn hdet' hbat (by omega) hoff (by omega) hsplit.1 hintact
      rw [← htake] at hrests
      exact ⟨hrests.1, hrests.2.trans hend⟩

end Rounds

end Native

end Pepper
