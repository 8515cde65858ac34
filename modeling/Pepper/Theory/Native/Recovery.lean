import Pepper.Theory.Native.Segments

/-!
# Reading the Segments Back

What recovery makes of a disk whose segments are legible.

A segment is `Legible` as a list of batches when its header is accepted and
reading it stops behind those batches. That is so for the image of a segment,
for what a power loss leaves of one, and for a file of which only the header was
written. Recovery replays the batches of all segments in the order of the
listing; the zeros that it may write lie behind them.

## Main definitions

* `Legible`: Recovery reads these batches from a file.
* `Cleaned`: What recovery does to a file.
* `Recovered`: What recovery has done after some segments.

## Theorems

* `legible_image`, `legible_found`, `legible_blank`: The legible files.
* `recoverFile_ends`, `openEngine_recovered`: Recovery of one segment and of all.
* `Recovered.serves`: The blocks that an engine shows afterwards.
-/

namespace Pepper

namespace Native

open Bytes Fallible List

/-! ## Legible files -/

section Legible

variable {Cid : Type} {p : Primitives Cid}

theorem ofLe_lt (bytes : Bytes) : ofLe bytes < 256 ^ bytes.length := by
  induction bytes with
  | nil => exact Nat.one_pos
  | cons b bytes ih =>
    have hb : b.toNat < 256 := UInt8.toNat_lt b
    rw [ofLe, length_cons, pow_succ]
    omega

/-- The owner stands in four bytes of the header. -/
theorem owner_lt_of_validate {header : Bytes} {owner gen segmentId : Nat}
    (h : validateSegmentHeader p header owner gen segmentId = true) : owner < 2 ^ 32 := by
  unfold validateSegmentHeader at h
  rw [decide_eq_true_eq] at h
  rcases h with ⟨hlen, _, _, hown, _⟩
  have hslice : (slice header 12 4).length = 4 := by
    refine length_slice ?_
    rw [hlen, segmentHeaderBytes_eq]
    omega
  have hlt := ofLe_lt (slice header 12 4)
  rw [hslice, hown] at hlt
  exact hlt

/-- The intact batches stand at the front. -/
theorem intact_append (batches : List (Batch Cid)) (t : Bytes) :
    ∃ rest, t = encodeAll p (batches.take (intactCount p batches t)) ++ rest := by
  induction batches generalizing t with
  | nil => exact ⟨t, rfl⟩
  | cons batch batches ih =>
    rw [intactCount]
    by_cases hintact : t.take batch.size = batch.encode p
    · rcases ih (t.drop batch.size) with ⟨rest, hrest⟩
      refine ⟨rest, ?_⟩
      rw [if_pos hintact, take_succ_cons, encodeAll_cons, append_assoc, ← hrest,
        ← hintact, take_append_drop]
    · rw [if_neg hintact, take_zero]
      exact ⟨t, rfl⟩

/-- Batches that were not touched are intact. -/
theorem length_le_intactCount (safe more : List (Batch Cid)) (t : Bytes) :
    safe.length ≤ intactCount p (safe ++ more) (encodeAll p safe ++ t) := by
  induction safe with
  | nil => exact Nat.zero_le _
  | cons batch safe ih =>
    have htake : (batch.encode p ++ (encodeAll p safe ++ t)).take batch.size = batch.encode p :=
      take_left' (Batch.length_encode p batch)
    have hdrop : (batch.encode p ++ (encodeAll p safe ++ t)).drop batch.size =
        encodeAll p safe ++ t := drop_left' (Batch.length_encode p batch)
    rw [cons_append, intactCount, encodeAll_cons, append_assoc, if_pos htake, hdrop, length_cons]
    exact Nat.succ_le_succ ih

variable [Ord Cid] [Std.TransOrd Cid] {config : NativeConfig} {handle : SegmentHandle}

/-- The loop of recovery at the end of the header. -/
def Scan.start (index : Index Cid) : Scan Cid :=
  ⟨segmentHeaderBytes, segmentHeaderBytes, false, ∅, index⟩

variable (p config) in
/-- Recovery reads these batches from the file. -/
structure Legible (handle : SegmentHandle) (bytes : Bytes) (kept : List (Batch Cid)) : Prop where
  header : ∃ block, readAt bytes 0 segmentHeaderBytes = some block ∧
    validateSegmentHeader p block handle.owner handle.generation handle.segmentId = true
  index_eq : ∀ index : Index Cid, (scan p config handle bytes (.start index)).index =
    replay p handle segmentHeaderBytes kept index
  end_eq : ∀ index : Index Cid, (scan p config handle bytes (.start index)).committedEnd =
    segmentHeaderBytes + batchesSize kept
  stores : Stores p bytes kept

theorem Legible.owner_lt {bytes : Bytes} {kept : List (Batch Cid)}
    (h : Legible p config handle bytes kept) : handle.owner < 2 ^ 32 := by
  rcases h.header with ⟨block, _, hval⟩
  exact owner_lt_of_validate hval

omit [Ord Cid] [Std.TransOrd Cid] in
theorem readAt_front {header rest : Bytes} (h : header.length = segmentHeaderBytes) :
    readAt (header ++ rest) 0 segmentHeaderBytes = some header := by
  rw [readAt_eq (by rw [length_append]; omega), slice, drop_zero, ← h, take_left]

/-- A torn segment is legible up to the first batch that lost bytes. -/
theorem legible_torn {header t : Bytes} {n : Nat} {batches : List (Batch Cid)}
    (hheader : header.length = segmentHeaderBytes)
    (hval : validateSegmentHeader p header handle.owner handle.generation handle.segmentId = true)
    (hfits : ∀ batch ∈ batches, batch.Fits) (ht : Torn (encodeAll p batches ++ zeros n) t)
    (hdet : p.Detects config.segmentBytes ∨ t = encodeAll p batches ++ zeros n)
    (hroom : batchesSize batches ≤ config.segmentBytes - segmentHeaderBytes) :
    Legible p config handle (header ++ t) (batches.take (intactCount p batches t)) := by
  have hscan : ∀ index : Index Cid,
      (scan p config handle (header ++ t) (.start index)).index = replay p handle header.length
          (batches.take (intactCount p batches t)) (Scan.start index).index ∧
        (scan p config handle (header ++ t) (.start index)).committedEnd =
          header.length + batchesSize (batches.take (intactCount p batches t)) := fun index =>
    scan_batches batches hfits ht hdet hheader.symm hheader.symm rfl (by rw [hheader]; exact hroom)
  rw [hheader] at hscan
  refine ⟨⟨header, readAt_front hheader, hval⟩, fun index => (hscan index).1,
    fun index => (hscan index).2, ?_⟩
  rcases intact_append (p := p) batches t with ⟨rest, hrest⟩
  refine ⟨header, rest, hheader, ?_⟩
  rw [← hrest]

/-- The image of a segment is legible as all its batches. -/
theorem legible_image {batches : List (Batch Cid)} (hown : handle.owner < 2 ^ 32)
    (hfits : ∀ batch ∈ batches, batch.Fits)
    (hroom : segmentHeaderBytes + batchesSize batches ≤ config.segmentBytes) :
    Legible p config handle (image p config handle batches) batches := by
  have hlegible : Legible p config handle (image p config handle batches) _ :=
    legible_torn (length_segmentHeaderBlock p _ _ _) (validate_segmentHeaderBlock p hown _ _) hfits
      (Torn.refl _) (Or.inr rfl) (by omega)
  have hall := length_le_intactCount (p := p) batches [] (zeros (config.segmentBytes -
    (segmentHeaderBytes + batchesSize batches)))
  rw [append_nil] at hall
  rw [take_of_length_le hall] at hlegible
  exact hlegible

/-- What a power loss leaves of a segment is legible as the batches that were
    durable and some of those after them. -/
theorem legible_found (hdet : p.Detects config.segmentBytes) {safe log : List (Batch Cid)}
    {found : Bytes} (hown : handle.owner < 2 ^ 32) (hfits : ∀ batch ∈ log, batch.Fits)
    (hroom : segmentHeaderBytes + batchesSize log ≤ config.segmentBytes) (hsafe : safe <+: log)
    (hmix : Mixed (image p config handle safe) (image p config handle log) found) :
    ∃ kept, safe <+: kept ∧ kept <+: log ∧ Legible p config handle found kept := by
  rcases hsafe with ⟨more, rfl⟩
  rw [batchesSize_append] at hroom
  have hheader : (segmentHeaderBlock p handle.owner handle.generation handle.segmentId).length =
      segmentHeaderBytes := length_segmentHeaderBlock p _ _ _
  -- Both images start with the header and the durable batches.
  rw [image, image, encodeAll_append, batchesSize_append, ← append_assoc, append_assoc
    (encodeAll p safe), ← append_assoc (segmentHeaderBlock p _ _ _)] at hmix
  rcases hmix.torn (by rw [length_append, length_encodeAll, length_zeros]; omega) with
    ⟨t, rfl, ht⟩
  have hwhole := (Torn.refl (encodeAll p safe)).append ht
  rw [← append_assoc, ← encodeAll_append] at hwhole
  have hlegible := legible_torn hheader (validate_segmentHeaderBlock p hown handle.generation
    handle.segmentId) hfits hwhole (Or.inl hdet) (by rw [batchesSize_append]; omega)
  rw [append_assoc]
  refine ⟨_, ?_, take_prefix _ _, hlegible⟩
  rw [prefix_take_iff]
  exact ⟨prefix_append _ _, length_le_intactCount safe more t⟩

/-- A file of which only the header was written is legible if that is there. -/
theorem legible_blank {bytes block : Bytes} (hread : readAt bytes 0 segmentHeaderBytes = some block)
    (hval : validateSegmentHeader p block handle.owner handle.generation handle.segmentId = true)
    (hblank : ∀ i, segmentHeaderBytes ≤ i → bytes.getD i 0 = 0) :
    Legible p config handle bytes [] := by
  have hlen : segmentHeaderBytes ≤ bytes.length := by
    by_contra hshort
    rw [readAt, if_neg (by omega)] at hread
    cases hread
  have hheader : (bytes.take segmentHeaderBytes).length = segmentHeaderBytes :=
    length_take_of_le hlen
  obtain ⟨n, hzeros⟩ : ∃ n, bytes.drop segmentHeaderBytes = zeros n := by
    refine ⟨_, eq_replicate_iff.mpr ⟨rfl, fun b hb => ?_⟩⟩
    rcases mem_iff_getElem.mp hb with ⟨i, hi, rfl⟩
    rw [length_drop] at hi
    have hbyte := hblank (segmentHeaderBytes + i) (Nat.le_add_right _ _)
    rw [getD_eq_getElem _ _ (by omega)] at hbyte
    rw [getElem_drop]
    exact hbyte
  rw [readAt_eq (by omega), slice, drop_zero, Option.some.injEq] at hread
  rw [← hread] at hval
  have hnone : encodeAll p ([] : List (Batch Cid)) ++ zeros n = zeros n := rfl
  have hroom : batchesSize ([] : List (Batch Cid)) ≤ config.segmentBytes - segmentHeaderBytes :=
    Nat.zero_le _
  have hlegible := legible_torn (n := n) hheader hval (forall_mem_nil _) (Torn.refl _) (Or.inr rfl)
    hroom
  rw [hnone, ← hzeros, take_append_drop, take_nil] at hlegible
  exact hlegible

end Legible

/-! ## One segment -/

/-- Recovery may write zeros where it has stopped. -/
def Cleaned (config : NativeConfig) (stop : Nat) (before after : DiskFile) : Prop :=
  after = before ∨ stop + recordHeaderBytes ≤ config.segmentBytes ∧
    after = (before.write stop (zeros recordHeaderBytes)).sync

section Recovery

variable {Cid : Type} {p : Primitives Cid} {config : NativeConfig} {handle : SegmentHandle}

/-- The batches that were read are still there. -/
theorem Cleaned.stores {kept : List (Batch Cid)} {before after : DiskFile}
    (h : Cleaned config (segmentHeaderBytes + batchesSize kept) before after)
    (hstores : Stores p before.bytes kept) : Stores p after.bytes kept := by
  rcases h with rfl | ⟨_, rfl⟩
  · exact hstores
  · rcases hstores with ⟨header, rest, hheader, hbytes⟩
    refine ⟨header, patch rest 0 (zeros recordHeaderBytes), hheader, ?_⟩
    have hfront : (header ++ encodeAll p kept).length = segmentHeaderBytes + batchesSize kept := by
      rw [length_append, hheader, length_encodeAll]
    show patch before.bytes _ _ = _
    rw [hbytes, ← append_assoc, ← hfront, ← Nat.add_zero (List.length _), patch_append,
      append_assoc]

variable [Ord Cid] [Std.TransOrd Cid] {s : NativeInner Cid} {disk : Disk SegmentHandle}
  {file : DiskFile} {kept : SegmentHandle → List (Batch Cid)} {done : List SegmentHandle}

theorem recoverSegment_ends {batches : List (Batch Cid)} (hpow : s.power = none)
    (hfile : s.disk[handle]? = some file) (hlegible : Legible p config handle file.bytes batches) :
    (recoverSegment p config handle).Ends s fun r s' =>
      r = .ok (segmentHeaderBytes + batchesSize batches) ∧
        ∃ (after : DiskFile) (disk' : Disk SegmentHandle),
          Cleaned config (segmentHeaderBytes + batchesSize batches) file after ∧
          (∀ k, disk'[k]? = if handle = k then some after else s.disk[k]?) ∧
          s' = { s with
            index := replay p handle segmentHeaderBytes batches s.index
            disk := disk' } := by
  rcases hlegible.header with ⟨block, hread, hval⟩
  have hidx := hlegible.index_eq s.index
  have hend := hlegible.end_eq s.index
  unfold recoverSegment
  refine Ends.get_bind (Ends.expect_some hfile (Ends.expect_some hread ?_))
  refine Ends.require_pos hval ?_
  refine Ends.modify_bind ?_
  rw [Scan.start] at hidx hend
  generalize scan p config handle file.bytes
    ⟨segmentHeaderBytes, segmentHeaderBytes, false, ∅, s.index⟩ = result at hidx hend ⊢
  rw [hidx, hend]
  -- Whether zeros are written depends on how reading ended.
  by_cases hclean : ((result.tornTail || !result.pending.isEmpty) &&
      decide (segmentHeaderBytes + batchesSize batches + recordHeaderBytes ≤
        config.segmentBytes)) = true
  · rw [if_pos hclean]
    have hroom : segmentHeaderBytes + batchesSize batches + recordHeaderBytes ≤
        config.segmentBytes := by
      rw [Bool.and_eq_true, decide_eq_true_eq] at hclean
      exact hclean.2
    unfold writeAligned
    refine Ends.bind (Ends.bind (onDisk_done hpow (onDisk_done hpow (Ends.pure ⟨rfl,
      (file.write (segmentHeaderBytes + batchesSize batches) (zeros recordHeaderBytes)).sync, _,
      Or.inr ⟨hroom, rfl⟩, fun k => ?_, rfl⟩))))
    rw [Disk.getElem?_syncFile, Disk.getElem?_write]
    by_cases hk : handle = k
    · rw [if_pos hk, if_pos hk, if_pos hk, ← hk, hfile]
      rfl
    · rw [if_neg hk, if_neg hk, if_neg hk]
  · rw [if_neg hclean]
    refine Ends.pure ⟨rfl, file, s.disk, Or.inl rfl, fun k => ?_, rfl⟩
    by_cases hk : handle = k
    · rw [if_pos hk, ← hk, hfile]
    · rw [if_neg hk]

/-! ## All segments -/

variable [DecidableEq Cid]

variable (p config) in
/-- What recovery has done after some segments of a disk. -/
structure Recovered (kept : SegmentHandle → List (Batch Cid)) (disk : Disk SegmentHandle)
    (done : List SegmentHandle) (s : NativeInner Cid) : Prop where
  index : Represents kept s.index (outcome emptyMap ((joined done kept).flatMap Batch.updates))
  cleaned : ∀ handle ∈ done, ∃ before after : DiskFile, disk[handle]? = some before ∧
    s.disk[handle]? = some after ∧ Legible p config handle before.bytes (kept handle) ∧
    Cleaned config (segmentHeaderBytes + batchesSize (kept handle)) before after
  others : ∀ handle, handle ∉ done → s.disk[handle]? = disk[handle]?
  numbered : ∀ handle ∈ done, handle.generation < s.nextGeneration
  writer : ∀ owner w, s.writers owner = some w → w.handle ∈ done ∧ w.handle.owner = owner ∧
    w.offset = segmentHeaderBytes + batchesSize (kept w.handle) ∧
    ∀ handle ∈ done, handle.owner = owner → handle ≠ w.handle → compare handle w.handle = .lt
  allocated : ∀ locationIndex,
    s.allocated locationIndex = config.segmentBytes * countAt done locationIndex
  power : s.power = none

theorem recovered_fresh (owners : Nat) (kept : SegmentHandle → List (Batch Cid)) :
    Recovered p config kept disk [] (freshEngine owners disk none) where
  index := represents_empty
  cleaned _ hmem := absurd hmem not_mem_nil
  others _ _ := rfl
  numbered _ hmem := absurd hmem not_mem_nil
  writer _ _ hw := absurd hw (by simp [freshEngine])
  allocated _ := (Nat.mul_zero _).symm
  power := rfl

variable [Std.LawfulEqOrd Cid]

/-- The next segment of the listing is recovered. -/
theorem recoverFile_ends (h : Recovered p config kept disk done s)
    (hlast : ∀ before ∈ done, compare before handle = .lt) (hfile : disk[handle]? = some file)
    (hlegible : Legible p config handle file.bytes (kept handle))
    (hroom : Fitting config handle.locationIndex
      (countAt (done ++ [handle]) handle.locationIndex)) :
    (recoverFile p config handle).Ends s fun r s' =>
      r = .ok () ∧ Recovered p config kept disk (done ++ [handle]) s' ∧ s'.owners = s.owners := by
  have hnew : handle ∉ done := by
    intro hmem
    have hself := hlast handle hmem
    rw [Std.ReflOrd.compare_self] at hself
    exact absurd hself (by decide)
  rw [countAt_snoc, Function.update_self] at hroom
  have hfile' : s.disk[handle]? = some file := by rw [h.others handle hnew, hfile]
  unfold recoverFile
  refine Ends.get_bind (Ends.require_bind (fun hnot => ?_) fun _ => Ends.modify_bind ?_)
  · exact absurd ((hasRoom_iff (h.allocated _)).mpr hroom) hnot
  refine Ends.call (recoverSegment_ends h.power hfile' hlegible) (fun e s1 hfailed => ?_) ?_
  · exact absurd hfailed.1 (by simp)
  intro stop s1 hdone
  rcases hdone with ⟨hstop, after, disk', hcleaned, hdisk', rfl⟩
  cases hstop
  refine Ends.modify_bind (Ends.modify ⟨rfl, ?_, rfl⟩)
  constructor
  case index =>
    -- The records of this segment are replayed behind those of the earlier ones.
    have hall : kept handle = [] ++ kept handle ++ [] := by
      rw [nil_append, append_nil]
    have hreplay := represents_replay p hall h.index
    rw [batchesSize, map_nil, sum_nil, Nat.add_zero, ← outcome_append, ← flatMap_append] at hreplay
    rw [joined_append, joined_singleton]
    exact hreplay
  case cleaned =>
    intro k hk
    by_cases hkey : k = handle
    · rw [hkey]
      refine ⟨file, after, hfile, ?_, hlegible, hcleaned⟩
      show disk'[handle]? = _
      rw [hdisk', if_pos rfl]
    · have hmem := (mem_append.mp hk).resolve_right fun hlast' =>
        hkey (mem_singleton.mp hlast')
      rcases h.cleaned k hmem with ⟨before, after', hbef, haft, hrest⟩
      refine ⟨before, after', hbef, ?_, hrest⟩
      show disk'[k]? = _
      rw [hdisk', if_neg (Ne.symm hkey)]
      exact haft
  case others =>
    intro k hk
    rw [mem_append, mem_singleton, not_or] at hk
    show disk'[k]? = _
    rw [hdisk', if_neg (Ne.symm hk.2)]
    exact h.others k hk.1
  case numbered =>
    refine forall_mem_concat (fun k hmem => ?_) (lt_max_of_lt_right (Nat.lt_succ_self _))
    exact lt_max_of_lt_left (h.numbered k hmem)
  case writer =>
    -- The listing is sorted, so the segment is the newest of its owner so far.
    intro owner w hw
    by_cases hown : owner = handle.owner
    · have hself : some (⟨handle, segmentHeaderBytes + batchesSize (kept handle)⟩ : SegmentWriter) =
          some w := by
        rw [← hw, hown]
        exact (Function.update_self handle.owner _ s.writers).symm
      cases hself
      refine ⟨mem_concat_self, hown.symm, rfl, fun k hk _ hne => ?_⟩
      exact hlast k ((mem_append.mp hk).resolve_right fun hmem =>
        hne (mem_singleton.mp hmem))
    · have hw' : s.writers owner = some w := by
        rw [← hw]
        exact (Function.update_of_ne hown _ s.writers).symm
      rcases h.writer owner w hw' with ⟨hmem, hown', hoff, hnewest⟩
      refine ⟨mem_append_left _ hmem, hown', hoff, fun k hk hkowner hne => ?_⟩
      rcases mem_append.mp hk with hold | hnew'
      · exact hnewest k hold hkowner hne
      · rw [mem_singleton.mp hnew'] at hkowner
        exact absurd hkowner.symm hown
  case allocated =>
    intro loc
    rw [countAt_snoc]
    by_cases hloc : loc = handle.locationIndex
    · rw [hloc, Function.update_self, Nat.mul_succ, ← h.allocated]
      exact Function.update_self _ _ _
    · rw [Function.update_of_ne hloc, ← h.allocated]
      exact Function.update_of_ne hloc _ _
  case power => exact h.power

/-- Recovery of a disk whose segments are legible and have room. -/
theorem openEngine_recovered {owners : Nat} {segments : List SegmentHandle}
    (hsegments : disk.visible.filter (fun handle => handle.owner < owners) = segments)
    (hlegible : ∀ handle ∈ segments, ∃ file : DiskFile, disk[handle]? = some file ∧
      Legible p config handle file.bytes (kept handle))
    (hroom : ∀ loc, Fitting config loc (countAt segments loc)) :
    ∃ s, openEngine p config owners disk none = (.ok (), s) ∧
      Recovered p config kept disk segments s ∧ s.owners = owners := by
  have hsorted : segments.Pairwise fun a b => compare a b = .lt := by
    rw [← hsegments]
    exact Disk.visible_sorted.filter _
  have hends : (recover p config).Ends (freshEngine owners disk none) fun r s =>
      r = .ok () ∧ Recovered p config kept disk segments s ∧ s.owners = owners := by
    unfold recover
    refine Ends.get_bind ?_
    show Ends (ForM.forM (disk.visible.filter fun handle => handle.owner < owners)
      (recoverFile p config) >>= _) _ _
    rw [hsegments]
    -- The loop has done a front part of the listing.
    refine Ends.call (Ends.forM (fun rest s => ∃ done, done ++ rest = segments ∧
      Recovered p config kept disk done s ∧ s.owners = owners) (Q := fun r s => r = .ok () ∧
        Recovered p config kept disk segments s ∧ s.owners = owners) segments ?_ ?_ ?_) ?_ ?_
    · intro handle rest s hloop
      rcases hloop with ⟨done, hdone, hrecovered, howners⟩
      have hmem : handle ∈ segments := by
        rw [← hdone]
        exact mem_append_right _ mem_cons_self
      rcases hlegible handle hmem with ⟨file, hfile, hread⟩
      have hfront : done ++ [handle] <+: segments :=
        ⟨rest, by rw [append_assoc, singleton_append, hdone]⟩
      have hlast : ∀ before ∈ done, compare before handle = .lt := by
        rw [← hdone] at hsorted
        intro before hbef
        exact (pairwise_append.mp hsorted).2.2 before hbef handle mem_cons_self
      refine (recoverFile_ends hrecovered hlast hfile hread
        ((hroom _).mono (countAt_mono hfront _))).mono ?_
      intro r s' hr
      rcases hr with ⟨rfl, hnext, howners'⟩
      exact ⟨done ++ [handle], by rw [append_assoc, singleton_append, hdone], hnext,
        howners'.trans howners⟩
    · intro s hloop
      rcases hloop with ⟨done, hdone, hrecovered, howners⟩
      rw [append_nil] at hdone
      rw [hdone] at hrecovered
      exact ⟨rfl, hrecovered, howners⟩
    · exact ⟨[], rfl, recovered_fresh owners kept, rfl⟩
    · intro e s hfailed
      exact absurd hfailed.1 (by simp)
    intro _ s hloop
    rcases hloop with ⟨_, hrecovered, howners⟩
    refine Ends.modify ⟨rfl, ?_, howners⟩
    refine ⟨hrecovered.index, hrecovered.cleaned, hrecovered.others, hrecovered.numbered, ?_,
      hrecovered.allocated, hrecovered.power⟩
    intro owner w hw
    exact hrecovered.writer owner w (Option.filter_eq_some_iff.mp hw).1
  rcases hopen : openEngine p config owners disk none with ⟨r, s⟩
  rcases hends.of_eq hopen with ⟨rfl, hrecovered⟩
  exact ⟨s, rfl, hrecovered⟩

omit [Std.LawfulEqOrd Cid] in
/-- The blocks that an engine shows after recovery. -/
theorem Recovered.serves {segments : List SegmentHandle}
    (h : Recovered p config kept disk segments s)
    (habs : ∀ handle, handle ∉ segments → kept handle = []) :
    Serves s (outcome emptyMap ((joined segments kept).flatMap Batch.updates)) := by
  refine serves_of_represents (p := p) h.index fun location block hpoints => ?_
  have hmem : location.segment ∈ segments := by
    by_contra hnot
    rcases hpoints.mem with ⟨batch, hbat, _⟩
    rw [habs _ hnot] at hbat
    cases hbat
  rcases h.cleaned _ hmem with ⟨before, after, _, haft, hlegible, hcleaned⟩
  exact ⟨after, haft, hcleaned.stores hlegible.stores⟩

end Recovery

end Native

end Pepper
