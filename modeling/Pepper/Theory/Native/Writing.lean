import Pepper.Theory.Native.Creation

/-!
# Writing Batches

What the writing calls of the engine do to the journal: a chunk of blocks is one
batch behind the last one of its owner, a barrier makes batches durable.

The specifications are for every outcome. A call that fails may have written
some of its batches, and each of them holds nothing but blocks of the call.

## Theorems

* `Sound.append`: Writing a batch where the writer stands.
* `Sound.syncFiles`: Making the files of some locations durable.
* `writeChunk_ends`, `writeDataExclusive_ends`: Writing blocks.
* `durabilityBarrier_ends`: Making them durable.
-/

namespace Pepper

namespace Native

open Bytes Fallible List

section Writing

variable {Cid : Type} [Ord Cid] {p : Primitives Cid} {config : NativeConfig}
  {s s' s'' : NativeInner Cid} {j j' : Journal SegmentHandle (Batch Cid)}

/-! ## One batch -/

/-- Writing to a file that is there leaves the listing alone. -/
theorem mem_visible_write (disk : Disk SegmentHandle) (target handle : SegmentHandle) (offset : Nat)
    (bytes : Bytes) :
    handle ∈ (disk.write target offset bytes).visible ↔ handle ∈ disk.visible := by
  rw [Disk.mem_visible, Disk.mem_visible, Disk.getElem?_write]
  by_cases htarget : target = handle
  · rw [if_pos htarget]
    simp only [Option.map_eq_some_iff, exists_exists_and_eq_and]
    rfl
  · rw [if_neg htarget]

theorem mem_write (disk : Disk SegmentHandle) (target handle : SegmentHandle) (offset : Nat)
    (bytes : Bytes) : handle ∈ disk.write target offset bytes ↔ handle ∈ disk := by
  rw [Std.ExtTreeMap.mem_iff_isSome_getElem?, Std.ExtTreeMap.mem_iff_isSome_getElem?,
    Disk.getElem?_write]
  by_cases htarget : target = handle
  · rw [if_pos htarget, Option.isSome_map]
  · rw [if_neg htarget]

variable {batch : Batch Cid} {owner : Nat} {blocks : List (EncodedBlock Cid)}
  {w : SegmentWriter} {which : SegmentHandle → Bool} {handle : SegmentHandle}

section Appending

variable (h : Sound p config s j) (hw : s.writers owner = some w) (hfits : batch.Fits)
  (hroom : w.offset + batch.size ≤ config.segmentBytes)
  (hdisk : s'.disk = s.disk.write w.handle w.offset (batch.encode p))
  (hwriters : s'.writers = Function.update s.writers owner
    (some { w with offset := w.offset + batch.size }))
  (hnext : s.nextGeneration ≤ s'.nextGeneration) (hallocated : s'.allocated = s.allocated)

include h hw hfits hroom hdisk hwriters hnext hallocated

/-- Writing a batch where the writer stands. -/
theorem Sound.append : Sound p config s' (j.append w.handle batch) := by
  rcases h.writer owner w hw with ⟨hown, hvis, hoff, hnewest⟩
  have hmem : ∀ handle, handle ∈ s'.disk.visible ↔ handle ∈ s.disk.visible := by
    intro handle
    rw [hdisk]
    exact mem_visible_write _ _ _ _ _
  have hsize : batchesSize ((j.append w.handle batch).log w.handle) =
      batchesSize (j.log w.handle) + batch.size := by
    rw [Journal.log_append_self, batchesSize_append, batchesSize_singleton]
  have hloaded : ∀ loc, loaded s'.disk loc = loaded s.disk loc := by
    refine loaded_congr fun handle _ => ?_
    rw [hdisk]
    exact mem_write _ _ _ _ _
  constructor
  case file =>
    -- Only the bytes of the written segment change; they are patched at the writer.
    intro handle file hfile
    rw [hdisk, Disk.getElem?_write] at hfile
    by_cases htarget : w.handle = handle
    · rw [if_pos htarget, ← htarget, h.mem_visible.mp hvis, Option.map_some, Option.some.injEq]
        at hfile
      left
      rw [← htarget]
      refine ⟨h.owner_lt hvis, ?_⟩
      rw [← hfile, segmentFile, segmentFile, Journal.log_append_self, DiskFile.write, hoff,
        patch_image]
      rfl
    · rw [if_neg htarget] at hfile
      rcases h.file handle file hfile with ⟨hlt, rfl⟩ | hjunk
      · left
        refine ⟨hlt, ?_⟩
        rw [segmentFile, segmentFile, Journal.log_append_of_ne j fun heq => htarget heq.symm]
        rfl
      · exact Or.inr hjunk
  case absent =>
    intro handle hhandle
    rw [hmem] at hhandle
    have hne : handle ≠ w.handle := by
      intro heq
      exact hhandle (heq ▸ hvis)
    rw [Journal.log_append_of_ne j hne]
    exact h.absent handle hhandle
  case room =>
    intro handle hhandle
    by_cases htarget : handle = w.handle
    · rw [htarget, hsize]
      omega
    · rw [Journal.log_append_of_ne j htarget]
      exact h.room handle ((hmem handle).mp hhandle)
  case fits =>
    intro handle b hb
    by_cases htarget : handle = w.handle
    · rw [htarget, Journal.log_append_self, mem_append, mem_singleton] at hb
      rcases hb with hb | rfl
      · exact h.fits _ b hb
      · exact hfits
    · rw [Journal.log_append_of_ne j htarget] at hb
      exact h.fits handle b hb
  case numbered =>
    intro handle hhandle
    exact lt_of_lt_of_le (h.numbered handle ((hmem handle).mp hhandle)) hnext
  case writer =>
    intro o w' hw'
    rw [hwriters] at hw'
    by_cases ho : o = owner
    · rw [ho, Function.update_self, Option.some.injEq] at hw'
      subst hw'
      refine ⟨hown.trans ho.symm, (hmem _).mpr hvis, ?_, ?_⟩
      · show w.offset + batch.size = _
        rw [hsize, hoff, Nat.add_assoc]
      · intro handle hhandle hhandle' hne
        exact hnewest handle ((hmem handle).mp hhandle) (hhandle'.trans ho) hne
    · rw [Function.update_of_ne ho] at hw'
      rcases h.writer o w' hw' with ⟨hown', hvis', hoff', hnewest'⟩
      have hne : w'.handle ≠ w.handle := by
        intro heq
        rw [heq, hown] at hown'
        exact ho hown'.symm
      refine ⟨hown', (hmem _).mpr hvis', ?_, ?_⟩
      · rw [Journal.log_append_of_ne j hne]
        exact hoff'
      · intro handle hhandle
        exact hnewest' handle ((hmem handle).mp hhandle)
  case allocated =>
    intro loc
    rw [hallocated, hloaded, h.allocated]
  case capacity =>
    intro loc
    rw [hloaded]
    exact h.capacity loc

theorem Sound.append_advances (hidx : s'.index = s.index) (howners : s'.owners = s.owners)
    (hpow : s.power = none → s'.power = none) :
    Advances p config s j [(w.handle, batch)] s' (j.append w.handle batch) := by
  rcases h.writer owner w hw with ⟨hown, hvis, _, hnewest⟩
  have hmem : ∀ handle, handle ∈ s'.disk.visible ↔ handle ∈ s.disk.visible := by
    intro handle
    rw [hdisk]
    exact mem_visible_write _ _ _ _ _
  refine ⟨h.append hw hfits hroom hdisk hwriters hnext hallocated, ?_, hidx, howners, hpow, hnext,
    fun handle hhandle => Or.inl ((hmem handle).mp hhandle), ?_⟩
  · -- The writer's segment is the last one of its owner.
    have hlast : ownerSegmentPaths s.disk w.handle.owner =
        (ownerSegmentPaths s.disk w.handle.owner).filter (fun handle => handle ≠ w.handle) ++
          [w.handle] := by
      refine eq_of_sorted (paths_sorted _ _) ?_ ?_
      · refine pairwise_append.mpr ⟨(paths_sorted _ _).filter _, pairwise_singleton _ _, ?_⟩
        intro handle hhandle last hlast
        rw [mem_singleton.mp hlast]
        rw [mem_filter, mem_paths, decide_eq_true_eq] at hhandle
        exact hnewest handle hhandle.1.1 (hhandle.1.2.trans hown) hhandle.2
      · intro handle
        rw [mem_append, mem_singleton, mem_filter, decide_eq_true_eq]
        by_cases heq : handle = w.handle
        · rw [heq]
          simp only [or_true, iff_true]
          exact mem_paths.mpr ⟨hvis, rfl⟩
        · simp only [heq, ne_eq, not_false_eq_true, and_true, or_false]
    rw [paths_congr hmem]
    refine Appends.append (l := []) w.handle batch .refl hlast ?_
    rw [mem_filter, decide_eq_true_eq]
    exact fun hself => hself.2 rfl
  · intro o gen hle hwriter
    constructor
    · intro w' hw'
      rw [hwriters] at hw'
      by_cases ho : o = owner
      · rw [ho, Function.update_self, Option.some.injEq] at hw'
        subst hw'
        exact hwriter w (ho ▸ hw)
      · rw [Function.update_of_ne ho] at hw'
        exact hwriter w' hw'
    · intro entry hent hown'
      rw [mem_singleton] at hent
      subst hent
      exact hwriter w (by rw [← hown', hown]; exact hw)

end Appending

/-! ## Making files durable -/

variable (p config) in
/-- Some files have been made durable; nothing else has changed. -/
structure Syncs (s : NativeInner Cid) (j : Journal SegmentHandle (Batch Cid))
    (which : SegmentHandle → Bool) (s' : NativeInner Cid) : Prop where
  sound : Sound p config s' (j.sync which)
  visible_eq : s'.disk.visible = s.disk.visible
  index_eq : s'.index = s.index
  owners_eq : s'.owners = s.owners
  writers_eq : s'.writers = s.writers
  generation_eq : s'.nextGeneration = s.nextGeneration
  power_none : s.power = none → s'.power = none

theorem Syncs.paths_eq (h : Syncs p config s j which s') :
    ownerSegmentPaths s'.disk = ownerSegmentPaths s.disk :=
  paths_congr fun handle => by rw [h.visible_eq]

variable (p config) in
/-- A file changes only in what of it is durable. -/
structure Settles (s : NativeInner Cid) (j : Journal SegmentHandle (Batch Cid))
    (which : SegmentHandle → Bool) (disk : Disk SegmentHandle) : Prop where
  kept : ∀ handle ∈ s.disk.visible, disk[handle]? =
    some (segmentFile p config (j.sync which) handle)
  rest : ∀ (handle : SegmentHandle) (file : DiskFile), handle ∉ s.disk.visible →
    disk[handle]? = some file → s.disk[handle]? = some file

theorem Sound.settle (h : Sound p config s j) (hsettles : Settles p config s j which s'.disk)
    (hwriters : s'.writers = s.writers) (hnext : s'.nextGeneration = s.nextGeneration)
    (hallocated : s'.allocated = s.allocated) (hidx : s'.index = s.index)
    (howners : s'.owners = s.owners) (hpow : s.power = none → s'.power = none) :
    Syncs p config s j which s' := by
  have hmem : ∀ handle, handle ∈ s'.disk.visible ↔ handle ∈ s.disk.visible := by
    intro handle
    constructor
    · intro hvis
      by_contra hnot
      rcases Disk.mem_visible.mp hvis with ⟨file, hfile, hent⟩
      exact hnot (Disk.mem_visible.mpr ⟨file, hsettles.rest handle file hnot hfile, hent⟩)
    · intro hvis
      exact Disk.mem_visible.mpr ⟨_, hsettles.kept handle hvis, segmentFile_entry_ne p config _ _⟩
  have hvis := visible_congr hmem
  have hfile : ∀ (handle : SegmentHandle) (file : DiskFile), s'.disk[handle]? = some file →
      handle.owner < 2 ^ 32 ∧ file = segmentFile p config (j.sync which) handle ∨
        2 ^ 32 ≤ handle.owner ∧ file.entry = .unlinked ∧ Blank file := by
    intro handle file hfile
    by_cases hold : handle ∈ s.disk.visible
    · rw [hsettles.kept handle hold, Option.some.injEq] at hfile
      exact Or.inl ⟨h.owner_lt hold, hfile.symm⟩
    · have hbef := hsettles.rest handle file hold hfile
      rcases h.file handle file hbef with ⟨_, rfl⟩ | hjunk
      · exact absurd (h.mem_visible.mpr hbef) hold
      · exact Or.inr hjunk
  have hloaded : ∀ loc, loaded s'.disk loc = loaded s.disk loc := by
    refine loaded_congr fun handle hown => ?_
    rw [h.mem_iff hown, ← hmem handle]
    constructor
    · intro hin
      rcases mem_iff_exists.mp hin with ⟨file, hfound⟩
      rcases hfile handle file hfound with ⟨_, rfl⟩ | ⟨hle, _⟩
      · exact Disk.mem_visible.mpr ⟨_, hfound, segmentFile_entry_ne p config _ _⟩
      · omega
    · intro hin
      rcases Disk.mem_visible.mp hin with ⟨file, hfound, _⟩
      exact mem_iff_exists.mpr ⟨_, hfound⟩
  refine ⟨⟨hfile, ?_, ?_, h.fits, ?_, ?_, ?_, ?_⟩, hvis, hidx, howners, hwriters, hnext, hpow⟩
  · rw [hvis]
    exact h.absent
  · rw [hvis]
    exact h.room
  · rw [hvis, hnext]
    exact h.numbered
  · rw [hvis, hwriters]
    exact h.writer
  · intro loc
    rw [hallocated, hloaded, h.allocated]
  · intro loc
    rw [hloaded]
    exact h.capacity loc

theorem Sound.syncFiles (h : Sound p config s j) (which : SegmentHandle → Bool) :
    Settles p config s j which (s.disk.syncFiles which) where
  kept handle hvis := by
    have hfile := h.mem_visible.mp hvis
    rw [Disk.getElem?_syncFiles, hfile]
    by_cases hwhich : which handle = true
    · rw [segmentFile, segmentFile, Journal.safe_sync_of j hwhich]
      simp only [hwhich, Bool.true_and, Option.filter, beq_eq_false_iff_ne.mpr, ne_eq, reduceCtorEq,
        not_false_eq_true, Bool.not_false, if_true, Option.map_some, DiskFile.sync]
      rfl
    · rw [segmentFile, segmentFile, Journal.safe_sync_of_not j hwhich]
      rw [Bool.not_eq_true] at hwhich
      simp only [hwhich, Bool.false_and, Bool.not_false, Option.filter, if_true, Option.map_some,
        Bool.false_eq_true, if_false]
      rfl
  rest handle file hnot hfile := by
    rw [Disk.getElem?_syncFiles, Option.map_eq_some_iff] at hfile
    rcases hfile with ⟨before, hbef, rfl⟩
    rw [Option.filter_eq_some_iff] at hbef
    rw [hbef.1]
    rcases h.file handle before hbef.1 with ⟨_, rfl⟩ | ⟨_, hent, _⟩
    · exact absurd (h.mem_visible.mpr hbef.1) hnot
    · -- A removed file is dropped by the sync if it is covered.
      have hwhich : which handle = false := by
        have hkept := hbef.2
        rw [hent] at hkept
        cases hw : which handle with
        | false => rfl
        | true =>
          rw [hw] at hkept
          exact absurd hkept (by decide)
      rw [if_neg (by rw [hwhich]; decide)]

theorem Sound.syncFile (h : Sound p config s j) {target : SegmentHandle}
    (hthere : target ∈ s.disk.visible) :
    Settles p config s j (fun handle => handle = target) (s.disk.syncFile target) where
  kept handle hvis := by
    have hfile := h.mem_visible.mp hvis
    rw [Disk.getElem?_syncFile, hfile]
    by_cases htarget : target = handle
    · rw [if_pos htarget, segmentFile, segmentFile,
        Journal.safe_sync_of j (decide_eq_true htarget.symm)]
      rfl
    · rw [if_neg htarget, segmentFile, segmentFile, Journal.safe_sync_of_not j]
      · rfl
      · rw [decide_eq_true_eq]
        exact fun heq => htarget heq.symm
  rest handle file hnot hfile := by
    rw [Disk.getElem?_syncFile] at hfile
    by_cases htarget : target = handle
    · exact absurd (htarget ▸ hthere) hnot
    · rw [if_neg htarget] at hfile
      exact hfile

/-! ## Chunks -/

omit [Ord Cid] in
/-- The locations of a batch that is in the journal. -/
theorem points_batchLocations {log : SegmentHandle → List (Batch Cid)}
    {before after : List (Batch Cid)} (hlog : log handle = before ++ batch :: after)
    {pre : List (EncodedBlock Cid)} (hrecords : batch.records = (pre ++ blocks).map .data) :
    List.Forall₂ (Points log) (batchLocations handle
      (segmentHeaderBytes + batchesSize before + recordsSize (pre.map .data)) blocks) blocks := by
  induction blocks generalizing pre with
  | nil => exact List.Forall₂.nil
  | cons block rest ih =>
    have hnext : segmentHeaderBytes + batchesSize before + recordsSize (pre.map .data) +
        recordHeaderBytes + alignUp block.bytes.length =
        segmentHeaderBytes + batchesSize before + recordsSize ((pre ++ [block]).map .data) := by
      rw [map_append, recordsSize_append, map_singleton, recordsSize_cons,
        show recordsSize ([] : List (Record Cid)) = 0 from rfl, Record.size]
      omega
    rw [batchLocations, payloadOffsets, zip_cons_cons, map_cons, hnext]
    refine List.Forall₂.cons ?_ (ih (by rw [hrecords, append_assoc, singleton_append]))
    refine ⟨before, batch, after, pre.map .data, rest.map .data, hlog, ?_, rfl⟩
    rw [hrecords, map_append, map_cons]

omit [Ord Cid] in
theorem segment_batchLocations {start : Nat} {record : RecordLocation Cid}
    (h : record ∈ batchLocations handle start blocks) : record.segment = handle := by
  rw [batchLocations, mem_map] at h
  rcases h with ⟨entry, _, rfl⟩
  rfl

/-- A chunk becomes one batch. -/
theorem writeChunk_ends (h : Sound p config s j) {chunk : List (EncodedBlock Cid)}
    (hcase : owner < 2 ^ 32 ∨ s.power = none) (hne : chunk ≠ [])
    (hfil : ∀ block ∈ chunk, block.bytes ≠ []) :
    (writeChunk p config owner chunk).Ends s fun r s' =>
      match r with
      | .ok staged => ∃ handle id, handle.owner = owner ∧
          Advances p config s j [(handle, ⟨id, chunk.map .data⟩)] s'
            (j.append handle ⟨id, chunk.map .data⟩) ∧
          List.Forall₂ (Points (j.append handle ⟨id, chunk.map .data⟩).log) staged chunk ∧
          (∃ record ∈ staged, record.segment = handle) ∧
          ∀ record ∈ staged, record.segment = handle
      | .error e => Fails p config s j (fun _ => False) e s' := by
  unfold writeChunk
  refine takeSegmentId_ends ?_
  have hstart : Advances p config s j [] { s with nextSegmentId := s.nextSegmentId + 1 } j :=
    Advances.of_eq h rfl rfl le_rfl rfl rfl rfl id
  have hnone : ∀ entry ∈ ([] : List (SegmentHandle × Batch Cid)), False :=
    forall_mem_nil _
  generalize hid : s.nextSegmentId % 2 ^ 64 = id
  rw [encodeBatch_eq]
  refine Ends.ofExcept_bind ?_ ?_
  · intro e he
    cases he
  intro encoded henc
  cases henc
  -- So far only the number of the next batch was taken.
  refine Ends.call (ensureWriter_ends hstart.sound hcase) ?_ ?_
  · intro e s' hfails
    exact Fails.after hstart hnone hfails
  intro w s1 hw
  rcases hw with ⟨hadv, hwriter, hroom⟩
  rw [Batch.length_encode] at hroom
  have hbef : Advances p config s j [] s1 j := hstart.trans hadv
  rcases hbef.sound.writer owner w hwriter with ⟨hown, hvis, hoff, _⟩
  have hfits : (⟨id, chunk.map .data⟩ : Batch Cid).Fits := by
    refine ⟨?_, ?_, ?_, ?_⟩
    · rw [← hid]
      exact Nat.mod_lt _ (by decide)
    · exact fun hnil => hne (map_eq_nil_iff.mp hnil)
    · intro record hrec
      rcases mem_map.mp hrec with ⟨block, hblock, rfl⟩
      exact hfil block hblock
    · have hbytes := config.segmentBytes_lt
      omega
  -- The write fails only if the power is lost.
  refine Ends.bind (onDisk_ends ?_ ?_)
  · intro hpow
    exact Fails.after hbef hnone (Fails.lost hpow hbef.sound.wreck hbef.sound.linked rfl)
  intro power hpow
  have hlog : (j.append w.handle ⟨id, chunk.map .data⟩).log w.handle =
      j.log w.handle ++ ⟨id, chunk.map .data⟩ :: [] := Journal.log_append_self _ _ _
  have hrecords : (⟨id, chunk.map .data⟩ : Batch Cid).records = ([] ++ chunk).map .data := rfl
  have hpoints := points_batchLocations hlog hrecords
  rw [map_nil, show recordsSize ([] : List (Record Cid)) = 0 from rfl, Nat.add_zero, ← hoff]
    at hpoints
  refine Ends.modify_bind (Ends.pure ?_)
  refine ⟨w.handle, id, hown, ?_, hpoints, ?_, fun _ => segment_batchLocations⟩
  · refine hbef.trans (hbef.sound.append_advances hwriter hfits hroom rfl ?_ le_rfl rfl rfl rfl
      hpow)
    rw [Batch.length_encode]
  · have hstaged : batchLocations w.handle w.offset chunk ≠ [] := by
      intro hnil
      rw [hnil] at hpoints
      cases hpoints
      exact hne rfl
    rcases exists_mem_of_ne_nil _ hstaged with ⟨record, hrec⟩
    exact ⟨record, hrec, segment_batchLocations hrec⟩

/-- A batch that holds nothing but some blocks, in a segment of an owner. -/
def Carries (owner : Nat) (blocks : List (EncodedBlock Cid)) (entry : SegmentHandle × Batch Cid) :
    Prop :=
  entry.1.owner = owner ∧ ∀ record ∈ entry.2.records, ∃ block ∈ blocks, record = .data block

omit [Ord Cid] in
theorem Carries.mono {blocks' : List (EncodedBlock Cid)} {entry : SegmentHandle × Batch Cid}
    (h : Carries owner blocks entry) (hsub : ∀ block ∈ blocks, block ∈ blocks') :
    Carries owner blocks' entry := by
  refine ⟨h.1, fun record hrec => ?_⟩
  rcases h.2 record hrec with ⟨block, hblock, hdata⟩
  exact ⟨block, hsub block hblock, hdata⟩

variable (p config) in
/-- Blocks have been written, in their order, and these are their locations. -/
def Written (owner : Nat) (blocks : List (EncodedBlock Cid)) (s : NativeInner Cid)
    (j : Journal SegmentHandle (Batch Cid)) (staged : List (RecordLocation Cid))
    (s' : NativeInner Cid) : Prop :=
  ∃ l j', Advances p config s j l s' j' ∧ (∀ entry ∈ l, entry.1.owner = owner) ∧
    (l.map Prod.snd).flatMap Batch.records = blocks.map .data ∧
    List.Forall₂ (Points j'.log) staged blocks ∧
    (∀ entry ∈ l, ∃ record ∈ staged, record.segment = entry.1) ∧
    ∀ record ∈ staged, ∃ entry ∈ l, entry.1 = record.segment

theorem writeChunks_ends (rounds : Nat) (h : Sound p config s j)
    (hcase : owner < 2 ^ 32 ∨ s.power = none) (hfil : ∀ block ∈ blocks, block.bytes ≠ [])
    (hrounds : blocks.length ≤ rounds) :
    (writeChunks p config owner rounds blocks).Ends s fun r s' =>
      match r with
      | .ok staged => Written p config owner blocks s j staged s'
      | .error e => Fails p config s j (Carries owner blocks) e s' := by
  -- A chunk takes at least one block, so a round for each block suffices.
  induction rounds generalizing s j blocks with
  | zero =>
    have hnil : blocks = [] := eq_nil_of_length_eq_zero (Nat.le_zero.mp hrounds)
    subst hnil
    exact ⟨[], j, Advances.refl h, forall_mem_nil _, rfl, List.Forall₂.nil, forall_mem_nil _,
      forall_mem_nil _⟩
  | succ rounds ih =>
    cases blocks with
    | nil =>
      exact ⟨[], j, Advances.refl h, forall_mem_nil _, rfl, List.Forall₂.nil, forall_mem_nil _,
        forall_mem_nil _⟩
    | cons first rest =>
      rw [writeChunks]
      cases hcount : chunkCount (maximumBatch config) recordHeaderBytes (first :: rest) with
      | zero =>
        -- The first block alone is too large for a batch.
        exact Fails.quiet (Advances.refl h) (by simp)
      | succ count =>
        have hchunk : ∀ block ∈ first :: rest.take count, block ∈ first :: rest :=
          ((take_sublist count rest).cons_cons first).subset
        have hsplit : first :: rest = (first :: rest.take count) ++ rest.drop count := by
          rw [cons_append, take_append_drop]
        refine Ends.call (writeChunk_ends h hcase (cons_ne_nil _ _)
          fun block hblock => hfil block (hchunk block hblock)) ?_ ?_
        · intro e s' hfails
          exact hfails.mono fun _ hfailed => hfailed.elim
        intro staged s1 hstaged
        rcases hstaged with ⟨handle, id, hown, hadv, hpoints, hseg, hsame⟩
        have hcarries : ∀ entry ∈ [(handle, (⟨id, (first :: rest.take count).map .data⟩ :
            Batch Cid))], Carries owner (first :: rest) entry := by
          refine forall_mem_singleton.mpr ⟨hown, fun record hrec => ?_⟩
          rcases mem_map.mp hrec with ⟨block, hblock, rfl⟩
          exact ⟨block, hchunk block hblock, rfl⟩
        have hlen : (rest.drop count).length ≤ rounds := by
          rw [length_cons] at hrounds
          rw [length_drop]
          omega
        have hrest : ∀ block ∈ rest.drop count, block.bytes ≠ [] := fun block hblock =>
          hfil block (mem_cons_of_mem _ (mem_of_mem_drop hblock))
        refine Ends.call (ih hadv.sound (hcase.imp_right hadv.power_none) hrest hlen) ?_ ?_
        · intro e s' hfails
          refine Fails.after hadv hcarries (hfails.mono fun entry hent => ?_)
          exact hent.mono fun _ hblock => mem_cons_of_mem _ (mem_of_mem_drop hblock)
        intro more s2 hmore
        rcases hmore with ⟨l, j', hadv', howners, hrecords, hpoints', hsegments, hentries⟩
        refine ⟨_, j', hadv.trans hadv', forall_mem_append.mpr
          ⟨forall_mem_singleton.mpr hown, howners⟩, ?_, ?_, forall_mem_append_exists
          (forall_mem_singleton.mpr hseg) hsegments, forall_mem_append_exists
          (fun record hrec => ⟨_, mem_cons_self, (hsame record hrec).symm⟩) hentries⟩
        · rw [map_append, flatMap_append, hrecords, hsplit, map_append, map_singleton,
            flatMap_singleton]
        · rw [hsplit]
          refine rel_append ?_ hpoints'
          exact hpoints.imp fun _ _ hpoint => hpoint.mono (hadv'.appends.log_le _)

/-- The blocks of an owner are written batch by batch. -/
theorem writeDataExclusive_ends (h : Sound p config s j) (hcase : owner < 2 ^ 32 ∨ s.power = none)
    (hfil : ∀ block ∈ blocks, block.bytes ≠ []) :
    (writeDataExclusive p config owner blocks).Ends s fun r s' =>
      match r with
      | .ok staged => Written p config owner blocks s j staged s'
      | .error e => Fails p config s j (Carries owner blocks) e s' :=
  writeChunks_ends blocks.length h hcase hfil le_rfl

/-! ## The barrier -/

theorem Syncs.refl (h : Sound p config s j) : Syncs p config s j (fun _ => false) s := by
  have hsame : j.sync (fun _ => false) = j := rfl
  exact ⟨by rw [hsame]; exact h, rfl, rfl, rfl, rfl, rfl, id⟩

theorem Syncs.trans {first second : SegmentHandle → Bool} (h : Syncs p config s j first s')
    (h' : Syncs p config s' (j.sync first) second s'') :
    Syncs p config s j (fun handle => first handle || second handle) s'' := by
  refine ⟨?_, h'.visible_eq.trans h.visible_eq, h'.index_eq.trans h.index_eq,
    h'.owners_eq.trans h.owners_eq, h'.writers_eq.trans h.writers_eq,
    h'.generation_eq.trans h.generation_eq, fun hpow => h'.power_none (h.power_none hpow)⟩
  rw [← Journal.sync_sync]
  exact h'.sound

/-- All staged records are durable after the barrier. -/
theorem durabilityBarrier_ends (h : Sound p config s j) (staged : List (RecordLocation Cid)) :
    (durabilityBarrier config staged).Ends s fun r s' =>
      match r with
      | .ok _ => ∃ which, Syncs p config s j which s' ∧
          ∀ record ∈ staged, which record.segment = true
      | .error e => ∃ which, Syncs p config s j which s' ∧ e = .powerLost ∧ s.power ≠ none := by
  unfold durabilityBarrier
  refine Ends.forM (fun devices s' => ∃ which, Syncs p config s j which s' ∧
    ∀ record ∈ staged, which record.segment = true ∨
      config.device record.segment.locationIndex ∈ devices) _ ?_ ?_ ?_
  · intro device rest s1 hinv
    rcases hinv with ⟨which, hsyncs, hcovers⟩
    refine onDisk_ends ?_ ?_
    · intro hpow
      exact ⟨which, hsyncs, rfl, fun hnone => hpow (hsyncs.power_none hnone)⟩
    · intro power hpow
      have hsound := hsyncs.sound
      refine ⟨_, hsyncs.trans (hsound.settle (hsound.syncFiles fun handle =>
        config.device handle.locationIndex = device) rfl rfl rfl rfl rfl hpow), ?_⟩
      intro record hrec
      rcases hcovers record hrec with hwhich | hdevice
      · left
        rw [hwhich, Bool.true_or]
      · rcases mem_cons.mp hdevice with heq | hrest
        · left
          rw [decide_eq_true heq, Bool.or_true]
        · exact Or.inr hrest
  · intro s1 hinv
    rcases hinv with ⟨which, hsyncs, hcovers⟩
    refine ⟨which, hsyncs, fun record hrec => ?_⟩
    exact (hcovers record hrec).resolve_right not_mem_nil
  · refine ⟨_, Syncs.refl h, fun record hrec => Or.inr ?_⟩
    exact mem_dedup.mpr (mem_map_of_mem hrec)

end Writing

end Native

end Pepper
