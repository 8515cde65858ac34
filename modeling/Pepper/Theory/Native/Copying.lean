import Pepper.Theory.Native.Calls

/-!
# Copying the Records of an Owner

The first half of compaction: the indexed records of an owner are read and
written again to new segments, some at a time.

Nothing is removed while records are copied, so a power loss at any point leaves
the old records and perhaps some of the copies. `Copying` is what each round
keeps. Segments from the start of the compaction on hold copies only, and what
the index finds there is durable: that is what the removal of the old segments
rests on.

## Main definitions

* `Survivors`, `Remains`: What a power loss leaves amounts to what is held.
* `Copying`: What each round of the copying keeps.

## Theorems

* `Holds.copy`, `Holds.sync`, `Holds.install`: Copies change nothing.
* `copyRounds_ends`: Every outcome of the copying.
-/

namespace Pepper

namespace Native

open Bytes Fallible List

section Copying

variable {Cid : Type} [Ord Cid] [Std.TransOrd Cid] [DecidableEq Cid] {p : Primitives Cid}
  {config : NativeConfig} {s s' : NativeInner Cid} {j j' : Journal SegmentHandle (Batch Cid)}
  {owners : Nat} {home : Cid → Nat} {held : Cid → Option (EncodedBlock Cid)}

/-! ## What a power loss leaves -/

/-- The segments of an owner that are found after a power loss. Of the old ones
    the youngest are found. -/
structure Survivors (disk : Disk SegmentHandle) (segments old found : List SegmentHandle) :
    Prop where
  sorted : found.Pairwise fun a b => compare a b = .lt
  sub : ∀ handle ∈ found, handle ∈ segments
  linked : ∀ handle ∈ segments,
    (∃ file : DiskFile, disk[handle]? = some file ∧ file.entry = .linked) → handle ∈ found
  oldest : ∀ handle ∈ found, ∀ younger ∈ segments, younger ∈ old →
    compare handle younger = .lt → younger ∈ found

variable (p config) in
/-- Whatever is found on the disk amounts to the blocks that are held. -/
def Remains (home : Cid → Nat) (old : List SegmentHandle) (disk : Disk SegmentHandle)
    (held : Cid → Option (EncodedBlock Cid)) : Prop :=
  ∃ j segments, Wreck p config disk j segments ∧
    (∀ seg, ∀ batch ∈ j.log seg, ∀ update ∈ batch.updates, home update.1 = seg.owner) ∧
    ∀ owner found, Survivors disk (segments owner) old found →
      Withstands Batch.updates j found { cid | home cid = owner } held

omit [Ord Cid] [Std.TransOrd Cid] in
/-- While all segments are there, all of them are found. -/
theorem remains_of_linked {disk : Disk SegmentHandle} {segments : Nat → List SegmentHandle}
    (hwreck : Wreck p config disk j segments) (hlinked : Linked disk segments)
    (hplaced : ∀ seg, ∀ batch ∈ j.log seg, ∀ update ∈ batch.updates, home update.1 = seg.owner)
    (hwithstands : ∀ owner, Withstands Batch.updates j (segments owner)
      { cid | home cid = owner } held) (old : List SegmentHandle) :
    Remains p config home old disk held := by
  refine ⟨j, segments, hwreck, hplaced, fun owner found hfound => ?_⟩
  have hsame : found = segments owner :=
    eq_of_sorted hfound.sorted (hwreck.sorted owner) fun seg =>
      ⟨hfound.sub seg, fun hmem => hfound.linked seg hmem (hlinked owner seg hmem)⟩
  rw [hsame]
  exact hwithstands owner

/-! ## Copies -/

variable {block : EncodedBlock Cid} {location : RecordLocation Cid}
  {blocks : List (EncodedBlock Cid)} {l : List (SegmentHandle × Batch Cid)} {owner : Nat}

/-- A block of the journal with its home. -/
theorem Holds.of_points (h : Holds p config owners home s j held)
    (hpoints : Points j.log location block) :
    home block.cid = location.segment.owner ∧ block.bytes ≠ [] ∧
      location.segment ∈ s.disk.visible := by
  rcases hpoints.mem with ⟨batch, hbat, hrec⟩
  have hplaced := h.placed _ batch hbat _ (mem_map_of_mem hrec)
  refine ⟨hplaced, (h.sound.fits _ batch hbat).filled _ hrec, ?_⟩
  by_contra hnot
  rw [h.sound.absent _ hnot] at hbat
  cases hbat

omit [Ord Cid] [Std.TransOrd Cid] [DecidableEq Cid] in
/-- The batches of a write hold nothing but its blocks. -/
theorem carries_of_written (hown : ∀ entry ∈ l, entry.1.owner = owner)
    (hrecords : (l.map Prod.snd).flatMap Batch.records = blocks.map .data) :
    ∀ entry ∈ l, Carries owner blocks entry := by
  intro entry hent
  refine ⟨hown entry hent, fun record hrec => ?_⟩
  have hmem : record ∈ (l.map Prod.snd).flatMap Batch.records :=
    mem_flatMap.mpr ⟨entry.2, mem_map_of_mem hent, hrec⟩
  rw [hrecords] at hmem
  rcases mem_map.mp hmem with ⟨block, hblock, rfl⟩
  exact ⟨block, hblock, rfl⟩

variable (home held) in
/-- A batch of copies. -/
def Copies (entry : SegmentHandle × Batch Cid) : Prop :=
  ∀ update ∈ entry.2.updates, update.2 = held update.1 ∧ home update.1 = entry.1.owner

omit [Ord Cid] [Std.TransOrd Cid] [DecidableEq Cid] in
theorem Carries.copies {entry : SegmentHandle × Batch Cid} (h : Carries owner blocks entry)
    (hblocks : ∀ block ∈ blocks, held block.cid = some block ∧ home block.cid = owner) :
    Copies home held entry := by
  intro update hupd
  rcases mem_map.mp hupd with ⟨record, hrec, rfl⟩
  rcases h.2 record hrec with ⟨block, hblock, rfl⟩
  rcases hblocks block hblock with ⟨hheld, hhome⟩
  exact ⟨hheld.symm, hhome.trans h.1.symm⟩

section

variable (h : Holds p config owners home s j held)

include h

theorem Holds.copy (hadv : Advances p config s j l s' j')
    (hcopies : ∀ entry ∈ l, Copies home held entry) : Holds p config owners home s' j' held := by
  refine ⟨hadv.sound, ?_, ?_, ?_, hadv.owners_eq.trans h.owners_eq, h.owners_pos⟩
  · intro seg batch hbat update hupd
    rcases hadv.appends.mem_log hbat with hold | hnew
    · exact h.placed seg batch hold update hupd
    · exact (hcopies (seg, batch) hnew update hupd).2
  · intro owner
    refine hadv.appends.withstands_copy (paths_sharded s.disk) (h.withstands owner) ?_
    intro entry hent _ update hupd _
    exact (hcopies entry hent update hupd).1
  · rw [hadv.index_eq]
    exact h.represents.mono fun _ location _ => hadv.appends.log_le location.segment

variable {which : SegmentHandle → Bool}

theorem Holds.sync (hsyncs : Syncs p config s j which s') :
    Holds p config owners home s' (j.sync which) held := by
  refine ⟨hsyncs.sound, h.placed, ?_, ?_, hsyncs.owners_eq.trans h.owners_eq, h.owners_pos⟩
  · intro owner
    rw [hsyncs.paths_eq]
    exact (h.withstands owner).sync which
  · rw [hsyncs.index_eq]
    exact h.represents

theorem Holds.remains (old : List SegmentHandle) : Remains p config home old s.disk held :=
  remains_of_linked h.sound.wreck h.sound.linked h.placed h.withstands old

/-- A power loss while copies are written. -/
theorem Holds.remains_of_fails {e : NativeError}
    (hfails : Fails p config s j (Copies home held) e s') (old : List SegmentHandle) :
    e ≠ .powerLost ∧ (∃ j', Holds p config owners home s' j' held) ∧
        (s.power = none → s'.power = none) ∨
      e = .powerLost ∧ s.power ≠ none ∧ Remains p config home old s'.disk held := by
  rcases hfails with ⟨l, j', hcopies, ⟨he, hadv⟩ | ⟨hpow, he, segments, hwreck, hlinked, happends⟩⟩
  · exact Or.inl ⟨he, ⟨j', h.copy hadv hcopies⟩, hadv.power_none⟩
  · refine Or.inr ⟨he, hpow, remains_of_linked hwreck hlinked ?_ ?_ old⟩
    · intro seg batch hbat update hupd
      rcases happends.mem_log hbat with hold | hnew
      · exact h.placed seg batch hold update hupd
      · exact (hcopies (seg, batch) hnew update hupd).2
    · intro owner
      refine happends.withstands_copy (paths_sharded s.disk) (h.withstands owner) ?_
      intro entry hent _ update hupd _
      exact (hcopies entry hent update hupd).1

end

section Index

variable [Std.LawfulEqOrd Cid] {staged records : List (RecordLocation Cid)}

/-- What a record of an index is after others have been entered. -/
theorem of_getElem?_install {index : Index Cid} {cid : Cid}
    (h : (staged.foldl (fun index record => index.insert record.cid record) index)[cid]? =
      some location) :
    location ∈ staged ∧ location.cid = cid ∨
      index[cid]? = some location ∧ ∀ record ∈ staged, record.cid ≠ cid := by
  induction staged generalizing index with
  | nil => exact Or.inr ⟨h, forall_mem_nil _⟩
  | cons record rest ih =>
    rw [foldl_cons] at h
    rcases ih h with ⟨hmem, hcid⟩ | ⟨hbef, hothers⟩
    · exact Or.inl ⟨mem_cons_of_mem _ hmem, hcid⟩
    · rw [getElem?_insert_eq] at hbef
      by_cases hcid : record.cid = cid
      · rw [if_pos hcid, Option.some.injEq] at hbef
        rw [← hbef]
        exact Or.inl ⟨mem_cons_self, hcid⟩
      · rw [if_neg hcid] at hbef
        refine Or.inr ⟨hbef, fun r hr => ?_⟩
        rcases mem_cons.mp hr with rfl | hr
        · exact hcid
        · exact hothers r hr

theorem Holds.install (h : Holds p config owners home s j held)
    (hpoints : List.Forall₂ (Points j.log) staged blocks)
    (hblocks : ∀ block ∈ blocks, held block.cid = some block) :
    Holds p config owners home { s with
      index := staged.foldl (fun index record => index.insert record.cid record) s.index }
      j held := by
  have hrepresents := represents_install h.represents hpoints
  have hsame : outcome held (blocks.map fun block => (Record.data block).update) = held := by
    funext cid
    refine outcome_of_forall_eq ?_ (Or.inl rfl)
    intro update hupd hcid
    rcases mem_map.mp hupd with ⟨block, hblock, rfl⟩
    rw [← hcid]
    exact (hblocks block hblock).symm
  rw [hsame] at hrepresents
  exact ⟨h.sound.of_eq rfl rfl le_rfl rfl, h.placed, h.withstands, hrepresents, h.owners_eq,
    h.owners_pos⟩

/-! ## Reading -/

omit [Std.TransOrd Cid] [DecidableEq Cid] [Std.LawfulEqOrd Cid] in
theorem Sound.visible_of_points (h : Sound p config s j) (hpoints : Points j.log location block) :
    location.segment ∈ s.disk.visible := by
  rcases hpoints.mem with ⟨batch, hbat, _⟩
  by_contra hnot
  rw [h.absent _ hnot] at hbat
  cases hbat

variable {log : SegmentHandle → List (Batch Cid)} {start : Nat}

omit [Ord Cid] [Std.TransOrd Cid] [DecidableEq Cid] [Std.LawfulEqOrd Cid] in
/-- A block is determined by its location and its bytes. -/
theorem Points.block_eq (h : Points log location block) :
    (⟨location.cid, UInt64.ofNat location.logicalSize, block.bytes⟩ : EncodedBlock Cid) =
      block := by
  rcases h with ⟨_, _, _, _, _, _, _, hloc⟩
  rw [hloc]
  show (⟨block.cid, UInt64.ofNat block.logicalSize.toNat, block.bytes⟩ : EncodedBlock Cid) = block
  rw [UInt64.ofNat_toNat]

omit [Std.TransOrd Cid] [DecidableEq Cid] [Std.LawfulEqOrd Cid] in
theorem readBlocks_eq (h : Sound p config s j)
    (hpoints : List.Forall₂ (Points j.log) records blocks) :
    readBlocks records s = (.ok blocks, s) := by
  induction hpoints with
  | nil => rfl
  | cons hpoint _ ih =>
    have hread := readRecord_of_stores hpoint (h.mem_visible.mp (h.visible_of_points hpoint))
      stores_image
    rw [readBlocks]
    simp only [Bind.bind, hread, ih, Pure.pure, hpoint.block_eq]

omit [Std.LawfulEqOrd Cid] [Std.TransOrd Cid] [DecidableEq Cid] [Ord Cid] in
theorem exists_forall₂ {P : EncodedBlock Cid → Prop}
    (h : ∀ record ∈ records, ∃ block, Points log record block ∧ P block) :
    ∃ blocks, List.Forall₂ (Points log) records blocks ∧ ∀ block ∈ blocks, P block := by
  induction records with
  | nil => exact ⟨[], List.Forall₂.nil, forall_mem_nil _⟩
  | cons record rest ih =>
    rcases h record mem_cons_self with ⟨block, hpoints, hblock⟩
    rcases ih fun r hr => h r (mem_cons_of_mem _ hr) with ⟨blocks, hrest, hblocks⟩
    refine ⟨block :: blocks, hrest.cons hpoints, fun b hb => ?_⟩
    rcases mem_cons.mp hb with rfl | hb
    · exact hblock
    · exact hblocks b hb

/-! ## The rounds -/

variable (p config owners home) in
/-- What each round of the copying keeps. -/
structure Copying (owner start : Nat) (s : NativeInner Cid)
    (j : Journal SegmentHandle (Batch Cid)) (held : Cid → Option (EncodedBlock Cid))
    (rest : List (RecordLocation Cid)) : Prop where
  holds : Holds p config owners home s j held
  pending : ∀ (cid : Cid) (location : RecordLocation Cid), s.index[cid]? = some location →
    location.segment.owner = owner → start ≤ location.segment.generation ∨ location ∈ rest
  todo : ∀ location ∈ rest, location.segment.owner = owner ∧
    ∃ block, Points j.log location block ∧ held block.cid = some block
  writer : ∀ w, s.writers owner = some w → start ≤ w.handle.generation
  copies : ∀ handle, handle.owner = owner → start ≤ handle.generation →
    ∀ batch ∈ j.log handle, Copies home held (handle, batch)
  durable : ∀ (cid : Cid) (location : RecordLocation Cid), s.index[cid]? = some location →
    location.segment.owner = owner → start ≤ location.segment.generation →
    ∃ batch ∈ j.safe location.segment, ∃ update ∈ batch.updates, update.1 = cid
  started : start ≤ s.nextGeneration

/-- One round: some records are written again, made durable and indexed. -/
theorem Copying.round {chunk rest : List (RecordLocation Cid)} {s1 s2 : NativeInner Cid}
    {j1 : Journal SegmentHandle (Batch Cid)}
    (h : Copying p config owners home owner start s j held (chunk ++ rest))
    (hchunk : List.Forall₂ (Points j.log) chunk blocks)
    (hheld : ∀ block ∈ blocks, held block.cid = some block)
    (hadv : Advances p config s j l s1 j1) (hcopies : ∀ entry ∈ l, Copies home held entry)
    (hown : ∀ entry ∈ l, entry.1.owner = owner)
    (hpoints : List.Forall₂ (Points j1.log) staged blocks)
    (hentries : ∀ record ∈ staged, ∃ entry ∈ l, entry.1 = record.segment)
    (hsyncs : Syncs p config s1 j1 which s2)
    (hcovers : ∀ record ∈ staged, which record.segment = true) :
    Copying p config owners home owner start { s2 with
      index := staged.foldl (fun index record => index.insert record.cid record) s2.index }
      (j1.sync which) held rest := by
  have hidx : s2.index = s.index := hsyncs.index_eq.trans hadv.index_eq
  rcases hadv.fresh owner start h.started h.writer with ⟨hwriter, hnew⟩
  have hstaged : ∀ record ∈ staged, start ≤ record.segment.generation := by
    intro record hrec
    rcases hentries record hrec with ⟨entry, hent, hsame⟩
    rw [← hsame]
    exact hnew entry hent (hown entry hent)
  constructor
  case holds => exact ((h.holds.copy hadv hcopies).sync hsyncs).install hpoints hheld
  case pending =>
    -- An entry is one of this round, or it was there before and not replaced.
    intro cid location hloc hseg
    rcases of_getElem?_install hloc with ⟨hmem, _⟩ | ⟨hbef, hothers⟩
    · exact Or.inl (hstaged location hmem)
    · rw [hidx] at hbef
      refine (h.pending cid location hbef hseg).imp_right fun hmem => ?_
      rcases mem_append.mp hmem with hcopied | hrest
      · -- A record that was copied is no longer what the index has.
        rcases h.holds.represents.of_index hbef with ⟨b, _, hcid, hpoint⟩
        rcases exists_right_of_forall₂ hchunk hcopied with ⟨block, hblock, hsame⟩
        rcases exists_left_of_forall₂ hpoints hblock with ⟨record, hrec, hpoint'⟩
        refine absurd ?_ (hothers record hrec)
        rw [hpoint'.cid_eq, ← hsame.cid_eq, hpoint.cid_eq, hcid]
      · exact hrest
  case todo =>
    intro location hmem
    rcases h.todo location (mem_append_right _ hmem) with ⟨hseg, block, hpoint, hblock⟩
    exact ⟨hseg, block, hpoint.mono (hadv.appends.log_le _), hblock⟩
  case writer =>
    intro w hw
    exact hwriter w (hsyncs.writers_eq ▸ hw)
  case copies =>
    intro seg hhandle hgen batch hbat
    rcases hadv.appends.mem_log hbat with hold | hadded
    · exact h.copies seg hhandle hgen batch hold
    · exact hcopies (seg, batch) hadded
  case durable =>
    -- The new records lie in segments that the barrier has synced.
    intro cid location hloc hseg hgen
    rcases of_getElem?_install hloc with ⟨hmem, hcid⟩ | ⟨hbef, _⟩
    · rcases exists_right_of_forall₂ hpoints hmem with ⟨block, _, hpoint⟩
      rcases hpoint.mem with ⟨batch, hbat, hrec⟩
      refine ⟨batch, ?_, _, mem_map_of_mem hrec, ?_⟩
      · rw [Journal.safe_sync_of j1 (hcovers location hmem)]
        exact hbat
      · rw [← hcid, hpoint.cid_eq]
        rfl
    · rw [hidx] at hbef
      rcases h.durable cid location hbef hseg hgen with ⟨batch, hbat, hupd⟩
      refine ⟨batch, ?_, hupd⟩
      by_cases hwhich : which location.segment = true
      · rw [Journal.safe_sync_of j1 hwhich]
        exact (hadv.appends.log_le _).subset ((j.safe_le _).subset hbat)
      · rw [Journal.safe_sync_of_not j1 hwhich, hadv.appends.safe_eq]
        exact hbat
  case started =>
    show start ≤ s2.nextGeneration
    rw [hsyncs.generation_eq]
    exact le_trans h.started hadv.generation_le

variable (p config owners home) in
/-- The outcomes of the copying, and of compaction. -/
def Compacts (old : List SegmentHandle) (s : NativeInner Cid)
    (held : Cid → Option (EncodedBlock Cid)) (e : NativeError) (s' : NativeInner Cid) : Prop :=
  e ≠ .powerLost ∧ (∃ j', Holds p config owners home s' j' held) ∧
      (s.power = none → s'.power = none) ∨
    e = .powerLost ∧ s.power ≠ none ∧ Remains p config home old s'.disk held

/-- The records are copied, or the engine holds what it held. -/
theorem copyRounds_ends (rounds : Nat)
    (h : Copying p config owners home owner start s j held records)
    (hrounds : records.length ≤ rounds) (old : List SegmentHandle) :
    (copyRounds p config owner rounds records).Ends s fun r s' =>
      match r with
      | .ok _ => (∃ j', Copying p config owners home owner start s' j' held []) ∧
          (s.power = none → s'.power = none) ∧
          (∀ seg ∈ s.disk.visible, seg ∈ s'.disk.visible) ∧
          ∀ seg ∈ s'.disk.visible, seg ∈ s.disk.visible ∨ start ≤ seg.generation
      | .error e => Compacts p config owners home old s held e s' := by
  induction rounds generalizing s j records with
  | zero =>
    have hnil : records = [] := eq_nil_of_length_eq_zero (Nat.le_zero.mp hrounds)
    subst hnil
    exact ⟨⟨j, h⟩, id, fun _ hmem => hmem, fun _ hmem => Or.inl hmem⟩
  | succ rounds ih =>
    cases records with
    | nil => exact ⟨⟨j, h⟩, id, fun _ hmem => hmem, fun _ hmem => Or.inl hmem⟩
    | cons first rest =>
      rw [copyRounds]
      generalize roundCount first.storedSize rest = count
      have hsplit : first :: rest = (first :: rest.take count) ++ rest.drop count := by
        rw [cons_append, take_append_drop]
      rw [hsplit] at h
      rcases exists_forall₂ fun record hrec =>
        (h.todo record (mem_append_left _ hrec)).2 with ⟨blocks, hchunk, hheld⟩
      have hblocks : ∀ block ∈ blocks, held block.cid = some block ∧ home block.cid = owner := by
        intro block hblock
        rcases exists_left_of_forall₂ hchunk hblock with ⟨record, hrec, hpoint⟩
        have hhome := (h.holds.of_points hpoint).1
        exact ⟨hheld block hblock, hhome.trans (h.todo record (mem_append_left _ hrec)).1⟩
      have hfil : ∀ block ∈ blocks, block.bytes ≠ [] := by
        intro block hblock
        rcases exists_left_of_forall₂ hchunk hblock with ⟨record, _, hpoint⟩
        exact (h.holds.of_points hpoint).2.1
      -- An owner with records has a segment, so its number fits the header.
      have hu32 : owner < 2 ^ 32 := by
        rcases h.todo first (mem_append_left _ mem_cons_self) with
          ⟨hseg, block, hpoint, _⟩
        rw [← hseg]
        exact h.holds.sound.owner_lt (h.holds.sound.visible_of_points hpoint)
      refine Ends.bind_of_eq (readBlocks_eq h.holds.sound hchunk) ?_
      refine Ends.call (writeDataExclusive_ends h.holds.sound (Or.inl hu32) hfil) ?_ ?_
      · intro e s1 hfails
        exact h.holds.remains_of_fails (hfails.mono fun _ hcarries => hcarries.copies hblocks) old
      intro staged s1 hwritten
      rcases hwritten with ⟨l, j1, hadv, hown, hrecords, hpoints, _, hentries⟩
      have hcopies : ∀ entry ∈ l, Copies home held entry := fun entry hent =>
        (carries_of_written hown hrecords entry hent).copies hblocks
      have hcopied := h.holds.copy hadv hcopies
      refine Ends.call (durabilityBarrier_ends hadv.sound staged) ?_ ?_
      · intro e s2 hfails
        rcases hfails with ⟨which, hsyncs, rfl, hpow⟩
        exact Or.inr ⟨rfl, fun hnone => hpow (hadv.power_none hnone),
          (hcopied.sync hsyncs).remains old⟩
      intro _ s2 hsynced
      rcases hsynced with ⟨which, hsyncs, hcovers⟩
      have hlen : (rest.drop count).length ≤ rounds := by
        rw [length_cons] at hrounds
        rw [length_drop]
        omega
      have hnone : s.power = none → s2.power = none := fun hnone =>
        hsyncs.power_none (hadv.power_none hnone)
      refine Ends.modify_bind ((ih (h.round hchunk hheld hadv hcopies hown hpoints hentries
        hsyncs hcovers) hlen).mono ?_)
      intro r s3 hr
      cases r with
      | ok _ =>
        rcases hr with ⟨hdone, hpow, hkept, hnewer⟩
        refine ⟨hdone, fun hn => hpow (hnone hn), fun seg hmem => ?_, fun seg hmem => ?_⟩
        · refine hkept seg ?_
          show seg ∈ s2.disk.visible
          rw [hsyncs.visible_eq]
          exact (mem_paths.mp (hadv.appends.segments_subset _ _ (mem_paths.mpr ⟨hmem, rfl⟩))).1
        · rcases hnewer seg hmem with hold | hnew
          · have hold' : seg ∈ s2.disk.visible := hold
            rw [hsyncs.visible_eq] at hold'
            exact (hadv.newer seg hold').imp_right fun hge =>
              le_trans h.started hge
          · exact Or.inr hnew
      | error e =>
        rcases hr with ⟨he, hholds, hpow⟩ | ⟨he, hpow, hremains⟩
        · exact Or.inl ⟨he, hholds, fun hn => hpow (hnone hn)⟩
        · exact Or.inr ⟨he, fun hn => hpow (hnone hn), hremains⟩

end Index

end Copying

end Native

end Pepper
