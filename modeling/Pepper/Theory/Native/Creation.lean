import Pepper.Theory.Native.Segments

/-!
# Making Segments

A writer that has no room for a batch starts a new segment: it makes the file,
gives it its length, writes the header and syncs the directory.

The power can be lost after each of these steps. Up to the last one the file is
only a `Draft`: it may be found after a restart, but there is nothing behind its
header, so it adds nothing to what is held.

## Main definitions

* `Placed`: A disk on which one file differs.
* `Draft`: A file that is being made.
* `Grows`: A disk with one more segment.

## Theorems

* `createSegment_cases`: Every way in which making a segment ends.
* `createSegment_ends`: A segment is made, or the engine is as before.
* `ensureWriter_ends`: A writer with room is found or made.
-/

namespace Pepper

namespace Native

open Bytes Fallible List

section Creation

variable {Cid : Type} [Ord Cid] {p : Primitives Cid} {config : NativeConfig}
  {s s' : NativeInner Cid} {j : Journal SegmentHandle (Batch Cid)}

/-- Only one file differs, and it is given. -/
structure Placed (disk : Disk SegmentHandle) (new : SegmentHandle) (file : DiskFile)
    (disk' : Disk SegmentHandle) : Prop where
  others : ∀ handle, new ≠ handle → disk'[handle]? = disk[handle]?
  made : disk'[new]? = some file

namespace Placed

variable {disk disk' : Disk SegmentHandle} {new : SegmentHandle} {file : DiskFile}

theorem create : Placed disk new ⟨[], [], .created⟩ (disk.create new) where
  others seg hne := by rw [Disk.getElem?_create, if_neg hne]
  made := by rw [Disk.getElem?_create, if_pos rfl]

theorem modify (h : Placed disk new file disk') (change : DiskFile → DiskFile) :
    Placed disk new (change file) (disk'.modify new change) where
  others seg hne := by
    rw [getElem?_modify_eq, if_neg hne]
    exact h.others seg hne
  made := by rw [getElem?_modify_eq, if_pos rfl, h.made, Option.map_some]

/-- What is said of the file as it is said of all files. -/
theorem of_getElem? (h : Placed disk new file disk') {other : DiskFile}
    (hother : disk'[new]? = some other) : other = file := by
  rw [h.made, Option.some.injEq] at hother
  exact hother.symm

/-- What holds of the new file and of all files there were holds of all files. -/
theorem forall_files {P : SegmentHandle → DiskFile → Prop} (h : Placed disk new file disk')
    (hnew : P new file) (hold : ∀ seg other, disk[seg]? = some other → P seg other)
    (seg : SegmentHandle) (other : DiskFile) (hfile : disk'[seg]? = some other) : P seg other := by
  by_cases hne : new = seg
  · rw [← hne] at hfile ⊢
    rw [h.of_getElem? hfile]
    exact hnew
  · exact hold seg other ((h.others seg hne).symm.trans hfile)

theorem mem_iff (h : Placed disk new file disk') {seg : SegmentHandle} (hne : new ≠ seg) :
    seg ∈ disk' ↔ seg ∈ disk := by
  rw [Std.ExtTreeMap.mem_iff_isSome_getElem?, Std.ExtTreeMap.mem_iff_isSome_getElem?,
    h.others seg hne]

end Placed

omit [Ord Cid] in
theorem image_nil (new : SegmentHandle) : image p config new [] =
    patch (zeros config.segmentBytes) 0
      (segmentHeaderBlock p new.owner new.generation new.segmentId) := by
  have hpatch : patch ([] ++ zeros config.segmentBytes) ([] : Bytes).length
      (segmentHeaderBlock p new.owner new.generation new.segmentId) = _ := patch_zeros
  rw [nil_append, length_nil, length_segmentHeaderBlock, nil_append] at hpatch
  rw [hpatch, image, encodeAll, map_nil, flatten_nil, nil_append, batchesSize,
    map_nil, sum_nil, Nat.add_zero, segmentHeaderBytes_eq]

variable (p config) in
/-- A segment at each stage of its making. -/
inductive Draft (new : SegmentHandle) : DiskFile → Prop
  | empty : Draft new ⟨[], [], .created⟩
  | sized : Draft new ⟨zeros config.segmentBytes, [], .created⟩
  | written : Draft new ⟨image p config new [], [], .created⟩
  | synced : Draft new ⟨image p config new [], image p config new [], .created⟩

variable {new : SegmentHandle} {owner : Nat} {disk : Disk SegmentHandle}
  {file : DiskFile} {power : Option Nat}

omit [Ord Cid] in
/-- There is nothing behind the header. -/
theorem Draft.blank (h : Draft p config new file) : Blank file := by
  have himage : ∀ i, segmentHeaderBytes ≤ i → (image p config new []).getD i 0 = 0 := by
    intro i hi
    rw [image, getD_append_right _ _ _ _ (by rw [length_segmentHeaderBlock]; exact hi),
      encodeAll, map_nil, flatten_nil, nil_append]
    exact getD_zeros _ _
  intro i hi
  cases h with
  | empty => exact ⟨rfl, rfl⟩
  | sized => exact ⟨getD_zeros _ i, rfl⟩
  | written => exact ⟨himage i hi, rfl⟩
  | synced => exact ⟨himage i hi, himage i hi⟩

/-- The segment that is made next at a location. -/
def nextHandle (s : NativeInner Cid) (owner locationIndex : Nat) : SegmentHandle :=
  ⟨s.nextGeneration, s.nextSegmentId, locationIndex, owner⟩

/-- The engine when no segment has been made. Its numbers are used up. -/
def unmade (s : NativeInner Cid) (disk : Disk SegmentHandle) (power : Option Nat) :
    NativeInner Cid :=
  { s with
    nextGeneration := s.nextGeneration + 1
    nextSegmentId := s.nextSegmentId + 1
    disk := disk
    power := power }

variable (config) in
/-- The room for a segment is taken before it is made. -/
def reserved (s : NativeInner Cid) (locationIndex : Nat) (disk : Disk SegmentHandle)
    (power : Option Nat) : NativeInner Cid :=
  { unmade s disk power with
    allocated := Function.update s.allocated locationIndex
      (s.allocated locationIndex + config.segmentBytes) }

variable (config) in
/-- The engine when a segment has been made. -/
def grown (s : NativeInner Cid) (new : SegmentHandle) (disk : Disk SegmentHandle)
    (power : Option Nat) : NativeInner Cid :=
  { unmade s (disk.syncEntries fun seg =>
      seg.locationIndex = new.locationIndex ∧ seg.owner = new.owner) power with
    allocated := Function.update s.allocated new.locationIndex
      (s.allocated new.locationIndex + config.segmentBytes)
    writers := Function.update s.writers new.owner (some ⟨new, segmentHeaderBytes⟩) }

theorem grown_writers (new : SegmentHandle) (disk : Disk SegmentHandle) (power : Option Nat) :
    (grown config s new disk power).writers =
      Function.update s.writers new.owner (some ⟨new, segmentHeaderBytes⟩) :=
  rfl

/-- The room that was reserved is given back. -/
theorem update_release (allocated : Nat → Nat) (locationIndex n : Nat) :
    Function.update (Function.update allocated locationIndex (allocated locationIndex + n))
      locationIndex (Function.update allocated locationIndex (allocated locationIndex + n)
        locationIndex - n) = allocated := by
  rw [Function.update_idem, Function.update_self, Nat.add_sub_cancel, Function.update_eq_self]

/-- Every way in which making a segment ends. Once the power is gone the file can
    not be removed any more. -/
theorem createSegment_cases {Q : Except NativeError SegmentWriter → NativeInner Cid → Prop}
    (hfull : reserveSegmentLocation config s.allocated owner s.nextGeneration = none →
      Q (.error (.capacityExceeded config.segmentBytes)) (unmade s s.disk s.power))
    (hoff : s.power = some 0 → Q (.error .powerLost) (unmade s s.disk s.power))
    (hlost : ∀ (locationIndex : Nat) (disk : Disk SegmentHandle) (file : DiskFile)
      (e : NativeError),
      hasRoom config s.allocated locationIndex = true → s.power ≠ some 0 → s.power ≠ none →
      e = .powerLost ∨ 2 ^ 32 ≤ owner →
      Draft p config (nextHandle s owner locationIndex) file →
      Placed s.disk (nextHandle s owner locationIndex) file disk →
      Q (.error e) (unmade s disk (some 0)))
    (hlarge : ∀ (locationIndex : Nat) (disk : Disk SegmentHandle) (power : Option Nat),
      hasRoom config s.allocated locationIndex = true → s.power ≠ some 0 →
      (s.power = none → power = none) → 2 ^ 32 ≤ owner →
      Placed s.disk (nextHandle s owner locationIndex)
        ⟨zeros config.segmentBytes, [], .unlinked⟩ disk →
      Q (.error .ownerExceedsU32) (unmade s disk power))
    (hdone : ∀ (locationIndex : Nat) (disk : Disk SegmentHandle) (power : Option Nat),
      hasRoom config s.allocated locationIndex = true → s.power ≠ some 0 →
      (s.power = none → power = none) → owner < 2 ^ 32 →
      Placed s.disk (nextHandle s owner locationIndex)
        ⟨image p config (nextHandle s owner locationIndex) [],
          image p config (nextHandle s owner locationIndex) [], .created⟩ disk →
      Q (.ok ⟨nextHandle s owner locationIndex, segmentHeaderBytes⟩)
        (grown config s (nextHandle s owner locationIndex) disk power)) :
    (createSegment p config owner).Ends s Q := by
  unfold createSegment
  refine takeGeneration_ends (takeSegmentId_ends (Ends.get_bind (Ends.expect_bind hfull ?_)))
  intro locationIndex hreserve
  have hroom : hasRoom config s.allocated locationIndex = true := find?_some hreserve
  generalize hnew :
    (⟨s.nextGeneration, s.nextSegmentId, locationIndex, owner⟩ : SegmentHandle) = new
  replace hnew : nextHandle s owner locationIndex = new := hnew
  have hown : new.owner = owner := by rw [← hnew, nextHandle]
  specialize hlost locationIndex
  specialize hlarge locationIndex
  specialize hdone locationIndex
  rw [hnew] at hlost hlarge hdone
  refine Ends.modify_bind ?_
  -- However it fails, the room is given back.
  have hfail : ∀ {disk : Disk SegmentHandle} {power : Option Nat} {e : NativeError},
      Q (.error e) (unmade s disk power) → Ends (do
        releaseSegment config locationIndex
        fail e : EngineM Cid SegmentWriter) (reserved config s locationIndex disk power) Q := by
    intro disk power e h
    refine Ends.modify_bind (Ends.fail ?_)
    dsimp only [reserved]
    rw [update_release]
    exact h
  have hgone : ∀ {disk : Disk SegmentHandle} {file : DiskFile} {power : Option Nat},
      s.power ≠ some 0 → (s.power = none → power = none) → power = some 0 →
      Draft p config new file → Placed s.disk new file disk →
      Q (.error .powerLost) (unmade s disk power) := by
    intro disk file power hon hnone hpow hdraft hplaced
    subst hpow
    exact hlost disk file _ hroom hon (fun h => nomatch hnone h) (Or.inl rfl) hdraft hplaced
  refine Ends.bind (Ends.attempt ?_)
  unfold createSegmentFile
  refine Ends.bind (onDisk_cases (fun hpow => hfail (hoff hpow)) fun power1 hon hnone1 => ?_)
  have hempty : Placed s.disk new ⟨[], [], .created⟩ (s.disk.create new) := .create
  refine onDisk_cases (fun hpow => hfail (hgone hon hnone1 hpow .empty hempty))
    fun power2 _ hnone2 => ?_
  have hsized : Placed s.disk new ⟨zeros config.segmentBytes, [], .created⟩
    ((s.disk.create new).allocate new config.segmentBytes) :=
    hempty.modify fun file => { file with bytes := zeros config.segmentBytes }
  replace hnone2 : s.power = none → power2 = none := fun h => hnone2 (hnone1 h)
  refine Ends.bind (Ends.attempt ?_)
  unfold initializeSegment
  by_cases hu32 : new.owner < 2 ^ 32
  · rw [segmentHeader_eq p hu32]
    refine Ends.ofExcept_bind (fun e he => nomatch he) fun header hok => ?_
    cases hok
    have himage : image p config new [] = _ := image_nil new
    -- Without power the attempt to remove the file does nothing.
    have hstay : ∀ {disk : Disk SegmentHandle} {power : Option Nat}, power = some 0 →
        Q (.error .powerLost) (unmade s disk power) → Ends (do
          let _ ← attempt (onDisk fun disk => disk.unlink new)
          releaseSegment config locationIndex
          fail .powerLost : EngineM Cid SegmentWriter)
            (reserved config s locationIndex disk power) Q := by
      intro disk power hpow h
      exact Ends.bind (Ends.attempt (onDisk_cases (fun _ => hfail h) fun _ hon _ =>
        absurd hpow hon))
    unfold writeAligned
    refine Ends.bind (Ends.bind (onDisk_cases (fun hpow => hstay hpow
      (hgone hon hnone2 hpow .sized hsized)) fun power3 _ hnone3 => ?_))
    have hwritten := hsized.modify fun file => file.write 0
      (segmentHeaderBlock p new.owner new.generation new.segmentId)
    rw [DiskFile.write, ← himage] at hwritten
    replace hnone3 : s.power = none → power3 = none := fun h => hnone3 (hnone2 h)
    refine onDisk_cases (fun hpow => hstay hpow
      (hgone hon hnone3 hpow .written hwritten)) fun power4 _ hnone4 => ?_
    have hsynced := hwritten.modify DiskFile.sync
    replace hnone4 : s.power = none → power4 = none := fun h => hnone4 (hnone3 h)
    refine onDisk_cases (fun hpow => hstay hpow
      (hgone hon hnone4 hpow .synced hsynced)) fun power5 _ hnone5 => ?_
    refine Ends.modify_bind (Ends.pure ?_)
    have hmade := hdone _ power5 hroom hon (fun h => hnone5 (hnone4 h)) (hown ▸ hu32) hsynced
    rw [grown, hown, ← hnew] at hmade
    rw [← hnew]
    exact hmade
  · -- The header has no room for the owner's number.
    have herr : segmentHeader p new.owner new.generation new.segmentId =
        .error .ownerExceedsU32 := if_pos (Nat.not_lt.mp hu32)
    rw [herr]
    refine Ends.ofExcept_bind (fun e he => ?_) fun header hok => nomatch hok
    cases he
    rw [hown, Nat.not_lt] at hu32
    refine Ends.bind (Ends.attempt (onDisk_cases (fun hpow => hfail ?_) fun power3 _ hnone3 =>
      hfail (hlarge _ power3 hroom hon (fun h => hnone3 (hnone2 h)) hu32
        (hsized.modify fun file => { file with entry := .unlinked }))))
    subst hpow
    exact hlost _ _ _ hroom hon (fun h => nomatch hnone2 h) (Or.inr hu32) .sized hsized

/-- A file that is being made may be found. -/
theorem Placed.wreck (hplaced : Placed s.disk new file disk) (h : Sound p config s j)
    (hblank : Blank file) (hgen : s.nextGeneration ≤ new.generation)
    (hroom : Fitting config new.locationIndex (loaded s.disk new.locationIndex + 1)) :
    Wreck p config disk j (ownerSegmentPaths s.disk) ∧ Linked disk (ownerSegmentPaths s.disk) := by
  have hwreck := h.wreck
  have hnew := h.not_visible hgen
  refine ⟨⟨?_, hwreck.logged, hwreck.sorted, hwreck.sharded, h.fits,
    fitting_of_others hplaced.others hroom h.capacity⟩, ?_⟩
  · exact hplaced.forall_files (Or.inr ⟨h.absent new hnew, hblank⟩) hwreck.file
  · intro owner seg hhandle
    have hne : new ≠ seg := by
      intro heq
      rw [← heq] at hhandle
      exact hnew (mem_paths.mp hhandle).1
    rw [hplaced.others seg hne]
    exact h.linked owner seg hhandle

variable (p config) in
/-- A disk with one more segment. -/
structure Grows (disk : Disk SegmentHandle) (j : Journal SegmentHandle (Batch Cid))
    (new : SegmentHandle) (disk' : Disk SegmentHandle) : Prop where
  made : disk'[new]? = some (segmentFile p config j new)
  old : ∀ handle ∈ disk.visible, disk'[handle]? = some (segmentFile p config j handle)
  rest : ∀ (handle : SegmentHandle) (file : DiskFile), new ≠ handle → disk'[handle]? = some file →
    disk[handle]? = some file

theorem Sound.grows (h : Sound p config s j) (hgen : s.nextGeneration ≤ new.generation)
    (hplaced : Placed s.disk new ⟨image p config new [], image p config new [], .created⟩ disk) :
    Grows p config s.disk j new (disk.syncEntries fun seg =>
      seg.locationIndex = new.locationIndex ∧ seg.owner = new.owner) where
  made := by
    have hlog := h.absent new (h.not_visible hgen)
    have hsafe := j.safe_le new
    rw [hlog, prefix_nil] at hsafe
    rw [Disk.syncEntries_linked (by decide) hplaced.made, segmentFile, hlog, hsafe]
    simp only [and_self, decide_true, if_true]
  old seg hmem := by
    have hne : new ≠ seg := by
      intro heq
      exact h.not_visible hgen (heq ▸ hmem)
    have hfile := h.mem_visible.mp hmem
    rw [← hplaced.others seg hne, segmentFile] at hfile
    rw [Disk.syncEntries_linked (by decide) hfile, segmentFile, ite_self]
  rest seg file hne hfile := by
    rcases Disk.of_syncEntries hfile with ⟨before, hbef, hent, rfl⟩
    rw [hplaced.others seg hne] at hbef
    rw [hbef]
    by_cases hwhich : decide (seg.locationIndex = new.locationIndex ∧ seg.owner = new.owner) = true
    · rw [if_pos hwhich]
      rcases h.file seg before hbef with ⟨_, rfl⟩ | ⟨_, hunl, _⟩
      · rfl
      · exact absurd hunl (hent hwhich)
    · rw [if_neg hwhich]

namespace Grows

variable {new : SegmentHandle} {disk : Disk SegmentHandle}

theorem mem_visible (hgrows : Grows p config s.disk j new disk) {seg : SegmentHandle} :
    seg ∈ disk.visible ↔ seg ∈ s.disk.visible ∨ seg = new := by
  rw [Disk.mem_visible]
  constructor
  · intro hvis
    rcases hvis with ⟨file, hfile, hent⟩
    by_cases hne : new = seg
    · exact Or.inr hne.symm
    · exact Or.inl (Disk.mem_visible.mpr ⟨file, hgrows.rest seg file hne hfile, hent⟩)
  · intro hmem
    rcases hmem with hold | rfl
    · exact ⟨_, hgrows.old seg hold, segmentFile_entry_ne p config j seg⟩
    · exact ⟨_, hgrows.made, segmentFile_entry_ne p config j seg⟩

theorem loaded_eq (hgrows : Grows p config s.disk j new disk) (h : Sound p config s j)
    (hgen : s.nextGeneration ≤ new.generation) (hown : new.owner < 2 ^ 32)
    (locationIndex : Nat) :
    loaded disk locationIndex =
      loaded s.disk locationIndex + if new.locationIndex = locationIndex then 1 else 0 := by
  refine loaded_grow ?_ ?_ hown locationIndex
  · intro seg hhandle
    rw [h.mem_iff hhandle, ← hgrows.mem_visible]
    constructor
    · intro hmem
      rcases mem_iff_exists.mp hmem with ⟨file, hfile⟩
      by_cases hne : new = seg
      · exact (hgrows.mem_visible).mpr (Or.inr hne.symm)
      · refine (hgrows.mem_visible).mpr (Or.inl ((h.mem_iff hhandle).mp ?_))
        rw [Std.ExtTreeMap.mem_iff_isSome_getElem?, hgrows.rest seg file hne hfile]
        rfl
    · intro hmem
      rcases Disk.mem_visible.mp hmem with ⟨file, hfile, _⟩
      exact mem_iff_exists.mpr ⟨_, hfile⟩
  · rw [h.mem_iff hown]
    exact h.not_visible hgen

end Grows

/-- The engine after it has made a segment. -/
theorem Sound.of_placed (h : Sound p config s j)
    (hplaced : Placed s.disk new ⟨image p config new [], image p config new [], .created⟩ disk)
    (hgen : new.generation = s.nextGeneration) (hown : new.owner < 2 ^ 32)
    (hsize : segmentHeaderBytes ≤ config.segmentBytes)
    (hroom : Fitting config new.locationIndex (loaded s.disk new.locationIndex + 1))
    (power : Option Nat) : Sound p config (grown config s new disk power) j := by
  have hle := le_of_eq hgen.symm
  have hgrows := h.grows hle hplaced
  have hlog := h.absent new (h.not_visible hle)
  have hmem : ∀ {seg : SegmentHandle}, seg ∈ (grown config s new disk power).disk.visible ↔
      seg ∈ s.disk.visible ∨ seg = new := hgrows.mem_visible
  have hloaded : ∀ l, loaded (grown config s new disk power).disk l =
      loaded s.disk l + if new.locationIndex = l then 1 else 0 := hgrows.loaded_eq h hle hown
  constructor
  case file =>
    intro seg file hfile
    by_cases hne : new = seg
    · rw [← hne] at hfile ⊢
      exact Or.inl ⟨hown, (Option.some.inj (hgrows.made.symm.trans hfile)).symm⟩
    · exact h.file seg file (hgrows.rest seg file hne hfile)
  case absent =>
    intro seg hhandle
    exact h.absent seg fun hold => hhandle (hmem.mpr (Or.inl hold))
  case room =>
    intro seg hhandle
    rcases hmem.mp hhandle with hold | rfl
    · exact h.room seg hold
    · rw [hlog, batchesSize, map_nil, sum_nil, Nat.add_zero]
      exact hsize
  case fits => exact h.fits
  case numbered =>
    intro seg hhandle
    show seg.generation < s.nextGeneration + 1
    rcases hmem.mp hhandle with hold | rfl
    · exact Nat.lt_succ_of_lt (h.numbered seg hold)
    · omega
  case writer =>
    -- The writer of the owner moves to the new segment; the others stay.
    intro owner w hw
    by_cases hown' : owner = new.owner
    · rw [hown', grown_writers, Function.update_self, Option.some.injEq] at hw
      subst hw
      refine ⟨hown'.symm, hmem.mpr (Or.inr rfl), ?_, ?_⟩
      · rw [hlog, batchesSize, map_nil, sum_nil, Nat.add_zero]
      · intro seg hhandle _ hne
        have hlt := h.numbered seg ((hmem.mp hhandle).resolve_right hne)
        exact SegmentHandle.compare_lt_of_generation (lt_of_lt_of_le hlt hle)
    · rw [grown_writers, Function.update_of_ne hown'] at hw
      rcases h.writer owner w hw with ⟨hw', hvis, hoff, hnewest⟩
      refine ⟨hw', hmem.mpr (Or.inl hvis), hoff, ?_⟩
      intro seg hhandle hhandle' hne
      rcases hmem.mp hhandle with hold | rfl
      · exact hnewest seg hold hhandle' hne
      · exact absurd hhandle'.symm hown'
  case allocated =>
    intro locationIndex
    rw [hloaded]
    show Function.update s.allocated new.locationIndex _ locationIndex = _
    by_cases hloc : locationIndex = new.locationIndex
    · rw [hloc, Function.update_self, if_pos rfl, h.allocated, Nat.mul_add, Nat.mul_one]
    · rw [Function.update_of_ne hloc, if_neg fun heq => hloc heq.symm, h.allocated, Nat.add_zero]
  case capacity =>
    intro locationIndex
    rw [hloaded]
    by_cases hloc : new.locationIndex = locationIndex
    · rw [if_pos hloc, ← hloc]
      exact hroom
    · rw [if_neg hloc]
      exact h.capacity locationIndex

theorem Placed.advances
    (hplaced : Placed s.disk new ⟨image p config new [], image p config new [], .created⟩ disk)
    (h : Sound p config s j) (hgeneration : new.generation = s.nextGeneration)
    (hpow : s.power = none → power = none)
    (hsound : Sound p config (grown config s new disk power) j) :
    Advances p config s j [] (grown config s new disk power) j := by
  have hle := le_of_eq hgeneration.symm
  have hgrows := h.grows hle hplaced
  have hnew := h.not_visible hle
  refine ⟨hsound, ?_, rfl, rfl, hpow, Nat.le_succ _, ?_, ?_⟩
  · have hpaths : ownerSegmentPaths (grown config s new disk power).disk = _ :=
      paths_grow (fun _ => hgrows.mem_visible) fun seg hmem =>
        lt_of_lt_of_le (h.numbered seg hmem) hle
    rw [hpaths]
    exact Appends.refl.grow new (fun hmem => hnew (mem_paths.mp hmem).1) (h.absent new hnew)
  · intro seg hmem
    rcases (hgrows.mem_visible).mp hmem with hold | rfl
    · exact Or.inl hold
    · exact Or.inr hle
  · intro owner gen hgen hwriter
    refine ⟨fun w hw => ?_, forall_mem_nil _⟩
    by_cases hown : owner = new.owner
    · rw [hown, grown_writers, Function.update_self, Option.some.injEq] at hw
      subst hw
      exact le_trans hgen hle
    · rw [grown_writers, Function.update_of_ne hown] at hw
      exact hwriter w hw

/-- A file without a header is removed again. -/
theorem Placed.advances_removed {n : Nat}
    (hplaced : Placed s.disk new ⟨zeros n, [], .unlinked⟩ disk) (h : Sound p config s j)
    (hgen : s.nextGeneration ≤ new.generation) (hown : 2 ^ 32 ≤ new.owner)
    (hpow : s.power = none → power = none) :
    Advances p config s j [] (unmade s disk power) j := by
  have hnew := h.not_visible hgen
  have hmem : ∀ seg, seg ∈ (unmade s disk power).disk.visible ↔ seg ∈ s.disk.visible := by
    intro seg
    show seg ∈ disk.visible ↔ _
    by_cases hne : new = seg
    · rw [← hne]
      refine ⟨fun hvis => ?_, fun hvis => absurd hvis hnew⟩
      rcases Disk.mem_visible.mp hvis with ⟨file, hfile, hlinked⟩
      rw [hplaced.of_getElem? hfile] at hlinked
      exact absurd rfl hlinked
    · rw [Disk.mem_visible, Disk.mem_visible, hplaced.others seg hne]
  have hloaded : ∀ locationIndex, loaded disk locationIndex = loaded s.disk locationIndex := by
    refine loaded_congr fun seg hhandle => hplaced.mem_iff ?_
    intro heq
    rw [← heq] at hhandle
    omega
  have hvis := visible_congr hmem
  refine ⟨?_, ?_, rfl, rfl, hpow, Nat.le_succ _, fun seg hhandle => ?_, ?_⟩
  · constructor
    case file =>
      exact hplaced.forall_files (Or.inr ⟨hown, rfl, fun i _ => ⟨getD_zeros n i, rfl⟩⟩) h.file
    case absent => rw [hvis]; exact h.absent
    case room => rw [hvis]; exact h.room
    case fits => exact h.fits
    case numbered =>
      intro seg hhandle
      exact Nat.lt_succ_of_lt (h.numbered seg ((hmem seg).mp hhandle))
    case writer => rw [hvis]; exact h.writer
    case allocated => exact fun l => (h.allocated l).trans (by rw [← hloaded l]; rfl)
    case capacity => exact fun l => (hloaded l).symm ▸ h.capacity l
  · rw [paths_congr hmem]
    exact .refl
  · exact Or.inl ((hmem seg).mp hhandle)
  · intro owner gen _ hwriter
    exact ⟨hwriter, forall_mem_nil _⟩

/-- A segment is made, or the engine is as before. -/
theorem createSegment_ends (h : Sound p config s j)
    (hsize : segmentHeaderBytes ≤ config.segmentBytes) (hcase : owner < 2 ^ 32 ∨ s.power = none) :
    (createSegment p config owner).Ends s fun r s' =>
      match r with
      | .ok w => Advances p config s j [] s' j ∧ s'.writers owner = some w ∧
          w.offset = segmentHeaderBytes
      | .error e => Fails p config s j (fun _ => False) e s' := by
  have hfitting : ∀ {locationIndex}, hasRoom config s.allocated locationIndex = true →
      Fitting config locationIndex (loaded s.disk locationIndex + 1) :=
    fun {locationIndex} hroom => (hasRoom_iff (h.allocated locationIndex)).mp hroom
  refine createSegment_cases (fun _ => ?_) (fun hpow => ?_) ?_ ?_ ?_
  · exact Fails.quiet (Advances.of_eq h rfl rfl (Nat.le_succ _) rfl rfl rfl id) (by simp)
  · exact Fails.lost (by rw [hpow]; exact Option.some_ne_none _) h.wreck h.linked rfl
  · -- The power is lost while the file is being made.
    intro locationIndex disk file e hroom _ hpow he hdraft hplaced
    have hsmall := hcase.resolve_right hpow
    rcases he.resolve_right (by omega) with rfl
    rcases hplaced.wreck h hdraft.blank (le_refl _) (hfitting hroom) with ⟨hwreck, hlinked⟩
    exact Fails.lost hpow hwreck hlinked rfl
  · intro locationIndex disk power _ _ hpow hlarge hplaced
    exact Fails.quiet (hplaced.advances_removed h (le_refl _) hlarge hpow) (by simp)
  · intro locationIndex disk power hroom _ hpow hsmall hplaced
    have hsound := h.of_placed hplaced rfl hsmall hsize (hfitting hroom) power
    exact ⟨hplaced.advances h rfl hpow hsound, Function.update_self _ _ _, rfl⟩

/-- A writer with room is found or made. -/
theorem ensureWriter_ends (h : Sound p config s j) {required : Nat}
    (hcase : owner < 2 ^ 32 ∨ s.power = none) :
    (ensureWriter p config owner required).Ends s fun r s' =>
      match r with
      | .ok w => Advances p config s j [] s' j ∧ s'.writers owner = some w ∧
          w.offset + required ≤ config.segmentBytes
      | .error e => Fails p config s j (fun _ => False) e s' := by
  unfold ensureWriter
  refine Ends.require_bind ?_ ?_
  · intro _
    exact Fails.quiet (Advances.refl h) (by simp)
  intro hfits
  have hcreate : (createSegment p config owner).Ends s fun r s' =>
      match r with
      | .ok w => Advances p config s j [] s' j ∧ s'.writers owner = some w ∧
          w.offset + required ≤ config.segmentBytes
      | .error e => Fails p config s j (fun _ => False) e s' := by
    refine (createSegment_ends h (by omega) hcase).mono ?_
    intro r s' hr
    cases r with
    | ok w =>
      refine ⟨hr.1, hr.2.1, ?_⟩
      rw [hr.2.2]
      omega
    | error e => exact hr
  refine Ends.get_bind ?_
  cases hwriter : s.writers owner with
  | none => exact hcreate
  | some w =>
    by_cases hroom : w.offset + required ≤ config.segmentBytes
    · simp only [if_pos hroom]
      exact Ends.pure ⟨Advances.refl h, hwriter, hroom⟩
    · simp only [if_neg hroom]
      exact hcreate

end Creation

end Native

end Pepper
