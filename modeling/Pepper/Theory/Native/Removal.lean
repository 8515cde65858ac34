import Pepper.Theory.Native.Copying

/-!
# Removing the Old Segments

The second half of compaction: the segments that the records were copied from
are unlinked one by one, and then their directories are synced.

An old segment may hold the tombstone of a block whose data record is in a still
older one. If the older segment comes back after a power loss and the younger
one does not, the block is back. So the removal is safe only as far as the old
segments that are found again are the youngest ones; `Survivors` asks for that.

## Main definitions

* `Dropping`: Some segments are unlinked or gone.

## Theorems

* `dropSegments_ends`: Removing segments, with a power loss at any point.
* `withstands_found`: New segments and the youngest old ones amount to what is
  held.
* `compactOwner_ends`: Every outcome of a compaction.
-/

namespace Pepper

namespace Native

open Bytes Fallible List

section Dropping

variable {Cid : Type} [Ord Cid] {config : NativeConfig} {s t : NativeInner Cid} {owner : Nat}
  {done : List SegmentHandle}

/-! ## Unlinking -/

variable (config) in
/-- Some segments are unlinked or gone, and their room is given back. -/
structure Dropping (s : NativeInner Cid) (done : List SegmentHandle) (t : NativeInner Cid) :
    Prop where
  writers_eq : t.writers = s.writers
  generation_eq : t.nextGeneration = s.nextGeneration
  index_eq : t.index = s.index
  owners_eq : t.owners = s.owners
  power_none : s.power = none → t.power = none
  file : ∀ (handle : SegmentHandle) (file : DiskFile), t.disk[handle]? = some file →
    ∃ before : DiskFile, s.disk[handle]? = some before ∧ file.bytes = before.bytes ∧
      file.durable = before.durable ∧ (handle ∈ done → file.entry = .unlinked) ∧
      (handle ∉ done → (file.entry = .unlinked ↔ before.entry = .unlinked))
  kept : ∀ (handle : SegmentHandle) (bytes durable : Bytes), handle ∉ done →
    s.disk[handle]? = some ⟨bytes, durable, .linked⟩ →
    t.disk[handle]? = some ⟨bytes, durable, .linked⟩
  allocated : ∀ locationIndex, t.allocated locationIndex =
    s.allocated locationIndex - config.segmentBytes * countAt done locationIndex

namespace Dropping

theorem refl (s : NativeInner Cid) : Dropping config s [] s where
  writers_eq := rfl
  generation_eq := rfl
  index_eq := rfl
  owners_eq := rfl
  power_none := id
  file _ file hfile := ⟨file, hfile, rfl, rfl, fun hmem => absurd hmem not_mem_nil,
    fun _ => Iff.rfl⟩
  kept _ _ _ _ hfile := hfile
  allocated _ := rfl

section

variable (h : Dropping config s done t)

include h

theorem mem {seg : SegmentHandle} (hmem : seg ∈ t.disk) : seg ∈ s.disk := by
  rcases mem_iff_exists.mp hmem with ⟨file, hfile⟩
  rcases h.file seg file hfile with ⟨before, hbef, _⟩
  exact mem_iff_exists.mpr ⟨_, hbef⟩

/-- One more segment is removed. -/
theorem unlink (seg : SegmentHandle) {power : Option Nat} (hpow : t.power = none → power = none) :
    Dropping config s (done ++ [seg]) { t with
      disk := t.disk.unlink seg
      power := power
      allocated := Function.update t.allocated seg.locationIndex
        (t.allocated seg.locationIndex - config.segmentBytes) } where
  writers_eq := h.writers_eq
  generation_eq := h.generation_eq
  index_eq := h.index_eq
  owners_eq := h.owners_eq
  power_none hnone := hpow (h.power_none hnone)
  file key file hfile := by
    change (t.disk.unlink seg)[key]? = _ at hfile
    rw [Disk.getElem?_unlink] at hfile
    simp only [mem_append, mem_singleton]
    by_cases hkey : seg = key
    · rw [if_pos hkey, Option.map_eq_some_iff] at hfile
      rcases hfile with ⟨middle, hmiddle, rfl⟩
      rcases h.file key middle hmiddle with ⟨before, hbef, hbytes, hdur, _⟩
      exact ⟨before, hbef, hbytes, hdur, fun _ => rfl, fun hnot =>
        absurd (Or.inr hkey.symm) hnot⟩
    · rw [if_neg hkey] at hfile
      rcases h.file key file hfile with ⟨before, hbef, hbytes, hdur, hdone, hrest⟩
      refine ⟨before, hbef, hbytes, hdur, fun hmem => hdone ?_, fun hnot => hrest ?_⟩
      · exact hmem.resolve_right (Ne.symm hkey)
      · exact fun hmem => hnot (Or.inl hmem)
  kept key bytes durable hnot hfile := by
    rw [mem_append, mem_singleton, not_or] at hnot
    show (t.disk.unlink seg)[key]? = _
    rw [Disk.getElem?_unlink, if_neg (Ne.symm hnot.2)]
    exact h.kept key bytes durable hnot.1 hfile
  allocated loc := by
    rw [countAt_snoc]
    show Function.update t.allocated seg.locationIndex
      (t.allocated seg.locationIndex - config.segmentBytes) loc = _
    by_cases hloc : loc = seg.locationIndex
    · rw [hloc, Function.update_self, Function.update_self, h.allocated, Nat.mul_succ]
      omega
    · rw [Function.update_of_ne hloc, Function.update_of_ne hloc]
      exact h.allocated loc

/-- A removal becomes durable. -/
theorem sync (which : SegmentHandle → Bool) {power : Option Nat}
    (hpow : t.power = none → power = none) :
    Dropping config s done { t with disk := t.disk.syncEntries which, power := power } where
  writers_eq := h.writers_eq
  generation_eq := h.generation_eq
  index_eq := h.index_eq
  owners_eq := h.owners_eq
  power_none hnone := hpow (h.power_none hnone)
  file key file hfile := by
    rcases Disk.of_syncEntries hfile with ⟨middle, hmiddle, hent, rfl⟩
    rcases h.file key middle hmiddle with ⟨before, hbef, hbytes, hdur, hdone, hrest⟩
    by_cases hwhich : which key = true
    · rw [if_pos hwhich]
      have hlinked := hent hwhich
      refine ⟨before, hbef, hbytes, hdur, fun hmem => absurd (hdone hmem) hlinked, fun hnot => ?_⟩
      rw [← hrest hnot]
      exact ⟨fun heq => absurd heq (by simp), fun heq => absurd heq hlinked⟩
    · rw [if_neg hwhich]
      exact ⟨before, hbef, hbytes, hdur, hdone, hrest⟩
  kept key bytes durable hnot hfile := by
    rw [Disk.syncEntries_linked (by decide) (h.kept key bytes durable hnot hfile), ite_self]
  allocated := h.allocated

end

end Dropping

/-- The segments are unlinked one by one, and then the removals are made durable. -/
theorem dropSegments_ends {dropped : List SegmentHandle}
    {Q : Except NativeError Unit → NativeInner Cid → Prop}
    (hown : ∀ seg ∈ dropped, seg.owner = owner)
    (hlost : ∀ done t, (∀ seg ∈ done, seg ∈ dropped) → Dropping config s done t →
      t.power = some 0 → Q (.error .powerLost) t)
    (hdone : ∀ t, Dropping config s dropped t → (∀ seg ∈ dropped, seg ∉ t.disk) → Q (.ok ()) t) :
    Ends (do
      ForM.forM dropped (unlinkSegment config)
      ForM.forM (dropped.map (·.locationIndex)).dedup fun loc =>
        syncNativeDirectory loc owner : EngineM Cid Unit) s Q := by
  refine Ends.bind (Ends.forM (fun rest t => ∃ done, done ++ rest = dropped ∧
    Dropping config s done t) dropped ?_ ?_ ⟨[], rfl, Dropping.refl s⟩)
  · intro seg rest t hloop
    rcases hloop with ⟨done, rfl, hdrop⟩
    refine Ends.bind (onDisk_cases ?_ fun power _ hpow => ?_)
    · exact hlost done t (fun _ => mem_append_left _) hdrop
    · refine Ends.modify ⟨done ++ [seg], ?_, hdrop.unlink seg hpow⟩
      rw [append_assoc, singleton_append]
  intro s1 hloop
  rcases hloop with ⟨done, hall, hdrop⟩
  rw [append_nil] at hall
  subst hall
  -- Only in the directories that are still to come can removals come back.
  refine Ends.forM (fun rest t => Dropping config s done t ∧ ∀ seg ∈ done,
    seg.locationIndex ∉ rest → seg ∉ t.disk) _ ?_ ?_ ⟨hdrop, ?_⟩
  · intro loc rest t hloop
    rcases hloop with ⟨hdrop, hgone⟩
    refine onDisk_cases ?_ fun power _ hpow => ?_
    · exact hlost done t (fun _ => id) hdrop
    · refine ⟨hdrop.sync _ hpow, fun seg hin hnot hmem => ?_⟩
      have hmem' : seg ∈ t.disk := Disk.mem_of_syncEntries hmem
      by_cases hloc : seg.locationIndex = loc
      · rcases mem_iff_exists.mp hmem with ⟨file, hfile⟩
        rcases Disk.of_syncEntries hfile with ⟨before, hbef, hent, _⟩
        rcases hdrop.file seg before hbef with ⟨_, _, _, _, hremoved, _⟩
        exact hent (decide_eq_true ⟨hloc, hown seg hin⟩) (hremoved hin)
      · refine hgone seg hin (fun hcons => ?_) hmem'
        rcases mem_cons.mp hcons with heq | hrest
        · exact hloc heq
        · exact hnot hrest
  · intro t hloop
    exact hdone t hloop.1 fun seg hin => hloop.2 seg hin not_mem_nil
  · intro seg hin hnot
    exact absurd (mem_dedup.mpr (mem_map_of_mem hin)) hnot

end Dropping

section Removal

variable {Cid : Type} [Ord Cid] [Std.TransOrd Cid] [DecidableEq Cid]
  {p : Primitives Cid} {config : NativeConfig} {s s' : NativeInner Cid}
  {j : Journal SegmentHandle (Batch Cid)} {owners : Nat} {home : Cid → Nat}
  {held : Cid → Option (EncodedBlock Cid)} {owner start : Nat}

/-- Sorted segments are first old and then new ones. -/
theorem split_at_generation {l : List SegmentHandle} (h : l.Pairwise fun a b => compare a b = .lt)
    (start : Nat) :
    l = l.filter (·.generation < start) ++ l.filter (start ≤ ·.generation) := by
  refine eq_of_sorted h ?_ ?_
  · refine pairwise_append.mpr ⟨h.filter _, h.filter _, ?_⟩
    intro a ha b hb
    rw [mem_filter, decide_eq_true_eq] at ha hb
    exact SegmentHandle.compare_lt_of_generation (lt_of_lt_of_le ha.2 hb.2)
  · intro seg
    simp only [mem_append, mem_filter, decide_eq_true_eq, ← and_or_left, lt_or_ge, and_true]

/-- New segments and the youngest old ones amount to what is held. -/
theorem withstands_found (h : Copying p config owners home owner start s j held [])
    {found : List SegmentHandle} (hsorted : found.Pairwise fun a b => compare a b = .lt)
    (hsub : ∀ seg ∈ found, seg ∈ ownerSegmentPaths s.disk owner)
    (hnew : ∀ seg ∈ ownerSegmentPaths s.disk owner, start ≤ seg.generation → seg ∈ found)
    (hclosed : ∀ seg ∈ found, ∀ younger ∈ ownerSegmentPaths s.disk owner,
      younger.generation < start → compare seg younger = .lt → younger ∈ found) :
    Withstands Batch.updates j found { cid | home cid = owner } held := by
  intro kept hkept cid hcid
  have hfound := split_at_generation hsorted start
  have hpaths := split_at_generation (paths_sorted s.disk owner) start
  have hsame : (ownerSegmentPaths s.disk owner).filter (start ≤ ·.generation) =
      found.filter (start ≤ ·.generation) := by
    refine eq_of_sorted ((paths_sorted _ _).filter _) (hsorted.filter _) fun seg => ?_
    rw [mem_filter, mem_filter, decide_eq_true_eq]
    exact ⟨fun hmem => ⟨hnew seg hmem.1 hmem.2, hmem.2⟩, fun hmem => ⟨hsub seg hmem.1, hmem.2⟩⟩
  have hend : ∃ lost, (ownerSegmentPaths s.disk owner).filter (·.generation < start) =
      lost ++ found.filter (·.generation < start) := by
    refine suffix_of_closed ((paths_sorted _ _).filter _) (hsorted.filter _) ?_ ?_
    · intro seg hmem
      rw [mem_filter] at hmem ⊢
      exact ⟨hsub seg hmem.1, hmem.2⟩
    · intro seg hmem younger hyounger hlt
      rw [mem_filter] at hmem hyounger ⊢
      exact ⟨hclosed seg hmem.1 younger hyounger.1 (of_decide_eq_true hyounger.2) hlt, hyounger.2⟩
  rcases hend with ⟨lost, hend⟩
  rw [hsame, hend] at hpaths
  rw [hfound]
  generalize hold : found.filter (·.generation < start) = old at *
  generalize hrecent : found.filter (start ≤ ·.generation) = recent at *
  have hmem_recent : ∀ seg ∈ recent, seg.owner = owner ∧ start ≤ seg.generation := by
    intro seg hmem
    rw [← hrecent, mem_filter, decide_eq_true_eq] at hmem
    exact ⟨(mem_paths.mp (hsub seg hmem.1)).2, hmem.2⟩
  -- What is found in new segments are copies.
  have hcopies : ∀ update ∈ (joined recent kept).flatMap Batch.updates, update.2 = held update.1 :=
    by
    intro update hupd
    rcases mem_flatMap.mp hupd with ⟨batch, hbat, hupd⟩
    rcases mem_flatMap.mp hbat with ⟨seg, hhandle, hbat⟩
    rcases hmem_recent seg hhandle with ⟨hown, hgen⟩
    exact (h.copies seg hown hgen batch ((hkept seg).2.subset hbat) update hupd).1
  rw [joined_append, flatMap_append, outcome_append]
  by_cases hcopied : ∃ update ∈ (joined recent kept).flatMap Batch.updates, update.1 = cid
  · refine outcome_of_forall_eq ?_ (Or.inr hcopied)
    intro update hupd heq
    rw [hcopies update hupd, heq]
  · have hne : ∀ update ∈ (joined recent kept).flatMap Batch.updates, update.1 ≠ cid :=
      fun update hupd heq => hcopied ⟨update, hupd, heq⟩
    -- Everything that is held has been copied, durably.
    have hnone : held cid = none := by
      cases hheld : held cid with
      | none => rfl
      | some block =>
        rcases h.holds.represents.of_held hheld with ⟨location, hloc, hblock, hpoints⟩
        rcases h.holds.of_points hpoints with ⟨hhome, _, hvis⟩
        have hown : location.segment.owner = owner := by
          rw [← hhome, hblock]
          exact hcid
        have hgen := (h.pending cid location hloc hown).resolve_right not_mem_nil
        rcases h.durable cid location hloc hown hgen with
          ⟨batch, hbat, update, hupd, hkey⟩
        refine absurd hkey (hne update (mem_flatMap.mpr ⟨batch, ?_, hupd⟩))
        refine mem_flatMap.mpr ⟨location.segment, ?_, (hkept _).1.subset hbat⟩
        rw [← hrecent, mem_filter, decide_eq_true_eq]
        exact ⟨hnew _ (mem_paths.mpr ⟨hvis, hown⟩) hgen, hgen⟩
    have hall := h.holds.withstands owner kept hkept cid hcid
    rw [hpaths, joined_append, flatMap_append, outcome_append, outcome_of_forall_ne hne,
      joined_append, flatMap_append, hnone] at hall
    rw [outcome_of_forall_ne hne, hnone]
    exact outcome_suffix_none hall

/-! ## The old segments -/

variable {old done : List SegmentHandle}

section Copied

variable (h : Copying p config owners home owner start s j held [])
  (hold : ∀ handle, handle ∈ old ↔ handle ∈ ownerSegmentPaths s.disk owner ∧
    handle.generation < start)
  (hdrop : Dropping config s done s') (hsub : ∀ handle ∈ done, handle ∈ old)

include h hold hdrop hsub

/-- Nothing is lost with the old segments, as long as the youngest are found. -/
theorem Copying.survives {o : Nat} {found : List SegmentHandle}
    (hfound : Survivors s'.disk (ownerSegmentPaths s.disk o) old found) :
    Withstands Batch.updates j found { cid | home cid = o } held := by
  -- A segment that is not old is still linked.
  have hlinked : ∀ seg ∈ ownerSegmentPaths s.disk o, seg ∉ old → seg ∈ found := by
    intro seg hmem hnot
    refine hfound.linked seg hmem ⟨segmentFile p config j seg, ?_, rfl⟩
    exact hdrop.kept seg _ _ (fun hin => hnot (hsub seg hin))
      (h.holds.sound.mem_visible.mp (mem_paths.mp hmem).1)
  by_cases ho : o = owner
  · subst ho
    refine withstands_found h hfound.sorted hfound.sub ?_ ?_
    · intro seg hmem hgen
      refine hlinked seg hmem fun hin => ?_
      have hlt := ((hold seg).mp hin).2
      omega
    · intro seg hmem younger hyounger hgen hlt
      exact hfound.oldest seg hmem younger hyounger ((hold younger).mpr ⟨hyounger, hgen⟩) hlt
  · have hsame : found = ownerSegmentPaths s.disk o := by
      refine eq_of_sorted hfound.sorted (paths_sorted _ _) fun seg => ⟨hfound.sub seg, ?_⟩
      intro hmem
      refine hlinked seg hmem fun hin => ho ?_
      rw [← (mem_paths.mp hmem).2, (mem_paths.mp ((hold seg).mp hin).1).2]
    rw [hsame]
    exact h.holds.withstands o

/-- A power loss while old segments are removed. -/
theorem Copying.remains : Remains p config home old s'.disk held := by
  have hsound := h.holds.sound
  have hwreck := hsound.wreck
  refine ⟨j, ownerSegmentPaths s.disk, ⟨?_, hwreck.logged, hwreck.sorted, hwreck.sharded,
    hwreck.fits, ?_⟩, ?_, fun _ _ => h.survives hold hdrop hsub⟩
  · intro seg file hfile
    rcases hdrop.file seg file hfile with ⟨before, hbef, hbytes, hdur, _⟩
    rw [Blank, hbytes, hdur]
    exact hwreck.file seg before hbef
  · intro loc
    exact (hsound.capacity loc).mono (loaded_mono fun _ hmem _ => hdrop.mem hmem)
  · exact h.holds.placed

end Copied

/-- The segments that are left at a location. -/
theorem loaded_removed {disk disk' : Disk SegmentHandle} (hnodup : old.Nodup)
    (hold : ∀ seg ∈ old, seg ∈ disk ∧ seg.owner < 2 ^ 32)
    (hmem : ∀ seg : SegmentHandle, seg.owner < 2 ^ 32 →
      (seg ∈ disk' ↔ seg ∈ disk ∧ seg ∉ old)) (loc : Nat) :
    loaded disk' loc + countAt old loc = loaded disk loc := by
  have hgone : ∀ seg ∈ old, seg ∉ disk' := fun seg hin hin' =>
    ((hmem seg (hold seg hin).2).mp hin').2 hin
  rw [loaded_add_countAt hnodup hold hgone]
  refine tally_congr fun seg hown => ?_
  rw [Finset.mem_union, mem_keySet, mem_keySet, mem_toFinset, hmem seg hown]
  by_cases hin : seg ∈ old
  · exact iff_of_true (Or.inr hin) (hold seg hin).1
  · simp only [hin, not_false_eq_true, and_true, or_false]

/-- The engine without the old segments. -/
theorem Copying.removed (h : Copying p config owners home owner start s j held [])
    (hnodup : old.Nodup) (hold : ∀ seg, seg ∈ old ↔ seg ∈ ownerSegmentPaths s.disk owner ∧
      seg.generation < start) (hdrop : Dropping config s old s')
    (hgone : ∀ seg ∈ old, seg ∉ s'.disk) :
    Holds p config owners home s' (j.discard (· ∈ old)) held := by
  have hsound := h.holds.sound
  have hold_visible : ∀ seg ∈ old, seg ∈ s.disk.visible := fun seg hmem =>
    (mem_paths.mp ((hold seg).mp hmem).1).1
  have hkept : ∀ seg ∈ s.disk.visible, seg ∉ old →
      s'.disk[seg]? = some (segmentFile p config j seg) := fun seg hmem hnot =>
    hdrop.kept seg _ _ hnot (hsound.mem_visible.mp hmem)
  have hvis : ∀ seg, seg ∈ s'.disk.visible ↔ seg ∈ s.disk.visible ∧ seg ∉ old := by
    intro seg
    constructor
    · intro hmem
      rcases Disk.mem_visible.mp hmem with ⟨file, hfile, hent⟩
      have hnot : seg ∉ old := fun hin => hgone seg hin (mem_iff_exists.mpr ⟨file, hfile⟩)
      rcases hdrop.file seg file hfile with ⟨before, hbef, _, _, _, hrest⟩
      exact ⟨Disk.mem_visible.mpr ⟨before, hbef, fun heq => hent ((hrest hnot).mpr heq)⟩, hnot⟩
    · intro hmem
      exact Disk.mem_visible.mpr ⟨_, hkept seg hmem.1 hmem.2, by simp [segmentFile]⟩
  have hlog : ∀ seg, seg ∉ old → (j.discard (· ∈ old)).log seg = j.log seg ∧
      (j.discard (· ∈ old)).safe seg = j.safe seg := by
    intro seg hnot
    simp [Journal.discard, hnot]
  have hsub : ∀ seg, (j.discard (· ∈ old)).log seg ⊆ j.log seg := by
    intro seg
    by_cases hin : seg ∈ old
    · simp [Journal.discard, hin]
    · rw [(hlog seg hin).1]
      exact List.Subset.refl _
  have hmem : ∀ seg : SegmentHandle, seg.owner < 2 ^ 32 →
      (seg ∈ s'.disk ↔ seg ∈ s.disk ∧ seg ∉ old) := by
    intro seg hu32
    refine ⟨fun hin => ⟨hdrop.mem hin, fun hin' => hgone seg hin' hin⟩, fun hin => ?_⟩
    exact mem_iff_exists.mpr ⟨_, hkept seg ((hsound.mem_iff hu32).mp hin.1) hin.2⟩
  have hloaded := loaded_removed hnodup (fun seg hin => hsound.counted (hold_visible seg hin)) hmem
  constructor
  case sound =>
    constructor
    case file =>
      intro seg file hfile
      by_cases hin : seg ∈ s.disk.visible
      · by_cases hin' : seg ∈ old
        · exact absurd (mem_iff_exists.mpr ⟨file, hfile⟩) (hgone seg hin')
        · rw [hkept seg hin hin', Option.some.injEq] at hfile
          refine Or.inl ⟨hsound.owner_lt hin, ?_⟩
          rw [← hfile, segmentFile, segmentFile, (hlog seg hin').1, (hlog seg hin').2]
      · have hnot : seg ∉ old := fun hin' => hin (hold_visible seg hin')
        rcases hdrop.file seg file hfile with ⟨before, hbef, hbytes, hdur, _, hrest⟩
        rcases hsound.file seg before hbef with ⟨_, rfl⟩ | ⟨hu32, hent, hblank⟩
        · exact absurd (hsound.mem_visible.mpr hbef) hin
        · refine Or.inr ⟨hu32, (hrest hnot).mpr hent, fun i hi => ?_⟩
          rw [hbytes, hdur]
          exact hblank i hi
    case absent =>
      intro seg hnot
      rw [hvis, not_and, not_not] at hnot
      by_cases hin : seg ∈ old
      · simp [Journal.discard, hin]
      · rw [(hlog seg hin).1]
        exact hsound.absent seg fun hin' => hin (hnot hin')
    case room =>
      intro seg hin
      rcases (hvis seg).mp hin with ⟨hin, hnot⟩
      rw [(hlog seg hnot).1]
      exact hsound.room seg hin
    case fits =>
      intro seg batch hbat
      exact hsound.fits seg batch (hsub seg hbat)
    case numbered =>
      intro seg hin
      rw [hdrop.generation_eq]
      exact hsound.numbered seg ((hvis seg).mp hin).1
    case writer =>
      intro o w hw
      rw [hdrop.writers_eq] at hw
      rcases hsound.writer o w hw with ⟨hown, hin, hoff, hnewest⟩
      -- The writer of the owner that was compacted is in a new segment.
      have hnot : w.handle ∉ old := by
        intro hin'
        rcases (hold _).mp hin' with ⟨hpaths, hlt⟩
        rw [← hown, (mem_paths.mp hpaths).2] at hw
        have hge := h.writer w hw
        omega
      refine ⟨hown, (hvis _).mpr ⟨hin, hnot⟩, ?_, fun seg hin' => ?_⟩
      · rw [(hlog _ hnot).1]
        exact hoff
      · exact hnewest seg ((hvis seg).mp hin').1
    case allocated =>
      intro loc
      rw [hdrop.allocated, hsound.allocated, ← hloaded loc, Nat.mul_add]
      omega
    case capacity =>
      intro loc
      exact (hsound.capacity loc).mono (by rw [← hloaded loc]; omega)
  case placed =>
    intro seg batch hbat
    exact h.holds.placed seg batch (hsub seg hbat)
  case withstands =>
    intro o
    have hleft : ∀ seg ∈ ownerSegmentPaths s'.disk o, seg ∈ s.disk.visible ∧ seg ∉ old :=
      fun seg hin => (hvis seg).mp (mem_paths.mp hin).1
    refine (h.survives hold hdrop (fun _ => id) ⟨paths_sorted s'.disk o, ?_, ?_, ?_⟩).congr
      (fun seg hin => (hlog seg (hleft seg hin).2).1)
      fun seg hin => (hlog seg (hleft seg hin).2).2
    · intro seg hin
      exact mem_paths.mpr ⟨(hleft seg hin).1, (mem_paths.mp hin).2⟩
    · rintro seg hin ⟨file, hfile, hent⟩
      refine mem_paths.mpr ⟨Disk.mem_visible.mpr ⟨file, hfile, ?_⟩, (mem_paths.mp hin).2⟩
      rw [hent]
      decide
    · intro seg hin younger hyounger hin' hlt
      rcases hleft seg hin with ⟨hin, hnot⟩
      rcases (hold younger).mp hin' with ⟨hpaths, hgen⟩
      -- Only new segments are left, and none of them is older than an old one.
      have hge : start ≤ seg.generation := by
        by_contra hlt'
        refine hnot ((hold seg).mpr ⟨mem_paths.mpr ⟨hin, ?_⟩, Nat.lt_of_not_le hlt'⟩)
        rw [← (mem_paths.mp hpaths).2, (mem_paths.mp hyounger).2]
        exact (mem_paths.mp ‹seg ∈ ownerSegmentPaths s'.disk o›).2
      have hgt : compare younger seg = .lt :=
        SegmentHandle.compare_lt_of_generation (lt_of_lt_of_le hgen hge)
      rw [Std.OrientedCmp.gt_of_lt hgt] at hlt
      exact absurd hlt (by decide)
  case represents =>
    rw [hdrop.index_eq]
    refine h.holds.represents.mono fun cid location hloc => ?_
    have hnot : location.segment ∉ old := by
      intro hin
      rcases (hold _).mp hin with ⟨hpaths, hlt⟩
      have hge := (h.pending cid location hloc (mem_paths.mp hpaths).2).resolve_right not_mem_nil
      omega
    rw [(hlog _ hnot).1]
  case owners_eq => exact hdrop.owners_eq.trans h.holds.owners_eq
  case owners_pos => exact h.holds.owners_pos

/-- All old segments are removed, or the power is lost on the way. -/
theorem removal_ends (h : Copying p config owners home owner start s j held []) (hnodup : old.Nodup)
    (hold : ∀ seg, seg ∈ old ↔ seg ∈ ownerSegmentPaths s.disk owner ∧ seg.generation < start) :
    Ends (do
      ForM.forM old (unlinkSegment config)
      ForM.forM (old.map (·.locationIndex)).dedup fun loc =>
        syncNativeDirectory loc owner : EngineM Cid Unit) s fun r s' =>
      match r with
      | .ok _ => (∃ j', Holds p config owners home s' j' held) ∧ (s.power = none → s'.power = none)
      | .error e => e = .powerLost ∧ s.power ≠ none ∧ Remains p config home old s'.disk held := by
  refine dropSegments_ends (fun seg hmem => (mem_paths.mp ((hold seg).mp hmem).1).2) ?_ ?_
  · intro done t hsub hdrop hlost
    refine ⟨rfl, fun hnone => ?_, h.remains hold hdrop hsub⟩
    cases hlost.symm.trans (hdrop.power_none hnone)
  · intro t hdrop hgone
    exact ⟨⟨_, h.removed hnodup hold hdrop hgone⟩, hdrop.power_none⟩

/-! ## Compaction -/

omit [Ord Cid] [Std.TransOrd Cid] in
theorem Remains.congr {disk : Disk SegmentHandle} {old' : List SegmentHandle}
    (h : Remains p config home old disk held)
    (hmem : ∀ seg, seg ∈ old ↔ seg ∈ old') : Remains p config home old' disk held := by
  rcases h with ⟨j, segments, hwreck, hplaced, hwithstands⟩
  refine ⟨j, segments, hwreck, hplaced, fun owner found hfound => hwithstands owner found ?_⟩
  exact ⟨hfound.sorted, hfound.sub, hfound.linked, fun seg hin younger hseg hyounger =>
    hfound.oldest seg hin younger hseg ((hmem younger).mp hyounger)⟩

variable [Std.LawfulEqOrd Cid]

omit [DecidableEq Cid] in
theorem mem_ownerRecords {index : Index Cid} {location : RecordLocation Cid} :
    location ∈ ownerRecords index owner ↔
      (∃ cid : Cid, index[cid]? = some location) ∧ location.segment.owner = owner := by
  rw [ownerRecords, mem_filter, decide_eq_true_eq, mem_map]
  refine and_congr_left fun _ => ?_
  constructor
  · intro h
    rcases h with ⟨⟨cid, record⟩, hmem, rfl⟩
    exact ⟨cid, Std.ExtTreeMap.mem_toList_iff_getElem?_eq_some.mp hmem⟩
  · intro h
    rcases h with ⟨cid, hcid⟩
    exact ⟨(cid, location), Std.ExtTreeMap.mem_toList_iff_getElem?_eq_some.mpr hcid, rfl⟩

/-- A compaction starts without a writer and with all records to be copied. -/
theorem Holds.copying (h : Holds p config owners home s j held)
    (records : Arrangement (RecordLocation Cid)) :
    Copying p config owners home owner s.nextGeneration
      { s with writers := Function.update s.writers owner none } j held
      (records.1 (ownerRecords s.index owner)) := by
  have hsound : Sound p config { s with writers := Function.update s.writers owner none } j := by
    refine ⟨h.sound.file, h.sound.absent, h.sound.room, h.sound.fits, h.sound.numbered, ?_,
      h.sound.allocated, h.sound.capacity⟩
    intro o w hw
    by_cases ho : o = owner
    · rw [ho] at hw
      exact absurd ((Function.update_self owner none s.writers).symm.trans hw) (by simp)
    · exact h.sound.writer o w ((Function.update_of_ne ho none s.writers).symm.trans hw)
  have hmem : ∀ location, location ∈ records.1 (ownerRecords s.index owner) ↔
      location ∈ ownerRecords s.index owner := fun location =>
    (records.2 (ownerRecords s.index owner)).mem_iff
  constructor
  case holds => exact ⟨hsound, h.placed, h.withstands, h.represents, h.owners_eq, h.owners_pos⟩
  case pending =>
    intro cid location hloc hown
    exact Or.inr ((hmem location).mpr (mem_ownerRecords.mpr ⟨⟨cid, hloc⟩, hown⟩))
  case todo =>
    intro location hloc
    rcases mem_ownerRecords.mp ((hmem location).mp hloc) with ⟨⟨cid, hcid⟩, hown⟩
    rcases h.represents.of_index hcid with ⟨block, hheld, hblock, hpoints⟩
    exact ⟨hown, block, hpoints, by rw [hblock]; exact hheld⟩
  case writer =>
    intro w hw
    exact absurd ((Function.update_self owner none s.writers).symm.trans hw) (by simp)
  case copies =>
    -- No segment has a number that is still to be given.
    intro seg _ hgen batch hbat
    rw [h.sound.absent seg (h.sound.not_visible hgen)] at hbat
    cases hbat
  case durable =>
    intro cid location hloc _ hgen
    rcases h.represents.of_index hloc with ⟨block, _, _, hpoints⟩
    exact absurd (h.of_points hpoints).2.2 (h.sound.not_visible hgen)
  case started => exact le_rfl

/-- A compaction changes nothing that is held, however it ends. -/
theorem compactOwner_ends (h : Holds p config owners home s j held) (owner : Nat)
    (records : Arrangement (RecordLocation Cid)) (paths : Arrangement SegmentHandle) :
    (compactOwner p config owner records paths).Ends s fun r s' =>
      match r with
      | .ok _ => (∃ j', Holds p config owners home s' j' held) ∧ (s.power = none → s'.power = none)
      | .error e => Compacts p config owners home (ownerSegmentPaths s.disk owner) s held e s' := by
  unfold compactOwner
  refine Ends.modify_bind (Ends.get_bind ?_)
  have hperm := paths.2 (ownerSegmentPaths s.disk owner)
  refine Ends.call (copyRounds_ends _ (h.copying records) le_rfl (ownerSegmentPaths s.disk owner))
    ?_ ?_
  · intro e s1 hfails
    exact hfails
  intro _ s1 hcopied
  rcases hcopied with ⟨⟨j1, hcopying⟩, hpow, hkept, hnewer⟩
  have hold : ∀ seg, seg ∈ paths.1 (ownerSegmentPaths s.disk owner) ↔
      seg ∈ ownerSegmentPaths s1.disk owner ∧ seg.generation < s.nextGeneration := by
    intro seg
    rw [hperm.mem_iff, mem_paths, mem_paths]
    constructor
    · intro hmem
      exact ⟨⟨hkept seg hmem.1, hmem.2⟩, h.sound.numbered seg hmem.1⟩
    · intro hmem
      refine ⟨(hnewer seg hmem.1.1).resolve_right fun hge => ?_, hmem.1.2⟩
      have hlt := hmem.2
      omega
  have hnodup : (paths.1 (ownerSegmentPaths s.disk owner)).Nodup :=
    hperm.nodup_iff.mpr (nodup_of_sorted (paths_sorted _ _))
  refine Ends.get_bind ?_
  -- The index has no record left in an old segment.
  have hdropped : (paths.1 (ownerSegmentPaths s.disk owner)).filter (fun seg =>
      !((ownerRecords s1.index owner).map (·.segment)).contains seg) =
      paths.1 (ownerSegmentPaths s.disk owner) := by
    refine filter_eq_self.mpr fun seg hmem => ?_
    rw [Bool.not_eq_true', ← Bool.not_eq_true, contains_iff_mem, mem_map]
    intro hnew
    rcases hnew with ⟨location, hloc, rfl⟩
    rcases mem_ownerRecords.mp hloc with ⟨⟨cid, hcid⟩, hown⟩
    have hge := (hcopying.pending cid location hcid hown).resolve_right not_mem_nil
    have hlt := ((hold location.segment).mp hmem).2
    omega
  dsimp only
  rw [hdropped]
  refine (removal_ends hcopying hnodup hold).mono ?_
  intro r s2 hr
  cases r with
  | ok _ => exact ⟨hr.1, fun hnone => hr.2 (hpow hnone)⟩
  | error e =>
    exact Or.inr ⟨hr.1, fun hnone => hr.2.1 (hpow hnone), hr.2.2.congr fun seg => hperm.mem_iff⟩

end Removal

end Native

end Pepper
