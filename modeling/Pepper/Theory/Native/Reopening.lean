import Pepper.Theory.Native.Recovery
import Pepper.Theory.Native.Removal

/-!
# Opening the Engine Again

What an engine shows when it is opened on the disk of another one, after that
was closed or after the power was lost while it was compacting.

Recovery replays everything that it finds, of all owners together. For one
identifier only the segments of its home count, and `Remains` says what those
amount to, whatever was lost. A clean close loses nothing: the new engine holds
what the old one held, under any number of owners that covers the directories
in use.

## Theorems

* `Remains.serves`: After a power loss the engine shows what was held.
* `Holds.reopen`: After a clean close the engine holds what was held.
-/

namespace Pepper

namespace Native

open Bytes Fallible List

section Reopening

variable {Cid : Type} [Ord Cid] [Std.TransOrd Cid] [DecidableEq Cid] [Std.LawfulEqOrd Cid]
  {p : Primitives Cid} {cfg : NativeConfig} {home : Cid → Nat}
  {held : Cid → Option (EncodedBlock Cid)}

/-! ## After a power loss -/

variable (p) in
/-- The file starts with the header of its segment. -/
def Headed (seg : SegmentHandle) (bytes : Bytes) : Prop :=
  ∃ block, readAt bytes 0 segmentHeaderBytes = some block ∧
    validateSegmentHeader p block seg.owner seg.generation seg.segmentId = true

omit [Ord Cid] [Std.TransOrd Cid] [DecidableEq Cid] [Std.LawfulEqOrd Cid] in
theorem headed_iff {handle : SegmentHandle} {bytes : Bytes} : Headed p handle bytes ↔
    segmentHeaderBytes ≤ bytes.length ∧ validateSegmentHeader p (bytes.take segmentHeaderBytes)
      handle.owner handle.generation handle.segmentId = true := by
  unfold Headed
  by_cases hlen : segmentHeaderBytes ≤ bytes.length
  · have hread : readAt bytes 0 segmentHeaderBytes = some (bytes.take segmentHeaderBytes) := by
      rw [readAt, Nat.zero_add, if_pos hlen, slice, drop_zero]
    rw [hread]
    simp only [Option.some.injEq, exists_eq_left', hlen, true_and]
  · have hread : readAt bytes 0 segmentHeaderBytes = none := by
      rw [readAt, Nat.zero_add, if_neg hlen]
    rw [hread]
    simp only [reduceCtorEq, false_and, exists_false, hlen]

instance instDecidableHeaded {Cid : Type} (p : Primitives Cid) (handle : SegmentHandle)
    (bytes : Bytes) : Decidable (Headed p handle bytes) :=
  decidable_of_iff _ headed_iff.symm

omit [Ord Cid] [Std.TransOrd Cid] [DecidableEq Cid] [Std.LawfulEqOrd Cid] in
/-- Beyond the header nothing is found of a file that was only begun. -/
theorem Blank.found {before : DiskFile} {found : Bytes} (h : Blank before)
    (hmix : Mixed before.durable before.bytes found) :
    ∀ i, segmentHeaderBytes ≤ i → found.getD i 0 = 0 := by
  intro i hi
  by_cases hlt : i < found.length
  · rw [getD_eq_getElem _ _ hlt]
    rcases hmix.byte i hlt with hbyte | hbyte
    · rw [hbyte, (h i hi).1]
    · rw [hbyte, (h i hi).2]
  · exact getD_eq_default _ _ (Nat.not_lt.mp hlt)

variable {seg : SegmentHandle}

omit [DecidableEq Cid] [Std.LawfulEqOrd Cid] in
/-- Every file that is found and has its header is legible. -/
theorem Wreck.legible (hdet : p.Detects cfg.segmentBytes) {disk after : Disk SegmentHandle}
    {j : Journal SegmentHandle (Batch Cid)} {segments : Nat → List SegmentHandle}
    (h : Wreck p cfg disk j segments) (haft : disk.Survives after) {file : DiskFile}
    (hfile : after[seg]? = some file) (hhed : Headed p seg file.bytes) :
    ∃ kept, j.safe seg <+: kept ∧ kept <+: j.log seg ∧ Legible p cfg seg file.bytes kept := by
  rcases haft.found seg file hfile with ⟨before, hbef, hmix, _⟩
  rcases h.file seg before hbef with ⟨hown, hbytes, hdur, hroom⟩ | ⟨hlog, hblank⟩
  · rw [hbytes, hdur] at hmix
    exact legible_found hdet hown (h.fits seg) hroom (j.safe_le seg) hmix
  · -- Only the header was written.
    have hsafe : j.safe seg = [] := by
      have hle := j.safe_le seg
      rw [hlog] at hle
      exact prefix_nil.mp hle
    rcases hhed with ⟨block, hread, hval⟩
    rw [hsafe, hlog]
    exact ⟨[], prefix_refl _, prefix_refl _, legible_blank hread hval (hblank.found hmix)⟩

/-- Whatever a power loss leaves, the engine shows what was held. -/
theorem Remains.serves (hdet : p.Detects cfg.segmentBytes) {old : List SegmentHandle}
    {disk after : Disk SegmentHandle} (h : Remains p cfg home old disk held) {owners : Nat}
    (hhome : ∀ cid, home cid < owners) (haft : disk.Survives after)
    (hhed : ∀ (seg : SegmentHandle) (file : DiskFile), after[seg]? = some file →
      Headed p seg file.bytes)
    (holdest : ∀ seg younger : SegmentHandle, seg ∈ after → younger ∈ old →
      seg.owner = younger.owner → compare seg younger = .lt → younger ∈ after) :
    ∃ s, openEngine p cfg owners after none = (.ok (), s) ∧ Serves s held := by
  classical
  rcases h with ⟨j, segments, hwreck, hplaced, hwithstands⟩
  -- Everything that is found is listed.
  have hvis : ∀ seg : SegmentHandle, seg ∈ after.visible ↔ seg ∈ after := by
    intro seg
    rw [Disk.mem_visible, mem_iff_exists]
    refine exists_congr fun file => and_iff_left_of_imp fun hfile => ?_
    rcases haft.found seg file hfile with ⟨_, _, _, hstates⟩
    rw [hstates]
    simp [DiskFile.settled]
  have hlegible : ∀ seg : SegmentHandle, ∃ kept, j.safe seg <+: kept ∧
      kept <+: j.log seg ∧ ∀ file : DiskFile, after[seg]? = some file →
        Legible p cfg seg file.bytes kept := by
    intro seg
    cases hfile : after[seg]? with
    | none =>
      refine ⟨j.log seg, j.safe_le seg, prefix_refl _, fun file hfile' => ?_⟩
      cases hfile'
    | some file =>
      rcases hwreck.legible hdet haft hfile (hhed seg file hfile) with
        ⟨kept, hsafe, hlog, hread⟩
      refine ⟨kept, hsafe, hlog, fun file' hfile' => ?_⟩
      rw [Option.some.injEq] at hfile'
      rw [← hfile']
      exact hread
  choose kept hsafe hlog hread using hlegible
  -- The segments that recovery reads.
  obtain ⟨found, hfound⟩ : ∃ found, after.visible.filter
    (fun seg => seg.owner < owners) = found := ⟨_, rfl⟩
  have hmem : ∀ seg : SegmentHandle, seg ∈ found ↔ seg ∈ after ∧ seg.owner < owners := by
    intro seg
    rw [← hfound, mem_filter, decide_eq_true_eq, hvis]
  have hfile : ∀ seg ∈ found, ∃ file : DiskFile, after[seg]? = some file := fun seg hin =>
    mem_iff_exists.mp ((hmem seg).mp hin).1
  have hsorted : found.Pairwise fun a b => compare a b = .lt := by
    rw [← hfound]
    exact Disk.visible_sorted.filter _
  have hroom : ∀ loc, Fitting cfg loc (countAt found loc) := by
    intro loc
    refine (hwreck.capacity loc).mono (countAt_le_loaded (nodup_of_sorted hsorted) ?_ _)
    intro seg hin
    rcases hfile seg hin with ⟨file, hfile⟩
    rcases haft.found seg file hfile with ⟨before, hbef, _⟩
    refine ⟨?_, (hread seg file hfile).owner_lt⟩
    exact mem_iff_exists.mpr ⟨_, hbef⟩
  -- Nothing is read of the other segments.
  obtain ⟨kept', hkept'⟩ : ∃ kept' : SegmentHandle → List (Batch Cid),
    ∀ seg, kept' seg = if seg ∈ found then kept seg else [] := ⟨_, fun _ => rfl⟩
  have hread' : ∀ seg ∈ found, ∃ file : DiskFile, after[seg]? = some file ∧
      Legible p cfg seg file.bytes (kept' seg) := by
    intro seg hin
    rcases hfile seg hin with ⟨file, hfile⟩
    refine ⟨file, hfile, ?_⟩
    rw [hkept', if_pos hin]
    exact hread seg file hfile
  rcases openEngine_recovered hfound hread' hroom with ⟨s, hopen, hrecovered, _⟩
  refine ⟨s, hopen, ?_⟩
  have hserves := hrecovered.serves fun seg hnot => by rw [hkept', if_neg hnot]
  have hheld : outcome emptyMap ((joined found kept').flatMap Batch.updates) = held := by
    funext cid
    -- For an identifier only the segments of its home count.
    have hfilter : outcome emptyMap ((joined (found.filter fun seg =>
        seg ∈ segments (home cid)) kept').flatMap Batch.updates) cid =
        outcome emptyMap ((joined found kept').flatMap Batch.updates) cid := by
      refine outcome_joined_filter (fun seg hin hnot batch hbat update hupd heq => ?_) _
      rw [hkept', if_pos hin] at hbat
      have hbat' := (hlog seg).subset hbat
      have hown := hplaced seg batch hbat' update hupd
      rw [decide_eq_false_iff_not] at hnot
      refine hnot ?_
      rw [← heq, hown]
      exact hwreck.logged seg (ne_nil_of_mem hbat')
    have hsame : joined (found.filter fun seg => seg ∈ segments (home cid)) kept' =
        joined (found.filter fun seg => seg ∈ segments (home cid)) kept :=
      joined_congr fun seg hin => by rw [hkept', if_pos (mem_of_mem_filter hin)]
    rw [← hfilter, hsame]
    have hsurvivors : Survivors disk (segments (home cid)) old
        (found.filter fun seg => seg ∈ segments (home cid)) := by
      refine ⟨hsorted.filter _, fun seg hin => ?_, fun seg hin hlinked => ?_,
        fun seg hin younger hseg hyounger hlt => ?_⟩
      · rw [mem_filter, decide_eq_true_eq] at hin
        exact hin.2
      · rcases hlinked with ⟨file, hfile, hent⟩
        rw [mem_filter, decide_eq_true_eq, hmem]
        refine ⟨⟨haft.kept seg file hfile hent, ?_⟩, hin⟩
        rw [hwreck.sharded _ seg hin]
        exact hhome cid
      · rw [mem_filter, decide_eq_true_eq, hmem] at hin ⊢
        have hown : seg.owner = younger.owner := by
          rw [hwreck.sharded _ seg hin.2, hwreck.sharded _ younger hseg]
        refine ⟨⟨holdest seg younger hin.1.1 hyounger hown hlt, ?_⟩, hseg⟩
        rw [← hown]
        exact hin.1.2
    exact hwithstands (home cid) _ hsurvivors kept (fun seg => ⟨hsafe seg, hlog seg⟩) cid rfl
  rw [hheld] at hserves
  exact hserves

/-! ## After a clean close -/

variable {owners : Nat} {s : NativeInner Cid} {j : Journal SegmentHandle (Batch Cid)}

omit [DecidableEq Cid] [Std.LawfulEqOrd Cid] in
theorem Sound.legible (h : Sound p cfg s j) (hmem : seg ∈ s.disk.visible) :
    ∃ file : DiskFile, s.disk[seg]? = some file ∧ Legible p cfg seg file.bytes (j.log seg) :=
  ⟨_, h.mem_visible.mp hmem, legible_image (h.owner_lt hmem) (h.fits seg) (h.room seg hmem)⟩

omit [Std.TransOrd Cid] [DecidableEq Cid] [Std.LawfulEqOrd Cid] in
theorem Sound.countAt_visible (h : Sound p cfg s j) (loc : Nat) :
    countAt s.disk.visible loc = loaded s.disk loc :=
  countAt_eq_loaded (nodup_of_sorted Disk.visible_sorted) (fun _ hmem => h.counted hmem)
    (fun _ hown hmem => (h.mem_iff hown).mp hmem) loc

omit [Ord Cid] [Std.TransOrd Cid] [DecidableEq Cid] [Std.LawfulEqOrd Cid] in
/-- Zeros behind the last batch leave the file of a segment as it was, but
    durable. -/
theorem Cleaned.segmentFile_eq {after : DiskFile}
    (h : Cleaned cfg (segmentHeaderBytes + batchesSize (j.log seg))
      (segmentFile p cfg j seg) after) :
    after = segmentFile p cfg j seg ∨ after = segmentFile p cfg (j.sync fun _ => true) seg := by
  rcases h with rfl | ⟨hroom, rfl⟩
  · exact Or.inl rfl
  · right
    show DiskFile.mk (patch _ _ _) (patch _ _ _) _ = DiskFile.mk _ _ _
    rw [Journal.safe_sync_of j rfl]
    show DiskFile.mk (patch (image p cfg seg (j.log seg)) _ _)
      (patch (image p cfg seg (j.log seg)) _ _) _ = _
    rw [patch_image_zeros hroom]
    rfl

omit [Std.LawfulEqOrd Cid] in
/-- An engine that has read the segments of another one is sound. -/
theorem Recovered.sound {s' : NativeInner Cid} (h : Sound p cfg s j)
    (hrecovered : Recovered p cfg j.log s.disk s.disk.visible s') :
    ∃ which, Sound p cfg s' (j.sync which) ∧ s'.disk.visible = s.disk.visible := by
  -- A file is as it was, or it was cleaned and is durable now.
  have hfile : ∀ seg ∈ s.disk.visible, s'.disk[seg]? = s.disk[seg]? ∨
      s'.disk[seg]? = some (segmentFile p cfg (j.sync fun _ => true) seg) := by
    intro seg hmem
    rcases hrecovered.cleaned seg hmem with ⟨before, after, hbef, haft, _, hcleaned⟩
    have hbef' := h.mem_visible.mp hmem
    rw [hbef, Option.some.injEq] at hbef'
    rw [hbef'] at hcleaned
    rw [haft, hbef, hbef', Option.some.injEq, Option.some.injEq]
    exact hcleaned.segmentFile_eq
  obtain ⟨which, hwhich⟩ : ∃ which : SegmentHandle → Bool, ∀ seg,
    which seg = decide (s'.disk[seg]? ≠ s.disk[seg]?) := ⟨_, fun _ => rfl⟩
  have hthere : ∀ seg ∈ s.disk.visible,
      s'.disk[seg]? = some (segmentFile p cfg (j.sync which) seg) := by
    intro seg hmem
    by_cases hsame : s'.disk[seg]? = s.disk[seg]?
    · have hnot : ¬ which seg = true := by
        rw [hwhich, decide_eq_true_eq, not_not]
        exact hsame
      rw [hsame, h.mem_visible.mp hmem, segmentFile, segmentFile, Journal.safe_sync_of_not j hnot]
      rfl
    · have hyes : which seg = true := by
        rw [hwhich, decide_eq_true_eq]
        exact hsame
      rw [(hfile seg hmem).resolve_left hsame, segmentFile, segmentFile,
        Journal.safe_sync_of j hyes, Journal.safe_sync_of j rfl]
      rfl
  have hvis : s'.disk.visible = s.disk.visible := by
    refine visible_congr fun seg => ?_
    by_cases hmem : seg ∈ s.disk.visible
    · refine iff_of_true (Disk.mem_visible.mpr ⟨_, hthere seg hmem, ?_⟩) hmem
      exact segmentFile_entry_ne p cfg _ seg
    · rw [Disk.mem_visible, hrecovered.others seg hmem, ← Disk.mem_visible]
  have hloaded : ∀ loc, loaded s'.disk loc = loaded s.disk loc := by
    refine loaded_congr fun seg _ => ?_
    rw [Std.ExtTreeMap.mem_iff_isSome_getElem?, Std.ExtTreeMap.mem_iff_isSome_getElem?]
    by_cases hmem : seg ∈ s.disk.visible
    · rw [hthere seg hmem, h.mem_visible.mp hmem, Option.isSome_some, Option.isSome_some]
    · rw [hrecovered.others seg hmem]
  refine ⟨which, ?_, hvis⟩
  constructor
  case file =>
    intro seg file hin
    by_cases hmem : seg ∈ s.disk.visible
    · rw [hthere seg hmem, Option.some.injEq] at hin
      exact Or.inl ⟨h.owner_lt hmem, hin.symm⟩
    · rw [hrecovered.others seg hmem] at hin
      rcases h.file seg file hin with ⟨_, rfl⟩ | hunl
      · exact absurd (h.mem_visible.mpr hin) hmem
      · exact Or.inr hunl
  case absent =>
    rw [hvis]
    exact h.absent
  case room =>
    rw [hvis]
    exact h.room
  case fits => exact h.fits
  case numbered =>
    rw [hvis]
    exact hrecovered.numbered
  case writer =>
    rw [hvis]
    intro owner w hw
    rcases hrecovered.writer owner w hw with ⟨hmem, hown, hoff, hnewest⟩
    exact ⟨hown, hmem, hoff, hnewest⟩
  case allocated =>
    intro loc
    rw [hloaded, hrecovered.allocated, h.countAt_visible]
  case capacity =>
    intro loc
    rw [hloaded]
    exact h.capacity loc

/-- An engine that is opened on the disk of another one holds what that held, if
    its owners read all directories with segments. -/
theorem Holds.reopen (h : Holds p cfg owners home s j held) {owners' : Nat} (hpos : 0 < owners')
    (hcovers : ∀ seg ∈ s.disk.visible, seg.owner < owners') :
    ∃ s', openEngine p cfg owners' s.disk none = (.ok (), s') ∧ s'.power = none ∧
      ∃ j', Holds p cfg owners' home s' j' held := by
  have hsegments : s.disk.visible.filter (fun seg => seg.owner < owners') = s.disk.visible :=
    filter_eq_self.mpr fun seg hmem => decide_eq_true (hcovers seg hmem)
  rcases openEngine_recovered hsegments (fun seg hmem => h.sound.legible hmem) (fun loc =>
    by rw [h.sound.countAt_visible]; exact h.sound.capacity loc) with
    ⟨s', hopen, hrecovered, howners⟩
  rcases hrecovered.sound h.sound with ⟨which, hsound, hvis⟩
  refine ⟨s', hopen, hrecovered.power, j.sync which, hsound, h.placed, fun owner => ?_, ?_, howners,
    hpos⟩
  · have hpaths : ownerSegmentPaths s'.disk = ownerSegmentPaths s.disk :=
      paths_congr fun seg => by rw [hvis]
    rw [hpaths]
    exact (h.withstands owner).sync which
  · have hheld : outcome emptyMap ((joined s.disk.visible j.log).flatMap Batch.updates) = held := by
      funext cid
      -- For an identifier only the segments of its home count.
      have hfilter : outcome emptyMap ((joined (ownerSegmentPaths s.disk (home cid))
          j.log).flatMap Batch.updates) cid =
          outcome emptyMap ((joined s.disk.visible j.log).flatMap Batch.updates) cid := by
        refine outcome_joined_filter (fun seg _ hnot batch hbat update hupd heq => ?_) _
        rw [decide_eq_false_iff_not] at hnot
        refine hnot ?_
        rw [← heq]
        exact (h.placed seg batch hbat update hupd).symm
      rw [← hfilter]
      exact h.withstands (home cid) j.log j.kept_log cid rfl
    rw [← hheld]
    exact hrecovered.index

omit [Std.LawfulEqOrd Cid] in
/-- An engine shows what it holds. -/
theorem Holds.serves (h : Holds p cfg owners home s j held) : Serves s held :=
  serves_of_represents (p := p) h.represents fun _ _ hpoints =>
    ⟨_, h.sound.mem_visible.mp (h.sound.visible_of_points hpoints), stores_image⟩

end Reopening

end Native

end Pepper
