import Pepper.Theory.Native.Journal

/-!
# Segments on the Disk

The files of a running engine are the images of a journal, and every call that
writes appends to that journal.

`Sound` ties the engine to a journal: which files there are, what is in them and
what of it is durable, where the writers stand and how much of each location is
taken. `Advances` is what writing does to a sound engine. A call can also be cut
short by a power loss, in the middle of making a file; then only the disk is
left, and `Wreck` says what can be found on it.

An owner number beyond 32 bits has no segment header. The engine finds that out
after it has made the file and removes it again, so a sound disk may hold
removed files of such owners.

## Main definitions

* `Sound`: The engine's disk and bookkeeping agree with a journal.
* `Advances`: The engine has appended batches and changed nothing else.
* `Blank`, `Wreck`: What a power loss leaves to be found.
* `Fails`: How a call that writes can fail.

## Theorems

* `Sound.wreck`: A power loss between two operations.
* `Advances.trans`, `Fails.after`: Calls that write, one after the other.
* `onDisk_ends`: One operation happens or not.
-/

namespace Pepper

namespace Native

open Bytes Fallible List

/-! ## Listings -/

theorem SegmentHandle.compare_lt_of_generation {a b : SegmentHandle}
    (h : a.generation < b.generation) : compare a b = .lt := by
  show (compare a.generation b.generation).then _ = .lt
  rw [Nat.compare_eq_lt.mpr h]
  rfl

variable {disk disk' : Disk SegmentHandle} {new : SegmentHandle} {locationIndex : Nat}
  {handle : SegmentHandle}

theorem mem_paths {owner : Nat} :
    handle ∈ ownerSegmentPaths disk owner ↔ handle ∈ disk.visible ∧ handle.owner = owner := by
  rw [ownerSegmentPaths, mem_filter, decide_eq_true_eq]

theorem paths_sorted (disk : Disk SegmentHandle) (owner : Nat) :
    (ownerSegmentPaths disk owner).Pairwise fun a b => compare a b = .lt :=
  Disk.visible_sorted.filter _

theorem paths_sharded (disk : Disk SegmentHandle) :
    ∀ owner, ∀ handle ∈ ownerSegmentPaths disk owner, handle.owner = owner :=
  fun _ _ h => (mem_paths.mp h).2

theorem visible_congr (h : ∀ handle, handle ∈ disk'.visible ↔ handle ∈ disk.visible) :
    disk'.visible = disk.visible :=
  eq_of_sorted Disk.visible_sorted Disk.visible_sorted h

/-- A file with the same bookkeeping leaves the listings alone. -/
theorem paths_congr (h : ∀ handle, handle ∈ disk'.visible ↔ handle ∈ disk.visible) :
    ownerSegmentPaths disk' = ownerSegmentPaths disk := by
  funext owner
  rw [ownerSegmentPaths, visible_congr h, ownerSegmentPaths]

/-- A new segment is the last one of its owner. -/
theorem paths_grow (hmem : ∀ handle, handle ∈ disk'.visible ↔ handle ∈ disk.visible ∨ handle = new)
    (hnewer : ∀ handle ∈ disk.visible, handle.generation < new.generation) :
    ownerSegmentPaths disk' = Function.update (ownerSegmentPaths disk) new.owner
      (ownerSegmentPaths disk new.owner ++ [new]) := by
  funext owner
  by_cases hown : owner = new.owner
  · rw [hown, Function.update_self]
    refine eq_of_sorted (paths_sorted _ _) ?_ ?_
    · refine pairwise_append.mpr ⟨paths_sorted _ _, pairwise_singleton _ _, ?_⟩
      intro handle hhandle last hlast
      rw [mem_singleton.mp hlast]
      exact SegmentHandle.compare_lt_of_generation (hnewer handle (mem_paths.mp hhandle).1)
    · intro handle
      rw [mem_append, mem_singleton, mem_paths, mem_paths, hmem]
      constructor
      · intro h
        rcases h with ⟨hold | rfl, hown'⟩
        · exact Or.inl ⟨hold, hown'⟩
        · exact Or.inr rfl
      · intro h
        rcases h with ⟨hold, hown'⟩ | rfl
        · exact ⟨Or.inl hold, hown'⟩
        · exact ⟨Or.inr rfl, rfl⟩
  · rw [Function.update_of_ne hown]
    refine eq_of_sorted (paths_sorted _ _) (paths_sorted _ _) ?_
    intro handle
    rw [mem_paths, mem_paths, hmem]
    constructor
    · intro h
      rcases h with ⟨hold | rfl, hown'⟩
      · exact ⟨hold, hown'⟩
      · exact absurd hown'.symm hown
    · intro h
      exact ⟨Or.inl h.1, h.2⟩

/-- The segments that take up room at a location. -/
def loaded (disk : Disk SegmentHandle) (locationIndex : Nat) : Nat :=
  ((keySet disk).filter fun handle =>
    handle.locationIndex = locationIndex ∧ handle.owner < 2 ^ 32).card

/-- How many of some segments take up room at a location. -/
def tally (S : Finset SegmentHandle) (locationIndex : Nat) : Nat :=
  (S.filter fun handle => handle.locationIndex = locationIndex ∧ handle.owner < 2 ^ 32).card

section Tally

variable {S T : Finset SegmentHandle}

theorem tally_le (h : ∀ handle ∈ S, handle.owner < 2 ^ 32 → handle ∈ T) :
    tally S locationIndex ≤ tally T locationIndex := by
  refine Finset.card_le_card fun handle hmem => ?_
  rw [Finset.mem_filter] at hmem ⊢
  exact ⟨h handle hmem.1 hmem.2.2, hmem.2⟩

theorem tally_congr (h : ∀ handle : SegmentHandle, handle.owner < 2 ^ 32 →
      (handle ∈ S ↔ handle ∈ T)) :
    tally S locationIndex = tally T locationIndex :=
  Nat.le_antisymm (tally_le fun handle hmem hown => (h handle hown).mp hmem)
    (tally_le fun handle hmem hown => (h handle hown).mpr hmem)

theorem tally_union (h : ∀ handle ∈ S, handle ∉ T) :
    tally (S ∪ T) locationIndex = tally S locationIndex + tally T locationIndex := by
  rw [tally, Finset.filter_union, Finset.card_union_of_disjoint, tally, tally]
  exact Finset.disjoint_filter_filter (Finset.disjoint_left.mpr h)

theorem tally_union_le :
    tally (S ∪ T) locationIndex ≤ tally S locationIndex + tally T locationIndex := by
  rw [tally, Finset.filter_union]
  exact Finset.card_union_le _ _

theorem tally_singleton_le (new : SegmentHandle) :
    tally {new} locationIndex ≤ if new.locationIndex = locationIndex then 1 else 0 := by
  by_cases hloc : new.locationIndex = locationIndex
  · rw [if_pos hloc]
    exact Finset.card_filter_le {new} _
  · rw [tally, Finset.filter_singleton, if_neg fun h => hloc h.1, Finset.card_empty]
    exact Nat.zero_le _

theorem tally_singleton (hown : new.owner < 2 ^ 32) :
    tally {new} locationIndex = if new.locationIndex = locationIndex then 1 else 0 := by
  rw [tally, Finset.filter_singleton]
  by_cases hloc : new.locationIndex = locationIndex
  · rw [if_pos ⟨hloc, hown⟩, if_pos hloc, Finset.card_singleton]
  · rw [if_neg fun h => hloc h.1, if_neg hloc, Finset.card_empty]

end Tally

theorem loaded_mono (h : ∀ handle, handle ∈ disk' → handle.owner < 2 ^ 32 → handle ∈ disk) :
    loaded disk' locationIndex ≤ loaded disk locationIndex :=
  tally_le fun handle hmem hown =>
    (mem_keySet _ _).mpr (h handle ((mem_keySet _ _).mp hmem) hown)

theorem loaded_congr
    (h : ∀ handle : SegmentHandle, handle.owner < 2 ^ 32 → (handle ∈ disk' ↔ handle ∈ disk))
    (locationIndex : Nat) : loaded disk' locationIndex = loaded disk locationIndex :=
  Nat.le_antisymm (loaded_mono fun handle hmem hown => (h handle hown).mp hmem)
    (loaded_mono fun handle hmem hown => (h handle hown).mpr hmem)

/-- One more segment. -/
theorem loaded_grow (hmem : ∀ handle : SegmentHandle, handle.owner < 2 ^ 32 →
      (handle ∈ disk' ↔ handle ∈ disk ∨ handle = new)) (hnew : new ∉ disk)
    (hown : new.owner < 2 ^ 32) (locationIndex : Nat) :
    loaded disk' locationIndex =
      loaded disk locationIndex + if new.locationIndex = locationIndex then 1 else 0 := by
  rw [← tally_singleton hown]
  refine Eq.trans (tally_congr fun handle hhandle => ?_) (tally_union fun handle hold => ?_)
  · rw [Finset.mem_union, mem_keySet, mem_keySet, Finset.mem_singleton]
    exact hmem handle hhandle
  · rw [Finset.mem_singleton]
    rintro rfl
    exact hnew ((mem_keySet _ _).mp hold)

/-- If all other files are as they were, there is at most one more. -/
theorem loaded_le_of_others (h : ∀ handle, new ≠ handle → disk'[handle]? = disk[handle]?)
    (locationIndex : Nat) :
    loaded disk' locationIndex ≤
      loaded disk locationIndex + if new.locationIndex = locationIndex then 1 else 0 := by
  have hle : loaded disk' locationIndex ≤ tally (keySet disk ∪ {new}) locationIndex := by
    refine tally_le fun handle hmem _ => ?_
    rw [Finset.mem_union, mem_keySet, Finset.mem_singleton, or_iff_not_imp_right]
    intro hne
    rw [mem_keySet, mem_iff_exists, h handle (Ne.symm hne)] at hmem
    exact mem_iff_exists.mpr hmem
  exact le_trans (le_trans hle tally_union_le) (Nat.add_le_add_left (tally_singleton_le new) _)

/-- How many of the segments are at a location. -/
def countAt (segments : List SegmentHandle) (locationIndex : Nat) : Nat :=
  (segments.filter fun handle => handle.locationIndex = locationIndex).length

theorem countAt_snoc (segments : List SegmentHandle) (handle : SegmentHandle) :
    countAt (segments ++ [handle]) = Function.update (countAt segments) handle.locationIndex
      (countAt segments handle.locationIndex + 1) := by
  funext locationIndex
  unfold countAt
  rw [filter_append, length_append]
  by_cases hloc : handle.locationIndex = locationIndex
  · rw [hloc, Function.update_self, filter_cons_of_pos (by exact decide_eq_true hloc)]
    rfl
  · rw [Function.update_of_ne (Ne.symm hloc), filter_cons_of_neg (by simpa using hloc)]
    rfl

theorem countAt_mono {segments segments' : List SegmentHandle} (h : segments <+: segments')
    (locationIndex : Nat) : countAt segments locationIndex ≤ countAt segments' locationIndex :=
  (h.sublist.filter _).length_le

section Counting

variable {segments : List SegmentHandle} (hnodup : segments.Nodup)
  (hmem : ∀ handle ∈ segments, handle ∈ disk ∧ handle.owner < 2 ^ 32)

include hnodup hmem

theorem countAt_eq_tally : countAt segments locationIndex = tally segments.toFinset locationIndex :=
    by
  rw [countAt, ← toFinset_card_of_nodup (hnodup.filter _), toFinset_filter, tally]
  refine congrArg Finset.card (Finset.filter_congr fun handle hhandle => ?_)
  rw [decide_eq_true_eq, and_iff_left (hmem handle (mem_toFinset.mp hhandle)).2]

/-- Segments of a listing take up room. -/
theorem countAt_le_loaded (locationIndex : Nat) :
    countAt segments locationIndex ≤ loaded disk locationIndex := by
  rw [countAt_eq_tally hnodup hmem]
  exact tally_le fun handle hin _ => (mem_keySet _ _).mpr (hmem handle (mem_toFinset.mp hin)).1

theorem countAt_eq_loaded
    (hall : ∀ handle : SegmentHandle, handle.owner < 2 ^ 32 → handle ∈ disk → handle ∈ segments)
    (locationIndex : Nat) : countAt segments locationIndex = loaded disk locationIndex := by
  refine Nat.le_antisymm (countAt_le_loaded hnodup hmem locationIndex) ?_
  rw [countAt_eq_tally hnodup hmem]
  exact tally_le fun handle hin hown =>
    mem_toFinset.mpr (hall handle hown ((mem_keySet _ _).mp hin))

/-- Segments that are no longer there. -/
theorem loaded_add_countAt (hgone : ∀ handle ∈ segments, handle ∉ disk') (locationIndex : Nat) :
    loaded disk' locationIndex + countAt segments locationIndex =
      tally (keySet disk' ∪ segments.toFinset) locationIndex := by
  rw [countAt_eq_tally hnodup hmem, tally_union]
  · rfl
  · intro handle hin hin'
    exact hgone handle (mem_toFinset.mp hin') ((mem_keySet _ _).mp hin)

end Counting

/-- A location has room for a number of segments. -/
def Fitting (config : NativeConfig) (locationIndex count : Nat) : Prop :=
  count = 0 ∨
    min (config.segmentBytes * count) (2 ^ 64 - 1) ≤ config.capacities.getD locationIndex 0

variable {config : NativeConfig}

theorem Fitting.mono {m n : Nat} (h : Fitting config locationIndex n) (hle : m ≤ n) : Fitting config
    locationIndex m := by
  rcases h with rfl | h
  · exact Or.inl (Nat.le_zero.mp hle)
  · have hmul : config.segmentBytes * m ≤ config.segmentBytes * n := Nat.mul_le_mul_left _ hle
    exact Or.inr (le_trans (min_le_min_right _ hmul) h)

/-- There is room for one more segment. -/
theorem fitting_of_others (h : ∀ handle, new ≠ handle → disk'[handle]? = disk[handle]?)
    (hroom : Fitting config new.locationIndex (loaded disk new.locationIndex + 1))
    (hold : ∀ locationIndex, Fitting config locationIndex (loaded disk locationIndex))
    (locationIndex : Nat) : Fitting config locationIndex (loaded disk' locationIndex) := by
  have hle := loaded_le_of_others h locationIndex
  by_cases hloc : new.locationIndex = locationIndex
  · rw [if_pos hloc] at hle
    rw [hloc] at hroom
    exact hroom.mono hle
  · rw [if_neg hloc, Nat.add_zero] at hle
    exact (hold locationIndex).mono hle

theorem hasRoom_iff {allocated : Nat → Nat} {count : Nat}
    (h : allocated locationIndex = config.segmentBytes * count) :
    hasRoom config allocated locationIndex = true ↔ Fitting config locationIndex (count + 1) := by
  rw [hasRoom, decide_eq_true_eq, h, Fitting, Nat.mul_succ]
  constructor
  · exact Or.inr
  · exact fun h => h.resolve_left (Nat.succ_ne_zero _)

/-! ## Sound engines -/

/-- Only the header block of the file has been written. -/
def Blank (file : DiskFile) : Prop :=
  ∀ i, segmentHeaderBytes ≤ i → file.bytes.getD i 0 = 0 ∧ file.durable.getD i 0 = 0

section Engine

variable {Cid : Type} [Ord Cid] (p : Primitives Cid) (config : NativeConfig)

/-- The file of a segment. -/
def segmentFile (j : Journal SegmentHandle (Batch Cid)) (handle : SegmentHandle) : DiskFile :=
  ⟨image p config handle (j.log handle), image p config handle (j.safe handle), .linked⟩

omit [Ord Cid] in
theorem segmentFile_entry_ne (j : Journal SegmentHandle (Batch Cid)) (handle : SegmentHandle) :
    (segmentFile p config j handle).entry ≠ .unlinked := by
  simp only [segmentFile, ne_eq, reduceCtorEq, not_false_eq_true]

/-- The engine's disk and bookkeeping agree with the journal. -/
structure Sound (s : NativeInner Cid) (j : Journal SegmentHandle (Batch Cid)) : Prop where
  file : ∀ (handle : SegmentHandle) (file : DiskFile), s.disk[handle]? = some file →
    handle.owner < 2 ^ 32 ∧ file = segmentFile p config j handle ∨
      2 ^ 32 ≤ handle.owner ∧ file.entry = .unlinked ∧ Blank file
  absent : ∀ handle, handle ∉ s.disk.visible → j.log handle = []
  room : ∀ handle ∈ s.disk.visible,
    segmentHeaderBytes + batchesSize (j.log handle) ≤ config.segmentBytes
  fits : ∀ handle, ∀ batch ∈ j.log handle, batch.Fits
  numbered : ∀ handle ∈ s.disk.visible, handle.generation < s.nextGeneration
  writer : ∀ owner w, s.writers owner = some w → w.handle.owner = owner ∧
    w.handle ∈ s.disk.visible ∧ w.offset = segmentHeaderBytes + batchesSize (j.log w.handle) ∧
    ∀ handle ∈ s.disk.visible, handle.owner = owner → handle ≠ w.handle →
      compare handle w.handle = .lt
  allocated : ∀ locationIndex,
    s.allocated locationIndex = config.segmentBytes * loaded s.disk locationIndex
  capacity : ∀ locationIndex, Fitting config locationIndex (loaded s.disk locationIndex)

/-- What is left on the disk when the power is lost during a call. -/
structure Wreck (disk : Disk SegmentHandle) (j : Journal SegmentHandle (Batch Cid))
    (segments : Nat → List SegmentHandle) : Prop where
  file : ∀ (handle : SegmentHandle) (file : DiskFile), disk[handle]? = some file →
    (handle.owner < 2 ^ 32 ∧ file.bytes = image p config handle (j.log handle) ∧
      file.durable = image p config handle (j.safe handle) ∧
      segmentHeaderBytes + batchesSize (j.log handle) ≤ config.segmentBytes) ∨
      j.log handle = [] ∧ Blank file
  logged : ∀ handle, j.log handle ≠ [] → handle ∈ segments handle.owner
  sorted : ∀ owner, (segments owner).Pairwise fun a b => compare a b = .lt
  sharded : ∀ owner, ∀ handle ∈ segments owner, handle.owner = owner
  fits : ∀ handle, ∀ batch ∈ j.log handle, batch.Fits
  capacity : ∀ locationIndex, Fitting config locationIndex (loaded disk locationIndex)

/-- The segments are there to stay. -/
def Linked (disk : Disk SegmentHandle) (segments : Nat → List SegmentHandle) : Prop :=
  ∀ owner, ∀ handle ∈ segments owner, ∃ file : DiskFile,
    disk[handle]? = some file ∧ file.entry = .linked

variable {p config} {s s' s'' : NativeInner Cid} {j j' j'' : Journal SegmentHandle (Batch Cid)}

namespace Sound

section

variable (h : Sound p config s j)

include h

/-- The index, the owners, the power and the numbers of batches do not matter. -/
theorem of_eq (hdisk : s'.disk = s.disk) (hwriters : s'.writers = s.writers)
    (hgen : s.nextGeneration ≤ s'.nextGeneration) (hallocated : s'.allocated = s.allocated) :
    Sound p config s' j where
  file := by rw [hdisk]; exact h.file
  absent := by rw [hdisk]; exact h.absent
  room := by rw [hdisk]; exact h.room
  fits := h.fits
  numbered handle hmem := by
    rw [hdisk] at hmem
    exact lt_of_lt_of_le (h.numbered handle hmem) hgen
  writer := by rw [hdisk, hwriters]; exact h.writer
  allocated := by rw [hdisk, hallocated]; exact h.allocated
  capacity := by rw [hdisk]; exact h.capacity

variable {handle : SegmentHandle}

theorem mem_visible :
    handle ∈ s.disk.visible ↔ s.disk[handle]? = some (segmentFile p config j handle) := by
  rw [Disk.mem_visible]
  constructor
  · intro hvis
    rcases hvis with ⟨file, hfile, hent⟩
    rcases h.file handle file hfile with ⟨_, hfile'⟩ | ⟨_, hunl, _⟩
    · rw [hfile, hfile']
    · exact absurd hunl hent
  · intro hfile
    exact ⟨_, hfile, segmentFile_entry_ne p config j handle⟩

theorem owner_lt (hmem : handle ∈ s.disk.visible) : handle.owner < 2 ^ 32 := by
  rcases h.file handle _ (h.mem_visible.mp hmem) with ⟨hown, _⟩ | ⟨_, hent, _⟩
  · exact hown
  · exact absurd hent (segmentFile_entry_ne p config j handle)

/-- A segment of an owner that has a header is visible. -/
theorem mem_iff (hown : handle.owner < 2 ^ 32) : handle ∈ s.disk ↔ handle ∈ s.disk.visible := by
  rw [h.mem_visible, mem_iff_exists]
  constructor
  · intro hmem
    rcases hmem with ⟨file, hfile⟩
    rcases h.file handle file hfile with ⟨_, hfile'⟩ | ⟨hle, _⟩
    · rw [hfile, hfile']
    · omega
  · intro hfile
    exact ⟨_, hfile⟩

theorem counted (hmem : handle ∈ s.disk.visible) : handle ∈ s.disk ∧ handle.owner < 2 ^ 32 :=
  ⟨(h.mem_iff (h.owner_lt hmem)).mpr hmem, h.owner_lt hmem⟩

theorem linked : Linked s.disk (ownerSegmentPaths s.disk) :=
  fun _ _ hmem => ⟨_, h.mem_visible.mp (mem_paths.mp hmem).1, rfl⟩

theorem wreck : Wreck p config s.disk j (ownerSegmentPaths s.disk) where
  file handle file hfile := by
    by_cases hvis : handle ∈ s.disk.visible
    · rcases h.file handle file hfile with ⟨hown, rfl⟩ | ⟨_, hent, hblank⟩
      · exact Or.inl ⟨hown, rfl, rfl, h.room handle hvis⟩
      · have hsame := h.mem_visible.mp hvis
        rw [hfile, Option.some.injEq] at hsame
        rw [hsame] at hent
        exact absurd hent (segmentFile_entry_ne p config j handle)
    · rcases h.file handle file hfile with ⟨_, rfl⟩ | ⟨_, _, hblank⟩
      · exact absurd (h.mem_visible.mpr hfile) hvis
      · exact Or.inr ⟨h.absent handle hvis, hblank⟩
  logged handle hlog := by
    by_cases hvis : handle ∈ s.disk.visible
    · exact mem_paths.mpr ⟨hvis, rfl⟩
    · exact absurd (h.absent handle hvis) hlog
  sorted := paths_sorted s.disk
  sharded := paths_sharded s.disk
  fits := h.fits
  capacity := h.capacity

/-- The number of the next segment is not taken. -/
theorem not_visible (hgen : s.nextGeneration ≤ handle.generation) : handle ∉ s.disk.visible := by
  intro hmem
  have hlt := h.numbered handle hmem
  omega

end

end Sound

variable (p config) in
/-- The engine has appended batches; nothing else that is visible has changed. -/
structure Advances (s : NativeInner Cid) (j : Journal SegmentHandle (Batch Cid))
    (l : List (SegmentHandle × Batch Cid)) (s' : NativeInner Cid)
    (j' : Journal SegmentHandle (Batch Cid)) : Prop where
  sound : Sound p config s' j'
  appends : Appends SegmentHandle.owner j (ownerSegmentPaths s.disk) l j'
    (ownerSegmentPaths s'.disk)
  index_eq : s'.index = s.index
  owners_eq : s'.owners = s.owners
  power_none : s.power = none → s'.power = none
  generation_le : s.nextGeneration ≤ s'.nextGeneration
  newer : ∀ handle ∈ s'.disk.visible, handle ∈ s.disk.visible ∨ s.nextGeneration ≤ handle.generation
  -- An owner without a writer starts a new segment.
  fresh : ∀ owner generation, generation ≤ s.nextGeneration →
    (∀ w, s.writers owner = some w → generation ≤ w.handle.generation) →
    (∀ w, s'.writers owner = some w → generation ≤ w.handle.generation) ∧
      ∀ entry ∈ l, entry.1.owner = owner → generation ≤ entry.1.generation

variable (p config) in
/-- How a call that writes can fail: on its own account, or by a power loss. The
    batches it has written until then are of some kind. -/
def Fails (s : NativeInner Cid) (j : Journal SegmentHandle (Batch Cid))
    (kind : SegmentHandle × Batch Cid → Prop) (e : NativeError) (s' : NativeInner Cid) : Prop :=
  ∃ l j', (∀ entry ∈ l, kind entry) ∧ (e ≠ .powerLost ∧ Advances p config s j l s' j' ∨
      s.power ≠ none ∧ e = .powerLost ∧ ∃ segments, Wreck p config s'.disk j' segments ∧
        Linked s'.disk segments ∧
        Appends SegmentHandle.owner j (ownerSegmentPaths s.disk) l j' segments)

namespace Advances

theorem refl (h : Sound p config s j) : Advances p config s j [] s j where
  sound := h
  appends := .refl
  index_eq := rfl
  owners_eq := rfl
  power_none := id
  generation_le := le_rfl
  newer _ hmem := Or.inl hmem
  fresh _ _ _ hwriter := ⟨hwriter, forall_mem_nil _⟩

theorem trans {l l' : List (SegmentHandle × Batch Cid)} (h : Advances p config s j l s' j')
    (h' : Advances p config s' j' l' s'' j'') : Advances p config s j (l ++ l') s'' j'' where
  sound := h'.sound
  appends := h.appends.trans h'.appends
  index_eq := h'.index_eq.trans h.index_eq
  owners_eq := h'.owners_eq.trans h.owners_eq
  power_none hpow := h'.power_none (h.power_none hpow)
  generation_le := le_trans h.generation_le h'.generation_le
  newer handle hmem := by
    rcases h'.newer handle hmem with hold | hnew
    · exact h.newer handle hold
    · exact Or.inr (le_trans h.generation_le hnew)
  fresh owner gen hle hwriter := by
    rcases h.fresh owner gen hle hwriter with ⟨hwriter', hentries⟩
    rcases h'.fresh owner gen (le_trans hle h.generation_le) hwriter' with
      ⟨hwriter'', hentries'⟩
    exact ⟨hwriter'', forall_mem_append.mpr ⟨hentries, hentries'⟩⟩

/-- Using up numbers and operations changes nothing that counts. -/
theorem of_eq (h : Sound p config s j) (hdisk : s'.disk = s.disk) (hwriters : s'.writers =
    s.writers)
    (hgen : s.nextGeneration ≤ s'.nextGeneration) (hallocated : s'.allocated = s.allocated)
    (hidx : s'.index = s.index) (howners : s'.owners = s.owners)
    (hpow : s.power = none → s'.power = none) : Advances p config s j [] s' j where
  sound := h.of_eq hdisk hwriters hgen hallocated
  appends := by rw [hdisk]; exact .refl
  index_eq := hidx
  owners_eq := howners
  power_none := hpow
  generation_le := hgen
  newer handle hmem := by
    rw [hdisk] at hmem
    exact Or.inl hmem
  fresh owner gen _ hwriter := by
    rw [hwriters]
    exact ⟨hwriter, forall_mem_nil _⟩

end Advances

namespace Fails

variable {kind : SegmentHandle × Batch Cid → Prop} {e : NativeError}
  {l : List (SegmentHandle × Batch Cid)}

theorem own (h : Advances p config s j l s' j') (hkind : ∀ entry ∈ l, kind entry)
    (he : e ≠ .powerLost) : Fails p config s j kind e s' :=
  ⟨l, j', hkind, Or.inl ⟨he, h⟩⟩

/-- Nothing was written. -/
theorem quiet (h : Advances p config s j [] s' j) (he : e ≠ .powerLost) :
    Fails p config s j kind e s' :=
  own h (forall_mem_nil _) he

theorem lost {segments : Nat → List SegmentHandle} (hpow : s.power ≠ none)
    (hwreck : Wreck p config s'.disk j segments) (hlinked : Linked s'.disk segments)
    (hsegments : segments = ownerSegmentPaths s.disk) : Fails p config s j kind .powerLost s' :=
  ⟨[], j, forall_mem_nil _, Or.inr ⟨hpow, rfl, segments, hwreck, hlinked, hsegments ▸ .refl⟩⟩

theorem after (h : Advances p config s j l s' j') (hkind : ∀ entry ∈ l, kind entry)
    (hfails : Fails p config s' j' kind e s'') : Fails p config s j kind e s'' := by
  rcases hfails with ⟨l', j'', hkind', hcase⟩
  refine ⟨l ++ l', j'', forall_mem_append.mpr ⟨hkind, hkind'⟩, ?_⟩
  rcases hcase with ⟨he, hadv⟩ | ⟨hpow, he, segments, hwreck, hlinked, happends⟩
  · exact Or.inl ⟨he, h.trans hadv⟩
  · exact Or.inr ⟨fun hnone => hpow (h.power_none hnone), he, segments, hwreck, hlinked,
      h.appends.trans happends⟩

theorem mono {kind' : SegmentHandle × Batch Cid → Prop} (h : Fails p config s j kind e s')
    (hkind : ∀ entry, kind entry → kind' entry) : Fails p config s j kind' e s' := by
  rcases h with ⟨l, j', hl, hcase⟩
  exact ⟨l, j', fun entry hent => hkind entry (hl entry hent), hcase⟩

end Fails

variable {Q : Except NativeError Unit → NativeInner Cid → Prop}
  {change : Disk SegmentHandle → Disk SegmentHandle}

/-- One operation on the disk happens, or the power is gone. -/
theorem onDisk_cases (hlost : s.power = some 0 → Q (.error .powerLost) s)
    (hdone : ∀ power, s.power ≠ some 0 → (s.power = none → power = none) →
      Q (.ok ()) { s with disk := change s.disk, power := power }) : (onDisk change).Ends s Q := by
  unfold onDisk
  refine Ends.bind ?_
  unfold Ends tick
  cases hpow : s.power with
  | none =>
    have hdone' := hdone none (by
      rw [hpow]
      simp) fun _ => rfl
    rw [← hpow] at hdone'
    exact hdone'
  | some n =>
    cases n with
    | zero => exact hlost hpow
    | succ n =>
      refine hdone (some n) ?_ fun hnone => absurd (hnone.symm.trans hpow) (by
        simp)
      rw [hpow]
      simp only [ne_eq, Option.some.injEq, Nat.succ_ne_zero, not_false_eq_true]

theorem onDisk_ends (hlost : s.power ≠ none → Q (.error .powerLost) s)
    (hdone : ∀ power, (s.power = none → power = none) →
      Q (.ok ()) { s with disk := change s.disk, power := power }) : (onDisk change).Ends s Q := by
  refine onDisk_cases ?_ fun power _ => hdone power
  intro hgone
  rw [hgone] at hlost
  exact hlost (Option.some_ne_none _)

/-- While the power is on, the operation happens. -/
theorem onDisk_done (hpow : s.power = none) (h : Q (.ok ()) { s with disk := change s.disk }) :
    (onDisk change).Ends s Q := by
  refine onDisk_ends (fun hne => absurd hpow hne) fun power hnone => ?_
  have hsame : power = s.power := (hnone hpow).trans hpow.symm
  subst hsame
  exact h

variable {α : Type} {f : Nat → EngineM Cid α}

theorem takeGeneration_ends {Q : Except NativeError α → NativeInner Cid → Prop}
    (h : (f s.nextGeneration).Ends { s with nextGeneration := s.nextGeneration + 1 } Q) :
    Ends (takeGeneration >>= f) s Q :=
  h

theorem takeSegmentId_ends {Q : Except NativeError α → NativeInner Cid → Prop}
    (h : (f s.nextSegmentId).Ends { s with nextSegmentId := s.nextSegmentId + 1 } Q) :
    Ends (takeSegmentId >>= f) s Q :=
  h

end Engine

end Native

end Pepper
