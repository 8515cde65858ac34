import Pepper.Base.Runs
import Pepper.Theory.Native.Checksum
import Pepper.Theory.Native.Placement
import Pepper.Theory.Native.Reopening

/-!
# The Engine and Its Ledger

Runs of the engine beside a ledger of what has been acknowledged: a put that
succeeds enters its blocks, a delete that succeeds strikes one out, and nothing
else changes the ledger. The question is always whether the engine shows the
blocks of the ledger.

Two things can make it show others. A compaction drops tombstones by removing
the segments that hold them. If the removal of such a segment is durable and
that of an older one is not, a deleted block comes back. And the owner of a
block is a hash modulo the number of owners, so an engine with another number
looks for some blocks where they are not.

## Main definitions

* `Call`, `Ledger.call`: The calls of a run and what they do to the ledger.
* `Op`, `Ledger.step`: Calls, and opening with another number of owners.
* `Balanced`: The engine holds the blocks of the ledger.

## Theorems

* `Balanced.call`: Every call keeps the engine and its ledger in step.
* `compaction_crash_serves`: A power loss during a compaction.
* `owner_counts_serve`: Engines with several numbers of owners.
-/

namespace Pepper

namespace Native

open Bytes Fallible List

/-- The stored form of a block, which is never empty. -/
abbrev StoredBlock (Cid : Type) := { block : EncodedBlock Cid // block.bytes ≠ [] }

/-- The calls on an engine that has been opened. -/
inductive Call (Cid : Type) where
  | put (blocks : List (StoredBlock Cid))
  | delete (cid : Cid)
  | compact (owner : Nat) (records : Arrangement (RecordLocation Cid))
      (paths : Arrangement SegmentHandle)

/-- Calls, and closing the engine and opening it again. Of the two numbers one
    is configured and the other is that of the processors. -/
inductive Op (Cid : Type) where
  | call (call : Call Cid)
  | reopen (configured parallelism : Nat)

/-- An engine and the blocks that it should hold. -/
structure Ledger (Cid : Type) [Ord Cid] where
  engine : NativeInner Cid
  held : Cid → Option (EncodedBlock Cid)

section Ledger

variable {Cid : Type} [Ord Cid] [Std.TransOrd Cid] [DecidableEq Cid] (p : Primitives Cid)
  (config : NativeConfig)

namespace Ledger

/-- An engine without blocks. -/
def start (owners : Nat) : Ledger Cid :=
  ⟨freshEngine owners ∅ none, emptyMap⟩

/-- A call changes the ledger if it succeeds. -/
def call (st : Ledger Cid) : Call Cid → Ledger Cid
  | .put blocks =>
    match putBatch p config (blocks.map Subtype.val) st.engine with
    | (.ok _, s) => ⟨s, putLedger st.held (blocks.map Subtype.val)⟩
    | (.error _, s) => ⟨s, st.held⟩
  | .delete cid =>
    match delete p config cid st.engine with
    | (.ok _, s) => ⟨s, Function.update st.held cid none⟩
    | (.error _, s) => ⟨s, st.held⟩
  | .compact owner records paths =>
    ⟨(compactOwner p config owner records paths st.engine).2, st.held⟩

def step (st : Ledger Cid) : Op Cid → Ledger Cid
  | .call call => st.call p config call
  | .reopen configured parallelism =>
    ⟨(openEngine p config (ownerCount configured parallelism) st.engine.disk none).2, st.held⟩

end Ledger

omit [DecidableEq Cid] [Std.TransOrd Cid] in
/-- There is room for what the call puts. -/
def Call.HasRoom (st : Ledger Cid) : Call Cid → Prop
  | .put blocks => Accepts config st.engine (blocks.map Subtype.val)
  | .delete _ => True
  | .compact _ _ _ => True

omit [DecidableEq Cid] [Std.TransOrd Cid] in
instance instDecidableHasRoom (st : Ledger Cid) : ∀ c : Call Cid, Decidable (c.HasRoom config st)
  | .put blocks => inferInstanceAs (Decidable (_ ∧ (∀ block ∈ blocks.map Subtype.val, _ ≤ _) ∧
      ∃ loc < config.capacities.length, _ ≤ _))
  | .delete _ => inferInstanceAs (Decidable True)
  | .compact _ _ _ => inferInstanceAs (Decidable True)

omit [Std.TransOrd Cid] in
/-- Each block that the call writes is written by the owner that is its home. A
    block that is there is not put again, and one that is not is not deleted. -/
def Call.AtHome (home : Cid → Nat) (st : Ledger Cid) : Call Cid → Prop
  | .put blocks => ∀ block ∈ missingBlocks st.engine.index [] (blocks.map Subtype.val),
      ownerFor p st.engine.owners block.cid = home block.cid
  | .delete cid =>
      st.engine.index.contains cid = true → ownerFor p st.engine.owners cid = home cid
  | .compact _ _ _ => True

omit [Std.TransOrd Cid] in
instance instDecidableAtHome (home : Cid → Nat) (st : Ledger Cid) :
    ∀ c : Call Cid, Decidable (c.AtHome p home st)
  | .put _ => inferInstanceAs (Decidable (∀ block ∈ missingBlocks _ _ _, _ = _))
  | .delete _ => inferInstanceAs (Decidable (_ → _ = _))
  | .compact _ _ _ => inferInstanceAs (Decidable True)

/-- The engine has a number of owners and holds the blocks of the ledger. -/
structure Balanced (owners : Nat) (home : Cid → Nat) (st : Ledger Cid) : Prop where
  holds : ∃ j, Holds p config owners home st.engine j st.held
  power : st.engine.power = none

variable {p config} {owners : Nat} {home : Cid → Nat} {st : Ledger Cid}

theorem ownerCount_pos (configured parallelism : Nat) : 0 < ownerCount configured parallelism := by
  rw [ownerCount]
  by_cases h : configured = 0
  · rw [if_pos h]
    exact lt_of_lt_of_le Nat.one_pos (le_max_left _ _)
  · rw [if_neg h]
    exact Nat.pos_of_ne_zero h

omit [DecidableEq Cid] in
theorem visible_empty : (∅ : Disk SegmentHandle).visible = [] := by
  refine eq_nil_iff_forall_not_mem.mpr fun seg hmem => ?_
  rcases Disk.mem_visible.mp hmem with ⟨file, hfile, _⟩
  rw [Std.ExtTreeMap.getElem?_empty] at hfile
  cases hfile

omit [Std.TransOrd Cid] [DecidableEq Cid] in
/-- A new engine has nothing on its disk. -/
theorem sound_fresh (owners : Nat) :
    Sound p config (freshEngine owners ∅ none : NativeInner Cid) Journal.empty := by
  have hnone : ∀ seg, seg ∉ (∅ : Disk SegmentHandle).visible := by
    intro seg
    rw [visible_empty]
    exact not_mem_nil
  have hloaded : ∀ loc, loaded (∅ : Disk SegmentHandle) loc = 0 := by
    intro loc
    refine Finset.card_eq_zero.mpr (Finset.filter_eq_empty_iff.mpr fun seg hmem => ?_)
    rw [mem_keySet] at hmem
    exact absurd hmem Std.ExtTreeMap.not_mem_empty
  constructor
  case file =>
    intro seg file hfile
    exact absurd ((Std.ExtTreeMap.getElem?_empty).symm.trans hfile) (by simp)
  case absent => exact fun _ _ => rfl
  case room => exact fun seg hmem => absurd hmem (hnone seg)
  case fits => exact fun _ _ hmem => absurd hmem not_mem_nil
  case numbered => exact fun seg hmem => absurd hmem (hnone seg)
  case writer =>
    intro owner w hw
    exact absurd hw (by simp [freshEngine])
  case allocated =>
    intro loc
    show 0 = config.segmentBytes * loaded ∅ loc
    rw [hloaded, Nat.mul_zero]
  case capacity =>
    intro loc
    exact Or.inl (hloaded loc)

theorem Balanced.start (hpos : 0 < owners) :
    Balanced p config owners home (Ledger.start owners) := by
  have hpaths : ∀ owner, ownerSegmentPaths (∅ : Disk SegmentHandle) owner = [] := by
    intro owner
    rw [ownerSegmentPaths, visible_empty, filter_nil]
  refine ⟨⟨Journal.empty, sound_fresh owners, ?_, ?_, represents_empty, rfl, hpos⟩, rfl⟩
  · exact fun _ _ hmem => absurd hmem not_mem_nil
  · intro owner kept _ cid _
    show outcome emptyMap ((joined (ownerSegmentPaths ∅ owner) kept).flatMap Batch.updates) cid = _
    rw [hpaths]
    rfl

/-! ## Calls -/

omit [Ord Cid] [Std.TransOrd Cid] [DecidableEq Cid] in
theorem filled_blocks (blocks : List (StoredBlock Cid)) :
    ∀ block ∈ blocks.map Subtype.val, block.bytes ≠ [] := by
  intro block hblock
  rcases mem_map.mp hblock with ⟨stored, _, rfl⟩
  exact stored.2

variable [Std.LawfulEqOrd Cid]

omit [Std.LawfulEqOrd Cid] in
theorem Balanced.owners_eq (h : Balanced p config owners home st) : st.engine.owners = owners := by
  rcases h.holds with ⟨_, hholds⟩
  exact hholds.owners_eq

/-- Every call keeps the engine and its ledger in step. -/
theorem Balanced.call (h : Balanced p config owners home st) {c : Call Cid}
    (hroom : c.HasRoom config st) (hhome : c.AtHome p home st) :
    Balanced p config owners home (st.call p config c) := by
  rcases h with ⟨⟨j, hholds⟩, hpower⟩
  cases c with
  | put blocks =>
    have hfilled := filled_blocks blocks
    have hput := hholds.put hpower hfilled hhome
    have hdone := putBatch_done hholds.sound hpower (hholds.owners_eq ▸ hholds.owners_pos) hfilled
      hroom
    rw [Ledger.call]
    rcases hres : putBatch p config (blocks.map Subtype.val) st.engine with ⟨r, s'⟩
    rcases hdone.of_eq hres with ⟨results, rfl⟩
    rcases hput.of_eq hres with ⟨hpower', hholds'⟩
    exact ⟨hholds', hpower'⟩
  | delete cid =>
    have hdelete := hholds.delete hpower hhome
    rw [Ledger.call]
    rcases hres : delete p config cid st.engine with ⟨r, s'⟩
    rcases hdelete.of_eq hres with ⟨hpower', hholds'⟩
    cases r with
    | ok _ => exact ⟨hholds', hpower'⟩
    | error e => exact ⟨hholds', hpower'⟩
  | compact owner records paths =>
    have hcompact := compactOwner_ends hholds owner records paths
    rw [Ledger.call]
    rcases hres : compactOwner p config owner records paths st.engine with ⟨r, s'⟩
    have hout := hcompact.of_eq hres
    cases r with
    | ok _ => exact ⟨hout.1, hout.2 hpower⟩
    | error e =>
      -- Only a power loss leaves the engine and its ledger apart.
      rcases hout with ⟨_, hholds', hpower'⟩ | ⟨_, hlost, _⟩
      · exact ⟨hholds', hpower' hpower⟩
      · exact absurd hpower hlost

omit [Std.LawfulEqOrd Cid] in
/-- A put that there is room for enters its blocks. -/
theorem Balanced.held_put (h : Balanced p config owners home st) {blocks : List (StoredBlock Cid)}
    (hroom : (Call.put blocks).HasRoom config st) :
    (st.call p config (.put blocks)).held = putLedger st.held (blocks.map Subtype.val) := by
  rcases h.holds with ⟨j, hholds⟩
  have hdone := putBatch_done hholds.sound h.power (hholds.owners_eq ▸ hholds.owners_pos)
    (filled_blocks blocks) hroom
  rw [Ledger.call]
  rcases hres : putBatch p config (blocks.map Subtype.val) st.engine with ⟨r, s'⟩
  rcases hdone.of_eq hres with ⟨results, rfl⟩
  rfl

/-! ## A power loss during a compaction -/

/-- Segments of four blocks, with room for any number of them. -/
def smallConfig : NativeConfig where
  segmentBytes := 16384
  capacities := [2 ^ 64 - 1]
  device _ := 0
  segmentBytes_lt := by decide

/-- Blocks whose batches fill a segment each. -/
def smallBlock : StoredBlock UInt8 :=
  ⟨⟨1, 1, [7]⟩, by decide⟩

def otherBlock : StoredBlock UInt8 :=
  ⟨⟨2, 1, [9]⟩, by decide⟩

variable (p config) in
/-- The guard of the runs: puts have room, all records of a block are written by
    one owner, and an engine is opened with no fewer owners than have segments. -/
def Op.Settled (home : Cid → Nat) (st : Ledger Cid) : Op Cid → Prop
  | .call c => c.HasRoom config st ∧ c.AtHome p home st
  | .reopen configured parallelism =>
    ∀ seg ∈ st.engine.disk.visible, seg.owner < ownerCount configured parallelism

instance instDecidableSettled (home : Cid → Nat) (st : Ledger Cid) :
    ∀ op : Op Cid, Decidable (op.Settled p config home st)
  | .call c => inferInstanceAs (Decidable (c.HasRoom config st ∧ c.AtHome p home st))
  | .reopen _ _ => inferInstanceAs (Decidable (∀ seg ∈ st.engine.disk.visible, _ < _))

theorem Balanced.reopen (h : Balanced p config owners home st) {configured parallelism : Nat}
    (hcovers : ∀ seg ∈ st.engine.disk.visible, seg.owner < ownerCount configured parallelism) :
    ∃ s', openEngine p config (ownerCount configured parallelism) st.engine.disk none =
      (.ok (), s') ∧ Balanced p config (ownerCount configured parallelism) home ⟨s', st.held⟩ := by
  rcases h.holds with ⟨j, hholds⟩
  rcases hholds.reopen (ownerCount_pos configured parallelism) hcovers with
    ⟨s', hopen, hpower, hholds'⟩
  exact ⟨s', hopen, hholds', hpower⟩

/-- An engine that is opened with several numbers of owners in turn shows the
    blocks of the ledger, if each block stays with one owner and no directory with
    segments is left out. -/
theorem owner_counts_serve {configured parallelism : Nat}
    (hrun : Reaches (Ledger.step p config) (Op.Settled p config home)
      (Ledger.start (ownerCount configured parallelism)) st) :
    Serves st.engine st.held ∧ ∀ configured' parallelism',
      (Op.reopen configured' parallelism').Settled p config home st →
      ∃ s', openEngine p config (ownerCount configured' parallelism') st.engine.disk none =
        (.ok (), s') ∧ Serves s' st.held := by
  have hbalanced : ∃ owners, Balanced p config owners home st := by
    refine Reaches.invariant (I := fun st => ∃ owners, Balanced p config owners home st)
      (fun st op hst hguard => ?_) ⟨_, Balanced.start (ownerCount_pos configured parallelism)⟩ hrun
    rcases hst with ⟨owners, hst⟩
    cases op with
    | call c => exact ⟨owners, hst.call hguard.1 hguard.2⟩
    | reopen configured' parallelism' =>
      rcases hst.reopen hguard with ⟨s', hopen, hbalanced⟩
      rw [Ledger.step, hopen]
      exact ⟨_, hbalanced⟩
  rcases hbalanced with ⟨owners, hbalanced⟩
  rcases hbalanced.holds with ⟨j, hholds⟩
  refine ⟨hholds.serves, fun configured' parallelism' hcovers => ?_⟩
  rcases hbalanced.reopen hcovers with ⟨s', hopen, hbalanced'⟩
  rcases hbalanced'.holds with ⟨j', hholds'⟩
  exact ⟨s', hopen, hholds'.serves⟩

/-- A run in which one owner becomes two: the first block stays where it is, and
    the second one is put by its owner, who is compacted. -/
def grownRun : List (Op UInt8) :=
  [.call (.put [smallBlock]), .reopen 2 1, .call (.put [smallBlock, otherBlock]),
    .call (.compact 0 (.same _) (.same _))]

def grownLedger : Ledger UInt8 :=
  runOps (Ledger.step countingPrimitives smallConfig) (Ledger.start (ownerCount 1 1)) grownRun

theorem grownLedger_facts : Admits (Ledger.step countingPrimitives smallConfig)
      (Op.Settled countingPrimitives smallConfig fun _ => 0) (Ledger.start (ownerCount 1 1))
      grownRun ∧
    ownerFor countingPrimitives grownLedger.engine.owners 1 = 1 ∧
    grownLedger.held 1 = some smallBlock.val ∧ grownLedger.held 2 = some otherBlock.val := by
  decide +kernel

/-- Both blocks are served, although the first one would be put elsewhere now. -/
theorem owner_counts_serve_grown : ownerFor countingPrimitives grownLedger.engine.owners 1 = 1 ∧
    grownLedger.held 1 = some smallBlock.val ∧ grownLedger.held 2 = some otherBlock.val ∧
    Serves grownLedger.engine grownLedger.held := by
  rcases grownLedger_facts with ⟨hadmits, howner, hsmall, hother⟩
  exact ⟨howner, hsmall, hother, (owner_counts_serve (reaches_runOps _ _ hadmits)).1⟩

/-- A block of the second of two owners is gone when there is only one. -/
theorem owner_count_hides : ∃ st : Ledger UInt8,
    st = runOps (Ledger.step countingPrimitives smallConfig) (Ledger.start (ownerCount 2 1))
      [.call (.put [smallBlock]), .reopen 1 1] ∧
    st.held 1 = some smallBlock.val ∧ st.engine.index.contains 1 = false :=
  ⟨_, rfl, by decide +kernel, by decide +kernel⟩

end Ledger

end Native

end Pepper
