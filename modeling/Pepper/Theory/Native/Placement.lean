import Pepper.Theory.Native.Calls

/-!
# Room for a Put

A put can only fail for want of room. A batch takes at most one new segment,
and there are no more batches than blocks. So a put whose blocks each fit a
segment succeeds if one location has room for as many segments as there are
blocks. That is more than it needs, but it can be read off the state before the
call.

## Main definitions

* `Roomy`: One location has room for a number of segments.
* `Accepts`: The engine has room for a put.

## Theorems

* `putBatch_done`: A put that the engine has room for succeeds.
-/

namespace Pepper

namespace Native

open Bytes Fallible List

/-! ## Room -/

/-- One location has room for a number of segments. The engine adds with
    saturation. -/
def Roomy (config : NativeConfig) (allocated : Nat → Nat) (count : Nat) : Prop :=
  ∃ loc < config.capacities.length, min (allocated loc + config.segmentBytes * count) (2 ^ 64 - 1) ≤
      config.capacities.getD loc 0

section Room

variable {config : NativeConfig} {allocated : Nat → Nat} {m n : Nat}

theorem Roomy.mono (h : Roomy config allocated n) (hle : m ≤ n) : Roomy config allocated m := by
  rcases h with ⟨loc, hlt, hroom⟩
  have hmul : config.segmentBytes * m ≤ config.segmentBytes * n := Nat.mul_le_mul_left _ hle
  exact ⟨loc, hlt, le_trans (min_le_min_right _ (Nat.add_le_add_left hmul _)) hroom⟩

/-- Every location is tried. -/
theorem mem_locations {count start loc : Nat} (h : loc < count) :
    loc ∈ (List.range count).map fun offset => (start % count + offset) % count := by
  have hpos : 0 < count := by omega
  have hstart : start % count < count := Nat.mod_lt _ hpos
  refine mem_map.mpr ⟨(loc + count - start % count) % count, mem_range.mpr (Nat.mod_lt _ hpos), ?_⟩
  have hsum : start % count + (loc + count - start % count) = loc + count := by
    omega
  rw [Nat.add_mod_mod, hsum, Nat.add_mod_right, Nat.mod_eq_of_lt h]

theorem Roomy.reserve (h : Roomy config allocated (n + 1)) (owner gen : Nat) :
    ∃ loc, reserveSegmentLocation config allocated owner gen = some loc := by
  rcases h with ⟨loc, hlt, hroom⟩
  rw [Nat.mul_succ] at hroom
  have hfound : hasRoom config allocated loc = true := by
    rw [hasRoom, decide_eq_true_eq]
    exact le_trans (min_le_min_right _ (by omega)) hroom
  rw [reserveSegmentLocation]
  exact Option.isSome_iff_exists.mp (find?_isSome.mpr ⟨loc, mem_locations hlt, hfound⟩)

/-- A segment that is made elsewhere takes no room from the location. -/
theorem Roomy.allocate (h : Roomy config allocated (n + 1)) (loc : Nat) :
    Roomy config (Function.update allocated loc (allocated loc + config.segmentBytes)) n := by
  rcases h with ⟨roomy, hlt, hroom⟩
  rw [Nat.mul_succ] at hroom
  refine ⟨roomy, hlt, ?_⟩
  by_cases hloc : roomy = loc
  · rw [hloc, Function.update_self]
    rw [hloc] at hroom
    exact le_trans (min_le_min_right _ (by omega)) hroom
  · rw [Function.update_of_ne hloc]
    exact le_trans (min_le_min_right _ (by omega)) hroom

end Room

/-! ## Puts that succeed -/

/-- A block fits a batch of its own. -/
def FitsSegment {Cid : Type} (config : NativeConfig) (block : EncodedBlock Cid) : Prop :=
  recordHeaderBytes + (recordHeaderBytes + alignUp block.bytes.length) ≤ maximumBatch config

/-- The engine has room for a put. -/
def Accepts {Cid : Type} [Ord Cid] (config : NativeConfig) (s : NativeInner Cid)
    (blocks : List (EncodedBlock Cid)) : Prop :=
  s.owners ≤ 2 ^ 32 ∧ (∀ block ∈ blocks, FitsSegment config block) ∧
    Roomy config s.allocated blocks.length

section Done

variable {Cid : Type} [Ord Cid] {p : Primitives Cid} {config : NativeConfig} {s : NativeInner Cid}
  {owner n : Nat}

theorem createSegment_done (hpow : s.power = none) (hown : owner < 2 ^ 32)
    (hroom : Roomy config s.allocated (n + 1)) :
    (createSegment p config owner).Ends s fun r s' =>
      (∃ w, r = .ok w) ∧ s'.power = none ∧ Roomy config s'.allocated n := by
  refine createSegment_cases ?_ ?_ ?_ ?_ ?_
  · intro hnone
    rcases hroom.reserve owner s.nextGeneration with ⟨loc, hreserve⟩
    rw [hreserve] at hnone
    exact absurd hnone (Option.some_ne_none _)
  · intro hoff
    rw [hpow] at hoff
    exact absurd hoff.symm (Option.some_ne_none _)
  · intro _ _ _ _ _ _ hon
    exact absurd hpow hon
  · intro _ _ _ _ _ _ hlarge
    omega
  · intro loc _ _ _ _ hnone _ _
    exact ⟨⟨_, rfl⟩, hnone hpow, hroom.allocate loc⟩

theorem ensureWriter_done {required : Nat} (hpow : s.power = none) (hown : owner < 2 ^ 32)
    (hsize : required + segmentHeaderBytes ≤ config.segmentBytes)
    (hroom : Roomy config s.allocated (n + 1)) :
    (ensureWriter p config owner required).Ends s fun r s' =>
      (∃ w, r = .ok w) ∧ s'.power = none ∧ Roomy config s'.allocated n := by
  unfold ensureWriter
  refine Ends.require_pos hsize (Ends.get_bind ?_)
  cases s.writers owner with
  | none => exact createSegment_done hpow hown hroom
  | some w =>
    by_cases hfits : w.offset + required ≤ config.segmentBytes
    · simp only [if_pos hfits]
      exact Ends.pure ⟨⟨w, rfl⟩, hpow, hroom.mono (Nat.le_succ n)⟩
    · simp only [if_neg hfits]
      exact createSegment_done hpow hown hroom

theorem writeChunk_done {chunk : List (EncodedBlock Cid)} (hpow : s.power = none)
    (hown : owner < 2 ^ 32) (hsize : recordsSize (chunk.map Record.data) + recordHeaderBytes +
      segmentHeaderBytes ≤ config.segmentBytes) (hroom : Roomy config s.allocated (n + 1)) :
    (writeChunk p config owner chunk).Ends s fun r s' =>
      (∃ staged, r = .ok staged) ∧ s'.power = none ∧ Roomy config s'.allocated n := by
  unfold writeChunk
  refine takeSegmentId_ends ?_
  generalize s.nextSegmentId % 2 ^ 64 = id
  rw [encodeBatch_eq]
  refine Ends.ofExcept_bind (fun e he => ?_) fun encoded henc => ?_
  · cases he
  cases henc
  refine Ends.call (ensureWriter_done hpow hown (by rw [Batch.length_encode]; exact hsize) hroom)
    (fun e s' hfailed => ?_) ?_
  · rcases hfailed.1 with ⟨w, hw⟩
    cases hw
  intro w s1 hdone
  exact Ends.bind (onDisk_done hdone.2.1 (Ends.modify_bind (Ends.pure ⟨⟨_, rfl⟩, hdone.2⟩)))

omit [Ord Cid] in
/-- The blocks of a batch fit a segment. -/
theorem recordsSize_chunk {maximum size : Nat} (blocks : List (EncodedBlock Cid))
    (hsize : size ≤ maximum) :
    recordsSize ((blocks.take (chunkCount maximum size blocks)).map Record.data) + size ≤
      maximum := by
  induction blocks generalizing size with
  | nil =>
    rw [chunkCount, take_nil, map_nil, recordsSize, map_nil, sum_nil]
    omega
  | cons block rest ih =>
    rw [chunkCount]
    by_cases hfull : maximum < size + (recordHeaderBytes + alignUp block.bytes.length)
    · simp only [if_pos hfull, take_zero, map_nil, recordsSize, sum_nil]
      omega
    · simp only [if_neg hfull, take_succ_cons, map_cons, recordsSize_cons, Record.size]
      have hrest := ih (Nat.not_lt.mp hfull)
      omega

variable {blocks : List (EncodedBlock Cid)}

theorem writeChunks_done (rounds : Nat) (hpow : s.power = none) (hown : owner < 2 ^ 32)
    (hfits : ∀ block ∈ blocks, FitsSegment config block)
    (hroom : Roomy config s.allocated (blocks.length + n)) :
    (writeChunks p config owner rounds blocks).Ends s fun r s' =>
      (∃ staged, r = .ok staged) ∧ s'.power = none ∧ Roomy config s'.allocated n := by
  induction rounds generalizing s blocks with
  | zero =>
    have hless := hroom.mono (Nat.le_add_left n blocks.length)
    cases blocks with
    | nil => exact ⟨⟨[], rfl⟩, hpow, hless⟩
    | cons first rest => exact ⟨⟨[], rfl⟩, hpow, hless⟩
  | succ rounds ih =>
    cases blocks with
    | nil => exact ⟨⟨[], rfl⟩, hpow, hroom.mono (Nat.le_add_left n 0)⟩
    | cons first rest =>
      have hfirst := hfits first mem_cons_self
      rw [FitsSegment] at hfirst
      have hchunk := recordsSize_chunk (first :: rest)
        (by omega : recordHeaderBytes ≤ maximumBatch config)
      rw [writeChunks]
      cases hcount : chunkCount (maximumBatch config) recordHeaderBytes (first :: rest) with
      | zero =>
        -- A block that fits is taken.
        rw [chunkCount, if_neg (Nat.not_lt.mpr hfirst)] at hcount
        exact absurd hcount (Nat.succ_ne_zero _)
      | succ count =>
        rw [hcount, take_succ_cons] at hchunk
        have hsize : recordsSize ((first :: rest.take count).map Record.data) +
            recordHeaderBytes + segmentHeaderBytes ≤ config.segmentBytes := by
          rw [maximumBatch] at hchunk hfirst
          have hpos : 0 < recordHeaderBytes := by decide
          omega
        rw [length_cons, Nat.add_right_comm] at hroom
        refine Ends.call (writeChunk_done hpow hown hsize hroom) (fun e s' hfailed => ?_) ?_
        · rcases hfailed.1 with ⟨staged, hstaged⟩
          cases hstaged
        intro written s1 hdone
        have hless : Roomy config s1.allocated ((rest.drop count).length + n) := by
          refine hdone.2.2.mono ?_
          rw [length_drop]
          omega
        refine Ends.call (ih hdone.2.1 (fun block hblock => hfits block
          (mem_cons_of_mem _ (mem_of_mem_drop hblock))) hless)
          (fun e s' hfailed => ?_) ?_
        · rcases hfailed.1 with ⟨staged, hstaged⟩
          cases hstaged
        intro more s2 hdone'
        exact Ends.pure ⟨⟨_, rfl⟩, hdone'.2⟩

theorem writeOwners_done {missing : List (EncodedBlock Cid)} (count : Nat) {owners : List Nat}
    (hpow : s.power = none) (howners : ∀ owner ∈ owners, owner < 2 ^ 32)
    (hfits : ∀ block ∈ missing, FitsSegment config block)
    (hroom : Roomy config s.allocated (owners.map fun owner => (missing.filter fun block =>
      ownerFor p count block.cid = owner).length).sum) :
    (writeOwners p config missing count owners).Ends s fun r _ => ∃ staged, r = .ok staged := by
  induction owners generalizing s with
  | nil => exact ⟨[], rfl⟩
  | cons owner rest ih =>
    rw [map_cons, sum_cons] at hroom
    rw [writeOwners]
    refine Ends.call (writeChunks_done _ hpow (howners owner mem_cons_self)
      (fun block hblock => hfits block (mem_of_mem_filter hblock)) hroom)
      (fun e s' hfailed => hfailed.1) ?_
    intro written s1 hdone
    refine Ends.call (ih hdone.2.1 (fun o ho => howners o (mem_cons_of_mem _ ho)) hdone.2.2)
      (fun e s' hfailed => hfailed) ?_
    intro more s2 _
    exact Ends.pure ⟨_, rfl⟩

variable [Std.TransOrd Cid] [DecidableEq Cid]

/-- A put finds the answers for its blocks in the index or among what it has
    written. -/
theorem putResults_some {index : Index Cid} {staged : List (RecordLocation Cid)} {seen : List Cid}
    (h : ∀ block ∈ blocks, index.contains block.cid = true ∨
      ∃ record ∈ staged, record.cid = block.cid) :
    ∃ results, putResults index staged seen blocks = some results := by
  induction blocks generalizing seen with
  | nil => exact ⟨[], rfl⟩
  | cons block rest ih =>
    have hrest : ∃ more, putResults index staged (block.cid :: seen) rest = some more :=
      ih fun b hb => h b (mem_cons_of_mem _ hb)
    rcases hrest with ⟨more, hmore⟩
    rw [putResults, hmore]
    cases hidx : index[block.cid]? with
    | some existing => exact ⟨_, rfl⟩
    | none =>
      rcases h block mem_cons_self with hcontains | ⟨record, hrec, hcid⟩
      · rw [Std.ExtTreeMap.contains_eq_isSome_getElem?, hidx] at hcontains
        exact absurd hcontains (by simp)
      · have hfound : (staged.find? fun record => record.cid = block.cid).isSome :=
          find?_isSome.mpr ⟨record, hrec, decide_eq_true hcid⟩
        rcases Option.isSome_iff_exists.mp hfound with ⟨first, hfirst⟩
        rw [hfirst]
        exact ⟨_, rfl⟩

/-- A put that the engine has room for succeeds. -/
theorem putBatch_done {j : Journal SegmentHandle (Batch Cid)} (h : Sound p config s j)
    (hpow : s.power = none) (howners : 0 < s.owners) (hfil : ∀ block ∈ blocks, block.bytes ≠ [])
    (haccepts : Accepts config s blocks) :
    (putBatch p config blocks).Ends s fun r _ => ∃ results, r = .ok results := by
  rcases haccepts with ⟨hu32, hfits, hroom⟩
  have hmissing : ∀ block ∈ missingBlocks s.index [] blocks, block ∈ blocks :=
    fun _ => mem_of_missing
  have hlen : (missingBlocks s.index [] blocks).length ≤ blocks.length :=
    (missingBlocks_sublist s.index [] blocks).length_le
  have hsum := sum_length_filter_le (fun block : EncodedBlock Cid => ownerFor p s.owners block.cid)
    (nodup_range (n := s.owners)) (missingBlocks s.index [] blocks)
  unfold putBatch
  refine Ends.get_bind (Ends.call ((writeOwners_ends h hpow (fun block hblock =>
    hfil block (hmissing block hblock)) s.owners nodup_range).and (writeOwners_done s.owners
      hpow (fun owner ho => lt_of_lt_of_le (mem_range.mp ho) hu32) (fun block hblock =>
        hfits block (hmissing block hblock)) (hroom.mono (le_trans hsum hlen)))) ?_ ?_)
  · intro e s1 hfailed
    rcases hfailed.2 with ⟨staged, hstaged⟩
    cases hstaged
  intro staged s1 hwritten
  rcases hwritten.1 with ⟨l, j1, hadv, _, hpoints, _⟩
  refine Ends.call (durabilityBarrier_ends hadv.sound staged) (fun e s2 hfails => ?_) ?_
  · rcases hfails with ⟨_, _, _, hlost⟩
    exact absurd (hadv.power_none hpow) hlost
  intro _ s2 _
  refine Ends.modify_bind (Ends.expect (fun hnone => ?_) fun results _ => ⟨results, rfl⟩)
  -- Each block is in the index or has been written.
  have hall : ∀ block ∈ blocks, s.index.contains block.cid = true ∨
      ∃ record ∈ staged, record.cid = block.cid := by
    intro block hblock
    by_cases hidx : s.index.contains block.cid = true
    · exact Or.inl hidx
    · right
      have hfound : (blocks.find? fun b => b.cid = block.cid).isSome :=
        find?_isSome.mpr ⟨block, hblock, decide_eq_true rfl⟩
      rcases Option.isSome_iff_exists.mp hfound with ⟨first, hfirst⟩
      have hcid := find?_some hfirst
      rw [decide_eq_true_eq] at hcid
      rw [← hcid] at hfirst hidx
      have hmem := mem_missingBlocks_iff.mpr ⟨hfirst, Bool.not_eq_true _ ▸ hidx, not_mem_nil⟩
      have hwrote : first ∈ (List.range s.owners).flatMap fun owner =>
          (missingBlocks s.index [] blocks).filter fun block =>
            ownerFor p s.owners block.cid = owner :=
        mem_flatMap.mpr ⟨ownerFor p s.owners first.cid,
          mem_range.mpr (Nat.mod_lt _ howners), mem_filter.mpr ⟨hmem, decide_eq_true rfl⟩⟩
      rcases exists_left_of_forall₂ hpoints hwrote with ⟨record, hrec, hpoint⟩
      exact ⟨record, hrec, hpoint.cid_eq.trans hcid⟩
  have hsome : ∃ results, putResults s.index staged [] blocks = some results :=
    putResults_some hall
  rcases hsome with ⟨results, hresults⟩
  rw [hresults] at hnone
  exact absurd hnone (Option.some_ne_none _)

end Done

end Native

end Pepper
