import Pepper.Theory.Native.Writing

/-!
# What Is Held

The blocks an engine holds are those of the puts and deletes that were
acknowledged. `Holds` says that an engine is right about them in three ways at
once: the index shows them, the journal amounts to them whatever a power loss
takes, and each identifier has its updates with one owner, so that they are
replayed in the order they were made in.

## Main definitions

* `putLedger`: The blocks that are held after a put.
* `Holds`: An engine holds these blocks.

## Theorems

* `putBatch_ends`, `delete_ends`: What the two calls write.
* `Holds.put`, `Holds.delete`: What they make of the blocks that are held.
-/

namespace Pepper

namespace Native

open Bytes Fallible List

section Missing

variable {Cid : Type} [Ord Cid] [Std.TransOrd Cid] [DecidableEq Cid] {index : Index Cid}
  {block : EncodedBlock Cid} {blocks : List (EncodedBlock Cid)} {seen : List Cid}

/-- Of several blocks with one identifier the first is written, unless the
    identifier is known already. -/
theorem mem_missingBlocks_iff : block ∈ missingBlocks index seen blocks ↔
    blocks.find? (fun b => b.cid = block.cid) = some block ∧
      index.contains block.cid = false ∧ block.cid ∉ seen := by
  induction blocks generalizing seen with
  | nil => simp [missingBlocks]
  | cons first rest ih =>
    rw [missingBlocks]
    by_cases hskip : (index.contains first.cid || decide (first.cid ∈ seen)) = true
    · rw [if_pos hskip, ih]
      by_cases hcid : first.cid = block.cid
      · rw [hcid, Bool.or_eq_true, decide_eq_true_eq] at hskip
        rcases hskip with hidx | hseen
        · simp [hidx]
        · simp [hseen]
      · simp [hcid]
    · rw [if_neg hskip, mem_cons, ih]
      by_cases hcid : first.cid = block.cid
      · rw [hcid, Bool.not_eq_true, Bool.or_eq_false_iff, decide_eq_false_iff_not] at hskip
        simp [hcid, hskip, eq_comm]
      · have hne : block ≠ first := fun heq => hcid (congrArg _ heq.symm)
        simp [hcid, hne, Ne.symm hcid]

theorem mem_of_missing (h : block ∈ missingBlocks index seen blocks) : block ∈ blocks :=
  mem_of_find?_eq_some (mem_missingBlocks_iff.mp h).1

theorem missingBlocks_sublist (index : Index Cid) (seen : List Cid)
    (blocks : List (EncodedBlock Cid)) : (missingBlocks index seen blocks).Sublist blocks := by
  induction blocks generalizing seen with
  | nil => exact List.Sublist.refl _
  | cons first rest ih =>
    rw [missingBlocks]
    by_cases hskip : (index.contains first.cid || decide (first.cid ∈ seen)) = true
    · rw [if_pos hskip]
      exact (ih seen).cons first
    · rw [if_neg hskip]
      exact (ih (first.cid :: seen)).cons_cons first

end Missing

/-- The blocks that are held after a put. A block that is held already stays as
    it is, and of several new ones with one identifier the first counts. -/
def putLedger {Cid : Type} [DecidableEq Cid] (held : Cid → Option (EncodedBlock Cid))
    (blocks : List (EncodedBlock Cid)) : Cid → Option (EncodedBlock Cid) :=
  fun cid => (held cid).or (blocks.find? fun block => block.cid = cid)

section Calls

variable {Cid : Type} [Ord Cid] [Std.TransOrd Cid] [DecidableEq Cid] {p : Primitives Cid}
  {config : NativeConfig} {s s' : NativeInner Cid} {j j' : Journal SegmentHandle (Batch Cid)}
  {blocks : List (EncodedBlock Cid)}

/-! ## Writing for all owners -/

variable (p config) in
/-- What has been written for several owners. -/
def WrittenAll (missing : List (EncodedBlock Cid)) (count : Nat) (owners : List Nat)
    (s : NativeInner Cid) (j : Journal SegmentHandle (Batch Cid))
    (staged : List (RecordLocation Cid)) (s' : NativeInner Cid) : Prop :=
  ∃ l j', Advances p config s j l s' j' ∧
    (∀ owner, ((l.filter fun entry => entry.1.owner = owner).map Prod.snd).flatMap
      Batch.records = if owner ∈ owners then (missing.filter fun block =>
        ownerFor p count block.cid = owner).map .data else []) ∧
    List.Forall₂ (Points j'.log) staged (owners.flatMap fun owner => missing.filter fun block =>
      ownerFor p count block.cid = owner) ∧
    ∀ entry ∈ l, ∃ record ∈ staged, record.segment = entry.1

omit [Std.TransOrd Cid] [DecidableEq Cid] in
theorem writeOwners_ends (h : Sound p config s j) (hpow : s.power = none)
    {missing : List (EncodedBlock Cid)} (hfil : ∀ block ∈ missing, block.bytes ≠ [])
    (count : Nat) {owners : List Nat} (hnodup : owners.Nodup) :
    (writeOwners p config missing count owners).Ends s fun r s' =>
      match r with
      | .ok staged => WrittenAll p config missing count owners s j staged s'
      | .error _ => ∃ l j', Advances p config s j l s' j' ∧
          ∀ entry ∈ l, Carries entry.1.owner missing entry := by
  induction owners generalizing s j with
  | nil =>
    exact ⟨[], j, Advances.refl h, fun _ => rfl, List.Forall₂.nil,
      forall_mem_nil _⟩
  | cons owner rest ih =>
    rw [nodup_cons] at hnodup
    rw [writeOwners]
    refine Ends.call (writeDataExclusive_ends h (Or.inr hpow) fun block hblock =>
      hfil block (mem_of_mem_filter hblock)) ?_ ?_
    · intro e s1 hfails
      rcases hfails with ⟨l, j', hcarries, ⟨_, hadv⟩ | ⟨hlost, _⟩⟩
      · refine ⟨l, j', hadv, fun entry hent => ?_⟩
        have hmine := hcarries entry hent
        exact hmine.1.symm ▸ hmine.mono fun _ => mem_of_mem_filter
      · exact absurd hpow hlost
    intro staged s1 hwritten
    rcases hwritten with ⟨l, j1, hadv, howners, hrecords, hpoints, hsegments, _⟩
    refine Ends.call (ih hadv.sound (hadv.power_none hpow) hnodup.2) ?_ ?_
    · -- What the earlier owners wrote stays, and carries missing blocks.
      intro e s2 hfails
      rcases hfails with ⟨l', j2, hadv', hcarries⟩
      refine ⟨_, j2, hadv.trans hadv', forall_mem_append.mpr
        ⟨fun entry hent => ⟨rfl, fun record hrec => ?_⟩, hcarries⟩⟩
      have hmem : record ∈ (l.map Prod.snd).flatMap Batch.records :=
        mem_flatMap.mpr ⟨entry.2, mem_map_of_mem hent, hrec⟩
      rw [hrecords] at hmem
      rcases mem_map.mp hmem with ⟨block, hblock, hdata⟩
      exact ⟨block, mem_of_mem_filter hblock, hdata.symm⟩
    intro more s2 hmore
    rcases hmore with ⟨l', j2, hadv', hrecords', hpoints', hsegments'⟩
    refine ⟨_, j2, hadv.trans hadv', ?_, ?_,
      forall_mem_append_exists hsegments hsegments'⟩
    · -- The batches written for one owner are all in segments of that owner.
      intro o
      rw [filter_append, map_append, flatMap_append, hrecords' o]
      by_cases ho : o = owner
      · rw [if_neg (by rw [ho]; exact hnodup.1), append_nil,
          filter_eq_self.mpr fun entry hent => decide_eq_true
            ((howners entry hent).trans ho.symm), hrecords, if_pos (by
              rw [ho]; exact mem_cons_self), ho]
      · have hnone : l.filter (fun entry => entry.1.owner = o) = [] := by
          rw [filter_eq_nil_iff]
          intro entry hent
          rw [decide_eq_true_eq, howners entry hent]
          exact fun heq => ho heq.symm
        rw [hnone]
        simp only [mem_cons, ho, false_or]
        rfl
    · rw [flatMap_cons]
      refine rel_append ?_ hpoints'
      exact hpoints.imp fun _ _ hpoint => hpoint.mono (hadv'.appends.log_le _)

omit [Ord Cid] [Std.TransOrd Cid] [DecidableEq Cid] in
/-- The batches of an owner hold its own blocks only. -/
theorem carries_of_records {missing : List (EncodedBlock Cid)} {count : Nat} {owners : List Nat}
    {l : List (SegmentHandle × Batch Cid)}
    (hrecords : ∀ owner, ((l.filter fun entry => entry.1.owner = owner).map
      Prod.snd).flatMap Batch.records = if owner ∈ owners then (missing.filter fun block =>
        ownerFor p count block.cid = owner).map .data else [])
    {entry : SegmentHandle × Batch Cid} (hent : entry ∈ l) :
    Carries entry.1.owner (missing.filter fun block =>
      ownerFor p count block.cid = entry.1.owner) entry := by
  refine ⟨rfl, fun record hrec => ?_⟩
  have hmem : record ∈ ((l.filter fun e => e.1.owner = entry.1.owner).map
      Prod.snd).flatMap Batch.records := by
    refine mem_flatMap.mpr ⟨entry.2, mem_map_of_mem ?_, hrec⟩
    exact mem_filter.mpr ⟨hent, decide_eq_true rfl⟩
  rw [hrecords] at hmem
  by_cases hown : entry.1.owner ∈ owners
  · rw [if_pos hown] at hmem
    rcases mem_map.mp hmem with ⟨block, hblock, hdata⟩
    exact ⟨block, hblock, hdata.symm⟩
  · rw [if_neg hown] at hmem
    cases hmem

/-! ## The two calls -/

variable (p config) in
/-- Batches have been written and made durable. -/
structure Commits (s : NativeInner Cid) (j : Journal SegmentHandle (Batch Cid))
    (l : List (SegmentHandle × Batch Cid)) (s' : NativeInner Cid)
    (j' : Journal SegmentHandle (Batch Cid)) : Prop where
  sound : Sound p config s' j'
  durable : ∃ written which, j' = written.sync which ∧ (∀ entry ∈ l, which entry.1 = true) ∧
    Appends SegmentHandle.owner j (ownerSegmentPaths s.disk) l written
      (ownerSegmentPaths s'.disk)
  owners_eq : s'.owners = s.owners
  power_none : s'.power = none

omit [Std.TransOrd Cid] [DecidableEq Cid] in
theorem Commits.log_le {l : List (SegmentHandle × Batch Cid)} (h : Commits p config s j l s' j')
    (handle : SegmentHandle) : j.log handle <+: j'.log handle := by
  rcases h.durable with ⟨written, which, rfl, _, happends⟩
  exact happends.log_le handle

/-- Of a put that fails some batches may have been written. -/
theorem putBatch_ends (h : Sound p config s j) (hpow : s.power = none)
    (hfil : ∀ block ∈ blocks, block.bytes ≠ []) :
    (putBatch p config blocks).Ends s fun r s' =>
      match r with
      | .ok _ => ∃ l j' staged, Commits p config s j l s' j' ∧
          (∀ owner, ((l.filter fun entry => entry.1.owner = owner).map Prod.snd).flatMap
            Batch.records = if owner ∈ List.range s.owners then
              ((missingBlocks s.index [] blocks).filter fun block =>
                ownerFor p s.owners block.cid = owner).map .data else []) ∧
          List.Forall₂ (Points j'.log) staged ((List.range s.owners).flatMap fun owner =>
            (missingBlocks s.index [] blocks).filter fun block =>
              ownerFor p s.owners block.cid = owner) ∧
          s'.index = staged.foldl (fun index record => index.insert record.cid record) s.index
      | .error _ => ∃ (l : List (SegmentHandle × Batch Cid)) (j' : _),
          Sound p config s' j' ∧ s'.power = none ∧
          (∀ handle, j'.log handle = j.log handle ++
            (l.filter fun entry => entry.1 = handle).map Prod.snd) ∧
          ∀ entry ∈ l, Carries entry.1.owner (missingBlocks s.index [] blocks) entry := by
  unfold putBatch
  refine Ends.get_bind (Ends.call (writeOwners_ends h hpow (fun block hblock =>
    hfil block (mem_of_missing hblock)) s.owners nodup_range) ?_ ?_)
  · intro e s1 hfails
    rcases hfails with ⟨l, j', hadv, hcarries⟩
    exact ⟨l, j', hadv.sound, hadv.power_none hpow, hadv.appends.log_eq, hcarries⟩
  intro staged s1 hwritten
  rcases hwritten with ⟨l, j1, hadv, hrecords, hpoints, hsegments⟩
  refine Ends.call (durabilityBarrier_ends hadv.sound staged) ?_ ?_
  · -- A barrier fails only if the power is lost.
    intro e s2 hfails
    rcases hfails with ⟨which, _, _, hlost⟩
    exact absurd (hadv.power_none hpow) hlost
  intro _ s2 hsyncs
  rcases hsyncs with ⟨which, hsyncs, hcovers⟩
  have hnone := hsyncs.power_none (hadv.power_none hpow)
  have howners := hsyncs.owners_eq.trans hadv.owners_eq
  have hsound : Sound p config { s2 with
      index := staged.foldl (fun index record => index.insert record.cid record) s2.index }
      (j1.sync which) := hsyncs.sound.of_eq rfl rfl le_rfl rfl
  refine Ends.modify_bind (Ends.expect ?_ ?_)
  · intro _
    exact ⟨l, j1.sync which, hsound, hnone, hadv.appends.log_eq, fun entry hent =>
      (carries_of_records hrecords hent).mono fun _ => mem_of_mem_filter⟩
  · intro results _
    refine ⟨l, j1.sync which, staged, ⟨hsound, ⟨j1, which, rfl, ?_, ?_⟩, howners, hnone⟩, hrecords,
      hpoints, ?_⟩
    · intro entry hent
      rcases hsegments entry hent with ⟨record, hrec, hsame⟩
      rw [← hsame]
      exact hcovers record hrec
    · show Appends SegmentHandle.owner j (ownerSegmentPaths s.disk) l j1 (ownerSegmentPaths s2.disk)
      rw [hsyncs.paths_eq]
      exact hadv.appends
    · show staged.foldl _ s2.index = _
      rw [hsyncs.index_eq, hadv.index_eq]

omit [DecidableEq Cid] in
theorem appendTombstone_ends (h : Sound p config s j) (hpow : s.power = none) (owner : Nat)
    (cid : Cid) :
    (appendTombstone p config owner cid).Ends s fun r s' =>
      match r with
      | .ok _ => ∃ handle id, handle.owner = owner ∧
          (∃ j', Commits p config s j [(handle, ⟨id, [.tombstone cid]⟩)] s' j') ∧
          s'.index = s.index.erase cid
      | .error _ => Advances p config s j [] s' j := by
  unfold appendTombstone
  refine takeSegmentId_ends ?_
  have hstart : Advances p config s j [] { s with nextSegmentId := s.nextSegmentId + 1 } j :=
    Advances.of_eq h rfl rfl le_rfl rfl rfl rfl id
  generalize hid : s.nextSegmentId % 2 ^ 64 = id
  rw [encodeTombstoneBatch_eq]
  refine Ends.ofExcept_bind ?_ ?_
  · intro e he
    cases he
  intro encoded henc
  rw [Except.ok.injEq] at henc
  subst henc
  refine Ends.call (ensureWriter_ends hstart.sound (Or.inr hpow)) ?_ ?_
  · intro e s1 hfails
    rcases hfails with ⟨l, j', hnone, ⟨_, hadv⟩ | ⟨hlost, _⟩⟩
    · cases l with
      | nil =>
        have hsame : j' = j := hadv.appends.journal_eq
        rw [hsame] at hadv
        exact hstart.trans hadv
      | cons entry l => exact (hnone entry mem_cons_self).elim
    · exact absurd hpow hlost
  intro w s1 hw
  rcases hw with ⟨hadv, hwriter, hroom⟩
  rw [Batch.length_encode] at hroom
  have hbef : Advances p config s j [] s1 j := hstart.trans hadv
  have hnone := hbef.power_none hpow
  rcases hbef.sound.writer owner w hwriter with ⟨hown, hvis, _, _⟩
  have hfits : (⟨id, [.tombstone cid]⟩ : Batch Cid).Fits := by
    refine ⟨?_, cons_ne_nil _ _, ?_, ?_⟩
    · rw [← hid]
      exact Nat.mod_lt _ (by decide)
    · intro record hrec
      rw [mem_singleton] at hrec
      rw [hrec]
      trivial
    · have hbytes := config.segmentBytes_lt
      omega
  unfold writeAligned
  refine Ends.bind (Ends.bind (onDisk_ends ?_ ?_))
  · intro hlost
    exact absurd hnone hlost
  intro power1 hpower1
  refine onDisk_ends ?_ ?_
  · intro hlost
    exact absurd (hpower1 hnone) hlost
  intro power2 hpower2
  have hnone2 : power2 = none := hpower2 (hpower1 hnone)
  refine Ends.modify_bind (Ends.modify ?_)
  -- The state after the write, before the sync.
  obtain ⟨s2, hs2⟩ : ∃ s2 : NativeInner Cid, s2 = { s1 with
    disk := s1.disk.write w.handle w.offset ((⟨id, [.tombstone cid]⟩ : Batch Cid).encode p)
    power := power2
    writers := Function.update s1.writers owner (some { w with
      offset := w.offset + (⟨id, [.tombstone cid]⟩ : Batch Cid).size }) } := ⟨_, rfl⟩
  have hwrite : Advances p config s1 j [(w.handle, ⟨id, [.tombstone cid]⟩)] s2
      (j.append w.handle ⟨id, [.tombstone cid]⟩) := by
    refine hbef.sound.append_advances hwriter hfits hroom ?_ ?_ ?_ ?_ ?_ ?_ ?_
    all_goals rw [hs2]
    exact fun _ => hnone2
  have hall := hbef.trans hwrite
  have hthere : w.handle ∈ s2.disk.visible := by
    rw [hs2, mem_visible_write]
    exact hvis
  have hsyncs : Syncs p config s2 (j.append w.handle ⟨id, [.tombstone cid]⟩)
      (fun handle => handle = w.handle) { s2 with disk := s2.disk.syncFile w.handle } :=
    hall.sound.settle (hall.sound.syncFile hthere) rfl rfl rfl rfl rfl fun hnone => hnone
  refine ⟨w.handle, id, hown, ⟨(j.append w.handle ⟨id, [.tombstone cid]⟩).sync
    fun handle => handle = w.handle, ?_, ⟨_, _, rfl, ?_, ?_⟩, ?_, hnone2⟩, ?_⟩
  · refine hsyncs.sound.of_eq ?_ ?_ ?_ ?_
    all_goals
      rw [hs2]
      try rw [Batch.length_encode]
  · intro entry hent
    rw [mem_singleton] at hent
    rw [hent]
    exact decide_eq_true rfl
  · have hpaths := hsyncs.paths_eq
    rw [hs2] at hpaths
    have happends := hall.appends
    rw [hs2] at happends
    rw [← hpaths] at happends
    exact happends
  · exact hbef.owners_eq
  · show s1.index.erase cid = _
    rw [hbef.index_eq]

omit [DecidableEq Cid] in
/-- A delete writes one tombstone, or nothing. -/
theorem delete_ends (h : Sound p config s j) (hpow : s.power = none) (cid : Cid) :
    (delete p config cid).Ends s fun r s' =>
      match r with
      | .ok _ => s.index.contains cid = false ∧ s' = s ∨
          s.index.contains cid = true ∧ ∃ handle id, handle.owner = ownerFor p s.owners cid ∧
            (∃ j', Commits p config s j [(handle, ⟨id, [.tombstone cid]⟩)] s' j') ∧
            s'.index = s.index.erase cid
      | .error _ => Advances p config s j [] s' j := by
  unfold delete
  refine Ends.get_bind ?_
  by_cases hcontains : s.index.contains cid = true
  · rw [if_pos hcontains]
    refine (appendTombstone_ends h hpow _ cid).mono ?_
    intro r s' hr
    cases r with
    | ok _ => exact Or.inr ⟨hcontains, hr⟩
    | error e => exact hr
  · rw [if_neg hcontains]
    exact Ends.pure (Or.inl ⟨Bool.not_eq_true _ ▸ hcontains, rfl⟩)

/-! ## Holding blocks -/

variable [Std.LawfulEqOrd Cid]

variable (p config) in
/-- An engine with a number of owners holds these blocks. The records of a block
    are all with one owner, its home. -/
structure Holds (owners : Nat) (home : Cid → Nat) (s : NativeInner Cid)
    (j : Journal SegmentHandle (Batch Cid)) (held : Cid → Option (EncodedBlock Cid)) : Prop where
  sound : Sound p config s j
  placed : ∀ handle, ∀ batch ∈ j.log handle, ∀ update ∈ batch.updates,
    home update.1 = handle.owner
  withstands : ∀ owner, Withstands Batch.updates j (ownerSegmentPaths s.disk owner)
    { cid | home cid = owner } held
  represents : Represents j.log s.index held
  owners_eq : s.owners = owners
  owners_pos : 0 < owners

omit [Ord Cid] [Std.TransOrd Cid] [DecidableEq Cid] [Std.LawfulEqOrd Cid] in
theorem flatMap_updates (batches : List (Batch Cid)) :
    batches.flatMap Batch.updates = (batches.flatMap Batch.records).map Record.update := by
  rw [map_flatMap]
  rfl

variable {owners : Nat} {home : Cid → Nat} {held held' : Cid → Option (EncodedBlock Cid)}

namespace Holds

omit [Std.LawfulEqOrd Cid]

/-- Batches that were made durable take effect. -/
theorem commit (h : Holds p config owners home s j held) {l : List (SegmentHandle × Batch Cid)}
    (hcommits : Commits p config s j l s' j')
    (hplaced : ∀ entry ∈ l, ∀ update ∈ entry.2.updates, home update.1 = entry.1.owner)
    (hheld : ∀ cid, outcome held (((l.filter fun entry => entry.1.owner = home cid).map
      Prod.snd).flatMap Batch.updates) cid = held' cid)
    (hrepresents : Represents j'.log s'.index held') :
    Holds p config owners home s' j' held' := by
  rcases hcommits.durable with ⟨written, which, rfl, hwhich, happends⟩
  refine ⟨hcommits.sound, ?_, ?_, hrepresents, hcommits.owners_eq.trans h.owners_eq, h.owners_pos⟩
  · intro handle batch hbat update hupd
    rcases happends.mem_log hbat with hold | hnew
    · exact h.placed handle batch hold update hupd
    · exact hplaced (handle, batch) hnew update hupd
  · intro owner kept hkept cid hcid
    have hsynced := happends.withstands_synced (paths_sharded s.disk)
      ((h.withstands owner).sync which) hwhich kept hkept cid hcid
    rw [hsynced, ← hheld cid, show home cid = owner from hcid]

/-- What a list of blocks that were missing makes of the ledger. -/
theorem outcome_missing (h : Holds p config owners home s j held)
    {blocks written : List (EncodedBlock Cid)} {cid : Cid}
    (hwritten : ∀ block, block.cid = cid →
      (block ∈ written ↔ block ∈ missingBlocks s.index [] blocks)) :
    outcome held (written.map fun block => (Record.data block).update) cid =
      putLedger held blocks cid := by
  have hidx : ∀ {c : Cid}, s.index.contains c = false ↔ held c = none := by
    intro c
    rw [← h.represents.none_iff c, Std.ExtTreeMap.contains_eq_isSome_getElem?,
      Option.isSome_eq_false_iff, Option.isNone_iff_eq_none]
  refine outcome_of_forall_eq ?_ ?_
  · intro update hupd hcid
    rcases mem_map.mp hupd with ⟨block, hblock, rfl⟩
    have hmissing := (hwritten block hcid).mp hblock
    rcases mem_missingBlocks_iff.mp hmissing with ⟨hfind, hnot, _⟩
    have hkey : block.cid = cid := hcid
    rw [hkey] at hnot hfind
    rw [putLedger, hidx.mp hnot, Option.none_or, hfind]
    rfl
  · rw [putLedger]
    cases hheld : held cid with
    | some block => exact Or.inl rfl
    | none =>
      rw [Option.none_or]
      cases hfind : blocks.find? (fun block => block.cid = cid) with
      | none => exact Or.inl rfl
      | some block =>
        right
        have hcid : block.cid = cid := by
          have hfound := find?_some hfind
          rw [decide_eq_true_eq] at hfound
          exact hfound
        subst hcid
        have hmissing : block ∈ missingBlocks s.index [] blocks :=
          mem_missingBlocks_iff.mpr ⟨hfind, hidx.mpr hheld, not_mem_nil⟩
        exact ⟨_, mem_map_of_mem ((hwritten block rfl).mpr hmissing), rfl⟩

end Holds

/-- A put that succeeds. The blocks that it writes are written at home. -/
theorem Holds.put (h : Holds p config owners home s j held) (hpow : s.power = none)
    (hfil : ∀ block ∈ blocks, block.bytes ≠ [])
    (hhome : ∀ block ∈ missingBlocks s.index [] blocks,
      ownerFor p s.owners block.cid = home block.cid) :
    (putBatch p config blocks).Ends s fun r s' =>
      match r with
      | .ok _ => s'.power = none ∧ ∃ j', Holds p config owners home s' j' (putLedger held blocks)
      | .error _ => True := by
  refine (putBatch_ends h.sound hpow hfil).mono ?_
  intro r s' hr
  cases r with
  | error e => trivial
  | ok results =>
    rcases hr with ⟨l, j', staged, hcommits, hrecords, hpoints, hidx⟩
    have hlt : ∀ cid, ownerFor p s.owners cid ∈ List.range s.owners := fun cid =>
      mem_range.mpr (Nat.mod_lt _ (h.owners_eq ▸ h.owners_pos))
    refine ⟨hcommits.power_none, j', h.commit hcommits ?_ ?_ ?_⟩
    · intro entry hent update hupd
      rcases mem_map.mp hupd with ⟨record, hrec, rfl⟩
      rcases (carries_of_records hrecords hent).2 record hrec with ⟨block, hblock, rfl⟩
      rw [mem_filter, decide_eq_true_eq] at hblock
      exact (hhome block hblock.1).symm.trans hblock.2
    · intro cid
      rw [flatMap_updates, hrecords]
      by_cases hown : home cid ∈ List.range s.owners
      · rw [if_pos hown, map_map]
        refine h.outcome_missing fun block hcid => ?_
        rw [mem_filter, decide_eq_true_eq]
        constructor
        · exact And.left
        · intro hmissing
          exact ⟨hmissing, by rw [hhome block hmissing, hcid]⟩
      · -- An identifier of another home is not in the put.
        rw [if_neg hown, map_nil]
        have hnone : ∀ block : EncodedBlock Cid, block.cid = cid →
            (block ∈ ([] : List (EncodedBlock Cid)) ↔
              block ∈ missingBlocks s.index [] blocks) := by
          intro block hcid
          refine ⟨fun hnil => absurd hnil not_mem_nil, fun hmissing => ?_⟩
          refine absurd ?_ hown
          rw [← hcid, ← hhome block hmissing]
          exact hlt _
        exact h.outcome_missing hnone
    · -- The index takes the staged records, which are what the ledger takes.
      rw [hidx]
      have hins := represents_install (h.represents.mono fun _ location _ =>
        hcommits.log_le location.segment) hpoints
      have hsame : outcome held (((List.range s.owners).flatMap fun owner =>
          (missingBlocks s.index [] blocks).filter fun block =>
            ownerFor p s.owners block.cid = owner).map fun block =>
            (Record.data block).update) = putLedger held blocks := by
        funext cid
        refine h.outcome_missing fun block _ => ?_
        simp only [mem_flatMap, mem_filter, decide_eq_true_eq]
        constructor
        · intro hmem
          rcases hmem with ⟨_, _, hmissing, _⟩
          exact hmissing
        · intro hmissing
          exact ⟨_, hlt block.cid, hmissing, rfl⟩
      rw [hsame] at hins
      exact hins

/-- A delete that succeeds. One that fails changes nothing. -/
theorem Holds.delete (h : Holds p config owners home s j held) (hpow : s.power = none) {cid : Cid}
    (hhome : s.index.contains cid = true → ownerFor p s.owners cid = home cid) :
    (Native.delete p config cid).Ends s fun r s' => s'.power = none ∧
      match r with
      | .ok _ => ∃ j', Holds p config owners home s' j' (Function.update held cid none)
      | .error _ => ∃ j', Holds p config owners home s' j' held := by
  refine (delete_ends h.sound hpow cid).mono ?_
  intro r s' hr
  cases r with
  | error e =>
    refine ⟨hr.power_none hpow, j, hr.sound, h.placed, fun owner => ?_, ?_,
      hr.owners_eq.trans h.owners_eq, h.owners_pos⟩
    · refine hr.appends.withstands_copy (paths_sharded s.disk) (h.withstands owner) ?_
      exact forall_mem_nil _
    · rw [hr.index_eq]
      exact h.represents
  | ok _ =>
    rcases hr with ⟨hnot, rfl⟩ | ⟨hcontains, handle, id, hown, ⟨j', hcommits⟩, hidx⟩
    · -- What is not indexed is not held either.
      have hnone : held cid = none := by
        rw [← h.represents.none_iff cid, ← Option.isNone_iff_eq_none, ← Option.isSome_eq_false_iff,
          ← Std.ExtTreeMap.contains_eq_isSome_getElem?]
        exact hnot
      refine ⟨hpow, j, ?_⟩
      rw [← hnone, Function.update_eq_self]
      exact h
    · have hhome' : handle.owner = home cid := hown.trans (hhome hcontains)
      refine ⟨hcommits.power_none, j', h.commit hcommits ?_ ?_ ?_⟩
      · intro entry hent update hupd
        rw [mem_singleton] at hent
        subst hent
        rw [Batch.updates, map_singleton, mem_singleton] at hupd
        subst hupd
        exact hhome'.symm
      · intro c
        by_cases hown' : handle.owner = home c
        · rw [filter_cons_of_pos (by exact decide_eq_true hown'), filter_nil,
            map_singleton, flatMap_singleton]
          rfl
        · rw [filter_cons_of_neg (by rw [decide_eq_true_eq]; exact hown'), filter_nil]
          have hne : c ≠ cid := by
            intro heq
            rw [heq] at hown'
            exact hown' hhome'
          rw [Function.update_of_ne hne]
          rfl
      · rw [hidx]
        exact (h.represents.mono fun _ location _ =>
          hcommits.log_le location.segment).erase cid

end Calls

end Native

end Pepper
