import Pepper.Core.Transactions

/-!
# What the Coordinator's Calls Do

One statement for each call of the coordinator: all the ways it can end, with
the answer and the memory it leaves.

Invariants of the coordinator are about its memory. Snapshot files, dirty flags
and the script of writes are left out here by comparing states with
`SameMemory`; the outcome of a call is then one of a few updates of one
producer's record.

## Main definitions

* `SameMemory`: Two states differ in their files at most.
* `Admitted`: What `prepareAppend` has checked before it looks at sequences.
* `PrepareOutcome`, `CompleteOutcome`, `CancelOutcome`, `EndOutcome`,
  `UpdateOutcome`: The ways a call can end.

## Theorems

* `prepareAppend_ends`, `completeAppend_ends`, `cancelAppend_ends`,
  `endTransaction_ends`, `initProducer_ends`, `addPartitions_ends`,
  `stageOffsets_ends`, `markOffsetsApplied_ends`, `flushDirty_ends`: Each call
  ends in one of these ways.
-/

namespace Pepper

namespace Kafka

open Fallible

namespace TransactionCoordinator

/-- The two states agree on everything but files, flags and script. -/
structure SameMemory (c c' : TransactionCoordinator) : Prop where
  shards : c'.shards = c.shards
  metadata : c'.metadata = c.metadata

variable {c : TransactionCoordinator} {α : Type}
  {Q : Except TransactionError α → TransactionCoordinator → Prop}

instance instIsPreorderSameMemory : IsPreorder TransactionCoordinator SameMemory where
  refl _ := ⟨rfl, rfl⟩
  trans _ _ _ hab hbc := ⟨hbc.shards.trans hab.shards, hbc.metadata.trans hab.metadata⟩

theorem SameMemory.producer {c' : TransactionCoordinator} (h : SameMemory c c') (pid : Int) :
    c'.producer pid = c.producer pid := by
  unfold TransactionCoordinator.producer
  rw [h.shards]

/-! ## Updates of one record -/

theorem producer_setProducer (c : TransactionCoordinator) (pid q : Int) (producer : ProducerState) :
    (c.setProducer pid producer).producer q = if pid = q then some producer else c.producer q := by
  unfold TransactionCoordinator.producer setProducer setShard
  by_cases hq : pid = q
  · subst hq
    rw [if_pos rfl]
    simp only [Function.update_self, getElem?_insert_eq, if_true]
  · rw [if_neg hq]
    by_cases hshard : producerShard q = producerShard pid
    · simp only [hshard, Function.update_self, getElem?_insert_eq, if_neg hq]
    · simp only [Function.update_of_ne hshard]

theorem producer_pushRanges (c : TransactionCoordinator) (pid q : Int)
    (ranges : List (TransactionPartition × AbortedRange)) :
    (c.pushRanges pid ranges).producer q = c.producer q := by
  unfold TransactionCoordinator.producer pushRanges setShard
  by_cases hshard : producerShard q = producerShard pid
  · simp only [hshard, Function.update_self]
  · simp only [Function.update_of_ne hshard]

theorem sequence_setSequence (producer : ProducerState) (part q : TransactionPartition)
    (sequence : SequenceState) :
    (producer.setSequence part sequence).sequence q =
      if part = q then sequence else producer.sequence q := by
  unfold ProducerState.sequence ProducerState.setSequence
  simp only [getElem?_insert_eq]
  by_cases hq : part = q
  · rw [if_pos hq, if_pos hq, Option.getD_some]
  · rw [if_neg hq, if_neg hq]

/-! ## Parts of calls -/

/-- The lookup of a producer at the start of a call. -/
theorem producerMut_bind {identity : ProducerIdentity} {f : ProducerState → CoordinatorM α}
    (hfail : ∀ e, Q (.error e) c)
    (hok : ∀ producer, c.producer identity.producerId = some producer →
      producer.epoch = identity.producerEpoch → (f producer).Ends c Q) :
    Ends (producerMut identity >>= f) c Q := by
  refine Ends.bind (Ends.get_bind ?_)
  refine Ends.expect_bind (fun _ => hfail _) fun producer hproducer => ?_
  exact Ends.require_bind (fun _ => hfail _) fun hepoch => Ends.pure (hok producer hproducer hepoch)

theorem putProducer_bind {pid : Int} {producer : ProducerState} {f : Unit → CoordinatorM α}
    (h : (f ()).Ends (c.setProducer pid producer) Q) :
    Ends (putProducer pid producer >>= f) c Q :=
  Ends.modify_bind h

theorem markDirty_ends (c : TransactionCoordinator) (shard : Fin transactionShards) :
    (markDirty shard).Ends c fun r c' => r = .ok () ∧ SameMemory c c' :=
  Ends.modify ⟨rfl, rfl, rfl⟩

theorem persistFile_same (write : TransactionCoordinator → TransactionCoordinator)
    (hwrite : ∀ c, SameMemory c (write c)) : (persistFile write).Moves SameMemory := by
  unfold persistFile
  refine Moves.bind (fun _ => ⟨rfl, rfl⟩) fun _ => Moves.require_bind fun _ => ?_
  exact Moves.bind (Moves.modify hwrite) fun _ => Moves.require

theorem persistMetadata_same : persistMetadata.Moves SameMemory :=
  persistFile_same _ fun _ => ⟨rfl, rfl⟩

theorem persistShard_same (shard : Fin transactionShards) : (persistShard shard).Moves SameMemory :=
  persistFile_same _ fun _ => ⟨rfl, rfl⟩

theorem flushShards_same (shards : List (Fin transactionShards)) (flushed : Nat) :
    (flushShards shards flushed).Moves SameMemory := by
  induction shards generalizing flushed with
  | nil => exact Moves.pure flushed
  | cons shard rest ih =>
    refine Moves.get_bind fun c => ?_
    by_cases hdirty : c.dirty shard = true
    · rw [if_pos hdirty]
      refine Moves.bind (Moves.modify fun _ => ⟨rfl, rfl⟩) fun _ => ?_
      refine Moves.bind (Moves.attempt (persistShard_same shard)) fun outcome => ?_
      cases outcome with
      | ok _ => exact ih _
      | error e => exact Moves.bind (Moves.modify fun _ => ⟨rfl, rfl⟩) fun _ => Moves.fail e
    · rw [if_neg hdirty]
      exact ih flushed

theorem flushDirty_ends (c : TransactionCoordinator) :
    flushDirty.Ends c fun _ c' => SameMemory c c' :=
  (flushShards_same _ 0).ends c

/-! ## The produce path -/

/-- What `prepareAppend` has checked before it looks at the sequence numbers. -/
structure Admitted (c : TransactionCoordinator) (partition : TransactionPartition)
    (identity : RecordBatchIdentity) (producer : ProducerState) : Prop where
  found : c.producer identity.producerId = some producer
  epoch : producer.epoch = identity.producerEpoch
  idempotent : 0 ≤ identity.producerId
  wellFormed : identity.control = false ∧ identity.recordCount ≠ 0 ∧ 0 ≤ identity.baseSequence
  transactional : identity.transactional = true →
    producer.status = .ongoing ∧ partition ∈ producer.partitions

/-- The record after `prepareAppend` has created the entry of the partition. -/
def touched (c : TransactionCoordinator) (part : TransactionPartition) (pid : Int)
    (producer : ProducerState) : TransactionCoordinator :=
  c.setProducer pid (producer.setSequence part (producer.sequence part))

/-- The ways `prepareAppend` can end. -/
inductive PrepareOutcome (c : TransactionCoordinator) (partition : TransactionPartition)
    (identity : RecordBatchIdentity) :
    Except TransactionError AppendDecision → TransactionCoordinator → Prop
  | refused (e : TransactionError) : PrepareOutcome c partition identity (.error e) c
  | nonIdempotent (h : identity.producerId < 0) :
      PrepareOutcome c partition identity (.ok .nonIdempotent) c
  | duplicate (producer : ProducerState) (h : Admitted c partition identity producer)
      (hbase : identity.baseSequence = (producer.sequence partition).lastBaseSequence)
      (hcount : identity.recordCount = (producer.sequence partition).lastRecordCount) :
      PrepareOutcome c partition identity
        (.ok (.duplicate (producer.sequence partition).lastBaseOffset))
        (c.touched partition identity.producerId producer)
  | outOfOrder (producer : ProducerState) (h : Admitted c partition identity producer) :
      PrepareOutcome c partition identity (.error .outOfOrderSequence)
        (c.touched partition identity.producerId producer)
  | append (producer : ProducerState) (h : Admitted c partition identity producer)
      (hnext : identity.baseSequence = (producer.sequence partition).nextSequence)
      (hpending : (producer.sequence partition).pending = none) :
      PrepareOutcome c partition identity (.ok .append)
        (c.setProducer identity.producerId (producer.setSequence partition
          { producer.sequence partition with
            pending := some (identity.baseSequence, identity.recordCount) }))

/-- Of two updates of one producer the last one counts. -/
theorem setProducer_setProducer (c : TransactionCoordinator) (pid : Int)
    (first second : ProducerState) :
    SameMemory (c.setProducer pid second) ((c.setProducer pid first).setProducer pid second) := by
  refine ⟨?_, rfl⟩
  funext shard
  unfold setProducer setShard
  by_cases hshard : shard = producerShard pid
  · subst hshard
    simp only [Function.update_self, TransactionState.mk.injEq, and_true]
    refine Std.ExtTreeMap.ext_getElem? ?_
    intro q
    simp only [getElem?_insert_eq]
    split
    · rfl
    · rfl
  · simp only [Function.update_of_ne hshard]

theorem prepareAppend_ends (c : TransactionCoordinator) (part : TransactionPartition)
    (identity : RecordBatchIdentity) :
    (prepareAppend part identity).Ends c fun r c' =>
      ∃ m, PrepareOutcome c part identity r m ∧ SameMemory m c' := by
  have href : ∀ e, ∃ m, PrepareOutcome c part identity (.error e) m ∧ SameMemory m c :=
    fun e => ⟨c, .refused e, refl_of SameMemory c⟩
  unfold prepareAppend
  by_cases hid : identity.producerId < 0
  · rw [if_pos hid]
    exact Ends.pure ⟨c, .nonIdempotent hid, refl_of SameMemory c⟩
  rw [if_neg hid]
  refine Ends.require_bind (fun _ => href _) fun hwf => ?_
  refine producerMut_bind href fun producer hproducer hepoch => ?_
  refine Ends.require_bind (fun _ => href _) fun htransactional => ?_
  have hadm : Admitted c part identity producer :=
    ⟨hproducer, hepoch, not_lt.mp hid, hwf, htransactional⟩
  refine putProducer_bind ?_
  by_cases hdup : identity.baseSequence = (producer.sequence part).lastBaseSequence ∧
      identity.recordCount = (producer.sequence part).lastRecordCount
  · rw [if_pos hdup]
    exact Ends.pure ⟨_, .duplicate producer hadm hdup.1 hdup.2, refl_of SameMemory _⟩
  rw [if_neg hdup]
  refine Ends.require_bind ?_ fun hnext => ?_
  · intro _
    exact ⟨_, .outOfOrder producer hadm, refl_of SameMemory _⟩
  · refine putProducer_bind ?_
    refine Ends.call (markDirty_ends _ _) (fun _ _ h => absurd h.1 (by simp)) ?_
    rintro _ c' ⟨_, hsame⟩
    exact Ends.pure ⟨_, .append producer hadm hnext.1 hnext.2,
      trans_of _ (setProducer_setProducer c identity.producerId _ _) hsame⟩

/-- The sequence state after a completed batch. -/
def completed (sequence : SequenceState) (identity : RecordBatchIdentity)
    (base last : Nat) : SequenceState :=
  if identity.transactional then
    (sequence.advance identity base last).beginAt base
  else sequence.advance identity base last

/-- The ways `completeAppend` can end. -/
inductive CompleteOutcome (c : TransactionCoordinator) (partition : TransactionPartition)
    (identity : RecordBatchIdentity) (baseOffset lastOffset : Nat) :
    Except TransactionError Unit → TransactionCoordinator → Prop
  | refused (e : TransactionError) :
      CompleteOutcome c partition identity baseOffset lastOffset (.error e) c
  | nonIdempotent (h : identity.producerId < 0) :
      CompleteOutcome c partition identity baseOffset lastOffset (.ok ()) c
  | completed (producer : ProducerState) (sequence : SequenceState)
      (hid : 0 ≤ identity.producerId)
      (hfound : c.producer identity.producerId = some producer)
      (hepoch : producer.epoch = identity.producerEpoch)
      (hsequence : producer.sequences[partition]? = some sequence)
      (hpending : sequence.pending = some (identity.baseSequence, identity.recordCount)) :
      CompleteOutcome c partition identity baseOffset lastOffset (.ok ())
        (c.setProducer identity.producerId (producer.setSequence partition
          (completed sequence identity baseOffset lastOffset)))

theorem completeAppend_ends (c : TransactionCoordinator) (part : TransactionPartition)
    (identity : RecordBatchIdentity) (base last : Nat) :
    (completeAppend part identity base last).Ends c fun r c' =>
      ∃ m, CompleteOutcome c part identity base last r m ∧ SameMemory m c' := by
  have href : ∀ e, ∃ m, CompleteOutcome c part identity base last (.error e) m ∧ SameMemory m c :=
    fun e => ⟨c, .refused e, refl_of SameMemory c⟩
  unfold completeAppend
  by_cases hid : identity.producerId < 0
  · rw [if_pos hid]
    exact Ends.pure ⟨c, .nonIdempotent hid, refl_of SameMemory c⟩
  rw [if_neg hid]
  refine producerMut_bind href fun producer hproducer hepoch => ?_
  refine Ends.expect_bind (fun _ => href _) fun sequence hsequence => ?_
  refine Ends.require_bind (fun _ => href _) fun hpending => ?_
  refine putProducer_bind ((markDirty_ends _ _).mono ?_)
  rintro r c' ⟨rfl, hsame⟩
  exact ⟨_, .completed producer sequence (not_lt.mp hid) hproducer hepoch hsequence hpending, hsame⟩

/-- The ways `cancelAppend` can end. -/
inductive CancelOutcome (c : TransactionCoordinator) (partition : TransactionPartition)
    (identity : RecordBatchIdentity) : TransactionCoordinator → Prop
  | unchanged : CancelOutcome c partition identity c
  | cancelled (producer : ProducerState) (sequence : SequenceState)
      (hfound : c.producer identity.producerId = some producer)
      (hepoch : producer.epoch = identity.producerEpoch)
      (hsequence : producer.sequences[partition]? = some sequence)
      (hpending : sequence.pending = some (identity.baseSequence, identity.recordCount)) :
      CancelOutcome c partition identity (c.setProducer identity.producerId
          (producer.setSequence partition { sequence with pending := none }))

theorem cancelAppend_ends (c : TransactionCoordinator) (part : TransactionPartition)
    (identity : RecordBatchIdentity) :
    (cancelAppend part identity).Ends c fun _ c' =>
      ∃ m, CancelOutcome c part identity m ∧ SameMemory m c' := by
  have hunchanged : ∃ m, CancelOutcome c part identity m ∧ SameMemory m c :=
    ⟨c, .unchanged, refl_of SameMemory c⟩
  unfold cancelAppend
  by_cases hid : identity.producerId < 0
  · rw [if_pos hid]
    exact Ends.pure hunchanged
  rw [if_neg hid]
  refine producerMut_bind (fun _ => hunchanged) fun producer hproducer hepoch => ?_
  rcases hsequence : producer.sequences[part]? with _ | sequence
  · exact Ends.pure hunchanged
  · by_cases hpending : sequence.pending = some (identity.baseSequence, identity.recordCount)
    · simp only [if_pos hpending]
      refine putProducer_bind ((markDirty_ends _ _).mono ?_)
      rintro r c' ⟨_, hsame⟩
      exact ⟨_, .cancelled producer sequence hproducer hepoch hsequence hpending, hsame⟩
    · simp only [if_neg hpending]
      exact Ends.pure hunchanged

/-! ## Calls that write a snapshot -/

/-- A call that replaces one producer's record and then writes the snapshot. -/
inductive UpdateOutcome (c : TransactionCoordinator) (identity : ProducerIdentity)
    (update : ProducerState → ProducerState) (allowed : ProducerState → Prop) :
    TransactionCoordinator → Prop
  | unchanged : UpdateOutcome c identity update allowed c
  | updated (producer : ProducerState) (hfound : c.producer identity.producerId = some producer)
      (hepoch : producer.epoch = identity.producerEpoch) (hallowed : allowed producer) :
      UpdateOutcome c identity update allowed (c.setProducer identity.producerId (update producer))

theorem update_ends (c : TransactionCoordinator) (identity : ProducerIdentity)
    {update : ProducerState → ProducerState} {allowed : ProducerState → Prop}
    [DecidablePred allowed] {e : TransactionError} :
    Ends (do
      let producer ← producerMut identity
      require (allowed producer) e
      putProducer identity.producerId (update producer)
      persistShard (producerShard identity.producerId) : CoordinatorM Unit) c fun _ c' =>
        ∃ m, UpdateOutcome c identity update allowed m ∧ SameMemory m c' := by
  refine producerMut_bind (fun _ => ⟨c, .unchanged, refl_of SameMemory c⟩)
    fun producer hproducer hepoch => ?_
  refine Ends.require_bind (fun _ => ⟨c, .unchanged, refl_of SameMemory c⟩) fun hallowed => ?_
  refine putProducer_bind (((persistShard_same _).ends _).mono fun _ _ hsame => ?_)
  exact ⟨_, .updated producer hproducer hepoch hallowed, hsame⟩

theorem addPartitions_ends (c : TransactionCoordinator) (identity : ProducerIdentity)
    (partitions : List TransactionPartition) (nowMs : Nat) :
    (addPartitions identity partitions nowMs).Ends c fun _ c' =>
      ∃ m, UpdateOutcome c identity (fun producer => { producer with
          partitions := partitions.foldl (fun set part => set.insert part) producer.partitions
          status := .ongoing
          deadlineMs := min (nowMs + producer.timeoutMs) (2 ^ 64 - 1) })
        (fun producer => producer.transactionalId.isSome = true) m ∧ SameMemory m c' :=
  update_ends c identity

theorem stageOffsets_ends (c : TransactionCoordinator) (identity : ProducerIdentity)
    (offsets : List PendingOffset) :
    (stageOffsets identity offsets).Ends c fun _ c' =>
      ∃ m, UpdateOutcome c identity (fun producer => { producer with
          pendingOffsets := offsets, offsetsApplied := false })
        (fun producer => producer.status = .ongoing) m ∧ SameMemory m c' :=
  update_ends c identity

theorem markOffsetsApplied_ends (c : TransactionCoordinator) (identity : ProducerIdentity) :
    (markOffsetsApplied identity).Ends c fun _ c' =>
      ∃ m, UpdateOutcome c identity (fun producer => { producer with
          offsetsApplied := true, pendingOffsets := [] })
        (fun producer => producer.status = .committed) m ∧ SameMemory m c' :=
  update_ends c identity

/-- The memory after a transaction has ended. -/
def ended (c : TransactionCoordinator) (pid : Int) (producer : ProducerState)
    (commit : Bool) : TransactionCoordinator :=
  (c.setProducer pid (endedProducer producer commit)).pushRanges pid
    (if commit then [] else abortRanges pid producer)

/-- The ways `endTransaction` can end. -/
inductive EndOutcome (c : TransactionCoordinator) (identity : ProducerIdentity) (commit : Bool) :
    TransactionCoordinator → Prop
  | unchanged : EndOutcome c identity commit c
  | ended (producer : ProducerState) (hfound : c.producer identity.producerId = some producer)
      (hepoch : producer.epoch = identity.producerEpoch) (hongoing : producer.status = .ongoing) :
      EndOutcome c identity commit (c.ended identity.producerId producer commit)

theorem endTransaction_ends (c : TransactionCoordinator) (identity : ProducerIdentity)
    (commit : Bool) :
    (endTransaction identity commit).Ends c fun _ c' =>
      ∃ m, EndOutcome c identity commit m ∧ SameMemory m c' := by
  have hunchanged : ∃ m, EndOutcome c identity commit m ∧ SameMemory m c :=
    ⟨c, .unchanged, refl_of SameMemory c⟩
  unfold endTransaction
  refine producerMut_bind (fun _ => hunchanged) fun producer hproducer hepoch => ?_
  by_cases hdone : producer.status = (if commit then .committed else .aborted)
  · rw [if_pos hdone]
    exact Ends.pure hunchanged
  rw [if_neg hdone]
  refine Ends.require_bind (fun _ => hunchanged) fun hongoing => ?_
  refine putProducer_bind (Ends.modify_bind ?_)
  have hended : ∀ c', SameMemory (c.ended identity.producerId producer commit) c' →
      ∃ m, EndOutcome c identity commit m ∧ SameMemory m c' :=
    fun c' hsame => ⟨_, .ended producer hproducer hepoch hongoing, hsame⟩
  exact Ends.call ((persistShard_same _).ends _) (fun _ _ hsame => hended _ hsame)
    fun _ _ hsame => Ends.pure (hended _ hsame)

/-- The memory after a producer has been initialised. -/
def initialised (c : TransactionCoordinator) (tid : Option String)
    (timeoutMs nowMs : Nat) : TransactionCoordinator :=
  { c.setProducer (c.producerIdFor tid)
      (newProducer tid (c.epochFor (c.producerIdFor tid)) timeoutMs nowMs) with
    metadata := c.metadataFor tid }

theorem initProducer_ends (c : TransactionCoordinator) (tid : Option String)
    (timeoutMs nowMs : Nat) :
    (initProducer tid timeoutMs nowMs).Ends c fun _ c' =>
      SameMemory (c.initialised tid timeoutMs nowMs) c' := by
  unfold initProducer
  refine Ends.get_bind (putProducer_bind (Ends.modify_bind ?_))
  refine Ends.call (persistMetadata_same.ends _) (fun _ _ hsame => hsame) ?_
  intro _ c1 h1
  exact Ends.call ((persistShard_same _).ends c1) (fun _ _ h2 => trans_of _ h1 h2)
    fun _ _ h2 => Ends.pure (trans_of _ h1 h2)

end TransactionCoordinator

end Kafka

end Pepper
