import Pepper.Theory.Transactions.Steps

/-!
# The Last Batch of a Producer

What the coordinator remembers about the batch a producer completed last in a
partition. A retry is recognised by it and answered from it.

Only completing a batch in the partition changes it, and initialising the
producer forgets it. Every other call leaves it alone, whatever its arguments
and however it ends.

## Main definitions

* `LastBatch`, `lastBatch`: The remembered batch.
* `Recalls`: Nothing new is remembered.
* `ChangesElsewhere`: The call is not about an append in the partition.

## Theorems

* `step_recalls`: Calls that are not about an append in the partition.
* `prepareAppend_recalls`, `cancelAppend_recalls`: Neither are these.
* `completeAppend_lastBatch`: What completing a batch leaves.
-/

namespace Pepper

namespace Kafka

open Fallible

/-- A completed batch as the coordinator remembers it. -/
structure LastBatch where
  producerEpoch : Int
  baseSequence : Int
  recordCount : Nat
  baseOffset : Nat
  lastOffset : Nat
deriving DecidableEq, Repr

/-- The batch a sequence state is about; a fresh one is about none. -/
def SequenceState.lastBatch (sequence : SequenceState) (epoch : Int) : Option LastBatch :=
  if 0 ≤ sequence.lastBaseSequence then
    some ⟨epoch, sequence.lastBaseSequence, sequence.lastRecordCount, sequence.lastBaseOffset,
      sequence.lastOffset⟩
  else none

def ProducerState.lastBatch (producer : ProducerState) (part : TransactionPartition) :
    Option LastBatch :=
  (producer.sequence part).lastBatch producer.epoch

theorem lastBatch_setSequence (producer : ProducerState) (part q : TransactionPartition)
    (sequence : SequenceState) :
    (producer.setSequence q sequence).lastBatch part =
      if q = part then sequence.lastBatch producer.epoch else producer.lastBatch part := by
  unfold ProducerState.lastBatch
  rw [TransactionCoordinator.sequence_setSequence]
  by_cases hq : q = part
  · rw [if_pos hq, if_pos hq]
    rfl
  · rw [if_neg hq, if_neg hq]
    rfl

namespace TransactionCoordinator

def lastBatch (c : TransactionCoordinator) (part : TransactionPartition)
    (pid : Int) : Option LastBatch :=
  (c.producer pid).bind fun producer => producer.lastBatch part

/-- Every batch remembered afterwards was remembered before. -/
def Recalls (part : TransactionPartition) (c c' : TransactionCoordinator) : Prop :=
  ∀ pid batch, c'.lastBatch part pid = some batch → c.lastBatch part pid = some batch

variable {part : TransactionPartition}

instance instIsPreorderRecalls : IsPreorder TransactionCoordinator (Recalls part) where
  refl _ _ _ h := h
  trans _ _ _ hab hbc pid batch h := hab pid batch (hbc pid batch h)

variable {c : TransactionCoordinator} {producer : ProducerState} {pid : Int}

theorem SameMemory.recalls {c' : TransactionCoordinator} (h : SameMemory c c') :
    Recalls part c c' := by
  intro pid batch hbat
  unfold lastBatch at hbat ⊢
  rwa [h.producer] at hbat

/-- Replacing a record by one that remembers the same, or nothing. -/
theorem recalls_setProducer (h : ∀ batch, producer.lastBatch part = some batch →
      c.lastBatch part pid = some batch) :
    Recalls part c (c.setProducer pid producer) := by
  intro q batch hbat
  unfold lastBatch at hbat
  rw [producer_setProducer] at hbat
  by_cases hq : pid = q
  · subst hq
    rw [if_pos rfl] at hbat
    exact h batch hbat
  · rw [if_neg hq] at hbat
    exact hbat

theorem lastBatch_of_producer (h : c.producer pid = some producer) :
    c.lastBatch part pid = producer.lastBatch part := by
  unfold lastBatch
  rw [h, Option.bind_some]

/-- A new sequence state that is about the same batch. -/
theorem recalls_setSequence (hfound : c.producer pid = some producer)
    {q : TransactionPartition} {sequence : SequenceState}
    (h : sequence.lastBatch producer.epoch = producer.lastBatch q) :
    Recalls part c (c.setProducer pid (producer.setSequence q sequence)) := by
  refine recalls_setProducer ?_
  intro batch hbat
  rw [lastBatch_of_producer hfound]
  rw [lastBatch_setSequence] at hbat
  by_cases hq : q = part
  · subst hq
    rw [if_pos rfl, h] at hbat
    exact hbat
  · rw [if_neg hq] at hbat
    exact hbat

/-! ## The produce path -/

theorem prepareAppend_recalls (q : TransactionPartition) (identity : RecordBatchIdentity) :
    (prepareAppend q identity).Moves (Recalls part) := by
  intro c
  rcases prepareAppend_ends c q identity with ⟨m, hm, hsame⟩
  refine trans_of _ ?_ hsame.recalls
  generalize (prepareAppend q identity c).1 = r at hm
  cases hm with
  | refused e => exact refl_of _ c
  | nonIdempotent h => exact refl_of _ c
  | duplicate producer h hbase hcount => exact recalls_setSequence h.found rfl
  | outOfOrder producer h => exact recalls_setSequence h.found rfl
  | append producer h hnext hpending => exact recalls_setSequence h.found rfl

theorem cancelAppend_recalls (q : TransactionPartition) (identity : RecordBatchIdentity) :
    (cancelAppend q identity).Moves (Recalls part) := by
  intro c
  rcases cancelAppend_ends c q identity with ⟨m, hm, hsame⟩
  refine trans_of _ ?_ hsame.recalls
  cases hm with
  | unchanged => exact refl_of _ c
  | cancelled producer sequence hfound hepoch hseq hpending =>
    refine recalls_setSequence hfound ?_
    unfold ProducerState.lastBatch ProducerState.sequence
    rw [hseq, Option.getD_some]
    rfl

theorem lastBatch_completed (sequence : SequenceState) (identity : RecordBatchIdentity)
    (baseOffset last : Nat) (epoch : Int) :
    (completed sequence identity baseOffset last).lastBatch epoch =
      if 0 ≤ identity.baseSequence then
        some ⟨epoch, identity.baseSequence, identity.recordCount, baseOffset, last⟩
      else none := by
  unfold completed
  split
  · rfl
  · rfl

/-- What is remembered after a batch has been completed. -/
theorem completeAppend_lastBatch (part : TransactionPartition) (c : TransactionCoordinator)
    (q : TransactionPartition) (identity : RecordBatchIdentity) (baseOffset last : Nat) :
    (completeAppend q identity baseOffset last).Ends c fun r c' =>
      ∀ pid batch, c'.lastBatch part pid = some batch → c.lastBatch part pid = some batch ∨
          (r = .ok () ∧ q = part ∧ pid = identity.producerId ∧
            batch = ⟨identity.producerEpoch, identity.baseSequence, identity.recordCount,
              baseOffset, last⟩) := by
  refine (completeAppend_ends c q identity baseOffset last).mono ?_
  rintro r c' ⟨m, hm, hsame⟩ pid batch hbat
  have hmem : m.lastBatch part pid = some batch :=
    hsame.recalls pid batch hbat
  cases hm with
  | refused e => exact Or.inl hmem
  | nonIdempotent h => exact Or.inl hmem
  | completed producer sequence hid hfound hepoch hseq hpending =>
    unfold lastBatch at hmem
    rw [producer_setProducer] at hmem
    by_cases hq : identity.producerId = pid
    · subst hq
      rw [if_pos rfl, Option.bind_some, lastBatch_setSequence] at hmem
      by_cases hpartition : q = part
      · rw [if_pos hpartition, lastBatch_completed, hepoch] at hmem
        by_cases hbase : 0 ≤ identity.baseSequence
        · rw [if_pos hbase, Option.some.injEq] at hmem
          exact Or.inr ⟨rfl, hpartition, rfl, hmem.symm⟩
        · rw [if_neg hbase] at hmem
          cases hmem
      · rw [if_neg hpartition] at hmem
        exact Or.inl (by rw [lastBatch_of_producer hfound]; exact hmem)
    · rw [if_neg hq] at hmem
      exact Or.inl hmem

/-! ## The other calls -/

/-- A call that leaves sequence states alone. -/
theorem recalls_of_update {c' : TransactionCoordinator} {identity : ProducerIdentity}
    {update : ProducerState → ProducerState} {allowed : ProducerState → Prop}
    (h : ∃ m, UpdateOutcome c identity update allowed m ∧ SameMemory m c')
    (hupd : ∀ producer, (update producer).lastBatch part = producer.lastBatch part) :
    Recalls part c c' := by
  rcases h with ⟨m, hm, hsame⟩
  refine trans_of _ ?_ hsame.recalls
  cases hm with
  | unchanged => exact refl_of _ c
  | updated producer hfound hepoch hallowed =>
    refine recalls_setProducer ?_
    intro batch hbat
    rw [hupd] at hbat
    rw [lastBatch_of_producer hfound]
    exact hbat

theorem lastBatch_endedProducer (producer : ProducerState) (commit : Bool) :
    (endedProducer producer commit).lastBatch part = producer.lastBatch part := by
  unfold ProducerState.lastBatch ProducerState.sequence endedProducer
  simp only [Std.ExtTreeMap.getElem?_map]
  cases producer.sequences[part]? with
  | none => rfl
  | some sequence => rfl

theorem endTransaction_recalls (identity : ProducerIdentity) (commit : Bool) :
    (endTransaction identity commit).Moves (Recalls part) := by
  intro c
  rcases endTransaction_ends c identity commit with ⟨m, hm, hsame⟩
  refine trans_of _ ?_ hsame.recalls
  cases hm with
  | unchanged => exact refl_of _ c
  | ended producer hfound hepoch hong =>
    intro pid batch hbat
    unfold lastBatch ended at hbat
    rw [producer_pushRanges] at hbat
    refine recalls_setProducer ?_ pid batch hbat
    intro batch' hbat'
    rw [lastBatch_endedProducer] at hbat'
    rw [lastBatch_of_producer hfound]
    exact hbat'

theorem initProducer_recalls (tid : Option String) (timeoutMs nowMs : Nat) :
    (initProducer tid timeoutMs nowMs).Moves (Recalls part) := by
  intro c
  refine trans_of _ ?_ (SameMemory.recalls (initProducer_ends c _ _ _))
  have hnew : Recalls part c (c.setProducer (c.producerIdFor tid)
      (newProducer tid (c.epochFor (c.producerIdFor tid)) timeoutMs nowMs)) := by
    refine recalls_setProducer ?_
    intro batch hbat
    unfold ProducerState.lastBatch ProducerState.sequence newProducer at hbat
    simp [SequenceState.lastBatch, SequenceState.fresh] at hbat
  exact hnew

theorem expire_recalls (nowMs : Nat) : (expire nowMs).Moves (Recalls part) := by
  unfold expire
  refine Moves.get_bind fun c => ?_
  refine Moves.bind (Moves.forM _ fun identity _ => ?_) fun _ => Moves.pure _
  exact Moves.bind (endTransaction_recalls identity false) fun _ => Moves.pure ()

/-- The call is not part of an append in the partition. -/
def ChangesElsewhere (part : TransactionPartition) : CoordinatorOp → Prop
  | .prepareAppend q _ => q ≠ part
  | .completeAppend q _ _ _ => q ≠ part
  | .cancelAppend q _ => q ≠ part
  | _ => True

theorem step_recalls (c : TransactionCoordinator) (op : CoordinatorOp)
    (h : ChangesElsewhere part op) : Recalls part c (c.step op) := by
  cases op with
  | initProducer tid timeoutMs nowMs => exact initProducer_recalls _ _ _ c
  | addPartitions identity partitions nowMs =>
    exact recalls_of_update (addPartitions_ends c identity partitions nowMs) fun _ => rfl
  | prepareAppend q identity => exact prepareAppend_recalls q identity c
  | completeAppend q identity baseOffset last =>
    intro pid batch hbat
    rcases completeAppend_lastBatch part c q identity baseOffset last pid batch
      hbat with hold | ⟨_, hq, _⟩
    · exact hold
    · exact absurd hq h
  | cancelAppend q identity => exact cancelAppend_recalls q identity c
  | stageOffsets identity offsets =>
    exact recalls_of_update (stageOffsets_ends c identity offsets) fun _ => rfl
  | endTransaction identity commit => exact endTransaction_recalls identity commit c
  | markOffsetsApplied identity =>
    exact recalls_of_update (markOffsetsApplied_ends c identity) fun _ => rfl
  | expire nowMs => exact expire_recalls nowMs c
  | flushDirty => exact SameMemory.recalls (flushDirty_ends c)

end TransactionCoordinator

end Kafka

end Pepper
