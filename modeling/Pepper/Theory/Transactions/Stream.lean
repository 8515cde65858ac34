import Pepper.Theory.Transactions.Steps

/-!
# The Stream of an Idempotent Producer

A client numbers the records it sends to a partition and starts again at zero
after `2 ^ 31` of them. The coordinator expects the number after the last batch,
but its successor stops at `2 ^ 31 - 1`. Up to there the two agree.

At the bound they do not: the batch at zero is refused, so the producer is stuck,
and since the expected number stays the same, another batch may take the position
of one that was accepted.

## Main definitions

* `Numbered`: The client's rule.
* `appendAll`: Batches that are prepared and completed one after the other.
* `Awaits`: The coordinator is ready for the batch with a given number.

## Theorems

* `appendOne_awaits`: One batch is accepted.
* `short_stream_appended`: The statement about whole streams.
-/

namespace Pepper

namespace Kafka

open Fallible List

/-- The number after each batch, modulo `2 ^ 31`. -/
def Numbered : Int → List RecordBatchIdentity → Prop
  | _, [] => True
  | next, batch :: rest =>
    batch.baseSequence = next ∧ Numbered ((next + batch.recordCount) % 2 ^ 31) rest

/-- A batch with the offsets at which it is appended. -/
structure Appended where
  batch : RecordBatchIdentity
  baseOffset : Nat
  lastOffset : Nat

/-- What the batches of one producer have in common. -/
structure SentBy (producerId : Int) (producer : ProducerState) (partition : TransactionPartition)
    (batch : RecordBatchIdentity) : Prop where
  sender : batch.producerId = producerId
  idempotent : 0 ≤ producerId
  epoch : producer.epoch = batch.producerEpoch
  data : batch.control = false ∧ batch.recordCount ≠ 0
  transactional : batch.transactional = true →
    producer.status = .ongoing ∧ partition ∈ producer.partitions

namespace TransactionCoordinator

def appendOne (partition : TransactionPartition) (a : Appended) : CoordinatorM AppendDecision := do
  let decision ← prepareAppend partition a.batch
  completeAppend partition a.batch a.baseOffset a.lastOffset
  pure decision

def appendAll (partition : TransactionPartition) : List Appended →
    CoordinatorM (List AppendDecision)
  | [] => pure []
  | a :: rest => do
      let decision ← appendOne partition a
      let decisions ← appendAll partition rest
      pure (decision :: decisions)

/-- The coordinator is ready for the batch with the given number. -/
def Awaits (producerId : Int) (producer : ProducerState) (partition : TransactionPartition)
    (next : Int) (c : TransactionCoordinator) : Prop :=
  ∃ current, c.producer producerId = some current ∧ current.epoch = producer.epoch ∧
    current.status = producer.status ∧ current.partitions = producer.partitions ∧
    (current.sequence partition).nextSequence = next ∧
    (current.sequence partition).pending = none ∧
    (current.sequence partition).lastBaseSequence < next

variable {c c' : TransactionCoordinator} {producerId : Int} {producer : ProducerState}
  {partition : TransactionPartition} {a : Appended} {stream : List Appended} {next : Int} {α : Type}
  {Q : Except TransactionError α → TransactionCoordinator → Prop}

theorem producerMut_found {identity : ProducerIdentity} {f : ProducerState → CoordinatorM α}
    (hfound : c.producer identity.producerId = some producer)
    (hepoch : producer.epoch = identity.producerEpoch) (h : (f producer).Ends c Q) :
    Ends (producerMut identity >>= f) c Q :=
  Ends.bind (Ends.get_bind (Ends.expect_some hfound (Ends.require_pos hepoch (Ends.pure h))))

/-- The batch that is awaited is accepted, and then the one after it is awaited. -/
theorem appendOne_awaits (h : Awaits producerId producer partition next c)
    (hsent : SentBy producerId producer partition a.batch) (hbase : a.batch.baseSequence = next)
    (hnext : 0 ≤ next) (hroom : next + a.batch.recordCount < 2 ^ 31) :
    (appendOne partition a).Ends c fun r c' => r = .ok .append ∧
      Awaits producerId producer partition (next + a.batch.recordCount) c' := by
  rcases h with ⟨current, hfound, hepoch', hstatus, hpartitions, hexpected, hpending, hlast⟩
  rcases hsent with ⟨rfl, hid, hepoch, hdata, htransactional⟩
  have hsuccessor : saturatingAddSigned (2 ^ 31 - 1) a.batch.baseSequence
      (asI32 a.batch.recordCount) = next + a.batch.recordCount := by
    unfold saturatingAddSigned asI32
    have hsmall : a.batch.recordCount % 2 ^ 32 = a.batch.recordCount := by omega
    rw [hsmall, if_pos (by omega), hbase]
    omega
  rw [← hepoch'] at hepoch
  rw [← hstatus, ← hpartitions] at htransactional
  unfold appendOne prepareAppend completeAppend
  rw [if_neg (not_lt.mpr hid), if_neg (not_lt.mpr hid)]
  refine Ends.bind (Ends.require_pos ⟨hdata.1, hdata.2, hbase ▸ hnext⟩ ?_)
  refine producerMut_found hfound hepoch (Ends.require_pos htransactional (putProducer_bind ?_))
  -- The number is new, so the batch is no retry.
  rw [if_neg fun hretry => by omega]
  refine Ends.require_pos ⟨hbase.trans hexpected.symm, hpending⟩ (putProducer_bind ?_)
  refine Ends.call (markDirty_ends _ _) (fun _ _ h => absurd h.1 (by simp)) ?_
  rintro _ c1 ⟨_, hsame⟩
  refine Ends.pure ?_
  have hfound1 := hsame.producer a.batch.producerId
  rw [producer_setProducer, if_pos rfl] at hfound1
  refine Ends.bind (producerMut_found hfound1 hepoch ?_)
  refine Ends.expect_some Std.ExtTreeMap.getElem?_insert_self (Ends.require_pos rfl ?_)
  refine putProducer_bind ((markDirty_ends _ _).mono ?_)
  rintro _ c2 ⟨rfl, hsame2⟩
  have hfound2 := hsame2.producer a.batch.producerId
  rw [producer_setProducer, if_pos rfl] at hfound2
  refine ⟨rfl, _, hfound2, hepoch', hstatus, hpartitions, ?_⟩
  · rw [sequence_setSequence, if_pos rfl]
    have hlater : a.batch.baseSequence < next + a.batch.recordCount := by omega
    split <;> exact ⟨hsuccessor, rfl, hlater⟩

/-- All batches of a short stream are accepted, and all are before the awaited number. -/
theorem appendAll_awaits (h : Awaits producerId producer partition next c) (hnext : 0 ≤ next)
    (hsent : ∀ a ∈ stream, SentBy producerId producer partition a.batch)
    (hnum : Numbered next (stream.map (·.batch)))
    (hshort : next + (stream.map (·.batch.recordCount)).sum < 2 ^ 31) :
    (appendAll partition stream).Ends c fun r c' =>
      r = .ok (List.replicate stream.length .append) ∧ ∃ last,
        Awaits producerId producer partition last c' ∧
          next ≤ last ∧ ∀ a ∈ stream, a.batch.baseSequence < last := by
  induction stream generalizing c next with
  | nil => exact ⟨rfl, next, h, le_rfl, forall_mem_nil _⟩
  | cons a rest ih =>
    rw [forall_mem_cons] at hsent
    rw [map_cons, Numbered] at hnum
    rw [map_cons, sum_cons] at hshort
    rw [Int.emod_eq_of_lt (by omega) (by omega)] at hnum
    refine Ends.call (appendOne_awaits h hsent.1 hnum.1 hnext (by omega))
      (fun _ _ h => absurd h.1 (by simp)) ?_
    rintro _ c1 ⟨⟨⟩, h1⟩
    refine Ends.call (ih h1 (by omega) hsent.2 hnum.2 (by omega))
      (fun _ _ h => absurd h.1 (by simp)) ?_
    rintro _ c2 ⟨⟨⟩, last, hlast, hle, hbef⟩
    refine Ends.pure ⟨rfl, last, hlast, by omega, forall_mem_cons.mpr ⟨?_, hbef⟩⟩
    have hcount := hsent.1.data.2
    rw [hnum.1]
    omega

/-- While a producer has sent fewer than `2 ^ 31` records to a partition, all its
    batches are appended, and no other batch is accepted at the position of one
    of them. -/
theorem short_stream_appended (hfound : c.producer producerId = some producer)
    (hfresh : producer.sequence partition = .fresh)
    (hsent : ∀ a ∈ stream, SentBy producerId producer partition a.batch)
    (hnumbered : Numbered 0 (stream.map (·.batch)))
    (hshort : (stream.map (·.batch.recordCount)).sum < 2 ^ 31) :
    (appendAll partition stream).Ends c fun r c' =>
      r = .ok (List.replicate stream.length .append) ∧
      ∀ a ∈ stream, ∀ other : RecordBatchIdentity, other.producerId = producerId →
        other.baseSequence = a.batch.baseSequence →
        (prepareAppend partition other c').1 ≠ .ok .append := by
  have hawaits : Awaits producerId producer partition 0 c :=
    ⟨producer, hfound, rfl, rfl, rfl, by rw [hfresh]; decide⟩
  refine (appendAll_awaits hawaits le_rfl hsent hnumbered (by omega)).mono ?_
  rintro r c' ⟨rfl, last, ⟨current, hfound', _, _, _, rfl, _⟩, _, hbefore⟩
  refine ⟨rfl, fun a ha other hid hbase haccepted => ?_⟩
  rcases prepareAppend_ends c' partition other with ⟨m, hm, _⟩
  rw [haccepted] at hm
  cases hm with
  | append producer' hadmitted hnext hpending =>
    cases Option.mem_unique (hid ▸ hadmitted.found) hfound'
    have hlt := hbefore a ha
    rw [← hbase, hnext] at hlt
    exact lt_irrefl _ hlt

/-- A coordinator with one producer, and a batch of that producer. -/
def oneProducer : TransactionCoordinator :=
  (initProducer none 100 0 TransactionCoordinator.empty).2

def sentAt (baseSequence : Int) (count : Nat) : Appended :=
  ⟨⟨false, false, 1, 0, baseSequence, count⟩, 0, 0⟩

theorem short_stream_appended_two :
    (appendAll ⟨"events", 0⟩ [sentAt 0 5, sentAt 5 7]).Ends oneProducer fun r c' =>
      r = .ok [.append, .append] ∧
      ∀ a ∈ [sentAt 0 5, sentAt 5 7], ∀ other : RecordBatchIdentity, other.producerId = 1 →
        other.baseSequence = a.batch.baseSequence →
        (prepareAppend ⟨"events", 0⟩ other c').1 ≠ .ok .append := by
  have hfound : oneProducer.producer 1 = some (newProducer none 0 100 0) := rfl
  refine short_stream_appended hfound rfl ?_ ⟨rfl, by decide, trivial⟩ (by decide)
  simp only [mem_cons, not_mem_nil, or_false]
  rintro a (rfl | rfl)
  · exact ⟨rfl, by decide, rfl, by decide, fun h => by cases h⟩
  · exact ⟨rfl, by decide, rfl, by decide, fun h => by cases h⟩

/-- After `2 ^ 31 - 1` records and one more the client starts again at zero and is
    refused, and another batch is accepted where the last one was. -/
theorem long_stream_refused :
    let stream := [sentAt 0 (2 ^ 31 - 1), sentAt (2 ^ 31 - 1) 1]
    let c := (appendAll ⟨"events", 0⟩ stream oneProducer).2
    Numbered 0 ((stream ++ [sentAt 0 1]).map (·.batch)) ∧
      (appendAll ⟨"events", 0⟩ stream oneProducer).1 = .ok [.append, .append] ∧
      (prepareAppend ⟨"events", 0⟩ (sentAt 0 1).batch c).1 = .error .outOfOrderSequence ∧
      (prepareAppend ⟨"events", 0⟩ (sentAt (2 ^ 31 - 1) 2).batch c).1 = .ok .append := by
  refine ⟨⟨rfl, by decide, by decide, trivial⟩, ?_⟩
  decide +kernel

end TransactionCoordinator

end Kafka

end Pepper
