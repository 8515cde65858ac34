import Pepper.Base.Runs
import Pepper.Theory.Transactions.Steps

/-!
# Transactions over Whole Runs

What a transaction of a producer leaves behind for the next one. A producer has
one record, which all its transactions share: the partitions of a transaction,
its deadline, and the offsets it has staged are overwritten, extended or kept by
whatever call comes next.

Sequence states play no part in this, so records are compared by their outlines.
What one call can do to an outline is said once, and the invariants are read off
that. `expire` is taken apart as the code takes its locks: a sweep looks at one
shard after another, and then aborts what it has found one by one, with other
calls in between.

## Main definitions

* `outline`, `records`: The records without sequence states.
* `RecordStep`: What one call does to one record.
* `Sweep`, `Activity`: A coordinator with the calls of `expire` that are under
  way, and the history of its transactions.
* `NamesAgain`, `OffsetsApplied`, `LeavesFound`: Conditions on calls.

## Theorems

* `step_records`, `recoverPartition_records`: Every call, by what it does.
* `prepareAppend_accepts_named`: Which partitions a transaction may write to.
* `committed_offsets_pending`: Committed offsets wait until they are applied.
* `expire_aborts_overdue`: What a sweep aborts.
-/

namespace Pepper

namespace Kafka

open Fallible List

/-- A record without its sequence states. -/
def ProducerState.outline (producer : ProducerState) : ProducerState :=
  { producer with sequences := ∅ }

def TransactionState.outlines (state : TransactionState) (q : Int) : Option ProducerState :=
  state.producers[q]?.map ProducerState.outline

namespace TransactionCoordinator

def records (c : TransactionCoordinator) (shard : Fin transactionShards) :
    Int → Option ProducerState :=
  (c.shards shard).outlines

/-- The outline of the record that calls for a producer find. -/
def outline (c : TransactionCoordinator) (q : Int) : Option ProducerState :=
  c.records (producerShard q) q

variable {c : TransactionCoordinator} {q : Int}
  {producer : ProducerState} {c' m : TransactionCoordinator} {op : CoordinatorOp}

theorem outline_of_producer (h : c.producer q = some producer) :
    c.outline q = some producer.outline :=
  congrArg (Option.map ProducerState.outline) h

theorem producer_of_outline {p : ProducerState} (h : c.outline q = some p) :
    ∃ producer, c.producer q = some producer ∧ producer.outline = p :=
  Option.map_eq_some_iff.mp h

theorem SameMemory.records (h : SameMemory c c') : c'.records = c.records := by
  unfold TransactionCoordinator.records
  rw [h.shards]

/-- One record is written. -/
def Rewritten (c c' : TransactionCoordinator) (q : Int) (new : ProducerState) : Prop :=
  ∀ shard k, c'.records shard k =
    if producerShard q = shard ∧ q = k then some new.outline else c.records shard k

theorem rewritten_setProducer (c : TransactionCoordinator) (q : Int) (new : ProducerState) :
    Rewritten c (c.setProducer q new) q new := by
  intro shard k
  unfold records TransactionState.outlines setProducer setShard
  by_cases hshard : producerShard q = shard
  · subst hshard
    by_cases hk : q = k
    · simp [hk]
    · simp [getElem?_insert_eq, hk]
  · simp [Function.update_of_ne (Ne.symm hshard), hshard]

theorem records_setShard {shard : Fin transactionShards} {state : TransactionState}
    (h : state.outlines = (c.shards shard).outlines) :
    (c.setShard shard state).records = c.records := by
  funext s
  by_cases hs : s = shard
  · subst hs
    simp only [records, setShard, Function.update_self, h]
  · simp only [records, setShard, Function.update_of_ne hs]

/-- New sequence states do not show. -/
theorem records_touched {new : ProducerState} (hfound : c.producer q = some producer)
    (h : new.outline = producer.outline) : (c.setProducer q new).records = c.records := by
  funext shard k
  rw [rewritten_setProducer c q new shard k, h]
  split
  · next hat =>
      rcases hat with ⟨rfl, rfl⟩
      exact (outline_of_producer hfound).symm
  · rfl

/-! ## One call -/

/-- What one call does to the record of one producer. -/
inductive RecordStep (c : TransactionCoordinator) : CoordinatorOp → Int → ProducerState → Prop
  | initialised (transactionalId : Option String) (timeoutMs nowMs : Nat) (epoch : Int) :
      RecordStep c (.initProducer transactionalId timeoutMs nowMs)
        (c.producerIdFor transactionalId) (newProducer transactionalId epoch timeoutMs nowMs)
  | extended (identity : ProducerIdentity) (partitions : List TransactionPartition) (nowMs : Nat)
      (p : ProducerState) (hfound : c.producer identity.producerId = some p)
      (hepoch : p.epoch = identity.producerEpoch) (hid : p.transactionalId.isSome = true) :
      RecordStep c (.addPartitions identity partitions nowMs) identity.producerId { p with
          partitions := partitions.foldl (fun set partition => set.insert partition) p.partitions
          status := .ongoing
          deadlineMs := min (nowMs + p.timeoutMs) (2 ^ 64 - 1) }
  | staged (identity : ProducerIdentity) (offsets : List PendingOffset) (p : ProducerState)
      (hfound : c.producer identity.producerId = some p) (hongoing : p.status = .ongoing) :
      RecordStep c (.stageOffsets identity offsets) identity.producerId
        { p with pendingOffsets := offsets, offsetsApplied := false }
  | ended (identity : ProducerIdentity) (commit : Bool) (p : ProducerState)
      (hfound : c.producer identity.producerId = some p)
      (hepoch : p.epoch = identity.producerEpoch) (hongoing : p.status = .ongoing) :
      RecordStep c (.endTransaction identity commit) identity.producerId (endedProducer p commit)
  | applied (identity : ProducerIdentity) (p : ProducerState)
      (hfound : c.producer identity.producerId = some p)
      (hepoch : p.epoch = identity.producerEpoch) (hcommitted : p.status = .committed) :
      RecordStep c (.markOffsetsApplied identity) identity.producerId
        { p with offsetsApplied := true, pendingOffsets := [] }

/-- The records after a call: the same, or one of them is written. -/
def Recorded (c : TransactionCoordinator) (op : CoordinatorOp) (c' : TransactionCoordinator) :
    Prop :=
  c'.records = c.records ∨ ∃ q new, RecordStep c op q new ∧ Rewritten c c' q new

theorem Recorded.same (h : Recorded c op m) (hsame : SameMemory m c') : Recorded c op c' := by
  unfold Recorded Rewritten at h ⊢
  rwa [hsame.records]

theorem UpdateOutcome.recorded {identity : ProducerIdentity}
    {update : ProducerState → ProducerState} {allowed : ProducerState → Prop}
    (h : UpdateOutcome c identity update allowed m)
    (hstep : ∀ p, c.producer identity.producerId = some p → p.epoch = identity.producerEpoch →
      allowed p → RecordStep c op identity.producerId (update p)) : Recorded c op m := by
  cases h with
  | unchanged => exact Or.inl rfl
  | updated p hfound hepoch hallowed =>
    exact Or.inr ⟨_, _, hstep p hfound hepoch hallowed, rewritten_setProducer c _ _⟩

theorem step_records (c : TransactionCoordinator) (op : CoordinatorOp)
    (hop : ∀ nowMs, op ≠ .expire nowMs) : Recorded c op (c.step op) := by
  cases op with
  | initProducer tid timeoutMs nowMs =>
    have hnew := rewritten_setProducer c (c.producerIdFor tid)
      (newProducer tid (c.epochFor (c.producerIdFor tid)) timeoutMs nowMs)
    have hrec : Recorded c _ (c.initialised tid timeoutMs nowMs) :=
      Or.inr ⟨_, _, .initialised tid timeoutMs nowMs _, hnew⟩
    exact hrec.same (initProducer_ends c tid timeoutMs nowMs)
  | addPartitions identity partitions nowMs =>
    rcases addPartitions_ends c identity partitions nowMs with ⟨m, hm, hsame⟩
    exact (hm.recorded (.extended identity partitions nowMs)).same hsame
  | prepareAppend part identity =>
    rcases prepareAppend_ends c part identity with ⟨m, hm, hsame⟩
    refine Recorded.same (Or.inl ?_) hsame
    -- A verdict on sequence numbers leaves the record of a transaction alone.
    generalize (prepareAppend part identity c).1 = r at hm
    cases hm with
    | refused e => rfl
    | nonIdempotent h => rfl
    | duplicate producer h hbase hcount => exact records_touched h.found rfl
    | outOfOrder producer h => exact records_touched h.found rfl
    | append producer h hnext hpending => exact records_touched h.found rfl
  | completeAppend part identity base last =>
    rcases completeAppend_ends c part identity base last with ⟨m, hm, hsame⟩
    refine Recorded.same (Or.inl ?_) hsame
    generalize (completeAppend part identity base last c).1 = r at hm
    cases hm with
    | refused e => rfl
    | nonIdempotent h => rfl
    | completed producer sequence hid hfound hepoch hseq hpending =>
      exact records_touched hfound rfl
  | cancelAppend part identity =>
    rcases cancelAppend_ends c part identity with ⟨m, hm, hsame⟩
    refine Recorded.same (Or.inl ?_) hsame
    cases hm with
    | unchanged => rfl
    | cancelled producer sequence hfound hepoch hseq hpending =>
      exact records_touched hfound rfl
  | stageOffsets identity offsets =>
    rcases stageOffsets_ends c identity offsets with ⟨m, hm, hsame⟩
    exact (hm.recorded fun p hfound _ => .staged identity offsets p hfound).same hsame
  | endTransaction identity commit =>
    rcases endTransaction_ends c identity commit with ⟨m, hm, hsame⟩
    refine Recorded.same ?_ hsame
    cases hm with
    | unchanged => exact Or.inl rfl
    | ended p hfound hepoch hongoing =>
      have hpush : (c.ended identity.producerId p commit).records =
          (c.setProducer identity.producerId (endedProducer p commit)).records :=
        records_setShard rfl
      refine Or.inr ⟨_, _, .ended identity commit p hfound hepoch hongoing, ?_⟩
      unfold Rewritten
      rw [hpush]
      exact rewritten_setProducer c _ _
  | markOffsetsApplied identity =>
    rcases markOffsetsApplied_ends c identity with ⟨m, hm, hsame⟩
    exact (hm.recorded (.applied identity)).same hsame
  | expire nowMs => exact absurd rfl (hop nowMs)
  | flushDirty => exact Recorded.same (Or.inl rfl) (flushDirty_ends c)

/-! ## Recovery of a partition -/

theorem outlines_replay (part : TransactionPartition) (shard : Fin transactionShards)
    (acc : TransactionState × Bool) (batch : LoggedBatch) :
    (TransactionState.replay part shard acc batch).1.outlines = acc.1.outlines := by
  unfold TransactionState.replay
  split
  · rfl
  · next producer htarget =>
      -- The target is in the shard already, so no record is created.
      have hfound : acc.1.producers[batch.identity.producerId]? = some producer := by
        unfold TransactionState.replayTarget at htarget
        split at htarget
        · cases htarget
        · exact (Option.filter_eq_some_iff.mp htarget).1
      funext q
      unfold TransactionState.outlines
      rw [getElem?_insert_eq]
      split
      · next hq => rw [← hq, hfound]; rfl
      · rfl

theorem outlines_recovered (state : TransactionState) (part : TransactionPartition)
    (batches : List LoggedBatch) (shard : Fin transactionShards) :
    (state.recovered part batches shard).1.outlines = state.outlines := by
  have hfold : ∀ acc : TransactionState × Bool,
      (batches.foldl (TransactionState.replay part shard) acc).1.outlines = acc.1.outlines := by
    induction batches with
    | nil => intro acc; rfl
    | cons batch rest ih => intro acc; rw [foldl_cons, ih, outlines_replay]
  unfold TransactionState.recovered
  rw [hfold]
  funext q
  unfold TransactionState.outlines TransactionState.clearPending
  simp only [Std.ExtTreeMap.getElem?_map, Option.map_map]
  rfl

theorem recoverPartition_records (part : TransactionPartition) (batches : List LoggedBatch) :
    (recoverPartition part batches).Moves fun c c' => c'.records = c.records := by
  have hpre : IsPreorder TransactionCoordinator fun c c' => c'.records = c.records :=
    { refl := fun _ => rfl, trans := fun _ _ _ hab hbc => hbc.trans hab }
  unfold recoverPartition
  refine Moves.forM _ fun shard _ c => ?_
  have hshard := records_setShard (outlines_recovered (c.shards shard) part batches shard)
  refine Ends.get_bind (Ends.modify_bind ?_)
    (Q := fun _ (c' : TransactionCoordinator) => c'.records = c.records)
  split
  · exact ((persistShard_same shard).ends _).mono fun _ _ h => h.records.trans hshard
  · exact Ends.pure hshard

end TransactionCoordinator

/-! ## Calls that overlap a sweep -/

open TransactionCoordinator

/-- A transaction that a sweep has found, with its number among those of the
    producer. -/
structure Collected where
  identity : ProducerIdentity
  begun : Nat
deriving DecidableEq, Repr

/-- A call of `expire` under way: the shards it has not looked at yet, and what
    it has found and not aborted yet. -/
structure Sweep where
  nowMs : Nat
  shards : List (Fin transactionShards)
  found : List Collected
deriving DecidableEq, Repr

/-- A coordinator in use. How many transactions each producer has begun, which
    partitions it has named since one ended, and which committed offsets have
    been handed out and not applied is history, which the code does not keep. -/
structure Activity where
  coordinator : TransactionCoordinator
  sweeps : List Sweep
  begun : Int → Nat
  named : Int → List TransactionPartition
  owed : List (ProducerIdentity × List PendingOffset)

namespace TransactionCoordinator

/-- The producer is known by this identity, and its record passes a check. -/
def Knows (c : TransactionCoordinator) (identity : ProducerIdentity)
    (check : ProducerState → Prop) : Prop :=
  ∃ p ∈ c.producer identity.producerId, p.epoch = identity.producerEpoch ∧ check p

instance instDecidableKnows (c : TransactionCoordinator) (identity : ProducerIdentity)
    (check : ProducerState → Prop) [DecidablePred check] : Decidable (c.Knows identity check) :=
  inferInstanceAs (Decidable (∃ p ∈ c.producer identity.producerId, _))

def Ongoing (c : TransactionCoordinator) (q : Int) : Prop :=
  ∃ p ∈ c.outline q, p.status = .ongoing

instance instDecidableOngoing (c : TransactionCoordinator) (q : Int) : Decidable (c.Ongoing q) :=
  inferInstanceAs (Decidable (∃ p ∈ c.outline q, _))

/-- The partitions a call names for a producer. -/
def names (c : TransactionCoordinator) (q : Int) : CoordinatorOp → List TransactionPartition
  | .addPartitions identity partitions _ =>
    if identity.producerId = q ∧ c.Knows identity (·.transactionalId.isSome = true) then
      partitions
    else []
  | _ => []

/-- The offsets handed out and not applied, after a call. -/
def settle (c : TransactionCoordinator) (owed : List (ProducerIdentity × List PendingOffset)) :
    CoordinatorOp → List (ProducerIdentity × List PendingOffset)
  | .endTransaction identity true =>
    match (endTransaction identity true c).1 with
    | .ok (offset :: offsets) => (identity, offset :: offsets) :: owed
    | _ => owed
  | .markOffsetsApplied identity =>
    if c.Knows identity (·.status = .committed) then
      owed.filter fun entry => entry.1 ≠ identity
    else owed
  | _ => owed

/-- The transactions past their deadline in one shard. -/
def overdueIn (c : TransactionCoordinator) (nowMs : Nat) (shard : Fin transactionShards) :
    List ProducerIdentity :=
  ((c.shards shard).producers.toList.filter fun (_, producer) =>
    decide (producer.status = .ongoing ∧ producer.deadlineMs ≤ nowMs)).map
      fun (pid, producer) => ⟨pid, producer.epoch⟩

end TransactionCoordinator

/-- A call, or the next lock that one of the sweeps takes. -/
inductive ActivityOp where
  | call (op : CoordinatorOp)
  | recoverPartition (partition : TransactionPartition) (batches : List LoggedBatch)
  | scan (sweep : Nat)
  | abort (sweep : Nat)
deriving DecidableEq, Repr

namespace Activity

/-- A coordinator that has just been opened over an empty directory. -/
def opened (script : Nat → Outcome) : Activity :=
  ⟨{ TransactionCoordinator.empty with script := script }, [], fun _ => 0, fun _ => [], []⟩

def perform (a : Activity) (op : CoordinatorOp) : Activity :=
  let c := a.coordinator
  let c' := c.step op
  { a with
    coordinator := c'
    begun := fun q => if ¬ c.Ongoing q ∧ c'.Ongoing q then a.begun q + 1 else a.begun q
    named := fun q => if c.Ongoing q ∧ ¬ c'.Ongoing q then [] else a.named q ++ c.names q op
    owed := c.settle a.owed op }

/-- An error of one abort ends the sweep. -/
def step (a : Activity) : ActivityOp → Activity
  | .call (.expire nowMs) =>
    { a with sweeps := a.sweeps ++ [⟨nowMs, List.finRange transactionShards, []⟩] }
  | .call op => a.perform op
  | .recoverPartition part batches =>
    { a with
      coordinator := (TransactionCoordinator.recoverPartition part batches a.coordinator).2 }
  | .scan i =>
    match a.sweeps[i]? with
    | some ⟨nowMs, shard :: rest, found⟩ =>
      { a with
        sweeps := a.sweeps.set i ⟨nowMs, rest, found ++
          (a.coordinator.overdueIn nowMs shard).map fun identity =>
            ⟨identity, a.begun identity.producerId⟩⟩ }
    | _ => a
  | .abort i =>
    match a.sweeps[i]? with
    | some ⟨nowMs, [], next :: rest⟩ =>
      { a.perform (.endTransaction next.identity false) with
        sweeps := a.sweeps.set i ⟨nowMs, [],
          match (endTransaction next.identity false a.coordinator).1 with
          | .ok _ => rest
          | .error _ => []⟩ }
    | _ => a

/-! ### One step -/

/-- The transaction is found by a sweep for this time, and not aborted yet. -/
def FoundAt (a : Activity) (nowMs : Nat) (f : Collected) : Prop :=
  ∃ sweep ∈ a.sweeps, sweep.nowMs = nowMs ∧ f ∈ sweep.found

/-- A step that is no call: no record and no history changes, and what sweeps
    have found more is overdue. -/
structure Quiet (a a' : Activity) : Prop where
  records : a'.coordinator.records = a.coordinator.records
  begun : a'.begun = a.begun
  named : a'.named = a.named
  owed : a'.owed = a.owed
  found : ∀ nowMs f, a'.FoundAt nowMs f → a.FoundAt nowMs f ∨
    (∃ shard, f.identity ∈ a.coordinator.overdueIn nowMs shard) ∧
      f.begun = a.begun f.identity.producerId

theorem Quiet.refl (a : Activity) : Quiet a a :=
  ⟨rfl, rfl, rfl, rfl, fun _ _ h => Or.inl h⟩

variable {a a' : Activity}

theorem Quiet.outline (h : Quiet a a') (q : Int) :
    a'.coordinator.outline q = a.coordinator.outline q :=
  congrFun (congrFun h.records _) _

/-- A step that makes a call, for itself or for a sweep. -/
structure Calls (a : Activity) (op : ActivityOp) (call : CoordinatorOp) (a' : Activity) : Prop where
  expire : ∀ nowMs, call ≠ .expire nowMs
  origin : op = .call call ∨ ∃ identity, call = .endTransaction identity false
  coordinator : a'.coordinator = a.coordinator.step call
  begun : a'.begun = (a.perform call).begun
  named : a'.named = (a.perform call).named
  owed : a'.owed = (a.perform call).owed
  found : ∀ nowMs f, a'.FoundAt nowMs f → a.FoundAt nowMs f

/-- What is found after one sweep has moved on. -/
theorem foundAt_set {i : Nat} {sweep new : Sweep} {nowMs : Nat} {f : Collected}
    (hi : a.sweeps[i]? = some sweep) (h : a'.FoundAt nowMs f)
    (hset : a'.sweeps = a.sweeps.set i new) (hnow : new.nowMs = sweep.nowMs) :
    a.FoundAt nowMs f ∨ nowMs = sweep.nowMs ∧ f ∈ new.found ∧ f ∉ sweep.found := by
  rcases h with ⟨s, hs, rfl, hf⟩
  rw [hset] at hs
  rcases mem_or_eq_of_mem_set hs with hold | rfl
  · exact Or.inl ⟨s, hold, rfl, hf⟩
  · by_cases hmem : f ∈ sweep.found
    · exact Or.inl ⟨sweep, mem_of_getElem? hi, hnow.symm, hmem⟩
    · exact Or.inr ⟨hnow, hf, hmem⟩

theorem step_cases (a : Activity) (op : ActivityOp) :
    Quiet a (a.step op) ∨ ∃ call, Calls a op call (a.step op) := by
  cases op with
  | call op =>
    by_cases hop : ∃ nowMs, op = .expire nowMs
    · rcases hop with ⟨nowMs, rfl⟩
      refine Or.inl ⟨rfl, rfl, rfl, rfl, ?_⟩
      rintro now f ⟨sweep, hsweep, hnow, hf⟩
      rcases mem_append.mp hsweep with hold | hnew
      · exact Or.inl ⟨sweep, hold, hnow, hf⟩
      · rw [mem_singleton.mp hnew] at hf
        cases hf
    · have hstep : a.step (.call op) = a.perform op := by
        cases op with
        | expire nowMs => exact absurd ⟨nowMs, rfl⟩ hop
        | _ => rfl
      rw [hstep]
      exact Or.inr ⟨op, fun nowMs h => hop ⟨nowMs, h⟩, Or.inl rfl, rfl, rfl, rfl, rfl,
        fun _ _ h => h⟩
  | recoverPartition part batches =>
    exact Or.inl ⟨recoverPartition_records part batches _, rfl, rfl, rfl, fun _ _ h => Or.inl h⟩
  | scan i =>
    refine Or.inl ?_
    simp only [step]
    split
    · next nowMs shard rest found hi =>
        refine ⟨rfl, rfl, rfl, rfl, fun now f hf => ?_⟩
        rcases foundAt_set hi hf rfl rfl with hold | ⟨rfl, hmem, hnew⟩
        · exact Or.inl hold
        · rcases mem_append.mp hmem with hold | hscan
          · exact absurd hold hnew
          · rcases mem_map.mp hscan with ⟨identity, hoverdue, rfl⟩
            exact Or.inr ⟨⟨shard, hoverdue⟩, rfl⟩
    · exact Quiet.refl a
  | abort i =>
    simp only [step]
    split
    · next nowMs next rest hi =>
        refine Or.inr ⟨.endTransaction next.identity false, (fun _ h => nomatch h),
          Or.inr ⟨_, rfl⟩, rfl, rfl, rfl, rfl, fun now f hf => ?_⟩
        rcases foundAt_set hi hf rfl rfl with hold | ⟨_, hmem, hnew⟩
        · exact hold
        · split at hmem
          · exact absurd (mem_cons_of_mem _ hmem) hnew
          · cases hmem
    · exact Or.inl (Quiet.refl a)

end Activity

namespace TransactionCoordinator

theorem step_outline (c : TransactionCoordinator) {op : CoordinatorOp}
    (hop : ∀ nowMs, op ≠ .expire nowMs) (k : Int) :
    (c.step op).outline k = c.outline k ∨
      ∃ new, RecordStep c op k new ∧ (c.step op).outline k = some new.outline := by
  rcases step_records c op hop with hsame | ⟨q, new, hstep, hnew⟩
  · exact Or.inl (congrFun (congrFun hsame _) _)
  · have hk := hnew (producerShard k) k
    by_cases hq : q = k
    · subst hq
      rw [if_pos ⟨rfl, rfl⟩] at hk
      exact Or.inr ⟨new, hstep, hk⟩
    · rw [if_neg fun h => hq h.2] at hk
      exact Or.inl hk

end TransactionCoordinator

/-! ## Partitions of a transaction -/

namespace Activity

variable {c : TransactionCoordinator} {p : ProducerState} {a : Activity}
  {q : Int} {identity : ProducerIdentity} {nowMs : Nat} {op : ActivityOp}
  {entry : ProducerIdentity × List PendingOffset} {call : CoordinatorOp}

theorem ongoing_of_outline (h : c.outline q = some p) (hongoing : p.status = .ongoing) :
    c.Ongoing q :=
  ⟨p, h, hongoing⟩

/-- The arguments of a call that extends a transaction or begins one. -/
def extension : ActivityOp → Option (ProducerIdentity × List TransactionPartition × Nat)
  | .call (.addPartitions identity partitions nowMs) => some (identity, partitions, nowMs)
  | _ => none

theorem Calls.extension {a' : Activity} {partitions : List TransactionPartition}
    (h : Calls a op (.addPartitions identity partitions nowMs) a') :
    Activity.extension op = some (identity, partitions, nowMs) := by
  rcases h.origin with rfl | ⟨_, hend⟩
  · rfl
  · cases hend

/-- When the producer begins a transaction and its record still has the partition
    from an earlier one, the call names the partition. -/
def NamesAgain (q : Int) (x : TransactionPartition) (a : Activity) (op : ActivityOp) : Prop :=
  ∀ e ∈ extension op, e.1.producerId = q → ¬ a.coordinator.Knows e.1 fun p =>
    p.transactionalId.isSome = true ∧ p.status ≠ .ongoing ∧ x ∈ p.partitions ∧ x ∉ e.2.1

instance instDecidableNamesAgain (q : Int) (x : TransactionPartition) (a : Activity)
    (op : ActivityOp) : Decidable (NamesAgain q x a op) :=
  inferInstanceAs (Decidable (∀ e ∈ extension op, _ → _))

/-- A transaction of the producer writes to the partition only if it was named
    since the last one ended. -/
def Named (q : Int) (x : TransactionPartition) (a : Activity) : Prop :=
  ∀ p, a.coordinator.outline q = some p → p.status = .ongoing → x ∈ p.partitions → x ∈ a.named q

theorem mem_foldl_insert {x : TransactionPartition} (partitions : List TransactionPartition)
    (set : BTreeSet TransactionPartition)
    (h : x ∈ partitions.foldl (fun set part => set.insert part) set) :
    x ∈ set ∨ x ∈ partitions := by
  induction partitions generalizing set with
  | nil => exact Or.inl h
  | cons part rest ih =>
    rcases ih _ h with hset | hrest
    · rw [Std.ExtTreeSet.mem_insert, Std.LawfulEqCmp.compare_eq_iff_eq] at hset
      rcases hset with rfl | hset
      · exact Or.inr mem_cons_self
      · exact Or.inl hset
    · exact Or.inr (mem_cons_of_mem _ hrest)

theorem named_step {x : TransactionPartition} (a : Activity) (op : ActivityOp) (h : Named q x a)
    (hagain : NamesAgain q x a op) : Named q x (a.step op) := by
  rcases step_cases a op with hquiet | ⟨call, hcalls⟩
  · intro p hp
    rw [hquiet.named]
    exact h p (by rwa [← hquiet.outline])
  · intro p hp hongoing hx
    rw [hcalls.coordinator] at hp
    have hnamed : (a.step op).named q = a.named q ++ a.coordinator.names q call := by
      rw [hcalls.named]
      exact if_neg fun hend => hend.2 (ongoing_of_outline hp hongoing)
    rw [hnamed, mem_append]
    -- A record that was ongoing already has all its partitions named.
    have hold : ∀ p0, a.coordinator.producer q = some p0 → p0.status = .ongoing →
        x ∈ p0.partitions → x ∈ a.named q :=
      fun p0 hfound hstatus hmem => h _ (outline_of_producer hfound) hstatus hmem
    rcases step_outline a.coordinator hcalls.expire q with hsame | ⟨new, hstep, hnew⟩
    · exact Or.inl (h p (by rwa [← hsame]) hongoing hx)
    · cases Option.mem_unique hnew hp
      cases hstep with
      | initialised tid timeoutMs nowMs epoch => cases hongoing
      | extended identity partitions nowMs p0 hfound hepoch hid =>
        have hnames : a.coordinator.names identity.producerId
            (.addPartitions identity partitions nowMs) = partitions :=
          if_pos ⟨rfl, p0, hfound, hepoch, hid⟩
        rw [hnames]
        rcases mem_foldl_insert partitions p0.partitions hx with hmem | hmem
        · by_cases hstate : p0.status = .ongoing
          · exact Or.inl (hold p0 hfound hstate hmem)
          · -- A new transaction: the call names the partition again.
            by_contra hnot
            exact hagain _ hcalls.extension rfl ⟨p0, hfound, hepoch, hid, hstate, hmem,
              fun hx' => hnot (Or.inr hx')⟩
        · exact Or.inr hmem
      | staged identity offsets p0 hfound hstate => exact Or.inl (hold p0 hfound hstate hx)
      | ended identity commit p0 hfound hepoch hstate => cases commit <;> cases hongoing
      | applied identity p0 hfound hepoch hcommitted =>
        rw [show p0.status = .ongoing from hongoing] at hcommitted
        cases hcommitted

theorem outline_opened (script : Nat → Outcome) (q : Int) :
    (opened script).coordinator.outline q = none := by
  unfold TransactionCoordinator.outline records TransactionState.outlines opened
  simp [TransactionCoordinator.empty, TransactionState.default]

/-- A transactional batch is accepted for a partition only if the transaction has
    named it. -/
theorem prepareAppend_accepts_named {script : Nat → Outcome} {a : Activity}
    {partition : TransactionPartition} {identity : RecordBatchIdentity} {decision : AppendDecision}
    (h : Reaches step (NamesAgain identity.producerId partition) (opened script) a)
    (hproducer : 0 ≤ identity.producerId) (htransactional : identity.transactional = true)
    (haccepted : (prepareAppend partition identity a.coordinator).1 = .ok decision) :
    partition ∈ a.named identity.producerId := by
  have hopened : Named identity.producerId partition (opened script) := by
    intro p hp
    rw [outline_opened] at hp
    cases hp
  have hnamed : Named identity.producerId partition a := h.invariant named_step hopened
  have hadmitted : ∀ p, Admitted a.coordinator partition identity p →
      partition ∈ a.named identity.producerId := by
    intro p hp
    rcases hp.transactional htransactional with ⟨hongoing, hmem⟩
    exact hnamed _ (outline_of_producer hp.found) hongoing hmem
  rcases prepareAppend_ends a.coordinator partition identity with ⟨m, hm, _⟩
  rw [haccepted] at hm
  cases hm with
  | nonIdempotent hid => omega
  | duplicate p hp hbase hcount => exact hadmitted p hp
  | append p hp hnext hpending => exact hadmitted p hp

/-- A producer with a transactional identifier, and the batch it sends. -/
def producerOne : ProducerIdentity := ⟨1, 0⟩

def partitionAt (number : Int) : TransactionPartition := ⟨"events", number⟩

def firstBatch : RecordBatchIdentity := ⟨true, false, 1, 0, 0, 1⟩

/-- One transaction over a partition, committed, and another one. -/
def twoTransactions (second : List TransactionPartition) : List ActivityOp :=
  [.call (.initProducer (some "orders") 100 0),
  .call (.addPartitions producerOne [partitionAt 0] 0),
    .call (.endTransaction producerOne true), .call (.addPartitions producerOne second 0)]

/-- The second transaction names the partition of the batch again. -/
theorem prepareAppend_accepts_named_again : partitionAt 0 ∈ (runOps step (opened fun _ => .done)
      (twoTransactions [partitionAt 0, partitionAt 1])).named firstBatch.producerId := by
  have haccepted : (prepareAppend (partitionAt 0) firstBatch (runOps step (opened fun _ => .done)
      (twoTransactions [partitionAt 0, partitionAt 1])).coordinator).1 = .ok .append := by
    decide +kernel
  exact prepareAppend_accepts_named (reaches_runOps _ _ (by decide +kernel)) (by decide) rfl
    haccepted

/-- The second transaction names another partition, and may write to the first. -/
theorem prepareAppend_accepts_unnamed :
    let a := runOps step (opened fun _ => .done) (twoTransactions [partitionAt 1])
    (prepareAppend (partitionAt 0) firstBatch a.coordinator).1 = .ok .append ∧
      a.named 1 = [partitionAt 1] := by
  decide +kernel

/-! ## Offsets of a committed transaction -/

/-- The record holds committed offsets that nobody has applied. -/
def Owing (p : ProducerState) : Prop :=
  p.status = .committed ∧ p.offsetsApplied = false ∧ p.pendingOffsets ≠ []

instance instDecidablePredOwing : DecidablePred Owing :=
  fun _ => inferInstanceAs (Decidable (_ ∧ _ ∧ _))

/-- The transactional identifier that a call initialises. -/
def initialisation : ActivityOp → Option (Option String)
  | .call (.initProducer tid _ _) => some tid
  | _ => none

/-- A producer whose record holds such offsets is not initialised again and
    begins no transaction. -/
def OffsetsApplied (a : Activity) (op : ActivityOp) : Prop :=
  (∀ tid ∈ initialisation op,
    ¬ ∃ p ∈ a.coordinator.producer (a.coordinator.producerIdFor tid), Owing p) ∧
  ∀ e ∈ extension op, ¬ a.coordinator.Knows e.1 fun p => p.transactionalId.isSome = true ∧ Owing p

instance instDecidableOffsetsApplied (a : Activity) (op : ActivityOp) :
    Decidable (OffsetsApplied a op) :=
  inferInstanceAs (Decidable ((∀ tid ∈ initialisation op, _) ∧ ∀ e ∈ extension op, _))

/-- The offsets handed out are in the records of their producers. -/
structure Owed (a : Activity) : Prop where
  applied : ∀ q p, a.coordinator.outline q = some p → p.offsetsApplied = true →
    p.pendingOffsets = []
  pending : ∀ entry ∈ a.owed, ∃ p, a.coordinator.outline entry.1.producerId = some p ∧
    p.epoch = entry.1.producerEpoch ∧ p.status = .committed ∧ p.pendingOffsets = entry.2 ∧
      entry.2 ≠ []

/-- The record that an entry is about. -/
theorem Owed.owing (h : Owed a) (hent : entry ∈ a.owed) :
    ∃ p, a.coordinator.producer entry.1.producerId = some p ∧
      p.epoch = entry.1.producerEpoch ∧ p.pendingOffsets = entry.2 ∧ Owing p := by
  rcases h.pending entry hent with ⟨_, hp, hepoch, hstatus, hpending, hne⟩
  rcases producer_of_outline hp with ⟨p, hfound, rfl⟩
  refine ⟨p, hfound, hepoch, hpending, hstatus, ?_, fun hnil => hne (hpending.symm.trans hnil)⟩
  cases happlied : p.offsetsApplied with
  | false => rfl
  | true => exact absurd (hpending.symm.trans (h.applied _ _ hp happlied)) hne

/-- A commit answers with the offsets of the record it leaves. -/
theorem endTransaction_answer (c : TransactionCoordinator) (identity : ProducerIdentity) :
    (endTransaction identity true).Ends c fun r c' => ∀ offsets, r = .ok offsets → offsets ≠ [] →
      ∃ p, c'.outline identity.producerId = some p ∧ p.epoch = identity.producerEpoch ∧
        p.status = .committed ∧ p.pendingOffsets = offsets := by
  unfold endTransaction
  refine producerMut_bind (fun e offsets h => nomatch h) fun p hfound hepoch => ?_
  by_cases hdone : p.status = .committed
  · rw [if_pos (by simpa using hdone)]
    refine Ends.pure fun offsets hok hne => ?_
    refine ⟨_, outline_of_producer hfound, hepoch, hdone, ?_⟩
    simp only [Except.ok.injEq] at hok
    split at hok
    · exact hok
    · exact absurd hok.symm hne
  · rw [if_neg (by simpa using hdone)]
    refine Ends.require_bind (fun _ offsets h => nomatch h) fun hongoing => ?_
    refine putProducer_bind (Ends.modify_bind ?_)
    refine Ends.call ((persistShard_same _).ends _) (fun _ _ _ offsets h => nomatch h) ?_
    intro _ c' hsame
    refine Ends.pure fun offsets hok hne => ?_
    have hrecords : c'.records =
      (c.setProducer identity.producerId (endedProducer p true)).records :=
      hsame.records.trans (records_setShard rfl)
    have hnew := rewritten_setProducer c identity.producerId (endedProducer p true)
      (producerShard identity.producerId) identity.producerId
    rw [← hrecords, if_pos ⟨rfl, rfl⟩] at hnew
    exact ⟨_, hnew, hepoch, rfl, Except.ok.inj hok⟩

theorem mem_settle {owed : List (ProducerIdentity × List PendingOffset)}
    (h : entry ∈ c.settle owed call) :
    (entry ∈ owed ∧ ∀ identity, call = .markOffsetsApplied identity →
        c.Knows identity (·.status = .committed) → entry.1 ≠ identity) ∨
      entry.2 ≠ [] ∧ call = .endTransaction entry.1 true ∧
        (endTransaction entry.1 true c).1 = .ok entry.2 := by
  unfold settle at h
  split at h
  · next identity =>
      split at h
      · next offset offsets hok =>
          rcases mem_cons.mp h with rfl | hold
          · exact Or.inr ⟨cons_ne_nil _ _, rfl, hok⟩
          · exact Or.inl ⟨hold, fun _ heq => nomatch heq⟩
      · exact Or.inl ⟨h, fun _ heq => nomatch heq⟩
  · next identity =>
      split at h
      · rcases mem_filter.mp h with ⟨hold, hne⟩
        refine Or.inl ⟨hold, ?_⟩
        intro other heq _
        cases heq
        exact of_decide_eq_true hne
      · next hnot =>
          refine Or.inl ⟨h, ?_⟩
          intro other heq hknows
          cases heq
          exact absurd hknows hnot
  · next hcall => exact Or.inl ⟨h, fun identity heq => absurd heq (hcall identity)⟩

theorem applied_step (h : Owed a) (hcalls : Calls a op call (a.step op)) (q : Int)
    (p : ProducerState) (hp : (a.step op).coordinator.outline q = some p)
    (happlied : p.offsetsApplied = true) : p.pendingOffsets = [] := by
  rw [hcalls.coordinator] at hp
  rcases step_outline a.coordinator hcalls.expire q with hsame | ⟨new, hstep, hnew⟩
  · exact h.applied q p (by rwa [← hsame]) happlied
  · cases Option.mem_unique hnew hp
    cases hstep with
    | initialised tid timeoutMs nowMs epoch => rfl
    | extended identity partitions nowMs p0 hfound hepoch hid =>
      exact h.applied _ p0.outline (outline_of_producer hfound) happlied
    | staged identity offsets p0 hfound hongoing => cases happlied
    | ended identity commit p0 hfound hepoch hongoing =>
      cases commit with
      | false => rfl
      | true => exact h.applied _ p0.outline (outline_of_producer hfound) happlied
    | applied identity p0 hfound hepoch hcommitted => rfl

theorem owed_step (a : Activity) (op : ActivityOp) (h : Owed a) (hguard : OffsetsApplied a op) :
    Owed (a.step op) := by
  rcases step_cases a op with hquiet | ⟨call, hcalls⟩
  · refine ⟨fun q p hp => h.applied q p (by rwa [← hquiet.outline]), ?_⟩
    rw [hquiet.owed]
    intro entry hent
    rw [hquiet.outline]
    exact h.pending entry hent
  · refine ⟨applied_step h hcalls, fun entry hent => ?_⟩
    rw [hcalls.owed] at hent
    rw [hcalls.coordinator]
    rcases mem_settle hent with ⟨hold, hmark⟩ | ⟨hne, rfl, hok⟩
    · rcases h.pending entry hold with ⟨p, hp, hepoch, hstatus, hpending, hne⟩
      rcases step_outline a.coordinator hcalls.expire entry.1.producerId with
        hsame | ⟨new, hstep, _⟩
      · exact ⟨p, hsame.trans hp, hepoch, hstatus, hpending, hne⟩
      · exfalso
        rcases h.owing hold with ⟨p1, hp1, hepoch, _, howing⟩
        generalize hq : entry.1.producerId = q at hstep hp1
        -- Every call that would write this record is excluded or refused.
        cases hstep with
        | initialised tid timeoutMs nowMs epoch =>
          rcases hcalls.origin with rfl | ⟨_, hend⟩
          · exact hguard.1 tid rfl ⟨p1, hp1, howing⟩
          · cases hend
        | extended identity partitions nowMs p0 hfound hepoch0 hid =>
          cases Option.mem_unique hp1 hfound
          exact hguard.2 _ hcalls.extension ⟨p1, hfound, hepoch0, hid, howing⟩
        | staged identity offsets p0 hfound hongoing =>
          cases Option.mem_unique hp1 hfound
          exact absurd (howing.1.symm.trans hongoing) (by decide)
        | ended identity commit p0 hfound hepoch0 hongoing =>
          cases Option.mem_unique hp1 hfound
          exact absurd (howing.1.symm.trans hongoing) (by decide)
        | applied identity p0 hfound hepoch0 hcommitted =>
          cases Option.mem_unique hp1 hfound
          refine hmark identity rfl ⟨p1, hfound, hepoch0, hcommitted⟩ ?_
          rcases hentry1 : entry.1 with ⟨id, number⟩
          rw [hentry1] at hq hepoch
          cases identity
          simp only [ProducerIdentity.mk.injEq]
          exact ⟨hq, hepoch.symm.trans hepoch0⟩
    · rcases endTransaction_answer a.coordinator entry.1 entry.2 hok hne with
        ⟨p, hp, hepoch, hstatus, hpending⟩
      exact ⟨p, hp, hepoch, hstatus, hpending, hne⟩

theorem mem_pendingCommittedOffsets (hfound : c.producer q = some p) (h : Owing p) :
    ((⟨q, p.epoch⟩ : ProducerIdentity), p.pendingOffsets) ∈ c.pendingCommittedOffsets := by
  unfold pendingCommittedOffsets
  rw [(perm_insertionSort _ _).mem_iff, mem_flatMap]
  refine ⟨producerShard q, mem_finRange _, mem_map.mpr ⟨(q, p), ?_, rfl⟩⟩
  refine mem_filter.mpr ⟨?_, decide_eq_true h⟩
  exact Std.ExtTreeMap.mem_toList_iff_getElem?_eq_some.mpr hfound

/-- Committed offsets that were handed out wait until they are applied. -/
theorem committed_offsets_pending {script : Nat → Outcome} {a : Activity}
    (h : Reaches step OffsetsApplied (opened script) a) :
    ∀ entry ∈ a.owed, entry ∈ a.coordinator.pendingCommittedOffsets := by
  have hopened : Owed (opened script) := by
    refine ⟨fun q p hp => ?_, fun entry hentry => nomatch hentry⟩
    rw [outline_opened] at hp
    cases hp
  have howed : Owed a := h.invariant owed_step hopened
  intro entry hentry
  rcases howed.owing hentry with ⟨p, hp, hepoch, hpending, howing⟩
  have heq : ((⟨entry.1.producerId, p.epoch⟩ : ProducerIdentity), p.pendingOffsets) = entry :=
    Prod.ext (congrArg (ProducerIdentity.mk _) hepoch) hpending
  rw [← heq]
  exact mem_pendingCommittedOffsets hp howing

/-- A transaction that stages an offset and commits, and what comes after. -/
def commitOffsets (rest : List CoordinatorOp) : List ActivityOp :=
  (.initProducer (some "orders") 100 0 :: .addPartitions producerOne [partitionAt 0] 0 ::
    .stageOffsets producerOne [⟨"group", "events", 0, 7, ""⟩] ::
    .endTransaction producerOne true :: rest).map .call

theorem committed_offsets_pending_expired :
    (producerOne, [⟨"group", "events", 0, 7, ""⟩]) ∈ (runOps step (opened fun _ => .done)
      (commitOffsets [.expire 500])).coordinator.pendingCommittedOffsets :=
  committed_offsets_pending (reaches_runOps _ _ (by decide +kernel)) _ (by decide +kernel)

/-- The next transaction of the producer, or its next initialisation, drops the
    offsets. -/
theorem committed_offsets_dropped : [CoordinatorOp.addPartitions producerOne [partitionAt 0] 1,
        .initProducer (some "orders") 100 1].map (fun next =>
        let a := runOps step (opened fun _ => .done) (commitOffsets [next])
        (a.owed, a.coordinator.pendingCommittedOffsets)) =
      List.replicate 2 ([(producerOne, [⟨"group", "events", 0, 7, ""⟩])], []) := by
  decide +kernel

/-! ## What a sweep aborts -/

/-- A transaction of the producer that a sweep has found is not extended past the
    time of the sweep, and none is begun in its place. -/
def LeavesFound (q : Int) (a : Activity) (op : ActivityOp) : Prop :=
  ∀ e ∈ extension op, e.1.producerId = q → ∀ sweep ∈ a.sweeps, ∀ f ∈ sweep.found,
    f.identity = e.1 → ¬ a.coordinator.Knows e.1 fun p => p.transactionalId.isSome = true ∧
      ¬ (p.status = .ongoing ∧ min (e.2.2 + p.timeoutMs) (2 ^ 64 - 1) ≤ sweep.nowMs)

instance instDecidableLeavesFound (q : Int) (a : Activity) (op : ActivityOp) :
    Decidable (LeavesFound q a op) :=
  inferInstanceAs (Decidable (∀ e ∈ extension op, _ → ∀ sweep ∈ a.sweeps, _))

/-- What sweeps have found of the producer is overdue as long as it is going on. -/
structure Overdue (q : Int) (a : Activity) : Prop where
  homed : ∀ shard k p, a.coordinator.records shard k = some p → producerShard k = shard
  found : ∀ nowMs f, a.FoundAt nowMs f → f.identity.producerId = q →
    ∀ p, a.coordinator.outline q = some p → p.epoch = f.identity.producerEpoch →
      p.status = .ongoing → a.begun q = f.begun ∧ p.deadlineMs ≤ nowMs

theorem homed_step (op : ActivityOp) (h : Overdue q a) :
    ∀ shard k p, (a.step op).coordinator.records shard k = some p → producerShard k = shard := by
  rcases step_cases a op with hquiet | ⟨call, hcalls⟩
  · rw [hquiet.records]
    exact h.homed
  · rw [hcalls.coordinator]
    rcases step_records a.coordinator call hcalls.expire with hsame | ⟨q, new, _, hnew⟩
    · rw [hsame]
      exact h.homed
    · intro shard k p hp
      rw [hnew shard k] at hp
      split at hp
      · next hat => rw [← hat.2, hat.1]
      · exact h.homed shard k p hp

theorem overdue_found (h : Overdue q a) {shard : Fin transactionShards}
    (hmem : identity ∈ a.coordinator.overdueIn nowMs shard)
    (hp : a.coordinator.outline identity.producerId = some p) : p.deadlineMs ≤ nowMs := by
  rcases mem_map.mp hmem with ⟨⟨q, p0⟩, hfilter, rfl⟩
  rcases mem_filter.mp hfilter with ⟨hlist, hoverdue⟩
  have hrec : a.coordinator.records shard q = some p0.outline :=
    congrArg (Option.map ProducerState.outline)
      (Std.ExtTreeMap.mem_toList_iff_getElem?_eq_some.mp hlist)
  rw [← h.homed shard q _ hrec] at hrec
  obtain rfl : p0.outline = p := Option.some.inj (hrec.symm.trans hp)
  exact (of_decide_eq_true hoverdue).2

theorem overdue_step (a : Activity) (op : ActivityOp) (h : Overdue q a)
    (hleaves : LeavesFound q a op) : Overdue q (a.step op) := by
  refine ⟨homed_step op h, fun nowMs f hf hq p hp hepoch hongoing => ?_⟩
  rcases step_cases a op with hquiet | ⟨call, hcalls⟩
  · rw [hquiet.outline] at hp
    rw [hquiet.begun]
    rcases hquiet.found nowMs f hf with hold | ⟨⟨shard, hmem⟩, hbegun⟩
    · exact h.found nowMs f hold hq p hp hepoch hongoing
    · rw [hq] at hbegun
      exact ⟨hbegun.symm, overdue_found h hmem (by rwa [hq])⟩
  · have hold := hcalls.found nowMs f hf
    rw [hcalls.coordinator] at hp
    -- The transaction has not been begun by this call if one was going on before.
    have hbegun : ∀ p0, a.coordinator.outline q = some p0 → p0.status = .ongoing →
        (a.step op).begun q = a.begun q := by
      intro p0 hp0 hstatus
      rw [hcalls.begun]
      exact if_neg fun hnew => hnew.1 (ongoing_of_outline hp0 hstatus)
    rcases step_outline a.coordinator hcalls.expire q with hsame | ⟨new, hstep, hnew⟩
    · rw [hsame] at hp
      rw [hbegun p hp hongoing]
      exact h.found nowMs f hold hq p hp hepoch hongoing
    · cases Option.mem_unique hnew hp
      cases hstep with
      | initialised tid timeoutMs nowMs epoch => cases hongoing
      | extended identity partitions now p0 hfound hepoch0 hid =>
        have hsame : f.identity = identity := by
          rcases hf1 : f.identity with ⟨id, number⟩
          rw [hf1] at hq hepoch
          cases identity
          simp only [ProducerIdentity.mk.injEq]
          exact ⟨hq, hepoch.symm.trans hepoch0⟩
        have hout := outline_of_producer hfound
        rcases hold with ⟨sweep, hsweep, rfl, hmem⟩
        have hleft : p0.status = .ongoing ∧
            min (now + p0.timeoutMs) (2 ^ 64 - 1) ≤ sweep.nowMs := by
          by_contra hnot
          exact hleaves _ hcalls.extension rfl sweep hsweep f hmem hsame
            ⟨p0, hfound, hepoch0, hid, hnot⟩
        rw [hbegun _ hout hleft.1]
        have hbefore := h.found sweep.nowMs f ⟨sweep, hsweep, rfl, hmem⟩ hq p0.outline hout hepoch
          hleft.1
        exact ⟨hbefore.1, hleft.2⟩
      | staged identity offsets p0 hfound hstate =>
        have hout := outline_of_producer hfound
        rw [hbegun _ hout hstate]
        exact h.found nowMs f hold hq p0.outline hout hepoch hstate
      | ended identity commit p0 hfound hepoch0 hstate => cases commit <;> cases hongoing
      | applied identity p0 hfound hepoch0 hcommitted =>
        exact absurd (hcommitted.symm.trans hongoing) (by decide)

/-- A sweep aborts transactions only that it has found and that are still
    overdue. -/
theorem expire_aborts_overdue {script : Nat → Outcome} {a : Activity}
    {q : Int} (h : Reaches step (LeavesFound q) (opened script) a) {i : Nat} {sweep : Sweep}
    (hi : a.sweeps[i]? = some sweep) {p : ProducerState}
    (hfound : a.coordinator.producer q = some p) (hongoing : p.status = .ongoing)
    (haborted : ¬ (a.step (.abort i)).coordinator.Ongoing q) :
    ∃ f ∈ sweep.found.head?, f.identity = ⟨q, p.epoch⟩ ∧ a.begun q = f.begun ∧
      p.deadlineMs ≤ sweep.nowMs := by
  have hopened : Overdue q (opened script) := by
    refine ⟨fun shard k p hp => ?_, fun nowMs f hf => ?_⟩
    · have hnone : (opened script).coordinator.records shard k = none := by
        unfold records TransactionState.outlines opened
        simp [TransactionCoordinator.empty, TransactionState.default]
      rw [hnone] at hp
      cases hp
    · rcases hf with ⟨_, hsweep, _⟩
      cases hsweep
  have hoverdue : Overdue q a := h.invariant overdue_step hopened
  have hout := outline_of_producer hfound
  simp only [step, hi] at haborted
  split at haborted
  · next nowMs next rest hnext =>
      cases hnext
      refine ⟨next, rfl, ?_⟩
      have hop : ∀ t, CoordinatorOp.endTransaction next.identity false ≠ .expire t := nofun
      rcases step_outline a.coordinator hop q with hsame | ⟨new, hstep, _⟩
      · exact absurd (ongoing_of_outline (hsame.trans hout) hongoing) haborted
      · cases hstep with
        | ended _ _ p0 hfound0 hepoch hstatus =>
          cases Option.mem_unique hfound hfound0
          have hat : a.FoundAt nowMs next :=
            ⟨_, mem_of_getElem? hi, rfl, mem_cons_self⟩
          rw [hepoch]
          exact ⟨rfl, hoverdue.found nowMs next hat rfl p.outline hout hepoch hongoing⟩
  · exact absurd (ongoing_of_outline hout hongoing) haborted

/-- A transaction with a deadline of 100 is found overdue, and then whatever
    comes before it is aborted. -/
def sweepAt (between : List CoordinatorOp) : List ActivityOp :=
  [.call (.initProducer (some "orders") 100 0),
  .call (.addPartitions producerOne [partitionAt 0] 0),
    .call (.expire 100)] ++ List.replicate transactionShards (.scan 0) ++ between.map .call

theorem expire_aborts_overdue_staged :
    let a := runOps step (opened fun _ => .done) (sweepAt [.stageOffsets producerOne []])
    ∃ p ∈ a.coordinator.producer 1, ∃ f ∈ [(⟨producerOne, 1⟩ : Collected)].head?,
      f.identity = ⟨1, p.epoch⟩ ∧ a.begun 1 = f.begun ∧ p.deadlineMs ≤ 100 := by
  intro a
  have hstatus : (a.coordinator.producer 1).map (·.status) = some .ongoing := by decide +kernel
  rcases Option.map_eq_some_iff.mp hstatus with ⟨p, hp, hongoing⟩
  have hsweep : a.sweeps[0]? = some ⟨100, [], [⟨producerOne, 1⟩]⟩ := by decide +kernel
  exact ⟨p, hp, expire_aborts_overdue (reaches_runOps _ _ (by decide +kernel)) hsweep hp hongoing
    (by decide +kernel)⟩

/-- The producer extends its deadline to 250, and its transaction is aborted by
    the sweep for 100. -/
theorem expire_aborts_extended :
    let a := runOps step (opened fun _ => .done)
      (sweepAt [.addPartitions producerOne [partitionAt 1] 150])
    a.sweeps = [⟨100, [], [⟨producerOne, 1⟩]⟩] ∧
      (a.coordinator.producer 1).map (fun p => (p.status, p.deadlineMs)) = some (.ongoing, 250) ∧
      ((a.step (.abort 0)).coordinator.producer 1).map (·.status) = some .aborted := by
  decide +kernel

end Activity

end Kafka

end Pepper
