import Pepper.Core.Produce
import Pepper.Theory.Log.Watermark
import Pepper.Theory.Transactions.Sequences

/-!
# Acknowledged Batches and the Watermark

When a produce call with all acknowledgments may be believed.

An append is acknowledged when enough replicas have it, and by then the leader's
watermark is over the batch. A retry is answered from the coordinator's memory
without asking the log. The coordinator remembers a batch once it is in the
leader's log, also when too few replicas had it, so the answer to a retry says
nothing about the watermark by itself.

`Replicated` is what has to be true of the retried batch: the append that stored
it, or a later one, reached the minimum number of replicas.

## Main definitions

* `Session`: A partition with the answers to all appends so far.
* `ClientOp`, `step`: Produce calls, replicas leaving and coming back, and calls
  on the coordinator from elsewhere.
* `SafeRetry`: The condition on a produce call.

## Theorems

* `produce_ends`: All the ways a produce call can end.
* `step_consistent`: Remembered batches are appends, and appends with enough
  replicas stay below the watermark.
* `acknowledged_offsets_committed`: The statement about whole runs.
* `retry_acknowledges_uncommitted`: A retry without the condition.
-/

namespace Pepper

namespace Kafka

open Fallible Log TransactionCoordinator

/-- A partition and its past: the produce calls that appended, with their
    answers, in order. -/
structure Session where
  partition : Partition
  appends : List (Request × ReplicatedAppend)

inductive ClientOp where
  | produce (request : Request)
  | setReplicaOnline (brokerId : Nat) (online : Bool)
  | coordinate (op : CoordinatorOp)

namespace Session

/-- Only an append names durable replicas; the answer to a duplicate names none. -/
def record (appends : List (Request × ReplicatedAppend)) (request : Request) :
    Except KafkaError ReplicatedAppend → List (Request × ReplicatedAppend)
  | .ok answer => if answer.durableReplicas.isEmpty then appends else appends ++ [(request, answer)]
  | .error _ => appends

def step (s : Session) : ClientOp → Session
  | .produce request =>
    ⟨(Partition.produce request s.partition).2,
      record s.appends request (Partition.produce request s.partition).1⟩
  | .setReplicaOnline brokerId online =>
    { s with partition := (Partition.setReplicaOnline brokerId online s.partition).2 }
  | .coordinate op =>
    { s with partition :=
        { s.partition with coordinator := s.partition.coordinator.step op } }

/-- Appends in the partition go through produce calls. -/
def Outside (s : Session) : ClientOp → Prop
  | .coordinate op => ChangesElsewhere s.partition.name op
  | _ => True

/-- The append stored the remembered batch. -/
def StoredBy (producerId : Int) (batch : LastBatch) (append : Request × ReplicatedAppend) :
    Prop :=
  ∃ identity ∈ Partition.idempotentIdentity append.1.records,
    identity.producerId = producerId ∧ identity.producerEpoch = batch.producerEpoch ∧
    identity.baseSequence = batch.baseSequence ∧ identity.recordCount = batch.recordCount ∧
    append.2.result.baseOffset = batch.baseOffset ∧ append.2.result.lastOffset = batch.lastOffset

/-- An append at or after the given offset reached enough replicas. -/
def Replicated (s : Session) (lastOffset : Nat) : Prop :=
  ∃ append ∈ s.appends, lastOffset ≤ append.2.result.lastOffset ∧
    s.partition.replication.minimumIsr ≤ append.2.durableReplicas.size

instance instDecidableReplicated (s : Session) (lastOffset : Nat) :
    Decidable (s.Replicated lastOffset) :=
  inferInstanceAs (Decidable (∃ append ∈ s.appends, _))

/-- A call that waits for all replicas and repeats the producer's last batch does
    so only after that batch was replicated. -/
def SafeRetry (s : Session) (request : Request) : Prop :=
  request.acknowledgments = .all →
    ∀ identity ∈ Partition.idempotentIdentity request.records,
      ∀ batch ∈ s.partition.coordinator.lastBatch s.partition.name identity.producerId,
        identity.baseSequence = batch.baseSequence → identity.recordCount = batch.recordCount →
          s.Replicated batch.lastOffset

/-- The watermark of the leader's log. -/
def highWatermark (s : Session) : Nat :=
  s.partition.leaderLog.elim 0 (·.highWatermark)

/-- What holds along every run. -/
structure Consistent (s : Session) : Prop where
  leads : s.partition.replication.leader = s.partition.descriptor.leaderId
  remembered : ∀ producerId batch,
    s.partition.coordinator.lastBatch s.partition.name producerId = some batch →
      ∃ append ∈ s.appends, StoredBy producerId batch append
  committed : ∀ append ∈ s.appends,
    s.partition.replication.minimumIsr ≤ append.2.durableReplicas.size →
      append.2.result.lastOffset < s.highWatermark
  spans : ∀ append ∈ s.appends, append.2.result.lastOffset + 1 =
    append.2.result.baseOffset + append.1.records.offsetSpan

/-! ## One produce call -/

/-- The answer repeats a batch that the coordinator remembers. -/
def Repeats (p : Partition) (request : Request) (answer : ReplicatedAppend) : Prop :=
  answer.durableReplicas = ∅ ∧
    ∃ identity ∈ Partition.idempotentIdentity request.records,
      ∃ batch ∈ p.coordinator.lastBatch p.name identity.producerId,
        batch.producerEpoch = identity.producerEpoch ∧
        identity.baseSequence = batch.baseSequence ∧ identity.recordCount = batch.recordCount ∧
        answer.result.baseOffset = batch.baseOffset ∧
        answer.result.lastOffset = saturatingAdd batch.baseOffset batch.recordCount - 1

/-- The request may be appended at the end of the leader's log. -/
def Accepted (p : Partition) (request : Request) (baseOffset : Nat)
    (identity? : Option RecordBatchIdentity) : Prop :=
  identity? = Partition.idempotentIdentity request.records ∧
    request.records.offsetSpan ≠ 0 ∧ request.records.offsetSpan < 2 ^ 32 ∧
    ∃ log, p.leaderLog = some log ∧ baseOffset = log.nextOffset ∧ log.nextOffset < 2 ^ 63

/-- What the first half of a call has found out. -/
def Justified (p : Partition) (request : Request) : Partition.Acceptance → Prop
  | .duplicate answer => Repeats p request answer
  | .proceed baseOffset identity? => Accepted p request baseOffset identity?

/-- Only the coordinator went on, and it remembers nothing new. -/
def Registered (p p' : Partition) : Prop :=
  ∃ c', p' = { p with coordinator := c' } ∧ Recalls p.name p.coordinator c'

instance instIsPreorderRegistered : IsPreorder Partition Registered where
  refl p := ⟨p.coordinator, rfl, refl_of _ _⟩
  trans := by
    rintro p _ _ ⟨_, rfl, h1⟩ ⟨c2, rfl, h2⟩
    exact ⟨c2, rfl, trans_of _ h1 h2⟩

variable {p : Partition} {request : Request} {s : Session}
  {α : Type} {q : ReplicatedPartition} {r : Except KafkaError ReplicatedAppend}
  {p' : Partition}

theorem onCoordinator_ends {x : CoordinatorM α}
    {P : Except TransactionError α → TransactionCoordinator → Prop} (h : x.Ends p.coordinator P) :
    (onCoordinator x).Ends p fun r p' => ∃ r0 c', P r0 c' ∧ r = r0.mapError .transaction ∧
      p' = { p with coordinator := c' } :=
  Ends.zoom ⟨_, _, h, rfl, rfl⟩

theorem onReplication_ends {x : PartitionM α} {P : Except LogError α → ReplicatedPartition → Prop}
    (h : x.Ends p.replication P) :
    (onReplication x).Ends p fun r p' => ∃ r0 q, P r0 q ∧ r = r0.mapError .orderedLog ∧
      p' = { p with replication := q } :=
  Ends.zoom ⟨_, _, h, rfl, rfl⟩

theorem prepareAppend_yields (p : Partition) (identity : RecordBatchIdentity) :
    (onCoordinator (prepareAppend p.name identity)).Yields Registered p fun decision _ =>
      ∃ m, PrepareOutcome p.coordinator p.name identity (.ok decision) m := by
  have hkeeps : (prepareAppend p.name identity).Moves (Recalls p.name) :=
    prepareAppend_recalls p.name identity
  refine Ends.mono (onCoordinator_ends ((prepareAppend_ends p.coordinator p.name identity).and
    (hkeeps.ends p.coordinator))) ?_
  rintro _ p1 ⟨r0, c1, ⟨⟨m, hm, _⟩, hrecalls⟩, rfl, rfl⟩
  refine ⟨⟨c1, rfl, hrecalls⟩, ?_⟩
  intro decision hok
  cases r0 with
  | error e => cases hok
  | ok _ =>
    cases hok
    exact ⟨m, hm⟩

/-- The first half of a call only talks to the coordinator. -/
theorem accept_yields (p : Partition) (request : Request) :
    (Partition.accept request).Yields Registered p fun acceptance _ =>
      Justified p request acceptance := by
  unfold Partition.accept
  refine Yields.require_bind fun hspan => Yields.get_bind (Yields.require_bind fun _ => ?_)
  refine Yields.expect_bind fun log hlog => Yields.require_bind fun hnext => ?_
  refine Yields.require_bind fun _ => ?_
  have hacc : ∀ identity?, Partition.idempotentIdentity request.records = identity? →
      Accepted p request log.nextOffset identity? :=
    fun identity? h => ⟨h.symm, hspan.1, hspan.2, log, hlog, rfl, hnext⟩
  rcases hidentity : Partition.idempotentIdentity request.records with _ | identity
  · exact Yields.pure (hacc none hidentity)
  · refine Yields.bind (prepareAppend_yields p identity) ?_
    rintro decision p1 _ ⟨m, hm⟩
    cases hm with
    | nonIdempotent h => exact Yields.pure (hacc _ hidentity)
    | append producer h hnext' hpending => exact Yields.pure (hacc _ hidentity)
    | duplicate producer h hbase hcount =>
      have hlast : p.coordinator.lastBatch p.name identity.producerId = some
          ⟨producer.epoch, (producer.sequence p.name).lastBaseSequence,
            (producer.sequence p.name).lastRecordCount,
            (producer.sequence p.name).lastBaseOffset,
            (producer.sequence p.name).lastOffset⟩ := by
        rw [lastBatch_of_producer h.found]
        exact if_pos (hbase ▸ h.wellFormed.2.2)
      refine Yields.pure ⟨rfl, identity, hidentity, _, hlast, h.epoch, hbase, hcount, rfl, ?_⟩
      simp only [Partition.duplicateAnswer, hcount]

/-- What a call leaves behind: the same partition, with watermarks that only
    rose, whose coordinator remembers at most one batch more, the one just
    appended. -/
structure Produced (p p' : Partition) (request : Request)
    (r : Except KafkaError ReplicatedAppend) : Prop where
  name : p'.name = p.name
  descriptor : p'.descriptor = p.descriptor
  raised : LogsRaised p.replication p'.replication
  remembered : ∀ producerId batch, p'.coordinator.lastBatch p.name producerId = some batch →
    p.coordinator.lastBatch p.name producerId = some batch ∨
      ∃ answer, r = .ok answer ∧ answer.durableReplicas.isEmpty = false ∧
        StoredBy producerId batch (request, answer)

theorem produced_of_recalls {c' : TransactionCoordinator} (hraised : LogsRaised p.replication q)
    (hrecalls : Recalls p.name p.coordinator c') :
    Produced p { p with replication := q, coordinator := c' } request r :=
  ⟨rfl, rfl, hraised, fun producerId batch hbat => Or.inl (hrecalls producerId batch hbat)⟩

/-- An accepted request that was appended and answered. -/
structure Answered (p p' : Partition) (request : Request) (answer : ReplicatedAppend) : Prop where
  stored : answer.durableReplicas.isEmpty = false
  span : answer.result.lastOffset + 1 =
    answer.result.baseOffset + request.records.offsetSpan
  acknowledged : request.acknowledgments = .all → answer.acknowledged = true →
    p.replication.minimumIsr ≤ answer.durableReplicas.size
  committed : p.replication.minimumIsr ≤ answer.durableReplicas.size →
    ∃ log, p'.leaderLog = some log ∧ answer.result.lastOffset < log.highWatermark

section

variable (hleads : p.replication.leader = p.descriptor.leaderId)

include hleads

/-- The offsets of an accepted request are far below the limit of the type. -/
theorem answered_of_commits {baseOffset : Nat} {identity? : Option RecordBatchIdentity}
    (hacc : Accepted p request baseOffset identity?) {answer : ReplicatedAppend}
    (c' : TransactionCoordinator)
    (h : Commits p.replication q request.records.offsetSpan request.acknowledgments answer) :
    Answered p { p with replication := q, coordinator := c' } request answer := by
  rcases hacc with ⟨_, hspan, hsmall, log, hlog, _, hnext⟩
  rcases h.offsets with ⟨log', hlog', hbase, hlast⟩
  have hsame : log' = log := by
    unfold Partition.leaderLog at hlog
    rw [hleads, hlog, Option.some.injEq] at hlog'
    exact hlog'.symm
  subst hsame
  refine ⟨?_, by omega, h.acknowledged, ?_⟩
  · rw [← Bool.not_eq_true, Std.ExtTreeSet.isEmpty_iff]
    intro hempty
    have hstored := h.stored
    rw [hempty] at hstored
    exact absurd hstored Std.ExtTreeSet.not_mem_empty
  · intro henough
    rcases h.committed henough with ⟨log1, hlog1, hcom⟩
    rw [wrappingSucc_eq (by simp only [offsetLimit]; omega)] at hcom
    refine ⟨log1, ?_, by omega⟩
    unfold Partition.leaderLog
    rw [← hleads]
    exact hlog1

/-- The second half of a call. -/
theorem appendAccepted_ends (request : Request) (baseOffset : Nat)
    (identity? : Option RecordBatchIdentity) (hacc : Accepted p request baseOffset identity?) :
    (Partition.appendAccepted request baseOffset identity?).Ends p fun r p' =>
      Produced p p' request r ∧ ∀ answer, r = .ok answer → Answered p p' request answer := by
  unfold Partition.appendAccepted
  refine Ends.get_bind (Ends.bind (Ends.attempt ?_))
  refine (onReplication_ends (append_commits p.replication _ _ _ _ _ _)).mono ?_
  rintro r p1 ⟨r0, q, ⟨hraised, hcommits⟩, rfl, rfl⟩
  cases r0 with
  | error e =>
    -- The append failed: the batch is taken back if it had been registered.
    rcases identity? with _ | identity
    · exact Ends.bind (Ends.pure (Ends.fail
        ⟨produced_of_recalls hraised (refl_of _ _), by simp⟩))
    · have hkeeps : (cancelAppend p.name identity).Moves (Recalls p.name) :=
        cancelAppend_recalls p.name identity
      refine Ends.bind ((onCoordinator_ends (p := { p with replication := q })
        (hkeeps.ends p.coordinator)).mono ?_)
      rintro r p2 ⟨r1, c1, hrecalls, rfl, rfl⟩
      cases r1 with
      | error e' => exact ⟨produced_of_recalls hraised hrecalls, by simp⟩
      | ok _ => exact Ends.fail ⟨produced_of_recalls hraised hrecalls, by simp⟩
  | ok answer =>
    have hcom := hcommits answer rfl
    rcases identity? with _ | identity
    · refine Ends.bind (Ends.pure (Ends.pure
        ⟨produced_of_recalls hraised (refl_of _ _), ?_⟩))
      intro answer' hanswer
      cases hanswer
      exact answered_of_commits hleads hacc p.coordinator hcom
    · have hlast : ∀ c', Answered p { p with replication := q, coordinator := c' } request
          answer := fun c' => answered_of_commits hleads hacc c' hcom
      refine Ends.bind ((onCoordinator_ends (p := { p with replication := q })
        (completeAppend_lastBatch p.name p.coordinator p.name identity answer.result.baseOffset
          answer.result.lastOffset)).mono ?_)
      rintro r p2 ⟨r1, c1, hbatches, rfl, rfl⟩
      cases r1 with
      | error e' =>
        refine ⟨produced_of_recalls hraised ?_, by simp⟩
        intro producerId batch hbat
        rcases hbatches producerId batch hbat with hold | ⟨hok, _⟩
        · exact hold
        · cases hok
      | ok _ =>
        refine Ends.pure ⟨⟨rfl, rfl, hraised, ?_⟩, ?_⟩
        · intro producerId batch hbat
          rcases hbatches producerId batch hbat with hold | ⟨_, _, rfl, rfl⟩
          · exact Or.inl hold
          · exact Or.inr ⟨answer, rfl, (hlast c1).stored, identity, hacc.1.symm, rfl, rfl,
              rfl, rfl, rfl, rfl⟩
        · intro answer' hanswer
          cases hanswer
          exact hlast c1

theorem produce_ends (request : Request) :
    (Partition.produce request).Ends p fun r p' => Produced p p' request r ∧
      ∀ answer, r = .ok answer → Repeats p request answer ∨ Answered p p' request answer := by
  unfold Partition.produce
  refine Ends.call (accept_yields p request) ?_ ?_
  · rintro e p1 ⟨⟨c1, rfl, hrecalls⟩, _⟩
    exact ⟨produced_of_recalls (refl_of _ _) hrecalls, by simp⟩
  rintro acceptance p1 ⟨⟨c1, rfl, hrecalls⟩, hjustified⟩
  cases acceptance with
  | duplicate answer =>
    refine Ends.pure ⟨produced_of_recalls (refl_of _ _) hrecalls, ?_⟩
    intro answer' hanswer
    cases hanswer
    exact Or.inl (hjustified _ rfl)
  | proceed baseOffset identity? =>
    refine (appendAccepted_ends (p := { p with coordinator := c1 }) hleads request baseOffset
      identity? (hjustified _ rfl)).mono ?_
    rintro r p2 ⟨hproduced, hanw⟩
    refine ⟨⟨hproduced.name, hproduced.descriptor, hproduced.raised, ?_⟩, ?_⟩
    · intro producerId batch hbat
      rcases hproduced.remembered producerId batch hbat with hold | hnew
      · exact Or.inl (hrecalls producerId batch hold)
      · exact Or.inr hnew
    · intro answer hanswer
      rcases hanw answer hanswer with ⟨hstored, hspan, hack, hcom⟩
      exact Or.inr ⟨hstored, hspan, hack, hcom⟩

end

/-! ## Runs -/

theorem LogsRaised_highWatermark (hdescriptor : p'.descriptor = p.descriptor)
    (hraised : LogsRaised p.replication p'.replication) :
    p.leaderLog.elim 0 (·.highWatermark) ≤ p'.leaderLog.elim 0 (·.highWatermark) := by
  unfold Partition.leaderLog
  rw [hdescriptor]
  cases hlog : p.replication.replicas[p.descriptor.leaderId]? with
  | none => exact Nat.zero_le _
  | some log =>
    rcases hraised.logs _ log hlog with ⟨log', hlog', hle⟩
    rw [hlog', Option.elim_some, Option.elim_some]
    exact hle

/-- A call that appends nothing keeps everything. -/
theorem Consistent.of_raised (hs : Consistent s) (hname : p'.name = s.partition.name)
    (hdescriptor : p'.descriptor = s.partition.descriptor)
    (hraised : LogsRaised s.partition.replication p'.replication)
    (hrecalls : Recalls s.partition.name s.partition.coordinator p'.coordinator) :
    Consistent { s with partition := p' } := by
  refine ⟨?_, ?_, ?_, hs.spans⟩
  · simp only [hraised.leader, hdescriptor, hs.leads]
  · intro producerId batch hbat
    simp only [hname] at hbat
    exact hs.remembered producerId batch (hrecalls producerId batch hbat)
  · intro append happend henough
    simp only [hraised.minimumIsr] at henough
    exact lt_of_lt_of_le (hs.committed append happend henough)
      (LogsRaised_highWatermark hdescriptor hraised)

theorem setReplicaOnline_raised (p : Partition) (brokerId : Nat) (online : Bool) :
    (Partition.setReplicaOnline brokerId online).Ends p fun _ p' =>
      ∃ q, LogsRaised p.replication q ∧ p' = { p with replication := q } := by
  have hmoves : (if online then ReplicatedPartition.recoverReplica brokerId
      else ReplicatedPartition.setOnline brokerId false).Moves LogsRaised := by
    split
    · exact recoverReplica_raised brokerId
    · exact setOnline_raised brokerId false
  refine (onReplication_ends (hmoves.ends p.replication)).mono ?_
  rintro r p' ⟨_, q, hraised, _, rfl⟩
  exact ⟨q, hraised, rfl⟩

theorem mem_record {appends : List (Request × ReplicatedAppend)}
    {append : Request × ReplicatedAppend} :
    append ∈ record appends request r ↔ append ∈ appends ∨
      ∃ answer, r = .ok answer ∧ answer.durableReplicas.isEmpty = false ∧
        append = (request, answer) := by
  cases r with
  | error e => simp only [record, reduceCtorEq, false_and, exists_false, or_false]
  | ok answer =>
    simp only [record, Except.ok.injEq]
    by_cases hempty : answer.durableReplicas.isEmpty = true
    · rw [if_pos hempty]
      refine ⟨Or.inl, ?_⟩
      rintro (hbef | ⟨answer', rfl, hsome, _⟩)
      · exact hbef
      · exact absurd hsome (by rw [hempty]; simp)
    · rw [if_neg hempty, List.mem_append, List.mem_singleton]
      refine or_congr_right ⟨fun h => ⟨answer, rfl, Bool.not_eq_true _ ▸ hempty, h⟩, ?_⟩
      rintro ⟨answer', rfl, _, h⟩
      exact h

/-- The consistency of a session is kept by a produce call: an answered append
    joins the list. -/
theorem produce_consistent (hs : Consistent s) (request : Request) :
    Consistent (s.step (.produce request)) ∧
      s.highWatermark ≤ (s.step (.produce request)).highWatermark := by
  have hends := produce_ends hs.leads request
  unfold Ends at hends
  simp only [step]
  generalize Partition.produce request s.partition = out at hends ⊢
  rcases out with ⟨r, p'⟩
  rcases hends with ⟨hproduced, hanswer⟩
  simp only [] at hproduced hanswer ⊢
  have hrise := LogsRaised_highWatermark hproduced.descriptor hproduced.raised
  -- A new entry of the list is the answer of an append.
  have hnew : ∀ answer, r = .ok answer → answer.durableReplicas.isEmpty = false →
      Answered s.partition p' request answer := by
    intro answer hr hsome
    rcases hanswer answer hr with hrepeats | hanw
    · rw [hrepeats.1] at hsome
      exact absurd hsome (by simp)
    · exact hanw
  refine ⟨⟨?_, ?_, ?_, ?_⟩, hrise⟩
  · simp only [hproduced.raised.leader, hproduced.descriptor, hs.leads]
  · intro producerId batch hbat
    simp only [hproduced.name] at hbat
    rcases hproduced.remembered producerId batch hbat with hbef | ⟨answer, hr, hsome, hstored⟩
    · rcases hs.remembered producerId batch hbef with ⟨append, happend, hstored⟩
      exact ⟨append, mem_record.mpr (Or.inl happend), hstored⟩
    · exact ⟨(request, answer), mem_record.mpr (Or.inr ⟨answer, hr, hsome, rfl⟩), hstored⟩
  · intro append happend henough
    simp only [hproduced.raised.minimumIsr] at henough
    rcases mem_record.mp happend with hbef | ⟨answer, hr, hsome, rfl⟩
    · exact lt_of_lt_of_le (hs.committed append hbef henough) hrise
    · rcases (hnew answer hr hsome).committed henough with ⟨log, hlog, hlt⟩
      simp only [highWatermark, hlog, Option.elim_some]
      exact hlt
  · intro append happend
    rcases mem_record.mp happend with hbef | ⟨answer, hr, hsome, rfl⟩
    · exact hs.spans append hbef
    · exact (hnew answer hr hsome).span

/-- One step, successful or not. -/
theorem step_consistent (op : ClientOp) (hs : Consistent s) (hop : s.Outside op) :
    Consistent (s.step op) ∧ s.highWatermark ≤ (s.step op).highWatermark := by
  cases op with
  | produce request => exact produce_consistent hs request
  | setReplicaOnline brokerId online =>
    rcases setReplicaOnline_raised s.partition brokerId online with ⟨q, hraised, heq⟩
    simp only [step, heq]
    exact ⟨hs.of_raised rfl rfl hraised (refl_of _ _), LogsRaised_highWatermark rfl hraised⟩
  | coordinate op =>
    exact ⟨hs.of_raised rfl rfl (refl_of _ _) (step_recalls _ op hop), le_rfl⟩

theorem reaches_consistent {s' : Session} (hs : Consistent s) (h : Reaches step Outside s s') :
    Consistent s' ∧ s.highWatermark ≤ s'.highWatermark :=
  h.related (R := fun s s' => s.highWatermark ≤ s'.highWatermark) (fun _ => le_rfl)
    (fun _ _ _ => le_trans) (fun _ op => step_consistent op) hs

/-- A partition that has just been opened: the coordinator knows no batch of
    it. -/
structure Opened (s : Session) : Prop where
  leads : s.partition.replication.leader = s.partition.descriptor.leaderId
  fresh : ∀ producerId, s.partition.coordinator.lastBatch s.partition.name producerId = none
  appends : s.appends = []

theorem Opened.consistent (h : Opened s) : Consistent s := by
  refine ⟨h.leads, ?_, ?_, ?_⟩
  · intro producerId batch hbat
    rw [h.fresh] at hbat
    cases hbat
  · intro append happend
    rw [h.appends] at happend
    cases happend
  · intro append happend
    rw [h.appends] at happend
    cases happend

/-- Two requests with the same batch: one repeats the other's sequence number
    and count under the same producer and epoch. -/
def SameBatch (request request' : Request) : Prop :=
  request = request' ∨
    ∃ identity ∈ Partition.idempotentIdentity request.records,
      ∃ identity' ∈ Partition.idempotentIdentity request'.records,
        identity.producerId = identity'.producerId ∧
        identity.producerEpoch = identity'.producerEpoch ∧
        identity.baseSequence = identity'.baseSequence ∧
        identity.recordCount = identity'.recordCount

/-- A batch of a request spans at least as many offsets as it counts records. -/
theorem recordCount_le {records : RecordSet} {identity : RecordBatchIdentity}
    (h : identity ∈ Partition.idempotentIdentity records) :
    identity.recordCount ≤ records.offsetSpan :=
  records.counted identity (List.mem_of_find?_eq_some h)

/-- Whenever a call with all acknowledgments is answered as acknowledged, the
    batch is in the leader's log and all its offsets are below the watermark,
    then and at every later point. A call that repeats the last batch of its
    producer is made after that batch was replicated. -/
theorem acknowledged_offsets_committed {s0 s s' : Session} (hopened : Opened s0)
    (hrun : Reaches step Outside s0 s) {request : Request} (hall : request.acknowledgments = .all)
    (hretry : s.SafeRetry request) {answer : ReplicatedAppend}
    (hanswer : (Partition.produce request s.partition).1 = .ok answer)
    (hack : answer.acknowledged = true)
    (hlater : Reaches step Outside (s.step (.produce request)) s') :
    ∃ append ∈ (s.step (.produce request)).appends, SameBatch request append.1 ∧
      answer.result.baseOffset = append.2.result.baseOffset ∧
      answer.result.lastOffset ≤ append.2.result.lastOffset ∧
      append.2.result.lastOffset < s'.highWatermark := by
  have hs := (reaches_consistent hopened.consistent hrun).1
  rcases produce_consistent hs request with ⟨hs1, hrise⟩
  have hrise' := (reaches_consistent hs1 hlater).2
  rcases (produce_ends hs.leads request).2 answer hanswer with hrepeats | hanswered
  · rcases hrepeats with ⟨_, identity, hidentity, batch, hbatch, hepoch, hbase, hcount, hfrom, hto⟩
    rcases hs.remembered identity.producerId batch hbatch with ⟨append, happend, hstored⟩
    rcases hstored with ⟨identity', hidentity', hid', hepoch', hbase', hcount', hfrom', hto'⟩
    refine ⟨append, mem_record.mpr (Or.inl happend), Or.inr ⟨identity, hidentity, identity',
      hidentity', hid'.symm, by rw [hepoch', hepoch], by rw [hbase', hbase],
      by rw [hcount', hcount]⟩, by rw [hfrom, hfrom'], ?_, ?_⟩
    · have hspan := hs.spans append happend
      have hle := recordCount_le hidentity'
      simp only [saturatingAdd] at hto
      omega
    · rcases hretry hall identity hidentity batch hbatch hbase hcount with
        ⟨later, hmem, hafter, henough⟩
      have := hs.committed later hmem henough
      omega
  · have henough := hanswered.acknowledged hall hack
    refine ⟨(request, answer), mem_record.mpr (Or.inr ⟨answer, hanswer, hanswered.stored, rfl⟩),
      Or.inl rfl, rfl, le_rfl, ?_⟩
    rcases hanswered.committed henough with ⟨log, hlog, hlt⟩
    refine lt_of_lt_of_le ?_ hrise'
    unfold highWatermark
    simp only [step, hlog, Option.elim_some]
    exact hlt

/-! ## Two runs of two nodes -/

/-- A partition with two replicas that both have to have a batch. -/
def twoNodes : Session where
  partition :=
    { name := ⟨"t", 0⟩
      descriptor := ⟨0, 1, 1, [0, 1], 2⟩
      replication := (ReplicatedPartition.setUp [0, 1] 0 1 1
        ⟨.ofList [(0, OrderedLog.empty), (1, OrderedLog.empty)], .ofList [0, 1], .ofList [0, 1],
          .ofList [0, 1], 0, 1, 1, 2, 0⟩).2
      coordinator := .empty }
  appends := []

theorem twoNodes_opened : Opened twoNodes where
  leads := by decide
  fresh := by
    intro producerId
    simp [lastBatch, TransactionCoordinator.producer, twoNodes, TransactionCoordinator.empty,
      TransactionState.default]
  appends := rfl

/-- The first batch of the first producer: one record. -/
def firstBatch : Request where
  brokerId := 0
  timestampMs := 10
  records :=
    { offsetSpan := 1
      identities := [⟨false, false, 1, 0, 0, 1⟩]
      assigned := fun _ _ => [7]
      counted := by simp }
  acknowledgments := .all

/-- With both replicas there, the batch is committed and a retry may say so. -/
theorem replicated_retry_committed :
    ∃ append ∈ (runOps step twoNodes [.coordinate (.initProducer none 60000 0),
        .produce firstBatch, .produce firstBatch]).appends,
      append.2.result.lastOffset < (runOps step twoNodes
        [.coordinate (.initProducer none 60000 0), .produce firstBatch,
          .produce firstBatch]).highWatermark := by
  have hrun : Reaches step Outside twoNodes (runOps step twoNodes
      [.coordinate (.initProducer none 60000 0), .produce firstBatch]) :=
    reaches_runOps _ _ ⟨trivial, trivial, trivial⟩
  have hretry : SafeRetry (runOps step twoNodes
      [.coordinate (.initProducer none 60000 0), .produce firstBatch]) firstBatch := by
    unfold SafeRetry
    decide
  have hanswer : (Partition.produce firstBatch (runOps step twoNodes
      [.coordinate (.initProducer none 60000 0), .produce firstBatch]).partition).1 =
      .ok ⟨⟨0, 0, 1, 1⟩, ∅, true⟩ := by
    rfl
  rcases acknowledged_offsets_committed twoNodes_opened hrun rfl hretry hanswer rfl
    (Reaches.refl _) with ⟨append, hmem, _, _, _, hlt⟩
  exact ⟨append, hmem, hlt⟩

/-- One replica is away: the batch is stored but not acknowledged. The retry is
    acknowledged although nothing has been committed. -/
theorem retry_acknowledges_uncommitted :
    Opened twoNodes ∧
      (Partition.produce firstBatch (runOps step twoNodes
        [.coordinate (.initProducer none 60000 0),
          .setReplicaOnline 1 false]).partition).1.toOption.map
          (fun answer => (answer.acknowledged, answer.result.baseOffset)) = some (false, 0) ∧
      (Partition.produce firstBatch (runOps step twoNodes
        [.coordinate (.initProducer none 60000 0), .setReplicaOnline 1 false,
          .produce firstBatch]).partition).1.toOption.map
          (fun answer => (answer.acknowledged, answer.result.baseOffset)) = some (true, 0) ∧
      (runOps step twoNodes [.coordinate (.initProducer none 60000 0), .setReplicaOnline 1 false,
        .produce firstBatch, .produce firstBatch]).highWatermark = 0 :=
  ⟨twoNodes_opened, by decide, by decide, by decide⟩

end Session

end Kafka

end Pepper
