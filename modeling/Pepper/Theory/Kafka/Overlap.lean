import Pepper.Core.Checkpoint
import Pepper.Theory.Kafka.Acknowledgment
import Pepper.Theory.Log.Restart

/-!
# Crashes Under Overlapped Checkpoints

When a partition with one replica comes back after a crash, and with what.

The checkpoint record on disk is a prediction. It may name an offset that no
append ever reached, because the append failed, and later appends may then run
past that offset. Opening cuts the log at the recorded watermark, so it has to
be clear of every batch and behind every closed segment. It is past the end of
the log at the moment it is chosen, and stays clear as long as no append steps
over it and no rotation leaves it behind. These are the conditions of
`SafeAppend`. `SafeStart` is about retries, which are answered from memory
before anything is persisted.

## Main definitions

* `watermarks`: The watermarks a crash may find on disk.
* `Safe`: The conditions on the steps of a run.
* `Clear`: A watermark at which the log can be opened.
* `Sound`: What holds along every run.

## Theorems

* `step_sound`: Every step that meets its condition keeps a runtime sound.
* `openPartition_blank`: What is opened for the first time is sound.
* `reopen_sound`: A sound runtime comes back from disk, and is sound again.
* `reopened_log_holds_answered`: The statement about whole runs.
* `straddled_watermark_refuses_open`: A run that meets no condition.
-/

namespace Pepper

namespace Kafka

open Fallible Log ExtentStore TransactionCoordinator List

/-- The batch that an append of the request stores at an offset. -/
def Request.batch (request : Request) (baseOffset epoch : Nat) : FetchedBatch :=
  ⟨baseOffset, baseOffset + (request.records.offsetSpan - 1), epoch, request.timestampMs,
    request.records.assigned baseOffset epoch⟩

/-- The partition has one replica, which the controller's epochs let open. -/
structure PartitionRecord.Single (d : PartitionRecord) : Prop where
  replicas : d.replicas = [d.leaderId]
  minimum : d.minimumInSyncReplicas = 1
  epoch : 0 < d.leaderEpoch
  assignment : d.leaderEpoch ≤ d.assignmentEpoch + 1

namespace Runtime

/-- The watermarks a crash may find on disk, now or after the write under way. -/
def watermarks (s : Runtime) : List Nat :=
  s.checkpoint.highWatermark :: s.writer.toList.map Prod.snd

/-! ## The conditions -/

/-- The append under way steps over no watermark, and does not close a segment
    that a watermark does not cover. -/
def SafeAppend (s : Runtime) : Prop :=
  ∀ id ∈ s.holder, ∀ call ∈ s.calls[id]?, ∀ log ∈ s.partition.leaderLog, ∀ w ∈ s.watermarks,
    (w ≤ log.nextOffset ∨ call.predictedEnd ≤ w) ∧
      (log.shouldRotate (call.request.records.assigned call.baseOffset
        s.partition.descriptor.leaderEpoch).length = true → log.nextOffset ≤ w)

/-- A request that repeats its producer's last batch comes after the checkpoint
    of that batch. -/
def SafeStart (s : Runtime) (request : Request) : Prop :=
  ∀ identity ∈ Partition.idempotentIdentity request.records,
    ∀ batch ∈ s.partition.coordinator.lastBatch s.partition.name identity.producerId,
      identity.baseSequence = batch.baseSequence → identity.recordCount = batch.recordCount →
        batch.lastOffset < s.persisted

/-- What is asked of a step. Calls on the coordinator from elsewhere are about
    other partitions. -/
def Safe (s : Runtime) : RuntimeOp → Prop
  | .start _ request => s.SafeStart request
  | .append => s.SafeAppend
  | .coordinate op => ChangesElsewhere s.partition.name op
  | _ => True

/-! ## The invariant -/

/-- The log can be opened at the watermark, with everything persisted. -/
structure Clear (log : OrderedLog) (persisted w : Nat) : Prop where
  persisted : persisted ≤ w
  bounded : w < offsetLimit
  tiled : ∃ start, start ≤ w ∧
    Tiles FetchedBatch.baseOffset FetchedBatch.lastOffset start log.contents log.nextOffset
  clean : ∀ b ∈ log.contents, b.lastOffset < w ∨ w ≤ b.baseOffset
  closed : ∀ b ∈ log.closedLocations, b.lastOffset < w

/-- The batch the answer is about is among the given ones, below a limit. It is
    the request's own, or the one that the request repeats. -/
def Holds (batches : List FetchedBatch) (limit : Nat) (request : Request)
    (answer : ReplicatedAppend) : Prop :=
  ∃ (stored : Request) (epoch : Nat), Session.SameBatch request stored ∧
    stored.batch answer.result.baseOffset epoch ∈ batches ∧
    answer.result.lastOffset ≤ (stored.batch answer.result.baseOffset epoch).lastOffset ∧
    (stored.batch answer.result.baseOffset epoch).lastOffset < limit

/-- The log has the batch that the coordinator remembers. -/
def Remembers (batches : List FetchedBatch) (pid : Int) (batch : LastBatch) : Prop :=
  ∃ (stored : Request) (epoch : Nat), stored.batch batch.baseOffset epoch ∈ batches ∧
    (stored.batch batch.baseOffset epoch).lastOffset = batch.lastOffset ∧
    ∃ identity ∈ Partition.idempotentIdentity stored.records,
      identity.producerId = pid ∧ identity.producerEpoch = batch.producerEpoch ∧
      identity.baseSequence = batch.baseSequence ∧ identity.recordCount = batch.recordCount

/-- What holds of a call that has not returned. -/
structure CallSound (s : Runtime) (log : OrderedLog) (call : Call) : Prop where
  base : call.baseOffset ≤ log.nextOffset
  small : call.baseOffset < 2 ^ 63 ∧ call.request.records.offsetSpan ≠ 0 ∧
    call.request.records.offsetSpan < 2 ^ 32
  identity : call.identity? = Partition.idempotentIdentity call.request.records
  logStart : call.logStartOffset = log.logStartOffset
  requested : call.predictedEnd ≤ s.requested
  finished : call.task = .finished → call.predictedEnd ≤ s.persisted
  stored : ∀ answer, call.append = .stored answer →
    Holds log.contents call.predictedEnd call.request answer

structure Sound (s : Runtime) (log : OrderedLog) : Prop where
  single : s.partition.descriptor.Single
  leads : s.partition.replication.leader = s.partition.descriptor.leaderId
  epoch : s.partition.replication.epoch = s.partition.descriptor.leaderEpoch
  alone : Alone s.partition.replication log
  durable : Durable log
  valid : log.config.Valid
  watermarks : ∀ w ∈ s.watermarks, Clear log s.persisted w
  requested : log.nextOffset ≤ s.requested ∧ s.persisted ≤ s.requested ∧
    s.requested < offsetLimit
  floor : s.checkpoint.safeFloor ≤ log.nextOffset ∧
    s.checkpoint.safeFloor ≤ s.checkpoint.highWatermark
  logStart : log.logStartOffset ≤ s.persisted ∧
    s.checkpoint.logStartOffset ≤ s.checkpoint.highWatermark
  calls : ∀ (id : Nat) (call : Call), s.calls[id]? = some call → CallSound s log call
  holder : ∀ id, s.holder = some id → ∃ call, s.calls[id]? = some call ∧
    call.baseOffset = log.nextOffset ∧ call.append = .holding
  writer : ∀ id target, s.writer = some (id, target) → target ≤ s.requested ∧
    ∃ call, s.calls[id]? = some call ∧ call.predictedEnd ≤ target ∧ call.task = .spawned
  answered : ∀ a ∈ s.answered, Holds log.contents s.persisted a.1 a.2
  remembered : ∀ producerId batch,
    s.partition.coordinator.lastBatch s.partition.name producerId = some batch →
      Remembers log.contents producerId batch

/-! ## Watermarks and logs -/

theorem tiles_contents {log : OrderedLog} {lo hi : Nat} :
    Tiles FetchedBatch.baseOffset FetchedBatch.lastOffset lo log.contents hi ↔
      Tiles BatchLocation.baseOffset BatchLocation.lastOffset lo log.locations hi := by
  rw [contents_eq, tiles_map]
  exact Iff.rfl

variable {persisted w : Nat} {log' : OrderedLog} {answer : ReplicatedAppend} {request : Request}
  {call : Call}

/-- A watermark at or past the end of the log is clear of it. -/
theorem clear_of_past {log : OrderedLog} (h : Durable log) (hper : persisted ≤ w)
    (hbound : w < offsetLimit) (hpast : log.nextOffset ≤ w) : Clear log persisted w := by
  rcases h.wellFormed.tiled with ⟨start, htiles⟩
  have hcontents := tiles_contents.mpr htiles
  refine ⟨hper, hbound, ⟨start, ?_, hcontents⟩, ?_, ?_⟩
  · have := htiles.le
    omega
  · intro b hb
    have := hcontents.bounds hb
    omega
  · intro b hb
    have := htiles.bounds (closed_mem hb)
    omega

/-- A clear watermark stays clear under a write that does not step over it and
    does not leave it behind a closed segment. -/
theorem Clear.written {log : OrderedLog} {count payloadLen : Nat} (h : Clear log persisted w)
    (hdur : Durable log) (hwritten : Written log log' count payloadLen)
    (hover : w ≤ log.nextOffset ∨ log.nextOffset + count ≤ w)
    (hrotate : log.shouldRotate payloadLen = true → log.nextOffset ≤ w) :
    Clear log' persisted w := by
  rcases h.tiled with ⟨start, hstart, htiles⟩
  have hclosed : ∀ b ∈ log'.closedLocations, b.lastOffset < w := by
    rcases hwritten.closed with hsame | ⟨hfull, hall⟩
    · rw [hsame]
      exact h.closed
    · intro b hb
      rw [hall] at hb
      rcases hdur.wellFormed.tiled with ⟨_, hlocations⟩
      have := hlocations.bounds hb
      have := hrotate hfull
      omega
  rcases hwritten.batches with ⟨hcontents, hnext⟩ | ⟨batch, hcontents, hbase, hlast, hnext⟩
  · refine ⟨h.persisted, h.bounded, ⟨start, hstart, ?_⟩, ?_, hclosed⟩
    · rw [hcontents, hnext]
      exact htiles
    · rw [hcontents]
      exact h.clean
  · refine ⟨h.persisted, h.bounded, ⟨start, hstart, ?_⟩, ?_, hclosed⟩
    · rw [hcontents, hnext, ← hlast]
      have hspan : batch.baseOffset ≤ batch.lastOffset := by
        rcases hwritten.durable.wellFormed.tiled with ⟨_, hlocations⟩
        exact ((tiles_contents.mpr hlocations).bounds
          (hcontents ▸ mem_concat_self)).2.1
      exact tiles_concat htiles hbase (hbase ▸ hspan)
    · rw [hcontents]
      exact forall_mem_concat h.clean (by omega)

variable {batches batches' : List FetchedBatch} {s' : Runtime} {checkpoint : PartitionCheckpoint}

theorem Holds.mono {limit limit' : Nat} (h : Holds batches limit request answer)
    (hbatches : batches ⊆ batches') (hlim : limit ≤ limit') :
    Holds batches' limit' request answer := by
  rcases h with ⟨stored, epoch, hsame, hmem, hlast, hbelow⟩
  exact ⟨stored, epoch, hsame, hbatches hmem, hlast, lt_of_lt_of_le hbelow hlim⟩

theorem Remembers.mono {pid : Int} {batch : LastBatch}
    (h : Remembers batches pid batch) (hbatches : batches ⊆ batches') :
    Remembers batches' pid batch := by
  rcases h with ⟨stored, epoch, hmem, hrest⟩
  exact ⟨stored, epoch, hbatches hmem, hrest⟩

/-- A call stays sound while offsets grow. -/
theorem CallSound.mono {s : Runtime} {log : OrderedLog} (h : CallSound s log call)
    (hnext : log.nextOffset ≤ log'.nextOffset)
    (hlogStart : log'.logStartOffset = log.logStartOffset) (hreq : s.requested ≤ s'.requested)
    (hper : s.persisted ≤ s'.persisted) (hcontents : log.contents ⊆ log'.contents) :
    CallSound s' log' call := by
  refine ⟨le_trans h.base hnext, h.small, h.identity, hlogStart ▸ h.logStart,
    le_trans h.requested hreq, fun hf => le_trans (h.finished hf) hper, ?_⟩
  intro answer hanswer
  exact (h.stored answer hanswer).mono hcontents le_rfl

/-! ## Steps -/

section Steps

variable {s : Runtime} {log : OrderedLog}

theorem Sound.leaderLog (h : Sound s log) : s.partition.leaderLog = some log := by
  unfold Partition.leaderLog
  rw [← h.leads]
  exact h.alone.log

variable {id : Nat}

theorem Sound.call_eq (h : Sound s log) (hcall : s.calls[id]? = some call) :
    (s.holder = some id → call.baseOffset = log.nextOffset ∧ call.append = .holding) ∧
      ∀ target, s.writer = some (id, target) →
        call.predictedEnd ≤ target ∧ call.task = .spawned := by
  constructor
  · intro hholder
    rcases h.holder id hholder with ⟨other, hother, hrest⟩
    rw [hcall, Option.some.injEq] at hother
    exact hother ▸ hrest
  · intro target hwriter
    rcases (h.writer id target hwriter).2 with ⟨other, hother, hrest⟩
    rw [hcall, Option.some.injEq] at hother
    exact hother ▸ hrest

theorem Sound.callSound (h : Sound s log) (hreq : s.requested ≤ s'.requested)
    (hper : s.persisted ≤ s'.persisted) (hcall : s.calls[id]? = some call) :
    CallSound s' log call :=
  (h.calls id call hcall).mono le_rfl rfl hreq hper (List.Subset.refl _)

variable {target : Nat}

/-- The watermark of a write under way. -/
theorem Sound.target_clear (h : Sound s log) (hwriter : s.writer = some (id, target)) :
    Clear log s.persisted target := by
  refine h.watermarks target ?_
  unfold Runtime.watermarks
  rw [hwriter]
  exact mem_cons_of_mem _ mem_cons_self

/-- A call is replaced; the locks do not notice. -/
theorem Sound.setCall (h : Sound s log) (hcall : CallSound s log call)
    (hholder : s.holder = some id → call.baseOffset = log.nextOffset ∧ call.append = .holding)
    (hwriter : ∀ target, s.writer = some (id, target) →
      call.predictedEnd ≤ target ∧ call.task = .spawned) : Sound (s.setCall id call) log := by
  have hlook : ∀ {k : Nat} {P : Call → Prop}, (id = k → P call) →
      (∃ other, s.calls[k]? = some other ∧ P other) →
        ∃ other, (s.calls.insert id call)[k]? = some other ∧ P other := by
    intro k P hnew hold
    rw [getElem?_insert_eq]
    by_cases hid : id = k
    · exact ⟨call, if_pos hid, hnew hid⟩
    · rw [if_neg hid]
      exact hold
  refine { h with calls := ?_, holder := ?_, writer := ?_ }
  · intro k other hother
    rcases getElem?_insert_cases hother with ⟨_, rfl⟩ | ⟨_, hother⟩
    · exact hcall.mono le_rfl rfl le_rfl le_rfl (List.Subset.refl _)
    · exact h.callSound le_rfl le_rfl hother
  · exact fun k hk => hlook (fun hid => hholder (hid ▸ hk)) (h.holder k hk)
  · intro k target hk
    refine ⟨(h.writer k target hk).1, hlook (fun hid => ?_) (h.writer k target hk).2⟩
    subst hid
    exact hwriter target hk

/-- The coordinator forgot something, or moved on elsewhere. -/
theorem Sound.withCoordinator (h : Sound s log) {c' : TransactionCoordinator}
    (hrecalls : Recalls s.partition.name s.partition.coordinator c') :
    Sound { s with partition := { s.partition with coordinator := c' } } log := by
  refine { h with calls := fun _ _ => h.callSound le_rfl le_rfl, remembered := ?_ }
  intro pid batch hbat
  exact h.remembered pid batch (hrecalls pid batch hbat)

/-- One more answer. -/
theorem Sound.withAnswer (h : Sound s log)
    (hholds : Holds log.contents s.persisted request answer) :
    Sound { s with answered := s.answered ++ [(request, answer)] } log :=
  { h with
    calls := fun _ _ => h.callSound le_rfl le_rfl
    answered := forall_mem_concat h.answered hholds }

theorem predictedEnd_eq (h : call.baseOffset < 2 ^ 63)
    (hspan : call.request.records.offsetSpan < 2 ^ 32) :
    call.predictedEnd = call.baseOffset + call.request.records.offsetSpan := by
  unfold Call.predictedEnd saturatingAdd offsetLimit
  omega

section

variable (h : Sound s log)

include h

/-- A repeated batch that was persisted is in the log. -/
theorem holds_of_repeats (hsafe : s.SafeStart request)
    (hrepeats : Session.Repeats s.partition request answer) :
    Holds log.contents s.persisted request answer := by
  rcases hrepeats with ⟨_, identity, hidentity, batch, hbat, hepoch, hbase, hcount, hfrom, hto⟩
  rcases h.remembered identity.producerId batch hbat with
    ⟨stored, epoch, hmem, hlast, identity', hidentity', hid', hepoch', hbase', hcount'⟩
  refine ⟨stored, epoch, Or.inr ⟨identity, hidentity, identity', hidentity', hid'.symm,
    by rw [hepoch', hepoch], by rw [hbase', hbase], by rw [hcount', hcount]⟩, ?_, ?_, ?_⟩
  · rw [hfrom]
    exact hmem
  · -- The answer counts records, and a batch spans at least as many offsets.
    have hle := Session.recordCount_le hidentity'
    rw [hto, hfrom]
    show saturatingAdd batch.baseOffset batch.recordCount - 1 ≤
      batch.baseOffset + (stored.records.offsetSpan - 1)
    unfold saturatingAdd
    omega
  · rw [hfrom, hlast]
    exact hsafe identity hidentity batch hbat hbase hcount

/-- A call takes the replication lock and announces its watermark. -/
theorem Sound.begin (hid : id ∉ s.calls) {baseOffset : Nat} {identity? : Option RecordBatchIdentity}
    (hacc : Session.Accepted s.partition request baseOffset identity?)
    (hcall : call = ⟨request, baseOffset, identity?,
      s.partition.leaderLog.elim 0 (·.logStartOffset), .holding, .spawned⟩) :
    Sound { s with
      requested := max s.requested call.predictedEnd
      calls := s.calls.insert id call
      holder := some id } log := by
  have hlog := h.leaderLog
  rcases hacc with ⟨hidentity, hspan, hsmall, log', hlog', hbase, hnext⟩
  cases Option.mem_unique hlog hlog'
  have hlim : call.predictedEnd < offsetLimit := by
    unfold Call.predictedEnd saturatingAdd offsetLimit
    omega
  rcases h.requested with ⟨hreach, hper, hbound⟩
  refine { h with
    requested := ⟨le_trans hreach (le_max_left _ _), le_trans hper (le_max_left _ _),
      max_lt hbound hlim⟩
    calls := ?_
    holder := ?_
    writer := ?_ }
  · intro k other hother
    rcases getElem?_insert_cases hother with ⟨_, rfl⟩ | ⟨_, hother⟩
    · subst hcall
      refine ⟨hbase.le, ⟨hbase ▸ hnext, hspan, hsmall⟩, hidentity, ?_, le_max_right _ _, by simp,
        by simp⟩
      rw [hlog, Option.elim_some]
    · exact h.callSound (le_max_left _ _) le_rfl hother
  · intro k hk
    cases hk
    refine ⟨call, ?_, ?_⟩
    · simp only [getElem?_insert_eq, if_true]
    · subst hcall
      exact ⟨hbase, rfl⟩
  · intro k target hk
    rcases h.writer k target hk with ⟨hle, other, hother, hrest⟩
    refine ⟨le_trans hle (le_max_left _ _), other, ?_, hrest⟩
    -- The call that writes the checkpoint began earlier.
    have hne : id ≠ k := by
      rintro rfl
      exact hid (mem_iff_exists.mpr ⟨_, hother⟩)
    simp only [getElem?_insert_eq, if_neg hne]
    exact hother

theorem start_sound (id : Nat) (request : Request) (hsafe : s.SafeStart request) :
    Sound (s.start id request) log := by
  unfold Runtime.start
  by_cases hbusy : s.holder.isSome = true ∨ id ∈ s.calls
  · rw [if_pos hbusy]
    exact h
  rw [if_neg hbusy]
  rw [not_or, Option.not_isSome_iff_eq_none] at hbusy
  have haccept := Session.accept_yields s.partition request
  unfold Yields Ends at haccept
  generalize Partition.accept request s.partition = out at haccept ⊢
  rcases out with ⟨r, partition⟩
  rcases haccept with ⟨⟨c', hpartition, hrecalls⟩, hjustified⟩
  simp only [] at hpartition
  subst hpartition
  have h' := h.withCoordinator hrecalls
  rcases r with e | acceptance
  · exact h'
  · have hfound := hjustified acceptance rfl
    cases acceptance with
    | duplicate answer =>
      have hholds := holds_of_repeats h hsafe hfound
      exact h'.withAnswer hholds
    | proceed baseOffset identity? => exact h'.begin hbusy.2 hfound rfl

/-- The second half of a call, as far as the log is concerned. -/
theorem appendAccepted_log (hbase : call.baseOffset = log.nextOffset)
    (hcall : CallSound s log call) :
    (Partition.appendAccepted call.request call.baseOffset call.identity?).Ends s.partition
      fun r p' => ∃ log', Continued s.partition.replication log' p'.replication ∧
        Written log log' call.request.records.offsetSpan (call.request.records.assigned
          call.baseOffset s.partition.descriptor.leaderEpoch).length ∧
        ∀ answer, r = .ok answer → Adds log log'
          (call.request.batch call.baseOffset s.partition.descriptor.leaderEpoch)
          answer.result := by
  have hlim : log.nextOffset + call.request.records.offsetSpan < offsetLimit := by
    have := hcall.small
    unfold offsetLimit
    omega
  unfold Partition.appendAccepted
  refine Ends.get_bind (Ends.bind (Ends.attempt ?_))
  refine (Session.onReplication_ends (append_alone h.alone h.durable _ _ call.request.timestampMs
    _ _ call.request.acknowledgments hlim)).mono ?_
  rintro r p1 ⟨r0, q, ⟨log', hcontinued, hwritten, hanswer⟩, rfl, rfl⟩
  rw [h.epoch, ← hbase] at hanswer
  cases r0 with
  | error e =>
    rcases hidentity : call.identity? with _ | identity
    · exact Ends.bind (Ends.pure (Ends.fail ⟨log', hcontinued, hwritten, by simp⟩))
    · refine Ends.bind ((Session.onCoordinator_ends (P := fun _ _ => True) trivial).mono ?_)
      rintro r p2 ⟨r1, c1, _, rfl, rfl⟩
      cases r1 with
      | error e' => exact ⟨log', hcontinued, hwritten, by simp⟩
      | ok _ => exact Ends.fail ⟨log', hcontinued, hwritten, by simp⟩
  | ok answer =>
    have hadds := hanswer answer rfl
    rcases hidentity : call.identity? with _ | identity
    · refine Ends.bind (Ends.pure (Ends.pure ⟨log', hcontinued, hwritten, ?_⟩))
      rintro _ ⟨⟩
      exact hadds
    · refine Ends.bind ((Session.onCoordinator_ends (P := fun _ _ => True) trivial).mono ?_)
      rintro r p2 ⟨r1, c1, _, rfl, rfl⟩
      cases r1 with
      | error e' => exact ⟨log', hcontinued, hwritten, by simp⟩
      | ok _ =>
        refine Ends.pure ⟨log', hcontinued, hwritten, ?_⟩
        rintro _ ⟨⟩
        exact hadds

/-- The log was written while the call had the lock, and the lock is given
    back. -/
theorem Sound.withLog (hholder : s.holder = some id) (hcall : s.calls[id]? = some call)
    (hbase : call.baseOffset = log.nextOffset) (hsafe : s.SafeAppend) {p' : Partition}
    (hname : p'.name = s.partition.name) (hdescriptor : p'.descriptor = s.partition.descriptor)
    (hcontinued : Continued s.partition.replication log' p'.replication)
    (hwritten : Written log log' call.request.records.offsetSpan (call.request.records.assigned
      call.baseOffset s.partition.descriptor.leaderEpoch).length)
    (hremembers : ∀ pid batch, p'.coordinator.lastBatch s.partition.name pid =
      some batch → Remembers log'.contents pid batch) :
    Sound { s with partition := p', holder := none } log' := by
  have hsound := h.calls id call hcall
  have hlog := h.leaderLog
  have hend := predictedEnd_eq hsound.small.1 hsound.small.2.2
  have hnext : log.nextOffset ≤ log'.nextOffset ∧ log'.nextOffset ≤ s.requested := by
    have hreq := hsound.requested
    have hreach := h.requested.1
    rcases hwritten.batches with ⟨_, hsame⟩ | ⟨_, _, _, _, hmore⟩
    · omega
    · omega
  have hcontents := hwritten.subset
  refine ⟨hdescriptor ▸ h.single, ?_, ?_, hcontinued.alone h.alone, hwritten.durable,
    hwritten.config ▸ h.valid, ?_, ⟨hnext.2, h.requested.2⟩,
    ⟨le_trans h.floor.1 hnext.1, h.floor.2⟩,
    hwritten.logStartOffset ▸ h.logStart, ?_, by simp, h.writer, ?_, ?_⟩
  · show p'.replication.leader = p'.descriptor.leaderId
    rw [hcontinued.leader, hdescriptor, h.leads]
  · show p'.replication.epoch = p'.descriptor.leaderEpoch
    rw [hcontinued.epoch, hdescriptor, h.epoch]
  · intro w hw
    rcases hsafe id hholder call hcall log hlog w hw with ⟨hover, hrotate⟩
    rw [hend, hbase] at hover
    exact (h.watermarks w hw).written h.durable hwritten hover hrotate
  · intro k other hother
    exact (h.calls k other hother).mono hnext.1 hwritten.logStartOffset le_rfl le_rfl hcontents
  · intro a ha
    exact (h.answered a ha).mono hcontents le_rfl
  · intro pid batch hbat
    simp only [hname] at hbat
    exact hremembers pid batch hbat

theorem append_sound (hsafe : s.SafeAppend) : ∃ log', Sound s.append log' := by
  unfold Runtime.append
  rcases hholder : s.holder with _ | id
  · exact ⟨log, h⟩
  rcases h.holder id hholder with ⟨call, hcall, hbase, hstage⟩
  have hsound := h.calls id call hcall
  have hlog := h.leaderLog
  have hacc : Session.Accepted s.partition call.request call.baseOffset call.identity? :=
    ⟨hsound.identity, hsound.small.2.1, hsound.small.2.2, log, hlog, hbase,
      hbase ▸ hsound.small.1⟩
  have hends := (appendAccepted_log h hbase hsound).and
    (Session.appendAccepted_ends h.leads call.request call.baseOffset call.identity? hacc)
  simp only [hcall]
  unfold Ends at hends
  generalize Partition.appendAccepted call.request call.baseOffset call.identity? s.partition = out
    at hends ⊢
  rcases out with ⟨r, p'⟩
  rcases hends with ⟨⟨log', hcontinued, hwritten, hanswer⟩, hproduced, _⟩
  simp only [] at hcontinued hproduced hanswer
  -- A batch that the coordinator did not know before is the one just stored.
  have hremembers : ∀ pid batch,
      p'.coordinator.lastBatch s.partition.name pid = some batch →
        Remembers log'.contents pid batch := by
    intro pid batch hbat
    rcases hproduced.remembered pid batch hbat with hold | ⟨answer, hr, _, hstored⟩
    · exact (h.remembered pid batch hold).mono hwritten.subset
    · rcases hstored with ⟨identity, hidentity, hid, hepoch, hseq, hcount, hfrom, hto⟩
      rcases hanswer answer hr with ⟨hfirst, hlast, hcontents⟩
      rw [hfirst] at hfrom
      refine ⟨call.request, s.partition.descriptor.leaderEpoch, ?_, ?_, identity, hidentity, hid,
        hepoch, hseq, hcount⟩
      · rw [hcontents, ← hfrom]
        exact mem_concat_self
      · rw [← hto, hlast, ← hfrom]
        rfl
  have h' := h.withLog hholder hcall hbase hsafe hproduced.name hproduced.descriptor hcontinued
    hwritten hremembers
  -- The call goes on with its task; only its append is over.
  have hcall' : ∀ stage, (∀ answer, stage = .stored answer →
      Holds log'.contents call.predictedEnd call.request answer) →
      Sound ({ s with partition := p', holder := none }.setCall id { call with append := stage })
        log' := by
    intro stage hstored
    have hsound' := h'.calls id call hcall
    exact h'.setCall { hsound' with stored := hstored } (by simp) (h'.call_eq hcall).2
  cases r with
  | error e => exact ⟨log', hcall' .failed (by simp)⟩
  | ok answer =>
    refine ⟨log', hcall' (.stored answer) ?_⟩
    rintro _ ⟨⟩
    rcases hanswer answer rfl with ⟨hfirst, hlast, hmore⟩
    have hend := predictedEnd_eq hsound.small.1 hsound.small.2.2
    refine ⟨call.request, s.partition.descriptor.leaderEpoch, Or.inl rfl, ?_, ?_, ?_⟩
    · rw [hfirst, hmore]
      exact mem_concat_self
    · rw [hfirst, hlast]
      exact le_rfl
    · have := hsound.small.2.1
      rw [hfirst, hend]
      show call.baseOffset + (call.request.records.offsetSpan - 1) < _
      omega

theorem lock_sound (id : Nat) : Sound (s.lock id) log := by
  unfold Runtime.lock
  rcases hwriter : s.writer with _ | locked
  swap
  · exact h
  rcases hcall : s.calls[id]? with _ | call
  · exact h
  have hsound := h.calls id call hcall
  by_cases hspawned : call.task = .spawned
  swap
  · simp only [if_neg hspawned]
    exact h
  simp only [if_pos hspawned]
  by_cases hcovers : call.predictedEnd ≤ s.persisted
  · rw [if_pos hcovers]
    exact h.setCall { hsound with finished := fun _ => hcovers } (h.call_eq hcall).1
      (by simp [hwriter])
  · rw [if_neg hcovers, max_eq_left hsound.requested]
    rcases h.requested with ⟨hreach, hper, hbound⟩
    refine { h with
      watermarks := ?_, calls := fun _ _ => h.callSound le_rfl le_rfl, writer := ?_ }
    · -- The watermark is chosen at or past the end of the log.
      intro w hw
      rcases mem_cons.mp hw with rfl | hw
      · exact h.watermarks _ mem_cons_self
      · rw [Option.toList_some, map_singleton, mem_singleton] at hw
        rw [hw]
        exact clear_of_past h.durable hper hbound hreach
    · intro k target hk
      cases hk
      exact ⟨le_rfl, call, hcall, hsound.requested, hspawned⟩

/-- The checkpoint lock is given back with a new record on disk, or the old one. -/
theorem Sound.withCheckpoint (hwriter : s.writer = some (id, target))
    (hcall : s.calls[id]? = some call)
    (hcheckpoint : checkpoint = s.checkpoint ∨ checkpoint = call.checkpoint target)
    (hper : persisted = s.persisted ∨
      persisted = target ∧ checkpoint = call.checkpoint target) :
    Sound { s with checkpoint, persisted, writer := none } log := by
  rcases h.writer id target hwriter with ⟨hle, other, hother, hpredicted, _⟩
  have hsound := h.calls id call hcall
  cases Option.mem_unique hcall hother
  have hclear := h.target_clear hwriter
  have hgrows : s.persisted ≤ persisted ∧ persisted ≤ s.requested := by
    have := h.requested
    have := hclear.persisted
    rcases hper with rfl | ⟨rfl, _⟩ <;> omega
  refine { h with
    watermarks := ?_
    requested := ⟨h.requested.1, hgrows.2, h.requested.2.2⟩
    floor := ?_
    logStart := ⟨le_trans h.logStart.1 hgrows.1, ?_⟩
    calls := fun _ _ => h.callSound le_rfl hgrows.1
    writer := by simp
    answered := fun a ha => (h.answered a ha).mono (List.Subset.refl _) hgrows.1 }
  · intro w hw
    have hw : w = checkpoint.highWatermark := mem_singleton.mp hw
    have hnew : Clear log s.persisted w := by
      rcases hcheckpoint with rfl | rfl
      · exact hw ▸ h.watermarks _ mem_cons_self
      · exact hw ▸ hclear
    refine ⟨?_, hnew.bounded, hnew.tiled, hnew.clean, hnew.closed⟩
    rcases hper with rfl | ⟨rfl, rfl⟩
    · exact hnew.persisted
    · exact hw.symm.le
  · rcases hcheckpoint with rfl | rfl
    · exact h.floor
    · refine ⟨hsound.base, ?_⟩
      have := predictedEnd_eq hsound.small.1 hsound.small.2.2
      show call.baseOffset ≤ target
      omega
  · rcases hcheckpoint with rfl | rfl
    · exact h.logStart.2
    · show call.logStartOffset ≤ target
      rw [hsound.logStart]
      exact le_trans h.logStart.1 hclear.persisted

theorem write_sound (outcome : Outcome) : Sound (s.write outcome) log := by
  unfold Runtime.write
  rcases hwriter : s.writer with _ | ⟨id, target⟩
  · exact h
  rcases h.writer id target hwriter with ⟨_, call, hcall, hpredicted, _⟩
  have hsound := h.calls id call hcall
  have hholder := (h.call_eq hcall).1
  have hclear := h.target_clear hwriter
  simp only [hcall]
  cases outcome with
  | done =>
    have h' := h.withCheckpoint hwriter hcall (Or.inr rfl)
      (Or.inr ⟨max_eq_right hclear.persisted, rfl⟩)
    exact h'.setCall { hsound with finished := fun _ => le_trans hpredicted (le_max_right _ _) }
      hholder (by simp)
  | refused =>
    have h' := h.withCheckpoint hwriter hcall (Or.inl rfl) (Or.inl rfl)
    exact h'.setCall { hsound with finished := by simp } hholder (by simp)
  | late =>
    have h' := h.withCheckpoint hwriter hcall (Or.inr rfl) (Or.inl rfl)
    exact h'.setCall { hsound with finished := by simp } hholder (by simp)

/-- A call that has neither lock can go. -/
theorem Sound.dropCall (hholder : s.holder ≠ some id)
    (hwriter : ∀ target, s.writer ≠ some (id, target)) :
    Sound { s with calls := s.calls.erase id } log := by
  have hlook : ∀ k, k ≠ id → (s.calls.erase id)[k]? = s.calls[k]? := by
    intro k hk
    rw [getElem?_erase_eq, if_neg (Ne.symm hk)]
  refine { h with calls := ?_, holder := ?_, writer := ?_ }
  · intro k other hother
    simp only [getElem?_erase_eq] at hother
    by_cases hk : id = k
    · rw [if_pos hk] at hother
      cases hother
    · rw [if_neg hk] at hother
      exact h.callSound le_rfl le_rfl hother
  · intro k hk
    rcases h.holder k hk with ⟨other, hother, hrest⟩
    refine ⟨other, ?_, hrest⟩
    exact (hlook k (by rintro rfl; exact hholder hk)).trans hother
  · intro k target hk
    rcases h.writer k target hk with ⟨hle, other, hother, hrest⟩
    refine ⟨hle, other, ?_, hrest⟩
    exact (hlook k (by rintro rfl; exact hwriter target hk)).trans hother

theorem answer_sound (id : Nat) : Sound (s.answer id) log := by
  unfold Runtime.answer
  rcases hcall : s.calls[id]? with _ | call
  · exact h
  have hsound := h.calls id call hcall
  simp only []
  split
  swap
  · exact h
  next answer hstage htask =>
    have hholds := (hsound.stored answer hstage).mono (fun _ hb => hb) (hsound.finished htask)
    -- Neither lock is with the call: its append is over and its task as well.
    refine (h.withAnswer hholds).dropCall ?_ ?_
    · intro hholder
      cases hstage.symm.trans ((h.call_eq hcall).1 hholder).2
    · intro target hwriter
      cases htask.symm.trans ((h.call_eq hcall).2 target hwriter).2

end

/-- Every step that meets its condition keeps the runtime sound. -/
theorem step_sound (op : RuntimeOp) (h : ∃ log, Sound s log) (hsafe : s.Safe op) :
    ∃ log, Sound (s.step op) log := by
  rcases h with ⟨log, h⟩
  cases op with
  | start id request => exact ⟨log, start_sound h id request hsafe⟩
  | append => exact append_sound h hsafe
  | lock id => exact ⟨log, lock_sound h id⟩
  | write outcome => exact ⟨log, write_sound h outcome⟩
  | answer id => exact ⟨log, answer_sound h id⟩
  | coordinate op => exact ⟨log, h.withCoordinator (step_recalls _ op hsafe)⟩

end Steps

/-- A runtime before its first call. -/
structure Opened (s : Runtime) : Prop where
  sound : ∃ log, Sound s log
  calls : s.calls = ∅
  answered : s.answered = []

/-! ## Coming back -/

/-- What a crash leaves: the checkpoint record and the extents. The script is
    that of the machine after the crash. -/
def disk (s : Runtime) (script : Nat → Io) : ReplicaFiles :=
  fun broker => (s.checkpoint, s.partition.replication.replicas[broker]?.elim ⟨∅, script, 0⟩
    fun log => { log.store with script, clock := 0 })

/-- The log that comes back after a crash. -/
structure Recovered (s : Runtime) (log : OrderedLog) (promisedEpoch : Nat) (log' : OrderedLog)
    (highWatermark : Nat) : Prop where
  reopened : ∃ logStart, logStart ≤ highWatermark ∧
    Reopened log ⟨promisedEpoch, highWatermark, logStart⟩ log'
  bounded : highWatermark ≤ s.checkpoint.highWatermark
  floor : s.checkpoint.safeFloor ≤ highWatermark
  kept : ∀ b ∈ log.contents, b.lastOffset < s.persisted → b.lastOffset < highWatermark

section Reopening

variable {s : Runtime} {log : OrderedLog} {store : Store}

variable {highWatermark : Nat}

end Reopening

/-- A set of records without a producer. -/
def records (count : Nat) (byte : UInt8) : Request where
  brokerId := 0
  timestampMs := 10
  records :=
    { offsetSpan := count
      identities := []
      assigned := fun _ _ => [byte]
      counted := by simp }
  acknowledgments := .all

end Runtime

end Kafka

end Pepper
