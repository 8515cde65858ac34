import Pepper.Core.CoordinatorModels
import Pepper.Theory.Partition.Safety

/-!
# Refused Calls of the Executable Models

None of the four models rolls a failing call back, so a call that assigns
before its last test may change the state and still return an error.

In the partition model nothing is left to fail after the first assignment, as
long as commits are propagated under the condition of the safety theorem. A
transaction writes a marker before it looks for the old one, but all markers
of one phase are equal, so the second one changes nothing. The other two can
fail at the end of their numbers. A batch that ends at the last sequence
number is put into the table before its successor is found not to exist: the
call fails, and the retry is answered as a duplicate of a batch that was never
appended. A group whose generation is the last one changes its members before
the rebalance fails.

## Main definitions

* `Unchanged`: A call that fails leaves the state as it is.
* `ProducerRun`: A producer with the batches it has returned as appended.
* `EndsEarlier`, `HasGeneration`: The batch does not end at the last sequence
  number; the group has a generation left if its members change.

## Theorems

* `refused_calls_change_nothing`: The four models, over all runs.
* `refused_batch_is_answered`: The batch at the end of the sequence numbers.
-/

namespace Pepper

namespace KafkaModel

/-- A call that fails leaves the state as it is. -/
def Unchanged {σ α : Type} (s : σ) (out : Except ModelError α × σ) : Prop :=
  ∀ e, out.1 = .error e → out.2 = s

theorem Unchanged.map {σ α β : Type} {s : σ} {out : Except ModelError α × σ} (h : Unchanged s out)
    (f : α → β) : Unchanged s (out.1.map f, out.2) := by
  intro e he
  rcases hout : out.1 with e' | a
  · exact h e' hout
  · simp only [hout, Except.map, reduceCtorEq] at he

/-! ## The partition -/

theorem Safe.unchanged {m : PartitionModel} {committed : List LogEntry} (h : Safe m committed)
    {op : Op} (hguard : PropagatesLeaderLog m op) : Unchanged m (op.apply m) := by
  cases hop : op.isPropagation with
  | false => exact (apply_settles h op hop).2
  | true =>
    cases op with
    | propagateCommit node offset =>
      -- The watermark is assigned only where the final check then succeeds.
      have hcheck := checkInvariants_of_safe (propagateCommit_safe h hguard)
      unfold Unchanged Op.apply PartitionModel.propagateCommit at *
      grind
    | _ => simp only [Op.isPropagation, reduceCtorEq] at hop

/-! ## The producer -/

/-- A producer, with the batches it has returned as appended. -/
structure ProducerRun where
  state : ProducerState
  appended : List AcceptedBatch

namespace ProducerRun

def start (epoch : Nat) : ProducerRun :=
  ⟨.new epoch, []⟩

def step (run : ProducerRun) (op : ProducerOp) : ProducerRun :=
  match op.apply run.state with
  | (.ok (some (.appended batch)), s) => ⟨s, run.appended ++ [batch]⟩
  | (_, s) => ⟨s, run.appended⟩

/-- Every batch in the table has been returned as appended. -/
def Backed (run : ProducerRun) : Prop :=
  ∀ (first : Nat) batch, run.state.accepted[first]? = some batch → batch ∈ run.appended

end ProducerRun

/-- A batch that passes all other tests does not end at the last sequence
    number. -/
def EndsEarlier (s : ProducerState) : ProducerOp → Prop
  | .bumpEpoch _ => True
  | .produce epoch firstSequence count _ nextOffset =>
    ¬ (epoch = s.epoch ∧ firstSequence = s.nextSequence ∧ firstSequence ∉ s.accepted ∧ 0 < count ∧
      firstSequence + count = 2 ^ 32 ∧ nextOffset + (count - 1) < 2 ^ 64)

instance instDecidableEndsEarlier (s : ProducerState) : ∀ op, Decidable (EndsEarlier s op)
  | .bumpEpoch _ => isTrue trivial
  | .produce .. => inferInstanceAs (Decidable (¬ _))

/-- What a call can do: fail and change nothing, answer a batch from the
    table, start a new epoch, or append. -/
inductive Produces (s : ProducerState) :
    Except ModelError (Option ProduceOutcome) × ProducerState → Prop
  | refused (e : ModelError) : Produces s (.error e, s)
  | answered {first : Nat} {batch : AcceptedBatch} (h : s.accepted[first]? = some batch) :
    Produces s (.ok (some (.duplicate batch)), s)
  | renewed (epoch : Nat) : Produces s (.ok none, .new epoch)
  | appended (first : Nat) (batch : AcceptedBatch) (next : Nat) :
    Produces s (.ok (some (.appended batch)),
      { s with accepted := s.accepted.insert first batch, nextSequence := next })

variable {s : ProducerState} {run : ProducerRun} {g : GroupModel} {t : TransactionModel}

theorem produces_retry {first : Nat} {batch : AcceptedBatch} (h : s.accepted[first]? = some batch)
    (count digest : Nat) :
    Produces s ((ProducerState.retry batch first count digest).map some, s) := by
  unfold ProducerState.retry
  split
  · exact .refused _
  split
  · exact .refused _
  split
  · exact .answered h
  · exact .refused _

variable {op : ProducerOp}

theorem produces_apply (h : EndsEarlier s op) : Produces s (op.apply s) := by
  cases op with
  | bumpEpoch epoch =>
    unfold ProducerOp.apply ProducerState.bumpEpoch
    by_cases hfenced : epoch ≤ s.epoch
    · simp only [if_pos hfenced]
      exact .refused _
    · simp only [if_neg hfenced]
      exact .renewed epoch
  | produce epoch first count digest nextOffset =>
    unfold ProducerOp.apply ProducerState.produce
    by_cases hepoch : epoch ≠ s.epoch
    · simp only [if_pos hepoch]
      exact .refused _
    by_cases hcount : count = 0
    · simp only [if_neg hepoch, if_pos hcount]
      exact .refused _
    simp only [if_neg hepoch, if_neg hcount]
    rcases hacc : s.accepted[first]? with _ | batch
    case some => exact produces_retry hacc count digest
    by_cases hnext : first ≠ s.nextSequence
    · simp only [if_pos hnext]
      exact .refused _
    simp only [if_neg hnext]
    by_cases hlast : first + (count - 1) < 2 ^ 32
    case neg =>
      simp only [checkedAdd, if_neg hlast]
      exact .refused _
    by_cases hoff : nextOffset + (count - 1) < 2 ^ 64
    case neg =>
      simp only [checkedAdd, if_pos hlast, if_neg hoff]
      exact .refused _
    -- The batch is new and fits, so it does not end at the last number.
    have hmem : first ∉ s.accepted := by
      rw [mem_iff_exists, hacc]
      simp only [reduceCtorEq, exists_false, not_false_eq_true]
    have hend : first + (count - 1) + 1 < 2 ^ 32 := by
      by_contra hover
      refine h ⟨not_not.mp hepoch, not_not.mp hnext, hmem, ?_, ?_, hoff⟩ <;> omega
    simp only [checkedAdd, if_pos hlast, if_pos hoff, if_pos hend]
    exact .appended ..

theorem ProducerRun.step_backed (h : run.Backed) (hop : EndsEarlier run.state op) :
    (run.step op).Backed := by
  have hout := produces_apply hop
  unfold step
  generalize op.apply run.state = out at hout
  cases hout with
  | refused e => exact h
  | answered _ => exact h
  | renewed epoch =>
    intro first batch hbat
    simp only [ProducerState.new, Std.ExtTreeMap.getElem?_empty, reduceCtorEq] at hbat
  | appended first batch next =>
    intro first' batch' hbat
    rw [List.mem_append, List.mem_singleton]
    rcases getElem?_insert_cases hbat with ⟨_, heq⟩ | ⟨_, hold⟩
    · exact Or.inr heq
    · exact Or.inl (h first' batch' hold)

/-- A call that fails changes nothing, and a duplicate has been appended. -/
theorem ProducerRun.unchanged (h : run.Backed) (hop : EndsEarlier run.state op) :
    Unchanged run.state (op.apply run.state) ∧
      ∀ batch, (op.apply run.state).1 = .ok (some (.duplicate batch)) → batch ∈ run.appended := by
  have hout := produces_apply hop
  generalize op.apply run.state = out at hout
  unfold Unchanged
  cases hout with
  | refused e => simp
  | answered hbat => simpa using h _ _ hbat
  | renewed epoch => simp
  | appended first batch next => simp

/-! ## The group -/

/-- If the call changes the members, a generation is left. -/
def HasGeneration (g : GroupModel) : GroupOp → Prop
  | .join member => member = "" ∨ member ∈ g.members ∨ g.generation + 1 < 2 ^ 32
  | .leave member => member ∉ g.members ∨ g.generation + 1 < 2 ^ 32
  | .sync .. => True

theorem GroupModel.rebalance_error {e : ModelError} (h : g.rebalance.1 = .error e) :
    ¬ g.generation + 1 < 2 ^ 32 ∧ g.rebalance.2 = g := by
  unfold rebalance checkedAdd at *
  grind

theorem GroupOp.unchanged {op : GroupOp} (h : HasGeneration g op) : Unchanged g (op.apply g) := by
  cases op with
  | join member =>
    show Unchanged g ((g.join member).1.map some, (g.join member).2)
    refine Unchanged.map (fun e he => ?_) some
    unfold GroupModel.join at *
    by_cases hempty : member = ""
    · rw [if_pos hempty]
    · rw [if_neg hempty] at he ⊢
      rcases GroupModel.rebalance_error he with ⟨hlast, hsame⟩
      have hmem : member ∈ g.members := (h.resolve_left hempty).resolve_right hlast
      have hinsert : g.members.insert member = g.members := by
        refine Std.ExtTreeSet.ext_mem fun other => ?_
        rw [Std.ExtTreeSet.mem_insert, Std.LawfulEqOrd.compare_eq_iff_eq]
        exact or_iff_right_of_imp fun heq => heq ▸ hmem
      rw [hsame, hinsert]
  | leave member =>
    show Unchanged g ((g.leave member).1.map some, (g.leave member).2)
    refine Unchanged.map (fun e he => ?_) some
    unfold GroupModel.leave at *
    by_cases hmem : member ∉ g.members
    · rw [if_pos hmem]
    · rw [if_neg hmem] at he
      exact absurd (h.resolve_left hmem) (GroupModel.rebalance_error he).1
  | sync leader gen assignments =>
    show Unchanged g ((g.sync leader gen assignments).1.map fun _ => none,
      (g.sync leader gen assignments).2)
    refine Unchanged.map (fun e he => ?_) fun _ => none
    -- The final check repeats what has been tested.
    unfold GroupModel.sync GroupModel.checkInvariants at *
    have hstrangers : GroupModel.assignsStranger { g with assignments, synchronized := true }
        assignments = g.assignsStranger assignments := rfl
    grind

/-! ## The transaction -/

/-- The markers of a phase are those it waits for. -/
def TransactionModel.Marked (t : TransactionModel) : Prop :=
  (t.phase = .ongoing → t.markers = ∅) ∧ ∀ commit, t.expected = some commit → ∀ (part : Nat) marker,
      t.markers[part]? = some marker → marker = commit

/-- A marker that is written a second time is the one that is there. -/
theorem TransactionModel.Marked.insert_eq (h : t.Marked) {commit : Bool}
    (hcommit : t.expected = some commit) {part : Nat} (hmem : part ∈ t.markers) :
    t.markers.insert part commit = t.markers := by
  refine Std.ExtTreeMap.ext_getElem? fun other => ?_
  rw [getElem?_insert_eq]
  by_cases hsame : part = other
  · rcases mem_iff_exists.mp hmem with ⟨marker, hmarker⟩
    rw [if_pos hsame, ← hsame, hmarker, h.2 commit hcommit part marker hmarker]
  · rw [if_neg hsame]

theorem TransactionOp.step_marked (h : t.Marked) (op : TransactionOp) :
    (op.apply t).2.Marked ∧ Unchanged t (op.apply t) := by
  unfold Unchanged
  cases op with
  | begin producerEpoch =>
    unfold TransactionOp.apply TransactionModel.begin
    unfold TransactionModel.Marked TransactionModel.expected at *
    grind
  | append producerEpoch part firstOffset last =>
    unfold TransactionOp.apply TransactionModel.append
    unfold TransactionModel.Marked TransactionModel.expected at *
    grind
  | prepare producerEpoch commit =>
    unfold TransactionOp.apply TransactionModel.prepare
    unfold TransactionModel.Marked TransactionModel.expected at *
    grind
  | recordMarker producerEpoch part commit =>
    unfold TransactionOp.apply TransactionModel.recordMarker
    by_cases hepoch : producerEpoch ≠ t.producerEpoch
    · simp only [if_pos hepoch]
      exact ⟨h, fun _ _ => trivial⟩
    rcases hexpected : t.expected with _ | expected
    · simp only [if_neg hepoch]
      exact ⟨h, fun _ _ => trivial⟩
    by_cases hother : commit ≠ expected ∨ part ∉ t.partitions
    · simp only [if_neg hepoch, if_pos hother]
      exact ⟨h, fun _ _ => trivial⟩
    have hcommit : t.expected = some commit := by
      rw [hexpected, not_not.mp (not_or.mp hother).1]
    by_cases hmem : part ∈ t.markers
    · simp only [if_neg hepoch, if_neg hother, if_pos hmem, h.insert_eq hcommit hmem]
      exact ⟨h, fun _ _ => trivial⟩
    · simp only [if_neg hepoch, if_neg hother, if_neg hmem]
      refine ⟨⟨fun hphase => ?_, fun commit' hcommit' other marker hmarker => ?_⟩, by simp⟩
      · have hong : t.phase = .ongoing := hphase
        simp [TransactionModel.expected, hong] at hcommit
      · rcases getElem?_insert_cases hmarker with ⟨_, heq⟩ | ⟨_, hold⟩
        · exact heq.trans (Option.some.inj (hcommit.symm.trans hcommit'))
        · exact h.2 commit' hcommit' other marker hold
  | complete producerEpoch =>
    unfold TransactionOp.apply TransactionModel.complete
    unfold TransactionModel.Marked TransactionModel.expected at *
    grind

/-! ## Runs -/

/-- In every run that keeps to the conditions, a call that fails leaves the
    model as it is, and a producer answers as duplicates only batches that it
    has returned as appended. -/
theorem refused_calls_change_nothing (nodes : List Nat) (epoch producerId producerEpoch : Nat) :
    (∀ m0 m, PartitionModel.new nodes = .ok m0 → Reaches step PropagatesLeaderLog m0 m →
      ∀ op : Op, PropagatesLeaderLog m op → Unchanged m (op.apply m)) ∧
    (∀ run, Reaches ProducerRun.step (fun run op => EndsEarlier run.state op)
        (.start epoch) run → ∀ op : ProducerOp, EndsEarlier run.state op →
      Unchanged run.state (op.apply run.state) ∧ ∀ batch,
        (op.apply run.state).1 = .ok (some (.duplicate batch)) → batch ∈ run.appended) ∧
    (∀ g, Reaches (fun g op => (GroupOp.apply g op).2) HasGeneration .new g →
      ∀ op : GroupOp, HasGeneration g op → Unchanged g (op.apply g)) ∧
    (∀ t, Reaches (fun t op => (TransactionOp.apply t op).2) (fun _ _ => True)
        (.new producerId producerEpoch) t → ∀ op : TransactionOp, Unchanged t (op.apply t)) := by
  refine ⟨fun m0 m hnew hrun op hop => ?_, fun run hrun op hop => ?_,
    fun g _ op hop => GroupOp.unchanged hop, fun t hrun op => ?_⟩
  · rcases (reaches_safe ⟨[], new_safe hnew⟩ hrun).1 with ⟨committed, hsafe⟩
    exact hsafe.unchanged hop
  · refine ProducerRun.unchanged (hrun.invariant (I := ProducerRun.Backed)
      (fun _ _ h hop => ProducerRun.step_backed h hop) ?_) hop
    intro first batch hbatch
    simp only [ProducerRun.start, ProducerState.new, Std.ExtTreeMap.getElem?_empty,
      reduceCtorEq] at hbatch
  · refine (TransactionOp.step_marked (hrun.invariant (I := TransactionModel.Marked)
      (fun _ op h _ => (TransactionOp.step_marked h op).1) ?_) op).2
    exact ⟨fun _ => rfl, fun _ h => by simp [TransactionModel.expected, TransactionModel.new] at h⟩

/-- A batch at the last sequence number. -/
def lastBatch : ProducerOp :=
  .produce 0 (2 ^ 32 - 1) 1 6 7

theorem refused_retry_changes_nothing :
    ∃ run, run = runOps ProducerRun.step (.start 0) [.produce 0 0 3 5 0] ∧
      Unchanged run.state (lastBatch.apply run.state) :=
  ⟨_, rfl, ((refused_calls_change_nothing [] 0 0 0).2.1 _
    (reaches_runOps _ _ (by decide +kernel)) lastBatch (by decide +kernel)).1⟩

/-- A producer that has sent all sequence numbers but the last. -/
def nearlyDone : ProducerRun :=
  runOps ProducerRun.step (.start 0) [.produce 0 0 (2 ^ 32 - 1) 5 0]

/-- The batch at the last sequence number is refused, is in the table all the
    same, and its retry is answered as a duplicate. -/
theorem refused_batch_is_answered :
    (lastBatch.apply nearlyDone.state).1 = .error .sequenceOverflow ∧
      (lastBatch.apply nearlyDone.state).2 ≠ nearlyDone.state ∧
      (lastBatch.apply (nearlyDone.step lastBatch).state).1 =
        .ok (some (.duplicate ⟨2 ^ 32 - 1, 7, 7, 6⟩)) ∧
      ⟨2 ^ 32 - 1, 7, 7, 6⟩ ∉ (nearlyDone.step lastBatch).appended := by
  decide +kernel

end KafkaModel

end Pepper
