import Pepper.Theory.Log.CatchUp

/-!
# Watermarks Only Rise

No call of replication lowers the high watermark of a log, and an append that
reaches the minimum number of replicas raises the leader's watermark over the
batch.

Nothing here needs logs to be well formed: watermarks are moved by `commit`
alone, which refuses to lower one.

## Main definitions

* `Raised`: The watermark of a log did not go down.
* `LogsRaised`: The same for the logs of a partition under one leadership.

## Theorems

* `append_commits`: What a successful append has done.
* `recoverReplica_raised`, `setOnline_raised`: The other calls on a partition.
-/

namespace Pepper

namespace Log

open Fallible

/-- The watermark did not go down. -/
def Raised (log log' : OrderedLog) : Prop :=
  log.highWatermark ≤ log'.highWatermark

instance instIsPreorderRaised : IsPreorder OrderedLog Raised where
  refl _ := le_refl _
  trans _ _ _ := le_trans

/-! ## Calls on one log -/

variable (epoch : Nat)

theorem appendAssigned_raised (base time count : Nat) (payload : List UInt8) :
    (appendAssigned epoch base time count payload).Moves Raised := by
  intro log
  show Ends _ log fun _ log' => Raised log log'
  refine (appendAssigned_cases log epoch base time count payload).mono ?_
  rintro r log' ⟨log1, hturns, _, hr⟩
  have hraised : Raised log log1 := hturns.rotated.highWatermark.ge
  cases r with
  | error e => exact hr ▸ hraised
  | ok result =>
    rcases hr.2.2.2 with ⟨_, _, _, clock⟩
    exact hraised

theorem append_raised_log (time count : Nat) (payload : List UInt8) :
    (append epoch time count payload).Moves Raised := by
  unfold append
  exact Moves.get_bind fun _ => Moves.require_bind fun _ => appendAssigned_raised _ _ _ _ _

theorem replicateWithIdentity_raised
    (commandEpoch recordEpoch base time count : Nat) (payload : List UInt8) :
    (replicateWithIdentity commandEpoch recordEpoch base time count payload).Moves Raised := by
  unfold replicateWithIdentity
  exact Moves.get_bind fun _ => Moves.require_bind fun _ => appendAssigned_raised _ _ _ _ _

theorem commit_raises (log : OrderedLog) (epoch mark : Nat) :
    (commit epoch mark).Yields Raised log fun _ log' =>
      log'.highWatermark = mark := by
  unfold commit
  refine Yields.get_bind (Yields.require_bind fun _ => Yields.require_bind fun hc => ?_)
  exact Yields.modify hc.1 rfl

/-- Reading goes on in the store alone. -/
theorem readLocations_moves {R : OrderedLog → OrderedLog → Prop} [IsPreorder OrderedLog R]
    (hstore : ∀ log store, R log { log with store }) (l : List BatchLocation) :
    (readLocations l).Moves R := by
  induction l with
  | nil => exact Moves.pure []
  | cons b rest ih =>
    refine Moves.bind ?_ fun _ => Moves.bind ih fun _ => Moves.pure _
    exact Moves.bind (fun log => hstore log _) fun _ => Moves.pure _

theorem fetch_raised (offset maximumBytes : Nat) (committedOnly : Bool) :
    (fetch offset maximumBytes committedOnly).Moves Raised := by
  unfold fetch
  refine Moves.get_bind fun _ => Moves.require_bind fun _ => ?_
  exact Moves.bind (readLocations_moves (fun log _ => refl_of Raised log) _) fun _ => Moves.pure _

/-- What a successful append reports. -/
theorem append_reports (log : OrderedLog) (epoch time count : Nat) (payload : List UInt8) :
    (append epoch time count payload).Yields Raised log fun result _ =>
      result.baseOffset = log.nextOffset ∧ count ≠ 0 ∧
        result.lastOffset = log.nextOffset + (count - 1) := by
  refine Ends.and ((append_raised_log epoch time count payload).ends log) ?_
  unfold append
  refine Ends.get_bind (Ends.require_bind (fun _ => by simp) fun _ => ?_)
  refine (appendAssigned_cases log epoch _ time count payload).mono ?_
  rintro r log' ⟨_, _, _, hr⟩ result rfl
  rcases hr with ⟨_, hcount, rfl, _⟩
  exact ⟨rfl, hcount, rfl⟩

/-! ## Calls on a partition -/

/-- Leadership and quorum are as they were, and no log's watermark went down. -/
structure LogsRaised (p p' : ReplicatedPartition) : Prop where
  leader : p'.leader = p.leader
  minimumIsr : p'.minimumIsr = p.minimumIsr
  logs : ∀ (n : Nat) (log : OrderedLog), p.replicas[n]? = some log →
    ∃ log', p'.replicas[n]? = some log' ∧ Raised log log'

/-- A partition whose logs are the same ones. -/
theorem LogsRaised.of_replicas {p p' : ReplicatedPartition} (hleader : p'.leader = p.leader)
    (hminimum : p'.minimumIsr = p.minimumIsr) (hreplicas : p'.replicas = p.replicas) :
    LogsRaised p p' :=
  ⟨hleader, hminimum, fun n log hlog => ⟨log, by rw [hreplicas, hlog], refl_of Raised log⟩⟩

instance instLiftsRaised : Lifts Raised LogsRaised where
  refl _ := LogsRaised.of_replicas rfl rfl rfl
  trans := by
    intro p q r hpq hqr
    refine ⟨hqr.leader.trans hpq.leader, hqr.minimumIsr.trans hpq.minimumIsr, ?_⟩
    intro n log hlog
    rcases hpq.logs n log hlog with ⟨log1, hlog1, h1⟩
    rcases hqr.logs n log1 hlog1 with ⟨log2, hlog2, h2⟩
    exact ⟨log2, hlog2, trans_of Raised h1 h2⟩
  insert := by
    intro p node log log' hlog hraised
    refine ⟨rfl, rfl, ?_⟩
    intro n a ha
    simp only [getElem?_insert_eq]
    by_cases hn : node = n
    · subst hn
      cases Option.mem_unique hlog ha
      exact ⟨_, if_pos rfl, hraised⟩
    · exact ⟨a, by rw [if_neg hn, ha], refl_of Raised a⟩

/-- After commits on a list of nodes each of them has the watermark. -/
theorem commits_raised (mark : Nat) (nodes : List Nat) (p : ReplicatedPartition) :
    Yields LogsRaised (ForM.forM nodes fun node => onReplica node (commit epoch mark)) p
      fun _ p' => ∀ n ∈ nodes, ∃ log, p'.replicas[n]? = some log ∧ mark ≤ log.highWatermark := by
  induction nodes generalizing p with
  | nil => exact Yields.pure (by simp)
  | cons node nodes ih =>
    refine Yields.bind (onReplica_yields p node fun log _ => commit_raises log epoch _) ?_
    rintro _ p1 _ ⟨_, log1, _, hlog1, _, hhigh⟩
    refine (ih p1).mono ?_
    intro _ p2 h2 hrest n hn
    rcases List.mem_cons.mp hn with rfl | hn
    · rcases h2.logs n log1 hlog1 with ⟨log2, hlog2, hraised2⟩
      exact ⟨log2, hlog2, hhigh.ge.trans hraised2⟩
    · exact hrest n hn

theorem commitOn_raised (mark : Nat) (durable : BTreeSet Nat) (p : ReplicatedPartition) :
    (ReplicatedPartition.commitOn epoch mark durable).Yields LogsRaised p
      fun _ p' => ∀ n ∈ durable, ∃ log, p'.replicas[n]? = some log ∧ mark ≤ log.highWatermark := by
  refine Yields.bind (commits_raised epoch mark durable.toList p) ?_
  intro _ p1 _ hall
  refine Yields.modify (LogsRaised.of_replicas rfl rfl rfl) fun n hn => ?_
  exact hall n (Std.ExtTreeSet.mem_toList.mpr hn)

/-- What a successful append has done: the offsets are the leader's next ones,
    and a batch with enough replicas is below the leader's watermark. -/
structure Commits (p p' : ReplicatedPartition) (recordCount : Nat)
    (acknowledgments : Acknowledgments) (answer : ReplicatedAppend) : Prop where
  offsets : ∃ log, p.replicas[p.leader]? = some log ∧ answer.result.baseOffset = log.nextOffset ∧
      answer.result.lastOffset = log.nextOffset + (recordCount - 1)
  counted : recordCount ≠ 0
  stored : p.leader ∈ answer.durableReplicas
  acknowledged : acknowledgments = .all → answer.acknowledged = true →
    p.minimumIsr ≤ answer.durableReplicas.size
  committed : p.minimumIsr ≤ answer.durableReplicas.size →
    ∃ log', p'.replicas[p.leader]? = some log' ∧
      wrappingSucc answer.result.lastOffset ≤ log'.highWatermark

theorem append_commits (p : ReplicatedPartition)
    (claimedLeader claimedEpoch time count : Nat) (payload : List UInt8)
    (acknowledgments : Acknowledgments) :
    (ReplicatedPartition.append claimedLeader claimedEpoch time count payload
      acknowledgments).Yields LogsRaised p fun answer p' =>
        Commits p p' count acknowledgments answer := by
  unfold ReplicatedPartition.append
  refine Yields.get_bind (Yields.require_bind fun _ => Yields.require_bind fun _ => ?_)
  refine Yields.bind (onReplica_yields p p.leader fun log _ => append_reports log _ _ _ _) ?_
  rintro result p1 _ ⟨log, _, hlog, _, _, hbase, hcount, hlast⟩
  refine Yields.bind (replicateTo_yields (replicateWithIdentity_raised _ _ _ _ _ _) _ _ p1) ?_
  intro durable p2 _ hkept
  have hleader : p.leader ∈ durable := by
    refine hkept p.leader ?_
    rw [Std.ExtTreeSet.mem_ofList]
    simp
  by_cases henough : decide (p.minimumIsr ≤ durable.size) = true
  · rw [if_pos henough]
    refine Yields.bind (commitOn_raised p.epoch (wrappingSucc result.lastOffset) durable p2) ?_
    intro _ p3 _ hall
    refine Yields.pure ⟨⟨log, hlog, hbase, hlast⟩, hcount, hleader, ?_, ?_⟩
    · exact fun _ _ => of_decide_eq_true henough
    · exact fun _ => hall p.leader hleader
  · rw [if_neg henough]
    have hfew : ¬ p.minimumIsr ≤ durable.size := fun h => henough (decide_eq_true h)
    refine Ends.bind (Ends.pure (Yields.pure ⟨⟨log, hlog, hbase, hlast⟩, hcount, hleader, ?_, ?_⟩))
    · rintro rfl hack
      simp only [hfew, decide_false, Bool.false_and] at hack
      cases hack
    · exact fun h => absurd h hfew

theorem copyBatches_raised (target epoch : Nat) (l : List FetchedBatch) :
    (ReplicatedPartition.copyBatches target epoch l).Moves LogsRaised := by
  induction l with
  | nil => exact Moves.pure ()
  | cons b rest ih =>
    refine Moves.require_bind fun _ => ?_
    exact Moves.bind (onReplica_moves target (replicateWithIdentity_raised _ _ _ _ _ _)) fun _ => ih

theorem catchUp_raised (source target through epoch : Nat) :
    (ReplicatedPartition.catchUp source target through epoch).Moves LogsRaised := by
  refine Moves.bind (fun p => (logEnd_yields p target).1) fun targetEnd => ?_
  by_cases hsame : source = target
  · rw [if_pos hsame]
    exact Moves.require
  · rw [if_neg hsame]
    exact Moves.require_bind fun _ =>
      Moves.bind (onReplica_moves source (fetch_raised _ _ _)) fun _ =>
        Moves.bind (copyBatches_raised target epoch _) fun _ =>
          onReplica_moves target fun log => (commit_raises log epoch through).1

theorem recoverReplica_raised (node : Nat) :
    (ReplicatedPartition.recoverReplica node).Moves LogsRaised := by
  unfold ReplicatedPartition.recoverReplica
  refine Moves.get_bind fun _ => Moves.require_bind fun _ => ?_
  refine Moves.bind (Moves.modify fun _ => LogsRaised.of_replicas rfl rfl rfl) fun _ => ?_
  exact Moves.bind (catchUp_raised _ _ _ _) fun _ =>
    Moves.modify fun _ => LogsRaised.of_replicas rfl rfl rfl

theorem setOnline_raised (node : Nat) (online : Bool) :
    (ReplicatedPartition.setOnline node online).Moves LogsRaised := by
  unfold ReplicatedPartition.setOnline
  refine Moves.get_bind fun _ => Moves.require_bind fun _ => ?_
  exact Moves.modify fun _ => LogsRaised.of_replicas rfl rfl rfl

end Log

end Pepper
