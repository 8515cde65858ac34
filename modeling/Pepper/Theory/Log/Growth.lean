import Pepper.Core.Replication
import Pepper.Theory.Log.Fetch

/-!
# Logs of a Partition Only Grow

Every call of a replicated partition leaves each of its logs with at least the
batches it had.

A log is compared before and after a call by two preorders. `Still` is for
calls that only move epochs and watermarks, and `Grown` for those that may
append. Both are stated for well-formed logs and carry well-formedness along.
`Related` lifts a preorder on logs to partitions with the same leader and high
watermark, and running a call on one replica lifts with it.

The offset type bounds every append: an append that would use up the last
offset is what the bound on `recordCount` excludes.

## Main definitions

* `Still`, `Grown`: What calls do to one log.
* `Related`: The same for the logs of a partition.
* `Lifts`: Relations on partitions that follow from one on a log.

## Theorems

* `promiseEpoch_still`, `activateLeader_still`, `commit_still`, `fetch_still`.
* `append_yields`, `replicateWithIdentity_grown`.
* `onReplica_yields`, `onReplica_moves`: A call on one replica, seen from the
  partition.
* `replicateTo_yields`: Copies of a batch on the followers.
-/

namespace Pepper

namespace Log

open Fallible

/-- The log holds what it held. -/
def Still (log log' : OrderedLog) : Prop :=
  WellFormed log → WellFormed log' ∧ log'.contents = log.contents ∧ log'.nextOffset = log.nextOffset

/-- The log holds what it held, and possibly more behind it. -/
def Grown (log log' : OrderedLog) : Prop :=
  WellFormed log →
    WellFormed log' ∧ log.contents <+: log'.contents ∧ log.nextOffset ≤ log'.nextOffset

instance instIsPreorderStill : IsPreorder OrderedLog Still where
  refl _ h := ⟨h, rfl, rfl⟩
  trans := by
    intro a b c hab hbc ha
    rcases hab ha with ⟨hb, hcont, hnext⟩
    rcases hbc hb with ⟨hc, hcont', hnext'⟩
    exact ⟨hc, hcont'.trans hcont, hnext'.trans hnext⟩

instance instIsPreorderGrown : IsPreorder OrderedLog Grown where
  refl _ h := ⟨h, List.prefix_rfl, le_rfl⟩
  trans := by
    intro a b c hab hbc ha
    rcases hab ha with ⟨hb, hcont, hnext⟩
    rcases hbc hb with ⟨hc, hcont', hnext'⟩
    exact ⟨hc, hcont.trans hcont', hnext.trans hnext'⟩

variable {log log' : OrderedLog} {p p' q r : ReplicatedPartition}

theorem Still.grown (h : Still log log') : Grown log log' := by
  intro hwf
  rcases h hwf with ⟨hwf', hcont, hnext⟩
  exact ⟨hwf', hcont ▸ List.prefix_rfl, hnext.ge⟩

theorem Rotated.still (h : Rotated log log') : Still log log' :=
  fun hwf => ⟨h.wellFormed hwf, h.contents hwf, h.nextOffset⟩

theorem Appended.grown {batch : FetchedBatch} (h : Appended log log' batch)
    (hbase : batch.baseOffset = log.nextOffset) (hspan : batch.baseOffset ≤ batch.lastOffset) :
    Grown log log' := by
  intro _
  refine ⟨h.wellFormed, ?_, ?_⟩
  · rw [h.contents]
    exact List.prefix_append _ _
  · rw [h.nextOffset]
    omega

/-! ## Calls on one log -/

/-- Epochs say nothing about what a log holds. -/
theorem still_epochs (log : OrderedLog) (controllerEpoch promisedEpoch : Nat)
    (leaderEpoch : Option Nat) :
    Still log { log with controllerEpoch, promisedEpoch, leaderEpoch } :=
  fun hwf => ⟨⟨hwf.stored, hwf.tiled, hwf.filled, hwf.committed, hwf.bounded⟩, rfl, rfl⟩

theorem promiseEpoch_still (controllerEpoch epoch : Nat) :
    (promiseEpoch controllerEpoch epoch).Moves Still := by
  unfold promiseEpoch
  refine Moves.get_bind fun _ => Moves.require_bind fun _ => Moves.modify fun log => ?_
  exact still_epochs log _ _ _

theorem activateLeader_still (controllerEpoch epoch : Nat) :
    (activateLeader controllerEpoch epoch).Moves Still := by
  unfold activateLeader
  refine Moves.get_bind fun _ => Moves.require_bind fun _ => Moves.modify fun log => ?_
  exact still_epochs log _ _ _

/-- A commit raises the watermark within the log. -/
theorem commit_yields (log : OrderedLog) (epoch mark : Nat) :
    (commit epoch mark).Yields Still log fun _ log' =>
      mark ≤ log.nextOffset ∧ log'.highWatermark = mark := by
  unfold commit
  refine Yields.get_bind (Yields.require_bind fun _ => Yields.require_bind fun hc => ?_)
  refine Yields.modify ?_ ⟨hc.2.1, rfl⟩
  intro hwf
  exact ⟨⟨hwf.stored, hwf.tiled, hwf.filled, hc.2.1, hwf.bounded⟩, rfl, rfl⟩

theorem commit_still (epoch mark : Nat) : (commit epoch mark).Moves Still :=
  fun log => (commit_yields log epoch mark).1

/-- A fetch returns batches of the log, which keeps them. -/
theorem fetch_still (hwf : WellFormed log) (offset : Nat) :
    (fetch offset (offsetLimit - 1) false).Yields Still log fun result _ =>
      result.batches = log.contents.filter (fun b => offset ≤ b.lastOffset) :=
  ((fetch_yields hwf offset).coarsen fun _ h => h.rotated.still).mono fun _ _ _ h => h.2

/-- An append at an assigned offset, as growth of the log. -/
theorem appendAssigned_yields (hwf : WellFormed log)
    (epoch base timestampMs count : Nat) (payload : List UInt8)
    (hlim : base + count < offsetLimit) :
    (appendAssigned epoch base timestampMs count payload).Yields Grown log
      fun result log' => base = log.nextOffset ∧ count ≠ 0 ∧
        result = ⟨base, base + (count - 1), epoch, log.highWatermark⟩ ∧
        Appended log log' ⟨base, base + (count - 1), epoch, timestampMs, payload⟩ := by
  refine (appendAssigned_ends hwf epoch base timestampMs count payload hlim).mono ?_
  intro r log' h
  cases r with
  | error e => exact ⟨h.still.grown, by simp⟩
  | ok result =>
    refine ⟨h.2.2.2.grown h.1 (Nat.le_add_right _ _), ?_⟩
    rintro _ ⟨⟩
    exact h

theorem appendAssigned_grown (epoch base timestampMs count : Nat)
    (payload : List UInt8) (hlim : base + count < offsetLimit) :
    (appendAssigned epoch base timestampMs count payload).Moves Grown :=
  fun _ hwf => (appendAssigned_yields hwf epoch base timestampMs count payload hlim).1 hwf

theorem replicateWithIdentity_grown
    (commandEpoch recordEpoch base timestampMs count : Nat) (payload : List UInt8)
    (hlim : base + count < offsetLimit) :
    (replicateWithIdentity commandEpoch recordEpoch base timestampMs count
      payload).Moves Grown := by
  unfold replicateWithIdentity
  exact Moves.get_bind fun _ => Moves.require_bind fun _ =>
    appendAssigned_grown recordEpoch base timestampMs count payload hlim

/-- A batch taken over from another replica ends up at the end of the log as it
    was sent. -/
theorem replicateWithIdentity_yields (hwf : WellFormed log) (commandEpoch : Nat)
    (batch : FetchedBatch) (hspan : batch.baseOffset ≤ batch.lastOffset)
    (hlim : batch.lastOffset + 1 < offsetLimit) :
    (replicateWithIdentity commandEpoch batch.leaderEpoch batch.baseOffset batch.timestampMs
      (batch.lastOffset - batch.baseOffset + 1) batch.bytes).Yields Grown log fun _ log' =>
        batch.baseOffset = log.nextOffset ∧ Appended log log' batch := by
  have hlast : batch.baseOffset + (batch.lastOffset - batch.baseOffset + 1 - 1) =
      batch.lastOffset := by omega
  unfold replicateWithIdentity
  refine Yields.get_bind (Yields.require_bind fun _ => ?_)
  refine (appendAssigned_yields hwf _ _ _ _ _ (by omega)).mono ?_
  rintro result log' _ ⟨hbase, _, _, happended⟩
  rw [hlast] at happended
  exact ⟨hbase, happended⟩

/-- An append by the leader goes to the end of its log. -/
theorem append_yields (hwf : WellFormed log) (epoch timestampMs count : Nat)
    (payload : List UInt8) (hlim : log.nextOffset + count < offsetLimit) :
    (append epoch timestampMs count payload).Yields Grown log fun result log' =>
      result.baseOffset = log.nextOffset ∧ log.nextOffset ≤ result.lastOffset ∧
        result.baseOffset + count < offsetLimit ∧ result.lastOffset + 1 < offsetLimit ∧
        log'.nextOffset = result.lastOffset + 1 := by
  unfold append
  refine Yields.get_bind (Yields.require_bind fun _ => ?_)
  refine (appendAssigned_yields hwf _ _ _ _ _ hlim).mono ?_
  rintro result log' _ ⟨hbase, hcount, rfl, happended⟩
  exact ⟨rfl, Nat.le_add_right _ _, hlim, by simp only []; omega, happended.nextOffset⟩

/-! ## Calls on a partition -/

/-- The partition has the same leader and watermark, and its logs are related
    one by one. -/
structure Related (R : OrderedLog → OrderedLog → Prop) (p p' : ReplicatedPartition) : Prop where
  leader : p'.leader = p.leader
  highWatermark : p'.highWatermark = p.highWatermark
  forward : ∀ (n : Nat) (log : OrderedLog), p.replicas[n]? = some log →
    ∃ log', p'.replicas[n]? = some log' ∧ R log log'
  backward : ∀ (n : Nat) (log' : OrderedLog), p'.replicas[n]? = some log' →
    ∃ log, p.replicas[n]? = some log ∧ R log log'

/-- A relation on partitions that holds when one log is replaced by a related
    one. -/
class Lifts (R : OrderedLog → OrderedLog → Prop)
    (G : ReplicatedPartition → ReplicatedPartition → Prop) : Prop extends
    IsPreorder ReplicatedPartition G where
  insert {p : ReplicatedPartition} {node : Nat} {log log' : OrderedLog}
    (hlog : p.replicas[node]? = some log) (hR : R log log') :
    G p { p with replicas := p.replicas.insert node log' }

section Lifts

variable {R : OrderedLog → OrderedLog → Prop}
  {G : ReplicatedPartition → ReplicatedPartition → Prop} [Lifts R G] {α : Type} {x : LogM α}

/-- A call on one replica, seen from the partition: the postcondition of the
    log call, at that replica's log. -/
theorem onReplica_yields (p : ReplicatedPartition) (node : Nat)
    {P : OrderedLog → α → OrderedLog → Prop}
    (hx : ∀ log, p.replicas[node]? = some log → x.Yields R log (P log)) :
    (onReplica node x).Yields G p fun a p' => ∃ log log', p.replicas[node]? = some log ∧
      p'.replicas[node]? = some log' ∧ R log log' ∧ P log a log' := by
  refine Ends.within (fun _ => ⟨refl_of G p, by simp⟩) fun log hlog => ?_
  refine Ends.mono (hx log hlog) ?_
  rintro r log' ⟨hR, hP⟩
  refine ⟨Lifts.insert hlog hR, ?_⟩
  rintro a rfl
  exact ⟨log, log', hlog, by rw [getElem?_insert_eq, if_pos rfl], hR, hP a rfl⟩

theorem onReplica_moves (node : Nat) (hx : x.Moves R) : (onReplica node x).Moves G :=
  fun p => (onReplica_yields p node fun log _ => hx.yields log).1

/-- Copying a batch to the followers leaves out those that refuse it. -/
theorem replicateTo_yields {epoch base timestampMs count : Nat} {payload : List UInt8}
    (hx : (replicate epoch base timestampMs count payload).Moves R)
    (nodes : List Nat) (durable : BTreeSet Nat) (p : ReplicatedPartition) :
    (ReplicatedPartition.replicateTo epoch base timestampMs count payload nodes
      durable).Yields G p fun result _ => ∀ n ∈ durable, n ∈ result := by
  induction nodes generalizing durable p with
  | nil => exact Yields.pure fun _ hn => hn
  | cons node nodes ih =>
    refine Yields.get_bind (Yields.expect_bind fun _ _ => ?_)
    refine Yields.bind ((Moves.attempt (onReplica_moves node hx)).yields p) ?_
    intro outcome p1 _ _
    cases outcome with
    | ok _ =>
      refine (ih (durable.insert node) p1).mono fun result _ _ hkept n hn => ?_
      exact hkept n (Std.ExtTreeSet.mem_insert.mpr (Or.inr hn))
    | error _ => exact ih durable p1

end Lifts

variable {R : OrderedLog → OrderedLog → Prop} [IsPreorder OrderedLog R]

theorem Related.of_replicas (hleader : p'.leader = p.leader)
    (hwatermark : p'.highWatermark = p.highWatermark) (hreplicas : p'.replicas = p.replicas) :
    Related R p p' := by
  refine ⟨hleader, hwatermark, ?_, ?_⟩
  · intro n log hlog
    exact ⟨log, by rw [hreplicas, hlog], refl_of R log⟩
  · intro n log hlog
    exact ⟨log, by rw [← hreplicas, hlog], refl_of R log⟩

instance instLiftsRelated : Lifts R (Related R) where
  refl _ := Related.of_replicas rfl rfl rfl
  trans := by
    intro p q r hpq hqr
    refine ⟨hqr.leader.trans hpq.leader, hqr.highWatermark.trans hpq.highWatermark, ?_, ?_⟩
    · intro n a ha
      rcases hpq.forward n a ha with ⟨b, hb, hab⟩
      rcases hqr.forward n b hb with ⟨c, hc, hbc⟩
      exact ⟨c, hc, trans_of R hab hbc⟩
    · intro n c hc
      rcases hqr.backward n c hc with ⟨b, hb, hbc⟩
      rcases hpq.backward n b hb with ⟨a, ha, hab⟩
      exact ⟨a, ha, trans_of R hab hbc⟩
  insert := by
    intro p node log log' hlog hR
    refine ⟨rfl, rfl, ?_, ?_⟩
    · intro n a ha
      simp only [getElem?_insert_eq]
      by_cases hn : node = n
      · subst hn
        cases Option.mem_unique hlog ha
        exact ⟨log', if_pos rfl, hR⟩
      · exact ⟨a, by rw [if_neg hn, ha], refl_of R a⟩
    · intro n b hb
      rcases getElem?_insert_cases hb with ⟨rfl, rfl⟩ | ⟨_, hb⟩
      · exact ⟨log, hlog, hR⟩
      · exact ⟨b, hb, refl_of R b⟩

/-- Logs that hold what they held have not shrunk. -/
theorem Related.grown (h : Related Still p p') : Related Grown p p' := by
  refine ⟨h.leader, h.highWatermark, ?_, ?_⟩
  · intro n log hlog
    rcases h.forward n log hlog with ⟨log', hlog', hstill⟩
    exact ⟨log', hlog', hstill.grown⟩
  · intro n log' hlog'
    rcases h.backward n log' hlog' with ⟨log, hlog, hstill⟩
    exact ⟨log, hlog, hstill.grown⟩

end Log

end Pepper
