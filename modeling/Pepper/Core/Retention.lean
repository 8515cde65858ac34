import Pepper.Core.Maintenance
import Pepper.Core.Produce

/-!
# Retention

`KafkaCluster::apply_retention` on one partition. The leader's log says which
sealed segments the topic's settings let go, and all replicas then move the start
of their logs to the end of the last of these and delete what lies below.

## Main definitions

* `retentionPolicy`: The settings of a topic as a policy.
* `Partition.applyRetention`: The whole pass.
-/

namespace Pepper

namespace Kafka

open Fallible Log

/-- A nonempty sequence of decimal digits. -/
def parseDigits (digits : List Char) : Option Nat :=
  if digits.isEmpty || !digits.all Char.isDigit then none
  else some (digits.foldl (fun n c => 10 * n + (c.toNat - 48)) 0)

/-- A 64-bit integer in decimal, with an optional sign. -/
def parseI64 (text : String) : Option Int :=
  match text.toList with
  | '-' :: digits => ((parseDigits digits).filter fun n => n ≤ 2 ^ 63).map fun n => -(n : Int)
  | '+' :: digits => ((parseDigits digits).filter fun n => n < 2 ^ 63).map fun n => (n : Int)
  | digits => ((parseDigits digits).filter fun n => n < 2 ^ 63).map fun n => (n : Int)

/-- A setting that is a number and not negative. -/
def retentionSetting (configs : BTreeMap String String) (key : String) : Option Nat :=
  ((configs[key]?.bind parseI64).filter fun value => 0 ≤ value).map Int.toNat

/-- Without either setting a topic is kept forever. -/
def retentionPolicy (configs : BTreeMap String String) (nowMs : Nat) : Option RetentionPolicy :=
  let retentionMs := retentionSetting configs "retention.ms"
  let retentionBytes := retentionSetting configs "retention.bytes"
  if retentionMs.isNone ∧ retentionBytes.isNone then none
  else some ⟨retentionMs.map (nowMs - ·), retentionBytes⟩

namespace Partition

/-- All replicas move the start of their logs. -/
def advanceAll (controllerEpoch offset : Nat) (nodes : List Nat) : PartitionM Unit :=
  ForM.forM nodes fun node => onReplica node (advanceLogStart controllerEpoch offset)

/-- All replicas delete what lies below; an extent that is still read stays for a
    later pass. -/
def reclaimAll (leased : Nat → Nat → Bool) (nodes : List Nat) : PartitionM Unit :=
  ForM.forM nodes fun node => do
    let outcome ← attempt (onReplica node (reclaimBelowLogStart (leased node)))
    match outcome with
    | .ok _ => pure ()
    | .error (.extent (.extentLeased _)) => pure ()
    | .error e => fail e

/-- A pass over a partition, given the settings of its topic, the extents that are
    leased, and whether the checkpoints can be written. -/
def applyRetention (configs : Option (BTreeMap String String)) (nowMs : Nat)
    (leased : Nat → Nat → Bool) (persisted : Bool) : KafkaM (Option Nat) := do
  let configs ← expect configs .unknownPartition
  match retentionPolicy configs nowMs with
  | none => pure none
  | some policy => do
      let p ← get
      let leader ← expect p.leaderLog .unknownPartition
      match (leader.retentionCandidates policy).getLast? with
      | none => pure none
      | some manifest => do
          -- The snapshots have to know every sequence whose batches go.
          let _ ← onCoordinator TransactionCoordinator.flushDirty
          onReplication (advanceAll p.descriptor.assignmentEpoch manifest.endOffset
            p.replication.replicas.keys)
          require (persisted = true) .io
          onReplication (reclaimAll leased p.replication.replicas.keys)
          pure (some manifest.endOffset)

end Partition

end Kafka

end Pepper
