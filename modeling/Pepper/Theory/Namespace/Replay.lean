import Pepper.Base.Runs
import Pepper.Theory.Namespace.Plain
import Pepper.Theory.Namespace.Steps

/-!
# Repeated Requests

Whether a request that is sent again right after it was answered gets the same
answer.

The answer comes from the record of the request. The call that makes the record
also drops records until no more than the limit are left, in the order of the
revision they were applied at and then of their request. A commit has a later
revision than every record before it. A snapshot command has the same revision
as the one before it, so its own record can be the one that goes.

## Theorems

* `getElem?_recordRequest`: Whether the record of a request outlives the call.
* `apply_again`: The second call is a replay exactly when it does.
-/

namespace Pepper

namespace Namespace

open Merkle

variable {Digest σ : Type}

section Records

variable {records : BTreeMap String (IdempotencyRecord Digest)}

/-- A record does not come after itself, so with a new record the same ones come
    after it as before. -/
theorem recordsAfter_insert {requestId : String} {record : IdempotencyRecord Digest}
    (hnew : records[requestId]? = none) :
    recordsAfter (records.insert requestId record) record.appliedRevision requestId =
      recordsAfter records record.appliedRevision requestId := by
  have hfound : (records.insert requestId record)[requestId]? = some record := by
    rw [getElem?_insert_eq, if_pos rfl]
  have herase : (records.insert requestId record).erase requestId = records := by
    ext1 id
    rw [getElem?_erase_eq, getElem?_insert_eq]
    by_cases hid : requestId = id
    · rw [if_pos hid, ← hid, hnew]
    · rw [if_neg hid, if_neg hid]
  rw [recordsAfter, (toList_perm_erase hfound).countP_eq, herase,
    List.countP_cons_of_neg (by simp [dropOrder])]
  rfl

end Records

variable [DecidableEq Digest] (machine : NamespaceStateMachine σ Digest)

omit [DecidableEq Digest] in
/-- The record of a request outlives the call that makes it exactly when fewer
    records than the limit come after it. -/
theorem getElem?_recordRequest {state next : NamespaceState Digest} {time : Int}
    {env : CommandEnvelope Digest} (response : CommandResponse Digest)
    (hnew : state.idempotency[env.requestId]? = none)
    (hstep : Succeeds state time env.command next) (limit : Nat) :
    (pruneIdempotency { next with
      idempotency := recordRequest machine state next env response } limit).idempotency[
        env.requestId]? =
      if recordsAfter state.idempotency (env.command.revisionAfter state.currentRevision)
          env.requestId < limit then
        some ⟨idempotencyFingerprint machine.enc state.namespaceId env, response,
          (freshResult machine state next response).pinIntents, next.currentRevision⟩
      else none := by
  have hnew' : next.idempotency[env.requestId]? = none := by
    rw [hstep.idempotency_eq, hnew]
  have hfound : (recordRequest machine state next env response)[env.requestId]? =
      some ⟨idempotencyFingerprint machine.enc state.namespaceId env, response,
        (freshResult machine state next response).pinIntents, next.currentRevision⟩ := by
    rw [recordRequest, getElem?_insert_eq, if_pos rfl]
  have hprune := getElem?_pruneFrom limit _ le_rfl hfound
  rw [recordRequest, recordsAfter_insert hnew'] at hprune
  simp only [hstep.idempotency_eq, hstep.currentRevision_eq] at hprune ⊢
  simpa only [pruneIdempotency, recordRequest, hstep.idempotency_eq, hstep.currentRevision_eq]
    using hprune

/-- A request that was applied and is sent again at once is answered from its
    record, without a change of the state, exactly when fewer records than the
    limit come after it in the order in which records are dropped. -/
theorem apply_again {state next : NamespaceState Digest} {envelope : CommandEnvelope Digest}
    {result : ApplyResult Digest} {s s' : σ}
    (h : machine.apply state envelope s = (.ok (result, next), s'))
    (hfresh : result.replayed = false) :
    (∃ again s'', machine.apply next envelope s' = (.ok (again, next), s'') ∧
      again.replayed = true ∧ again.response = result.response) ↔
      recordsAfter state.idempotency (envelope.command.revisionAfter state.currentRevision)
        envelope.requestId < machine.namespaceLimits.maxIdempotencyRecords := by
  rcases (apply_returns machine state envelope s).of_eq h with ⟨haccepted, happlied⟩
  cases happlied with
  | replay => cases hfresh
  | fresh response mid hnew hstep =>
    have hrecord := getElem?_recordRequest machine response hnew hstep
      machine.namespaceLimits.maxIdempotencyRecords
    -- The identity of the namespace stays, so the same checks pass again.
    have hid : (pruneIdempotency { mid with
        idempotency := recordRequest machine state mid envelope response }
        machine.namespaceLimits.maxIdempotencyRecords).namespaceId = state.namespaceId :=
      hstep.namespaceId_eq
    constructor
    · rintro ⟨again, s'', hagain, hreplayed, _⟩
      by_contra hlimit
      rw [if_neg hlimit] at hrecord
      rw [replayed_of_unrecorded machine hrecord hagain] at hreplayed
      cases hreplayed
    · intro hlimit
      rw [if_pos hlimit] at hrecord
      rw [← hid] at haccepted
      refine ⟨_, _, apply_of_recorded machine haccepted hrecord ?_ s', rfl, rfl⟩
      rw [hid]

/-- A request for a snapshot of the current revision. -/
def snapshotRequest (requestId name : String) : CommandEnvelope Bytes :=
  plainEnvelope requestId (.createSnapshot name none)

/-- Room for one record. -/
def oneRecord : NamespaceLimits := { maxIdempotencyRecords := 1 }

/-- A namespace whose records are at their limit. -/
def fullTable : Running (List (Codec × Bytes)) Bytes :=
  (plainMachine oneRecord).step (plainStart 64) (snapshotRequest "a" "x")

/-- The second of two snapshots: its request comes last in the order, and the
    record that goes is the other one. -/
theorem apply_again_full_table : fullTable.state.idempotency.size = 1 ∧
    ∃ again s, (plainMachine oneRecord).apply
      ((plainMachine oneRecord).step fullTable (snapshotRequest "b" "y")).state
      (snapshotRequest "b" "y")
      ((plainMachine oneRecord).step fullTable (snapshotRequest "b" "y")).blocks =
        (.ok (again, ((plainMachine oneRecord).step fullTable (snapshotRequest "b" "y")).state),
        s) ∧
      again.replayed = true ∧
      again.response = .snapshot ⟨(plainState 64).namespaceId, "y", 0,
        treeCid shortEncoding [] Radix.empty, false⟩ := by
  have hcall : (plainMachine oneRecord).apply fullTable.state (snapshotRequest "b" "y")
      fullTable.blocks =
      (.ok (⟨.snapshot ⟨(plainState 64).namespaceId, "y", 0, treeCid shortEncoding [] Radix.empty,
        false⟩, [], false⟩, ((plainMachine oneRecord).step fullTable
        (snapshotRequest "b" "y")).state),
        ((plainMachine oneRecord).step fullTable (snapshotRequest "b" "y")).blocks) := by
    decide +kernel
  have hagain := apply_again (plainMachine oneRecord) hcall rfl
  exact ⟨by decide +kernel, hagain.mpr (by decide +kernel)⟩

/-- Two snapshots of the first revision with room for one record. The second
    request comes first in the order, so its own record is dropped, and sent
    again it is an error. -/
theorem snapshot_record_dropped_at_once :
    (createNamespace plainNamespaceEncoding (blockList plainHashing) {} {} (plainDescriptor 64)
      []).1.map (·.state) = .ok (plainStart 64).state ∧
    (plainMachine oneRecord).withAuthorizer (plainStart 64).state = .ok () ∧
    ((plainMachine oneRecord).apply
      ((plainMachine oneRecord).step (plainStart 64) (snapshotRequest "b" "x")).state
      (snapshotRequest "a" "y")
      ((plainMachine oneRecord).step (plainStart 64) (snapshotRequest "b" "x")).blocks).1.map
        (·.1.replayed) = .ok false ∧
    ((plainMachine oneRecord).apply (runOps (plainMachine oneRecord).step (plainStart 64)
        [snapshotRequest "b" "x", snapshotRequest "a" "y"]).state (snapshotRequest "a" "y")
      (runOps (plainMachine oneRecord).step (plainStart 64)
        [snapshotRequest "b" "x", snapshotRequest "a" "y"]).blocks).1 =
      .error (.snapshotExists "y") := by
  decide +kernel

end Namespace

end Pepper
