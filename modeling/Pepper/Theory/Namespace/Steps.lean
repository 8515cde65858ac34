import Pepper.Core.Namespace.Machine

/-!
# Steps of a Namespace

What a successful call of the namespace state machine does to the state.

A command either commits a new root or changes the named snapshots, and which
blocks it read and wrote to get there does not matter to what retention, pins
and records make of it. `Succeeds` says all that is left: the state after a
command in terms of the state before it. `Applied` adds the record of the
request and the pin intents, and every result about runs starts from it.

## Main definitions

* `Succeeds`: A command takes a state to a state.
* `Applied`: An envelope is applied, or answered from its record.

## Theorems

* `dispatch_returns`: A command that succeeds is one of four changes.
* `apply_returns`: A call that succeeds is an application or a replay.
* `apply_of_recorded`, `replayed_of_unrecorded`: Which of the two it is.
* `getElem?_pruneFrom`: Which records are dropped.
-/

namespace Pepper

namespace Namespace

open Fallible Merkle List

variable {Digest σ : Type}

/-- The revision a command leaves, from the one it finds. -/
def NamespaceCommand.revisionAfter (command : NamespaceCommand Digest) (current : Nat) : Nat :=
  match command with
  | .applyTransaction _ => saturatingAdd current 1
  | .rollback _ _ => saturatingAdd current 1
  | .createSnapshot _ _ => current
  | .deleteSnapshot _ => current

/-- A command takes a state to a state at a time. -/
inductive Succeeds (state : NamespaceState Digest) (time : Int) :
    NamespaceCommand Digest → NamespaceState Digest → Prop
  | transaction (transaction : TransactionCommand Digest) (root commit : Cid Digest) :
      Succeeds state time (.applyTransaction transaction) (commitState state root commit time)
  | rollback (revision : Nat) (message : Option String) (root commit : Cid Digest) :
      Succeeds state time (.rollback revision message) (commitState state root commit time)
  | create (name : String) (revision : Option Nat) (record : RevisionRecord Digest)
      (habsent : state.namedSnapshots[name]? = none)
      (hrecord : state.history[revision.getD state.currentRevision]? = some record) :
      Succeeds state time (.createSnapshot name revision) { state with
          namedSnapshots := state.namedSnapshots.insert name
            ⟨name, revision.getD state.currentRevision, record.rootCid, record.commitCid, time⟩ }
  | delete (name : String) (snapshot : NamedSnapshot Digest)
      (hpresent : state.namedSnapshots[name]? = some snapshot) :
      Succeeds state time (.deleteSnapshot name)
        { state with namedSnapshots := state.namedSnapshots.erase name }

namespace Succeeds

variable {state next : NamespaceState Digest} {time : Int} {command : NamespaceCommand Digest}

theorem namespaceId_eq (h : Succeeds state time command next) :
    next.namespaceId = state.namespaceId := by
  cases h <;> rfl

theorem idempotency_eq (h : Succeeds state time command next) :
    next.idempotency = state.idempotency := by
  cases h <;> rfl

/-- Revisions are added to the history and stay there. -/
theorem mem_history (h : Succeeds state time command next) {rev : Nat}
    (hrev : rev ∈ state.history) :
    rev ∈ next.history := by
  cases h with
  | transaction | rollback => exact Std.ExtTreeMap.mem_insert.mpr (.inr hrev)
  | create | delete => exact hrev

theorem currentRevision_eq (h : Succeeds state time command next) :
    next.currentRevision = command.revisionAfter state.currentRevision := by
  cases h <;> rfl

end Succeeds

variable {record : IdempotencyRecord Digest}

section Calls

variable [DecidableEq Digest]

theorem commitMerkleMutations_returns (enc : NamespaceEncoding Digest)
    (store : MerkleStore σ Digest)
    (merkleLimits : MerkleLimits) (state : NamespaceState Digest) (draft : CommitDraft Digest)
    (envelope : CommandEnvelope Digest) (s : σ) :
    (commitMerkleMutations enc store merkleLimits state draft envelope).Returns s fun r _ =>
      ∃ root commit, r.2 = commitState state root commit envelope.timestampUnixSeconds := by
  apply Returns.require_bind
  intro _
  apply Returns.bind (Q := fun _ _ => True) ⟨fun _ _ => trivial⟩
  intro root s1 _
  apply Returns.bind (Q := fun _ _ => True) ⟨fun _ _ => trivial⟩
  intro commit s2 _
  exact Returns.pure ⟨root, commit, rfl⟩

theorem rollback_returns (enc : NamespaceEncoding Digest) (store : MerkleStore σ Digest)
    (limits : NamespaceLimits) (merkleLimits : MerkleLimits) (state : NamespaceState Digest)
    (rev : Nat) (message : Option String) (envelope : CommandEnvelope Digest) (s : σ) :
    (rollback enc store limits merkleLimits state rev message envelope).Returns s fun r _ =>
      ∃ root commit, r.2 = commitState state root commit envelope.timestampUnixSeconds := by
  apply Returns.expect_bind
  intro target _
  apply Returns.get_bind
  apply Returns.ofExcept_bind
  intro current _
  apply Returns.ofExcept_bind
  intro targetValues _
  apply Returns.require_bind
  intro _
  exact commitMerkleMutations_returns enc store merkleLimits state _ envelope s

/-- The answer to a request for a snapshot names the revision it is of. Every
    answer about a snapshot names a revision of the history or that of a snapshot
    there is. -/
structure Answers (state : NamespaceState Digest) (command : NamespaceCommand Digest)
    (response : CommandResponse Digest) : Prop where
  named : ∀ name rev, command = .createSnapshot name rev →
    ∃ r, response = .snapshot r ∧ r.revision = rev.getD state.currentRevision
  known : ∀ r, response = .snapshot r → r.revision ∈ state.history ∨
    ∃ name snapshot, state.namedSnapshots[(name : String)]? = some snapshot ∧
      r.revision = snapshot.revision

variable {state : NamespaceState Digest} {envelope : CommandEnvelope Digest}
  {name : String} {r : SnapshotResponse Digest × NamespaceState Digest} {time : Int}
  {next : NamespaceState Digest} {result : ApplyResult Digest}

omit [DecidableEq Digest] in
theorem createSnapshot_eq_ok {rev : Option Nat} {limits : NamespaceLimits}
    (h : createSnapshot state name rev time limits = .ok r) :
    Succeeds state time (.createSnapshot name rev) r.2 ∧
      Answers state (.createSnapshot name rev) (.snapshot r.1) := by
  rcases bind_eq_ok.mp h with ⟨_, _, h⟩
  rcases throw_unless_eq_ok.mp h with ⟨habsent, h⟩
  rcases throw_unless_eq_ok.mp h with ⟨_, h⟩
  cases hrecord : state.history[rev.getD state.currentRevision]? with
  | none =>
    simp only [hrecord] at h
    cases h
  | some record =>
    simp only [hrecord] at h
    cases h
    constructor
    · refine .create name rev record ?_ hrecord
      rw [Std.ExtTreeMap.mem_iff_isSome_getElem?] at habsent
      exact Option.not_isSome_iff_eq_none.mp habsent
    · refine ⟨fun name' rev' hcommand => ?_, fun r hr => ?_⟩
      · cases hcommand
        exact ⟨_, rfl, rfl⟩
      · cases hr
        exact .inl (mem_iff_exists.mpr ⟨record, hrecord⟩)

omit [DecidableEq Digest] in
theorem deleteSnapshot_eq_ok (h : deleteSnapshot state name = .ok r) :
    Succeeds state time (.deleteSnapshot name) r.2 ∧
      Answers state (.deleteSnapshot name) (.snapshot r.1) := by
  rw [deleteSnapshot] at h
  cases hpresent : state.namedSnapshots[name]? with
  | none =>
    rw [hpresent] at h
    cases h
  | some snapshot =>
    rw [hpresent] at h
    cases h
    refine ⟨.delete name snapshot hpresent, nofun, fun r hr => ?_⟩
    cases hr
    exact .inr ⟨name, snapshot, hpresent, rfl⟩

variable (machine : NamespaceStateMachine σ Digest)

/-- A command that succeeds is one of four changes of the state. -/
theorem dispatch_returns (state : NamespaceState Digest) (envelope : CommandEnvelope Digest)
    (s : σ) :
    (machine.dispatch state envelope).Returns s fun r _ =>
      Succeeds state envelope.timestampUnixSeconds envelope.command r.2 ∧
        Answers state envelope.command r.1 := by
  unfold NamespaceStateMachine.dispatch
  cases envelope.command with
  | applyTransaction transaction =>
    apply Returns.bind (Returns.ofExcept_bind fun _ _ =>
      Returns.bind (Q := fun _ _ => True) ⟨fun _ _ => trivial⟩ fun _ _ _ =>
        commitMerkleMutations_returns _ _ _ _ _ _ _)
    rintro ⟨response, next⟩ s1 ⟨root, commit, hnext⟩
    apply Returns.pure
    rw [hnext]
    exact ⟨.transaction transaction root commit, nofun, nofun⟩
  | createSnapshot name rev =>
    apply Returns.ofExcept_bind
    intro r hr
    exact Returns.pure (createSnapshot_eq_ok hr)
  | deleteSnapshot name =>
    apply Returns.ofExcept_bind
    intro r hr
    exact Returns.pure (deleteSnapshot_eq_ok hr)
  | rollback rev message =>
    apply Returns.bind (rollback_returns _ _ _ _ _ _ _ _ _)
    rintro ⟨response, next⟩ s1 ⟨root, commit, hnext⟩
    apply Returns.pure
    rw [hnext]
    exact ⟨.rollback rev message root commit, nofun, nofun⟩

/-- The answer of a new command: the protected roots that change are its intents. -/
def freshResult (state next : NamespaceState Digest) (response : CommandResponse Digest) :
    ApplyResult Digest :=
  ⟨response, diffPinIntents machine.enc (protectedRoots machine.enc state)
    (protectedRoots machine.enc next), false⟩

/-- The records after a new command, before any is dropped. -/
def recordRequest (state next : NamespaceState Digest) (envelope : CommandEnvelope Digest)
    (response : CommandResponse Digest) : BTreeMap String (IdempotencyRecord Digest) :=
  next.idempotency.insert envelope.requestId
    ⟨idempotencyFingerprint machine.enc state.namespaceId envelope, response,
      (freshResult machine state next response).pinIntents, next.currentRevision⟩

/-- What a successful call is: a new command with its record and the difference
    of the protected roots, or the record of an earlier one. -/
inductive Applied (state : NamespaceState Digest) (envelope : CommandEnvelope Digest) :
    ApplyResult Digest → NamespaceState Digest → Prop
  | fresh (response : CommandResponse Digest) (next : NamespaceState Digest)
      (hnew : state.idempotency[envelope.requestId]? = none)
      (hstep : Succeeds state (NamespaceStateMachine.appliedTimestamp state envelope)
        envelope.command next)
      (hanswer : Answers state envelope.command response) :
      Applied state envelope (freshResult machine state next response) (pruneIdempotency
          { next with idempotency := recordRequest machine state next envelope response }
          machine.namespaceLimits.maxIdempotencyRecords)
  | replay (record : IdempotencyRecord Digest)
      (hrecord : state.idempotency[envelope.requestId]? = some record)
      (hfingerprint : record.commandFingerprint =
        idempotencyFingerprint machine.enc state.namespaceId envelope) :
      Applied state envelope ⟨record.response, record.pinIntents, true⟩ state

/-- An envelope passes the checks that come before the records are looked at. -/
def Accepted (namespaceId : NamespaceId Digest) (envelope : CommandEnvelope Digest) : Prop :=
  validateEnvelope envelope machine.namespaceLimits = .ok () ∧
    machine.authorizer namespaceId envelope.writerIdentity
      (canonicalSigningPayload machine.enc namespaceId envelope) envelope.signatureHex = .ok ()

theorem applyNew_returns (state : NamespaceState Digest) (envelope : CommandEnvelope Digest)
    (s : σ) (hnew : state.idempotency[envelope.requestId]? = none) :
    (machine.applyNew state envelope).Returns s fun r _ =>
      Applied machine state envelope r.1 r.2 ∧ r.1.replayed = false := by
  apply Returns.bind (dispatch_returns machine state _ s)
  rintro ⟨response, next⟩ s1 ⟨hstep, hanswer⟩
  exact Returns.pure ⟨.fresh response next hnew hstep hanswer, rfl⟩

/-- A call that succeeds is an application or a replay. -/
theorem apply_returns (state : NamespaceState Digest) (envelope : CommandEnvelope Digest) (s : σ) :
    (machine.apply state envelope).Returns s fun r _ =>
      Accepted machine state.namespaceId envelope ∧ Applied machine state envelope r.1 r.2 := by
  apply Returns.ofExcept_bind
  intro _ hval
  apply Returns.ofExcept_bind
  intro _ haut
  have hacc : Accepted machine state.namespaceId envelope := by
    refine ⟨hval, ?_⟩
    cases hverify : machine.authorizer state.namespaceId envelope.writerIdentity
        (canonicalSigningPayload machine.enc state.namespaceId envelope) envelope.signatureHex with
    | ok _ => rfl
    | error message =>
      rw [hverify] at haut
      cases haut
  cases hrecord : state.idempotency[envelope.requestId]? with
  | none =>
    exact (applyNew_returns machine state envelope s hrecord).mono fun _ _ h => ⟨hacc, h.1⟩
  | some record =>
    apply Returns.require_bind
    intro hfingerprint
    exact Returns.pure ⟨hacc, .replay record hrecord hfingerprint⟩

/-- The checks pass, and the records decide. -/
theorem apply_of_accepted (h : Accepted machine state.namespaceId envelope) (s : σ) :
    machine.apply state envelope s = match state.idempotency[envelope.requestId]? with
      | some existing =>
        if existing.commandFingerprint =
            idempotencyFingerprint machine.enc state.namespaceId envelope then
          (.ok (⟨existing.response, existing.pinIntents, true⟩, state), s)
        else (.error .idempotencyConflict, s)
      | none => machine.applyNew state envelope s := by
  rcases h with ⟨hval, haut⟩
  simp only [NamespaceStateMachine.apply, Fallible.ofExcept, hval, haut, bind, Except.mapError]
  cases state.idempotency[envelope.requestId]? with
  | none => rfl
  | some existing =>
    by_cases hfingerprint : existing.commandFingerprint =
        idempotencyFingerprint machine.enc state.namespaceId envelope
    · simp only [require, if_pos hfingerprint]
      rfl
    · simp only [require, if_neg hfingerprint, fail]

theorem apply_of_recorded (h : Accepted machine state.namespaceId envelope)
    (hrecord : state.idempotency[envelope.requestId]? = some record)
    (hfingerprint : record.commandFingerprint =
      idempotencyFingerprint machine.enc state.namespaceId envelope) (s : σ) :
    machine.apply state envelope s =
      (.ok (⟨record.response, record.pinIntents, true⟩, state), s) := by
  rw [apply_of_accepted machine h, hrecord]
  exact if_pos hfingerprint

/-- A request without a record is not a replay. -/
theorem replayed_of_unrecorded {s s' : σ} (hnew : state.idempotency[envelope.requestId]? = none)
    (h : machine.apply state envelope s = (.ok (result, next), s')) : result.replayed = false := by
  have happlied := ((apply_returns machine state envelope s).of_eq h).2
  cases happlied with
  | fresh => rfl
  | replay record hrecord =>
    rw [hnew] at hrecord
    cases hrecord

end Calls

/-! ## Dropped records -/

section Records

variable {records : BTreeMap String (IdempotencyRecord Digest)}

/-- The number of records that are dropped after one of a revision and a
    request. -/
def recordsAfter (records : BTreeMap String (IdempotencyRecord Digest)) (rev : Nat)
    (requestId : String) : Nat :=
  records.toList.countP fun entry => toLex (rev, requestId) < dropOrder entry

variable {requestId : String}

/-- The entries of a map without one of its keys. -/
theorem toList_perm_erase (h : records[requestId]? = some record) :
    records.toList.Perm ((requestId, record) :: (records.erase requestId).toList) := by
  have hnodup : ∀ m : BTreeMap String (IdempotencyRecord Digest), m.toList.Nodup := fun m =>
    List.Nodup.of_map Prod.fst (by
      rw [Std.ExtTreeMap.map_fst_toList_eq_keys]
      exact Std.ExtTreeMap.nodup_keys)
  have hout : (requestId, record) ∉ (records.erase requestId).toList := by
    rw [Std.ExtTreeMap.mem_toList_iff_getElem?_eq_some, getElem?_erase_eq, if_pos rfl]
    exact nofun
  rw [perm_ext_iff_of_nodup (hnodup _) (nodup_cons.mpr ⟨hout, hnodup _⟩)]
  rintro ⟨id, r⟩
  rw [mem_cons, Std.ExtTreeMap.mem_toList_iff_getElem?_eq_some,
    Std.ExtTreeMap.mem_toList_iff_getElem?_eq_some, getElem?_erase_eq, Prod.mk.injEq]
  by_cases hid : requestId = id
  · subst hid
    rw [if_pos rfl, h, Option.some.injEq]
    simp [eq_comm]
  · rw [if_neg hid]
    simp [Ne.symm hid]

theorem recordsAfter_lt_size (h : records[requestId]? = some record) :
    recordsAfter records record.appliedRevision requestId < records.size := by
  rw [recordsAfter, ← Std.ExtTreeMap.length_toList, (toList_perm_erase h).countP_eq,
    (toList_perm_erase h).length_eq, countP_cons_of_neg (by simp [dropOrder]),
    length_cons]
  exact Nat.lt_succ_of_le countP_le_length

theorem getElem?_of_pruneFrom {limit turns : Nat}
    (h : (pruneFrom limit turns records)[requestId]? = some record) :
    records[requestId]? = some record := by
  induction turns generalizing records with
  | zero => exact h
  | succ turns ih =>
    rw [pruneFrom] at h
    by_cases hsize : records.size > limit
    · rw [if_pos hsize] at h
      cases hmin : minByKey dropOrder records.toList with
      | none =>
        rw [hmin] at h
        exact h
      | some entry =>
        rw [hmin] at h
        have hkept := ih h
        rw [getElem?_erase_eq] at hkept
        by_cases hid : entry.1 = requestId
        · rw [if_pos hid] at hkept
          cases hkept
        · rwa [if_neg hid] at hkept
    · rwa [if_neg hsize] at h

theorem getElem?_pruneFrom_none (limit turns : Nat) (h : records[requestId]? = none) :
    (pruneFrom limit turns records)[requestId]? = none := by
  rw [Option.eq_none_iff_forall_ne_some]
  intro record hrecord
  rw [getElem?_of_pruneFrom hrecord] at h
  cases h

/-- A record outlives the loop exactly when fewer records than the limit are
    dropped after it. The induction is on the turns; a turn drops the least
    record, which is this one or one that does not count. -/
theorem getElem?_pruneFrom (limit turns : Nat) (hturns : records.size ≤ turns)
    (h : records[requestId]? = some record) :
    (pruneFrom limit turns records)[requestId]? =
      if recordsAfter records record.appliedRevision requestId < limit then some record
      else none := by
  have hcount := recordsAfter_lt_size h
  induction turns generalizing records with
  | zero => omega
  | succ turns ih =>
    rw [pruneFrom]
    by_cases hsize : records.size > limit
    · rw [if_pos hsize]
      cases hmin : minByKey dropOrder records.toList with
      | none =>
        have hmem := Std.ExtTreeMap.mem_toList_iff_getElem?_eq_some.mpr h
        rw [minByKey_eq_none.mp hmin] at hmem
        cases hmem
      | some entry =>
        rcases minByKey_spec hmin with ⟨hent, hleast⟩
        have hfound : records[entry.1]? = some entry.2 :=
          Std.ExtTreeMap.mem_toList_iff_getElem?_eq_some.mp hent
        have hperm := toList_perm_erase hfound
        have hlen : records.size = (records.erase entry.1).size + 1 := by
          rw [← Std.ExtTreeMap.length_toList, hperm.length_eq, length_cons,
            Std.ExtTreeMap.length_toList]
        by_cases hid : entry.1 = requestId
        · -- The least record is this one, and all others are dropped after it.
          have hrecord : entry.2 = record := by
            rw [hid, h] at hfound
            exact (Option.some.inj hfound).symm
          have hall : recordsAfter records record.appliedRevision requestId =
              (records.erase entry.1).size := by
            rw [recordsAfter, hperm.countP_eq, ← hid, ← hrecord,
              countP_cons_of_neg (by simp [dropOrder]), ← Std.ExtTreeMap.length_toList,
              countP_eq_length]
            intro other hother
            have hmem : other ∈ records.toList :=
              hperm.mem_iff.mpr (mem_cons_of_mem _ hother)
            have hne : other.1 ≠ entry.1 := by
              intro heq
              have hlook := Std.ExtTreeMap.mem_toList_iff_getElem?_eq_some.mp hother
              rw [getElem?_erase_eq, if_pos heq.symm] at hlook
              cases hlook
            refine decide_eq_true (lt_of_le_of_ne (hleast other hmem) ?_)
            intro heq
            exact hne (congrArg (fun order => (ofLex order).2) heq).symm
          rw [getElem?_pruneFrom_none _ _ (by rw [getElem?_erase_eq, if_pos hid]),
            if_neg (by omega)]
        · have hkept : (records.erase entry.1)[requestId]? = some record := by
            rw [getElem?_erase_eq, if_neg hid, h]
          -- The record that is dropped comes before this one, so it does not count.
          have hsame : recordsAfter records record.appliedRevision requestId =
              recordsAfter (records.erase entry.1) record.appliedRevision requestId := by
            have hle := hleast _ (Std.ExtTreeMap.mem_toList_iff_getElem?_eq_some.mpr h)
            rw [recordsAfter, hperm.countP_eq, countP_cons_of_neg]
            · rfl
            · rw [decide_eq_true_eq]
              exact not_lt.mpr hle
          rw [ih (by omega) hkept (recordsAfter_lt_size hkept), hsame]
    · rw [if_neg hsize, h, if_pos (by omega)]

end Records

end Namespace

end Pepper
