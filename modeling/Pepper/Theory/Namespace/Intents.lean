import Pepper.Base.Runs
import Pepper.Theory.Namespace.Plain
import Pepper.Theory.Namespace.Protection

/-!
# Pins That Follow a Namespace

Whether the pin intents of the answers keep a set of pins equal to what the
state protects, and whether a named snapshot is of something protected.

The intents of a new command are the difference it makes, so they keep the set
right. A repeated request is answered with the intents of its first answer. By
then the roots may have come and gone, and the old difference is applied to a
state that it was not computed for.

A snapshot finds its revision in the history, from which nothing is ever
dropped, while protection ends with the retention window.

## Main definitions

* `Followed`, `follow`: A running machine beside the set of pins.
* `ReplayAgrees`: The recorded intents of a request say what holds now.
* `namedRevision`, `SnapshotKept`: The revision that a snapshot is of, and that
  it is still protected.
* `Known`: Snapshots and answers name revisions of the history.

## Theorems

* `pins_eq_protectedCids`: The pins are what the state protects.
* `step_known`: Every call keeps the revisions known.
* `snapshot_protected`: A snapshot is of a protected revision.
-/

namespace Pepper

namespace Namespace

open Merkle

variable {Digest σ : Type} [DecidableEq Digest] (machine : NamespaceStateMachine σ Digest)

/-- A running machine and the pins that its answers asked for. -/
structure Followed (σ Digest : Type) where
  running : Running σ Digest
  pins : Finset (Cid Digest)

/-- One call, and the intents of its answer. -/
def follow (followed : Followed σ Digest) (env : CommandEnvelope Digest) :
    Followed σ Digest :=
  match machine.apply followed.running.state env followed.running.blocks with
  | (.ok (result, next), blocks) => ⟨⟨blocks, next⟩, applyIntents followed.pins result.pinIntents⟩
  | (.error _, blocks) => ⟨⟨blocks, followed.running.state⟩, followed.pins⟩

/-- The request is new or conflicts with its record, or its recorded intents say
    what holds now: what they protect is protected, and what they release is not. -/
def ReplayAgrees (state : NamespaceState Digest) (env : CommandEnvelope Digest) : Prop :=
  ∀ record ∈ state.idempotency[env.requestId]?,
    record.commandFingerprint = idempotencyFingerprint machine.enc state.namespaceId env →
      ∀ intent ∈ record.pinIntents,
        intent.cid ∈ protectedCids machine.enc state ↔ intent.action = .protect

instance instDecidableReplayAgrees (state : NamespaceState Digest)
    (env : CommandEnvelope Digest) : Decidable (ReplayAgrees machine state env) :=
  inferInstanceAs (Decidable (∀ record ∈ state.idempotency[env.requestId]?, _ → _))

/-- Intents that say what holds change nothing. -/
theorem applyIntents_of_agree {pins : Finset (Cid Digest)} {intents : List (PinIntent Digest)}
    (h : ∀ intent ∈ intents, intent.cid ∈ pins ↔ intent.action = .protect) :
    applyIntents pins intents = pins := by
  induction intents with
  | nil => rfl
  | cons intent intents ih =>
    have hsame : applyIntent pins intent = pins := by
      ext cid
      rw [mem_applyIntent]
      by_cases hcid : intent.cid = cid
      · rw [if_pos hcid, ← hcid, h intent List.mem_cons_self]
      · rw [if_neg hcid]
    rw [applyIntents, List.foldl_cons, hsame]
    exact ih fun i hi => h i (List.mem_cons_of_mem _ hi)

/-- One call keeps the pins equal to what is protected. -/
theorem follow_pins {followed : Followed σ Digest} {env : CommandEnvelope Digest}
    (h : followed.pins = protectedCids machine.enc followed.running.state)
    (hagrees : ReplayAgrees machine followed.running.state env) :
    (follow machine followed env).pins =
      protectedCids machine.enc (follow machine followed env).running.state := by
  rw [follow]
  rcases hcall : machine.apply followed.running.state env followed.running.blocks with
    ⟨_ | ⟨result, next⟩, blocks⟩
  · exact h
  · have happlied := ((apply_returns machine _ _ _).of_eq hcall).2
    simp only
    cases happlied with
    | fresh response mid hnew hstep =>
      -- The difference of the two states, from the pins of the first.
      rw [h]
      exact applyIntents_diff machine.enc followed.running.state mid
    | replay record hrec hfingerprint =>
      rw [h]
      exact applyIntents_of_agree (hagrees record hrec hfingerprint)

/-- In every run whose repeated requests find what their first answer left, the
    pins are what the state protects. -/
theorem pins_eq_protectedCids {followed followed' : Followed σ Digest}
    (hstart : followed.pins = protectedCids machine.enc followed.running.state)
    (h : Reaches (follow machine) (fun f envelope => ReplayAgrees machine f.running.state envelope)
      followed followed') :
    followed'.pins = protectedCids machine.enc followed'.running.state :=
  h.invariant (I := fun f => f.pins = protectedCids machine.enc f.running.state)
    (fun _ _ hpins hagrees => follow_pins machine hpins hagrees) hstart

/-! ## Snapshots -/

/-- The revision a request for a snapshot is answered with: that of its record,
    or the one that it names. -/
def namedRevision (state : NamespaceState Digest) (requestId : String) (rev : Option Nat) :
    Nat :=
  match state.idempotency[requestId]? with
  | some ⟨_, .snapshot response, _, _⟩ => response.revision
  | _ => rev.getD state.currentRevision

/-- The revision is in the retention window, or has a named snapshot, or is one
    without a commit whose root is the head, or belongs to a retained revision or to
    a named snapshot as well. -/
def SnapshotKept (state : NamespaceState Digest) (rev : Nat) : Prop :=
  ∀ record, state.history[rev]? = some record →
    retained (firstRetained state) (retentionCutoff state) record = true ∨
    (∃ name snapshot, state.namedSnapshots[(name : String)]? = some snapshot ∧
      snapshot.rootCid = record.rootCid ∧ snapshot.commitCid = record.commitCid) ∨
    (record.commitCid = none ∧
      (OneOf record.rootCid state.currentRootCid state.headCommitCid ∨
      (∃ other kept, state.history[(other : Nat)]? = some kept ∧
        retained (firstRetained state) (retentionCutoff state) kept = true ∧
        OneOf record.rootCid kept.rootCid kept.commitCid) ∨
      ∃ name snapshot, state.namedSnapshots[(name : String)]? = some snapshot ∧
        OneOf record.rootCid snapshot.rootCid snapshot.commitCid))

omit [DecidableEq Digest] in
theorem SnapshotKept.held {state : NamespaceState Digest} {rev : Nat}
    {record : RevisionRecord Digest} (h : SnapshotKept state rev)
    (hrecord : state.history[rev]? = some record) {cid : Cid Digest}
    (hcid : OneOf cid record.rootCid record.commitCid) : Held state cid := by
  rcases h record hrecord with hretained | ⟨name, snapshot, hname, hroot, hcommit⟩ | ⟨hnone, hroles⟩
  · exact .revision rev record hrecord hretained hcid
  · rw [← hroot, ← hcommit] at hcid
    exact .snapshot name snapshot hname hcid
  · rcases hcid with rfl | hcommit
    · rcases hroles with hhead | ⟨other, kept, hkept, hretained, hone⟩ |
        ⟨name, snapshot, hname, hone⟩
      · exact .head hhead
      · exact .revision other kept hkept hretained hone
      · exact .snapshot name snapshot hname hone
    · rw [hnone] at hcommit
      cases hcommit

/-- The revisions that snapshots and recorded answers name are in the history. -/
structure Known (state : NamespaceState Digest) : Prop where
  snapshots : ∀ (name : String) (snapshot : NamedSnapshot Digest),
    state.namedSnapshots[name]? = some snapshot → snapshot.revision ∈ state.history
  answers : ∀ (requestId : String) (record : IdempotencyRecord Digest),
    state.idempotency[requestId]? = some record →
      ∀ r, record.response = .snapshot r → r.revision ∈ state.history

omit [DecidableEq Digest] in
theorem Answers.mem_history {state : NamespaceState Digest} {command : NamespaceCommand Digest}
    {response : CommandResponse Digest} (h : Answers state command response) (hknown : Known state)
    {r : SnapshotResponse Digest} (hresponse : response = .snapshot r) :
    r.revision ∈ state.history := by
  rcases h.known r hresponse with hin | ⟨name, snapshot, hsnapshot, hrevision⟩
  · exact hin
  · rw [hrevision]
    exact hknown.snapshots name snapshot hsnapshot

omit [DecidableEq Digest] in
theorem Succeeds.snapshots_known {state next : NamespaceState Digest} {time : Int}
    {command : NamespaceCommand Digest} (h : Succeeds state time command next)
    (hknown : Known state)
    {name : String} {snapshot : NamedSnapshot Digest}
    (hsnapshot : next.namedSnapshots[name]? = some snapshot) :
    snapshot.revision ∈ next.history := by
  have hstays : ∀ rev ∈ state.history, rev ∈ next.history := fun _ => h.mem_history
  cases h with
  | transaction | rollback => exact hstays _ (hknown.snapshots name snapshot hsnapshot)
  | create made revision record _ hrecord =>
    rcases getElem?_insert_cases hsnapshot with ⟨_, rfl⟩ | ⟨_, hold⟩
    · exact mem_iff_exists.mpr ⟨record, hrecord⟩
    · exact hknown.snapshots name snapshot hold
  | delete gone _ _ =>
    rw [getElem?_erase_eq] at hsnapshot
    split at hsnapshot
    · cases hsnapshot
    · exact hknown.snapshots name snapshot hsnapshot

/-- A call keeps the revisions known. -/
theorem step_known {running : Running σ Digest} (envelope : CommandEnvelope Digest)
    (hknown : Known running.state) : Known (machine.step running envelope).state := by
  rw [NamespaceStateMachine.step]
  rcases hcall : machine.apply running.state envelope running.blocks with
    ⟨_ | ⟨result, next⟩, blocks⟩
  · exact hknown
  · have happlied := ((apply_returns machine _ _ _).of_eq hcall).2
    cases happlied with
    | replay => exact hknown
    | fresh response mid _ hstep hanswer =>
      refine ⟨fun _ _ hsnapshot => hstep.snapshots_known hknown hsnapshot, ?_⟩
      intro requestId record hrecord r hresponse
      -- A record is that of this request, or was there before.
      rcases getElem?_insert_cases (getElem?_of_pruneFrom hrecord) with ⟨_, rfl⟩ | ⟨_, hold⟩
      · exact hstep.mem_history (hanswer.mem_history hknown hresponse)
      · rw [hstep.idempotency_eq] at hold
        exact hstep.mem_history (hknown.answers requestId record hold r hresponse)

/-- In every run, a snapshot that a request is answered with is of a revision in
    the history whose root and commit are protected when the request comes. -/
theorem snapshot_protected {start running : Running σ Digest} {next : NamespaceState Digest}
    {envelope : CommandEnvelope Digest} {result : ApplyResult Digest} {blocks : σ} {name : String}
    {revision : Option Nat} (hstart : Known start.state)
    (hrun : Reaches machine.step (fun _ _ => True) start running)
    (h : machine.apply running.state envelope running.blocks = (.ok (result, next), blocks))
    (hcommand : envelope.command = .createSnapshot name revision)
    (hkept : SnapshotKept running.state
      (namedRevision running.state envelope.requestId revision))
    {r : SnapshotResponse Digest} (hresponse : result.response = .snapshot r) :
    ∃ record, running.state.history[r.revision]? = some record ∧
      record.rootCid ∈ protectedCids machine.enc running.state ∧
      ∀ commit, record.commitCid = some commit →
        commit ∈ protectedCids machine.enc running.state := by
  have hknown : Known running.state :=
    hrun.invariant (I := fun running => Known running.state)
      (fun _ envelope hknown _ => step_known machine envelope hknown) hstart
  have hnamed : namedRevision running.state envelope.requestId revision = r.revision ∧
      r.revision ∈ running.state.history := by
    have happlied := ((apply_returns machine running.state envelope running.blocks).of_eq h).2
    cases happlied with
    | fresh response mid hnew hstep hanswer =>
      rcases hanswer.named name revision hcommand with ⟨r', hr', hrevision⟩
      refine ⟨?_, hanswer.mem_history hknown hresponse⟩
      rw [hr'] at hresponse
      cases hresponse
      rw [namedRevision, hnew, hrevision]
    | replay existing hexisting hfingerprint =>
      refine ⟨?_, hknown.answers _ existing hexisting r hresponse⟩
      rcases existing with ⟨fingerprint, response, intents, applied⟩
      cases hresponse
      rw [namedRevision, hexisting]
  rw [hnamed.1] at hkept
  rcases mem_iff_exists.mp hnamed.2 with ⟨record, hrecord⟩
  refine ⟨record, hrecord, ?_, fun commit hcommit => ?_⟩
  · exact (mem_protectedCids machine.enc).mpr (hkept.held hrecord (.inl rfl))
  · exact (mem_protectedCids machine.enc).mpr (hkept.held hrecord (.inr hcommit))

/-! ## Runs of a machine -/

/-- A request that puts an empty value at a key, on the base of the first
    revision. -/
def putRequest (keepLast : Nat) (requestId keyHex : String) : CommandEnvelope Bytes :=
  plainEnvelope requestId (.applyTransaction ⟨0, (plainState keepLast).currentRootCid,
    [.put keyHex ⟨codecRaw, []⟩ "o" ∅ .any], none⟩)

/-- A machine that keeps one revision, with its first root pinned. -/
def plainFollowed : Followed (List (Codec × Bytes)) Bytes :=
  ⟨plainStart 1, protectedCids plainNamespaceEncoding (plainState 1)⟩

/-- A request that comes again at once. -/
theorem pins_eq_protectedCids_repeated : (runOps (follow (plainMachine {})) plainFollowed
      [putRequest 1 "a" "01", putRequest 1 "a" "01"]).pins =
    protectedCids plainNamespaceEncoding (runOps (follow (plainMachine {})) plainFollowed
      [putRequest 1 "a" "01", putRequest 1 "a" "01"]).running.state :=
  pins_eq_protectedCids (plainMachine {}) rfl (reaches_runOps _ _ (by decide +kernel))

/-- The first request comes again when its root is no longer retained. -/
theorem replay_pins_released_root : (runOps (follow (plainMachine {})) plainFollowed
      [putRequest 1 "a" "01", putRequest 1 "b" "02", putRequest 1 "a" "01"]).pins ≠
    protectedCids plainNamespaceEncoding (runOps (follow (plainMachine {})) plainFollowed
      [putRequest 1 "a" "01", putRequest 1 "b" "02", putRequest 1 "a" "01"]).running.state := by
  decide +kernel

/-- A request for a snapshot of a revision. -/
def snapshotOf (requestId name : String) (rev : Nat) : CommandEnvelope Bytes :=
  plainEnvelope requestId (.createSnapshot name (some rev))

/-- The machine after one transaction. -/
def plainCommitted : Running (List (Codec × Bytes)) Bytes :=
  (plainMachine {}).step (plainStart 1) (putRequest 1 "a" "01")

/-- A snapshot of the revision that the transaction has made. -/
theorem snapshot_protected_committed : ∃ record commit,
    plainCommitted.state.history[1]? = some record ∧ record.commitCid = some commit ∧
      record.rootCid ∈ protectedCids plainNamespaceEncoding plainCommitted.state ∧
      commit ∈ protectedCids plainNamespaceEncoding plainCommitted.state := by
  have hstart : Known (plainStart 1).state := ⟨nofun, nofun⟩
  have hanswer : ((plainMachine {}).apply plainCommitted.state (snapshotOf "b" "x" 1)
      plainCommitted.blocks).1.map (·.1.response) = .ok (.snapshot
        ⟨(plainState 1).namespaceId, "x", 1, plainCommitted.state.currentRootCid, false⟩) := by
    decide +kernel
  have hcommitted : (plainCommitted.state.history[1]?.bind (·.commitCid)).isSome = true ∧
      ∀ record ∈ plainCommitted.state.history[1]?, retained (firstRetained plainCommitted.state)
        (retentionCutoff plainCommitted.state) record = true := by
    decide +kernel
  rcases hcall : (plainMachine {}).apply plainCommitted.state (snapshotOf "b" "x" 1)
    plainCommitted.blocks with ⟨_ | ⟨result, next⟩, blocks⟩
  · rw [hcall] at hanswer
    cases hanswer
  · rw [hcall] at hanswer
    have hrun : Reaches (plainMachine {}).step (fun _ _ => True) (plainStart 1) plainCommitted :=
      .single ⟨putRequest 1 "a" "01", trivial, rfl⟩
    rcases snapshot_protected (plainMachine {}) hstart hrun hcall rfl
      (fun record hrecord => .inl (hcommitted.2 record hrecord)) (Except.ok.inj hanswer) with
      ⟨record, hrecord, hroot, hcommits⟩
    rw [hrecord] at hcommitted
    rcases Option.isSome_iff_exists.mp hcommitted.1 with ⟨commit, hcommit⟩
    exact ⟨record, commit, hrecord, hcommit, hroot, hcommits commit hcommit⟩

/-- A snapshot of the first revision when only the second one is retained. -/
theorem snapshot_of_released_revision :
    ((plainMachine {}).apply ((plainMachine {}).step (plainStart 1) (putRequest 1 "a" "01")).state
      (snapshotOf "b" "x" 0)
      ((plainMachine {}).step (plainStart 1) (putRequest 1 "a" "01")).blocks).1.map
        (·.1.response) = .ok (.snapshot ⟨(plainState 1).namespaceId, "x", 0,
          treeCid shortEncoding [] Radix.empty, false⟩) ∧
    treeCid shortEncoding [] Radix.empty ∉ protectedCids plainNamespaceEncoding
      ((plainMachine {}).step (plainStart 1) (putRequest 1 "a" "01")).state := by
  decide +kernel

end Namespace

end Pepper
