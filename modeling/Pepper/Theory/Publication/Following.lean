import Pepper.Core.Publication.Intents
import Pepper.Theory.Namespace.Intents
import Pepper.Theory.Namespace.Reasons
import Pepper.Theory.Publication.Batch

/-!
# A Pin Table That Follows a Namespace

The pin intents of a namespace applied to a real pin table, where a pin is
identified by its reason as well.

As sets of identifiers the intents are right: they are the difference of what is
protected. A release, however, names the reason that the identifier has when it
is released, and the pin was made under the reason it had when it became
protected. In between, a named snapshot may have taken over the reason of a
retained revision, or one revision that of an earlier one with the same root.
Then the release finds nothing, and the pin stays for good.

A protection can fail as well: a deleted pin never becomes active again, and a
snapshot that is made, deleted and made again asks for the same pin.

## Main definitions

* `Pinned`, `pinStep`: A running machine beside the pin table of its node.
* `StillHeld`: A role of an identifier that a command leaves.
* `PinsFollow`: What a command must find for its intents to reach their pins.
* `Tracked`: The invariant of the run.

## Theorems

* `pinStep_tracked`: One command keeps the invariant.
* `pins_iff_protected`: There is an active pin exactly for what is protected.
-/

namespace Pepper

namespace Publication

open Namespace
open Pins
open Merkle

variable {Digest σ : Type}

/-! ## Texts of reasons -/

/-- The reasons that a retained revision gives. -/
def RevisionReason (revision : Nat) (reason : String) : Prop :=
  OneOfReasons ("retained_revision:" ++ toString revision)
    ("retained_commit:" ++ toString revision) reason

variable {reason : String} {revision : Nat} {cid root : Cid Digest}

theorem revisionReason_injective {revision' : Nat} (h : RevisionReason revision reason)
    (h' : RevisionReason revision' reason) : revision = revision' := by
  have hmix : ∀ a b : String, "retained_revision:" ++ a ≠ "retained_commit:" ++ b := by
    intro a b heq
    have hlist := congrArg String.toList heq
    simp at hlist
  rcases h with rfl | rfl <;> rcases h' with h' | h'
  · exact Nat.repr_injective ((String.append_right_inj _).mp h')
  · exact absurd h' (hmix _ _)
  · exact absurd h'.symm (hmix _ _)
  · exact Nat.repr_injective ((String.append_right_inj _).mp h')

/-- The other roles give other reasons. -/
theorem not_revisionReason_snapshot {name : String}
    (h : OneOfReasons ("named_snapshot:" ++ name) ("named_snapshot_commit:" ++ name) reason) :
    ¬ RevisionReason revision reason := by
  rcases h with rfl | rfl <;> rintro (h | h) <;>
    · have hlist := congrArg String.toList h
      simp at hlist

theorem not_revisionReason_head (h : OneOfReasons "namespace_head" "namespace_head_commit" reason) :
    ¬ RevisionReason revision reason := by
  rcases h with rfl | rfl <;> rintro (h | h) <;>
    · have hlist := congrArg String.toList h
      simp at hlist

/-! ## The run -/

variable [DecidableEq Digest]

/-- A running machine and the pin table of its node. -/
structure Pinned (σ Digest : Type) where
  running : Running σ Digest
  table : PinTable Digest

/-- A command with its place in the log, and the times at which its intents are
    applied. -/
structure LoggedCommand (Digest : Type) where
  envelope : CommandEnvelope Digest
  logIndex : Nat
  now : PinIntent Digest → Int

variable (machine : NamespaceStateMachine σ Digest) (names : IntentNames Digest)
  (backend : AgentProtectionBackend)

/-- The intents of an answer as they are applied. -/
def timedIntents (namespaceId : NamespaceId Digest) (command : LoggedCommand Digest)
    (intents : List (PinIntent Digest)) : List (Int × PublicationIntentRecord Digest) :=
  intents.map fun intent => (command.now intent,
    committedPublicationIntent names namespaceId command.logIndex command.envelope.requestId intent)

/-- One call, and the intents of its answer one after another. -/
def pinStep (pinned : Pinned σ Digest) (command : LoggedCommand Digest) : Pinned σ Digest :=
  match machine.apply pinned.running.state command.envelope pinned.running.blocks with
  | (.ok (result, next), blocks) =>
    ⟨⟨blocks, next⟩, (backend.applyEach
      (timedIntents names next.namespaceId command result.pinIntents) pinned.table).2⟩
  | (.error _, blocks) => ⟨⟨blocks, pinned.running.state⟩, pinned.table⟩

/-! ## What a command must find -/

instance (cid root : Cid Digest) (commit : Option (Cid Digest)) :
    Decidable (OneOf cid root commit) :=
  inferInstanceAs (Decidable (_ ∨ _))

/-- A role that a command leaves to an identifier: a revision that the next
    window keeps, or a snapshot that is not deleted. -/
def StillHeld (enc : NamespaceEncoding Digest) (state : NamespaceState Digest) (time : Int)
    (cid : Cid Digest) : NamespaceCommand Digest → Prop
  | .applyTransaction _ | .rollback _ _ =>
    (∃ entry ∈ state.history.toList, entry.1 ≠ saturatingAdd state.currentRevision 1 ∧
      retained (nextFirst state) (nextCutoff state time) entry.2 = true ∧
      OneOf cid entry.2.rootCid entry.2.commitCid) ∨
    ∃ entry ∈ state.namedSnapshots.toList, OneOf cid entry.2.rootCid entry.2.commitCid
  | .createSnapshot _ _ => True
  | .deleteSnapshot name =>
    cid ∈ protectedCids enc { state with namedSnapshots := state.namedSnapshots.erase name }

instance (enc : NamespaceEncoding Digest) (state : NamespaceState Digest) (time : Int)
    (cid : Cid Digest) : (command : NamespaceCommand Digest) →
    Decidable (StillHeld enc state time cid command)
  | .applyTransaction _ => inferInstanceAs (Decidable (_ ∨ _))
  | .rollback _ _ => inferInstanceAs (Decidable (_ ∨ _))
  | .createSnapshot _ _ => inferInstanceAs (Decidable True)
  | .deleteSnapshot _ => inferInstanceAs (Decidable (_ ∈ _))

/-- The pins of an identifier that the command releases are under the reason
    that it has now. -/
def ReleaseFinds (enc : NamespaceEncoding Digest) (state : NamespaceState Digest)
    (table : PinTable Digest) (time : Int) (command : NamespaceCommand Digest) : Prop :=
  ∀ cid ∈ protectedCids enc state, ¬ StillHeld enc state time cid command →
    ∀ id ∈ table.keys, id = ⟨⟨state.namespaceId, cid, id.key.reason⟩, none, backend.nodeId⟩ →
      statusOf table id = some .active →
      (protectedRoots enc state)[enc.text cid]? = some id.key.reason

instance (enc : NamespaceEncoding Digest) (state : NamespaceState Digest)
    (table : PinTable Digest) (time : Int) (command : NamespaceCommand Digest) :
    Decidable (ReleaseFinds backend enc state table time command) :=
  inferInstanceAs (Decidable (∀ cid ∈ protectedCids enc state, _))

/-- A protection finds no deleted pin: a commit has a new number, and a snapshot
    of something that is not protected has not been made before. -/
def ProtectFinds (enc : NamespaceEncoding Digest) (state : NamespaceState Digest)
    (table : PinTable Digest) : NamespaceCommand Digest → Prop
  | .applyTransaction _ | .rollback _ _ => state.currentRevision < u64Max
  | .createSnapshot name revision =>
    ∀ record ∈ state.history[revision.getD state.currentRevision]?,
      ∀ cid ∈ record.rootCid :: record.commitCid.toList, cid ∉ protectedCids enc state →
        mark backend table ⟨state.namespaceId, cid, "named_snapshot:" ++ name⟩ ≠ some .deleted ∧
        mark backend table ⟨state.namespaceId, cid, "named_snapshot_commit:" ++ name⟩ ≠
          some .deleted
  | .deleteSnapshot _ => True

instance (enc : NamespaceEncoding Digest) (state : NamespaceState Digest)
    (table : PinTable Digest) : (command : NamespaceCommand Digest) →
    Decidable (ProtectFinds backend enc state table command)
  | .applyTransaction _ => inferInstanceAs (Decidable (_ < _))
  | .rollback _ _ => inferInstanceAs (Decidable (_ < _))
  | .createSnapshot _ _ => inferInstanceAs (Decidable (∀ record ∈ _, _))
  | .deleteSnapshot _ => inferInstanceAs (Decidable True)

/-- What a command must find for its intents to reach their pins. -/
def PinsFollow (pinned : Pinned σ Digest) (command : LoggedCommand Digest) : Prop :=
  pinned.running.state.idempotency[command.envelope.requestId]? = none ∧
  ReleaseFinds backend machine.enc pinned.running.state pinned.table
    (NamespaceStateMachine.appliedTimestamp pinned.running.state command.envelope)
    command.envelope.command ∧
  ProtectFinds backend machine.enc pinned.running.state pinned.table command.envelope.command

instance (pinned : Pinned σ Digest) (command : LoggedCommand Digest) :
    Decidable (PinsFollow machine backend pinned command) :=
  inferInstanceAs (Decidable (_ ∧ _))

/-! ## The invariant -/

omit [DecidableEq Digest] in
/-- The history ends with the head, and it keeps at least that. -/
structure Numbered (state : NamespaceState Digest) : Prop where
  keepLast : 0 < state.descriptor.retention.keepLast
  bounded : state.currentRevision ≤ u64Max
  current : ∃ record, state.history[state.currentRevision]? = some record ∧
    record.rootCid = state.currentRootCid ∧ record.commitCid = state.headCommitCid
  revisions : ∀ (revision : Nat) record, state.history[revision]? = some record →
    record.revision = revision ∧ revision ≤ state.currentRevision

/-- The table has an active pin exactly for what is held, and none for a revision
    that is still to come. Runs start here. A new namespace does only once its
    first root is pinned, which no code of the crates does. -/
structure Tracked (state : NamespaceState Digest) (table : PinTable Digest) : Prop
    extends Numbered state where
  pins : ∀ cid, (∃ reason, mark backend table ⟨state.namespaceId, cid, reason⟩ = some .active) ↔
    Held state cid
  unused : ∀ cid revision reason, state.currentRevision < revision →
    RevisionReason revision reason → mark backend table ⟨state.namespaceId, cid, reason⟩ = none

section Commands

omit [DecidableEq Digest]

variable {state next : NamespaceState Digest} {time : Int} {command : NamespaceCommand Digest}

theorem Numbered.le_currentRevision (h : Numbered state)
    (hstep : Succeeds state time command next) :
    state.currentRevision ≤ next.currentRevision := by
  have hbound := h.bounded
  rw [hstep.currentRevision_eq]
  cases command <;> simp only [NamespaceCommand.revisionAfter, saturatingAdd] <;> omega

/-- A command keeps the history in order. -/
theorem Numbered.step (h : Numbered state) (hstep : Succeeds state time command next) :
    Numbered next := by
  have hgrows := h.le_currentRevision hstep
  cases hstep with
  | transaction transaction root commit | rollback revision message root commit =>
    refine ⟨h.keepLast, min_le_right _ _, ⟨_, Std.ExtTreeMap.getElem?_insert_self, rfl, rfl⟩, ?_⟩
    intro revision record hrec
    rcases getElem?_insert_cases hrec with ⟨rfl, rfl⟩ | ⟨_, hrec⟩
    · exact ⟨rfl, le_refl _⟩
    · rcases h.revisions revision record hrec with ⟨heq, hle⟩
      exact ⟨heq, hle.trans hgrows⟩
  | create | delete => exact ⟨h.keepLast, h.bounded, h.current, h.revisions⟩

theorem Numbered.timely (h : Numbered state) (env : CommandEnvelope Digest) :
    Timely state (NamespaceStateMachine.appliedTimestamp state env) := by
  rcases h.current with ⟨record, hrec, _⟩
  refine ⟨by rw [hrec]; rfl, fun current hcur => ?_⟩
  rw [NamespaceStateMachine.appliedTimestamp, hcur]
  exact le_max_right _ _

/-- What has a role left is held after the command. -/
theorem held_of_stillHeld [DecidableEq Digest] (enc : NamespaceEncoding Digest)
    (hstep : Succeeds state time command next) (hheld : Held state cid)
    (h : StillHeld enc state time cid command) : Held next cid := by
  have hcommit : ∀ root commit, StillHeld enc state time cid (.rollback 0 none) →
      Held (commitState state root commit time) cid := by
    rintro root commit (⟨⟨revision, record⟩, hmem, hne, hret, hone⟩ |
      ⟨⟨name, snapshot⟩, hmem, hone⟩)
    · refine .revision revision record ?_ ?_ hone
      · rw [Std.ExtTreeMap.mem_toList_iff_getElem?_eq_some] at hmem
        exact (getElem?_insert_eq _ _ _ _).trans ((if_neg (Ne.symm hne)).trans hmem)
      · rw [firstRetained_commitState, retentionCutoff_commitState]
        exact hret
    · exact .snapshot name snapshot (Std.ExtTreeMap.mem_toList_iff_getElem?_eq_some.mp hmem) hone
  cases hstep with
  | transaction transaction root commit => exact hcommit root commit h
  | rollback revision message root commit => exact hcommit root commit h
  | create name revision record habs hrec =>
    cases hheld with
    | head hone => exact .head hone
    | revision revision record hrec hret hone =>
      exact .revision revision record hrec hret hone
    | snapshot other snapshot hsnapshot hone =>
      refine .snapshot other snapshot ?_ hone
      rw [getElem?_insert_eq, if_neg, hsnapshot]
      rintro rfl
      rw [habs] at hsnapshot
      cases hsnapshot
  | delete name snapshot hpre => exact (mem_protectedCids enc).mp h

/-- What a commit newly protects is under the number of the new revision. -/
theorem revisionReason_of_commit (h : Numbered state) (htimely : Timely state time)
    (hmax : state.currentRevision < u64Max) {commit : Cid Digest}
    (hreason : Reason (commitState state root commit time) cid reason) (hnot : ¬ Held state cid) :
    RevisionReason (saturatingAdd state.currentRevision 1) reason := by
  cases hreason with
  | snapshot name snapshot _ hsnapshot hone =>
    exact absurd (.snapshot name snapshot hsnapshot hone) hnot
  | revision revision record _ hrec hret hone hreason =>
    rcases getElem?_insert_cases hrec with ⟨_, rfl⟩ | ⟨_, hrec⟩
    · exact hreason
    · rw [firstRetained_commitState, retentionCutoff_commitState] at hret
      exact absurd (.revision revision record hrec
        (retained_of_next htimely.le htimely.isSome hret) hone) hnot
  | head _ hone hrev =>
    -- The head is always in the window, so it does not decide.
    refine absurd hone (hrev _ _ Std.ExtTreeMap.getElem?_insert_self ?_)
    rw [firstRetained_commitState, retentionCutoff_commitState]
    have hkeep := h.keepLast
    have hnumber : nextFirst state ≤ saturatingAdd state.currentRevision 1 := by
      simp only [nextFirst, saturatingAdd]
      omega
    simp [retained, hnumber]

/-- What a command newly protects finds no deleted pin. -/
theorem mark_ne_deleted [DecidableEq Digest] (enc : NamespaceEncoding Digest)
    {table : PinTable Digest} (htracked : Tracked backend state table) (htimely : Timely state time)
    (hstep : Succeeds state time command next)
    (hfinds : ProtectFinds backend enc state table command) (hreason : Reason next cid reason)
    (hnot : ¬ Held state cid) :
    mark backend table ⟨state.namespaceId, cid, reason⟩ ≠ some .deleted := by
  -- A commit pins under the number of its revision, where nothing was pinned yet.
  have hcommit : ∀ root commit, state.currentRevision < u64Max →
      Reason (commitState state root commit time) cid reason →
      mark backend table ⟨state.namespaceId, cid, reason⟩ ≠ some .deleted := by
    intro root commit hmax hreason
    have hlater : state.currentRevision < saturatingAdd state.currentRevision 1 := by
      rw [saturatingAdd]
      omega
    rw [htracked.unused cid _ reason hlater
      (revisionReason_of_commit htracked.toNumbered htimely hmax hreason hnot)]
    simp
  cases hstep with
  | transaction transaction root commit => exact hcommit root commit hfinds hreason
  | rollback revision message root commit => exact hcommit root commit hfinds hreason
  | create name revision record habs hrec =>
    cases hreason with
    | snapshot other snapshot _ hsnapshot hone hreason =>
      rcases getElem?_insert_cases hsnapshot with ⟨_, rfl⟩ | ⟨_, hsnapshot⟩
      · have hmem : cid ∈ record.rootCid :: record.commitCid.toList := by
          rcases hone with rfl | hone
          · exact List.mem_cons_self
          · exact List.mem_cons_of_mem _ (Option.mem_toList.mpr hone)
        have hunprotected : cid ∉ protectedCids enc state := fun h =>
          hnot ((mem_protectedCids enc).mp h)
        rcases hfinds record hrec cid hmem hunprotected with ⟨hrootPin, hcommitPin⟩
        rcases hreason with rfl | rfl
        · exact hrootPin
        · exact hcommitPin
      · exact absurd (.snapshot other snapshot hsnapshot hone) hnot
    | revision revision record _ hrec hret hone =>
      exact absurd (.revision revision record hrec hret hone) hnot
    | head _ hone => exact absurd (.head hone) hnot
  | delete name snapshot hpre =>
    cases hreason with
    | snapshot other snapshot _ hsnapshot hone =>
      rw [getElem?_erase_eq] at hsnapshot
      split at hsnapshot
      · cases hsnapshot
      · exact absurd (.snapshot other snapshot hsnapshot hone) hnot
    | revision revision record _ hrec hret hone =>
      exact absurd (.revision revision record hrec hret hone) hnot
    | head _ hone => exact absurd (.head hone) hnot

/-- A reason with the number of a revision is that of a revision in the history. -/
theorem le_of_revisionReason (h : Numbered state) (hreason : Reason state cid reason)
    (hrev : RevisionReason revision reason) : revision ≤ state.currentRevision := by
  cases hreason with
  | snapshot name snapshot _ _ _ hreason =>
    exact absurd hrev (not_revisionReason_snapshot hreason)
  | revision other record _ hrec _ _ hreason =>
    rcases h.revisions other record hrec with ⟨heq, hle⟩
    rw [revisionReason_injective hrev hreason, heq]
    exact hle
  | head _ _ _ hreason => exact absurd hrev (not_revisionReason_head hreason)

end Commands

/-! ## The step -/

section Step

variable {enc : NamespaceEncoding Digest} {state next : NamespaceState Digest} {time : Int}
  {command : NamespaceCommand Digest} {table : PinTable Digest}

/-- The records of a difference, as they are applied. -/
def diffRecords (enc : NamespaceEncoding Digest) (logged : LoggedCommand Digest)
    (state next : NamespaceState Digest) : List (Int × PublicationIntentRecord Digest) :=
  timedIntents names state.namespaceId logged
    (diffPinIntents enc (protectedRoots enc state) (protectedRoots enc next))

omit [DecidableEq Digest] in
/-- What the records of a difference say: a protection of what is newly held,
    under a reason that it has, or a release of what is no longer held, under the
    reason that it had. -/
theorem mem_diffRecords {logged : LoggedCommand Digest} {record : PublicationIntentRecord Digest} :
    record ∈ (diffRecords names enc logged state next).map Prod.snd ↔ ∃ intent : PinIntent Digest,
        record = committedPublicationIntent names state.namespaceId logged.logIndex
          logged.envelope.requestId intent ∧
        ((intent.action = .protect ∧ ¬ Held state intent.cid ∧
          (protectedRoots enc next)[enc.text intent.cid]? = some intent.reason) ∨
        (intent.action = .release ∧ ¬ Held next intent.cid ∧
          (protectedRoots enc state)[enc.text intent.cid]? = some intent.reason)) := by
  simp only [diffRecords, timedIntents, List.map_map, List.mem_map, Function.comp_apply,
    mem_diffPinIntents enc (texts_protectedRoots enc state) (texts_protectedRoots enc next),
    text_mem_protectedRoots]
  constructor
  · rintro ⟨intent, ⟨haction, hget, hnot⟩ | ⟨haction, hget, hnot⟩, rfl⟩
    · exact ⟨intent, rfl, .inl ⟨haction, hnot, hget⟩⟩
    · exact ⟨intent, rfl, .inr ⟨haction, hnot, hget⟩⟩
  · rintro ⟨intent, rfl, ⟨haction, hnot, hget⟩ | ⟨haction, hnot, hget⟩⟩
    · exact ⟨intent, .inl ⟨haction, hget, hnot⟩, rfl⟩
    · exact ⟨intent, .inr ⟨haction, hget, hnot⟩, rfl⟩

omit [DecidableEq Digest] in
theorem held_of_getElem? (h : (protectedRoots enc state)[enc.text cid]? = some reason) :
    Held state cid := by
  refine (text_mem_protectedRoots enc).mp (Std.ExtTreeMap.mem_iff_isSome_getElem?.mpr ?_)
  rw [h]
  rfl

omit [DecidableEq Digest] in
theorem exists_getElem?_of_held (enc : NamespaceEncoding Digest) (h : Held state cid) :
    ∃ reason, (protectedRoots enc state)[enc.text cid]? = some reason :=
  Option.isSome_iff_exists.mp
    (Std.ExtTreeMap.mem_iff_isSome_getElem?.mp ((text_mem_protectedRoots enc).mpr h))

omit [DecidableEq Digest] in
theorem uniform_diffRecords (logged : LoggedCommand Digest) :
    Uniform ((diffRecords names enc logged state next).map Prod.snd) := by
  intro first hfirst second hsec hkey
  rcases (mem_diffRecords names).mp hfirst with ⟨i, rfl, hi⟩
  rcases (mem_diffRecords names).mp hsec with ⟨j, rfl, hj⟩
  have hcid : i.cid = j.cid := congrArg PinKey.cid hkey
  show i.action = j.action
  rcases hi with ⟨hi, hnot, _⟩ | ⟨hi, _, hget⟩ <;> rcases hj with ⟨hj, hnot', _⟩ | ⟨hj, _, hget'⟩
  · rw [hi, hj]
  · exact absurd (held_of_getElem? hget') (hcid ▸ hnot)
  · exact absurd (held_of_getElem? hget) (hcid ▸ hnot')
  · rw [hi, hj]

/-- The pins after the records of a difference. -/
theorem mark_diffRecords (logged : LoggedCommand Digest) (hallowed : ∀ cid reason,
    ¬ Held state cid →
      (protectedRoots enc next)[enc.text cid]? = some reason →
      mark backend table ⟨state.namespaceId, cid, reason⟩ ≠ some .deleted) :
    (∀ cid reason, ¬ Held state cid → (protectedRoots enc next)[enc.text cid]? = some reason →
      mark backend (backend.applyEach (diffRecords names enc logged state next) table).2
        ⟨state.namespaceId, cid, reason⟩ = some .active) ∧
    (∀ cid reason, ¬ Held next cid → (protectedRoots enc state)[enc.text cid]? = some reason →
      mark backend (backend.applyEach (diffRecords names enc logged state next) table).2
        ⟨state.namespaceId, cid, reason⟩ =
          advance .release (mark backend table ⟨state.namespaceId, cid, reason⟩)) ∧
    ∀ cid reason, (¬ Held state cid → (protectedRoots enc next)[enc.text cid]? ≠ some reason) →
      (¬ Held next cid → (protectedRoots enc state)[enc.text cid]? ≠ some reason) →
      mark backend (backend.applyEach (diffRecords names enc logged state next) table).2
        ⟨state.namespaceId, cid, reason⟩ = mark backend table ⟨state.namespaceId, cid, reason⟩ := by
  have href : ∀ record ∈ (diffRecords names enc logged state next).map Prod.snd,
      ¬ Refused (mark backend table) record := by
    rintro record hrec ⟨haction, hdel⟩
    rcases (mem_diffRecords names).mp hrec with ⟨intent, rfl, ⟨_, hnot, hget⟩ | ⟨hrelease, _, _⟩⟩
    · exact hallowed intent.cid intent.reason hnot hget hdel
    · exact absurd (haction.symm.trans hrelease) (by simp)
  have huniform : Uniform ((diffRecords names enc logged state next).map Prod.snd) :=
    uniform_diffRecords names logged
  rw [(mark_applyEach backend _).1, beforeRefusal_eq_self huniform href]
  refine ⟨fun cid reason hnot hget => ?_, fun cid reason hnot hget => ?_,
    fun cid reason hprotect hrelease => ?_⟩
  · exact foldl_markAfter_of_mem huniform ((mem_diffRecords names).mpr
      ⟨⟨cid, .protect, reason⟩, rfl, .inl ⟨rfl, hnot, hget⟩⟩) _
  · exact foldl_markAfter_of_mem huniform ((mem_diffRecords names).mpr
      ⟨⟨cid, .release, reason⟩, rfl, .inr ⟨rfl, hnot, hget⟩⟩) _
  · refine foldl_markAfter_of_not_mem (fun record hrec hkey => ?_) _
    rcases (mem_diffRecords names).mp hrec with ⟨intent, rfl, hintent⟩
    have hcid : intent.cid = cid := congrArg PinKey.cid hkey
    have hreason : intent.reason = reason := congrArg PinKey.reason hkey
    rw [hcid, hreason] at hintent
    rcases hintent with ⟨_, hnot, hget⟩ | ⟨_, hnot, hget⟩
    · exact hprotect hnot hget
    · exact hrelease hnot hget

theorem mem_keys_of_statusOf {id : PinId Digest} {status : PinStatus}
    (h : statusOf table id = some status) : id ∈ table.keys := by
  rcases statusOf_eq_some.mp h with ⟨body, hlook, _⟩
  exact AList.mem_keys.mp (AList.lookup_isSome.mp (by rw [hlook]; rfl))

omit [DecidableEq Digest] in
theorem advance_release_ne_active (status : Option PinStatus) :
    advance .release status ≠ some .active := by
  rcases status with _ | _ | _ <;> simp [advance]

/-- A command that finds its pins keeps the table in step with the state. -/
theorem Tracked.diff (htracked : Tracked backend state table) (htimely : Timely state time)
    (hstep : Succeeds state time command next)
    (hrelease : ReleaseFinds backend enc state table time command)
    (hprotect : ProtectFinds backend enc state table command) (logged : LoggedCommand Digest) :
    Tracked backend next (backend.applyEach (diffRecords names enc logged state next) table).2 := by
  have hallowed : ∀ cid reason, ¬ Held state cid →
      (protectedRoots enc next)[enc.text cid]? = some reason →
      mark backend table ⟨state.namespaceId, cid, reason⟩ ≠ some .deleted :=
    fun cid reason hnot hget => mark_ne_deleted backend enc htracked htimely hstep hprotect
      (reason_of_getElem? enc hget) hnot
  rcases mark_diffRecords names backend logged hallowed with ⟨hnew, hgone, hother⟩
  have hnum := htracked.toNumbered.step hstep
  refine ⟨hnum, fun cid => ?_, fun cid revision reason hlater hreason => ?_⟩
  · rw [hstep.namespaceId_eq]
    by_cases hbef : Held state cid <;> by_cases haft : Held next cid
    · -- It stays protected, and nothing is said about it.
      have hsame : ∀ reason, _ = mark backend table ⟨state.namespaceId, cid, reason⟩ :=
        fun reason => hother cid reason (fun hnot => absurd hbef hnot) (fun hnot =>
        absurd haft hnot)
      simp only [hsame, haft, iff_true]
      exact (htracked.pins cid).mpr hbef
    · -- It is released: under its reason now, and there is no other active pin.
      simp only [haft, iff_false, not_exists]
      intro reason hact
      rcases exists_getElem?_of_held enc hbef with ⟨now, hnow⟩
      by_cases hreason : reason = now
      · subst hreason
        rw [hgone cid reason haft hnow] at hact
        exact advance_release_ne_active _ hact
      · rw [hother cid reason (fun hnot => absurd hbef hnot) (fun _ hget => hreason
          (Option.some.inj (hget.symm.trans hnow)))] at hact
        have hreleased := hrelease cid ((mem_protectedCids enc).mpr hbef)
          (fun h => haft (held_of_stillHeld enc hstep hbef h))
          ⟨⟨state.namespaceId, cid, reason⟩, none, backend.nodeId⟩ (mem_keys_of_statusOf hact)
          rfl hact
        exact hreason (Option.some.inj (hreleased.symm.trans hnow))
    · -- It becomes protected.
      rcases exists_getElem?_of_held enc haft with ⟨reason, hreason⟩
      simp only [haft, iff_true]
      exact ⟨reason, hnew cid reason hbef hreason⟩
    · have hsame : ∀ reason, _ = mark backend table ⟨state.namespaceId, cid, reason⟩ :=
        fun reason => hother cid reason (fun _ hget => haft (held_of_getElem? hget))
          (fun _ hget => hbef (held_of_getElem? hget))
      simp only [hsame, haft, iff_false]
      exact fun h => hbef ((htracked.pins cid).mp h)
  · rw [hstep.namespaceId_eq]
    have hnone := htracked.unused cid revision reason
      ((htracked.toNumbered.le_currentRevision hstep).trans_lt hlater) hreason
    by_cases hprotected : ¬ Held state cid ∧ (protectedRoots enc next)[enc.text cid]? = some reason
    · -- A new pin has a number that the history has.
      have hle := le_of_revisionReason hnum (reason_of_getElem? enc hprotected.2) hreason
      omega
    · by_cases hreleased : ¬ Held next cid ∧ (protectedRoots enc state)[enc.text cid]? = some reason
      · rw [hgone cid reason hreleased.1 hreleased.2, hnone]
        rfl
      · rw [hother cid reason (fun hnot hget => hprotected ⟨hnot, hget⟩)
          (fun hnot hget => hreleased ⟨hnot, hget⟩), hnone]

end Step

omit [DecidableEq Digest] in
/-- Records of requests play no part in roles. -/
theorem held_recorded {state : NamespaceState Digest} {limit : Nat}
    {records : BTreeMap String (IdempotencyRecord Digest)} :
    Held (pruneIdempotency { state with idempotency := records } limit) cid ↔ Held state cid := by
  -- Either way a role is the same role in the other state.
  constructor <;> intro h <;> cases h with
  | head h => exact .head h
  | revision revision record hrec hret h =>
    exact .revision revision record hrec hret h
  | snapshot name snapshot hsnapshot h => exact .snapshot name snapshot hsnapshot h

theorem Tracked.recorded {state : NamespaceState Digest} {table : PinTable Digest}
    (h : Tracked backend state table) (limit : Nat)
    (records : BTreeMap String (IdempotencyRecord Digest)) :
    Tracked backend (pruneIdempotency { state with idempotency := records } limit) table :=
  ⟨⟨h.keepLast, h.bounded, h.current, h.revisions⟩,
    fun cid => (h.pins cid).trans held_recorded.symm, h.unused⟩

/-- One call keeps the pins in step with the state. -/
theorem pinStep_tracked {pinned : Pinned σ Digest} {command : LoggedCommand Digest}
    (h : Tracked backend pinned.running.state pinned.table)
    (hfollow : PinsFollow machine backend pinned command) :
    Tracked backend (pinStep machine names backend pinned command).running.state
      (pinStep machine names backend pinned command).table := by
  rcases hfollow with ⟨hnew, hrelease, hprotect⟩
  rw [pinStep]
  rcases hcall : machine.apply pinned.running.state command.envelope pinned.running.blocks with
    ⟨_ | ⟨result, next⟩, blocks⟩
  · exact h
  · have happlied := ((apply_returns machine _ _ _).of_eq hcall).2
    simp only
    cases happlied with
    | replay record hrec =>
      rw [hnew] at hrec
      cases hrec
    | fresh response mid _ hstep =>
      have hmid : Tracked backend mid (backend.applyEach (timedIntents names mid.namespaceId
          command (freshResult machine pinned.running.state mid response).pinIntents)
          pinned.table).2 := by
        rw [hstep.namespaceId_eq]
        exact h.diff names backend (h.toNumbered.timely command.envelope) hstep hrelease hprotect
          command
      exact hmid.recorded backend _ _

/-- In every run whose commands find the pins that they release, and no deleted
    pin in place of one that they make, there is an active pin for an identifier
    exactly when the state protects it. -/
theorem pins_iff_protected {pinned pinned' : Pinned σ Digest}
    (hstart : Tracked backend pinned.running.state pinned.table)
    (h : Reaches (pinStep machine names backend) (PinsFollow machine backend) pinned pinned')
    (cid : Cid Digest) :
    (∃ reason, mark backend pinned'.table ⟨pinned'.running.state.namespaceId, cid, reason⟩ =
      some .active) ↔ cid ∈ protectedCids machine.enc pinned'.running.state := by
  have htracked := h.invariant (I := fun p => Tracked backend p.running.state p.table)
    (fun _ _ hp hfollow => pinStep_tracked machine names backend hp hfollow) hstart
  rw [mem_protectedCids]
  exact htracked.pins cid

/-! ## A new namespace -/

variable {descriptor : NamespaceDescriptor Digest} {namespaceId : NamespaceId Digest}

omit [DecidableEq Digest] in
theorem held_initialState : Held (initialState namespaceId descriptor root) cid ↔ cid = root := by
  constructor
  · intro h
    cases h with
    | head h =>
      rcases h with rfl | h
      · rfl
      · cases h
    | revision revision record hrec _ h =>
      rcases getElem?_insert_cases hrec with ⟨_, rfl⟩ | ⟨_, hrec⟩
      · rcases h with rfl | h
        · rfl
        · cases h
      · simp at hrec
    | snapshot name snapshot hsnapshot _ => simp [initialState] at hsnapshot
  · rintro rfl
    exact .head (.inl rfl)

/-- The table of a node on which only the first root is pinned, as a caller of
    `bootstrap_namespace_group` would have to do. -/
def firstPins (namespaceId : NamespaceId Digest) (root : Cid Digest) (now : Int) :
    PinTable Digest :=
  (backend.protect now ⟨namespaceId, root, "retained_revision:0"⟩ none ∅).2

theorem mark_firstPins (namespaceId : NamespaceId Digest) (root : Cid Digest) (now : Int)
    (key : PinKey Digest) :
    mark backend (firstPins backend namespaceId root now) key =
      if key = ⟨namespaceId, root, "retained_revision:0"⟩ then some .active else none := by
  have hempty : ∀ id : PinId Digest, statusOf ∅ id = none := fun id => by
    simp [statusOf]
  have habs : statusOf (∅ : PinTable Digest)
      ⟨⟨namespaceId, root, "retained_revision:0"⟩, none, backend.nodeId⟩ ≠ some .deleted := by
    simp [hempty]
  rw [mark, firstPins, (statusOf_protect backend now habs).2]
  simp [hempty]

theorem tracked_initialState (hkeep : 0 < descriptor.retention.keepLast) (now : Int) :
    Tracked backend (initialState namespaceId descriptor root)
      (firstPins backend namespaceId root now) := by
  refine ⟨⟨hkeep, Nat.zero_le _, ⟨_, Std.ExtTreeMap.getElem?_insert_self, rfl, rfl⟩, ?_⟩, ?_, ?_⟩
  · intro revision record hrec
    rcases getElem?_insert_cases hrec with ⟨rfl, rfl⟩ | ⟨_, hrec⟩
    · exact ⟨rfl, le_refl _⟩
    · simp at hrec
  · intro cid
    rw [held_initialState]
    simp only [mark_firstPins]
    simp [initialState]
  · intro cid revision reason hlater hreason
    rw [mark_firstPins, if_neg]
    intro hkey
    have hzero : RevisionReason 0 reason := .inl (congrArg PinKey.reason hkey)
    rw [revisionReason_injective hreason hzero] at hlater
    exact absurd hlater (Nat.lt_irrefl _)

/-! ## Runs of a machine -/

def plainNames : IntentNames Bytes :=
  ⟨plainNamespaceEncoding.text, id⟩

def plainBackend : AgentProtectionBackend :=
  ⟨"n", 1⟩

/-- A new namespace that keeps one revision, with its first root pinned. -/
def plainPinned : Pinned (List (Codec × Bytes)) Bytes :=
  ⟨plainStart 1, firstPins plainBackend (plainState 1).namespaceId (plainState 1).currentRootCid 0⟩

/-- A command at a place in the log. -/
def logged (logIndex : Nat) (env : CommandEnvelope Bytes) : LoggedCommand Bytes :=
  ⟨env, logIndex, fun _ => 0⟩

/-- A commit that takes the first root out of the window. -/
theorem pins_iff_protected_commit :
    let pinned := runOps (pinStep (plainMachine {}) plainNames plainBackend) plainPinned
      [logged 1 (putRequest 1 "b" "01")]
    (∃ reason, mark plainBackend pinned.table ⟨pinned.running.state.namespaceId,
      (plainState 1).currentRootCid, reason⟩ = some .active) ↔
    (plainState 1).currentRootCid ∈ protectedCids plainNamespaceEncoding pinned.running.state :=
  pins_iff_protected (plainMachine {}) plainNames plainBackend
    (tracked_initialState plainBackend (by decide) 0) (reaches_runOps _ _ (by decide +kernel)) _

/-- From a table of pins, a commit is made, a snapshot of it, and another commit, and
    the snapshot is deleted. The first commit still has its pin then, but nothing
    protects it. -/
def LeavesPin (table : PinTable Bytes) : Prop :=
  let committed := pinStep (plainMachine {}) plainNames plainBackend ⟨plainStart 1, table⟩
    (logged 1 (putRequest 1 "a" "01"))
  let pinned := runOps (pinStep (plainMachine {}) plainNames plainBackend) committed
    [logged 2 (snapshotOf "b" "x" 1), logged 3 (putRequest 1 "c" "02"),
      logged 4 (plainEnvelope "d" (.deleteSnapshot "x"))]
  pinned.running.state.currentRevision = 2 ∧ mark plainBackend pinned.table
      ⟨pinned.running.state.namespaceId, committed.running.state.currentRootCid,
        "retained_revision:1"⟩ = some .active ∧
  committed.running.state.currentRootCid ∉
    protectedCids plainNamespaceEncoding pinned.running.state

/-- A snapshot takes over the reason of the pin that a commit has made. When it is
    deleted after the window has moved on, the pin is not found. It does not matter
    whether the first root was pinned. -/
theorem deleted_snapshot_leaves_pin : LeavesPin plainPinned.table ∧ LeavesPin ∅ := by
  unfold LeavesPin
  decide +kernel

end Publication

end Pepper
