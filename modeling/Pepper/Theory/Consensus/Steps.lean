import Pepper.Core.Consensus
import Pepper.Theory.Namespace.Steps

/-!
# Steps of a Replica

What the calls of a replica do, said once for everything that is proved about
its runs.

Applying entries is a fold, and so are the commands of one entry, but the inner
one has no error: a command that fails is answered and left. What holds along
both folds is stated as one rule each. The rule for the commands hands the whole
list of what is still to come to its invariant, so that a condition on the
commands can be used up on the way.

## Theorems

* `apply_eq`, `installSnapshot_eq`: The replica after a call.
* `rsmApply_returns`: A command that succeeds is an application or a replay.
* `applyCommands_induct`: What every command keeps, the commands of an entry keep.
* `applyEntries_returns`: The same for the entries of a call.
* `loadSnapshot_returns`: The state that a snapshot is of.
* `mem_checkpointIntents`: What is published with a snapshot.
-/

namespace Pepper

namespace Consensus

open Fallible Namespace Merkle Pins Publication

variable {Digest σ : Type} [DecidableEq Digest] (group : Group σ Digest)

/-! ## The two calls -/

/-- The replica after an apply: it has the writes and the new state, or only the
    blocks of the entries before the one that failed. -/
theorem apply_eq (entries : List (Entry Digest)) (replica : Replica σ Digest) :
    (Replica.apply group entries replica).2 =
      match applyEntries group entries replica.state replica.blocks with
      | (.ok applying, blocks) =>
        { persistApplied group applying { replica with blocks } with state := applying.next }
      | (.error _, blocks) => { replica with blocks } := by
  simp only [Replica.apply, bind, Fallible.get, Fallible.zoom, Fallible.modify]
  rcases applyEntries group entries replica.state replica.blocks with ⟨_ | applying, blocks⟩
  · rfl
  · rfl

/-- The replica after a snapshot was installed: everything is replaced, or only
    the blocks have changed. -/
theorem installSnapshot_eq (snapshotMeta : SnapshotMeta) (pointer : SnapshotPointer Digest)
    (pointerBytes : Nat) (fetched : Fetched σ Digest) (replica : Replica σ Digest) :
    (Replica.installSnapshot group snapshotMeta pointer pointerBytes fetched replica).2 =
      match loadSnapshot group snapshotMeta pointer pointerBytes fetched replica.blocks with
      | (.ok next, blocks) =>
        { blocks
          tables := persistInstalledSnapshot group next ⟨snapshotMeta, pointer⟩
            replica.currentSnapshot replica.tables
          state := next
          currentSnapshot := some ⟨snapshotMeta, pointer⟩
          lastPersistedApplied := indexOf snapshotMeta.lastLogId }
      | (.error _, blocks) => { replica with blocks } := by
  simp only [Replica.installSnapshot, bind, Fallible.zoom, Fallible.modify]
  rcases loadSnapshot group snapshotMeta pointer pointerBytes fetched replica.blocks with
    ⟨_ | next, blocks⟩
  · rfl
  · rfl

/-- A snapshot that is loaded is of the state in the checkpoint that was fetched. -/
theorem loadSnapshot_returns (snapshotMeta : SnapshotMeta) (pointer : SnapshotPointer Digest)
    (pointerBytes : Nat) (fetched : Fetched σ Digest) (s : σ) :
    (loadSnapshot group snapshotMeta pointer pointerBytes fetched).Returns s fun next _ =>
      next.lastAppliedLog = snapshotMeta.lastLogId ∧
      ∃ blocks, fetched.checkpoint = .ok blocks ∧
        loadCheckpoint group.enc (fun cid => group.store.get cid blocks) pointer.checkpointCid {} =
          .ok next.namespaceState := by
  refine Returns.require_bind fun _ => ?_
  refine Returns.require_bind fun _ => ?_
  refine Returns.ofExcept_bind fun blocks hblocks => ?_
  refine Returns.modify_bind ?_
  refine Returns.ofExcept_bind fun namespaceState hstate => ?_
  refine Returns.ofExcept_bind fun _ _ => ?_
  refine Returns.modify_bind ?_
  exact Returns.pure ⟨rfl, blocks, mapError_eq_ok.mp hblocks, mapError_eq_ok.mp hstate⟩

/-- The intents of a stored snapshot are for checkpoints, and those for its own
    checkpoint are the ones that protect. -/
theorem mem_checkpointIntents {namespaceId : NamespaceId Digest}
    {record : StoredSnapshotRecord Digest} {previous : Option (StoredSnapshotRecord Digest)}
    {intent : PublicationIntentRecord Digest}
    (h : intent ∈ checkpointIntents group namespaceId record previous) :
    intent.reason = "namespace_checkpoint" ∧
      (intent.cid = record.pointer.checkpointCid ↔ intent.action = .protect) := by
  cases previous with
  | none =>
    rw [List.mem_singleton.mp h]
    exact ⟨rfl, by simp⟩
  | some previous =>
    by_cases hcid : previous.pointer.checkpointCid = record.pointer.checkpointCid
    · simp only [checkpointIntents, hcid, ne_eq, not_true, if_false, List.mem_singleton] at h
      rw [h]
      exact ⟨rfl, by simp⟩
    · simp only [checkpointIntents, ne_eq, hcid, not_false_eq_true, if_true, List.mem_cons,
        List.not_mem_nil, or_false] at h
      rcases h with rfl | rfl
      · exact ⟨rfl, by simp⟩
      · exact ⟨rfl, by simpa using hcid⟩

/-! ## Commands -/

/-- A command that succeeds is an application or a replay. -/
theorem rsmApply_returns (state : NamespaceState Digest) (env : CommandEnvelope Digest)
    (buffered : Buffered σ) :
    (rsmApply group state env).Returns buffered fun r _ =>
      Applied (rsmMachine group) state env r.1 r.2 := by
  refine Returns.ofExcept_bind fun _ _ => ?_
  exact (apply_returns (rsmMachine group) state env buffered).mono fun _ _ h => h.2

/-- The records that an answer gives. -/
def answerRecords (logIndex : Nat) (env : CommandEnvelope Digest)
    (result : ApplyResult Digest) (next : NamespaceState Digest) :
    List (PublicationIntentRecord Digest) :=
  result.pinIntents.map
    (committedPublicationIntent group.names next.namespaceId logIndex env.requestId)

/-- What every command of an entry keeps, all of them keep. The invariant speaks
    about the commands still to come, the state, the records so far and the
    blocks. -/
theorem applyCommands_induct (logIndex : Nat)
    (I : List (CommandEnvelope Digest) → NamespaceState Digest →
      List (PublicationIntentRecord Digest) → Buffered σ → Prop)
    (hok : ∀ env rest state records buffered result next buffered',
      I (env :: rest) state records buffered →
      rsmApply group state env buffered = (.ok (result, next), buffered') →
      I rest next (records ++ answerRecords group logIndex env result next) buffered')
    (herr : ∀ env rest state records buffered error buffered',
      I (env :: rest) state records buffered →
      rsmApply group state env buffered = (.error error, buffered') →
      I rest state records buffered')
    (commands : List (CommandEnvelope Digest)) (state : NamespaceState Digest)
    (records : List (PublicationIntentRecord Digest)) (buffered : Buffered σ)
    (h : I commands state records buffered) :
    I [] (applyCommands group logIndex commands state buffered).1.1
      (records ++ (applyCommands group logIndex commands state buffered).1.2)
      (applyCommands group logIndex commands state buffered).2 := by
  induction commands generalizing state records buffered with
  | nil => simpa [applyCommands] using h
  | cons env rest ih =>
    rw [applyCommands]
    rcases hcall : rsmApply group state env buffered with ⟨error | ⟨result, next⟩, buffered'⟩
    · exact ih state records buffered' (herr _ _ _ _ _ _ _ h hcall)
    · have hrest := ih next _ buffered' (hok _ _ _ _ _ _ _ _ h hcall)
      rw [List.append_assoc] at hrest
      exact hrest

/-! ## Entries -/

/-- A call after the commands of an entry. -/
def Applying.withCommands (applying : Applying Digest) (entry : Entry Digest)
    (commands : List (CommandEnvelope Digest)) (blocks : σ) : Applying Digest :=
  let done := (applyCommands group entry.logId.index commands applying.next.namespaceState
    ⟨blocks, ∅⟩).1
  { applying with
    next := { applying.next with lastAppliedLog := some entry.logId, namespaceState := done.1 }
    publicationIntents := applying.publicationIntents ++ done.2
    resolvedLogIndexes := applying.resolvedLogIndexes ++ [entry.logId.index] }

/-- What an entry makes of a call: its commands are applied, or it has none and
    nothing is published. -/
inductive EntryApplied (applying : Applying Digest) (entry : Entry Digest) (blocks : σ) :
    Applying Digest → Prop
  | commands (commands : List (CommandEnvelope Digest))
      (hpayload : entry.payload = .normal commands) :
      EntryApplied applying entry blocks (applying.withCommands group entry commands blocks)
  | idle (after : Applying Digest)
      (hlast : after.next.lastAppliedLog = some entry.logId)
      (hstate : after.next.namespaceState = applying.next.namespaceState)
      (hintents : after.publicationIntents = applying.publicationIntents)
      (hresolved : after.resolvedLogIndexes = applying.resolvedLogIndexes) :
      EntryApplied applying entry blocks after

theorem applyEntry_returns (applying : Applying Digest) (entry : Entry Digest) (blocks : σ) :
    (applyEntry group applying entry).Returns blocks fun after _ =>
      EntryApplied group applying entry blocks after := by
  unfold applyEntry
  cases hpayload : entry.payload with
  | blank => exact Returns.pure (.idle _ rfl rfl rfl rfl)
  | membership membership => exact Returns.pure (.idle _ rfl rfl rfl rfl)
  | normal commands =>
    refine Returns.get_bind ?_
    refine Returns.bind (Q := fun _ _ => True) ⟨fun _ _ => trivial⟩ fun _ _ _ => ?_
    exact Returns.pure (.commands commands hpayload)

/-- What every entry keeps, a call keeps. The invariant speaks about the entries
    still to come. -/
theorem applyEntries_returns (I : List (Entry Digest) → Applying Digest → σ → Prop)
    (hstep : ∀ entry rest applying blocks after blocks', I (entry :: rest) applying blocks →
      applyEntry group applying entry blocks = (.ok after, blocks') →
      EntryApplied group applying entry blocks after → I rest after blocks')
    {entries : List (Entry Digest)} {state : PersistedStateMachine Digest} {blocks : σ}
    (h : I entries ⟨state, [], [], false⟩ blocks) :
    (applyEntries group entries state).Returns blocks (I []) := by
  refine Returns.foldlM I (fun entry rest applying blocks hI => ⟨fun after haft => ?_⟩) h
  have hcall : applyEntry group applying entry blocks =
      (.ok after, (applyEntry group applying entry blocks).2) := Prod.ext haft rfl
  exact hstep entry rest applying blocks after _ hI hcall
    ((applyEntry_returns group applying entry blocks).of_eq hcall)

end Consensus

end Pepper
