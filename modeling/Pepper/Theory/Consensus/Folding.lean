import Pepper.Theory.Consensus.Proposals
import Pepper.Theory.Consensus.Steps

/-!
# What a Replica Has Published

The intents that a replica publishes for roots and commits, folded into a set,
beside what its state protects.

An applied command publishes the difference that it makes, so the set follows
the state. An installed snapshot replaces the state at once and publishes the
pin of its checkpoint only. The roots of the commands in between are never
protected on this replica, and those that went out of the window in between are
never released.

## Main definitions

* `publishes`: The intents that an operation publishes.
* `Folded`, `foldStep`: A node beside the set that its intents fold to.
* `FreshCommands`, `FreshEntries`: No command is answered from its record.
* `Continues`: What an operation must find for the set to follow.

## Theorems

* `reason_isRole`: The intents of commands are for roots and commits.
* `applyEntries_folds`: The intents of a call fold to what its state protects.
* `folded_eq_protectedCids`: The set is what the state protects.
-/

namespace Pepper

namespace Consensus

open Namespace List
open Merkle
open Pins
open Publication

variable {Digest σ : Type} [DecidableEq Digest]

/-! ## Intents for roots and commits -/

/-- A reason is not one of the two that have nothing to do with a root or a
    commit. -/
def IsRole (reason : String) : Prop :=
  reason ≠ "namespace_checkpoint" ∧ reason ≠ "proposal-input"

instance (reason : String) : Decidable (IsRole reason) :=
  inferInstanceAs (Decidable (_ ∧ _))

variable {state : NamespaceState Digest}

omit [DecidableEq Digest] in
theorem reason_isRole {cid : Cid Digest} {reason : String} (h : Reason state cid reason) :
    IsRole reason := by
  have hreason : (∃ name, reason = "named_snapshot:" ++ name) ∨
      (∃ name, reason = "named_snapshot_commit:" ++ name) ∨
      (∃ number, reason = "retained_revision:" ++ number) ∨
      (∃ number, reason = "retained_commit:" ++ number) ∨
      reason = "namespace_head" ∨ reason = "namespace_head_commit" := by
    cases h with
    | snapshot name snapshot _ _ _ hreason =>
      rcases hreason with rfl | rfl
      · exact .inl ⟨_, rfl⟩
      · exact .inr (.inl ⟨_, rfl⟩)
    | revision revision record _ _ _ _ hreason =>
      rcases hreason with rfl | rfl
      · exact .inr (.inr (.inl ⟨_, rfl⟩))
      · exact .inr (.inr (.inr (.inl ⟨_, rfl⟩)))
    | head _ _ _ hreason =>
      rcases hreason with rfl | rfl
      · exact .inr (.inr (.inr (.inr (.inl rfl))))
      · exact .inr (.inr (.inr (.inr (.inr rfl))))
  rcases hreason with ⟨_, rfl⟩ | ⟨_, rfl⟩ | ⟨_, rfl⟩ | ⟨_, rfl⟩ | rfl | rfl <;>
    constructor <;> intro heq <;>
    · have hlist := congrArg String.toList heq
      simp at hlist

/-- The intents for roots and commits among published records, in their order. -/
def roleIntents (records : List (PublicationIntentRecord Digest)) : List (PinIntent Digest) :=
  (records.filter fun record => IsRole record.reason).map fun record =>
    ⟨record.cid, record.action, record.reason⟩

omit [DecidableEq Digest] in
theorem roleIntents_append (records others : List (PublicationIntentRecord Digest)) :
    roleIntents (records ++ others) = roleIntents records ++ roleIntents others := by
  simp [roleIntents]

/-! ## The set beside the node -/

variable (group : Group σ Digest) (backend : AgentProtectionBackend)

/-- The intents that an operation publishes. -/
def publishes (replica : Replica σ Digest) :
    Operation σ Digest → List (PublicationIntentRecord Digest)
  | .append entries =>
    (append group entries replica.tables).1.toOption.elim [] fun _ =>
      entries.flatMap (proposalIntentsOf group)
  | .apply entries =>
    (applyEntries group entries replica.state replica.blocks).1.toOption.elim []
      (·.publicationIntents)
  | .installSnapshot snapshotMeta pointer pointerBytes fetched =>
    (loadSnapshot group snapshotMeta pointer pointerBytes fetched replica.blocks).1.toOption.elim
      [] fun next => checkpointIntents group next.namespaceState.namespaceId
        ⟨snapshotMeta, pointer⟩ replica.currentSnapshot
  | .truncate _ => []
  | .reconcile _ _ => []

/-- A node, and the set that the intents of its replica fold to. -/
structure Folded (σ Digest : Type) where
  node : Node σ Digest
  pins : Finset (Cid Digest)

def foldStep (folded : Folded σ Digest) (operation : Operation σ Digest) : Folded σ Digest :=
  ⟨Node.step group backend folded.node operation,
    applyIntents folded.pins (roleIntents (publishes group folded.node.replica operation))⟩

/-- No command of an entry is answered from its record. -/
def FreshCommands : List (CommandEnvelope Digest) → NamespaceState Digest → Buffered σ → Prop
  | [], _, _ => True
  | envelope :: rest, state, buffered =>
    let call := rsmApply group state envelope buffered
    (∀ answer ∈ call.1.toOption, answer.1.replayed = false) ∧
      FreshCommands rest (call.1.toOption.elim state Prod.snd) call.2

instance instDecidableFreshCommands : (commands : List (CommandEnvelope Digest)) →
    (state : NamespaceState Digest) → (buffered : Buffered σ) →
    Decidable (FreshCommands group commands state buffered)
  | [], _, _ => isTrue trivial
  | _ :: rest, _, _ =>
    have := instDecidableFreshCommands rest
    inferInstanceAs (Decidable (_ ∧ _))

/-- The commands of an entry. -/
def Entry.commands (entry : Entry Digest) : List (CommandEnvelope Digest) :=
  match entry.payload with
  | .normal commands => commands
  | _ => []

/-- No command of a call is answered from its record. -/
def FreshEntries : List (Entry Digest) → Applying Digest → σ → Prop
  | [], _, _ => True
  | entry :: rest, applying, blocks =>
    let call := applyEntry group applying entry blocks
    FreshCommands group entry.commands applying.next.namespaceState ⟨blocks, ∅⟩ ∧
      ∀ after ∈ call.1.toOption, FreshEntries rest after call.2

instance instDecidableFreshEntries : (entries : List (Entry Digest)) →
    (applying : Applying Digest) → (blocks : σ) →
    Decidable (FreshEntries group entries applying blocks)
  | [], _, _ => isTrue trivial
  | _ :: rest, _, _ =>
    have := instDecidableFreshEntries rest
    inferInstanceAs (Decidable (_ ∧ _))

/-- The state in the checkpoint that was fetched for a snapshot. -/
def checkpointState (pointer : SnapshotPointer Digest) (fetched : Fetched σ Digest) :
    Option (NamespaceState Digest) :=
  fetched.checkpoint.toOption.bind fun blocks =>
    (loadCheckpoint group.enc (fun cid => group.store.get cid blocks) pointer.checkpointCid
      {}).toOption

/-- What an operation must find for the set to follow: a command is not answered
    from its record, and a snapshot is of a state that protects the same
    identifiers as the one that it replaces. -/
def Continues (node : Node σ Digest) : Operation σ Digest → Prop
  | .apply entries =>
    FreshEntries group entries ⟨node.replica.state, [], [], false⟩ node.replica.blocks
  | .installSnapshot _ pointer _ fetched =>
    ∀ state ∈ checkpointState group pointer fetched,
      protectedCids group.enc state = protectedCids group.enc node.replica.state.namespaceState
  | _ => True

instance (node : Node σ Digest) : (operation : Operation σ Digest) →
    Decidable (Continues group node operation)
  | .append _ => inferInstanceAs (Decidable True)
  | .truncate _ => inferInstanceAs (Decidable True)
  | .apply entries => instDecidableFreshEntries group entries _ _
  | .installSnapshot _ _ _ _ => inferInstanceAs (Decidable (∀ state ∈ _, _))
  | .reconcile _ _ => inferInstanceAs (Decidable True)

/-! ## A call -/

omit [DecidableEq Digest] in
/-- The intents of a new command are all for roots and commits. -/
theorem roleIntents_answerRecords (logIndex : Nat) {envelope : CommandEnvelope Digest}
    {result : ApplyResult Digest} {next : NamespaceState Digest}
    (h : Applied (rsmMachine group) state envelope result next) (hfresh : result.replayed = false) :
    roleIntents (answerRecords group logIndex envelope result next) =
      diffPinIntents group.enc (protectedRoots group.enc state)
        (protectedRoots group.enc next) := by
  -- What is recorded and what is dropped protects nothing.
  have hdiff : result.pinIntents = diffPinIntents group.enc (protectedRoots group.enc state)
      (protectedRoots group.enc next) := by
    cases h with
    | fresh => rfl
    | replay => cases hfresh
  have hrole : ∀ intent ∈ result.pinIntents, IsRole intent.reason := by
    intro intent hintent
    rw [hdiff] at hintent
    rcases (mem_diffPinIntents group.enc (texts_protectedRoots _ _)
      (texts_protectedRoots _ _)).mp hintent with ⟨_, hget, _⟩ | ⟨_, hget, _⟩
    · exact reason_isRole (reason_of_getElem? group.enc hget)
    · exact reason_isRole (reason_of_getElem? group.enc hget)
  rw [← hdiff, answerRecords, roleIntents, filter_eq_self.mpr, map_map]
  · exact map_id _
  · intro record hrec
    rcases mem_map.mp hrec with ⟨intent, hintent, rfl⟩
    exact decide_eq_true (hrole intent hintent)

/-- The records so far fold to what the state protects. -/
def FoldsTo (pins : Finset (Cid Digest)) (records : List (PublicationIntentRecord Digest))
    (state : NamespaceState Digest) : Prop :=
  applyIntents pins (roleIntents records) = protectedCids group.enc state

/-- The commands of an entry, none of which is answered from its record. -/
theorem applyCommands_folds {pins : Finset (Cid Digest)} (logIndex : Nat)
    {commands : List (CommandEnvelope Digest)} {records : List (PublicationIntentRecord Digest)}
    {buffered : Buffered σ} (hfresh : FreshCommands group commands state buffered)
    (h : FoldsTo group pins records state) :
    FoldsTo group pins (records ++ (applyCommands group logIndex commands state buffered).1.2)
      (applyCommands group logIndex commands state buffered).1.1 := by
  refine (applyCommands_induct group logIndex (fun rest state records buffered =>
    FreshCommands group rest state buffered ∧ FoldsTo group pins records state) ?_ ?_ commands state
    records buffered ⟨hfresh, h⟩).2
  · intro envelope rest state records buffered result next buffered' hI hcall
    rcases hI with ⟨⟨hanswer, hrest⟩, hfolds⟩
    simp only [hcall, Except.toOption, Option.elim_some] at hanswer hrest
    refine ⟨hrest, ?_⟩
    have happlied : Applied (rsmMachine group) state envelope result next :=
      (rsmApply_returns group state envelope buffered).of_eq hcall
    -- The difference of the two states, from the set of the first.
    rw [FoldsTo, applyIntents] at hfolds
    rw [FoldsTo, roleIntents_append, roleIntents_answerRecords group logIndex happlied
      (hanswer _ rfl), applyIntents, foldl_append, hfolds]
    exact applyIntents_diff group.enc state next
  · intro envelope rest state records buffered error buffered' hI hcall
    rcases hI with ⟨⟨_, hrest⟩, hfolds⟩
    simp only [hcall, Except.toOption, Option.elim_none] at hrest
    exact ⟨hrest, hfolds⟩

/-- The intents of a call take what the state protects to what the next state
    protects. The induction is over the entries still to come. -/
theorem applyEntries_folds {entries : List (Entry Digest)} {state : PersistedStateMachine Digest}
    {blocks : σ} (hfresh : FreshEntries group entries ⟨state, [], [], false⟩ blocks) :
    (applyEntries group entries state).Returns blocks fun applying _ =>
      FoldsTo group (protectedCids group.enc state.namespaceState) applying.publicationIntents
        applying.next.namespaceState := by
  refine (applyEntries_returns group (fun rest applying blocks =>
    FreshEntries group rest applying blocks ∧
      FoldsTo group (protectedCids group.enc state.namespaceState) applying.publicationIntents
        applying.next.namespaceState) ?_ ⟨hfresh, rfl⟩).mono fun _ _ h => h.2
  intro entry rest applying blocks after blocks' hI hcall happlied
  rcases hI with ⟨⟨hcommands, hrest⟩, hfolds⟩
  simp only [hcall, Except.toOption] at hrest
  refine ⟨hrest after rfl, ?_⟩
  cases happlied with
  | commands commands hpay =>
    simp only [Entry.commands, hpay] at hcommands
    exact applyCommands_folds group entry.logId.index hcommands hfolds
  | idle _ _ hstate hintents _ =>
    rw [hstate, hintents]
    exact hfolds

/-! ## The run -/

/-- The intents for a checkpoint are not for a root or a commit. -/
theorem roleIntents_checkpointIntents (namespaceId : NamespaceId Digest)
    (record : StoredSnapshotRecord Digest) (previous : Option (StoredSnapshotRecord Digest)) :
    roleIntents (checkpointIntents group namespaceId record previous) = [] := by
  rw [roleIntents, map_eq_nil_iff, filter_eq_nil_iff]
  intro intent hintent
  simp [IsRole, (mem_checkpointIntents group hintent).1]

omit [DecidableEq Digest] in
/-- The intents for proposals are not for a root or a commit either. -/
theorem roleIntents_proposalIntents (entries : List (Entry Digest)) :
    roleIntents (entries.flatMap (proposalIntentsOf group)) = [] := by
  rw [roleIntents, map_eq_nil_iff, filter_eq_nil_iff]
  intro intent hintent
  rcases mem_flatMap.mp hintent with ⟨entry, _, hintent⟩
  have hreason : intent.reason = "proposal-input" := by
    rw [proposalIntentsOf] at hintent
    cases hpay : entry.payload with
    | blank => simp [hpay] at hintent
    | membership membership => simp [hpay] at hintent
    | normal commands =>
      simp only [hpay, proposalProtectionIntents, mem_flatMap, mem_map] at hintent
      rcases hintent with ⟨_, _, _, _, rfl⟩
      rfl
  simp [IsRole, hreason]

/-- The set is what the state protects. -/
def InStep (folded : Folded σ Digest) : Prop :=
  folded.pins = protectedCids group.enc folded.node.replica.state.namespaceState

theorem foldStep_inStep {folded : Folded σ Digest} {operation : Operation σ Digest}
    (h : InStep group folded) (hctu : Continues group folded.node operation) :
    InStep group (foldStep group backend folded operation) := by
  rw [InStep] at h
  cases operation with
  | append entries =>
    rw [InStep, foldStep, publishes]
    cases (append group entries folded.node.replica.tables).1.toOption with
    | none => exact h
    | some _ =>
      rw [Option.elim_some, roleIntents_proposalIntents]
      exact h
  | truncate index => exact h
  | reconcile now retired => exact h
  | apply entries =>
    rw [InStep, foldStep, publishes, Node.step, apply_eq]
    rcases hcall : applyEntries group entries folded.node.replica.state folded.node.replica.blocks
      with ⟨_ | applying, blocks⟩
    · exact h
    · rw [h]
      exact (applyEntries_folds group hctu).of_eq hcall
  | installSnapshot snapshotMeta pointer pointerBytes fetched =>
    rw [InStep, foldStep, publishes, Node.step, installSnapshot_eq]
    rcases hcall : loadSnapshot group snapshotMeta pointer pointerBytes fetched
      folded.node.replica.blocks with ⟨_ | next, blocks⟩
    · exact h
    · rcases (loadSnapshot_returns group snapshotMeta pointer pointerBytes fetched _).of_eq hcall
        with ⟨_, source, hsource, hload⟩
      have hstate : next.namespaceState ∈ checkpointState group pointer fetched := by
        simp [checkpointState, hsource, hload, Except.toOption]
      simp only [Except.toOption, Option.elim_some, roleIntents_checkpointIntents]
      -- The checkpoint protects what the state before it does.
      rw [hctu _ hstate]
      exact h

/-- In every run without replays whose snapshots are of states that protect the
    same identifiers as those that they replace, the intents fold to what the
    state protects. -/
theorem folded_eq_protectedCids {folded folded' : Folded σ Digest}
    (hstart : folded.pins = protectedCids group.enc folded.node.replica.state.namespaceState)
    (h : Reaches (foldStep group backend) (fun f operation => Continues group f.node operation)
      folded folded') :
    folded'.pins = protectedCids group.enc folded'.node.replica.state.namespaceState :=
  h.invariant (I := InStep group)
    (fun _ _ hfolded hcontinues => foldStep_inStep group backend hfolded hcontinues) hstart

/-! ## Snapshots of another replica -/

/-- A new replica with the pins of its first state. -/
def plainFolded : Folded (List (Codec × Bytes)) Bytes :=
  ⟨plainNode, protectedCids plainNamespaceEncoding (plainState 1)⟩

/-- A replica that has applied one command. -/
def plainSource : Replica (List (Codec × Bytes)) Bytes :=
  (Replica.apply plainGroup [plainEntry 1 [putRequest 1 "a" "01"]] plainReplica).2

/-- The installation of the snapshot that a replica builds of its state. -/
def installFrom (source : Replica (List (Codec × Bytes)) Bytes) :
    List (Operation (List (Codec × Bytes)) Bytes) :=
  let read (blocks : List (Codec × Bytes)) (cid : Cid Bytes) := plainGroup.store.get cid blocks
  let built := writeSnapshot plainGroup (read source.blocks) source.state source.blocks
  built.1.toOption.toList.map fun record =>
    .installSnapshot record.snapshotMeta record.pointer 100 ⟨.ok built.2, read built.2, built.2⟩

/-- A replica applies a command, and then the snapshot of one that has applied
    the same command is installed. -/
theorem folded_eq_protectedCids_same :
    let folded := runOps (foldStep plainGroup plainBackend) plainFolded
      (.apply [plainEntry 1 [putRequest 1 "a" "01"]] :: installFrom plainSource)
    folded.node.replica.currentSnapshot.isSome = true ∧
    folded.pins = protectedCids plainNamespaceEncoding folded.node.replica.state.namespaceState :=
  ⟨by decide +kernel, folded_eq_protectedCids plainGroup plainBackend rfl
    (reaches_runOps _ _ (by decide +kernel))⟩

/-- The snapshot of a replica that is one command ahead: the root that it replaces
    stays in the set, although it is no longer protected. -/
theorem installed_snapshot_leaves_root :
    let folded := runOps (foldStep plainGroup plainBackend) plainFolded (installFrom plainSource)
    folded.node.replica.state.namespaceState.currentRevision = 1 ∧
    folded.pins ≠ protectedCids plainNamespaceEncoding folded.node.replica.state.namespaceState ∧
    (plainState 1).currentRootCid ∈ folded.pins ∧
    (plainState 1).currentRootCid ∉
      protectedCids plainNamespaceEncoding folded.node.replica.state.namespaceState := by
  decide +kernel

end Consensus

end Pepper
