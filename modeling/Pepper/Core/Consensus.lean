import Pepper.Core.Namespace.Machine
import Pepper.Core.Publication.Intents

/-!
# Namespace Replicas

The storage of one replica of a namespace group, as `RedbLogStore` and
`RedbStateMachineStore` of `pepper-consensus`.

The state of the machine is in memory and is written out from time to time; the
pin intents of a log entry are written at once. The snapshot of a state is a
checkpoint block together with a record that points to it. Appending, applying
and installing a snapshot take one lock. Building a snapshot does not: it works
on a copy of the state and takes several steps, each of which can come between
the steps of the others.

A write transaction of the metadata store is taken to succeed: when one fails,
the error is fatal to the raft node, and what happens after a restart is not part
of this model.

## Main definitions

* `LogId`, `Entry`: The log.
* `PersistedStateMachine`, `StoredSnapshotRecord`: What is written out.
* `Replica`: A replica with its tables.
* `append`, `truncate`: The log store.
* `applyEntries`, `Replica.apply`: Applying log entries.
* `persistState`, `persistInstalledSnapshot`: The writes.
* `Replica.installSnapshot`: A snapshot of the leader.
* `Node`, `Node.step`: A replica with the pins of its node.
-/

namespace Pepper

namespace Consensus

open Namespace
open Merkle
open Pins
open Publication

/-! ## Log entries -/

structure LogId where
  term : Nat
  nodeId : Nat
  index : Nat
deriving DecidableEq, Repr

/-- The members of a group: which of them vote, and where they are. -/
structure Membership where
  voterIds : List Nat
  nodes : BTreeMap Nat String

structure StoredMembership where
  logId : Option LogId
  membership : Membership

def StoredMembership.default : StoredMembership :=
  ⟨none, ⟨[], ∅⟩⟩

/-- Commands, a change of the members, or nothing. -/
inductive EntryPayload (Digest : Type) where
  | blank
  | membership (membership : Membership)
  | normal (commands : List (CommandEnvelope Digest))

structure Entry (Digest : Type) where
  logId : LogId
  payload : EntryPayload Digest

/-! ## What is written out -/

/-- The state as the database has it. -/
structure PersistedStateMachine (Digest : Type) where
  lastAppliedLog : Option LogId
  membershipEpoch : Nat
  membership : StoredMembership
  namespaceState : NamespaceState Digest

/-- The checkpoint of a snapshot. -/
structure SnapshotPointer (Digest : Type) where
  checkpointCid : Cid Digest
  membershipEpoch : Nat
  replicaNodeIds : List String

structure SnapshotMeta where
  lastLogId : Option LogId
  lastMembership : StoredMembership
  snapshotId : String

structure StoredSnapshotRecord (Digest : Type) where
  snapshotMeta : SnapshotMeta
  pointer : SnapshotPointer Digest

/-- The tables of a group in the metadata store of the node. -/
structure Tables (Digest : Type) where
  log : BTreeMap Nat (Entry Digest)
  state : Option (PersistedStateMachine Digest)
  checkpoint : Option (StoredSnapshotRecord Digest)
  intents : IntentTables Digest

variable {Digest σ : Type}

/-- What a group is made of: its namespace, the encoding, the texts of
    identifiers, the block store, and the size of an entry in the log. -/
structure Group (σ Digest : Type) where
  namespaceId : NamespaceId Digest
  enc : NamespaceEncoding Digest
  names : IntentNames Digest
  store : MerkleStore σ Digest
  entrySize : Entry Digest → Nat
  maxLogBytes : Nat
  logIdText : LogId → String

variable (group : Group σ Digest)

/-- The index of a log identifier, or zero when there is none. -/
def indexOf (logId : Option LogId) : Nat :=
  logId.elim 0 (·.index)

/-! ## The log store -/

/-- The inputs that an entry pins until it is applied. -/
def proposalIntentsOf (entry : Entry Digest) : List (PublicationIntentRecord Digest) :=
  match entry.payload with
  | .normal commands =>
    proposalProtectionIntents group.names group.namespaceId entry.logId.index commands
  | _ => []

inductive ConsensusError (Digest : Type) where
  | logByteLimitExceeded
  | apply (message : String)
  | snapshot (message : String)
  | merkle (error : MerkleError Digest)
  | namespaceError (error : NamespaceError Digest)

def logBytes (tables : Tables Digest) : Nat :=
  ((tables.log.toList.map fun entry => group.entrySize entry.2).sum)

/-- `RedbLogStore::append`: the entries and the intents for what they put, in one
    transaction. -/
def append (entries : List (Entry Digest)) :
    Fallible (Tables Digest) (ConsensusError Digest) Unit := do
  let tables ← Fallible.get
  let added := (entries.map group.entrySize).sum
  Fallible.require (saturatingAdd (logBytes group tables) added ≤ group.maxLogBytes)
    .logByteLimitExceeded
  Fallible.modify fun tables =>
    { tables with
      log := entries.foldl (fun log entry => log.insert entry.logId.index entry) tables.log
      intents := tables.intents.insertPending (entries.flatMap (proposalIntentsOf group)) }

omit group in
/-- `RedbLogStore::truncate`: the entries from an index on. -/
def truncate (index : Nat) (tables : Tables Digest) : Tables Digest :=
  { tables with log := tables.log.filter fun i _ => i < index }

/-! ## Applying -/

/-- Blocks that are kept back until the end of an entry. -/
structure Buffered (σ : Type) where
  base : σ
  blocks : BTreeMap String (Codec × Bytes)

/-- Blocks are read from the buffer first. -/
def bufferedStore : MerkleStore (Buffered σ) Digest where
  get cid buffered :=
    match buffered.blocks[group.enc.text cid]? with
    | some block => .ok block.2
    | none => group.store.get cid buffered.base
  put codec payload buffered :=
    let cid := group.enc.cid codec payload
    (.ok cid, { buffered with
      blocks := buffered.blocks.insert (group.enc.text cid) (codec, payload) })

def putBatch : List (Codec × Bytes) → Fallible σ String (List (Cid Digest))
  | [] => return []
  | (codec, payload) :: rest => do
      let cid ← group.store.put codec payload
      let cids ← putBatch rest
      return cid :: cids

/-- The machine that runs the commands of an entry. -/
def rsmMachine : NamespaceStateMachine (Buffered σ) Digest where
  enc := group.enc
  store := bufferedStore group
  authorizer _ _ _ _ := .ok ()
  namespaceLimits := {}
  merkleLimits := {}

variable [DecidableEq Digest]

/-- `BufferedConsensusDataStore::flush` -/
def flush (blocks : List (Codec × Bytes)) : Fallible σ String Unit := do
  if blocks.isEmpty then
    return ()
  else
    let actual ← putBatch group blocks
    Fallible.require (actual = blocks.map fun block => group.enc.cid block.1 block.2)
      "batch store returned a CID different from the buffered block"

/-- `NamespaceRsmAdapter::apply` -/
def rsmApply (state : NamespaceState Digest) (envelope : CommandEnvelope Digest) :
    Fallible (Buffered σ) (NamespaceError Digest) (ApplyResult Digest × NamespaceState Digest) := do
  Fallible.ofExcept ((rsmMachine group).withAuthorizer state)
  (rsmMachine group).apply state envelope

/-- The commands of an entry. One that fails changes nothing, and the others
    follow. -/
def applyCommands (logIndex : Nat) : List (CommandEnvelope Digest) → NamespaceState Digest →
    Buffered σ → (NamespaceState Digest × List (PublicationIntentRecord Digest)) × Buffered σ
  | [], state, buffered => ((state, []), buffered)
  | envelope :: rest, state, buffered =>
    match rsmApply group state envelope buffered with
    | (.ok (result, next), buffered) =>
      let intents := result.pinIntents.map
        (committedPublicationIntent group.names next.namespaceId logIndex envelope.requestId)
      let ((final, later), buffered) := applyCommands logIndex rest next buffered
      ((final, intents ++ later), buffered)
    | (.error _, buffered) => applyCommands logIndex rest state buffered

/-- What the entries of one call have come to. -/
structure Applying (Digest : Type) where
  next : PersistedStateMachine Digest
  publicationIntents : List (PublicationIntentRecord Digest)
  resolvedLogIndexes : List Nat
  membershipChanged : Bool

/-- One entry. -/
def applyEntry (applying : Applying Digest) (entry : Entry Digest) :
    Fallible σ (ConsensusError Digest) (Applying Digest) :=
  let next := { applying.next with lastAppliedLog := some entry.logId }
  match entry.payload with
  | .blank => return { applying with next }
  | .membership membership =>
    return { applying with
      next := { next with
        membershipEpoch := saturatingAdd next.membershipEpoch 1
        membership := ⟨some entry.logId, membership⟩ }
      membershipChanged := true }
  | .normal commands => do
      let base ← Fallible.get
      let ((namespaceState, intents), buffered) := applyCommands group entry.logId.index commands
        next.namespaceState ⟨base, ∅⟩
      Fallible.zoom id (fun _ base => base) .apply
        (flush group (buffered.blocks.toList.map Prod.snd))
      return { applying with
        next := { next with namespaceState }
        publicationIntents := applying.publicationIntents ++ intents
        resolvedLogIndexes := applying.resolvedLogIndexes ++ [entry.logId.index] }

/-- Apply entries in order; the first failure ends it. -/
def applyEntries (entries : List (Entry Digest)) (state : PersistedStateMachine Digest) :
    Fallible σ (ConsensusError Digest) (Applying Digest) :=
  entries.foldlM (applyEntry group) ⟨state, [], [], false⟩

/-- The state is written only so often. -/
def statePersistCadenceEntries : Nat := 32

/-- A replica: its tables, and what it has in memory. -/
structure Replica (σ Digest : Type) where
  blocks : σ
  tables : Tables Digest
  state : PersistedStateMachine Digest
  currentSnapshot : Option (StoredSnapshotRecord Digest)
  lastPersistedApplied : Nat

/-- `persist_state_sync` -/
def persistState (state : PersistedStateMachine Digest) (replica : Replica σ Digest) :
    Replica σ Digest :=
  { replica with
    tables := { replica.tables with state := some state }
    lastPersistedApplied := indexOf state.lastAppliedLog }

/-- The writes of an apply: the intents at once, the state when it is due. -/
def persistApplied (applying : Applying Digest) (replica : Replica σ Digest) :
    Replica σ Digest :=
  let replica := { replica with
    tables := { replica.tables with
      intents := persistIntents group.names group.namespaceId applying.publicationIntents
        applying.resolvedLogIndexes replica.tables.intents } }
  if applying.membershipChanged = true ∨
      indexOf applying.next.lastAppliedLog - replica.lastPersistedApplied ≥
        statePersistCadenceEntries then
    persistState applying.next replica
  else replica

/-- `RedbStateMachineStore::apply` -/
def Replica.apply (entries : List (Entry Digest)) :
    Fallible (Replica σ Digest) (ConsensusError Digest) Unit := do
  let replica ← Fallible.get
  let applying ← Fallible.zoom Replica.blocks (fun replica blocks => { replica with blocks }) id
    (applyEntries group entries replica.state)
  Fallible.modify fun replica =>
    { persistApplied group applying replica with state := applying.next }

/-! ## Snapshots -/

/-- The intents of a stored snapshot: its checkpoint is protected, and that of
    the previous one is released. -/
def checkpointIntents (namespaceId : NamespaceId Digest) (record : StoredSnapshotRecord Digest)
    (previous : Option (StoredSnapshotRecord Digest)) : List (PublicationIntentRecord Digest) :=
  let logIndex := indexOf record.snapshotMeta.lastLogId
  let requestId := "checkpoint-" ++ record.snapshotMeta.snapshotId
  let intent (kind : String) (cid : Cid Digest) (action : PinAction) :
      PublicationIntentRecord Digest :=
    { intentId := entryPart group.names group.namespaceId logIndex ++ kind ++ "|" ++
        group.names.text cid
      namespaceId
      logIndex
      requestId
      cid
      action
      reason := "namespace_checkpoint" }
  intent "checkpoint" record.pointer.checkpointCid .protect ::
    match previous with
    | some previous =>
      if previous.pointer.checkpointCid ≠ record.pointer.checkpointCid then
        [intent "checkpoint-release" previous.pointer.checkpointCid .release]
      else []
    | none => []

/-- `persist_installed_snapshot_sync` -/
def persistInstalledSnapshot (state : PersistedStateMachine Digest)
    (record : StoredSnapshotRecord Digest) (previous : Option (StoredSnapshotRecord Digest))
    (tables : Tables Digest) : Tables Digest :=
  { tables with
    state := some state
    checkpoint := some record
    intents := tables.intents.insertPending
      (checkpointIntents group state.namespaceState.namespaceId record previous) }

/-- `snapshot_replica_node_ids` -/
def snapshotReplicaNodeIds (state : PersistedStateMachine Digest) : List String :=
  let membership := state.membership.membership
  let identities := (membership.nodes.toList.filter fun node =>
    membership.voterIds.contains node.1).map Prod.snd
  let identities :=
    if identities.isEmpty then state.namespaceState.descriptor.initialReplicaSet else identities
  (identities.insertionSort (· ≤ ·)).destutter (· ≠ ·)

/-- The record of a snapshot whose checkpoint is written. -/
def snapshotRecord (state : PersistedStateMachine Digest) (checkpointCid : Cid Digest) :
    StoredSnapshotRecord Digest :=
  { snapshotMeta :=
      { lastLogId := state.lastAppliedLog
        lastMembership := state.membership
        snapshotId := state.lastAppliedLog.elim "none" group.logIdText ++ "-" ++
          group.enc.text checkpointCid }
    pointer :=
      { checkpointCid
        membershipEpoch := state.membershipEpoch
        replicaNodeIds := snapshotReplicaNodeIds state } }

/-- The time that a checkpoint gets. -/
def checkpointTimestamp (state : NamespaceState Digest) : Int :=
  state.history[state.currentRevision]?.elim 0 (·.committedAtUnixSeconds)

/-- What `build_snapshot` does with the blocks: the tree of the state is read from
    the replicas, and the checkpoint is written. -/
def writeSnapshot (replicas : Cid Digest → Except String Bytes)
    (state : PersistedStateMachine Digest) :
    Fallible σ (ConsensusError Digest) (StoredSnapshotRecord Digest) := do
  Fallible.ofExcept ((validateTree group.enc.toEncoding {} replicas
    state.namespaceState.currentRootCid).map (fun _ => ()) |>.mapError .merkle)
  let checkpointCid ← Fallible.zoom id (fun _ blocks => blocks) .namespaceError
    (writeCheckpoint group.enc group.store state.namespaceState
      (checkpointTimestamp state.namespaceState))
  return snapshotRecord group state checkpointCid

/-- What the network gives to a replica that installs a snapshot: the blocks
    after the checkpoint was fetched, what the replicas answer when the tree is
    read from them, and the blocks after that. -/
structure Fetched (σ Digest : Type) where
  checkpoint : Except String σ
  replicas : Cid Digest → Except String Bytes
  hydrated : σ

/-- A pointer names one demo replica or three to six production ones. -/
def SnapshotPointer.Valid (pointer : SnapshotPointer Digest) : Prop :=
  (pointer.replicaNodeIds.length = 1 ∨
    (3 ≤ pointer.replicaNodeIds.length ∧ pointer.replicaNodeIds.length ≤ 6)) ∧
  pointer.replicaNodeIds.Nodup

instance (pointer : SnapshotPointer Digest) : Decidable pointer.Valid :=
  inferInstanceAs (Decidable (_ ∧ _))

/-- The state that a snapshot is of, up to the point where it is written. -/
def loadSnapshot (snapshotMeta : SnapshotMeta) (pointer : SnapshotPointer Digest)
    (pointerBytes : Nat) (fetched : Fetched σ Digest) :
    Fallible σ (ConsensusError Digest) (PersistedStateMachine Digest) := do
  Fallible.require (pointerBytes ≤ 1024) (.snapshot "snapshot pointer exceeds 1024 bytes")
  Fallible.require pointer.Valid (.snapshot
    "snapshot must identify one demo replica or three to six production replicas")
  let blocks ← Fallible.ofExcept (fetched.checkpoint.mapError .snapshot)
  Fallible.modify fun _ => blocks
  let namespaceState ← Fallible.ofExcept ((loadCheckpoint group.enc
    (fun cid => group.store.get cid blocks) pointer.checkpointCid {}).mapError .namespaceError)
  Fallible.ofExcept ((validateTree group.enc.toEncoding {} fetched.replicas
    namespaceState.currentRootCid).map (fun _ => ()) |>.mapError .merkle)
  Fallible.modify fun _ => fetched.hydrated
  return ⟨snapshotMeta.lastLogId, pointer.membershipEpoch, snapshotMeta.lastMembership,
    namespaceState⟩

/-- `RedbStateMachineStore::install_snapshot` -/
def Replica.installSnapshot (snapshotMeta : SnapshotMeta) (pointer : SnapshotPointer Digest)
    (pointerBytes : Nat) (fetched : Fetched σ Digest) :
    Fallible (Replica σ Digest) (ConsensusError Digest) Unit := do
  let next ← Fallible.zoom Replica.blocks (fun replica blocks => { replica with blocks }) id
    (loadSnapshot group snapshotMeta pointer pointerBytes fetched)
  let record : StoredSnapshotRecord Digest := ⟨snapshotMeta, pointer⟩
  Fallible.modify fun replica =>
    { replica with
      tables := persistInstalledSnapshot group next record replica.currentSnapshot replica.tables
      state := next
      lastPersistedApplied := indexOf snapshotMeta.lastLogId
      currentSnapshot := some record }

/-! ## A node -/

/-- A replica and the pins of its node. -/
structure Node (σ Digest : Type) where
  replica : Replica σ Digest
  pins : PinTable Digest

/-- What happens to a replica. -/
inductive Operation (σ Digest : Type) where
  | append (entries : List (Entry Digest))
  | truncate (index : Nat)
  | apply (entries : List (Entry Digest))
  | installSnapshot (snapshotMeta : SnapshotMeta) (pointer : SnapshotPointer Digest)
      (pointerBytes : Nat) (fetched : Fetched σ Digest)
  | reconcile (now : Int) (retired : Bool)

/-- One operation, each under its lock. -/
def Node.step (backend : AgentProtectionBackend) (node : Node σ Digest) :
    Operation σ Digest → Node σ Digest
  | .append entries =>
    { node with replica := { node.replica with
      tables := (append group entries node.replica.tables).2 } }
  | .truncate index =>
    { node with replica := { node.replica with
      tables := truncate index node.replica.tables } }
  | .apply entries =>
    { node with replica := (Replica.apply group entries node.replica).2 }
  | .installSnapshot snapshotMeta pointer pointerBytes fetched =>
    { node with replica :=
      (Replica.installSnapshot group snapshotMeta pointer pointerBytes fetched node.replica).2 }
  | .reconcile now retired =>
    let published := (reconcilePinIntents backend now retired
      ⟨node.replica.tables.intents, node.pins⟩).2
    ⟨{ node.replica with tables := { node.replica.tables with intents := published.intents } },
      published.pins⟩

end Consensus

end Pepper
