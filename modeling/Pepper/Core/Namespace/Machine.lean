import Pepper.Core.Namespace.State

/-!
# The Namespace State Machine

The commands of a namespace on its state, as `NamespaceStateMachine` of
`pepper-namespace`, and the checkpoints of a state.

A command works on a copy of the state, which replaces the state only when the
command succeeds. The blocks that it wrote stay in the store either way, so a
call is a `Fallible` over the store that returns the new state with its answer.

## Main definitions

* `NamespaceStateMachine`: The store, the authorizer and the limits.
* `createNamespace`: The first state of a namespace.
* `applyTransaction`, `createSnapshot`, `deleteSnapshot`, `rollback`: The commands.
* `NamespaceStateMachine.apply`: An envelope, answered once for each request.
* `NamespaceStateMachine.step`: One call of a machine that runs.
* `writeCheckpointWithSegmentLimit`, `loadCheckpoint`: A state in the store.
-/

namespace Pepper

namespace Namespace

open Merkle

variable {Digest σ : Type}

/-- What the machine holds beside the state. `authorizer` is `verify` of the
    command authorizer. -/
structure NamespaceStateMachine (σ Digest : Type) where
  enc : NamespaceEncoding Digest
  store : MerkleStore σ Digest
  authorizer : NamespaceId Digest → String → Bytes → String → Except String Unit
  namespaceLimits : NamespaceLimits
  merkleLimits : MerkleLimits

/-! ## Checks -/

/-- `NamespaceId::new` -/
def NamespaceId.new (cid : Cid Digest) : Except (NamespaceError Digest) (NamespaceId Digest) :=
  if cid.codec ≠ codecNamespaceDescriptor then .error (.invalidCodec cid.codec) else .ok ⟨cid⟩

/-- The lengths of the fields of a request. -/
def validateEnvelope (envelope : CommandEnvelope Digest) (limits : NamespaceLimits) :
    Except (NamespaceError Digest) Unit := do
  if envelope.requestId = "" ∨ envelope.requestId.utf8ByteSize > limits.maxRequestIdBytes then
    throw (.invalidCommand "invalid request ID")
  if envelope.writerIdentity = "" ∨
      envelope.writerIdentity.utf8ByteSize > limits.maxIdentityBytes ∨
      validHexField envelope.signatureHex limits.maxSignatureBytes = false ∨
      envelope.timestampUnixSeconds < 0 then
    throw (.invalidCommand "invalid writer identity, signature, or timestamp")

/-- `char::is_control`: the characters of the category Cc. -/
def isControl (c : Char) : Bool :=
  c.toNat < 0x20 || 0x7f ≤ c.toNat && c.toNat < 0xa0

def validateSnapshotName (name : String) (limits : NamespaceLimits) :
    Except (NamespaceError Digest) Unit :=
  if name = "" ∨ name.utf8ByteSize > limits.maxSnapshotNameBytes ∨ name.toList.any isControl then
    .error (.invalidCommand "invalid snapshot name")
  else
    .ok ()

/-- The keys of a transaction are sorted. The result is the number of their
    bytes. -/
def validateKeys : Option Bytes → Nat → List (NamespaceMutation Digest) →
    Except (NamespaceError Digest) Nat
  | _, total, [] => .ok total
  | previous, total, mutation :: rest => do
      let key ← mutation.key
      if previous.any (key ≤ ·) then
        throw (.invalidMutation "mutations must be strictly sorted by unique key")
      validateKeys (some key) (saturatingAdd total key.length) rest

variable [DecidableEq Digest]

/-- The base revision has its root, and the mutations are within limits. -/
def validateTransaction (state : NamespaceState Digest) (transaction : TransactionCommand Digest)
    (limits : NamespaceLimits) : Except (NamespaceError Digest) Unit := do
  if transaction.mutations = [] then
    throw .emptyTransaction
  if transaction.mutations.length > limits.maxTransactionMutations then
    throw (.invalidCommand "too many transaction mutations")
  if transaction.message.any (·.utf8ByteSize > limits.maxMessageBytes) then
    throw (.invalidCommand "commit message exceeds limit")
  match state.history[transaction.baseRevision]? with
  | none => throw .staleSnapshot
  | some base =>
    if base.rootCid ≠ transaction.baseRootCid ∨
        transaction.baseRevision > state.currentRevision then
      throw .staleSnapshot
  let totalKeyBytes ← validateKeys none 0 transaction.mutations
  if totalKeyBytes > limits.maxTransactionKeyBytes then
    throw (.invalidMutation "transaction key bytes exceed limit")

/-- The value that the transaction expects is the one found. -/
def checkPrecondition (key : Bytes) (current : Option (MerkleValue Digest))
    (precondition : KeyPrecondition Digest) : Except (NamespaceError Digest) Unit :=
  let holds : Bool :=
    match precondition with
    | .absent => current.isNone
    | .matches generation cid =>
      current.any fun current => current.generation = generation && current.cid = cid
    | .any => true
  if holds then .ok () else .error (.generationConflict (Hex.encode key))

/-- Equal but for the generation. -/
def sameLogicalValue : Option (MerkleValue Digest) → Option (MerkleValue Digest) → Bool
  | none, none => true
  | some left, some right =>
    left.cid = right.cid && left.valueKind = right.valueKind && left.metadata = right.metadata
  | _, _ => false

variable (enc : NamespaceEncoding Digest)

/-- The tables of a state agree with each other. -/
def validateNamespaceState (state : NamespaceState Digest) (limits : NamespaceLimits) :
    Except (NamespaceError Digest) Unit := do
  state.descriptor.validate limits
  let descriptorCid := enc.cid codecNamespaceDescriptor (enc.descriptor.toVec state.descriptor)
  if state.namespaceId.cid ≠ descriptorCid ∨ state.currentRootCid.codec ≠ codecMerkleNode ∨
      (state.history[state.currentRevision]?.all (·.rootCid ≠ state.currentRootCid)) ∨
      (state.history.toList.any fun entry =>
        entry.1 ≠ entry.2.revision || entry.2.rootCid.codec ≠ codecMerkleNode ||
          entry.2.commitCid.any (·.codec ≠ codecNamespaceCommit)) ∨
      (state.namedSnapshots.toList.any fun entry =>
        entry.1 ≠ entry.2.name || entry.2.rootCid.codec ≠ codecMerkleNode ||
          entry.2.commitCid.any (·.codec ≠ codecNamespaceCommit)) then
    throw (.invalidPayload "namespace state is inconsistent")

/-! ## What is signed and what is recorded -/

/-- What the author of a request signs. -/
def canonicalSigningPayload (namespaceId : NamespaceId Digest)
    (envelope : CommandEnvelope Digest) : Bytes :=
  enc.signingPayload
    { domain := "pepper.namespace_command.v1"
      namespaceId
      requestId := envelope.requestId
      writerIdentity := envelope.writerIdentity
      timestampUnixSeconds := envelope.timestampUnixSeconds
      command := envelope.command }

omit [DecidableEq Digest] in
def intentMutation : NamespaceMutation Digest → IntentMutation Digest
  | .assert keyHex _ => .assert keyHex
  | .put keyHex valueCid valueKind metadata _ => .put keyHex valueCid valueKind metadata
  | .delete keyHex _ => .delete keyHex

omit [DecidableEq Digest] in
def intentCommand : NamespaceCommand Digest → IntentCommand Digest
  | .applyTransaction transaction =>
    .applyTransaction (transaction.mutations.map intentMutation) transaction.message
  | .createSnapshot name revision => .createSnapshot name revision
  | .deleteSnapshot name => .deleteSnapshot name
  | .rollback revision message => .rollback revision message

/-- The time, the signature, the base and the preconditions are not in it. -/
def idempotencyFingerprint (namespaceId : NamespaceId Digest)
    (envelope : CommandEnvelope Digest) : Cid Digest :=
  enc.cid codecRaw (enc.idempotencyPayload
    { domain := "pepper.namespace_idempotency.v1"
      namespaceId
      requestId := envelope.requestId
      writerIdentity := envelope.writerIdentity
      command := intentCommand envelope.command })

/-! ## Blocks -/

variable (store : MerkleStore σ Digest)

/-- A call on the map. -/
def onMap {α : Type} (call : Fallible σ (MerkleError Digest) α) :
    Fallible σ (NamespaceError Digest) α :=
  Fallible.zoom id (fun _ s => s) .merkle call

/-- Store a block; its identifier has to be the one computed. -/
def putCanonical (codec : Codec) (payload : Bytes) :
    Fallible σ (NamespaceError Digest) (Cid Digest) := do
  let expected := enc.cid codec payload
  let actual ← Fallible.zoom id (fun _ s => s) .write (store.put codec payload)
  Fallible.require (actual = expected) (.wrongStoredCid expected actual)
  return actual

/-- A value of the current root. -/
def currentValue (merkleLimits : MerkleLimits) (root : Cid Digest) (key : Bytes) :
    Fallible σ (NamespaceError Digest) (Option (MerkleValue Digest)) := do
  let s ← Fallible.get
  onMap (Fallible.ofExcept (Merkle.get enc.toEncoding merkleLimits (store.get · s) root key))

/-! ## Commands -/

/-- What a commit is made of. -/
structure CommitDraft (Digest : Type) where
  mutations : List (Mutation Digest)
  changedKeys : List (ChangedKey Digest)
  baseRevision : Nat
  message : Option String

/-- The state after a commit. -/
def commitState (state : NamespaceState Digest) (newRoot commitCid : Cid Digest)
    (committedAt : Int) : NamespaceState Digest :=
  let newRevision := saturatingAdd state.currentRevision 1
  { state with
    currentRevision := newRevision
    currentRootCid := newRoot
    headCommitCid := some commitCid
    history := state.history.insert newRevision
      { revision := newRevision
        rootCid := newRoot
        commitCid := some commitCid
        committedAtUnixSeconds := committedAt } }

/-- Change the map, write the commit and record the revision. -/
def commitMerkleMutations (merkleLimits : MerkleLimits) (state : NamespaceState Digest)
    (draft : CommitDraft Digest) (envelope : CommandEnvelope Digest) :
    Fallible σ (NamespaceError Digest) (CommitResponse Digest × NamespaceState Digest) := do
  Fallible.require (draft.mutations.isEmpty = false) .noChanges
  let newRoot ← onMap
    (applyBatch enc.toEncoding merkleLimits store state.currentRootCid draft.mutations)
  let newRevision := saturatingAdd state.currentRevision 1
  let commitCid ← putCanonical enc store codecNamespaceCommit (enc.commit.toVec
    { commitType := commitTypeName
      version := formatVersion
      namespaceId := state.namespaceId
      newRootCid := newRoot
      parentCommitCid := state.headCommitCid
      baseNamespaceRevision := draft.baseRevision
      newNamespaceRevision := newRevision
      changedKeys := draft.changedKeys
      committedAtUnixSeconds := envelope.timestampUnixSeconds
      writerIdentity := envelope.writerIdentity
      requestId := envelope.requestId
      message := draft.message })
  return (⟨state.namespaceId, newRevision, newRoot, commitCid, draft.changedKeys⟩,
    commitState state newRoot commitCid envelope.timestampUnixSeconds)

/-- The generation that a new value gets. -/
def nextGeneration (current : Option (MerkleValue Digest)) : Nat :=
  current.elim 1 (·.generation + 1)

/-- One mutation of a transaction on the current root: the change of the map, if
    there is one, with the key that the answer names. -/
def stageMutation (merkleLimits : MerkleLimits) (root : Cid Digest)
    (mutation : NamespaceMutation Digest) :
    Fallible σ (NamespaceError Digest) (Option (Mutation Digest × ChangedKey Digest)) := do
  let key ← Fallible.ofExcept mutation.key
  let current ← currentValue enc store merkleLimits root key
  Fallible.ofExcept (checkPrecondition key current mutation.precondition)
  match mutation with
  | .assert _ _ => return none
  | .put _ valueCid valueKind metadata _ =>
    let generation := nextGeneration current
    return some (.put key ⟨valueCid, generation, valueKind, metadata⟩,
      ⟨Hex.encode key, some generation, some valueCid⟩)
  | .delete _ _ => do
      Fallible.require (current.isSome = true) .noChanges
      return some (.delete key, ⟨Hex.encode key, none, none⟩)

/-- The mutations of the map, with the generations of their keys. -/
def stageMutations (merkleLimits : MerkleLimits) (root : Cid Digest) :
    List (NamespaceMutation Digest) →
      Fallible σ (NamespaceError Digest) (List (Mutation Digest × ChangedKey Digest))
  | [] => return []
  | mutation :: rest => do
      let first ← stageMutation enc store merkleLimits root mutation
      let others ← stageMutations merkleLimits root rest
      return first.toList ++ others

def applyTransaction (limits : NamespaceLimits) (merkleLimits : MerkleLimits)
    (state : NamespaceState Digest) (transaction : TransactionCommand Digest)
    (envelope : CommandEnvelope Digest) :
    Fallible σ (NamespaceError Digest) (CommitResponse Digest × NamespaceState Digest) := do
  Fallible.ofExcept (validateTransaction state transaction limits)
  let staged ← stageMutations enc store merkleLimits state.currentRootCid transaction.mutations
  commitMerkleMutations enc store merkleLimits state
    { mutations := staged.map Prod.fst
      changedKeys := staged.map Prod.snd
      baseRevision := transaction.baseRevision
      message := transaction.message } envelope

omit [DecidableEq Digest] in
/-- The revision is looked up in the history, retained or not. -/
def createSnapshot (state : NamespaceState Digest) (name : String) (revision : Option Nat)
    (createdAtUnixSeconds : Int) (limits : NamespaceLimits) :
    Except (NamespaceError Digest) (SnapshotResponse Digest × NamespaceState Digest) := do
  validateSnapshotName name limits
  if name ∈ state.namedSnapshots then
    throw (.snapshotExists name)
  if state.namedSnapshots.size ≥ limits.maxNamedSnapshots then
    throw (.invalidCommand "named snapshot limit reached")
  let revision := revision.getD state.currentRevision
  match state.history[revision]? with
  | none => throw (.unknownRevision revision)
  | some record =>
    let snapshot := ⟨name, revision, record.rootCid, record.commitCid, createdAtUnixSeconds⟩
    return (⟨state.namespaceId, name, revision, record.rootCid, false⟩,
      { state with namedSnapshots := state.namedSnapshots.insert name snapshot })

omit [DecidableEq Digest] in
def deleteSnapshot (state : NamespaceState Digest) (name : String) :
    Except (NamespaceError Digest) (SnapshotResponse Digest × NamespaceState Digest) :=
  match state.namedSnapshots[name]? with
  | none => .error (.snapshotNotFound name)
  | some snapshot =>
    .ok (⟨state.namespaceId, name, snapshot.revision, snapshot.rootCid, true⟩,
      { state with namedSnapshots := state.namedSnapshots.erase name })

/-- The loop of `read_all`. A page that is not the last one ends behind all keys
    of the pages before it, so it adds a key, and the limit is passed when the
    pages are used up. -/
def readAllFrom (merkleLimits : MerkleLimits) (read : Cid Digest → Except String Bytes)
    (root : Cid Digest) (limit : Nat) :
    Nat → BTreeMap Bytes (MerkleValue Digest) → Option String →
      Except (NamespaceError Digest) (BTreeMap Bytes (MerkleValue Digest))
  | 0, _, _ => .error (.rollbackTooLarge limit)
  | pages + 1, values, cursor => do
      let remaining := saturatingAdd limit 1 - values.size
      if remaining = 0 then
        throw (.rollbackTooLarge limit)
      let page ← (scan enc.toEncoding merkleLimits read root
        { limit := min remaining merkleLimits.maxScanEntries, cursor }).mapError .merkle
      let values := page.entries.foldl (fun values entry => values.insert entry.key entry.value)
        values
      if values.size > limit then
        throw (.rollbackTooLarge limit)
      match page.nextCursor with
      | none => return values
      | some next => readAllFrom merkleLimits read root limit pages values (some next)

/-- All entries of a map, page by page. -/
def readAll (merkleLimits : MerkleLimits) (read : Cid Digest → Except String Bytes)
    (root : Cid Digest) (limit : Nat) :
    Except (NamespaceError Digest) (BTreeMap Bytes (MerkleValue Digest)) :=
  readAllFrom enc merkleLimits read root limit (limit + 1) ∅ none

/-- What a rollback does at one key. -/
def rollbackKey (current target : BTreeMap Bytes (MerkleValue Digest)) (key : Bytes) :
    Option (Mutation Digest × ChangedKey Digest) :=
  if sameLogicalValue current[key]? target[key]? then none
  else
    match target[key]? with
    | some value =>
      let generation := nextGeneration current[key]?
      some (.put key ⟨value.cid, generation, value.valueKind, value.metadata⟩,
        ⟨Hex.encode key, some generation, some value.cid⟩)
    | none => some (.delete key, ⟨Hex.encode key, none, none⟩)

/-- The map of an earlier revision becomes a new one. -/
def rollback (limits : NamespaceLimits) (merkleLimits : MerkleLimits)
    (state : NamespaceState Digest) (revision : Nat) (message : Option String)
    (envelope : CommandEnvelope Digest) :
    Fallible σ (NamespaceError Digest) (CommitResponse Digest × NamespaceState Digest) := do
  let target ← Fallible.expect state.history[revision]? (.unknownRevision revision)
  let s ← Fallible.get
  let current ← Fallible.ofExcept (readAll enc merkleLimits (store.get · s) state.currentRootCid
    limits.maxRollbackEntries)
  let targetValues ← Fallible.ofExcept (readAll enc merkleLimits (store.get · s) target.rootCid
    limits.maxRollbackEntries)
  let keys : BTreeSet Bytes := Std.ExtTreeSet.ofList (current.keys ++ targetValues.keys) compare
  Fallible.require (keys.size ≤ limits.maxRollbackEntries)
    (.rollbackTooLarge limits.maxRollbackEntries)
  let staged := keys.toList.filterMap (rollbackKey current targetValues)
  commitMerkleMutations enc store merkleLimits state
    { mutations := staged.map Prod.fst
      changedKeys := staged.map Prod.snd
      baseRevision := state.currentRevision
      message := message.or (some ("rollback to revision " ++ toString revision)) } envelope

namespace NamespaceStateMachine

variable (machine : NamespaceStateMachine σ Digest)

/-- `NamespaceStateMachine::with_authorizer`: whether a state may be run. -/
def withAuthorizer (state : NamespaceState Digest) : Except (NamespaceError Digest) Unit := do
  let limits ← machine.namespaceLimits.validate
  state.descriptor.validate limits
  validateNamespaceState machine.enc state limits

/-- The time of a commit: not before that of the current revision. -/
def appliedTimestamp (state : NamespaceState Digest) (envelope : CommandEnvelope Digest) : Int :=
  state.history[state.currentRevision]?.elim envelope.timestampUnixSeconds fun record =>
    max envelope.timestampUnixSeconds record.committedAtUnixSeconds

/-- The command of an envelope whose time is already the one to apply. -/
def dispatch (state : NamespaceState Digest) (envelope : CommandEnvelope Digest) :
    Fallible σ (NamespaceError Digest) (CommandResponse Digest × NamespaceState Digest) :=
  match envelope.command with
  | .applyTransaction transaction => do
      let (response, next) ← applyTransaction machine.enc machine.store machine.namespaceLimits
        machine.merkleLimits state transaction envelope
      return (.commit response, next)
  | .createSnapshot name revision => do
      let (response, next) ← Fallible.ofExcept (createSnapshot state name revision
        envelope.timestampUnixSeconds machine.namespaceLimits)
      return (.snapshot response, next)
  | .deleteSnapshot name => do
      let (response, next) ← Fallible.ofExcept (deleteSnapshot state name)
      return (.snapshot response, next)
  | .rollback revision message => do
      let (response, next) ← Namespace.rollback machine.enc machine.store machine.namespaceLimits
        machine.merkleLimits state revision message envelope
      return (.commit response, next)

/-- A command with its record, once it is known that the request is new. -/
def applyNew (state : NamespaceState Digest) (envelope : CommandEnvelope Digest) :
    Fallible σ (NamespaceError Digest) (ApplyResult Digest × NamespaceState Digest) := do
  let (response, next) ← machine.dispatch state
    { envelope with timestampUnixSeconds := appliedTimestamp state envelope }
  let pinIntents := diffPinIntents machine.enc (protectedRoots machine.enc state)
    (protectedRoots machine.enc next)
  let recorded := { next with
    idempotency := next.idempotency.insert envelope.requestId
      { commandFingerprint := idempotencyFingerprint machine.enc state.namespaceId envelope
        response
        pinIntents
        appliedRevision := next.currentRevision } }
  return (⟨response, pinIntents, false⟩,
    pruneIdempotency recorded machine.namespaceLimits.maxIdempotencyRecords)

/-- The answer and the state that is there afterwards. -/
def apply (state : NamespaceState Digest) (envelope : CommandEnvelope Digest) :
    Fallible σ (NamespaceError Digest) (ApplyResult Digest × NamespaceState Digest) := do
  Fallible.ofExcept (validateEnvelope envelope machine.namespaceLimits)
  Fallible.ofExcept ((machine.authorizer state.namespaceId envelope.writerIdentity
    (canonicalSigningPayload machine.enc state.namespaceId envelope)
    envelope.signatureHex).mapError .unauthorized)
  match state.idempotency[envelope.requestId]? with
  | some existing => do
      Fallible.require (existing.commandFingerprint =
        idempotencyFingerprint machine.enc state.namespaceId envelope) .idempotencyConflict
      return (⟨existing.response, existing.pinIntents, true⟩, state)
  | none => machine.applyNew state envelope

end NamespaceStateMachine

/-- A machine that runs: its blocks and its state. -/
structure Running (σ Digest : Type) where
  blocks : σ
  state : NamespaceState Digest

/-- One call. The state is replaced only when it succeeds; blocks that it wrote
    stay. -/
def NamespaceStateMachine.step (machine : NamespaceStateMachine σ Digest)
    (running : Running σ Digest) (envelope : CommandEnvelope Digest) : Running σ Digest :=
  match machine.apply running.state envelope running.blocks with
  | (.ok (_, next), blocks) => ⟨blocks, next⟩
  | (.error _, blocks) => ⟨blocks, running.state⟩

/-! ## Checkpoints -/

def checkpointSegmentMaxBytes : Nat := 3 * 1024 * 1024

/-- The blocks of a list of payloads. -/
def putSegments : List Bytes → Fallible σ (NamespaceError Digest) (List (Cid Digest))
  | [] => return []
  | chunk :: rest => do
      let cid ← putCanonical enc store codecNamespaceCheckpoint chunk
      let cids ← putSegments rest
      return cid :: cids

def writeCheckpointWithSegmentLimit (state : NamespaceState Digest) (createdAtUnixSeconds : Int)
    (segmentLimit : Nat) : Fallible σ (NamespaceError Digest) (Cid Digest) := do
  Fallible.require (0 ≤ createdAtUnixSeconds) (.invalidCommand "invalid checkpoint timestamp")
  let bytes := enc.checkpoint.toVec
    ⟨checkpointTypeName, formatVersion, state, createdAtUnixSeconds⟩
  if bytes.length ≤ segmentLimit then
    putCanonical enc store codecNamespaceCheckpoint bytes
  else
    let segments ← putSegments enc store (bytes.toChunks segmentLimit)
    putCanonical enc store codecNamespaceCheckpoint (enc.segments.toVec
      ⟨checkpointSegmentsTypeName, formatVersion, bytes.length, segments, createdAtUnixSeconds⟩)

/-- A state as one block or several. -/
def writeCheckpoint (state : NamespaceState Digest) (createdAtUnixSeconds : Int) :
    Fallible σ (NamespaceError Digest) (Cid Digest) :=
  writeCheckpointWithSegmentLimit enc store state createdAtUnixSeconds checkpointSegmentMaxBytes

omit [DecidableEq Digest] in
/-- What was read has to be what writing it again gives. -/
def decodeCanonical {α : Type} (serde : Serde α) (payload : Bytes) :
    Except (NamespaceError Digest) α := do
  let value ← match serde.fromSlice payload with
    | .ok value => pure value
    | .error message => throw (.invalidPayload message)
  if serde.toVec value ≠ payload then
    throw .nonCanonical
  return value

/-- The segments of a checkpoint one behind the other. -/
def loadSegments (read : Cid Digest → Except String Bytes) :
    List (Cid Digest) → Except (NamespaceError Digest) Bytes
  | [] => .ok []
  | cid :: rest => do
      let segment ← match read cid with
        | .ok segment => pure segment
        | .error message => throw (.read cid message)
      if enc.verify cid segment = false then
        throw (.invalidPayload "checkpoint segment CID mismatch")
      let others ← loadSegments read rest
      return segment ++ others

/-- The bytes of a checkpoint, put together if they are in segments. -/
def checkpointPayload (read : Cid Digest → Except String Bytes) (payload : Bytes) :
    Except (NamespaceError Digest) Bytes :=
  if enc.checkpointHeader payload = some checkpointSegmentsTypeName then do
    let manifest ← decodeCanonical enc.segments payload
    if manifest.version ≠ formatVersion then
      throw (.invalidPayload "unsupported checkpoint manifest")
    let assembled ← loadSegments enc read manifest.segments
    if assembled.length ≠ manifest.totalBytes then
      throw (.invalidPayload "checkpoint segments do not reassemble to the recorded size")
    return assembled
  else
    .ok payload

/-- Read a checkpoint back and check it. -/
def loadCheckpoint (read : Cid Digest → Except String Bytes) (cid : Cid Digest)
    (limits : NamespaceLimits) : Except (NamespaceError Digest) (NamespaceState Digest) := do
  if cid.codec ≠ codecNamespaceCheckpoint then
    throw (.invalidCodec cid.codec)
  let stored ← match read cid with
    | .ok payload => pure payload
    | .error message => throw (.read cid message)
  if enc.verify cid stored = false then
    throw (.invalidPayload "checkpoint CID mismatch")
  let payload ← checkpointPayload enc read stored
  let checkpoint ← decodeCanonical enc.checkpoint payload
  if checkpoint.checkpointType ≠ checkpointTypeName ∨ checkpoint.version ≠ formatVersion then
    throw (.invalidPayload "unsupported checkpoint")
  let limits ← limits.validate
  validateNamespaceState enc checkpoint.state limits
  return checkpoint.state

/-! ## Creation -/

structure CreatedNamespace (Digest : Type) where
  namespaceId : NamespaceId Digest
  descriptorCid : Cid Digest
  rootCid : Cid Digest
  checkpointCid : Cid Digest
  state : NamespaceState Digest
  pinIntents : List (PinIntent Digest)

/-- The state of a namespace without commits. -/
def initialState (namespaceId : NamespaceId Digest) (descriptor : NamespaceDescriptor Digest)
    (rootCid : Cid Digest) : NamespaceState Digest :=
  { namespaceId
    descriptor
    currentRevision := 0
    currentRootCid := rootCid
    headCommitCid := none
    history := Std.ExtTreeMap.empty.insert 0 ⟨0, rootCid, none, descriptor.createdAtUnixSeconds⟩
    namedSnapshots := ∅
    idempotency := ∅ }

/-- Write the descriptor, the empty map and the first checkpoint. -/
def createNamespace (limits : NamespaceLimits) (merkleLimits : MerkleLimits)
    (descriptor : NamespaceDescriptor Digest) :
    Fallible σ (NamespaceError Digest) (CreatedNamespace Digest) := do
  let limits ← Fallible.ofExcept limits.validate
  Fallible.ofExcept (descriptor.validate limits)
  let descriptorCid ← putCanonical enc store codecNamespaceDescriptor
    (enc.descriptor.toVec descriptor)
  let namespaceId ← Fallible.ofExcept (NamespaceId.new descriptorCid)
  let rootCid ← onMap (emptyRoot enc.toEncoding merkleLimits store)
  let state := initialState namespaceId descriptor rootCid
  let checkpointCid ← writeCheckpoint enc store state descriptor.createdAtUnixSeconds
  return { namespaceId, descriptorCid, rootCid, checkpointCid, state
           pinIntents := [⟨checkpointCid, .protect, "namespace_genesis_checkpoint"⟩] }

end Namespace

end Pepper
