import Pepper.Core.Merkle.Scan

/-!
# The State of a Namespace

The data of the namespace state machine of `pepper-namespace`: the descriptor
that names the namespace, the revisions with their roots, the named snapshots,
the commands, and what retention makes of a state.

The roots that a state protects are a map from the text of an identifier to a
reason. A later role of an identifier replaces the reason of an earlier one, so
the map says which roots are protected but only one reason for each.

Revisions are 64-bit numbers and times are signed 64-bit numbers. Where the
source adds and subtracts with saturation or casts, so does the model.

## Main definitions

* `NamespaceDescriptor`, `NamespaceLimits`: What a namespace is and may hold.
* `NamespaceCommand`, `CommandEnvelope`: The commands, and who sends them.
* `NamespaceState`: The replicated state.
* `NamespaceEncoding`: The texts and serializations in use.
* `protectedRoots`: What a state keeps from being collected, and why.
* `diffPinIntents`: From one protected set to the next.
* `pruneIdempotency`: How records of answered requests are dropped.
-/

namespace Pepper

namespace Namespace

open Merkle

/-! ## Machine numbers -/

def u64Max : Nat := 2 ^ 64 - 1

/-- `u64::saturating_add`. -/
def saturatingAdd (a b : Nat) : Nat :=
  min (a + b) u64Max

/-- The cast of an unsigned number of 64 bits to a signed one. -/
def asI64 (n : Nat) : Int :=
  if n % 2 ^ 64 < 2 ^ 63 then (n % 2 ^ 64 : Nat) else (n % 2 ^ 64 : Nat) - 2 ^ 64

/-- `i64::saturating_sub`. -/
def saturatingSubI64 (a b : Int) : Int :=
  max (-2 ^ 63) (min (a - b) (2 ^ 63 - 1))

/-! ## Descriptors and limits -/

def descriptorTypeName : String := "pepper.namespace_descriptor"

def commitTypeName : String := "pepper.namespace_commit"

def checkpointTypeName : String := "pepper.namespace_checkpoint"

def checkpointSegmentsTypeName : String := "pepper.namespace_checkpoint_segments"

def formatVersion : Nat := 1

structure NamespaceId (Digest : Type) where
  cid : Cid Digest
deriving DecidableEq

/-- What is built on the namespace. -/
inductive NamespaceKind where
  | kv
  | bucket
  | filesystem
  | sqlite
deriving DecidableEq

/-- The copies that a write needs. -/
structure DurabilityPolicy where
  replicas : Nat
deriving DecidableEq

/-- Revisions are kept by number and, if set, by age. -/
structure RetentionPolicy where
  /-- The current revision is always retained; this includes it. -/
  keepLast : Nat
  maxAgeSeconds : Option Nat
deriving DecidableEq

structure NamespaceDescriptor (Digest : Type) where
  descriptorType : String
  version : Nat
  kind : NamespaceKind
  initialReplicaSet : List String
  consensusProtocolVersion : Nat
  replicationFactor : Nat
  placementConstraints : BTreeMap String String
  durability : DurabilityPolicy
  retention : RetentionPolicy
  authorizationPolicyCid : Option (Cid Digest)
  createdAtUnixSeconds : Int
  creatorIdentity : String
  creatorSignatureHex : String
deriving DecidableEq

/-- The bounds that a machine is opened with. -/
structure NamespaceLimits where
  maxTransactionMutations : Nat := 10000
  maxTransactionKeyBytes : Nat := 8 * 1024 * 1024
  maxMessageBytes : Nat := 4 * 1024
  maxIdentityBytes : Nat := 256
  maxSignatureBytes : Nat := 1024
  maxRequestIdBytes : Nat := 128
  maxSnapshotNameBytes : Nat := 256
  maxNamedSnapshots : Nat := 10000
  maxRetainedRevisions : Nat := 100000
  maxIdempotencyRecords : Nat := 100000
  maxRollbackEntries : Nat := 1000000

/-- Why an operation on a namespace fails. Where the source puts the text of an
    identifier, a codec or an error of the map into the message, the error holds
    it as it is. -/
inductive NamespaceError (Digest : Type) where
  | invalidLimits
  | invalidCodec (codec : Codec)
  | invalidDescriptor (message : String)
  | invalidCommand (message : String)
  | invalidMutation (message : String)
  | unauthorized (message : String)
  | read (cid : Cid Digest) (message : String)
  | write (message : String)
  | wrongStoredCid (expected actual : Cid Digest)
  | nonCanonical
  | invalidPayload (message : String)
  | merkle (error : MerkleError Digest)
  | unknownRevision (revision : Nat)
  | staleSnapshot
  | generationConflict (keyHex : String)
  | emptyTransaction
  | noChanges
  | idempotencyConflict
  | snapshotExists (name : String)
  | snapshotNotFound (name : String)
  | rollbackTooLarge (limit : Nat)
deriving DecidableEq

variable {Digest : Type}

/-- No limit is zero. -/
def NamespaceLimits.validate (limits : NamespaceLimits) :
    Except (NamespaceError Digest) NamespaceLimits :=
  if limits.maxTransactionMutations = 0 ∨ limits.maxTransactionKeyBytes = 0 ∨
      limits.maxMessageBytes = 0 ∨ limits.maxIdentityBytes = 0 ∨ limits.maxSignatureBytes = 0 ∨
      limits.maxRequestIdBytes = 0 ∨ limits.maxSnapshotNameBytes = 0 ∨
      limits.maxNamedSnapshots = 0 ∨ limits.maxRetainedRevisions = 0 ∨
      limits.maxIdempotencyRecords = 0 ∨ limits.maxRollbackEntries = 0 then
    .error .invalidLimits
  else
    .ok limits

/-- Hexadecimal text of so many bytes at most. -/
def validHexField (value : String) (maxBytes : Nat) : Bool :=
  value ≠ "" && value.utf8ByteSize ≤ maxBytes && value.utf8ByteSize % 2 == 0 &&
    (Hex.decode value).isOk

namespace NamespaceDescriptor

/-- `NamespaceDescriptor::new` -/
def new (kind : NamespaceKind) (initialReplicaSet : List String) (creatorIdentity : String)
    (creatorSignatureHex : String) (createdAtUnixSeconds : Int) : NamespaceDescriptor Digest :=
  let replicationFactor := min initialReplicaSet.length (2 ^ 16 - 1)
  { descriptorType := descriptorTypeName
    version := formatVersion
    kind
    initialReplicaSet := initialReplicaSet.insertionSort (· ≤ ·)
    consensusProtocolVersion := 1
    replicationFactor
    placementConstraints := ∅
    durability := ⟨replicationFactor⟩
    retention := ⟨64, none⟩
    authorizationPolicyCid := none
    createdAtUnixSeconds
    creatorIdentity
    creatorSignatureHex }

def validate (descriptor : NamespaceDescriptor Digest) (limits : NamespaceLimits) :
    Except (NamespaceError Digest) Unit := do
  if descriptor.descriptorType ≠ descriptorTypeName ∨ descriptor.version ≠ formatVersion then
    throw (.invalidDescriptor "unsupported type or version")
  if ¬ (descriptor.initialReplicaSet.length = 1 ∨ descriptor.initialReplicaSet.length = 3) ∨
      descriptor.replicationFactor ≠ descriptor.initialReplicaSet.length ∨
      descriptor.durability.replicas = 0 then
    throw (.invalidDescriptor
      "namespaces require either one demo voter or exactly three Raft replicas")
  if ¬ descriptor.initialReplicaSet.IsChain (· < ·) ∨
      descriptor.initialReplicaSet.any
        (fun node => node = "" || node.utf8ByteSize > limits.maxIdentityBytes) then
    throw (.invalidDescriptor "replica IDs must be non-empty, unique, and sorted")
  if descriptor.creatorIdentity = "" ∨
      descriptor.creatorIdentity.utf8ByteSize > limits.maxIdentityBytes ∨
      validHexField descriptor.creatorSignatureHex limits.maxSignatureBytes = false ∨
      descriptor.createdAtUnixSeconds < 0 then
    throw (.invalidDescriptor "invalid creator identity, signature, or timestamp")
  -- The limit is cast to 32 bits.
  if descriptor.retention.keepLast = 0 ∨
      descriptor.retention.keepLast > limits.maxRetainedRevisions % 2 ^ 32 then
    throw (.invalidDescriptor "retention keep_last is outside configured limits")
  if descriptor.placementConstraints.toList.any (fun entry => entry.1 = "" || entry.2 = "") then
    throw (.invalidDescriptor "placement constraints must be non-empty")

end NamespaceDescriptor

/-! ## Commands -/

/-- What a transaction expects of a key. -/
inductive KeyPrecondition (Digest : Type) where
  | absent
  | matches (generation : Nat) (cid : Cid Digest)
  | any
deriving DecidableEq

/-- The source's `Assert` verifies a key without changing it. -/
inductive NamespaceMutation (Digest : Type) where
  | assert (keyHex : String) (precondition : KeyPrecondition Digest)
  | put (keyHex : String) (valueCid : Cid Digest) (valueKind : String)
      (metadata : BTreeMap String String) (precondition : KeyPrecondition Digest)
  | delete (keyHex : String) (precondition : KeyPrecondition Digest)
deriving DecidableEq

namespace NamespaceMutation

/-- The key as the request spells it. -/
def keyHex : NamespaceMutation Digest → String
  | assert keyHex _ => keyHex
  | put keyHex _ _ _ _ => keyHex
  | delete keyHex _ => keyHex

def key (mutation : NamespaceMutation Digest) : Except (NamespaceError Digest) Bytes :=
  match Hex.decode mutation.keyHex with
  | .ok key => .ok key
  | .error e => .error (.invalidMutation e.text)

def precondition : NamespaceMutation Digest → KeyPrecondition Digest
  | assert _ precondition => precondition
  | put _ _ _ _ precondition => precondition
  | delete _ precondition => precondition

end NamespaceMutation

/-- Mutations that are made together or not at all. -/
structure TransactionCommand (Digest : Type) where
  baseRevision : Nat
  baseRootCid : Cid Digest
  mutations : List (NamespaceMutation Digest)
  message : Option String
deriving DecidableEq

/-- The commands of the replicated machine. -/
inductive NamespaceCommand (Digest : Type) where
  | applyTransaction (transaction : TransactionCommand Digest)
  | createSnapshot (name : String) (revision : Option Nat)
  | deleteSnapshot (name : String)
  | rollback (revision : Nat) (message : Option String)
deriving DecidableEq

/-- A command with its request id, its author and its time. -/
structure CommandEnvelope (Digest : Type) where
  requestId : String
  writerIdentity : String
  timestampUnixSeconds : Int
  signatureHex : String
  command : NamespaceCommand Digest
deriving DecidableEq

structure ChangedKey (Digest : Type) where
  keyHex : String
  generation : Option Nat
  valueCid : Option (Cid Digest)
deriving DecidableEq

structure CommitResponse (Digest : Type) where
  namespaceId : NamespaceId Digest
  namespaceRevision : Nat
  rootCid : Cid Digest
  commitCid : Cid Digest
  changedKeys : List (ChangedKey Digest)
deriving DecidableEq

structure SnapshotResponse (Digest : Type) where
  namespaceId : NamespaceId Digest
  name : String
  revision : Nat
  rootCid : Cid Digest
  deleted : Bool
deriving DecidableEq

inductive CommandResponse (Digest : Type) where
  | commit (response : CommitResponse Digest)
  | snapshot (response : SnapshotResponse Digest)
deriving DecidableEq

/-- What is to happen to the pin of a root. -/
inductive PinAction where
  | protect
  | release
deriving DecidableEq, Repr

/-- The number that the source casts an action to. -/
def PinAction.code : PinAction → Nat
  | protect => 0
  | release => 1

/-- A root to protect or to release, and why. -/
structure PinIntent (Digest : Type) where
  cid : Cid Digest
  action : PinAction
  reason : String
deriving DecidableEq

/-- The answer to a command and the pins that follow. -/
structure ApplyResult (Digest : Type) where
  response : CommandResponse Digest
  pinIntents : List (PinIntent Digest)
  replayed : Bool
deriving DecidableEq

/-! ## The state -/

/-- A revision of the history. -/
structure RevisionRecord (Digest : Type) where
  revision : Nat
  rootCid : Cid Digest
  commitCid : Option (Cid Digest)
  committedAtUnixSeconds : Int
deriving DecidableEq

structure NamedSnapshot (Digest : Type) where
  name : String
  revision : Nat
  rootCid : Cid Digest
  commitCid : Option (Cid Digest)
  createdAtUnixSeconds : Int
deriving DecidableEq

/-- The answer that a repeated request gets. -/
structure IdempotencyRecord (Digest : Type) where
  commandFingerprint : Cid Digest
  response : CommandResponse Digest
  pinIntents : List (PinIntent Digest)
  appliedRevision : Nat
deriving DecidableEq

/-- The state that all replicas agree on. -/
structure NamespaceState (Digest : Type) where
  namespaceId : NamespaceId Digest
  descriptor : NamespaceDescriptor Digest
  currentRevision : Nat
  currentRootCid : Cid Digest
  headCommitCid : Option (Cid Digest)
  history : BTreeMap Nat (RevisionRecord Digest)
  namedSnapshots : BTreeMap String (NamedSnapshot Digest)
  idempotency : BTreeMap String (IdempotencyRecord Digest)
deriving DecidableEq

/-! ## Stored records -/

structure NamespaceCommit (Digest : Type) where
  commitType : String
  version : Nat
  namespaceId : NamespaceId Digest
  newRootCid : Cid Digest
  parentCommitCid : Option (Cid Digest)
  baseNamespaceRevision : Nat
  newNamespaceRevision : Nat
  changedKeys : List (ChangedKey Digest)
  committedAtUnixSeconds : Int
  writerIdentity : String
  requestId : String
  message : Option String
deriving DecidableEq

/-- A checkpoint that fits in one block. -/
structure NamespaceCheckpoint (Digest : Type) where
  checkpointType : String
  version : Nat
  state : NamespaceState Digest
  createdAtUnixSeconds : Int
deriving DecidableEq

/-- A longer checkpoint, in several blocks. -/
structure NamespaceCheckpointSegments (Digest : Type) where
  checkpointType : String
  version : Nat
  totalBytes : Nat
  segments : List (Cid Digest)
  createdAtUnixSeconds : Int
deriving DecidableEq

structure SigningPayload (Digest : Type) where
  domain : String
  namespaceId : NamespaceId Digest
  requestId : String
  writerIdentity : String
  timestampUnixSeconds : Int
  command : NamespaceCommand Digest
deriving DecidableEq

/-- A mutation without its precondition. -/
inductive IntentMutation (Digest : Type) where
  | assert (keyHex : String)
  | put (keyHex : String) (valueCid : Cid Digest) (valueKind : String)
      (metadata : BTreeMap String String)
  | delete (keyHex : String)
deriving DecidableEq

/-- A command without its base and its preconditions. -/
inductive IntentCommand (Digest : Type) where
  | applyTransaction (mutations : List (IntentMutation Digest)) (message : Option String)
  | createSnapshot (name : String) (revision : Option Nat)
  | deleteSnapshot (name : String)
  | rollback (revision : Nat) (message : Option String)
deriving DecidableEq

structure IdempotencyPayload (Digest : Type) where
  domain : String
  namespaceId : NamespaceId Digest
  requestId : String
  writerIdentity : String
  command : IntentCommand Digest
deriving DecidableEq

/-- The texts of identifiers and the serializations of the records. A checkpoint
    and the list of its segments are read by their type first, which is all that
    `checkpointHeader` reads. -/
structure NamespaceEncoding (Digest : Type) extends Merkle.Encoding Digest where
  text : Cid Digest → String
  parse : String → Option (Cid Digest)
  parse_text : ∀ cid, parse (text cid) = some cid
  descriptor : Serde (NamespaceDescriptor Digest)
  commit : Serde (NamespaceCommit Digest)
  checkpoint : Serde (NamespaceCheckpoint Digest)
  segments : Serde (NamespaceCheckpointSegments Digest)
  checkpointHeader : Bytes → Option String
  signingPayload : SigningPayload Digest → Bytes
  idempotencyPayload : IdempotencyPayload Digest → Bytes

variable (enc : NamespaceEncoding Digest)

theorem NamespaceEncoding.text_injective : Function.Injective enc.text := by
  intro cid cid' h
  have hparse := enc.parse_text cid
  rw [h, enc.parse_text cid'] at hparse
  exact (Option.some.inj hparse).symm

/-! ## Retention -/

/-- The protected identifiers, each with the last reason that was given. -/
abbrev Protected := BTreeMap String String

/-- A root under a reason, and with it the commit that made it. -/
def protectPair (rootReason commitReason : String) (root : Cid Digest)
    (commit : Option (Cid Digest)) (roots : Protected) : Protected :=
  let roots := roots.insert (enc.text root) rootReason
  match commit with
  | some commit => roots.insert (enc.text commit) commitReason
  | none => roots

/-- Whether a revision is kept, by its number or by its age. -/
def retained (first : Nat) (cutoff : Option Int) (record : RevisionRecord Digest) : Bool :=
  record.revision ≥ first || cutoff.any (record.committedAtUnixSeconds ≥ ·)

/-- The first revision that is kept by its number. -/
def firstRetained (state : NamespaceState Digest) : Nat :=
  saturatingAdd state.currentRevision 1 - state.descriptor.retention.keepLast

/-- The time from which on a revision is kept by its age. -/
def retentionCutoff (state : NamespaceState Digest) : Option Int :=
  state.descriptor.retention.maxAgeSeconds.map fun age =>
    saturatingSubI64
      (state.history[state.currentRevision]?.elim 0 (·.committedAtUnixSeconds)) (asI64 age)

/-- The roots and commits that may not be collected, with one reason each. -/
def protectedRoots (state : NamespaceState Digest) : Protected :=
  let head := protectPair enc "namespace_head" "namespace_head_commit" state.currentRootCid
    state.headCommitCid ∅
  let revisions := (state.history.toList.map Prod.snd).foldl (fun roots record =>
    if retained (firstRetained state) (retentionCutoff state) record then
      protectPair enc ("retained_revision:" ++ toString record.revision)
        ("retained_commit:" ++ toString record.revision) record.rootCid record.commitCid roots
    else roots) head
  (state.namedSnapshots.toList.map Prod.snd).foldl (fun roots snapshot =>
    protectPair enc ("named_snapshot:" ++ snapshot.name) ("named_snapshot_commit:" ++ snapshot.name)
      snapshot.rootCid snapshot.commitCid roots) revisions

/-- An intent for each identifier of one map that the other one does not have. -/
def missingIntents (action : PinAction) (these others : Protected) : List (PinIntent Digest) :=
  these.toList.filterMap fun entry =>
    if entry.1 ∈ others then none
    else (enc.parse entry.1).map fun cid => ⟨cid, action, entry.2⟩

/-- Comparison by text and action. -/
def intentLe (left right : PinIntent Digest) : Prop :=
  enc.text left.cid < enc.text right.cid ∨
    enc.text left.cid = enc.text right.cid ∧ left.action.code ≤ right.action.code

instance instDecidableRelIntentLe : DecidableRel (intentLe enc) := fun left right =>
  inferInstanceAs (Decidable (enc.text left.cid < enc.text right.cid ∨
    enc.text left.cid = enc.text right.cid ∧ left.action.code ≤ right.action.code))

/-- Two sets are compared by identifier; a changed reason is no intent. -/
def diffPinIntents (before after : Protected) : List (PinIntent Digest) :=
  (missingIntents enc .protect after before ++
    missingIntents enc .release before after).insertionSort (intentLe enc)

/-! ## Records of answered requests -/

/-- The place of a record in the order in which records are dropped. -/
def dropOrder (entry : String × IdempotencyRecord Digest) : Nat ×ₗ String :=
  toLex (entry.2.appliedRevision, entry.1)

/-- The loop that drops records. Each turn drops one, so the number of records
    is enough turns. -/
def pruneFrom (limit : Nat) :
    Nat → BTreeMap String (IdempotencyRecord Digest) → BTreeMap String (IdempotencyRecord Digest)
  | 0, records => records
  | turns + 1, records =>
    if records.size > limit then
      match minByKey dropOrder records.toList with
      | some entry => pruneFrom limit turns (records.erase entry.1)
      | none => records
    else records

/-- Over the limit, the oldest records go, by revision and request id. -/
def pruneIdempotency (state : NamespaceState Digest) (limit : Nat) : NamespaceState Digest :=
  { state with idempotency := pruneFrom limit state.idempotency.size state.idempotency }

end Namespace

end Pepper
