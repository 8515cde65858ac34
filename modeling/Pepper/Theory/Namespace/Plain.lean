import Pepper.Core.Namespace.Machine
import Pepper.Theory.Merkle.History

/-!
# A Namespace to Run

Serializations of the records of a namespace, over identifiers whose digest is
the block itself. They meet the laws that `NamespaceEncoding` asks for by
construction, since every code is put together from self-delimiting ones, and a
machine over them evaluates.

A checkpoint and the list of its segments both begin with their type, so the
type can be read without the rest.

## Main definitions

* `plainText`, `plainParse`: Identifiers as texts, one character for a byte.
* `plainNamespaceEncoding`: The encoding.
* `plainMachine`: A machine over a list of blocks that authorizes everything.
* `plainDescriptor`, `plainState`: A namespace with one voter, and its first state.
* `plainStart`: The machine after the creation.

## Theorems

* `plainParse_plainText`: A text is read back.
-/

namespace Pepper

namespace Namespace

open Merkle

/-- The bytes of an identifier as characters. -/
def plainText (cid : Cid Bytes) : String :=
  String.ofList ((cidWire.write cid).map fun b => Char.ofNat b.toNat)

def plainParse (text : String) : Option (Cid Bytes) :=
  (cidWire.read (text.toList.map fun c => UInt8.ofNat c.toNat)).map Prod.fst

/-- A text is read back: every byte is the number of a character. -/
theorem plainParse_plainText (cid : Cid Bytes) : plainParse (plainText cid) = some cid := by
  have hbyte : ∀ b : UInt8, UInt8.ofNat (Char.ofNat b.toNat).toNat = b := by
    intro b
    have hlt : b.toNat < 256 := b.toNat_lt
    have hval : b.toNat.isValidChar := Or.inl (by omega)
    rw [Char.toNat_ofNat, if_pos hval, UInt8.ofNat_toNat]
  have hread := cidWire.read_write cid []
  rw [List.append_nil] at hread
  rw [plainParse, plainText, String.toList_ofList, List.map_map,
    show (fun c : Char => UInt8.ofNat c.toNat) ∘ (fun b : UInt8 => Char.ofNat b.toNat) = id from
      funext hbyte, List.map_id, hread]
  rfl

/-! ## Codes of the records -/

/-- A value that is nearly always the same one. -/
def usualWire {α : Type} [DecidableEq α] (usual : α) (code : Wire α) : Wire α :=
  (Wire.option code).map (fun a => if a = usual then none else some a) (·.getD usual) fun a => by
    by_cases h : a = usual
    · rw [if_pos h, Option.getD_none, h]
    · rw [if_neg h, Option.getD_some]

/-- A node, with its type in one byte. -/
def shortNodeWire : Wire (Node Bytes) :=
  ((usualWire nodeTypeName Wire.string).pair (Wire.nat.pair (Wire.string.pair
    ((Wire.option valueWire).pair (Wire.list childWire))))).map
    (fun node => (node.nodeType, node.version, node.prefixHex, node.value, node.children))
    (fun (type, version, pre, value, cs) => ⟨type, version, pre, value, cs⟩)
    fun _ => rfl

/-- The encoding of the map. -/
def shortEncoding : Merkle.Encoding Bytes :=
  { plainEncoding with node := shortNodeWire.serde }

def kindWire : Wire NamespaceKind :=
  Wire.byte.map (fun
      | .kv => 0
      | .bucket => 1
      | .filesystem => 2
      | .sqlite => 3)
    (fun b => if b = 0 then .kv else if b = 1 then .bucket else if b = 2 then .filesystem
      else .sqlite)
    fun kind => by cases kind <;> rfl

def idWire : Wire (NamespaceId Bytes) :=
  cidWire.map (·.cid) NamespaceId.mk fun _ => rfl

def textsWire : Wire (BTreeMap String String) :=
  Wire.btreeMap Wire.string Wire.string

/-- A namespace with one voter that keeps its last revisions. -/
def plainDescriptor (keepLast : Nat) : NamespaceDescriptor Bytes :=
  { NamespaceDescriptor.new .kv ["n"] "w" "00" 0 with retention := ⟨keepLast, none⟩ }

/-- A descriptor. That of a namespace that keeps one revision is one byte. -/
def descriptorWire : Wire (NamespaceDescriptor Bytes) :=
  usualWire (plainDescriptor 1) <|
  (Wire.string.pair (Wire.nat.pair (kindWire.pair ((Wire.list Wire.string).pair
    (Wire.nat.pair (Wire.nat.pair (textsWire.pair (Wire.nat.pair (Wire.nat.pair
    ((Wire.option Wire.nat).pair ((Wire.option cidWire).pair (Wire.int.pair
    (Wire.string.pair Wire.string))))))))))))).map
    (fun d => (d.descriptorType, d.version, d.kind, d.initialReplicaSet,
      d.consensusProtocolVersion, d.replicationFactor, d.placementConstraints,
      d.durability.replicas, d.retention.keepLast, d.retention.maxAgeSeconds,
      d.authorizationPolicyCid, d.createdAtUnixSeconds, d.creatorIdentity, d.creatorSignatureHex))
    (fun (type, version, kind, replicas, protocol, factor, constraints, durability, keepLast,
      maxAge, policy, created, creator, signature) =>
      ⟨type, version, kind, replicas, protocol, factor, constraints, ⟨durability⟩,
        ⟨keepLast, maxAge⟩, policy, created, creator, signature⟩)
    fun _ => rfl

def changedKeyWire : Wire (ChangedKey Bytes) :=
  (Wire.string.pair ((Wire.option Wire.nat).pair (Wire.option cidWire))).map
    (fun k => (k.keyHex, k.generation, k.valueCid))
    (fun (keyHex, generation, valueCid) => ⟨keyHex, generation, valueCid⟩) fun _ => rfl

def commitWire : Wire (NamespaceCommit Bytes) :=
  ((usualWire commitTypeName Wire.string).pair (Wire.nat.pair (idWire.pair (cidWire.pair
    ((Wire.option cidWire).pair (Wire.nat.pair (Wire.nat.pair ((Wire.list changedKeyWire).pair
    (Wire.int.pair (Wire.string.pair (Wire.string.pair (Wire.option Wire.string)))))))))))).map
    (fun c => (c.commitType, c.version, c.namespaceId, c.newRootCid, c.parentCommitCid,
      c.baseNamespaceRevision, c.newNamespaceRevision, c.changedKeys, c.committedAtUnixSeconds,
      c.writerIdentity, c.requestId, c.message))
    (fun (type, version, id, root, parent, base, new, changed, time, writer, request, message) =>
      ⟨type, version, id, root, parent, base, new, changed, time, writer, request, message⟩)
    fun _ => rfl

def responseWire : Wire (CommandResponse Bytes) :=
  ((idWire.pair (Wire.nat.pair (cidWire.pair (cidWire.pair (Wire.list changedKeyWire))))).sum
    (idWire.pair (Wire.string.pair (Wire.nat.pair (cidWire.pair Wire.byte))))).map
    (fun
      | .commit r => .inl (r.namespaceId, r.namespaceRevision, r.rootCid, r.commitCid,
          r.changedKeys)
      | .snapshot r => .inr (r.namespaceId, r.name, r.revision, r.rootCid,
          if r.deleted then 1 else 0))
    (fun
      | .inl (id, revision, root, commit, changed) => .commit ⟨id, revision, root, commit, changed⟩
      | .inr (id, name, revision, root, deleted) =>
          .snapshot ⟨id, name, revision, root, deleted = 1⟩)
    fun response => by
      cases response with
      | commit r => rfl
      | snapshot r =>
        rcases r with ⟨id, name, revision, root, deleted⟩
        cases deleted <;> rfl

def pinIntentWire : Wire (PinIntent Bytes) :=
  (cidWire.pair (Wire.byte.pair Wire.string)).map
    (fun i => (i.cid, if i.action = .protect then 0 else 1, i.reason))
    (fun (cid, action, reason) => ⟨cid, if action = 0 then .protect else .release, reason⟩)
    fun intent => by
      rcases intent with ⟨cid, action, reason⟩
      cases action <;> rfl

def revisionWire : Wire (RevisionRecord Bytes) :=
  (Wire.nat.pair (cidWire.pair ((Wire.option cidWire).pair Wire.int))).map
    (fun r => (r.revision, r.rootCid, r.commitCid, r.committedAtUnixSeconds))
    (fun (revision, root, commit, time) => ⟨revision, root, commit, time⟩) fun _ => rfl

def snapshotWire : Wire (NamedSnapshot Bytes) :=
  (Wire.string.pair (Wire.nat.pair (cidWire.pair ((Wire.option cidWire).pair Wire.int)))).map
    (fun n => (n.name, n.revision, n.rootCid, n.commitCid, n.createdAtUnixSeconds))
    (fun (name, revision, root, commit, time) => ⟨name, revision, root, commit, time⟩) fun _ => rfl

def recordWire : Wire (IdempotencyRecord Bytes) :=
  (cidWire.pair (responseWire.pair ((Wire.list pinIntentWire).pair Wire.nat))).map
    (fun r => (r.commandFingerprint, r.response, r.pinIntents, r.appliedRevision))
    (fun (fingerprint, response, intents, revision) => ⟨fingerprint, response, intents, revision⟩)
    fun _ => rfl

def stateWire : Wire (NamespaceState Bytes) :=
  (idWire.pair (descriptorWire.pair (Wire.nat.pair (cidWire.pair ((Wire.option cidWire).pair
    ((Wire.btreeMap Wire.nat revisionWire).pair ((Wire.btreeMap Wire.string snapshotWire).pair
    (Wire.btreeMap Wire.string recordWire)))))))).map
    (fun s => (s.namespaceId, s.descriptor, s.currentRevision, s.currentRootCid, s.headCommitCid,
      s.history, s.namedSnapshots, s.idempotency))
    (fun (id, descriptor, revision, root, commit, history, snapshots, records) =>
      ⟨id, descriptor, revision, root, commit, history, snapshots, records⟩)
    fun _ => rfl

def checkpointWire : Wire (NamespaceCheckpoint Bytes) :=
  (Wire.string.pair (Wire.nat.pair (stateWire.pair Wire.int))).map
    (fun c => (c.checkpointType, c.version, c.state, c.createdAtUnixSeconds))
    (fun (type, version, state, time) => ⟨type, version, state, time⟩) fun _ => rfl

def segmentsWire : Wire (NamespaceCheckpointSegments Bytes) :=
  (Wire.string.pair (Wire.nat.pair (Wire.nat.pair ((Wire.list cidWire).pair Wire.int)))).map
    (fun c => (c.checkpointType, c.version, c.totalBytes, c.segments, c.createdAtUnixSeconds))
    (fun (type, version, total, segments, time) => ⟨type, version, total, segments, time⟩)
    fun _ => rfl

/-! ## Codes of the payloads -/

def preconditionWire : Wire (KeyPrecondition Bytes) :=
  (Wire.option ((Wire.option (Wire.nat.pair cidWire)))).map (fun
      | .absent => none
      | .any => some none
      | .matches generation cid => some (some (generation, cid)))
    (fun
      | none => .absent
      | some none => .any
      | some (some (generation, cid)) => .matches generation cid)
    fun precondition => by cases precondition <;> rfl

def mutationWire : Wire (NamespaceMutation Bytes) :=
  ((Wire.string.pair preconditionWire).sum
    ((Wire.string.pair (cidWire.pair (Wire.string.pair (textsWire.pair preconditionWire)))).sum
      (Wire.string.pair preconditionWire))).map
    (fun
      | .assert keyHex precondition => .inl (keyHex, precondition)
      | .put keyHex cid kind metadata precondition =>
        .inr (.inl (keyHex, cid, kind, metadata, precondition))
      | .delete keyHex precondition => .inr (.inr (keyHex, precondition)))
    (fun
      | .inl (keyHex, precondition) => .assert keyHex precondition
      | .inr (.inl (keyHex, cid, kind, metadata, precondition)) =>
        .put keyHex cid kind metadata precondition
      | .inr (.inr (keyHex, precondition)) => .delete keyHex precondition)
    fun mutation => by cases mutation <;> rfl

def commandWire : Wire (NamespaceCommand Bytes) :=
  ((Wire.nat.pair (cidWire.pair ((Wire.list mutationWire).pair (Wire.option Wire.string)))).sum
    ((Wire.string.pair (Wire.option Wire.nat)).sum
      (Wire.string.sum (Wire.nat.pair (Wire.option Wire.string))))).map
    (fun
      | .applyTransaction t => .inl (t.baseRevision, t.baseRootCid, t.mutations, t.message)
      | .createSnapshot name revision => .inr (.inl (name, revision))
      | .deleteSnapshot name => .inr (.inr (.inl name))
      | .rollback revision message => .inr (.inr (.inr (revision, message))))
    (fun
      | .inl (revision, root, mutations, message) =>
        .applyTransaction ⟨revision, root, mutations, message⟩
      | .inr (.inl (name, revision)) => .createSnapshot name revision
      | .inr (.inr (.inl name)) => .deleteSnapshot name
      | .inr (.inr (.inr (revision, message))) => .rollback revision message)
    fun command => by cases command <;> rfl

def intentMutationWire : Wire (IntentMutation Bytes) :=
  (Wire.string.sum ((Wire.string.pair (cidWire.pair (Wire.string.pair textsWire))).sum
    Wire.string)).map
    (fun
      | .assert keyHex => .inl keyHex
      | .put keyHex cid kind metadata => .inr (.inl (keyHex, cid, kind, metadata))
      | .delete keyHex => .inr (.inr keyHex))
    (fun
      | .inl keyHex => .assert keyHex
      | .inr (.inl (keyHex, cid, kind, metadata)) => .put keyHex cid kind metadata
      | .inr (.inr keyHex) => .delete keyHex)
    fun mutation => by cases mutation <;> rfl

def intentCommandWire : Wire (IntentCommand Bytes) :=
  (((Wire.list intentMutationWire).pair (Wire.option Wire.string)).sum
    ((Wire.string.pair (Wire.option Wire.nat)).sum
      (Wire.string.sum (Wire.nat.pair (Wire.option Wire.string))))).map
    (fun
      | .applyTransaction mutations message => .inl (mutations, message)
      | .createSnapshot name revision => .inr (.inl (name, revision))
      | .deleteSnapshot name => .inr (.inr (.inl name))
      | .rollback revision message => .inr (.inr (.inr (revision, message))))
    (fun
      | .inl (mutations, message) => .applyTransaction mutations message
      | .inr (.inl (name, revision)) => .createSnapshot name revision
      | .inr (.inr (.inl name)) => .deleteSnapshot name
      | .inr (.inr (.inr (revision, message))) => .rollback revision message)
    fun command => by cases command <;> rfl

def plainNamespaceEncoding : NamespaceEncoding Bytes where
  toEncoding := shortEncoding
  text := plainText
  parse := plainParse
  parse_text := plainParse_plainText
  descriptor := descriptorWire.serde
  commit := commitWire.serde
  checkpoint := checkpointWire.serde
  segments := segmentsWire.serde
  checkpointHeader bytes := (Wire.string.read bytes).map Prod.fst
  signingPayload payload :=
    (Wire.string.pair (idWire.pair (Wire.string.pair (Wire.string.pair (Wire.int.pair
      commandWire))))).write
      (payload.domain, payload.namespaceId, payload.requestId, payload.writerIdentity,
        payload.timestampUnixSeconds, payload.command)
  idempotencyPayload payload :=
    (Wire.string.pair (idWire.pair (Wire.string.pair (Wire.string.pair intentCommandWire)))).write
      (payload.domain, payload.namespaceId, payload.requestId, payload.writerIdentity,
        payload.command)

/-! ## A machine -/

/-- A machine that authorizes everything. -/
def plainMachine (limits : NamespaceLimits) :
    NamespaceStateMachine (List (Codec × Bytes)) Bytes where
  enc := plainNamespaceEncoding
  store := blockList plainHashing
  authorizer _ _ _ _ := .ok ()
  namespaceLimits := limits
  merkleLimits := {}

/-- The first state of the namespace. -/
def plainState (keepLast : Nat) : NamespaceState Bytes :=
  initialState
    ⟨plainHashing.cid codecNamespaceDescriptor (descriptorWire.write (plainDescriptor keepLast))⟩
    (plainDescriptor keepLast) (treeCid shortEncoding [] Radix.empty)

/-- A machine that has just been started on the new namespace. -/
def plainStart (keepLast : Nat) : Running (List (Codec × Bytes)) Bytes :=
  ⟨(createNamespace plainNamespaceEncoding (blockList plainHashing) {} {}
    (plainDescriptor keepLast) []).2, plainState keepLast⟩

/-- An envelope of one writer. -/
def plainEnvelope (requestId : String) (command : NamespaceCommand Bytes) :
    CommandEnvelope Bytes :=
  ⟨requestId, "w", 0, "00", command⟩

end Namespace

end Pepper
