import Pepper.Base.Hex
import Pepper.Core.Dag

/-!
# Nodes of the Merkle Map

The immutable nodes of the ordered map: their limits, their checks, and how they
get into a store and out of it.

A node holds the string its keys share as hexadecimal text. Its encoding comes
from a serialization of structured values. Reading a node accepts only bytes
that writing it again gives back.

## Main definitions

* `MerkleLimits`: What a tree may hold.
* `Node`, `Child`, `MerkleValue`: A node and its parts.
* `Encoding`: The digest of a block, and the serializations of nodes and cursors.
* `validateNodeShallow`, `decodeNode`: The checks on a node by itself.
* `loadNode`, `storeNode`: A node out of a store and into it.
-/

namespace Pepper

namespace Merkle

def nodeTypeName : String := "pepper.merkle_radix_node"

def nodeVersion : Nat := 1

def cursorVersion : Nat := 1

/-- Why an operation on the map fails. Where the source puts the text of an
    identifier or a codec into the message, the error holds it as it is. -/
inductive MerkleError (Digest : Type) where
  | invalidLimits
  | invalidCodec (codec : Codec)
  | read (cid : Cid Digest) (message : String)
  | write (message : String)
  | wrongStoredCid (expected actual : Cid Digest)
  | hashMismatch (cid : Cid Digest)
  | invalidNode (message : String)
  | nonCanonicalNode
  | nodeTooLarge (actual limit : Nat)
  | keyTooLarge (actual limit : Nat)
  | invalidValue (message : String)
  | unsortedMutations
  | invalidScanLimit (limit : Nat)
  | invalidRange
  | invalidCursor (message : String)
  | cursorRootMismatch (cursorRoot requestedRoot : Cid Digest)
  | cursorQueryMismatch
  | tooDeep (limit : Nat)
  | tooManyNodes (limit : Nat)
  | duplicateNode (cid : Cid Digest)
deriving DecidableEq

/-- The bounds of a map. -/
structure MerkleLimits where
  maxKeyBytes : Nat := 1024
  maxValueKindBytes : Nat := 64
  maxMetadataEntries : Nat := 64
  maxMetadataBytes : Nat := 16 * 1024
  maxNodeBytes : Nat := 1024 * 1024
  maxChildren : Nat := 256
  maxDepth : Nat := 1024
  maxValidationNodes : Nat := 2000000
  maxScanEntries : Nat := 10000
  maxScanNodes : Nat := 2000000

variable {Digest : Type}

/-- No limit is zero, and edges are bytes. -/
def MerkleLimits.validate (limits : MerkleLimits) : Except (MerkleError Digest) MerkleLimits :=
  if limits.maxKeyBytes = 0 ∨ limits.maxValueKindBytes = 0 ∨ limits.maxMetadataEntries = 0 ∨
      limits.maxMetadataBytes = 0 ∨ limits.maxNodeBytes = 0 ∨ limits.maxChildren = 0 ∨
      limits.maxChildren > 256 ∨ limits.maxDepth = 0 ∨ limits.maxValidationNodes = 0 ∨
      limits.maxScanEntries = 0 ∨ limits.maxScanNodes = 0 then
    .error .invalidLimits
  else
    .ok limits

structure MerkleValue (Digest : Type) where
  cid : Cid Digest
  generation : Nat
  valueKind : String
  metadata : BTreeMap String String := ∅
deriving DecidableEq

/-- An edge and the node below it. -/
structure Child (Digest : Type) where
  edge : UInt8
  cid : Cid Digest
deriving DecidableEq

/-- A node of the stored tree. -/
structure Node (Digest : Type) where
  nodeType : String
  version : Nat
  prefixHex : String
  value : Option (MerkleValue Digest)
  children : List (Child Digest)
deriving DecidableEq

/-- Where a scan goes on. -/
structure CursorRecord (Digest : Type) where
  version : Nat
  root : Cid Digest
  afterKeyHex : String
  startHex : Option String
  endHex : Option String
  prefixHex : Option String
deriving DecidableEq

/-- The digest of blocks and the serializations in use. -/
structure Encoding (Digest : Type) extends Hashing Digest where
  node : Serde (Node Digest)
  cursor : Serde (CursorRecord Digest)

namespace Node

/-- `Node::new` -/
def new (pre : Bytes) (value : Option (MerkleValue Digest)) (children : List (Child Digest)) :
    Node Digest :=
  { nodeType := nodeTypeName, version := nodeVersion, prefixHex := Hex.encode pre, value, children }

/-- `Node::prefix` -/
def prefixBytes (node : Node Digest) : Except (MerkleError Digest) Bytes :=
  match Hex.decode node.prefixHex with
  | .ok pre => .ok pre
  | .error e => .error (.invalidNode ("invalid prefix hex: " ++ e.text))

end Node

def validateKey (key : Bytes) (limits : MerkleLimits) : Except (MerkleError Digest) Unit :=
  if key.length > limits.maxKeyBytes then
    .error (.keyTooLarge key.length limits.maxKeyBytes)
  else
    .ok ()

/-- The bytes of the metadata, none of whose keys may be empty. -/
def metadataBytes : List (String × String) → Nat → Except (MerkleError Digest) Nat
  | [], total => .ok total
  | (key, value) :: rest, total =>
    if key = "" then
      .error (.invalidValue "metadata key must not be empty")
    else
      metadataBytes rest (total + key.utf8ByteSize + value.utf8ByteSize)

def validateValue (value : MerkleValue Digest) (limits : MerkleLimits) :
    Except (MerkleError Digest) Unit := do
  if value.generation = 0 then
    throw (.invalidValue "generation must be greater than zero")
  if value.valueKind = "" ∨ value.valueKind.utf8ByteSize > limits.maxValueKindBytes then
    throw (.invalidValue "value kind is empty or too long")
  if value.metadata.size > limits.maxMetadataEntries then
    throw (.invalidValue "too many metadata entries")
  let bytes ← metadataBytes value.metadata.toList 0
  if bytes > limits.maxMetadataBytes then
    throw (.invalidValue "metadata exceeds byte limit")

/-- The checks on the children of a node, from the edge before them on. -/
def validateChildren : Option UInt8 → List (Child Digest) → Except (MerkleError Digest) Unit
  | _, [] => .ok ()
  | previous, child :: rest => do
      if child.cid.codec ≠ codecMerkleNode then
        throw (.invalidCodec child.cid.codec)
      if previous.any (child.edge ≤ ·) then
        throw (.invalidNode "child edges are not strictly sorted")
      validateChildren (some child.edge) rest

/-- What can be checked of a node without its children. -/
def validateNodeShallow (node : Node Digest) (limits : MerkleLimits) :
    Except (MerkleError Digest) Unit := do
  if node.nodeType ≠ nodeTypeName then
    throw (.invalidNode "wrong type")
  if node.version ≠ nodeVersion then
    throw (.invalidNode ("unsupported version " ++ toString node.version))
  let pre ← node.prefixBytes
  if pre.length > limits.maxKeyBytes then
    throw (.keyTooLarge pre.length limits.maxKeyBytes)
  match node.value with
  | some value => validateValue value limits
  | none => pure ()
  if node.children.length > limits.maxChildren then
    throw (.invalidNode (toString node.children.length ++ " children exceeds limit " ++
      toString limits.maxChildren))
  validateChildren none node.children

variable [DecidableEq Digest] (enc : Encoding Digest) (limits : MerkleLimits)

/-- Only the canonical encoding is accepted. -/
def decodeNode (payload : Bytes) : Except (MerkleError Digest) (Node Digest) := do
  if payload.length > limits.maxNodeBytes then
    throw (.nodeTooLarge payload.length limits.maxNodeBytes)
  let node ← match enc.node.fromSlice payload with
    | .ok node => pure node
    | .error message => throw (.invalidNode message)
  validateNodeShallow node limits
  if enc.node.toVec node ≠ payload then
    throw .nonCanonicalNode
  return node

/-- A node out of the store, from what reading gives. -/
def loadNode (read : Cid Digest → Except String Bytes) (cid : Cid Digest) :
    Except (MerkleError Digest) (Node Digest) := do
  if cid.codec ≠ codecMerkleNode then
    throw (.invalidCodec cid.codec)
  let payload ← match read cid with
    | .ok payload => pure payload
    | .error message => throw (.read cid message)
  if enc.verify cid payload = false then
    throw (.hashMismatch cid)
  decodeNode enc limits payload

variable {σ : Type} (store : MerkleStore σ Digest)

/-- `loadNode` in the middle of a call that also writes. -/
def fetchNode (cid : Cid Digest) : Fallible σ (MerkleError Digest) (Node Digest) := do
  let s ← Fallible.get
  Fallible.ofExcept (loadNode enc limits (store.get · s) cid)

def putBlock (codec : Codec) (payload : Bytes) :
    Fallible σ (MerkleError Digest) (Cid Digest) := fun s =>
  match store.put codec payload s with
  | (.ok cid, s') => (.ok cid, s')
  | (.error message, s') => (.error (.write message), s')

/-- Check a node and put its block. -/
def storeNode (node : Node Digest) : Fallible σ (MerkleError Digest) (Cid Digest) := do
  Fallible.ofExcept (validateNodeShallow node limits)
  let payload := enc.node.toVec node
  Fallible.require (payload.length ≤ limits.maxNodeBytes)
    (.nodeTooLarge payload.length limits.maxNodeBytes)
  let expected := enc.cid codecMerkleNode payload
  let actual ← putBlock store codecMerkleNode payload
  Fallible.require (actual = expected) (.wrongStoredCid expected actual)
  return actual

end Merkle

end Pepper
