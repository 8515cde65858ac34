import Pepper.Core.Merkle.Node

/-!
# The Merkle Map

Lookups and updates of the persistent ordered map, which copy the nodes on the
path of a key, and the construction of a map from its sorted entries.

The source counts the depth of a node upwards and stops above the limit. Here a
walk carries the number of levels that the limit still allows, so that the
recursion is on that number.

## Main definitions

* `get`: The value of a key.
* `insertAt`, `deleteAt`, `normalizeAndStore`: The changes of one node.
* `applyBatch`: A sorted list of changes.
* `buildFromSorted`: A map from its entries.
-/

namespace Pepper

namespace Merkle

variable {Digest : Type}

inductive Mutation (Digest : Type) where
  | put (key : Bytes) (value : MerkleValue Digest)
  | delete (key : Bytes)

def Mutation.key : Mutation Digest → Bytes
  | put key _ => key
  | delete key => key

structure MapEntry (Digest : Type) where
  key : Bytes
  value : MerkleValue Digest
deriving DecidableEq

/-- `binary_search_by_key` over children with increasing edges: the place of
    the edge, or the place where it would go. -/
def searchEdge (edge : UInt8) (children : List (Child Digest)) : Except Nat Nat :=
  let index := (children.takeWhile (·.edge < edge)).length
  match children[index]? with
  | some child => if child.edge = edge then .ok index else .error index
  | none => .error index

/-- How far two keys agree. -/
def commonPrefixLen (left right : Bytes) : Nat :=
  ((left.zip right).takeWhile fun pair => pair.1 = pair.2).length

def insertChildSorted (children : List (Child Digest)) (child : Child Digest) :
    Except (MerkleError Digest) (List (Child Digest)) :=
  match searchEdge child.edge children with
  | .ok _ => .error (.invalidNode "duplicate child edge")
  | .error index => .ok (children.insertIdx index child)

/-- Keys and values are within the limits, and the keys grow. -/
def validateMutations (limits : MerkleLimits) :
    Option Bytes → List (Mutation Digest) → Except (MerkleError Digest) Unit
  | _, [] => .ok ()
  | previous, mutation :: rest => do
      validateKey mutation.key limits
      match mutation with
      | .put _ value => validateValue value limits
      | .delete _ => pure ()
      if previous.any fun key => ¬ key < mutation.key then
        throw .unsortedMutations
      validateMutations limits (some mutation.key) rest

/-- The same for the entries of a new map. -/
def validateEntries (limits : MerkleLimits) :
    Option Bytes → List (MapEntry Digest) → Except (MerkleError Digest) Unit
  | _, [] => .ok ()
  | previous, entry :: rest => do
      validateKey entry.key limits
      validateValue entry.value limits
      if previous.any fun key => ¬ key < entry.key then
        throw .unsortedMutations
      validateEntries limits (some entry.key) rest

variable [DecidableEq Digest] (enc : Encoding Digest) (limits : MerkleLimits)

section Read

variable (read : Cid Digest → Except String Bytes)

/-- The loop of `get`. The first argument is the number of levels that are
    still allowed. -/
def getFrom (key : Bytes) :
    Nat → Cid Digest → Nat → Except (MerkleError Digest) (Option (MerkleValue Digest))
  | 0, _, _ => .error (.tooDeep limits.maxDepth)
  | room + 1, cid, offset => do
      let node ← loadNode enc limits read cid
      let pre ← node.prefixBytes
      if ¬ pre <+: key.drop offset then
        return none
      let offset := offset + pre.length
      match key.drop offset with
      | [] => return node.value
      | edge :: _ =>
        match searchEdge edge node.children with
        | .error _ => return none
        | .ok index =>
          match node.children[index]? with
          | some child => getFrom key room child.cid offset
          | none => return none

/-- Follow the key from the root. -/
def get (root : Cid Digest) (key : Bytes) :
    Except (MerkleError Digest) (Option (MerkleValue Digest)) := do
  let limits ← limits.validate
  validateKey key limits
  getFrom enc limits read key (limits.maxDepth + 1) root 0

end Read

variable {σ : Type} (store : MerkleStore σ Digest)

def emptyRoot : Fallible σ (MerkleError Digest) (Cid Digest) := do
  let limits ← Fallible.ofExcept limits.validate
  storeNode enc limits store (Node.new [] none [])

/-- A node without a value and with one child is merged with it. -/
def normalizeAndStore (node : Node Digest) :
    Fallible σ (MerkleError Digest) (Option (Cid Digest)) :=
  match node.value, node.children with
  | none, [] => return none
  | none, [child] => do
      let childNode ← fetchNode enc limits store child.cid
      let pre ← Fallible.ofExcept node.prefixBytes
      let childPre ← Fallible.ofExcept childNode.prefixBytes
      let cid ← storeNode enc limits store
        (Node.new (pre ++ childPre) childNode.value childNode.children)
      return some cid
  | _, _ => do
      let cid ← storeNode enc limits store node
      return some cid

/-- A node with the key's value split off: the part of the node's own string
    behind the common part goes into a child. -/
def splitNode (node : Node Digest) (pre remaining : Bytes) (value : MerkleValue Digest) :
    Fallible σ (MerkleError Digest) (Cid Digest) := do
  let common := commonPrefixLen pre remaining
  let existingPrefix := pre.drop common
  let existingEdge := existingPrefix.headD 0
  let existingCid ← storeNode enc limits store
    { node with prefixHex := Hex.encode existingPrefix }
  let parent := Node.new (pre.take common)
    (if common = remaining.length then some value else none) [⟨existingEdge, existingCid⟩]
  if common < remaining.length then
    let newPrefix := remaining.drop common
    let newCid ← storeNode enc limits store (Node.new newPrefix (some value) [])
    let children ← Fallible.ofExcept
      (insertChildSorted parent.children ⟨newPrefix.headD 0, newCid⟩)
    storeNode enc limits store { parent with children }
  else
    storeNode enc limits store parent

/-- What an insertion makes of a node whose children it changed. -/
def finishInsert (node : Node Digest) : Fallible σ (MerkleError Digest) (Cid Digest) := do
  let stored ← normalizeAndStore enc limits store node
  Fallible.expect stored (.invalidNode "insert produced an empty tree")

/-- The depth of a new leaf is not checked. -/
def insertAt (key : Bytes) (value : MerkleValue Digest) :
    Nat → Cid Digest → Nat → Fallible σ (MerkleError Digest) (Cid Digest)
  | 0, _, _ => Fallible.fail (.tooDeep limits.maxDepth)
  | room + 1, cid, offset => do
      Fallible.require (offset ≤ key.length) (.tooDeep limits.maxDepth)
      Fallible.ofExcept (validateValue value limits)
      let node ← fetchNode enc limits store cid
      let pre ← Fallible.ofExcept node.prefixBytes
      if commonPrefixLen pre (key.drop offset) < pre.length then
        splitNode enc limits store node pre (key.drop offset) value
      else
        let nextOffset := offset + pre.length
        match key.drop nextOffset with
        | [] => storeNode enc limits store { node with value := some value }
        | edge :: _ =>
          match searchEdge edge node.children with
          | .ok index => do
              -- The search found the edge there.
              let child ← Fallible.expect node.children[index]? (.tooDeep limits.maxDepth)
              let updated ← insertAt key value room child.cid nextOffset
              finishInsert enc limits store
                { node with children := node.children.set index { child with cid := updated } }
          | .error index => do
              let childCid ← storeNode enc limits store
                (Node.new (key.drop nextOffset) (some value) [])
              finishInsert enc limits store
                { node with children := node.children.insertIdx index ⟨edge, childCid⟩ }

/-- `none` is a tree without entries. -/
def deleteAt (key : Bytes) :
    Nat → Cid Digest → Nat → Fallible σ (MerkleError Digest) (Option (Cid Digest))
  | 0, _, _ => Fallible.fail (.tooDeep limits.maxDepth)
  | room + 1, cid, offset => do
      let node ← fetchNode enc limits store cid
      let pre ← Fallible.ofExcept node.prefixBytes
      if ¬ pre <+: key.drop offset then
        return some cid
      else
        let nextOffset := offset + pre.length
        match key.drop nextOffset with
        | [] =>
          match node.value with
          | none => return some cid
          | some _ => normalizeAndStore enc limits store { node with value := none }
        | edge :: _ =>
          match searchEdge edge node.children with
          | .error _ => return some cid
          | .ok index => do
              let child ← Fallible.expect node.children[index]? (.tooDeep limits.maxDepth)
              let updated ← deleteAt key room child.cid nextOffset
              match updated with
              | some cid =>
                normalizeAndStore enc limits store
                  { node with children := node.children.set index { child with cid } }
              | none =>
                normalizeAndStore enc limits store
                  { node with children := node.children.eraseIdx index }

/-- One change of a batch. -/
def applyMutation (root : Cid Digest) :
    Mutation Digest → Fallible σ (MerkleError Digest) (Cid Digest)
  | .put key value => insertAt enc limits store key value (limits.maxDepth + 1) root 0
  | .delete key => do
      let updated ← deleteAt enc limits store key (limits.maxDepth + 1) root 0
      match updated with
      | some cid => return cid
      | none => emptyRoot enc limits store

/-- One mutation after another. -/
def applyMutations (root : Cid Digest) :
    List (Mutation Digest) → Fallible σ (MerkleError Digest) (Cid Digest)
  | [] => return root
  | mutation :: rest => do
      let current ← applyMutation enc limits store root mutation
      applyMutations current rest

def applyBatch (root : Cid Digest) (mutations : List (Mutation Digest)) :
    Fallible σ (MerkleError Digest) (Cid Digest) := do
  let limits ← Fallible.ofExcept limits.validate
  Fallible.ofExcept (validateMutations limits none mutations)
  -- The initial root is validated even for an empty list of mutations.
  let _ ← fetchNode enc limits store root
  applyMutations enc limits store root mutations

/-- The symbol of a key at a position. For the entries that get here it exists:
    they are sorted and share what is before the position. -/
def edgeAt (position : Nat) (entry : MapEntry Digest) : UInt8 :=
  entry.key.getD position 0

/-- Whether an entry goes on with the same symbol as the first of its run. -/
def sameEdge (position : Nat) (entry other : MapEntry Digest) : Bool :=
  other.key.length > position && edgeAt position other == edgeAt position entry

/-- Runs of entries that go on with the same symbol. -/
def groups (position : Nat) : List (MapEntry Digest) → List (UInt8 × List (MapEntry Digest))
  | [] => []
  | entry :: rest =>
    (edgeAt position entry, entry :: rest.takeWhile (sameEdge position entry)) ::
      groups position (rest.dropWhile (sameEdge position entry))
termination_by entries => entries.length
decreasing_by
  have hle : (rest.dropWhile (sameEdge position entry)).length ≤ rest.length :=
    (List.dropWhile_sublist _).length_le
  simp only [List.length_cons]
  omega

/-- The children of a node, one for each group. -/
def buildChildren (build : List (MapEntry Digest) → Fallible σ (MerkleError Digest) (Cid Digest)) :
    List (UInt8 × List (MapEntry Digest)) →
      Fallible σ (MerkleError Digest) (List (Child Digest))
  | [] => return []
  | (edge, group) :: rest => do
      let cid ← build group
      let children ← buildChildren build rest
      return ⟨edge, cid⟩ :: children

/-- A call for the first and the other entries of a group. No group is empty. -/
def onGroup
    (build : MapEntry Digest → List (MapEntry Digest) →
      Fallible σ (MerkleError Digest) (Cid Digest)) :
    List (MapEntry Digest) → Fallible σ (MerkleError Digest) (Cid Digest)
  | first :: rest => build first rest
  | [] => Fallible.fail (.tooDeep limits.maxDepth)

/-- The node of keys with a common prefix, and its children. -/
def buildSubtree :
    Nat → MapEntry Digest → List (MapEntry Digest) → Nat →
      Fallible σ (MerkleError Digest) (Cid Digest)
  | 0, _, _, _ => Fallible.fail (.tooDeep limits.maxDepth)
  | room + 1, first, rest, offset => do
      let entries := first :: rest
      let last := entries.getLastD first
      let prefixLen := commonPrefixLen (first.key.drop offset) (last.key.drop offset)
      let pre := (first.key.drop offset).take prefixLen
      let position := offset + prefixLen
      let value := if first.key.length = position then some first.value else none
      let grouped := groups position (if first.key.length = position then rest else entries)
      let children ← buildChildren
        (onGroup limits fun first rest => buildSubtree room first rest position) grouped
      storeNode enc limits store (Node.new pre value children)

/-- The tree of all entries at once. -/
def buildFromSorted (entries : List (MapEntry Digest)) :
    Fallible σ (MerkleError Digest) (Cid Digest) := do
  let limits ← Fallible.ofExcept limits.validate
  Fallible.ofExcept (validateEntries limits none entries)
  match entries with
  | [] => emptyRoot enc limits store
  | first :: rest => buildSubtree enc limits store (limits.maxDepth + 1) first rest 0

end Merkle

end Pepper
