import Pepper.Core.Merkle.Map

/-!
# Walks Through the Merkle Map

Scans page by page, and the check of a whole tree.

Both walk through the tree depth first with a stack, and both stop at a number
of nodes. The source counts the nodes upwards; here a walk carries the number
that is still allowed, and the recursion is on that number.

## Main definitions

* `scan`: One page of the entries of a range.
* `encodeCursor`, `decodeCursor`: Where the next page begins, as a text.
* `validateTree`: Whether a root is the root of a canonical tree.
-/

namespace Pepper

namespace Merkle

variable {Digest : Type}

/-- The source's `end` and `prefix` are `stop` and `pre`. -/
structure ScanQuery where
  start : Option Bytes := none
  stop : Option Bytes := none
  pre : Option Bytes := none
  limit : Nat := 0
  cursor : Option String := none
deriving DecidableEq

structure ScanPage (Digest : Type) where
  root : Cid Digest
  entries : List (MapEntry Digest)
  nextCursor : Option String
  nodesRead : Nat
deriving DecidableEq

structure ValidationReport where
  nodes : Nat
  entries : Nat
  maxDepth : Nat
deriving DecidableEq

/-- The key is in the range and behind the cursor. -/
def keyMatches (key : Bytes) (query : ScanQuery) (after : Option Bytes) : Bool :=
  after.all (· < key) && query.start.all (· ≤ key) && query.stop.all (key < ·) &&
    query.pre.all (·.isPrefixOf key)

def encodeOptional (value : Option Bytes) : Option String :=
  value.map Hex.encode

variable [DecidableEq Digest] (enc : Encoding Digest) (limits : MerkleLimits)

def encodeCursor (cursor : CursorRecord Digest) : String :=
  Hex.encode (enc.cursor.toVec cursor)

/-- Only the canonical encoding is accepted. -/
def decodeCursor (cursor : String) : Except (MerkleError Digest) (CursorRecord Digest) := do
  let bytes ← match Hex.decode cursor with
    | .ok bytes => pure bytes
    | .error e => throw (.invalidCursor e.text)
  let decoded ← match enc.cursor.fromSlice bytes with
    | .ok decoded => pure decoded
    | .error message => throw (.invalidCursor message)
  if enc.cursor.toVec decoded ≠ bytes then
    throw (.invalidCursor "non-canonical encoding")
  if decoded.version ≠ cursorVersion then
    throw (.invalidCursor ("unsupported version " ++ toString decoded.version))
  return decoded

/-- The key that a page starts behind. -/
def afterKey (root : Cid Digest) (query : ScanQuery) :
    Except (MerkleError Digest) (Option Bytes) :=
  match query.cursor with
  | none => .ok none
  | some text => do
      let cursor ← decodeCursor enc text
      if cursor.root ≠ root then
        throw (.cursorRootMismatch cursor.root root)
      if cursor.startHex ≠ encodeOptional query.start ∨ cursor.endHex ≠ encodeOptional query.stop ∨
          cursor.prefixHex ≠ encodeOptional query.pre then
        throw .cursorQueryMismatch
      match Hex.decode cursor.afterKeyHex with
      | .ok key => return some key
      | .error e => throw (.invalidCursor e.text)

def validateOptionalKey (key : Option Bytes) (limits : MerkleLimits) :
    Except (MerkleError Digest) Unit :=
  match key with
  | some key => validateKey key limits
  | none => .ok ()

variable (read : Cid Digest → Except String Bytes)

/-- The loop of `scan`. The first argument is the number of nodes that may still
    be read. A frame of the stack is a node, the key of its parent and its
    depth. -/
def scanFrom (query : ScanQuery) (after : Option Bytes) :
    Nat → List (Cid Digest × Bytes × Nat) → List (MapEntry Digest) → Nat →
      Except (MerkleError Digest) (List (MapEntry Digest) × Nat)
  | 0, [], entries, nodesRead => .ok (entries, nodesRead)
  | 0, (_, _, depth) :: _, _, _ =>
    if depth > limits.maxDepth then .error (.tooDeep limits.maxDepth)
    else .error (.tooManyNodes limits.maxScanNodes)
  | _ + 1, [], entries, nodesRead => .ok (entries, nodesRead)
  | room + 1, (cid, parentKey, depth) :: stack, entries, nodesRead =>
    if depth > limits.maxDepth then .error (.tooDeep limits.maxDepth)
    else do
      let node ← loadNode enc limits read cid
      let pre ← node.prefixBytes
      let key := parentKey ++ pre
      let found := (node.value.filter fun _ => keyMatches key query after).toList
      let entries := entries ++ found.map (⟨key, ·⟩)
      -- One entry more than the page says that there is a next page.
      if entries.length > query.limit then
        return (entries, nodesRead + 1)
      scanFrom query after room
        (node.children.map (fun child => (child.cid, key, depth + 1)) ++ stack)
        entries (nodesRead + 1)

/-- A page of entries in the order of the keys. -/
def scan (root : Cid Digest) (query : ScanQuery) :
    Except (MerkleError Digest) (ScanPage Digest) := do
  let limits ← limits.validate
  if query.limit = 0 ∨ query.limit > limits.maxScanEntries then
    throw (.invalidScanLimit limits.maxScanEntries)
  if query.start.any fun start => query.stop.any fun stop => stop ≤ start then
    throw .invalidRange
  validateOptionalKey query.start limits
  validateOptionalKey query.stop limits
  validateOptionalKey query.pre limits
  let after ← afterKey enc root query
  let (entries, nodesRead) ← scanFrom enc limits read query after limits.maxScanNodes
    [(root, [], 0)] [] 0
  let page := entries.take query.limit
  let nextCursor :=
    if entries.length > query.limit then
      page.getLast?.map fun entry =>
        encodeCursor enc
          { version := cursorVersion
            root
            afterKeyHex := Hex.encode entry.key
            startHex := encodeOptional query.start
            endHex := encodeOptional query.stop
            prefixHex := encodeOptional query.pre }
    else none
  return ⟨root, page, nextCursor, nodesRead⟩

/-- The check of a child before it is walked into. -/
def validateChildEdge (child : Child Digest) : Except (MerkleError Digest) Unit := do
  let childNode ← loadNode enc limits read child.cid
  let childPre ← childNode.prefixBytes
  if childPre.head? ≠ some child.edge then
    throw (.invalidNode
      ("child edge " ++ toString child.edge.toNat ++ " does not match child prefix"))

/-- The loop of `validate_tree`. The first argument is the number of nodes that
    may still be seen. A frame of the stack is a node, the key of its parent, its
    depth and whether it is the root. -/
def validateFrom :
    Nat → List (Cid Digest × Bytes × Nat × Bool) → List (Cid Digest) → Nat → Nat →
      Except (MerkleError Digest) ValidationReport
  | 0, [], seen, entries, maxDepth => .ok ⟨seen.length, entries, maxDepth⟩
  | 0, (cid, _, depth, _) :: _, seen, _, _ =>
    if depth > limits.maxDepth then .error (.tooDeep limits.maxDepth)
    else if cid ∈ seen then .error (.duplicateNode cid)
    else .error (.tooManyNodes limits.maxValidationNodes)
  | _ + 1, [], seen, entries, maxDepth => .ok ⟨seen.length, entries, maxDepth⟩
  | room + 1, (cid, parentKey, depth, isRoot) :: stack, seen, entries, maxDepth =>
    if depth > limits.maxDepth then .error (.tooDeep limits.maxDepth)
    else if cid ∈ seen then .error (.duplicateNode cid)
    else do
      let node ← loadNode enc limits read cid
      let pre ← node.prefixBytes
      if isRoot = false ∧ pre = [] then
        throw (.invalidNode "non-root node has an empty prefix")
      if node.value = none ∧ node.children.length = 1 then
        throw (.invalidNode "compressible single-child node")
      if isRoot = false ∧ node.value = none ∧ node.children = [] then
        throw (.invalidNode "empty non-root node")
      let key := parentKey ++ pre
      validateKey key limits
      -- The last child is checked first.
      node.children.reverse.forM (validateChildEdge enc limits read)
      validateFrom room
        (node.children.map (fun child => (child.cid, key, depth + 1, false)) ++ stack)
        (cid :: seen) (entries + node.value.toList.length) (max maxDepth depth)

/-- Check every node below a root. -/
def validateTree (root : Cid Digest) : Except (MerkleError Digest) ValidationReport := do
  let limits ← limits.validate
  validateFrom enc limits read limits.maxValidationNodes [(root, [], 0, true)] [] 0 0

end Merkle

end Pepper
