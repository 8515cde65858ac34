import Pepper.Core.Content

/-!
# Traversal of Content-Addressed Graphs

`traverse` finds the blocks below a root, for retention and garbage collection.

A registry has a handler for each codec that can be traversed. It finds the
links in the payload of a block; blocks of leaf codecs are not loaded at all. A
block is resolved at most once in a traversal, so the resolver is a function
here. The blocks it knows may be without end, and the loop runs on fuel.

## Main definitions

* `TraversalLimits`, `DagError`, `DagCodecHandler`: The types of the interface.
* `Blocks`: A registry and a resolver, with the texts of identifiers.
* `visit`: The body of the loop for a block that was not seen before.
* `traverse`: The traversal.
-/

namespace Pepper

/-- `Codec::canonical_display` -/
def Codec.canonicalDisplay (codec : Codec) : String :=
  "0x" ++ String.ofList (Nat.toDigits 16 codec.code)

namespace Dag

/-- The bounds of a traversal. -/
structure TraversalLimits where
  maxDepth : Nat
  maxBlocks : Nat
  maxLinksPerBlock : Nat
  maxTotalLinks : Nat
  maxPayloadBytes : Nat
  maxTotalPayloadBytes : Nat
deriving DecidableEq, Repr

inductive DagError
  | invalidLimits
  | unsupportedCodec (codec : String)
  | duplicateCodec (codec : String)
  | resolve (cid message : String)
  | invalidPayload (codec message : String)
  | payloadTooLarge (codec : String) (actual limit : Nat)
  | tooManyLinks (cid : String) (actual limit : Nat)
  | tooManyBlocks (limit : Nat)
  | tooManyTotalLinks (limit : Nat)
  | tooManyPayloadBytes (limit : Nat)
  | tooDeep (depth limit : Nat)
deriving DecidableEq, Repr

def TraversalLimits.validate (limits : TraversalLimits) : Except DagError TraversalLimits :=
  if limits.maxBlocks = 0 ∨ limits.maxLinksPerBlock = 0 ∨ limits.maxTotalLinks = 0 ∨
      limits.maxPayloadBytes = 0 ∨ limits.maxTotalPayloadBytes = 0 then .error .invalidLimits
  else .ok limits

/-- How the links of a codec are read. -/
structure DagCodecHandler (Digest : Type) where
  requiresPayload : Bool
  links : Bytes → TraversalLimits → Except DagError (List (Cid Digest))

/-- What a traversal is given besides the root: the handlers of the registry, the
    resolver, and how an identifier is written. -/
structure Blocks (Digest : Type) where
  handler : Codec → Option (DagCodecHandler Digest)
  resolve : Cid Digest → Except String Bytes
  toString : Cid Digest → String

/-- What has been seen and what is to be visited. -/
structure Traversal (Digest : Type) where
  cids : List (Cid Digest)
  decodedPayloadBytes : Nat
  linksExamined : Nat
deriving DecidableEq, Repr

/-- The variables of the loop. -/
structure Progress (Digest : Type) where
  seen : List (Cid Digest)
  ordered : List (Cid Digest)
  queue : List (Cid Digest × Nat)
  decodedPayloadBytes : Nat
  linksExamined : Nat

/-- 64-bit addition that stops at the greatest number. -/
def saturatingAdd (a b : Nat) : Nat :=
  min (a + b) (2 ^ 64 - 1)

section Traverse

variable {Digest : Type} [DecidableEq Digest] (blocks : Blocks Digest) (limits : TraversalLimits)

/-- The rest of the loop's body, for a block whose payload has to be read. -/
def expand (handler : DagCodecHandler Digest) (cid : Cid Digest) (depth : Nat)
    (p : Progress Digest) : Except DagError (Progress Digest) :=
  match blocks.resolve cid with
  | .error message => .error (.resolve (blocks.toString cid) message)
  | .ok payload =>
    let decodedPayloadBytes := saturatingAdd p.decodedPayloadBytes payload.length
    if limits.maxPayloadBytes < payload.length then
      .error (.payloadTooLarge cid.codec.canonicalDisplay payload.length limits.maxPayloadBytes)
    else if limits.maxTotalPayloadBytes < decodedPayloadBytes then
      .error (.tooManyPayloadBytes limits.maxTotalPayloadBytes)
    else
      match handler.links payload limits with
      | .error e => .error e
      | .ok links =>
        let linksExamined := saturatingAdd p.linksExamined links.length
        if limits.maxLinksPerBlock < links.length then
          .error (.tooManyLinks (blocks.toString cid) links.length limits.maxLinksPerBlock)
        else if limits.maxTotalLinks < linksExamined then
          .error (.tooManyTotalLinks limits.maxTotalLinks)
        else
          let sorted := links.insertionSort fun a b => blocks.toString a ≤ blocks.toString b
          .ok { p with
            decodedPayloadBytes, linksExamined
            queue := p.queue ++ sorted.map fun child => (child, depth + 1) }

/-- The body of the loop for a block that was not seen before. -/
def visit (cid : Cid Digest) (depth : Nat) (p : Progress Digest) :
    Except DagError (Progress Digest) :=
  let seen := cid :: p.seen
  if limits.maxDepth < depth then .error (.tooDeep depth limits.maxDepth)
  else if limits.maxBlocks < seen.length then .error (.tooManyBlocks limits.maxBlocks)
  else
    match blocks.handler cid.codec with
    | none => .error (.unsupportedCodec cid.codec.canonicalDisplay)
    | some handler =>
      let p := { p with seen, ordered := p.ordered ++ [cid] }
      if handler.requiresPayload then expand blocks limits handler cid depth p else .ok p

/-- The loop, from some state of its variables on. -/
def traverseFrom : Nat → Progress Digest → Option (Except DagError (Traversal Digest))
  | 0, _ => none
  | fuel + 1, p =>
    match p.queue with
    | [] => some (.ok ⟨p.ordered, p.decodedPayloadBytes, p.linksExamined⟩)
    | (cid, depth) :: queue =>
      if cid ∈ p.seen then traverseFrom fuel { p with queue }
      else
        match visit blocks limits cid depth { p with queue } with
        | .error e => some (.error e)
        | .ok p => traverseFrom fuel p

/-- The traversal. It returns nothing if the fuel does not last. -/
def traverse (root : Cid Digest) (fuel : Nat) : Option (Except DagError (Traversal Digest)) :=
  match limits.validate with
  | .error e => some (.error e)
  | .ok limits => traverseFrom blocks limits fuel ⟨[], [], [(root, 0)], 0, 0⟩

end Traverse

end Dag

end Pepper
