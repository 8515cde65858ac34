import Pepper.Base.Collections
import Pepper.Base.Fallible
import Pepper.Base.Hex

/-!
# Admission of Signed Requests

What a node does with a request envelope before it dispatches it: the protocol
version, the authentication of the sender, the rate limit and the replay window.

A window remembers the requests of the last minute in buckets of five seconds,
by the time of their arrival. Ordinary and bulk requests have a window each.
The hash and the signature scheme come from elsewhere and are collected in
`Crypto`. Times are seconds of the node's clock; a timestamp is the 64-bit
number of the wire, and the age of a request is computed in that width.

## Main definitions

* `RequestEnvelope`: A signed request.
* `ReplayWindow.admitKey`: The window's answer to a request.
* `verifyRequestAuth`, `checkReplay`: The two checks.
* `validateRequest`: The checks in the order the node makes them.
-/

namespace Pepper

namespace Network

inductive NetworkError where
  | unauthenticated
  | rateLimited
  | rpc (code message : String)
deriving DecidableEq, Repr

/-- A signed request. -/
structure RequestEnvelope where
  requestId : String
  protocolVersion : Nat
  nodeId : String
  method : String
  payload : Bytes
  authTimestampUnixSeconds : Int64
  authSignatureHex : String
  publicKeyHex : String
  identitySignatureHex : String
deriving DecidableEq

/-- Hash, keyed hash and signature check. -/
structure Crypto where
  blake3 : Bytes → Bytes
  blake3Keyed : Bytes → Bytes → Bytes
  verifySignature : Bytes → Bytes → Bytes → Bool

def protocolVersion : Nat := 14

def replayBucketSeconds : Int := 5

def replayWindowSeconds : Int := 60

/-- Bulk requests have a window of their own. -/
def isBulkMethod (method : String) : Bool :=
  method ∈ ["/block/get_stream", "/block/get_range_stream", "/block/put_replica_stream",
    "/erasure/encode_parity", "/erasure/store_stripe_stream"]

/-- The value of a 64-bit signed computation that may run over. -/
def wrap (n : Int) : Int :=
  n.bmod (2 ^ 64)

def utf8 (text : String) : Bytes :=
  text.toUTF8.data.toList

def bigEndian (width n : Nat) : Bytes :=
  (Bytes.le width n).reverse

def appendLenPrefixed (out value : Bytes) : Bytes :=
  out ++ bigEndian 8 value.length ++ value

/-- The fields that the signature covers. -/
def requestIdentityPayload (envelope : RequestEnvelope) : Bytes :=
  let out := appendLenPrefixed [] (utf8 envelope.requestId)
  let out := out ++ bigEndian 4 envelope.protocolVersion
  let out := appendLenPrefixed out (utf8 envelope.nodeId)
  let out := appendLenPrefixed out (utf8 envelope.method)
  let out := out ++ bigEndian 8 envelope.authTimestampUnixSeconds.toUInt64.toNat
  let out := appendLenPrefixed out envelope.payload
  appendLenPrefixed out (utf8 envelope.authSignatureHex)

/-- Compare without an early end. -/
def constantTimeEq (left right : Bytes) : Bool :=
  left.length = right.length &&
    (left.zip right).foldl (fun diff pair => diff ||| (pair.1 ^^^ pair.2)) 0 == 0

namespace Crypto

variable (crypto : Crypto)

def deriveNodeId (publicKey : Bytes) : String :=
  Hex.encode (crypto.blake3 publicKey)

/-- The signature of a request. -/
def signRequestEnvelope (secret : Bytes) (envelope : RequestEnvelope) : String :=
  let payload := appendLenPrefixed [] (utf8 envelope.requestId)
  let payload := payload ++ bigEndian 4 envelope.protocolVersion
  let payload := appendLenPrefixed payload (utf8 envelope.nodeId)
  let payload := appendLenPrefixed payload (utf8 envelope.method)
  let payload := payload ++ bigEndian 8 envelope.authTimestampUnixSeconds.toUInt64.toNat
  let payload := appendLenPrefixed payload envelope.payload
  Hex.encode (crypto.blake3Keyed (crypto.blake3 secret) payload)

/-- The sixteen bytes by which a window remembers a request. -/
def replayKey (request : RequestEnvelope) : Bytes :=
  (crypto.blake3 (utf8 request.nodeId ++ [0] ++ utf8 request.requestId)).take 16

end Crypto

/-- The requests seen lately, by the five seconds they came in. -/
structure ReplayWindow where
  buckets : BTreeMap Int (List Bytes) := ∅
  entries : Nat := 0

namespace ReplayWindow

def remove (window : ReplayWindow) (bucket : Int) : ReplayWindow :=
  match window.buckets[bucket]? with
  | some keys => { buckets := window.buckets.erase bucket, entries := window.entries - keys.length }
  | none => window

/-- Forget the buckets before `oldest`. -/
def expire (window : ReplayWindow) (oldest : Int) : ReplayWindow :=
  (window.buckets.keys.filter (· < oldest)).foldl remove window

/-- The key is in one of the buckets. -/
def contains (window : ReplayWindow) (key : Bytes) : Bool :=
  window.buckets.toList.any fun entry => entry.2.contains key

def insert (window : ReplayWindow) (bucket : Int) (key : Bytes) : ReplayWindow :=
  { buckets := window.buckets.insert bucket ((window.buckets[bucket]?.getD []).insert key)
    entries := window.entries + 1 }

/-- Forget old buckets, refuse what is known, remember the rest. -/
def admitKey (now : Int) (key : Bytes) (capacity : Nat) :
    Fallible ReplayWindow NetworkError Unit := do
  let bucket := now / replayBucketSeconds
  let oldest := (now - replayWindowSeconds) / replayBucketSeconds
  Fallible.modify (expire · oldest)
  let window ← Fallible.get
  Fallible.require (window.contains key = false) .unauthenticated
  Fallible.require (window.entries < capacity) .rateLimited
  Fallible.modify (insert · bucket key)

end ReplayWindow

/-- A node and its two replay windows. -/
structure NetworkHandle where
  clusterSecret : Option Bytes
  replayCapacity : Nat
  seenRequests : ReplayWindow := {}
  bulkSeenRequests : ReplayWindow := {}

namespace NetworkHandle

/-- A byte string of a fixed length from its hexadecimal text. -/
def decodeArray (length : Nat) (text : String) : Except NetworkError Bytes :=
  match Hex.decode text with
  | .ok bytes => if bytes.length = length then .ok bytes else .error .unauthenticated
  | .error _ => .error .unauthenticated

/-- The request is fresh and its signature is that of its sender. -/
def verifyRequestAuth (crypto : Crypto) (handle : NetworkHandle) (now : Int)
    (request : RequestEnvelope) : Except NetworkError Unit := do
  -- The age is a 64-bit difference and its absolute value is one as well.
  if wrap |wrap (now - request.authTimestampUnixSeconds.toInt)| > 60 then
    throw .unauthenticated
  let publicKey ← decodeArray 32 request.publicKeyHex
  if crypto.deriveNodeId publicKey ≠ request.nodeId then
    throw .unauthenticated
  let signature ← decodeArray 64 request.identitySignatureHex
  if crypto.verifySignature publicKey (requestIdentityPayload request) signature = false then
    throw .unauthenticated
  match handle.clusterSecret with
  | some secret =>
    if request.authSignatureHex = "" then
      throw .unauthenticated
    let expected := crypto.signRequestEnvelope secret request
    if constantTimeEq (utf8 expected) (utf8 request.authSignatureHex) = false then
      throw .unauthenticated
  | none => pure ()

/-- The window that a request belongs to. -/
def window (handle : NetworkHandle) (request : RequestEnvelope) : ReplayWindow :=
  if isBulkMethod request.method then handle.bulkSeenRequests else handle.seenRequests

def setWindow (handle : NetworkHandle) (request : RequestEnvelope) (window : ReplayWindow) :
    NetworkHandle :=
  if isBulkMethod request.method then { handle with bulkSeenRequests := window }
  else { handle with seenRequests := window }

/-- The request has not been seen in its window. -/
def checkReplay (crypto : Crypto) (now : Int) (request : RequestEnvelope) :
    Fallible NetworkHandle NetworkError Unit := fun handle =>
  let answer := ReplayWindow.admitKey now (crypto.replayKey request) handle.replayCapacity
    (handle.window request)
  (answer.1, handle.setWindow request answer.2)

/-- The checks of `validate_request` up to the replay window. Each check reads
    the clock for itself; `limited` is the answer of the rate limit. -/
def validateRequest (crypto : Crypto) (verifiedAt checkedAt : Int) (limited : Bool)
    (request : RequestEnvelope) : Fallible NetworkHandle NetworkError Unit := do
  let handle ← Fallible.get
  Fallible.require (request.protocolVersion = protocolVersion)
    (.rpc "unsupported_protocol"
      ("unsupported protocol version " ++ toString request.protocolVersion))
  Fallible.ofExcept (handle.verifyRequestAuth crypto verifiedAt request)
  Fallible.require (limited = false) .rateLimited
  checkReplay crypto checkedAt request

end NetworkHandle

end Network

end Pepper
