import Pepper.Core.Namespace.State

/-!
# Pins

The pin table of a node and the protection backend over it, as
`PinRepository` of `pepper-metadata` and `AgentProtectionBackend` of
`pepper-agent`.

A pin is identified by a digest of its namespace, root and reason together with
its expiry and its owner. The digest is taken to be free of collisions, so the
identifier is those five things. The source repeats owner, expiry and root as
fields of the record and never writes a record under an identifier with others;
here they are in the identifier only. A record can be changed, but a deleted one
never becomes active again.

## Main definitions

* `PinKey`, `PinId`, `PinBody`, `PinTable`: The pins of a node.
* `validatePinUpdate`, `replace`: Writing pins, all or none.
* `AgentProtectionBackend`: `protect`, `release` and their batched forms.
* `PublicationIntentRecord`: What a namespace asks a node to pin.
* `applyPinIntents`, `applyEach`: A list of intents at once, and one by one.
-/

namespace Pepper

namespace Pins

open Namespace

variable {Digest : Type}

/-- What `pin_prefix` takes the digest of. -/
structure PinKey (Digest : Type) where
  namespaceId : NamespaceId Digest
  cid : Cid Digest
  reason : String
deriving DecidableEq

/-- A permanent pin has no expiry. -/
structure PinId (Digest : Type) where
  key : PinKey Digest
  expiresAtUnixSeconds : Option Int
  owner : String
deriving DecidableEq

inductive PinStatus where
  | active
  | deleted
deriving DecidableEq, Repr

/-- The fields of a pin record that its identifier does not fix. -/
structure PinBody where
  replicationFactor : Nat
  createdAtUnixSeconds : Int
  status : PinStatus
deriving DecidableEq

structure PinRecord (Digest : Type) where
  pinId : PinId Digest
  body : PinBody
deriving DecidableEq

/-- The pins of a node. -/
abbrev PinTable (Digest : Type) := AList fun _ : PinId Digest => PinBody

inductive PinError where
  | immutablePinFields
  | pinReactivation
deriving DecidableEq, Repr

/-- A deleted pin does not become active again. -/
def validatePinUpdate (existing pin : PinBody) : Except PinError Unit := do
  if existing.replicationFactor ≠ pin.replicationFactor ∨
      existing.createdAtUnixSeconds ≠ pin.createdAtUnixSeconds then
    throw .immutablePinFields
  if existing.status = .deleted ∧ pin.status ≠ .deleted then
    throw .pinReactivation

variable [DecidableEq Digest]

/-- One record inside a transaction. -/
def writePin (table : PinTable Digest) (pin : PinRecord Digest) :
    Except PinError (PinTable Digest) :=
  match table.lookup pin.pinId with
  | some existing => do
      validatePinUpdate existing pin.body
      return table.insert pin.pinId pin.body
  | none => .ok (table.insert pin.pinId pin.body)

/-- A transaction that writes the pins in order. When one is refused, nothing is
    written. `PinRepository::put` is the case of one pin. -/
def replace (pins : List (PinRecord Digest)) : Fallible (PinTable Digest) PinError Unit :=
  fun table =>
    match pins.foldlM writePin table with
    | .ok table' => (.ok (), table')
    | .error e => (.error e, table)

/-- `PinRepository::prefixed`: the pins under a key. -/
def prefixed (table : PinTable Digest) (key : PinKey Digest) : List (PinRecord Digest) :=
  (table.entries.filter fun entry => entry.1.key = key).map fun entry => ⟨entry.1, entry.2⟩

/-- What a namespace asks a node to pin. The status is kept by the table that
    the record is in. -/
structure PublicationIntentRecord (Digest : Type) where
  intentId : String
  namespaceId : NamespaceId Digest
  logIndex : Nat
  requestId : String
  cid : Cid Digest
  action : PinAction
  reason : String
deriving DecidableEq

def PublicationIntentRecord.key (intent : PublicationIntentRecord Digest) : PinKey Digest :=
  ⟨intent.namespaceId, intent.cid, intent.reason⟩

/-- The node that owns the pins. -/
structure AgentProtectionBackend where
  nodeId : String
  replicationFactor : Nat

namespace AgentProtectionBackend

variable (backend : AgentProtectionBackend)

/-- A new pin of this node. -/
def newPin (key : PinKey Digest) (expires : Option Int) (now : Int) : PinRecord Digest :=
  ⟨⟨key, expires, backend.nodeId⟩, ⟨backend.replicationFactor, now, .active⟩⟩

/-- The active pins of this node under a key. -/
def ownActive (table : PinTable Digest) (key : PinKey Digest) : List (PinRecord Digest) :=
  (prefixed table key).filter fun pin =>
    pin.pinId.owner = backend.nodeId && pin.body.status = .active

/-- A pin with its status changed. -/
def deletedPin (pin : PinRecord Digest) : PinRecord Digest :=
  { pin with body := { pin.body with status := .deleted } }

/-- Nothing is written for a pin that is there already. -/
def protect (now : Int) (key : PinKey Digest) (expires : Option Int) :
    Fallible (PinTable Digest) PinError Unit := do
  let table ← Fallible.get
  if (backend.ownActive table key).any fun pin => pin.pinId.expiresAtUnixSeconds = expires then
    return ()
  else
    replace [backend.newPin key expires now]

/-- Delete the active pins of the key. -/
def release (key : PinKey Digest) : Fallible (PinTable Digest) PinError Unit := do
  let table ← Fallible.get
  replace ((backend.ownActive table key).map deletedPin)

/-- The pins that are not there yet, as records to write. -/
def prepareProtectPins (now : Int) (table : PinTable Digest) (namespaceId : NamespaceId Digest)
    (cids : List (Cid Digest)) (reason : String) (expires : Option Int) :
    List (PinRecord Digest) :=
  cids.filterMap fun cid =>
    let pin := backend.newPin ⟨namespaceId, cid, reason⟩ expires now
    if (backend.ownActive table ⟨namespaceId, cid, reason⟩).any (·.pinId = pin.pinId) then none
    else some pin

def protectMany (now : Int) (namespaceId : NamespaceId Digest) (cids : List (Cid Digest))
    (reason : String) (expires : Option Int) : Fallible (PinTable Digest) PinError Unit := do
  let table ← Fallible.get
  replace (backend.prepareProtectPins now table namespaceId cids reason expires)

def releaseManyGrouped (namespaceId : NamespaceId Digest) (cids : List (Cid Digest))
    (reasons : List String) : Fallible (PinTable Digest) PinError Unit := do
  let table ← Fallible.get
  replace (reasons.flatMap fun reason => cids.flatMap fun cid =>
    (backend.ownActive table ⟨namespaceId, cid, reason⟩).map deletedPin)

/-- The writes of one intent of a batch, from the table before the batch. -/
def intentWrites (now : Int) (table : PinTable Digest) (intent : PublicationIntentRecord Digest) :
    List (PinRecord Digest) :=
  match intent.action with
  | .protect =>
    let pin := backend.newPin intent.key none now
    if (backend.ownActive table intent.key).any fun other =>
        other.pinId = pin.pinId && other.pinId.expiresAtUnixSeconds = none then []
    else [pin]
  | .release => (backend.ownActive table intent.key).map deletedPin

/-- All intents are computed from the table before the batch. -/
def applyPinIntents (now : Int) (intents : List (PublicationIntentRecord Digest)) :
    Fallible (PinTable Digest) PinError Unit := do
  let table ← Fallible.get
  replace (intents.flatMap (backend.intentWrites now table))

/-- One intent by itself. -/
def applyOne (now : Int) (intent : PublicationIntentRecord Digest) :
    Fallible (PinTable Digest) PinError Unit :=
  match intent.action with
  | .protect => backend.protect now intent.key none
  | .release => backend.release intent.key

/-- The intents one after another, each with the time it is applied at, up to the
    first that fails. This is `apply_pin_intents` of the trait. -/
def applyEach : List (Int × PublicationIntentRecord Digest) →
    Fallible (PinTable Digest) PinError Unit
  | [] => return ()
  | (now, intent) :: rest => do
      backend.applyOne now intent
      applyEach rest

end AgentProtectionBackend

end Pins

end Pepper
