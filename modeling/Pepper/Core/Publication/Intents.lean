import Pepper.Core.Pins

/-!
# Publication Intents

The tables through which a replica tells its node what to pin, as
`pepper-consensus` writes them and `PublicationRepository` of
`pepper-publication` reads them.

An intent is pending until a reconcile pass has handed it to the protection
backend or until it is known that there is nothing to do, and then it moves to
the history. Both tables are sorted by the text of the identifier, and a pass
takes all pending intents in that order.

## Main definitions

* `IntentTables`: The pending intents and those that are done with.
* `committedPublicationIntent`: The intent of an applied command.
* `proposalProtectionIntents`: The intents of a log entry that is appended.
* `persistIntents`: What an apply writes.
* `reconcilePinIntents`: A pass over the pending intents.
-/

namespace Pepper

namespace Publication

open Namespace
open Pins

variable {Digest : Type}

/-- How an intent was done with. -/
inductive IntentStatus where
  | resolved
  | applied
deriving DecidableEq, Repr

structure IntentTables (Digest : Type) where
  pending : BTreeMap String (PublicationIntentRecord Digest)
  history : BTreeMap String (PublicationIntentRecord Digest × IntentStatus)

/-- How identifiers are written: the text of a content identifier, and the
    digest of a request identifier in hexadecimal. -/
structure IntentNames (Digest : Type) where
  text : Cid Digest → String
  requestHash : String → String

variable (names : IntentNames Digest)

/-- The start of every identifier of an intent for a log entry. -/
def entryPart (namespaceId : NamespaceId Digest) (logIndex : Nat) : String :=
  names.text namespaceId.cid ++ "|" ++ Keys.padded 16 logIndex ++ "|"

def actionText : PinAction → String
  | .protect => "protect"
  | .release => "release"

def committedPublicationIntent (namespaceId : NamespaceId Digest) (logIndex : Nat)
    (requestId : String) (intent : PinIntent Digest) : PublicationIntentRecord Digest :=
  { intentId := entryPart names namespaceId logIndex ++ "committed|" ++
      names.requestHash requestId ++ "|" ++ actionText intent.action ++ "|" ++
      names.text intent.cid
    namespaceId
    logIndex
    requestId
    cid := intent.cid
    action := intent.action
    reason := intent.reason }

/-- The values that a command puts. -/
def valueCids (envelope : CommandEnvelope Digest) : List (Cid Digest) :=
  match envelope.command with
  | .applyTransaction transaction =>
    transaction.mutations.filterMap fun
      | .put _ valueCid _ _ _ => some valueCid
      | .assert _ _ => none
      | .delete _ _ => none
  | _ => []

def proposalPart (namespaceId : NamespaceId Digest) (logIndex : Nat) : String :=
  entryPart names namespaceId logIndex ++ "proposal|"

/-- `proposal_protection_intents` for an entry with commands. -/
def proposalProtectionIntents (namespaceId : NamespaceId Digest) (logIndex : Nat)
    (commands : List (CommandEnvelope Digest)) : List (PublicationIntentRecord Digest) :=
  commands.flatMap fun envelope => (valueCids envelope).map fun cid =>
    { intentId := proposalPart names namespaceId logIndex ++
        names.requestHash envelope.requestId ++ "|" ++ names.text cid
      namespaceId
      logIndex
      requestId := envelope.requestId
      cid
      action := .protect
      reason := "proposal-input" }

/-! ## Tables -/

namespace IntentTables

variable (tables : IntentTables Digest)

/-- Write pending intents. -/
def insertPending (intents : List (PublicationIntentRecord Digest)) : IntentTables Digest :=
  { tables with
    pending := intents.foldl (fun pending intent => pending.insert intent.intentId intent)
      tables.pending }

/-- Intents that wait, in the order of their ids. -/
def pendingIntents : List (PublicationIntentRecord Digest) :=
  tables.pending.toList.map Prod.snd

/-- The intents leave the queue with a status. -/
def retireIntents (intents : List (PublicationIntentRecord Digest)) (status : IntentStatus) :
    IntentTables Digest :=
  intents.foldl (fun tables intent =>
    { pending := tables.pending.erase intent.intentId
      history := tables.history.insert intent.intentId (intent, status) }) tables

/-- The pending intents whose identifier starts with a text. -/
def startingWith (start : String) : List (PublicationIntentRecord Digest) :=
  (tables.pending.toList.filter fun entry => start.toList.isPrefixOf entry.1.toList).map Prod.snd

end IntentTables

/-- `persist_intents_sync`: the proposal intents of the applied entries are
    resolved, and those of their commands are written, in one transaction. -/
def persistIntents (namespaceId : NamespaceId Digest)
    (intents : List (PublicationIntentRecord Digest)) (resolvedLogIndexes : List Nat)
    (tables : IntentTables Digest) : IntentTables Digest :=
  (resolvedLogIndexes.foldl (fun tables logIndex =>
    tables.retireIntents (tables.startingWith (proposalPart names namespaceId logIndex)) .resolved)
      tables).insertPending intents

/-! ## Reconciliation -/

inductive PublicationError where
  | protection (error : PinError)
  | storage
deriving DecidableEq, Repr

/-- The tables of a node that a pass works on. -/
structure Published (Digest : Type) where
  intents : IntentTables Digest
  pins : PinTable Digest

variable [DecidableEq Digest]

/-- A pass over the pending intents: all of them are applied in one transaction
    on the pins and retired in another one. The second may fail by itself. -/
def reconcilePinIntents (backend : AgentProtectionBackend) (now : Int) (retired : Bool) :
    Fallible (Published Digest) PublicationError Nat := do
  let published ← Fallible.get
  let intents := published.intents.pendingIntents
  if intents.isEmpty then
    return 0
  else
    Fallible.zoom Published.pins (fun published pins => { published with pins }) .protection
      (backend.applyPinIntents now intents)
    Fallible.require (retired = true) .storage
    Fallible.modify fun published =>
      { published with intents := published.intents.retireIntents intents .applied }
    return intents.length

end Publication

end Pepper
