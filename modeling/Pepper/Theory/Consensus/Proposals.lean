import Pepper.Core.Consensus
import Pepper.Theory.Publication.Following

/-!
# Pins for Proposal Inputs

When a log entry is appended, a pending intent protects each value that it puts,
so that the value is there when the entry is applied. Applying the entry resolves
the intent. A reconcile pass that comes in between does not tell such an intent
from one of an applied command: it makes a permanent pin, which nothing releases.

## Main definitions

* `ProposalsWait`: A pass finds no intent for a proposal, or does nothing.
* `plainGroup`, `plainNode`: A group of one replica for runs.

## Theorems

* `reconcile_pins`: What a pass does.
* `no_proposal_pins`: Without such a pass there are no pins for proposals.
-/

namespace Pepper

namespace Consensus

open Namespace
open Pins
open Publication

section Passes

variable {Digest : Type} [DecidableEq Digest] (backend : AgentProtectionBackend)

/-- A pass case by case: nothing is pending, the batch is refused, or the batch
    went through and the intents are retired or not. -/
theorem reconcile_eq (now : Int) (retired : Bool) (published : Published Digest) :
    (reconcilePinIntents backend now retired published).2 =
      if published.intents.pendingIntents.isEmpty then published
      else
        let batch := backend.applyPinIntents now published.intents.pendingIntents published.pins
        if batch.1 = .ok () ∧ retired = true then
          ⟨published.intents.retireIntents published.intents.pendingIntents .applied, batch.2⟩
        else ⟨published.intents, batch.2⟩ := by
  show ((if published.intents.pendingIntents.isEmpty then
    (pure 0 : Fallible (Published Digest) PublicationError Nat) else _) published).2 = _
  by_cases hempty : published.intents.pendingIntents.isEmpty
  · rw [if_pos hempty, if_pos hempty]
    rfl
  · rw [if_neg hempty, if_neg hempty]
    simp only [bind, Fallible.zoom]
    rcases backend.applyPinIntents now published.intents.pendingIntents published.pins with
      ⟨_ | _, pins⟩
    · simp [Except.mapError]
    · cases retired <;> simp [Except.mapError, Fallible.require, Fallible.fail,
        Fallible.modify, pure]

/-- The pins after a pass: all pending intents as one batch. -/
theorem reconcile_pins (now : Int) (retired : Bool) (published : Published Digest) :
    (reconcilePinIntents backend now retired published).2.pins =
      (backend.applyPinIntents now published.intents.pendingIntents published.pins).2 := by
  rw [reconcile_eq]
  by_cases hempty : published.intents.pendingIntents.isEmpty
  · rw [if_pos hempty, List.isEmpty_iff.mp hempty]
    rfl
  · rw [if_neg hempty]
    simp only
    split <;> rfl

end Passes

/-! ## Runs -/

section Runs

variable {Digest σ : Type} [DecidableEq Digest] (group : Group σ Digest)
  (backend : AgentProtectionBackend)

/-- A pass finds no intent for a proposal, or it is refused as a whole because an
    intent asks for a deleted pin. -/
def ProposalsWait (node : Node σ Digest) : Operation σ Digest → Prop
  | .reconcile _ _ =>
    (∀ intent ∈ node.replica.tables.intents.pendingIntents, intent.reason ≠ "proposal-input") ∨
      ∃ intent ∈ node.replica.tables.intents.pendingIntents, Refused (mark backend node.pins) intent
  | _ => True

instance (node : Node σ Digest) : (operation : Operation σ Digest) →
    Decidable (ProposalsWait backend node operation)
  | .reconcile _ _ => inferInstanceAs (Decidable (_ ∨ _))
  | .append _ => inferInstanceAs (Decidable True)
  | .truncate _ => inferInstanceAs (Decidable True)
  | .apply _ => inferInstanceAs (Decidable True)
  | .installSnapshot _ _ _ _ => inferInstanceAs (Decidable True)

/-- There is no active permanent pin of this node for a proposal. -/
def NoProposalPins (node : Node σ Digest) : Prop :=
  ∀ key : PinKey Digest, key.reason = "proposal-input" → mark backend node.pins key ≠ some .active

theorem step_noProposalPins {node : Node σ Digest} {operation : Operation σ Digest}
    (h : NoProposalPins backend node) (hwait : ProposalsWait backend node operation) :
    NoProposalPins backend (Node.step group backend node operation) := by
  cases operation with
  | reconcile now retired =>
    intro key hkey
    simp only [Node.step, reconcile_pins]
    rw [Ne, mark_applyPinIntents]
    by_cases href : ∃ intent ∈ node.replica.tables.intents.pendingIntents,
        Refused (mark backend node.pins) intent
    · rw [if_pos href]
      exact h key hkey
    · rw [if_neg href]
      rintro (⟨hact, _⟩ | ⟨_, intent, hintent, _, rfl⟩)
      · exact h key hkey hact
      · exact (hwait.resolve_right href) intent hintent hkey
  | append | truncate | apply | installSnapshot => exact h

/-- In every run in which no pass makes pins while an intent for a proposal is
    pending, there is never an active pin for a proposal: not for an entry that
    was applied or truncated, nor for any other. -/
theorem no_proposal_pins {node node' : Node σ Digest} (hstart : NoProposalPins backend node)
    (h : Reaches (Node.step group backend) (ProposalsWait backend) node node') :
    NoProposalPins backend node' :=
  h.invariant (I := NoProposalPins backend)
    (fun _ _ hnode hwait => step_noProposalPins group backend hnode hwait) hstart

end Runs

/-! ## A group of one replica -/

/-- A namespace that keeps one revision. A hash of a request is its first
    letter. -/
def plainGroup : Group (List (Codec × Bytes)) Bytes where
  namespaceId := (plainState 1).namespaceId
  enc := plainNamespaceEncoding
  names := ⟨plainNamespaceEncoding.text, fun requestId => String.ofList (requestId.toList.take 1)⟩
  store := Merkle.blockList Merkle.plainHashing
  entrySize _ := 1
  maxLogBytes := 100
  logIdText _ := "l"

def plainReplica : Replica (List (Codec × Bytes)) Bytes where
  blocks := (plainStart 1).blocks
  tables := ⟨∅, none, none, ⟨∅, ∅⟩⟩
  state := ⟨none, 1, .default, plainState 1⟩
  currentSnapshot := none
  lastPersistedApplied := 0

def plainNode : Node (List (Codec × Bytes)) Bytes :=
  ⟨plainReplica, ∅⟩

/-- An entry with commands. -/
def plainEntry (index : Nat) (commands : List (CommandEnvelope Bytes)) : Entry Bytes :=
  ⟨⟨1, 1, index⟩, .normal commands⟩

theorem noProposalPins_plainNode : NoProposalPins plainBackend plainNode := by
  intro key _
  simp [mark, statusOf, plainNode]

/-- An entry that is applied before the next pass. -/
theorem no_proposal_pins_applied :
    NoProposalPins plainBackend (runOps (Node.step plainGroup plainBackend) plainNode
      [.append [plainEntry 1 [putRequest 1 "a" "01"]],
        .apply [plainEntry 1 [putRequest 1 "a" "01"]], .reconcile 0 true]) :=
  no_proposal_pins plainGroup plainBackend noProposalPins_plainNode
    (reaches_runOps _ _ (by decide +kernel))

/-- A pass between the append and the apply makes a pin that stays when the entry
    is applied and nothing is pending any more. -/
theorem proposal_pin_stays :
    let node := runOps (Node.step plainGroup plainBackend) plainNode
      [.append [plainEntry 1 [putRequest 1 "a" "01"]], .reconcile 0 true,
        .apply [plainEntry 1 [putRequest 1 "a" "01"]], .reconcile 0 true]
    indexOf node.replica.state.lastAppliedLog = 1 ∧
    node.replica.tables.intents.pendingIntents = [] ∧
    mark plainBackend node.pins ⟨plainGroup.namespaceId, ⟨codecRaw, []⟩, "proposal-input"⟩ =
      some .active := by
  decide +kernel

end Consensus

end Pepper
