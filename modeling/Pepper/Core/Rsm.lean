import Pepper.Base.Collections
import Pepper.Base.Fallible

/-!
# Hosted State Machines

The host of a deterministic state machine and the gate of its reads, as
`DeterministicHost` and `LinearizableReadGate` of `pepper-rsm`.

A machine changes its state in place and may fail in the middle. The host works
on a copy, so that of a batch with a failing command nothing stays: neither the
changes of the command nor those of the commands before it.

The calls of a gate run at the same time. A step is what one of them does
between two points where others may come in, and two of the gate's variables
are there for the record only: which proofs succeeded and which calls returned
`Ok`, with the times. A step takes two ticks of the clock, so that a proof ends
before its call returns. The counters have 64 bits, more than a gate lives to
count.

## Main definitions

* `HostedState`: The state of a machine with the number of commands applied.
* `DeterministicHost.applyBatch`: A list of commands, all or none.
* `LinearizableReadGate`: A gate with the calls of `ensure` under way.
* `LinearizableReadGate.step`: What one of these calls does next.
-/

namespace Pepper

/-- A state and the index of what was applied. -/
structure HostedState (σ : Type) where
  appliedIndex : Nat
  value : σ

namespace DeterministicHost

variable {σ γ ε ρ : Type} (apply : γ → Fallible σ ε ρ)

/-- `DeterministicHost::new` -/
def new (initialState : σ) : HostedState σ :=
  ⟨0, initialState⟩

/-- The commands of a batch on the host's copy. -/
def applyCommands : List γ → Fallible σ ε (List ρ)
  | [] => return []
  | command :: rest => do
      let response ← apply command
      let responses ← applyCommands rest
      return response :: responses

/-- All commands take effect, or none. -/
def applyBatch (commands : List γ) : Fallible (HostedState σ) ε (List ρ) := fun hosted =>
  match applyCommands apply commands hosted.value with
  | (.ok responses, next) =>
    (.ok responses, ⟨min (hosted.appliedIndex + responses.length) (2 ^ 64 - 1), next⟩)
  | (.error e, _) => (.error e, hosted)

end DeterministicHost

/-- Where a call of `ensure` stands: before the lock, in the join window, or in
    its proof, with what it read from the counter and when. -/
inductive ReadPhase
  | waiting
  | joining
  | proving (coverThrough started : Nat)
deriving DecidableEq

structure ReadCall where
  arrival : Nat
  arrivedAt : Nat
  phase : ReadPhase

/-- Of a successful proof there are start and end, of a call that returned `Ok`
    arrival and return. -/
structure LinearizableReadGate where
  arrivals : Nat
  covered : Nat
  lock : Option Nat
  calls : BTreeMap Nat ReadCall
  clock : Nat
  proofs : List (Nat × Nat)
  returned : List (Nat × Nat)

/-- A call may be dropped at any of its awaits. -/
inductive ReadStep
  | arrive (id : Nat)
  | acquire (id : Nat)
  | prove (id : Nat)
  | finish (id : Nat) (success : Bool)
  | drop (id : Nat)

namespace LinearizableReadGate

def new : LinearizableReadGate :=
  ⟨0, 0, none, ∅, 0, [], []⟩

/-- The call is over, and its guard is dropped. -/
def leave (g : LinearizableReadGate) (id : Nat) : LinearizableReadGate :=
  { g with calls := g.calls.erase id, lock := if g.lock = some id then none else g.lock }

/-- A caller takes a number and waits for the lock. -/
def arrive (g : LinearizableReadGate) (id : Nat) : LinearizableReadGate :=
  if id ∈ g.calls then g
  else
    { g with
      arrivals := g.arrivals + 1
      calls := g.calls.insert id ⟨g.arrivals + 1, g.clock, .waiting⟩ }

/-- With the lock, the call sees whether it is covered. -/
def acquire (g : LinearizableReadGate) (id : Nat) (call : ReadCall) : LinearizableReadGate :=
  if call.phase ≠ .waiting ∨ g.lock.isSome then g
  else if call.arrival ≤ g.covered then
    { g.leave id with returned := g.returned ++ [(call.arrivedAt, g.clock)] }
  else { g with lock := some id, calls := g.calls.insert id { call with phase := .joining } }

/-- The window is over: the counter is read and the proof starts. -/
def prove (g : LinearizableReadGate) (id : Nat) (call : ReadCall) : LinearizableReadGate :=
  if call.phase = .joining then
    { g with calls := g.calls.insert id { call with phase := .proving g.arrivals g.clock } }
  else g

/-- A proof covers those who arrived before it began. -/
def finish (g : LinearizableReadGate) (id : Nat) (call : ReadCall) (success : Bool) :
    LinearizableReadGate :=
  match call.phase with
  | .proving coverThrough started =>
    if success then
      { g.leave id with
        covered := coverThrough
        proofs := g.proofs ++ [(started, g.clock)]
        returned := g.returned ++ [(call.arrivedAt, g.clock + 1)] }
    else g.leave id
  | _ => g

def act (g : LinearizableReadGate) : ReadStep → LinearizableReadGate
  | .arrive id => g.arrive id
  | .acquire id => g.calls[id]?.elim g (g.acquire id)
  | .prove id => g.calls[id]?.elim g (g.prove id)
  | .finish id success => g.calls[id]?.elim g (g.finish id · success)
  | .drop id => g.leave id

def step (g : LinearizableReadGate) (s : ReadStep) : LinearizableReadGate :=
  { g.act s with clock := g.clock + 2 }

end LinearizableReadGate

end Pepper
