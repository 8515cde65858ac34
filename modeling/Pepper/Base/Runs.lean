import Mathlib

/-!
# Guarded Runs

Runs of a machine that takes one operation at a time, each under a guard.

A step function is total and deterministic: whatever a component leaves open
(which call comes next, whether an input or output operation fails) is part
of the operation. The guard reads the state before the step, so "every step
of the run meets the condition" is a property of the run and not of its
result.

## Main definitions

* `Reaches`: One state leads to another by operations the guard allows.
* `runOps`: The state after a list of operations.
* `Admits`: The guard allows each operation of a list where it is taken.

## Theorems

* `Reaches.invariant`: What every allowed step keeps, every run keeps.
* `Reaches.related`: A preorder kept by every allowed step relates the two
  ends of a run.
* `reaches_runOps`: A concrete list of operations is a run.
-/

namespace Pepper

variable {σ ο : Type}

/-- One state leads to another by operations that the guard allows. -/
def Reaches (step : σ → ο → σ) (guard : σ → ο → Prop) : σ → σ → Prop :=
  Relation.ReflTransGen fun s s' => ∃ o, guard s o ∧ s' = step s o

/-- The state after a list of operations. -/
def runOps (step : σ → ο → σ) (s : σ) (ops : List ο) : σ :=
  ops.foldl step s

/-- The guard allows each operation of the list in the state it is taken in. -/
def Admits (step : σ → ο → σ) (guard : σ → ο → Prop) : σ → List ο → Prop
  | _, [] => True
  | s, o :: ops => guard s o ∧ Admits step guard (step s o) ops

instance instDecidableAdmits (step : σ → ο → σ) (guard : σ → ο → Prop)
    [∀ s o, Decidable (guard s o)] : ∀ s ops, Decidable (Admits step guard s ops)
  | _, [] => isTrue trivial
  | s, o :: ops =>
    have := instDecidableAdmits step guard (step s o) ops
    inferInstanceAs (Decidable (guard s o ∧ Admits step guard (step s o) ops))

variable {step : σ → ο → σ} {guard : σ → ο → Prop}

theorem Reaches.refl (s : σ) : Reaches step guard s s :=
  Relation.ReflTransGen.refl

/-- An invariant together with a preorder that every allowed step respects
    holds along the whole run. Taking both at once lets the step argument use
    the invariant. -/
theorem Reaches.related {I : σ → Prop} {R : σ → σ → Prop} (hrefl : ∀ s, R s s)
    (htrans : ∀ a b c, R a b → R b c → R a c)
    (hstep : ∀ s o, I s → guard s o → I (step s o) ∧ R s (step s o))
    {s s' : σ} (hs : I s) (h : Reaches step guard s s') : I s' ∧ R s s' := by
  induction h with
  | refl => exact ⟨hs, hrefl s⟩
  | tail _ hlast ih =>
    rcases hlast with ⟨o, hguard, rfl⟩
    rcases hstep _ o ih.1 hguard with ⟨hI, hR⟩
    exact ⟨hI, htrans _ _ _ ih.2 hR⟩

theorem Reaches.invariant {I : σ → Prop} (hstep : ∀ s o, I s → guard s o → I (step s o))
    {s s' : σ} (hs : I s) (h : Reaches step guard s s') : I s' :=
  (h.related (R := fun _ _ => True) (fun _ => trivial) (fun _ _ _ _ _ => trivial)
    (fun s o hI hg => ⟨hstep s o hI hg, trivial⟩) hs).1

theorem reaches_runOps (s : σ) (ops : List ο) (h : Admits step guard s ops) :
    Reaches step guard s (runOps step s ops) := by
  induction ops generalizing s with
  | nil => exact Reaches.refl s
  | cons o ops ih =>
    exact Relation.ReflTransGen.head ⟨o, h.1, rfl⟩ (ih (step s o) h.2)

end Pepper
