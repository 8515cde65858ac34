import Mathlib

/-!
# Calls That Keep Their Partial Effects

A call that fails half way leaves behind what it did up to there. `Fallible`
is the type of such calls: a state goes in, and a result together with a state
comes out, in the error case as well. It is not a state monad over `Except`,
where an error forgets the state.

Reasoning is by `Ends`, the weakest precondition of a postcondition on result
and state. Each construct has one rule, so the proof about a call follows the
call's own text.

## Main definitions

* `Outcome`: How a machine answers a call that may fail.
* `Fallible`: Calls that may fail, with the state they leave.
* `Fallible.require`, `Fallible.expect`, `Fallible.ofExcept`: A check, an
  optional value, and a computation that needs no state.
* `Fallible.zoom`, `Fallible.within`: A call on a part of the state.
* `Fallible.attempt`: A call whose failure is a value.
* `Fallible.Ends`: A postcondition holds at the end of a call.
* `Fallible.Moves`: Every outcome of a call is related to its start.
* `Fallible.Yields`: The same, with a postcondition for success.
* `Fallible.Returns`: A postcondition for success alone.

## Theorems

* `Ends.bind`, `Ends.forM`: The rules for sequencing and for loops.
* `Moves.bind`, `Moves.forM`, ...: The same for preorders.
* `Yields.bind`, ...: The same for a preorder with a postcondition of success.
* `Returns.bind`, ...: The same for a postcondition of success.
-/

namespace Pepper

/-- How the machine answers a call: it takes effect, it is refused without an
    effect, or its error is reported after the effect. -/
inductive Outcome where
  | done
  | refused
  | late
deriving DecidableEq, Repr

/-- A call that may fail and keeps what it did before the failure. -/
def Fallible (σ ε α : Type) : Type :=
  σ → Except ε α × σ

namespace Fallible

variable {σ τ ε ε' α β : Type}

instance instMonad : Monad (Fallible σ ε) where
  pure a := fun s => (.ok a, s)
  bind x f := fun s =>
    match x s with
    | (.ok a, s') => f a s'
    | (.error e, s') => (.error e, s')

def fail (e : ε) : Fallible σ ε α :=
  fun s => (.error e, s)

def get : Fallible σ ε σ :=
  fun s => (.ok s, s)

def modify (f : σ → σ) : Fallible σ ε Unit :=
  fun s => (.ok (), f s)

/-- Fail unless the condition holds. -/
def require (c : Prop) [Decidable c] (e : ε) : Fallible σ ε Unit :=
  if c then pure () else fail e

/-- The value of an option, or a failure. -/
def expect (o : Option α) (e : ε) : Fallible σ ε α :=
  match o with
  | some a => pure a
  | none => fail e

/-- A computation without a state. -/
def ofExcept (r : Except ε α) : Fallible σ ε α :=
  fun s => (r, s)

/-- Run a call on one part of the state, with its errors wrapped. -/
def zoom (part : σ → τ) (put : σ → τ → σ) (wrap : ε' → ε) (x : Fallible τ ε' α) :
    Fallible σ ε α :=
  fun s => ((x (part s)).1.mapError wrap, put s (x (part s)).2)

/-- Run a call on a part of the state that may be missing. -/
def within (part : σ → Option τ) (put : σ → τ → σ) (e : ε) (x : Fallible τ ε α) :
    Fallible σ ε α :=
  fun s =>
    match part s with
    | none => (.error e, s)
    | some t => ((x t).1, put s (x t).2)

/-- Run a call and return its outcome, whatever it is. -/
def attempt (x : Fallible σ ε α) : Fallible σ ε (Except ε α) :=
  fun s => (.ok (x s).1, (x s).2)

/-- The postcondition holds of the outcome of the call. -/
def Ends (x : Fallible σ ε α) (s : σ) (Q : Except ε α → σ → Prop) : Prop :=
  Q (x s).1 (x s).2

variable {a : α} {c : Prop} {e : ε} {g : σ → σ} {put : σ → τ → σ} {s' : σ} {x : Fallible σ ε α}
  {γ : Type} {f : β → Fallible σ ε α} {o : Option β}
  {b : β} {r : Except ε β} {wrap : ε' → ε} {P' : α → σ → Prop}

section Rules

variable {s : σ} {Q Q' : Except ε α → σ → Prop}

theorem Ends.mono (h : x.Ends s Q) (himp : ∀ r s', Q r s' → Q' r s') : x.Ends s Q' :=
  himp _ _ h

theorem Ends.and (h : x.Ends s Q) (h' : x.Ends s Q') : x.Ends s fun r s' => Q r s' ∧ Q' r s' :=
  ⟨h, h'⟩

/-- What is known of every outcome, at the outcome of one call. -/
theorem Ends.of_eq (h : x.Ends s Q) {r : Except ε α} (hx : x s = (r, s')) : Q r s' := by
  unfold Ends at h
  rw [hx] at h
  exact h

theorem Ends.pure (h : Q (.ok a) s) : Ends (Pure.pure a : Fallible σ ε α) s Q :=
  h

theorem Ends.fail (h : Q (.error e) s) : Ends (fail e) s Q :=
  h

theorem Ends.bind {x : Fallible σ ε β} (h : x.Ends s fun r s' =>
      match r with
      | .ok b => (f b).Ends s' Q
      | .error e => Q (.error e) s') : Ends (x >>= f) s Q := by
  unfold Ends at h ⊢
  simp only [Bind.bind]
  rcases hx : x s with ⟨r, s'⟩
  rw [hx] at h
  cases r with
  | ok b => exact h
  | error e => exact h

/-- A call whose outcome is known. -/
theorem Ends.bind_of_eq {x : Fallible σ ε β} (hx : x s = (.ok b, s')) (h : (f b).Ends s' Q) :
    Ends (x >>= f) s Q := by
  refine Ends.bind ?_
  unfold Ends
  rw [hx]
  exact h

theorem Ends.get_bind {f : σ → Fallible σ ε α} (h : (f s).Ends s Q) :
    Ends (Fallible.get >>= f) s Q :=
  Ends.bind h

theorem Ends.modify_bind {f : Unit → Fallible σ ε α} (h : (f ()).Ends (g s) Q) :
    Ends (Fallible.modify g >>= f) s Q :=
  Ends.bind h

theorem Ends.modify {Q : Except ε Unit → σ → Prop} (h : Q (.ok ()) (g s)) :
    Ends (Fallible.modify g) s Q :=
  h

theorem Ends.require [Decidable c] {Q : Except ε Unit → σ → Prop} (hfail : ¬ c → Q (.error e) s)
    (hok : c → Q (.ok ()) s) : Ends (Fallible.require c e) s Q := by
  by_cases hc : c
  · rw [Fallible.require, if_pos hc]
    exact hok hc
  · rw [Fallible.require, if_neg hc]
    exact hfail hc

theorem Ends.require_bind [Decidable c] {f : Unit → Fallible σ ε α} (hfail : ¬ c → Q (.error e) s)
    (hok : c → (f ()).Ends s Q) : Ends (Fallible.require c e >>= f) s Q :=
  Ends.bind (Ends.require hfail hok)

/-- A check that is known to hold can be left out. -/
theorem Ends.require_bind_iff [Decidable c] {f : Unit → Fallible σ ε α} (hc : c) :
    Ends (Fallible.require c e >>= f) s Q ↔ (f ()).Ends s Q := by
  rw [Fallible.require, if_pos hc]
  rfl

theorem Ends.expect {o : Option α} (hfail : o = none → Q (.error e) s)
    (hok : ∀ a, o = some a → Q (.ok a) s) : Ends (Fallible.expect o e) s Q := by
  cases ho : o with
  | none => exact hfail ho
  | some a => exact hok a ho

theorem Ends.expect_bind (hfail : o = none → Q (.error e) s)
    (hok : ∀ b, o = some b → (f b).Ends s Q) : Ends (Fallible.expect o e >>= f) s Q :=
  Ends.bind (Ends.expect hfail hok)

theorem Ends.require_pos [Decidable c] {f : Unit → Fallible σ ε α} (hc : c)
    (h : (f ()).Ends s Q) : Ends (Fallible.require c e >>= f) s Q :=
  (Ends.require_bind_iff hc).mpr h

/-- A value that is known to be there. -/
theorem Ends.expect_some (ho : o = some b) (h : (f b).Ends s Q) :
    Ends (Fallible.expect o e >>= f) s Q := by
  subst ho
  exact h

theorem Ends.ofExcept_bind (hfail : ∀ e, r = .error e → Q (.error e) s)
    (hok : ∀ b, r = .ok b → (f b).Ends s Q) : Ends (Fallible.ofExcept r >>= f) s Q := by
  refine Ends.bind ?_
  unfold Ends Fallible.ofExcept
  cases hr : r with
  | ok b => exact hok b hr
  | error e => exact hfail e hr

/-- A call whose outcome is known to satisfy one postcondition, followed by
    another call. -/
theorem Ends.call {x : Fallible σ ε β} {P : Except ε β → σ → Prop} (hx : x.Ends s P)
    (hfail : ∀ e s', P (.error e) s' → Q (.error e) s')
    (hok : ∀ b s', P (.ok b) s' → (f b).Ends s' Q) : Ends (x >>= f) s Q := by
  refine Ends.bind (hx.mono ?_)
  intro r s' hr
  cases r with
  | ok b => exact hok b s' hr
  | error e => exact hfail e s' hr

/-- A call whose answer is thrown away. -/
theorem Ends.void {x : Fallible σ ε β} {P : σ → Prop} (hx : x.Ends s fun _ s' => P s') :
    Ends (x >>= fun _ => Pure.pure ()) s fun _ s' => P s' :=
  Ends.call hx (fun _ _ h => h) fun _ _ h => Ends.pure h

theorem Ends.zoom {part : σ → τ} {x : Fallible τ ε' α}
    (h : x.Ends (part s) fun r t' => Q (r.mapError wrap) (put s t')) :
    Ends (Fallible.zoom part put wrap x) s Q :=
  h

variable {part : σ → Option τ}

theorem Ends.within {x : Fallible τ ε α} (hfail : part s = none → Q (.error e) s)
    (hok : ∀ t, part s = some t → x.Ends t fun r t' => Q r (put s t')) :
    Ends (Fallible.within part put e x) s Q := by
  unfold Ends Fallible.within
  rcases hp : part s with _ | t
  · exact hfail hp
  · exact hok t hp

theorem Ends.within_some {x : Fallible τ ε α} {t : τ} (hpart : part s = some t)
    (h : x.Ends t fun r t' => Q r (put s t')) : Ends (Fallible.within part put e x) s Q := by
  unfold Ends Fallible.within
  rw [hpart]
  exact h

theorem Ends.attempt {x : Fallible σ ε β} {Q : Except ε (Except ε β) → σ → Prop}
    (h : x.Ends s fun r s' => Q (.ok r) s') : Ends (Fallible.attempt x) s Q :=
  h

/-- A loop that keeps an invariant, whether it runs to its end or fails. The
    invariant may speak about the elements still to come. -/
theorem Ends.forM {f : γ → Fallible σ ε Unit} {Q : Except ε Unit → σ → Prop} (I : List γ → σ → Prop)
    (l : List γ) (hstep : ∀ a rest s, I (a :: rest) s → (f a).Ends s fun r s' =>
      match r with
      | .ok _ => I rest s'
      | .error e => Q (.error e) s') (hend : ∀ s, I [] s → Q (.ok ()) s) (hstart : I l s) :
    Ends (ForM.forM l f) s Q := by
  induction l generalizing s with
  | nil => exact hend s hstart
  | cons a rest ih =>
    refine Ends.bind ((hstep a rest s hstart).mono ?_)
    intro r s' hr
    cases r with
    | ok _ => exact ih hr
    | error e => exact hr

end Rules

/-- Every outcome of the call, failure included, is related to its start. -/
def Moves (R : σ → σ → Prop) (x : Fallible σ ε α) : Prop :=
  ∀ s, R s (x s).2

section MoveRules

variable {R : σ → σ → Prop}

theorem Moves.get_bind {f : σ → Fallible σ ε α} (hf : ∀ s, (f s).Moves R) :
    Moves R (Fallible.get >>= f) :=
  fun s => hf s s

theorem Moves.modify (h : ∀ s, R s (g s)) : Moves R (Fallible.modify g : Fallible σ ε Unit) :=
  h

theorem Moves.attempt (hx : x.Moves R) : Moves R (Fallible.attempt x) :=
  hx

theorem Moves.ends (h : x.Moves R) (s : σ) : x.Ends s fun _ s' => R s s' :=
  h s

variable [IsPreorder σ R]

theorem Moves.pure (a : α) : Moves R (Pure.pure a : Fallible σ ε α) :=
  refl_of R

theorem Moves.fail (e : ε) : Moves R (Fallible.fail e : Fallible σ ε α) :=
  refl_of R

theorem Moves.require [Decidable c] : Moves R (Fallible.require c e : Fallible σ ε Unit) :=
  fun s => Ends.require (Q := fun _ s' => R s s') (fun _ => refl_of R s) fun _ => refl_of R s

theorem Moves.require_bind [Decidable c] {f : Unit → Fallible σ ε α}
    (hf : c → (f ()).Moves R) : Moves R (Fallible.require c e >>= f) :=
  fun s => Ends.require_bind (Q := fun _ s' => R s s') (fun _ => refl_of R s) fun hc => hf hc s

theorem Moves.expect_bind (hf : ∀ b, o = some b → (f b).Moves R) :
    Moves R (Fallible.expect o e >>= f) :=
  fun s => Ends.expect_bind (Q := fun _ s' => R s s') (fun _ => refl_of R s) fun b hb => hf b hb s

theorem Moves.bind {f : α → Fallible σ ε β} (hx : x.Moves R) (hf : ∀ a, (f a).Moves R) :
    Moves R (x >>= f) :=
  fun s => Ends.call (Q := fun _ s' => R s s') (hx.ends s) (fun _ _ h => h)
    fun a s' h => trans_of R h (hf a s')

theorem Moves.forM {f : γ → Fallible σ ε Unit} (l : List γ) (hf : ∀ a ∈ l, (f a).Moves R) :
    Moves R (ForM.forM l f) := by
  induction l with
  | nil => exact refl_of R
  | cons a rest ih =>
    refine Moves.bind (hf a List.mem_cons_self) fun _ => ih fun b hb => ?_
    exact hf b (List.mem_cons_of_mem a hb)

end MoveRules

/-- Every outcome of the call is related to its start, and a success satisfies a
    postcondition. -/
def Yields (R : σ → σ → Prop) (x : Fallible σ ε α) (s : σ) (P : α → σ → Prop) : Prop :=
  x.Ends s fun r s' => R s s' ∧ ∀ a, r = .ok a → P a s'

section YieldRules

variable {R : σ → σ → Prop} [IsPreorder σ R] {s : σ} {P : α → σ → Prop}

theorem Yields.pure (h : P a s) : Yields R (Pure.pure a : Fallible σ ε α) s P := by
  refine ⟨refl_of R s, fun b hb => ?_⟩
  cases hb
  exact h

theorem Yields.fail (e : ε) : Yields R (Fallible.fail e : Fallible σ ε α) s P :=
  ⟨refl_of R s, fun _ hb => by cases hb⟩

omit [IsPreorder σ R] in
theorem Yields.mono (h : x.Yields R s P) (himp : ∀ a s', R s s' → P a s' → P' a s') :
    x.Yields R s P' :=
  ⟨h.1, fun a ha => himp a _ h.1 (h.2 a ha)⟩

omit [IsPreorder σ R] in
/-- A coarser relation; what the finer one says is part of the postcondition. -/
theorem Yields.coarsen {R' : σ → σ → Prop} (h : x.Yields R s P) (himp : ∀ s', R s s' → R' s s') :
    x.Yields R' s fun a s' => R s s' ∧ P a s' :=
  ⟨himp _ h.1, fun a ha => ⟨h.1, h.2 a ha⟩⟩

omit [IsPreorder σ R] in
theorem Moves.yields (h : x.Moves R) (s : σ) : x.Yields R s fun _ s' => R s s' :=
  ⟨h s, fun _ _ => h s⟩

omit [IsPreorder σ R] in
theorem Yields.modify {P : Unit → σ → Prop} (hR : R s (g s)) (h : P () (g s)) :
    Yields R (Fallible.modify g : Fallible σ ε Unit) s P :=
  ⟨hR, fun _ _ => h⟩

theorem Yields.bind {x : Fallible σ ε β} {Q : β → σ → Prop} (hx : x.Yields R s Q)
    (hf : ∀ b s', R s s' → Q b s' → (f b).Yields R s' P) : Yields R (x >>= f) s P := by
  apply Ends.call hx
  · intro e s' h
    exact ⟨h.1, fun _ hb => by cases hb⟩
  · intro b s' h
    have hrest := hf b s' h.1 (h.2 b rfl)
    exact ⟨trans_of R h.1 hrest.1, hrest.2⟩

omit [IsPreorder σ R] in
theorem Yields.get_bind {f : σ → Fallible σ ε α} (h : (f s).Yields R s P) :
    Yields R (Fallible.get >>= f) s P :=
  Ends.get_bind h

theorem Yields.modify_bind {f : Unit → Fallible σ ε α} (hR : R s (g s))
    (h : (f ()).Yields R (g s) P) : Yields R (Fallible.modify g >>= f) s P :=
  Ends.modify_bind ⟨trans_of R hR h.1, h.2⟩

theorem Yields.require_bind [Decidable c] {f : Unit → Fallible σ ε α}
    (h : c → (f ()).Yields R s P) : Yields R (Fallible.require c e >>= f) s P :=
  Ends.require_bind (fun _ => Yields.fail e) h

theorem Yields.require [Decidable c] {P : Unit → σ → Prop} (h : c → P () s) :
    Yields R (Fallible.require c e : Fallible σ ε Unit) s P :=
  Ends.require (fun _ => Yields.fail e) fun hc => Yields.pure (h hc)

theorem Yields.ofExcept_bind (h : ∀ b, r = .ok b → (f b).Yields R s P) :
    Yields R (Fallible.ofExcept r >>= f) s P :=
  Ends.ofExcept_bind (fun e _ => Yields.fail e) h

theorem Yields.expect_bind (h : ∀ b, o = some b → (f b).Yields R s P) :
    Yields R (Fallible.expect o e >>= f) s P :=
  Ends.expect_bind (fun _ => Yields.fail e) h

theorem Yields.expect {o : Option α} (h : ∀ a, o = some a → P a s) :
    Yields R (Fallible.expect o e : Fallible σ ε α) s P := by
  apply Ends.expect
  · exact fun _ => Yields.fail e
  · exact fun a ha => Yields.pure (h a ha)

end YieldRules

/-- A success satisfies a postcondition. -/
structure Returns (x : Fallible σ ε α) (s : σ) (P : α → σ → Prop) : Prop where
  ends : x.Ends s fun r s' => ∀ a, r = .ok a → P a s'

section ReturnRules

variable {s : σ} {P : α → σ → Prop}

theorem Returns.of_eq (h : x.Returns s P) (hx : x s = (.ok a, s')) : P a s' :=
  Ends.of_eq h.ends hx a rfl

theorem Returns.pure (h : P a s) : Returns (Pure.pure a : Fallible σ ε α) s P := by
  constructor
  intro b hb
  cases hb
  exact h

theorem Returns.fail (e : ε) : Returns (Fallible.fail e : Fallible σ ε α) s P :=
  ⟨fun _ hb => by cases hb⟩

theorem Returns.mono (h : x.Returns s P) (himp : ∀ a s', P a s' → P' a s') : x.Returns s P' :=
  ⟨fun a ha => himp a _ (h.ends a ha)⟩

theorem Returns.bind {x : Fallible σ ε β} {Q : β → σ → Prop} (hx : x.Returns s Q)
    (hf : ∀ b s', Q b s' → (f b).Returns s' P) : Returns (x >>= f) s P := by
  constructor
  apply Ends.call hx.ends
  · intro e s' _ a ha
    cases ha
  · intro b s' h
    exact (hf b s' (h b rfl)).ends

theorem Returns.get_bind {f : σ → Fallible σ ε α} (h : (f s).Returns s P) :
    Returns (Fallible.get >>= f) s P :=
  ⟨Ends.get_bind h.ends⟩

theorem Returns.modify_bind {f : Unit → Fallible σ ε α} (h : (f ()).Returns (g s) P) :
    Returns (Fallible.modify g >>= f) s P :=
  ⟨Ends.modify_bind h.ends⟩

theorem Returns.require_bind [Decidable c] {f : Unit → Fallible σ ε α}
    (h : c → (f ()).Returns s P) : Returns (Fallible.require c e >>= f) s P :=
  ⟨Ends.require_bind (fun _ => (Returns.fail e).ends) fun hc => (h hc).ends⟩

theorem Returns.ofExcept_bind (h : ∀ b, r = .ok b → (f b).Returns s P) :
    Returns (Fallible.ofExcept r >>= f) s P :=
  ⟨Ends.ofExcept_bind (fun e _ => (Returns.fail e).ends) fun b hb => (h b hb).ends⟩

theorem Returns.expect_bind (h : ∀ b, o = some b → (f b).Returns s P) :
    Returns (Fallible.expect o e >>= f) s P :=
  ⟨Ends.expect_bind (fun _ => (Returns.fail e).ends) fun b hb => (h b hb).ends⟩

/-- A fold, with an invariant over what is still to come. -/
theorem Returns.foldlM {f : β → γ → Fallible σ ε β} (I : List γ → β → σ → Prop)
    (hstep : ∀ a rest b s, I (a :: rest) b s → (f b a).Returns s (I rest)) {l : List γ}
    (h : I l b s) : (l.foldlM f b).Returns s (I []) := by
  induction l generalizing b s with
  | nil => exact Returns.pure h
  | cons a rest ih =>
    rw [List.foldlM_cons]
    exact Returns.bind (hstep a rest b s h) fun b' s' h' => ih h'

end ReturnRules

end Fallible

end Pepper
