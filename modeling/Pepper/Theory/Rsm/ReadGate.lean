import Pepper.Base.Runs
import Pepper.Core.Rsm

/-!
# Coalesced Reads Are Proved

A call of `ensure` that returns `Ok` without a proof of its own relies on the
proof of another call. That proof covers the arrivals that had been counted when
it started, so it started after each of them.

The lock is not needed for this. What counts is the order within one call: the
counter is read before the proof, and the coverage is published after it.

## Main definitions

* `Proved`: A proof lies between an arrival and a later time.
* `Sound`: What holds along every run, given the times of all arrivals.

## Theorems

* `step_sound`: Every step keeps the gate sound.
* `ensure_ok_proved`: The statement about whole runs.
-/

namespace Pepper

namespace LinearizableReadGate

open List

/-- A successful proof started after the one time and ended before the other. -/
def Proved (proofs : List (Nat × Nat)) (arrivedAt before : Nat) : Prop :=
  ∃ p ∈ proofs, arrivedAt < p.1 ∧ p.2 < before

/-- A call has one of the arrivals, and the proof of a call has started after all
    arrivals that it will cover, its own among them. -/
structure CallSound (times : List Nat) (clock : Nat) (call : ReadCall) : Prop where
  arrived : ∃ n, call.arrival = n + 1 ∧ times[n]? = some call.arrivedAt
  proving : ∀ coverThrough started, call.phase = .proving coverThrough started →
    call.arrival ≤ coverThrough ∧ coverThrough ≤ times.length ∧ started < clock ∧
      ∀ t ∈ times.take coverThrough, t < started

structure Sound (g : LinearizableReadGate) (times : List Nat) : Prop where
  arrivals : g.arrivals = times.length
  past : ∀ t ∈ times, t < g.clock
  calls : ∀ (id : Nat) (call : ReadCall), g.calls[id]? = some call → CallSound times g.clock call
  bounded : g.covered ≤ times.length
  covered : ∀ t ∈ times.take g.covered, Proved g.proofs t g.clock
  returned : ∀ r ∈ g.returned, Proved g.proofs r.1 r.2

variable {g : LinearizableReadGate} {times : List Nat} {id : Nat} {call : ReadCall}

theorem Proved.mono {proofs proofs' : List (Nat × Nat)} {arrivedAt before before' : Nat}
    (h : Proved proofs arrivedAt before) (hproofs : proofs ⊆ proofs') (hle : before ≤ before') :
    Proved proofs' arrivedAt before' := by
  rcases h with ⟨p, hp, hstart, hend⟩
  exact ⟨p, hproofs hp, hstart, lt_of_lt_of_le hend hle⟩

theorem CallSound.later {clock clock' : Nat} (h : CallSound times clock call)
    (hle : clock ≤ clock') : CallSound times clock' call := by
  refine ⟨h.arrived, fun coverThrough started hphase => ?_⟩
  rcases h.proving coverThrough started hphase with ⟨hown, hcover, hstarted, hbef⟩
  exact ⟨hown, hcover, lt_of_lt_of_le hstarted hle, hbef⟩

section

variable (h : Sound g times)

include h

/-- A step that changes calls and the lock only. -/
theorem Sound.proceed {calls : BTreeMap Nat ReadCall} {lock : Option Nat}
    (hcalls : ∀ (id : Nat) (call : ReadCall), calls[id]? = some call →
      CallSound times (g.clock + 2) call) :
    Sound { g with calls, lock, clock := g.clock + 2 } times := by
  refine ⟨h.arrivals, fun t ht => ?_, hcalls, h.bounded, fun t ht => ?_, h.returned⟩
  · exact lt_of_lt_of_le (h.past t ht) (Nat.le_add_right _ _)
  · exact (h.covered t ht).mono (List.Subset.refl _) (Nat.le_add_right _ _)

/-- A call goes into another phase. -/
theorem Sound.setPhase {phase : ReadPhase} {lock : Option Nat}
    (hphase : CallSound times (g.clock + 2) { call with phase }) :
    Sound { g with
      calls := g.calls.insert id { call with phase }, lock, clock := g.clock + 2 } times := by
  refine h.proceed fun k other hother => ?_
  rcases getElem?_insert_cases hother with ⟨_, rfl⟩ | ⟨_, hother⟩
  · exact hphase
  · exact (h.calls k other hother).later (Nat.le_add_right _ _)

theorem Sound.leave (id : Nat) : Sound { g.leave id with clock := g.clock + 2 } times := by
  unfold LinearizableReadGate.leave
  refine h.proceed fun k other hother => ?_
  rw [getElem?_erase_eq] at hother
  by_cases hk : id = k
  · rw [if_pos hk] at hother
    cases hother
  · rw [if_neg hk] at hother
    exact (h.calls k other hother).later (Nat.le_add_right _ _)

theorem Sound.stays : Sound { g with clock := g.clock + 2 } times :=
  h.proceed fun k other hother => (h.calls k other hother).later (Nat.le_add_right _ _)

theorem Sound.onCall {f : ReadCall → LinearizableReadGate}
    (hf : ∀ call, g.calls[id]? = some call → Sound { f call with clock := g.clock + 2 } times) :
    Sound { g.calls[id]?.elim g f with clock := g.clock + 2 } times := by
  rcases hcall : g.calls[id]? with _ | call
  · exact h.stays
  · exact hf call hcall

/-- A new arrival is not among those that any proof covers. -/
theorem arrive_sound (id : Nat) :
    ∃ times', Sound { g.arrive id with clock := g.clock + 2 } times' := by
  unfold arrive
  by_cases hid : id ∈ g.calls
  · rw [if_pos hid]
    exact ⟨times, h.stays⟩
  rw [if_neg hid]
  refine ⟨times ++ [g.clock], ?_, ?_, fun k other hother => ?_, ?_, ?_, h.returned⟩
  · rw [length_append, h.arrivals]
    rfl
  · refine forall_mem_concat (fun t ht => ?_) (by simp)
    exact lt_of_lt_of_le (h.past t ht) (Nat.le_add_right _ _)
  · rcases getElem?_insert_cases hother with ⟨_, rfl⟩ | ⟨_, hother⟩
    · refine ⟨⟨times.length, by rw [h.arrivals], getElem?_concat_length⟩, by simp⟩
    · have hcall := h.calls k other hother
      rcases hcall.arrived with ⟨n, hn, ht⟩
      refine ⟨⟨n, hn, ?_⟩, fun coverThrough started hphase => ?_⟩
      · rw [List.getElem?_append_left (List.getElem?_eq_some_iff.mp ht).1]
        exact ht
      · rcases hcall.proving coverThrough started hphase with ⟨hown, hcover, hstarted, hbef⟩
        refine ⟨hown, ?_, by simp only; omega, ?_⟩
        · rw [length_append]
          omega
        · rw [take_append_of_le_length hcover]
          exact hbef
  · rw [length_append]
    exact le_trans h.bounded (Nat.le_add_right _ _)
  · -- The covered arrivals are a front of the list, and the new one is behind.
    rw [take_append_of_le_length h.bounded]
    intro t ht
    exact (h.covered t ht).mono (List.Subset.refl _) (Nat.le_add_right _ _)

theorem acquire_sound (hcall : g.calls[id]? = some call) :
    Sound { g.acquire id call with clock := g.clock + 2 } times := by
  have hsound := h.calls id call hcall
  rcases hsound.arrived with ⟨n, hn, ht⟩
  unfold acquire
  split
  · exact h.stays
  split
  · -- The arrival is one of those that the last proof has covered.
    next hcovers =>
    have hleft := h.leave id
    refine { hleft with returned := forall_mem_concat h.returned (h.covered _ ?_) }
    exact mem_iff_getElem?.mpr ⟨n, by rw [getElem?_take_of_lt (by omega), ht]⟩
  · exact h.setPhase ⟨hsound.arrived, by simp⟩

theorem prove_sound (hcall : g.calls[id]? = some call) :
    Sound { g.prove id call with clock := g.clock + 2 } times := by
  have hsound := h.calls id call hcall
  unfold prove
  split
  · refine h.setPhase ⟨hsound.arrived, ?_⟩
    rintro _ _ ⟨⟩
    rcases hsound.arrived with ⟨n, hn, ht⟩
    have hlt := (List.getElem?_eq_some_iff.mp ht).1
    rw [h.arrivals]
    exact ⟨by simp only; omega, le_rfl, by omega, fun t ht => h.past t (mem_of_mem_take ht)⟩
  · exact h.stays

theorem finish_sound (hcall : g.calls[id]? = some call) (success : Bool) :
    Sound { g.finish id call success with clock := g.clock + 2 } times := by
  have hsound := h.calls id call hcall
  unfold finish
  split
  · next coverThrough started hphase =>
    rcases hsound.proving coverThrough started hphase with ⟨hown, hcover, hstarted, hbef⟩
    rcases hsound.arrived with ⟨n, hn, ht⟩
    have hleft := h.leave id
    cases success with
    | false => exact hleft
    | true =>
      have hmine : (started, g.clock) ∈ g.proofs ++ [(started, g.clock)] := mem_concat_self
      have hmore : g.proofs ⊆ g.proofs ++ [(started, g.clock)] := subset_append_left _ _
      refine { hleft with
        bounded := hcover
        covered := fun t ht => ⟨_, hmine, hbef t ht, by simp⟩
        returned := forall_mem_concat (fun r hr => (h.returned r hr).mono hmore le_rfl)
          ⟨_, hmine, hbef _ ?_, by simp⟩ }
      exact mem_iff_getElem?.mpr ⟨n, by rw [getElem?_take_of_lt (by omega), ht]⟩
  · exact h.stays

theorem step_sound (s : ReadStep) : ∃ times', Sound (g.step s) times' := by
  cases s with
  | arrive id => exact arrive_sound h id
  | acquire id => exact ⟨times, h.onCall fun _ => acquire_sound h⟩
  | prove id => exact ⟨times, h.onCall fun _ => prove_sound h⟩
  | finish id success => exact ⟨times, h.onCall fun _ hcall => finish_sound h hcall success⟩
  | drop id => exact ⟨times, h.leave id⟩

end

theorem run_sound (steps : List ReadStep) (h : Sound g times) :
    ∃ times', Sound (runOps step g steps) times' := by
  induction steps generalizing g times with
  | nil => exact ⟨times, h⟩
  | cons s steps ih =>
    rcases step_sound h s with ⟨times', h'⟩
    exact ih h'

/-- In every interleaving of calls, a call that has returned `Ok` has a successful
    proof between its arrival and its return. -/
theorem ensure_ok_proved (steps : List ReadStep) : ∀ r ∈ (runOps step new steps).returned,
      ∃ p ∈ (runOps step new steps).proofs, r.1 < p.1 ∧ p.2 < r.2 := by
  have hnew : Sound new [] := by
    refine ⟨rfl, forall_mem_nil _, fun id call hcall => ?_, le_rfl, ?_, forall_mem_nil _⟩
    · simp [new] at hcall
    · rw [take_nil]
      exact forall_mem_nil _
  rcases run_sound steps hnew with ⟨times, h⟩
  exact h.returned

/-- The second of two overlapping reads relies on the proof of the first. -/
theorem overlapping_read_proved :
    let g := runOps step new
      [.arrive 1, .arrive 2, .acquire 1, .prove 1, .finish 1 true, .acquire 2]
    (2, 10) ∈ g.returned ∧ g.proofs.length = 1 ∧ ∃ p ∈ g.proofs, 2 < p.1 ∧ p.2 < 10 :=
  ⟨by decide, by decide, ensure_ok_proved _ (2, 10) (by decide)⟩

end LinearizableReadGate

end Pepper
