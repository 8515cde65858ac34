import Pepper.Base.Runs
import Pepper.Core.Buffer

/-!
# Lengths and Slices of Buffer Chains

The totals of a chain are the sums over its segments as long as no segment is
refused for its logical length: such a segment has been counted in the other
total by then. A slice gives the logical length of its bytes to a segment that it
cuts, so it can be longer than the chain. Whether a slice succeeds is decided by
the sum of the lengths that its parts get.

## Main definitions

* `Totals`: The totals are those of the segments.
* `partsSum`: The logical length of what a slice collects.
* `pushStep`, `Admissible`: The pushes and their guard.

## Theorems

* `pushStep_totals`: One push.
* `sliceSegments_ends`: What the loop of a slice collects.
* `chain_slices`: Chains that were built by pushes.
-/

namespace Pepper

namespace Buffer

open Fallible List

variable {chain : BufferChain} {segment : OwnedBuffer}

def encodedSum (segments : List OwnedBuffer) : Nat :=
  (segments.map (·.encodedLen)).sum

def logicalSum (segments : List OwnedBuffer) : Nat :=
  (segments.map (·.logicalLen)).sum

/-- The totals are those of the segments, and the first one is a machine word. -/
structure Totals (chain : BufferChain) : Prop where
  encoded : chain.encodedLen = encodedSum chain.segments
  logical : chain.logicalLen = logicalSum chain.segments
  bounded : chain.encodedLen < 2 ^ 64

/-- The chain with one more segment, as a push makes it. -/
def pushed (chain : BufferChain) (segment : OwnedBuffer) : BufferChain :=
  ⟨chain.segments ++ [segment], chain.encodedLen + segment.encodedLen,
    chain.logicalLen + segment.logicalLen⟩

theorem Totals.pushed (h : Totals chain) {segment : OwnedBuffer}
    (hencoded : chain.encodedLen + segment.encodedLen < 2 ^ 64) :
    Totals (pushed chain segment) := by
  refine ⟨?_, ?_, hencoded⟩
  · simp [Buffer.pushed, encodedSum, h.encoded]
  · simp [Buffer.pushed, logicalSum, h.logical]

/-- What a push does: it adds the segment, or the first total only, or nothing. -/
theorem push_ends : (push segment).Ends chain fun r chain' =>
    2 ^ 64 ≤ chain.encodedLen + segment.encodedLen ∧ r = .error .lengthOverflow ∧ chain' = chain ∨
    chain.encodedLen + segment.encodedLen < 2 ^ 64 ∧
      (2 ^ 64 ≤ chain.logicalLen + segment.logicalLen ∧ r = .error .lengthOverflow ∧
          chain' = { chain with encodedLen := chain.encodedLen + segment.encodedLen } ∨
        chain.logicalLen + segment.logicalLen < 2 ^ 64 ∧ r = .ok () ∧
          chain' = pushed chain segment) := by
  unfold push
  refine Ends.get_bind (Ends.require_bind ?_ ?_)
  · exact fun hover => .inl ⟨Nat.le_of_not_lt hover, rfl, rfl⟩
  · intro hencoded
    refine Ends.modify_bind (Ends.require_bind ?_ ?_)
    · exact fun hover => .inr ⟨hencoded, .inl ⟨Nat.le_of_not_lt hover, rfl, rfl⟩⟩
    · exact fun hlogical => Ends.modify (.inr ⟨hencoded, .inr ⟨hlogical, rfl, rfl⟩⟩)

/-! ## Slices -/

/-- The part of a concatenation between two positions, which are counted from a
    cursor before it. -/
theorem take_drop_append (a b : List UInt8) (start stop cursor : Nat) :
    ((a ++ b).drop (start - cursor)).take (stop - max start cursor) =
      (a.drop (start - cursor)).take (min stop (cursor + a.length) - max start cursor) ++
        (b.drop (start - (cursor + a.length))).take (stop - max start (cursor + a.length)) := by
  rw [drop_append, take_append, length_drop]
  congr 1
  · rw [take_eq_take_iff, length_drop]
    omega
  · rw [Nat.sub_sub start]
    congr 1
    omega

/-- The logical length of the part of a segment between the positions. Only a
    whole segment keeps its own. -/
def partLen (start stop cursor : Nat) (segment : OwnedBuffer) : Nat :=
  if max start cursor < min stop (cursor + segment.encodedLen) then
    if min stop (cursor + segment.encodedLen) - max start cursor = segment.encodedLen then
      segment.logicalLen
    else min stop (cursor + segment.encodedLen) - max start cursor
  else 0

def partsSum (start stop : Nat) : Nat → List OwnedBuffer → Nat
  | _, [] => 0
  | cursor, segment :: rest =>
    partLen start stop cursor segment + partsSum start stop (cursor + segment.encodedLen) rest

/-- Nothing is taken of segments behind the second position. -/
theorem partsSum_of_le {start stop cursor : Nat} (segments : List OwnedBuffer)
    (h : stop ≤ cursor) : partsSum start stop cursor segments = 0 := by
  induction segments generalizing cursor with
  | nil => rfl
  | cons segment rest ih =>
    rw [partsSum, partLen, if_neg (by omega), ih (by omega)]

theorem pushOverlap_ends (start stop cursor : Nat)
    (hencoded : chain.encodedLen + segment.encodedLen < 2 ^ 64)
    (hword : chain.logicalLen < 2 ^ 64) :
    (pushOverlap start stop cursor segment).Ends chain fun r chain' =>
      2 ^ 64 ≤ chain.logicalLen + partLen start stop cursor segment ∧ r = .error .lengthOverflow ∨
      (chain'.logicalLen < 2 ^ 64 ∧ r = .ok ()) ∧
        chain'.bytes = chain.bytes ++ (segment.bytes.drop (start - cursor)).take
          (min stop (cursor + segment.encodedLen) - max start cursor) ∧
        chain'.encodedLen ≤ chain.encodedLen + segment.encodedLen ∧
        chain'.logicalLen = chain.logicalLen + partLen start stop cursor segment := by
  unfold pushOverlap partLen
  by_cases hoverlap : max start cursor < min stop (cursor + segment.encodedLen)
  · rw [if_pos hoverlap, if_pos hoverlap, OwnedBuffer.slice, if_neg (by omega),
      Nat.sub_sub_sub_cancel_right (le_max_right _ _)]
    -- The part has the logical length of the segment only if it is all of it.
    generalize hpart : (⟨_, _, _⟩ : OwnedBuffer) = part
    have hlength : part.encodedLen = min stop (cursor + segment.encodedLen) - max start cursor := by
      rw [← hpart, OwnedBuffer.encodedLen, length_take, length_drop,
        show segment.bytes.length = segment.encodedLen from rfl]
      omega
    have hlogical : part.logicalLen = if min stop (cursor + segment.encodedLen) -
        max start cursor = segment.encodedLen then segment.logicalLen
        else min stop (cursor + segment.encodedLen) - max start cursor := by
      rw [← hpart]
    rw [← hlogical]
    refine Ends.bind (Ends.pure (push_ends.mono ?_))
    rintro r chain' (⟨hover, _⟩ | ⟨_, ⟨hover, hr, _⟩ | ⟨hfits, hr, rfl⟩⟩)
    · omega
    · exact .inl ⟨hover, hr⟩
    · refine .inr ⟨⟨hfits, hr⟩, ?_, ?_, rfl⟩
      · rw [BufferChain.bytes, pushed, flatMap_append, flatMap_singleton, ← hpart]
        show _ ++ take _ (drop (max start cursor - cursor) _) = _
        rw [show max start cursor - cursor = start - cursor by omega]
        rfl
      · show _ + _ ≤ _
        omega
  · rw [if_neg hoverlap, if_neg hoverlap, Nat.sub_eq_zero_of_le (Nat.le_of_not_lt hoverlap),
      take_zero, append_nil]
    exact Ends.pure (.inr ⟨⟨hword, rfl⟩, rfl, Nat.le_add_right _ _, rfl⟩)

/-- The loop collects the bytes between the positions, unless the logical length of
    the parts overflows. -/
theorem sliceSegments_ends {start stop cursor : Nat} (segments : List OwnedBuffer)
    (hencoded : chain.encodedLen + encodedSum segments < 2 ^ 64)
    (hword : chain.logicalLen < 2 ^ 64) :
    (sliceSegments start stop cursor segments).Ends chain fun r output =>
      2 ^ 64 ≤ chain.logicalLen + partsSum start stop cursor segments ∧
        r = .error .lengthOverflow ∨
      chain.logicalLen + partsSum start stop cursor segments < 2 ^ 64 ∧ r = .ok () ∧
        output.bytes = chain.bytes ++ ((segments.flatMap (·.bytes)).drop (start - cursor)).take
          (stop - max start cursor) := by
  induction segments generalizing cursor chain with
  | nil => exact Ends.pure (.inr ⟨hword, rfl, by simp⟩)
  | cons segment rest ih =>
    have hsum : encodedSum (segment :: rest) = segment.encodedLen + encodedSum rest := rfl
    rw [flatMap_cons, take_drop_append, ← append_assoc, partsSum, ← Nat.add_assoc]
    refine Ends.call (pushOverlap_ends start stop cursor (by omega) hword) ?_ ?_
    · rintro e chain1 (⟨hover, hr⟩ | ⟨⟨_, hr⟩, _⟩)
      · exact .inl ⟨by omega, hr⟩
      · cases hr
    · rintro _ chain1 (⟨_, hr⟩ | ⟨⟨hword1, _⟩, hbytes, hencoded1, hlogical1⟩)
      · cases hr
      · rw [← OwnedBuffer.encodedLen, ← hbytes, ← hlogical1]
        dsimp only
        split
        · -- The loop stops at the second position.
          rename_i hpast
          rw [Nat.sub_eq_zero_of_le (hpast.trans (le_max_right _ _)), take_zero, append_nil,
            partsSum_of_le rest hpast]
          exact Ends.pure (.inr ⟨hword1, rfl, rfl⟩)
        · exact ih (by omega) hword1

/-! ## Chains that were built -/

/-- A push, whatever it answers. -/
def pushStep (chain : BufferChain) (segment : OwnedBuffer) : BufferChain :=
  (push segment chain).2

/-- The segment is not refused for its logical length, or it has no bytes, or its
    bytes are too many and it is refused for them. -/
def Admissible (chain : BufferChain) (segment : OwnedBuffer) : Prop :=
  chain.logicalLen + segment.logicalLen < 2 ^ 64 ∨ segment.encodedLen = 0 ∨
    2 ^ 64 ≤ chain.encodedLen + segment.encodedLen

instance instDecidableAdmissible (chain : BufferChain) (segment : OwnedBuffer) :
    Decidable (Admissible chain segment) :=
  inferInstanceAs (Decidable (_ ∨ _))

theorem pushStep_totals (h : Totals chain) (hsegment : Admissible chain segment) :
    Totals (pushStep chain segment) := by
  unfold pushStep
  have hends : (push segment).Ends chain _ := push_ends
  rcases hends with ⟨_, _, heq⟩ | ⟨hencoded, ⟨hover, _, heq⟩ | ⟨_, _, heq⟩⟩
  · rw [heq]
    exact h
  · -- Nothing was added to the first total either.
    have hempty : segment.encodedLen = 0 := by
      rcases hsegment with hfits | hempty | hover'
      · omega
      · exact hempty
      · omega
    rw [heq, hempty]
    exact h
  · rw [heq]
    exact h.pushed hencoded

/-- The totals of a chain that was built by pushes, and its slices. -/
theorem chain_slices (hrun : Reaches pushStep Admissible {} chain) :
    (chain.encodedLen = encodedSum chain.segments ∧ chain.logicalLen = logicalSum chain.segments) ∧
    ∀ start stop, start ≤ stop → stop ≤ chain.encodedLen →
      ((∃ output, chain.slice start stop = .ok output ∧
          output.bytes = (chain.bytes.drop start).take (stop - start)) ↔
        partsSum start stop 0 chain.segments < 2 ^ 64) := by
  have htotals : Totals chain :=
    hrun.invariant (fun _ _ h hsegment => pushStep_totals h hsegment) ⟨rfl, rfl, by decide⟩
  refine ⟨⟨htotals.encoded, htotals.logical⟩, ?_⟩
  intro start stop hle hstop
  have hencoded : ({} : BufferChain).encodedLen + encodedSum chain.segments < 2 ^ 64 := by
    rw [← htotals.encoded, show ({} : BufferChain).encodedLen = 0 from rfl, Nat.zero_add]
    exact htotals.bounded
  rw [BufferChain.slice, if_neg (by omega)]
  rcases hout : sliceSegments start stop 0 chain.segments {} with ⟨r, output⟩
  rcases (sliceSegments_ends chain.segments hencoded (by decide)).of_eq hout with
    ⟨hover, rfl⟩ | ⟨hfits, rfl, hbytes⟩
  · rw [show ({} : BufferChain).logicalLen = 0 from rfl, Nat.zero_add] at hover
    refine iff_of_false ?_ (Nat.not_lt.mpr hover)
    rintro ⟨output, hok, _⟩
    cases hok
  · rw [show ({} : BufferChain).logicalLen = 0 from rfl, Nat.zero_add] at hfits
    refine iff_of_true ⟨output, rfl, hbytes.trans ?_⟩ hfits
    rw [Nat.sub_zero, Nat.max_zero]
    rfl

/-- The middle of two segments, after one without bytes was refused. -/
theorem chain_slices_two : ∃ output,
    (runOps pushStep {} [⟨[1, 2], 2, none⟩, ⟨[3, 4], 2 ^ 64 - 3, none⟩, ⟨[], 1, none⟩]).slice 1 3 =
        .ok output ∧ output.bytes = [2, 3] :=
  ((chain_slices (reaches_runOps _ _ (by decide))).2 1 3 (by decide) (by decide)).mpr (by decide)

/-- A segment that is refused for its logical length is in one of the totals, and
    a slice can be refused for the logical length of a part. -/
theorem push_counts_refused :
    (push ⟨[2], 1, none⟩ (pushStep {} ⟨[1], 2 ^ 64 - 1, none⟩)).1 = .error .lengthOverflow ∧
    (runOps pushStep {} [⟨[1], 2 ^ 64 - 1, none⟩, ⟨[2], 1, none⟩]).encodedLen = 2 ∧
    (runOps pushStep {} [⟨[1], 2 ^ 64 - 1, none⟩, ⟨[2], 1, none⟩]).segments =
      [⟨[1], 2 ^ 64 - 1, none⟩] ∧
    (runOps pushStep {} [⟨[1, 2], 0, none⟩, ⟨[3], 2 ^ 64 - 1, none⟩]).slice 1 3 =
      .error .lengthOverflow := by
  decide

end Buffer

end Pepper
