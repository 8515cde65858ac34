import Pepper.Theory.Namespace.Intents

/-!
# Retention Policies

What a larger retention policy protects.

A revision is retained by its number or by its age. The first bound falls as
more revisions are kept. The second one is a time of the last commit less an
age that is cast from an unsigned to a signed word. It falls as the age grows
on either side of `2 ^ 63`; an age that passes it becomes negative, and the
bound is then in the future.

## Main definitions

* `withRetention`: A state under another policy.
* `RetentionPolicy.Raised`: A larger policy.
* `distantState`: A state that an age alone protects.

## Theorems

* `retained_mono`: A revision stays retained under lower bounds.
* `protectedRoots_subset`: A raise on one side of `2 ^ 63` protects no less.
* `protectedRoots_withRetention`: Which raises do.
-/

namespace Pepper

namespace Namespace

open Merkle

variable {D : Type} (enc : NamespaceEncoding D) {state : NamespaceState D}
  {policy : RetentionPolicy}

/-- A state under another policy. -/
def withRetention (state : NamespaceState D) (policy : RetentionPolicy) :
    NamespaceState D :=
  { state with descriptor := { state.descriptor with retention := policy } }

theorem retained_mono {first first' : Nat} {cutoff cutoff' : Option Int}
    {record : RevisionRecord D} (hfirst : first' ≤ first)
    (hcut : ∀ c ∈ cutoff, ∃ c' ∈ cutoff', c' ≤ c) (h : retained first cutoff record = true) :
    retained first' cutoff' record = true := by
  simp only [retained, Bool.or_eq_true, decide_eq_true_eq, Option.any_eq_true] at h ⊢
  rcases h with h | ⟨c, hc, h⟩
  · exact .inl (hfirst.trans h)
  · rcases hcut c hc with ⟨c', hc', hle⟩
    exact .inr ⟨c', hc', hle.trans h⟩

/-- A policy that asks for no less than another one, within the widths of its
    fields. -/
structure RetentionPolicy.Raised (policy raised : RetentionPolicy) : Prop where
  last : policy.keepLast ≤ raised.keepLast
  age : ∀ age ∈ policy.maxAgeSeconds, ∃ age' ∈ raised.maxAgeSeconds, age ≤ age'
  lastWidth : raised.keepLast < 2 ^ 32
  ageWidth : ∀ age ∈ raised.maxAgeSeconds, age < 2 ^ 64

/-- The cast is monotone on either side of `2 ^ 63`. -/
theorem saturatingSubI64_asI64_anti (time : Int) {age age' : Nat} (hle : age ≤ age')
    (hwidth : age' < 2 ^ 64) (hside : age < 2 ^ 63 → age' < 2 ^ 63) :
    saturatingSubI64 time (asI64 age') ≤ saturatingSubI64 time (asI64 age) := by
  unfold saturatingSubI64 asI64
  omega

/-- A raise on one side of `2 ^ 63` protects no less. -/
theorem protectedRoots_subset {key : String}
    (hraise : state.descriptor.retention.Raised policy)
    (hside : ∀ age ∈ state.descriptor.retention.maxAgeSeconds, ∀ age' ∈ policy.maxAgeSeconds,
      age < 2 ^ 63 → age' < 2 ^ 63)
    (h : key ∈ protectedRoots enc state) :
    key ∈ protectedRoots enc (withRetention state policy) := by
  have hfirst : firstRetained (withRetention state policy) ≤ firstRetained state :=
    Nat.sub_le_sub_left hraise.last _
  have hcut : ∀ c ∈ retentionCutoff state,
      ∃ c' ∈ retentionCutoff (withRetention state policy), c' ≤ c := by
    intro c hc
    rcases Option.map_eq_some_iff.mp hc with ⟨age, hmem, rfl⟩
    rcases hraise.age age hmem with ⟨age', hmem', hle⟩
    exact ⟨_, Option.map_eq_some_iff.mpr ⟨age', hmem', rfl⟩,
      saturatingSubI64_asI64_anti _ hle (hraise.ageWidth age' hmem')
        (hside age hmem age' hmem')⟩
  rcases (mem_protectedRoots enc).mp h with ⟨cid, hheld, rfl⟩
  rw [text_mem_protectedRoots]
  cases hheld with
  | head h => exact .head h
  | revision revision record hrecord hkept h =>
    exact .revision revision record hrecord (retained_mono hfirst hcut hkept) h
  | snapshot name snapshot hsnapshot h => exact .snapshot name snapshot hsnapshot h

/-- A first revision, and a current one that is further on than the policy counts
    back, of the same time. -/
def distantState (descriptor : NamespaceDescriptor D) (digest : D) (keepLast : Nat) :
    NamespaceState D where
  namespaceId := ⟨⟨codecNamespaceDescriptor, digest⟩⟩
  descriptor := descriptor
  currentRevision := keepLast + 1
  currentRootCid := ⟨codecMerkleNode, digest⟩
  headCommitCid := none
  history := ((∅ : BTreeMap Nat (RevisionRecord D)).insert 0
    ⟨0, ⟨codecRaw, digest⟩, none, 0⟩).insert (keepLast + 1)
      ⟨keepLast + 1, ⟨codecMerkleNode, digest⟩, none, 0⟩
  namedSnapshots := ∅
  idempotency := ∅

theorem distantState_history (descriptor : NamespaceDescriptor D) (digest : D) {keepLast revision}
    {record : RevisionRecord D} :
    (distantState descriptor digest keepLast).history[revision]? = some record ↔
      revision = keepLast + 1 ∧
          record = ⟨keepLast + 1, ⟨codecMerkleNode, digest⟩, none, 0⟩ ∨
        revision = 0 ∧ record = ⟨0, ⟨codecRaw, digest⟩, none, 0⟩ := by
  simp only [distantState, Std.ExtTreeMap.getElem?_insert, compare_eq_iff_eq]
  grind

variable {descriptor : NamespaceDescriptor D} {age age' : Nat}

/-- The first revision is kept by its age alone, and by nothing once the cast has
    made the age negative. -/
theorem distantState_loses (digest : D) (hage : age ∈ descriptor.retention.maxAgeSeconds)
    (hage' : age' ∈ policy.maxAgeSeconds) (hlow : age < 2 ^ 63) (hhigh : 2 ^ 63 ≤ age')
    (hwidth : age' < 2 ^ 64) (hlast : policy.keepLast < 2 ^ 32) :
    Held (distantState descriptor digest policy.keepLast) ⟨codecRaw, digest⟩ ∧
      ¬ Held (withRetention (distantState descriptor digest policy.keepLast) policy)
        ⟨codecRaw, digest⟩ := by
  constructor
  · refine .revision 0 _ ((distantState_history _ _).mpr (.inr ⟨rfl, rfl⟩)) ?_ (.inl rfl)
    simp only [retained, Bool.or_eq_true, decide_eq_true_eq, Option.any_eq_true]
    refine .inr ⟨_, Option.map_eq_some_iff.mpr ⟨age, hage, rfl⟩, ?_⟩
    simp [distantState, saturatingSubI64, asI64]
    omega
  · intro hheld
    cases hheld with
    | head h => rcases h with h | h <;> cases h
    | revision revision record hrecord hkept h =>
      rcases (distantState_history _ _).mp hrecord with ⟨-, rfl⟩ | ⟨-, rfl⟩
      · rcases h with h | h <;> cases h
      · simp only [retained, Bool.or_eq_true, decide_eq_true_eq, Option.any_eq_true] at hkept
        rcases hkept with hnumber | ⟨cutoff, hcutoff, htime⟩
        · simp [firstRetained, withRetention, distantState, saturatingAdd, u64Max] at hnumber
          omega
        · rcases Option.map_eq_some_iff.mp hcutoff with ⟨_, hfound, rfl⟩
          cases Option.mem_unique hage' hfound
          simp [withRetention, distantState, saturatingSubI64, asI64] at htime
          omega
    | snapshot name snapshot hsnapshot h => simp [withRetention, distantState] at hsnapshot

/-- For a descriptor and a raise of its retention, no state loses a root exactly
    if the age does not pass `2 ^ 63`. -/
theorem protectedRoots_withRetention [Nonempty D] (descriptor : NamespaceDescriptor D)
    (hraise : descriptor.retention.Raised policy) :
    (∀ state : NamespaceState D, state.descriptor = descriptor →
        ∀ key ∈ protectedRoots enc state, key ∈ protectedRoots enc (withRetention state policy)) ↔
      ∀ age ∈ descriptor.retention.maxAgeSeconds, ∀ age' ∈ policy.maxAgeSeconds,
        age < 2 ^ 63 → age' < 2 ^ 63 := by
  constructor
  · intro hkeeps age hage age' hage' hlow
    by_contra hhigh
    obtain ⟨digest⟩ := ‹Nonempty D›
    have hloses := distantState_loses digest hage hage' hlow (by omega)
      (hraise.ageWidth age' hage') hraise.lastWidth
    have hkept := hkeeps _ rfl _ ((text_mem_protectedRoots enc).mpr hloses.1)
    exact hloses.2 ((text_mem_protectedRoots enc).mp hkept)
  · intro hside state hstate key hkey
    subst hstate
    exact protectedRoots_subset enc hraise hside hkey

/-! ## Runs of a machine -/

/-- A namespace that keeps one revision, and each for ten seconds. -/
def agedDescriptor : NamespaceDescriptor Bytes :=
  { plainDescriptor 1 with retention := ⟨1, some 10⟩ }

/-- Its machine after the creation. -/
def agedStart : Running (List (Codec × Bytes)) Bytes :=
  ⟨(createNamespace plainNamespaceEncoding (blockList plainHashing) {} {} agedDescriptor []).2,
    initialState
      ⟨plainHashing.cid codecNamespaceDescriptor (descriptorWire.write agedDescriptor)⟩
      agedDescriptor (treeCid shortEncoding [] Radix.empty)⟩

/-- Its state after a commit, the empty tree being that of the first revision. -/
def agedState : NamespaceState Bytes :=
  ((plainMachine {}).step agedStart (plainEnvelope "a" (.applyTransaction
    ⟨0, treeCid shortEncoding [] Radix.empty, [.put "01" ⟨codecRaw, []⟩ "o" ∅ .any], none⟩))).state

/-- The first revision is still protected under twice the age. -/
theorem protectedRoots_withRetention_twice :
    plainText (treeCid shortEncoding [] Radix.empty) ∈
      protectedRoots plainNamespaceEncoding (withRetention agedState ⟨1, some 20⟩) := by
  have hraise : agedState.descriptor.retention.Raised ⟨1, some 20⟩ :=
    ⟨by decide +kernel, by decide +kernel, by decide, by decide⟩
  exact (protectedRoots_withRetention plainNamespaceEncoding _ hraise).mpr
    (by decide +kernel) _ rfl _ (by decide +kernel)

/-- The first revision is no longer protected under an age that the cast makes
    negative. -/
theorem protectedRoots_lost_under_long_age :
    (createNamespace plainNamespaceEncoding (blockList plainHashing) {} {} agedDescriptor []).1.map
      (·.state) = .ok agedStart.state ∧
    ({ agedDescriptor with retention := ⟨1, some (2 ^ 63)⟩ } : NamespaceDescriptor Bytes).validate
      {} = .ok () ∧
    plainText (treeCid shortEncoding [] Radix.empty) ∈
      protectedRoots plainNamespaceEncoding agedState ∧
    plainText (treeCid shortEncoding [] Radix.empty) ∉
      protectedRoots plainNamespaceEncoding (withRetention agedState ⟨1, some (2 ^ 63)⟩) := by
  decide +kernel

end Namespace

end Pepper
