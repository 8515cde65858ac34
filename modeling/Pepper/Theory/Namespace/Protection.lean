import Pepper.Theory.Namespace.Steps

/-!
# Protected Roots

What the protected roots of a state are, and what the pin intents of a step do
to a set of pins.

The map of protected roots is filled in three rounds, and a later round may
overwrite the reason of an earlier one. For membership the order does not
matter: an identifier is in the map exactly when it has one of the roles. The
intents of a step are the difference of two such maps, at most one for each
identifier, so applying them to the first set gives the second in any order.

## Main definitions

* `Held`: The roles for which an identifier is protected.
* `protectedCids`: The protected identifiers of a state.
* `applyIntents`: A set of pins after a list of intents.

## Theorems

* `mem_protectedCids`: The protected identifiers are those that are held.
* `mem_diffPinIntents`: Which intents a difference has.
* `applyIntents_diff`: The intents of a step take the old set to the new one.
-/

namespace Pepper

namespace Namespace

open Merkle List

variable {Digest : Type} (enc : NamespaceEncoding Digest)

/-! ## The map -/

/-- An identifier is one of a root and the commit that made it. -/
def OneOf (cid root : Cid Digest) (commit : Option (Cid Digest)) : Prop :=
  cid = root ∨ commit = some cid

/-- A role for which an identifier is protected: as the head, as a retained
    revision, or as a named snapshot. -/
inductive Held (state : NamespaceState Digest) (cid : Cid Digest) : Prop
  | head (h : OneOf cid state.currentRootCid state.headCommitCid)
  | revision (revision : Nat) (record : RevisionRecord Digest)
      (hrecord : state.history[revision]? = some record)
      (hretained : retained (firstRetained state) (retentionCutoff state) record = true)
      (h : OneOf cid record.rootCid record.commitCid)
  | snapshot (name : String) (snapshot : NamedSnapshot Digest)
      (hsnapshot : state.namedSnapshots[name]? = some snapshot)
      (h : OneOf cid snapshot.rootCid snapshot.commitCid)

/-- Every key of the map is the text of an identifier. -/
def Texts (roots : Protected) : Prop :=
  ∀ key ∈ roots, ∃ cid, key = enc.text cid

variable {key : String} {action : PinAction}

theorem mem_protectPair {rootReason commitReason : String} {root : Cid Digest}
    {commit : Option (Cid Digest)} {roots : Protected} :
    key ∈ protectPair enc rootReason commitReason root commit roots ↔
      (∃ cid, OneOf cid root commit ∧ key = enc.text cid) ∨ key ∈ roots := by
  cases commit with
  | none =>
    simp only [protectPair, Std.ExtTreeMap.mem_insert, Std.LawfulEqCmp.compare_eq_iff_eq, OneOf,
      reduceCtorEq, or_false, exists_eq_left]
    rw [eq_comm]
  | some commit =>
    simp only [protectPair, Std.ExtTreeMap.mem_insert, Std.LawfulEqCmp.compare_eq_iff_eq, OneOf,
      Option.some.injEq]
    constructor
    · rintro (h | h | h)
      · exact .inl ⟨commit, .inr rfl, h.symm⟩
      · exact .inl ⟨root, .inl rfl, h.symm⟩
      · exact .inr h
    · rintro (⟨cid, rfl | rfl, h⟩ | h)
      · exact .inr (.inl h.symm)
      · exact .inl h.symm
      · exact .inr (.inr h)

/-- A round over a list, each element of which may protect a pair. -/
theorem mem_foldl_protect {α : Type} (f : Protected → α → Protected) (P : α → String → Prop)
    (hf : ∀ roots a key, key ∈ f roots a ↔ P a key ∨ key ∈ roots) (l : List α) (roots : Protected)
    (key : String) : key ∈ l.foldl f roots ↔ (∃ a ∈ l, P a key) ∨ key ∈ roots := by
  induction l generalizing roots with
  | nil => simp
  | cons a l ih =>
    rw [foldl_cons, ih, hf]
    simp only [mem_cons, exists_eq_or_imp]
    rw [or_left_comm, or_assoc]

variable {state : NamespaceState Digest} {cid : Cid Digest} {intent : PinIntent Digest}

/-- The keys of the map are the texts of what is held. -/
theorem mem_protectedRoots :
    key ∈ protectedRoots enc state ↔ ∃ cid, Held state cid ∧ key = enc.text cid := by
  rw [protectedRoots, mem_foldl_protect _ (fun (snapshot : NamedSnapshot Digest) key =>
      ∃ cid, OneOf cid snapshot.rootCid snapshot.commitCid ∧ key = enc.text cid)
      (fun _ _ _ => mem_protectPair enc),
    mem_foldl_protect _ (fun (record : RevisionRecord Digest) key =>
      retained (firstRetained state) (retentionCutoff state) record = true ∧
        ∃ cid, OneOf cid record.rootCid record.commitCid ∧ key = enc.text cid), mem_protectPair]
  · constructor
    · rintro (⟨snapshot, hmem, cid, h, rfl⟩ | ⟨record, hmem, hretained, cid, h, rfl⟩ |
        ⟨cid, h, rfl⟩ | h)
      · rcases mem_values_iff.mp hmem with ⟨name, hname⟩
        exact ⟨cid, .snapshot name snapshot hname h, rfl⟩
      · rcases mem_values_iff.mp hmem with ⟨revision, hrev⟩
        exact ⟨cid, .revision revision record hrev hretained h, rfl⟩
      · exact ⟨cid, .head h, rfl⟩
      · exact absurd h Std.ExtTreeMap.not_mem_empty
    · rintro ⟨cid, hheld, rfl⟩
      cases hheld with
      | head h => exact .inr (.inr (.inl ⟨cid, h, rfl⟩))
      | revision revision record hrecord hretained h =>
        exact .inr (.inl ⟨record, mem_values_iff.mpr ⟨revision, hrecord⟩, hretained, cid, h, rfl⟩)
      | snapshot name snapshot hsnapshot h =>
        exact .inl ⟨snapshot, mem_values_iff.mpr ⟨name, hsnapshot⟩, cid, h, rfl⟩
  · intro roots record key
    by_cases hretained : retained (firstRetained state) (retentionCutoff state) record = true
    · simp only [hretained, if_true, true_and]
      exact mem_protectPair enc
    · simp only [hretained, if_false, false_and, false_or, Bool.false_eq_true]

theorem texts_protectedRoots (state : NamespaceState Digest) :
    Texts enc (protectedRoots enc state) := by
  intro key hkey
  rcases (mem_protectedRoots enc).mp hkey with ⟨cid, _, h⟩
  exact ⟨cid, h⟩

theorem text_mem_protectedRoots : enc.text cid ∈ protectedRoots enc state ↔ Held state cid := by
  rw [mem_protectedRoots]
  constructor
  · rintro ⟨cid', h, htext⟩
    rw [enc.text_injective htext]
    exact h
  · exact fun h => ⟨cid, h, rfl⟩

/-! ## Differences -/

theorem mem_missingIntents {these others : Protected} (hthese : Texts enc these) :
    intent ∈ missingIntents enc action these others ↔
      intent.action = action ∧ these[enc.text intent.cid]? = some intent.reason ∧
        enc.text intent.cid ∉ others := by
  simp only [missingIntents, mem_filterMap, Prod.exists,
    Std.ExtTreeMap.mem_toList_iff_getElem?_eq_some]
  constructor
  · rintro ⟨key, reason, hkey, hintent⟩
    by_cases hothers : key ∈ others
    · rw [if_pos hothers] at hintent
      cases hintent
    · rw [if_neg hothers] at hintent
      rcases hthese key (mem_iff_exists.mpr ⟨_, hkey⟩) with
        ⟨cid, rfl⟩
      rw [enc.parse_text, Option.map_some, Option.some.injEq] at hintent
      subst hintent
      exact ⟨rfl, hkey, hothers⟩
  · rintro ⟨rfl, hkey, hothers⟩
    refine ⟨_, _, hkey, ?_⟩
    rw [if_neg hothers, enc.parse_text]
    rfl

/-- The intents of a difference: a protection for what is new, with the reason
    it has now, and a release for what is gone, with the reason it had. -/
theorem mem_diffPinIntents {before after : Protected} (hbef : Texts enc before)
    (haft : Texts enc after) :
    intent ∈ diffPinIntents enc before after ↔
      (intent.action = .protect ∧ after[enc.text intent.cid]? = some intent.reason ∧
        enc.text intent.cid ∉ before) ∨
      (intent.action = .release ∧ before[enc.text intent.cid]? = some intent.reason ∧
        enc.text intent.cid ∉ after) := by
  rw [diffPinIntents, mem_insertionSort, mem_append, mem_missingIntents enc haft,
    mem_missingIntents enc hbef]

/-! ## Sets of pins -/

variable [DecidableEq Digest]

/-- The protected identifiers of a state. -/
def protectedCids (state : NamespaceState Digest) : Finset (Cid Digest) :=
  ((protectedRoots enc state).keys.filterMap enc.parse).toFinset

theorem mem_protectedCids : cid ∈ protectedCids enc state ↔ Held state cid := by
  simp only [protectedCids, mem_toFinset, mem_filterMap, Std.ExtTreeMap.mem_keys]
  constructor
  · rintro ⟨key, hkey, hparse⟩
    rcases (mem_protectedRoots enc).mp hkey with ⟨cid', hheld, rfl⟩
    rw [enc.parse_text, Option.some.injEq] at hparse
    rwa [← hparse]
  · intro h
    exact ⟨enc.text cid, (text_mem_protectedRoots enc).mpr h, enc.parse_text cid⟩

omit enc in
/-- A protection adds an identifier and a release takes it away. -/
def applyIntent (pins : Finset (Cid Digest)) (intent : PinIntent Digest) : Finset (Cid Digest) :=
  match intent.action with
  | .protect => insert intent.cid pins
  | .release => pins.erase intent.cid

omit enc in
/-- A set of pins after a list of intents. -/
def applyIntents (pins : Finset (Cid Digest)) (intents : List (PinIntent Digest)) :
    Finset (Cid Digest) :=
  intents.foldl applyIntent pins

omit enc in
theorem mem_applyIntent {pins : Finset (Cid Digest)} : cid ∈ applyIntent pins intent ↔
      if intent.cid = cid then intent.action = .protect else cid ∈ pins := by
  by_cases hcid : intent.cid = cid
  · rw [if_pos hcid, applyIntent, ← hcid]
    cases intent.action <;> simp
  · rw [if_neg hcid, applyIntent]
    cases intent.action <;> simp [Ne.symm hcid]

omit enc in
/-- When all intents for an identifier agree, they decide. -/
theorem mem_applyIntents {intents : List (PinIntent Digest)}
    (h : ∀ intent ∈ intents, intent.cid = cid → intent.action = action)
    (pins : Finset (Cid Digest)) :
    cid ∈ applyIntents pins intents ↔
      if ∃ intent ∈ intents, intent.cid = cid then action = .protect else cid ∈ pins := by
  induction intents generalizing pins with
  | nil => simp [applyIntents]
  | cons intent intents ih =>
    have hrest := ih (fun i hi => h i (mem_cons_of_mem _ hi)) (applyIntent pins intent)
    rw [applyIntents, foldl_cons]
    rw [applyIntents] at hrest
    rw [hrest]
    by_cases hlater : ∃ i ∈ intents, i.cid = cid
    · have hsome : ∃ i ∈ intent :: intents, i.cid = cid := by
        rcases hlater with ⟨i, hi, hcid⟩
        exact ⟨i, mem_cons_of_mem _ hi, hcid⟩
      rw [if_pos hlater, if_pos hsome]
    · rw [if_neg hlater, mem_applyIntent]
      by_cases hcid : intent.cid = cid
      · rw [if_pos hcid, if_pos ⟨intent, mem_cons_self, hcid⟩, h intent mem_cons_self hcid]
      · have hnone : ¬ ∃ i ∈ intent :: intents, i.cid = cid := by
          rintro ⟨i, hi, hi'⟩
          rcases mem_cons.mp hi with rfl | hi
          · exact hcid hi'
          · exact hlater ⟨i, hi, hi'⟩
        rw [if_neg hcid, if_neg hnone]

/-- The intents of a step take the protected identifiers of the state before to
    those of the state after. -/
theorem applyIntents_diff (state next : NamespaceState Digest) :
    applyIntents (protectedCids enc state)
      (diffPinIntents enc (protectedRoots enc state) (protectedRoots enc next)) =
      protectedCids enc next := by
  ext cid
  have hmem : ∀ intent : PinIntent Digest, intent ∈ diffPinIntents enc (protectedRoots enc state)
      (protectedRoots enc next) ↔ _ := fun intent =>
    mem_diffPinIntents enc (texts_protectedRoots enc state) (texts_protectedRoots enc next)
  rw [mem_protectedCids]
  by_cases haft : Held next cid
  · -- Whatever the intents say about the identifier, they protect it.
    have hprotect : ∀ intent ∈ diffPinIntents enc (protectedRoots enc state)
        (protectedRoots enc next), intent.cid = cid → intent.action = .protect := by
      intro intent hintent hcid
      rcases (hmem intent).mp hintent with ⟨haction, _, _⟩ | ⟨_, _, hout⟩
      · exact haction
      · rw [hcid, text_mem_protectedRoots] at hout
        exact absurd haft hout
    rw [mem_applyIntents hprotect, mem_protectedCids]
    by_cases hbef : Held state cid
    · simp [haft, hbef]
    · have hin := (text_mem_protectedRoots enc).mpr haft
      rw [mem_iff_exists] at hin
      rcases hin with ⟨reason, hreason⟩
      rw [← text_mem_protectedRoots enc] at hbef
      rw [if_pos ⟨⟨cid, .protect, reason⟩, (hmem _).mpr (.inl ⟨rfl, hreason, hbef⟩), rfl⟩]
      simp [haft]
  · have hrelease : ∀ intent ∈ diffPinIntents enc (protectedRoots enc state)
        (protectedRoots enc next), intent.cid = cid → intent.action = .release := by
      intro intent hintent hcid
      rcases (hmem intent).mp hintent with ⟨_, hin, _⟩ | ⟨haction, _, _⟩
      · rw [hcid] at hin
        have hin' : enc.text cid ∈ protectedRoots enc next :=
          mem_iff_exists.mpr ⟨_, hin⟩
        exact absurd ((text_mem_protectedRoots enc).mp hin') haft
      · exact haction
    rw [mem_applyIntents hrelease, mem_protectedCids]
    by_cases hbef : Held state cid
    · have hin := (text_mem_protectedRoots enc).mpr hbef
      rw [mem_iff_exists] at hin
      rcases hin with ⟨reason, hreason⟩
      rw [← text_mem_protectedRoots enc] at haft
      rw [if_pos ⟨⟨cid, .release, reason⟩, (hmem _).mpr (.inr ⟨rfl, hreason, haft⟩), rfl⟩]
      simpa [text_mem_protectedRoots] using haft
    · simp [haft, hbef]

end Namespace

end Pepper
