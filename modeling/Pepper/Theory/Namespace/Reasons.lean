import Pepper.Theory.Namespace.Protection

/-!
# Reasons

Under which reason an identifier is protected, and how the roles of the
identifiers change with a command.

The map of protected roots is filled in three rounds, so a named snapshot
decides the reason before a retained revision, and a retained revision before
the head. A reason can change while an identifier stays protected, and then
nothing is said about it in the pin intents.

The retention window only moves forward: the number of the revision grows, and
the time of a commit is not before that of the revision it follows.

## Main definitions

* `OneOfReasons`: A reason is one of those of a role.
* `Reason`: A reason of an identifier, with the role that gives it.
* `nextFirst`, `nextCutoff`: The retention window after a commit.

## Theorems

* `reason_of_getElem?`: What the reason in the map is.
* `retained_of_next`: What the next window keeps is kept now.
-/

namespace Pepper

namespace Namespace

open Merkle

variable {Digest : Type}

/-! ## Rounds -/

/-- A reason of a role: that of the root, or that of its commit. -/
def OneOfReasons (rootReason commitReason reason : String) : Prop :=
  reason = rootReason ∨ reason = commitReason

variable {state : NamespaceState Digest}

section Map

variable (enc : NamespaceEncoding Digest)

theorem getElem?_protectPair (rootReason commitReason : String) (root : Cid Digest)
    (commit : Option (Cid Digest)) (roots : Protected) (cid : Cid Digest) :
    (OneOf cid root commit ∧ ∃ reason, OneOfReasons rootReason commitReason reason ∧
      (protectPair enc rootReason commitReason root commit roots)[enc.text cid]? = some reason) ∨
    (¬ OneOf cid root commit ∧
      (protectPair enc rootReason commitReason root commit roots)[enc.text cid]? =
        roots[enc.text cid]?) := by
  have htext : ∀ other, enc.text other = enc.text cid ↔ other = cid := fun other =>
    enc.text_injective.eq_iff
  cases commit with
  | none =>
    simp only [protectPair, getElem?_insert_eq, OneOf, reduceCtorEq, or_false]
    by_cases hroot : root = cid
    · rw [if_pos ((htext root).mpr hroot)]
      exact .inl ⟨hroot.symm, rootReason, .inl rfl, rfl⟩
    · rw [if_neg (mt (htext root).mp hroot)]
      exact .inr ⟨Ne.symm hroot, rfl⟩
  | some commit =>
    simp only [protectPair, getElem?_insert_eq, OneOf, Option.some.injEq]
    by_cases hcommit : commit = cid
    · rw [if_pos ((htext commit).mpr hcommit)]
      exact .inl ⟨.inr hcommit, commitReason, .inr rfl, rfl⟩
    · rw [if_neg (mt (htext commit).mp hcommit)]
      by_cases hroot : root = cid
      · rw [if_pos ((htext root).mpr hroot)]
        exact .inl ⟨.inl hroot.symm, rootReason, .inl rfl, rfl⟩
      · rw [if_neg (mt (htext root).mp hroot)]
        refine .inr ⟨?_, rfl⟩
        rintro (h | h)
        · exact hroot h.symm
        · exact hcommit h

/-- A round over a list: an element that has the identifier decides, and without
    one the value stays. -/
theorem getElem?_foldl_protect {α : Type} (f : Protected → α → Protected) (P : α → Prop)
    (Q : α → String → Prop) (key : String)
    (hf : ∀ roots a, (P a ∧ ∃ reason, Q a reason ∧ (f roots a)[key]? = some reason) ∨
      (¬ P a ∧ (f roots a)[key]? = roots[key]?)) (l : List α) (roots : Protected) :
    (∃ a ∈ l, P a ∧ ∃ reason, Q a reason ∧ (l.foldl f roots)[key]? = some reason) ∨
      ((∀ a ∈ l, ¬ P a) ∧ (l.foldl f roots)[key]? = roots[key]?) := by
  induction l generalizing roots with
  | nil => exact .inr ⟨by simp, rfl⟩
  | cons a l ih =>
    rw [List.foldl_cons]
    rcases ih (f roots a) with ⟨b, hb, hP, hreason⟩ | ⟨hnone, hsame⟩
    · exact .inl ⟨b, List.mem_cons_of_mem _ hb, hP, hreason⟩
    · rcases hf roots a with ⟨hP, reason, hQ, hreason⟩ | ⟨hnot, hkept⟩
      · exact .inl ⟨a, List.mem_cons_self, hP, reason, hQ, hsame.trans hreason⟩
      · refine .inr ⟨?_, hsame.trans hkept⟩
        intro b hb
        rcases List.mem_cons.mp hb with rfl | hb
        · exact hnot
        · exact hnone b hb

/-- A reason of an identifier, with the role that gives it. -/
inductive Reason (state : NamespaceState Digest) (cid : Cid Digest) : String → Prop
  | snapshot (name : String) (snapshot : NamedSnapshot Digest) (reason : String)
      (hsnapshot : state.namedSnapshots[name]? = some snapshot)
      (h : OneOf cid snapshot.rootCid snapshot.commitCid)
      (hreason : OneOfReasons ("named_snapshot:" ++ snapshot.name)
        ("named_snapshot_commit:" ++ snapshot.name) reason) : Reason state cid reason
  | revision (revision : Nat) (record : RevisionRecord Digest) (reason : String)
      (hrecord : state.history[revision]? = some record)
      (hretained : retained (firstRetained state) (retentionCutoff state) record = true)
      (h : OneOf cid record.rootCid record.commitCid)
      (hreason : OneOfReasons ("retained_revision:" ++ toString record.revision)
        ("retained_commit:" ++ toString record.revision) reason) : Reason state cid reason
  | head (reason : String) (h : OneOf cid state.currentRootCid state.headCommitCid)
      (hrevision : ∀ (revision : Nat) record, state.history[revision]? = some record →
        retained (firstRetained state) (retentionCutoff state) record = true →
        ¬ OneOf cid record.rootCid record.commitCid)
      (hreason : OneOfReasons "namespace_head" "namespace_head_commit" reason) :
      Reason state cid reason

/-- The reason in the map is one that a role gives. -/
theorem reason_of_getElem? {cid : Cid Digest} {reason : String}
    (h : (protectedRoots enc state)[enc.text cid]? = some reason) : Reason state cid reason := by
  have hsnapshots : ∀ (roots : Protected) (snapshot : NamedSnapshot Digest), _ :=
    fun roots snapshot => getElem?_protectPair enc ("named_snapshot:" ++ snapshot.name)
      ("named_snapshot_commit:" ++ snapshot.name) snapshot.rootCid snapshot.commitCid roots cid
  have hrevisions : ∀ (roots : Protected) (record : RevisionRecord Digest),
      ((retained (firstRetained state) (retentionCutoff state) record = true ∧
        OneOf cid record.rootCid record.commitCid) ∧
        ∃ reason, OneOfReasons ("retained_revision:" ++ toString record.revision)
          ("retained_commit:" ++ toString record.revision) reason ∧
          (if retained (firstRetained state) (retentionCutoff state) record then
            protectPair enc ("retained_revision:" ++ toString record.revision)
              ("retained_commit:" ++ toString record.revision) record.rootCid record.commitCid roots
          else roots)[enc.text cid]? = some reason) ∨
      (¬ (retained (firstRetained state) (retentionCutoff state) record = true ∧
        OneOf cid record.rootCid record.commitCid) ∧
          (if retained (firstRetained state) (retentionCutoff state) record then
            protectPair enc ("retained_revision:" ++ toString record.revision)
              ("retained_commit:" ++ toString record.revision) record.rootCid record.commitCid roots
          else roots)[enc.text cid]? = roots[enc.text cid]?) := by
    intro roots record
    by_cases hretained : retained (firstRetained state) (retentionCutoff state) record = true
    · simp only [hretained, if_true, true_and]
      exact getElem?_protectPair enc _ _ _ _ roots cid
    · simp only [hretained, if_false, false_and, not_false_eq_true, true_and, or_true,
        Bool.false_eq_true]
  rw [protectedRoots] at h
  -- The round of the snapshots, then that of the revisions, then the head.
  rcases getElem?_foldl_protect _ _ _ (enc.text cid) hsnapshots
    (state.namedSnapshots.toList.map Prod.snd) _ with
    ⟨snapshot, hmem, hone, reason', hreason', hget⟩ | ⟨_, hget⟩
  · rcases mem_values_iff.mp hmem with ⟨name, hname⟩
    rw [hget, Option.some.injEq] at h
    exact .snapshot name snapshot reason hname hone (h ▸ hreason')
  · rw [hget] at h
    rcases getElem?_foldl_protect _ _ _ (enc.text cid) hrevisions
      (state.history.toList.map Prod.snd) _ with
      ⟨record, hmem, hone, reason', hreason', hget⟩ | ⟨hnone, hget⟩
    · rcases mem_values_iff.mp hmem with ⟨rev, hrevision⟩
      rw [hget, Option.some.injEq] at h
      exact .revision rev record reason hrevision hone.1 hone.2 (h ▸ hreason')
    · rw [hget] at h
      rcases getElem?_protectPair enc "namespace_head" "namespace_head_commit"
        state.currentRootCid state.headCommitCid ∅ cid with
        ⟨hone, reason', hreason', hget⟩ | ⟨_, hget⟩
      · rw [hget, Option.some.injEq] at h
        refine .head reason hone ?_ (h ▸ hreason')
        intro rev record hrecord hretained hone'
        exact hnone record (mem_values_iff.mpr ⟨rev, hrecord⟩) ⟨hretained, hone'⟩
      · rw [hget] at h
        simp at h

end Map

/-! ## The window -/

/-- The first revision that is kept by its number after a commit. -/
def nextFirst (state : NamespaceState Digest) : Nat :=
  saturatingAdd (saturatingAdd state.currentRevision 1) 1 - state.descriptor.retention.keepLast

/-- The time from which on a revision is kept by its age after a commit. -/
def nextCutoff (state : NamespaceState Digest) (time : Int) : Option Int :=
  state.descriptor.retention.maxAgeSeconds.map fun age => saturatingSubI64 time (asI64 age)

theorem firstRetained_commitState (state : NamespaceState Digest) (root commit : Cid Digest)
    (time : Int) : firstRetained (commitState state root commit time) = nextFirst state :=
  rfl

theorem retentionCutoff_commitState (state : NamespaceState Digest) (root commit : Cid Digest)
    (time : Int) :
    retentionCutoff (commitState state root commit time) = nextCutoff state time := by
  simp [retentionCutoff, nextCutoff, commitState]

/-- What the window after a commit keeps, the window before it kept. -/
theorem retained_of_next {time : Int}
    (htime : ∀ record, state.history[state.currentRevision]? = some record →
      record.committedAtUnixSeconds ≤ time)
    (hcur : (state.history[state.currentRevision]?).isSome) {record : RevisionRecord Digest}
    (h : retained (nextFirst state) (nextCutoff state time) record = true) :
    retained (firstRetained state) (retentionCutoff state) record = true := by
  rcases Option.isSome_iff_exists.mp hcur with ⟨current, hcur⟩
  have hage := htime current hcur
  have hfirst : firstRetained state ≤ nextFirst state := by
    simp only [firstRetained, nextFirst, saturatingAdd]
    omega
  simp only [retained, retentionCutoff, nextCutoff, hcur, Bool.or_eq_true, decide_eq_true_eq,
    Option.elim_some] at h ⊢
  rcases h with hnumber | htime
  · left
    omega
  · right
    cases hmax : state.descriptor.retention.maxAgeSeconds with
    | none => simp [hmax] at htime
    | some age =>
      simp only [hmax, Option.map_some, Option.any_some, decide_eq_true_eq,
        saturatingSubI64] at htime ⊢
      omega

/-! ## Roles after a command -/

/-- A command that succeeded at a time that is not before that of the current
    revision. -/
structure Timely (state : NamespaceState Digest) (time : Int) : Prop where
  isSome : (state.history[state.currentRevision]?).isSome
  le : ∀ record, state.history[state.currentRevision]? = some record →
    record.committedAtUnixSeconds ≤ time

end Namespace

end Pepper
