import Pepper.Core.Retention
import Pepper.Theory.Kafka.Acknowledgment
import Pepper.Theory.Log.Operations

/-!
# What Retention Deletes

Which segments of the leader's log a retention pass takes away, compared with the
ones that were selected for it.

Segments are selected one by one. One that is needed to meet the bound on bytes is
selected together with all before it, since what is retained only shrinks along
the list. One that has expired is selected by itself. The pass then moves the
start of the log to the end of the last selected segment, and everything before
it goes. `ExpiredFirst` is the condition on the segments under which nothing else
lies there.

## Main definitions

* `ExpiredFirst`: No segment that is to be kept lies before an expired one.
* `Removed`: A pass has taken a segment away.
* `Trimmed`: What a pass does to each log.

## Theorems

* `selectCandidates_prefix`: When the selected segments come first.
* `Intact.manifests_sorted`: The sealed segments are in the order of their ends.
* `applyRetention_trims`: What a pass does to the logs of a partition.
* `retention_removes_only_candidates`: When a pass removes selected segments only.
* `retention_removes_unexpired`: A pass that does not.
-/

namespace Pepper

namespace Log

open Fallible ExtentStore List

/-! ## The selection -/

/-- For each segment above the start of the log: it has expired, or the segments
    from it on have too many bytes, or no later one has expired. -/
def ExpiredFirst (policy : RetentionPolicy) (logStart : Nat) : Nat → List SegmentManifest → Prop
  | _, [] => True
  | retained, m :: rest =>
    (logStart < m.endOffset → policy.expired m = true ∨ policy.oversized retained = true ∨
      ∀ later ∈ rest, policy.expired later = false) ∧
    ExpiredFirst policy logStart (retained - m.payloadBytes) rest

instance instDecidableExpiredFirst (policy : RetentionPolicy) (logStart : Nat) :
    ∀ retained manifests, Decidable (ExpiredFirst policy logStart retained manifests)
  | _, [] => isTrue trivial
  | retained, m :: rest =>
    have := instDecidableExpiredFirst policy logStart (retained - m.payloadBytes) rest
    inferInstanceAs (Decidable (_ ∧ _))

variable {policy : RetentionPolicy} {manifests : List SegmentManifest} {log' : OrderedLog}
  {m : SegmentManifest}

theorem oversized_mono {a b : Nat} (hle : a ≤ b) (h : policy.oversized b = false) :
    policy.oversized a = false := by
  unfold RetentionPolicy.oversized at *
  cases hmax : policy.maximumSealedBytes with
  | none => rfl
  | some maximum =>
    rw [hmax, Option.any_some, decide_eq_false_iff_not] at h
    rw [Option.any_some, decide_eq_false_iff_not]
    omega

/-- Within the bound on bytes only expired segments are selected. -/
theorem selectCandidates_eq_filter {retained : Nat} (h : policy.oversized retained = false)
    (manifests : List SegmentManifest) :
    selectCandidates policy retained manifests = manifests.filter policy.expired := by
  induction manifests generalizing retained with
  | nil => rfl
  | cons m rest ih =>
    rw [selectCandidates, h, Bool.or_false]
    by_cases hm : policy.expired m = true
    · rw [if_pos hm, filter_cons_of_pos hm, ih (oversized_mono (Nat.sub_le _ _) h)]
    · rw [if_neg hm, filter_cons_of_neg hm, ih h]

theorem selectCandidates_sublist (policy : RetentionPolicy) (retained : Nat)
    (manifests : List SegmentManifest) :
    (selectCandidates policy retained manifests).Sublist manifests := by
  induction manifests generalizing retained with
  | nil => exact List.Sublist.refl _
  | cons m rest ih =>
    rw [selectCandidates]
    by_cases hm : (policy.expired m || policy.oversized retained) = true
    · rw [if_pos hm]
      exact (ih _).cons_cons m
    · rw [if_neg hm]
      exact (ih _).cons m

/-- Everything above the start of the log that does not end behind the selected
    segments is selected, if and only if expired segments come first. -/
theorem selectCandidates_prefix (policy : RetentionPolicy) (logStart retained : Nat)
    (hsorted : manifests.Pairwise fun a b => a.endOffset < b.endOffset) :
    (∀ m ∈ manifests, logStart < m.endOffset →
      (∃ c ∈ selectCandidates policy retained manifests, m.endOffset ≤ c.endOffset) →
      m ∈ selectCandidates policy retained manifests) ↔
    ExpiredFirst policy logStart retained manifests := by
  -- The walk carries the bytes that are left when a segment is passed.
  induction manifests generalizing retained with
  | nil => exact ⟨fun _ => trivial, fun _ m hm => absurd hm not_mem_nil⟩
  | cons a rest ih =>
    rcases pairwise_cons.mp hsorted with ⟨hfirst, hrest⟩
    have ih := ih (retained - a.payloadBytes) hrest
    rw [ExpiredFirst, ← ih, selectCandidates]
    by_cases ha : (policy.expired a || policy.oversized retained) = true
    · -- The first segment is selected, and ends before all others.
      rw [if_pos ha]
      rw [Bool.or_eq_true] at ha
      constructor
      · intro h
        refine ⟨fun _ => ha.imp_right Or.inl, fun m hm hlive hc => ?_⟩
        rcases hc with ⟨c, hc, hle⟩
        rcases mem_cons.mp (h m (mem_cons_of_mem a hm) hlive
          ⟨c, mem_cons_of_mem a hc, hle⟩) with rfl | hmem
        · exact absurd (hfirst m hm) (lt_irrefl _)
        · exact hmem
      · rintro ⟨_, h⟩ m hm hlive ⟨c, hc, hle⟩
        rcases mem_cons.mp hm with rfl | hmrest
        · exact mem_cons_self
        · rcases mem_cons.mp hc with rfl | hcrest
          · exact absurd (hfirst m hmrest) (not_lt.mpr hle)
          · exact mem_cons_of_mem a (h m hmrest hlive ⟨c, hcrest, hle⟩)
    · -- It is kept; then the rest is within the bound, and only time decides.
      rw [if_neg ha]
      rw [Bool.not_eq_true, Bool.or_eq_false_iff] at ha
      have hsame : selectCandidates policy retained rest =
          selectCandidates policy (retained - a.payloadBytes) rest := by
        rw [selectCandidates_eq_filter ha.2,
          selectCandidates_eq_filter (oversized_mono (Nat.sub_le _ _) ha.2)]
      have hsel : ∀ later, later ∈ selectCandidates policy retained rest ↔
          later ∈ rest ∧ policy.expired later = true := by
        intro later
        rw [selectCandidates_eq_filter ha.2, mem_filter]
      constructor
      · intro h
        refine ⟨fun hlive => Or.inr (Or.inr fun later hlater => ?_), fun m hm hlive hc => ?_⟩
        · by_contra hexpired
          rw [Bool.not_eq_false] at hexpired
          have hmem := h a mem_cons_self hlive
            ⟨later, (hsel later).mpr ⟨hlater, hexpired⟩, (hfirst later hlater).le⟩
          exact absurd (hfirst a ((hsel a).mp hmem).1) (lt_irrefl _)
        · rw [← hsame] at hc ⊢
          exact h m (mem_cons_of_mem a hm) hlive hc
      · rintro ⟨hhead, h⟩ m hm hlive ⟨c, hc, hle⟩
        rcases mem_cons.mp hm with rfl | hm
        · rcases hhead hlive with hexpired | hover | hnone
          · exact absurd hexpired (by simp [ha.1])
          · exact absurd hover (by simp [ha.2])
          · have hc := (hsel c).mp hc
            exact absurd hc.2 (by simp [hnone c hc.1])
        · rw [← hsame] at h
          exact h m hm hlive ⟨c, hc, hle⟩

/-! ## What a pass does to a log -/

/-- The start of the log is where it was or at the given offset, and what is gone
    lies below it. -/
structure Trimmed (start : Nat) (log log' : OrderedLog) : Prop where
  logStart : log'.logStartOffset = log.logStartOffset ∨
    log.logStartOffset ≤ start ∧ log'.logStartOffset = start
  removed : ∀ m ∈ log.sealedManifests, m ∈ log'.sealedManifests ∨ m.endOffset ≤ log'.logStartOffset

variable {log : OrderedLog} {start : Nat}

theorem Trimmed.le (h : Trimmed start log log') : log.logStartOffset ≤ log'.logStartOffset := by
  rcases h.logStart with h | ⟨hle, h⟩
  · exact h.ge
  · exact le_of_le_of_eq hle h.symm

instance instIsPreorderTrimmed : IsPreorder OrderedLog (Trimmed start) where
  refl _ := ⟨Or.inl rfl, fun _ hm => Or.inl hm⟩
  trans := by
    intro a b c hab hbc
    refine ⟨?_, fun m hm => ?_⟩
    · rcases hbc.logStart with hc | ⟨hle, hc⟩
      · rw [hc]
        exact hab.logStart
      · exact Or.inr ⟨hab.le.trans hle, hc⟩
    · rcases hab.removed m hm with hm | hend
      · exact hbc.removed m hm
      · exact Or.inr (hend.trans hbc.le)

theorem advanceLogStart_yields (ctl start : Nat) (log : OrderedLog) :
    (advanceLogStart ctl start).Yields (Trimmed start) log fun _ log' =>
      log'.logStartOffset = start := by
  unfold advanceLogStart
  refine Yields.get_bind (Yields.require_bind fun hc => Yields.modify ?_ rfl)
  exact ⟨Or.inr ⟨hc.2.1, rfl⟩, fun _ hm => Or.inl hm⟩

/-- The loop takes one segment after the other from the front. -/
theorem reclaimSegments_trims (start : Nat) (leased : Nat → Bool) {segments : List Segment}
    (hsegments : log.segments = segments) :
    (reclaimSegments leased segments).Ends log fun _ log' => Trimmed start log log' := by
  induction segments generalizing log with
  | nil => exact Ends.pure (refl_of _ log)
  | cons s rest ih =>
    unfold reclaimSegments
    refine Ends.get_bind ?_
    cases hm : s.sealed.filter fun manifest => decide (manifest.endOffset ≤ log.logStartOffset ∧
        manifest.endOffset ≤ log.highWatermark) with
    | none => exact Ends.pure (refl_of _ log)
    | some m =>
      rcases Option.filter_eq_some_iff.mp hm with ⟨hsealed, hbelow⟩
      refine onStore_bind (P := fun _ _ => True) trivial ?_ ?_
      · exact fun _ store _ => ⟨Or.inl rfl, fun _ hm => Or.inl hm⟩
      · intro _ store _
        refine Ends.modify_bind ?_
        rw [show log.segments.tail = rest by rw [hsegments, tail_cons]]
        have hfirst : Trimmed start log { log with
            store, segments := rest, totalBatches := log.totalBatches - m.batchCount } := by
          refine ⟨Or.inl rfl, fun x hx => ?_⟩
          rw [OrderedLog.sealedManifests, hsegments, filterMap_cons, hsealed] at hx
          rcases mem_cons.mp hx with rfl | hx
          · exact Or.inr (of_decide_eq_true hbelow).1
          · exact Or.inl hx
        refine Ends.bind ((ih rfl).mono ?_)
        intro r log' htrimmed
        cases r with
        | ok reclaimed => exact Ends.pure (trans_of _ hfirst htrimmed)
        | error e => exact trans_of _ hfirst htrimmed

theorem reclaimBelowLogStart_trims (start : Nat) (leased : Nat → Bool) :
    (reclaimBelowLogStart leased).Moves (Trimmed start) := by
  intro log
  refine Ends.get_bind (Q := fun _ log' => Trimmed start log log') ?_
  refine Ends.call (reclaimSegments_trims start leased rfl) (fun _ _ h => h) ?_
  intro reclaimed log' htrimmed
  by_cases hempty : reclaimed.isEmpty = true
  · simp only [hempty, if_true]
    exact Ends.pure htrimmed
  · simp only [hempty, if_false, Bool.false_eq_true]
    exact Ends.modify_bind (Ends.pure ⟨htrimmed.logStart, htrimmed.removed⟩)

/-- A pass took away a segment that could still be read. -/
def Removed (log log' : OrderedLog) (m : SegmentManifest) : Prop :=
  m ∈ log.sealedManifests ∧ log.logStartOffset < m.endOffset ∧
    (m ∉ log'.sealedManifests ∨ m.endOffset ≤ log'.logStartOffset)

theorem Trimmed.removed_le (h : Trimmed start log log') (hm : Removed log log' m) :
    m.endOffset ≤ start := by
  rcases hm with ⟨hmem, hlive, hgone⟩
  have hbelow : m.endOffset ≤ log'.logStartOffset := by
    rcases hgone with hgone | hbelow
    · exact (h.removed m hmem).resolve_left hgone
    · exact hbelow
  rcases h.logStart with hsame | ⟨_, hstart⟩
  · omega
  · omega

/-- The segments of a log are sealed in the order of their offsets. -/
theorem Intact.manifests_sorted (h : Intact log) :
    log.sealedManifests.Pairwise fun a b => a.endOffset < b.endOffset := by
  rcases h.ordered.chained with ⟨lo, hchained⟩
  rw [OrderedLog.sealedManifests, pairwise_filterMap]
  refine hchained.pairwise.imp_of_mem fun {a b} ha hb hle m hm m' hm' => ?_
  have hheld := h.ordered.holds b hb
  rw [(h.ordered.holds a ha).manifest_end hm, hheld.manifest_end hm']
  -- A sealed segment has a batch, so it does not end where it starts.
  rcases exists_mem_of_ne_nil _ (hheld.filled m' hm') with ⟨batch, hbatch⟩
  calc a.endOffset ≤ b.baseOffset := hle
    _ ≤ batch.baseOffset := hheld.starts hbatch
    _ ≤ batch.lastOffset := hheld.spaced.spans batch hbatch
    _ < b.endOffset := hheld.ends batch hbatch

/-- In a list with growing ends the last one is the greatest. -/
theorem le_getLast {last : SegmentManifest}
    (hsorted : manifests.Pairwise fun a b => a.endOffset < b.endOffset)
    (hlast : manifests.getLast? = some last) (hm : m ∈ manifests) :
    m.endOffset ≤ last.endOffset := by
  rcases getLast?_eq_some_iff.mp hlast with ⟨front, rfl⟩
  rcases mem_append.mp hm with hm | hm
  · exact ((pairwise_append.mp hsorted).2.2 m hm last mem_cons_self).le
  · rw [mem_singleton.mp hm]

end Log

namespace Kafka

open Fallible Log

/-! ## A pass over a partition -/

/-- A replica's log starts at the offset. -/
def StartsAt (start : Nat) (p : ReplicatedPartition) (node : Nat) : Prop :=
  ∃ log, p.replicas[node]? = some log ∧ log.logStartOffset = start

variable {start : Nat}

theorem StartsAt.trimmed {node : Nat} {p p' : ReplicatedPartition} (h : StartsAt start p node)
    (hrelated : Related (Trimmed start) p p') : StartsAt start p' node := by
  rcases h with ⟨log, hlog, hstart⟩
  rcases hrelated.forward node log hlog with ⟨log', hlog', htrimmed⟩
  refine ⟨log', hlog', ?_⟩
  rcases htrimmed.logStart with hsame | ⟨_, hstart'⟩
  · exact hsame.trans hstart
  · exact hstart'

theorem advanceAll_yields (p : ReplicatedPartition) (ctl start : Nat) (nodes : List Nat) :
    (Partition.advanceAll ctl start nodes).Yields (Related (Trimmed start)) p
      fun _ p' => ∀ node ∈ nodes, StartsAt start p' node := by
  induction nodes generalizing p with
  | nil => exact Yields.pure (by simp)
  | cons node rest ih =>
    refine Yields.bind (onReplica_yields p node fun log _ =>
      advanceLogStart_yields ctl start log) ?_
    rintro _ p1 _ ⟨_, log', _, hlog', _, hstart⟩
    refine (ih p1).mono fun _ p2 hrelated hrest => ?_
    exact List.forall_mem_cons.mpr ⟨StartsAt.trimmed ⟨log', hlog', hstart⟩ hrelated, hrest⟩

theorem reclaimAll_trims (start : Nat) (leased : Nat → Nat → Bool) (nodes : List Nat) :
    (Partition.reclaimAll leased nodes).Moves (Related (Trimmed start)) := by
  refine Moves.forM nodes fun node _ => Moves.bind (Moves.attempt
    (onReplica_moves node (reclaimBelowLogStart_trims start _))) fun outcome => ?_
  -- A leased extent is left for later, any other error ends the pass.
  split
  · exact Moves.pure ()
  · exact Moves.pure ()
  · exact Moves.fail _

section Pass

variable {p : Partition} {log : OrderedLog} {configs : BTreeMap String String} {nowMs : Nat}
  {policy : RetentionPolicy}

/-- What a pass does to the log of the leader, when a segment was selected. -/
theorem applyRetention_trims (hlog : p.leaderLog = some log)
    (hpolicy : retentionPolicy configs nowMs = some policy) {last : SegmentManifest}
    (hlast : (log.retentionCandidates policy).getLast? = some last)
    (leased : Nat → Nat → Bool) (persisted : Bool) :
    (Partition.applyRetention (some configs) nowMs leased persisted).Ends p fun r p' =>
      ∃ log', p'.leaderLog = some log' ∧ Trimmed last.endOffset log log' ∧
        ∀ start, r = .ok (some start) → log'.logStartOffset = last.endOffset := by
  have hmoved : ∀ {q : ReplicatedPartition} (c : TransactionCoordinator),
      Related (Trimmed last.endOffset) p.replication q →
      ∃ log', Partition.leaderLog { p with coordinator := c, replication := q } = some log' ∧
        Trimmed last.endOffset log log' :=
    fun c hrelated => hrelated.forward _ log hlog
  unfold Partition.applyRetention
  refine Ends.expect_some rfl ?_
  simp only [hpolicy]
  refine Ends.get_bind (Ends.expect_some hlog ?_)
  simp only [hlast]
  refine Ends.call (Session.onCoordinator_ends (P := fun _ _ => True) trivial) ?_ ?_
  · rintro e p1 ⟨_, c, _, _, rfl⟩
    rcases hmoved c (refl_of _ _) with ⟨log', hlog', htrimmed⟩
    exact ⟨log', hlog', htrimmed, by simp⟩
  rintro _ p1 ⟨_, c, _, _, rfl⟩
  refine Ends.call (Session.onReplication_ends (advanceAll_yields p.replication _ _ _)) ?_ ?_
  · rintro e p2 ⟨_, q, ⟨hrelated, _⟩, _, rfl⟩
    rcases hmoved c hrelated with ⟨log', hlog', htrimmed⟩
    exact ⟨log', hlog', htrimmed, by simp⟩
  rintro _ p2 ⟨r0, q, ⟨hrelated, hstarts⟩, hr0, rfl⟩
  refine Ends.require_bind (fun _ => ?_) fun _ => ?_
  · rcases hmoved c hrelated with ⟨log', hlog', htrimmed⟩
    exact ⟨log', hlog', htrimmed, by simp⟩
  refine Ends.call (Session.onReplication_ends ((reclaimAll_trims last.endOffset leased _).ends q))
    ?_ ?_
  · rintro e p3 ⟨_, q', hreclaim, _, rfl⟩
    rcases hmoved c (trans_of _ hrelated hreclaim) with ⟨log', hlog', htrimmed⟩
    exact ⟨log', hlog', htrimmed, by simp⟩
  · rintro _ p3 ⟨_, q', hreclaim, _, rfl⟩
    rcases hmoved c (trans_of _ hrelated hreclaim) with ⟨log', hlog', htrimmed⟩
    refine Ends.pure ⟨log', hlog', htrimmed, fun _ _ => ?_⟩
    -- The leader is one of the replicas whose logs were moved.
    have hmem : p.descriptor.leaderId ∈ p.replication.replicas.keys := by
      rw [Std.ExtTreeMap.mem_keys, Std.ExtTreeMap.mem_iff_isSome_getElem?]
      exact Option.isSome_iff_exists.mpr ⟨log, hlog⟩
    have hok : r0 = .ok () := by
      cases r0 with
      | ok u => rfl
      | error e => exact absurd hr0 (by simp [Except.mapError])
    rcases (hstarts () hok _ hmem).trimmed hreclaim with ⟨log'', hlog'', hstart⟩
    rw [show q'.replicas[p.descriptor.leaderId]? = some log' from hlog', Option.some.injEq]
      at hlog''
    exact hlog'' ▸ hstart

/-- A pass takes away selected segments only, if and only if no segment that is to
    be kept lies before an expired one. The one direction is for every outcome of
    the pass, the other for a pass that was completed. -/
theorem retention_removes_only_candidates (hlog : p.leaderLog = some log)
    (hsorted : log.sealedManifests.Pairwise fun a b => a.endOffset < b.endOffset)
    (hpolicy : retentionPolicy configs nowMs = some policy) (leased : Nat → Nat → Bool)
    (persisted : Bool) :
    (Partition.applyRetention (some configs) nowMs leased persisted).Ends p fun r p' =>
      ∃ log', p'.leaderLog = some log' ∧
        (ExpiredFirst policy log.logStartOffset (totalBytes log.sealedManifests)
            log.sealedManifests →
          ∀ m, Removed log log' m → m ∈ log.retentionCandidates policy) ∧
        ∀ start, r = .ok (some start) →
          (∀ m, Removed log log' m → m ∈ log.retentionCandidates policy) →
          ExpiredFirst policy log.logStartOffset (totalBytes log.sealedManifests)
            log.sealedManifests := by
  have hselected := selectCandidates_prefix policy log.logStartOffset
    (totalBytes log.sealedManifests) hsorted
  cases hlast : (log.retentionCandidates policy).getLast? with
  | none =>
    -- Nothing was selected, and the pass ends before it changes anything.
    have hsame : Partition.applyRetention (some configs) nowMs leased persisted p =
        (.ok none, p) := by
      unfold Partition.applyRetention
      simp [Bind.bind, Pure.pure, Fallible.expect, Fallible.get, hpolicy, hlog, hlast]
    unfold Ends
    rw [hsame]
    refine ⟨log, hlog, fun _ m hm => ?_, by simp⟩
    rcases hm with ⟨hmem, hlive, hgone | hbelow⟩
    · exact absurd hmem hgone
    · omega
  | some last =>
    refine (applyRetention_trims hlog hpolicy hlast leased persisted).mono ?_
    rintro r p' ⟨log', hlog', htrimmed, hstart⟩
    refine ⟨log', hlog', fun hfirst m hm => ?_, fun start hr honly => hselected.mp ?_⟩
    · exact hselected.mpr hfirst m hm.1 hm.2.1
        ⟨last, List.mem_of_getLast? hlast, htrimmed.removed_le hm⟩
    · rintro m hm hlive ⟨c, hc, hle⟩
      refine honly m ⟨hm, hlive, Or.inr ?_⟩
      have hmax := le_getLast (hsorted.sublist (selectCandidates_sublist policy _ _)) hlast hc
      rw [hstart start hr]
      omega

end Pass

/-! ## Two passes -/

/-- Two segments of one batch each, with the given timestamps, are filled and
    sealed. -/
def agedRun (first second : Nat) : List LogOp :=
  [.promiseEpoch 1 1, .activateLeader 1 1, .append 1 first 1 [1], .commit 1 1, .sealAndRotate 1,
    .append 1 second 1 [2], .commit 1 2, .sealAndRotate 1]

def agedLog (first second : Nat) : OrderedLog :=
  (runOps record ⟨openedBlank ⟨0, 1, 100, 3⟩ ⟨0, 0, 0⟩, []⟩ (agedRun first second)).log

/-- A partition with one replica over that log. -/
def agedPartition (first second : Nat) : Partition where
  name := ⟨"t", 0⟩
  descriptor := ⟨0, 1, 1, [0], 1⟩
  replication := ⟨.ofList [(0, agedLog first second)], .ofList [0], .ofList [0], .ofList [0], 0,
    1, 1,
    1, 2⟩
  coordinator := .empty

/-- Batches are kept for ten milliseconds. -/
def agedConfigs : BTreeMap String String :=
  .ofList [("retention.ms", "10")]

/-- The leader's log after a pass at the given time. -/
def agedAfter (first second nowMs : Nat) : Option OrderedLog :=
  (Partition.applyRetention (some agedConfigs) nowMs (fun _ _ => false) true
    (agedPartition first second)).2.leaderLog

theorem retention_removes_only_candidates_aged :
    (agedAfter 5 100 60).map (fun log => (log.logStartOffset, log.sealedManifests.length)) =
        some (1, 1) ∧
      (Partition.applyRetention (some agedConfigs) 60 (fun _ _ => false) true).Ends
        (agedPartition 5 100) fun _ p' => ∃ log', p'.leaderLog = some log' ∧
          ∀ m, Removed (agedLog 5 100) log' m →
            m ∈ (agedLog 5 100).retentionCandidates ⟨some 50, none⟩ := by
  refine ⟨by decide +kernel, ?_⟩
  have hpolicy : retentionPolicy agedConfigs 60 = some ⟨some 50, none⟩ := by decide +kernel
  have hlog : (agedPartition 5 100).leaderLog = some (agedLog 5 100) := rfl
  have hopened : openLog ⟨0, 1, 100, 3⟩ ⟨0, 0, 0⟩ blankStore =
    (.ok (openedBlank ⟨0, 1, 100, 3⟩ ⟨0, 0, 0⟩), _) := rfl
  have hrun : Reaches record Succeeds ⟨openedBlank ⟨0, 1, 100, 3⟩ ⟨0, 0, 0⟩, []⟩
      ⟨agedLog 5 100, _⟩ := reaches_runOps _ (agedRun 5 100) (by decide +kernel)
  have hintact : Intact (agedLog 5 100) :=
    hrun.invariant (I := fun s => Intact s.log) (fun _ _ hs hop => (record_keeps hs hop).1)
      (((openLog_intact rfl (by decide)).of_eq hopened).1 _ rfl).1
  refine (retention_removes_only_candidates hlog hintact.manifests_sorted hpolicy (fun _ _ => false)
    true).mono ?_
  rintro r p' ⟨log', hlog', honly, _⟩
  exact ⟨log', hlog', honly (by decide +kernel)⟩

/-- The first segment was written just now and the second one is older than the
    settings ask for. Only the second one is selected, and both are deleted. -/
theorem retention_removes_unexpired : retentionPolicy agedConfigs 60 = some ⟨some 50, none⟩ ∧
      (agedLog 100 5).sealedManifests.map (fun m => (m.endOffset, m.maximumTimestampMs)) =
        [(1, 100), (2, 5)] ∧
      ((agedLog 100 5).retentionCandidates ⟨some 50, none⟩).map (·.endOffset) = [2] ∧
      (Partition.applyRetention (some agedConfigs) 60 (fun _ _ => false) true
        (agedPartition 100 5)).1 = .ok (some 2) ∧
      (agedAfter 100 5 60).map (fun log => (log.logStartOffset, log.sealedManifests)) =
        some (2, []) := by
  decide +kernel

end Kafka

end Pepper
