import Pepper.Theory.Partition.Operations
import Pepper.Theory.Partition.Election

/-!
# Safety of the Partition Model

Runs of the partition model, from `new` through any sequence of calls.

Failing calls are part of a run: each leaves the state the source leaves. The
only restriction is the one on commit propagation, and the run at the end of
this file shows what happens without it.

## Theorems

* `new_safe`: A new partition satisfies the invariant.
* `step_safe`: Every allowed call keeps the invariant and only extends the
  committed entries.
* `committed_values_survive`: The statement about whole runs.
* `known_values_agree`: What replicas know to be committed.
* `drifted_propagation_breaks_check`: A propagation to a replica with another
  log.
-/

namespace Pepper

namespace KafkaModel

open EpochLog

/-! ## Runs -/

theorem foldl_insert_fresh (nodes : List Nat) (t : BTreeMap Nat Replica)
    (ht : ∀ (n : Nat) (r : Replica), t[n]? = some r → r = ⟨0, [], none⟩) (n : Nat) (r : Replica)
    (hr : (nodes.foldl (fun reps node => reps.insert node ⟨0, [], none⟩) t)[n]? = some r) :
    r = ⟨0, [], none⟩ := by
  induction nodes generalizing t with
  | nil => exact ht n r hr
  | cons a nodes ih =>
    refine ih (t.insert a ⟨0, [], none⟩) ?_ hr
    intro n r hr
    rcases getElem?_insert_cases hr with ⟨_, hnew⟩ | ⟨_, hr⟩
    · exact hnew
    · exact ht n r hr

variable {m : PartitionModel} {committed : List LogEntry} {nodes : List Nat} {m' : PartitionModel}

/-- A new partition has no leader, nothing committed, and empty replicas. -/
theorem new_spec (h : PartitionModel.new nodes = .ok m) :
    m.leader = none ∧ m.committedValues = ∅ ∧ 3 ≤ m.replicas.size ∧
      ∀ (n : Nat) (r : Replica), m.replicas[n]? = some r → r = ⟨0, [], none⟩ := by
  unfold PartitionModel.new at h
  simp only [] at h
  split at h
  · cases h
  next hsize =>
  cases h
  refine ⟨rfl, rfl, ?_, ?_⟩
  · simp only [not_or, not_lt] at hsize
    exact hsize.1
  · refine foldl_insert_fresh nodes ∅ ?_
    intro n r hr
    exact absurd hr (by simp only [Std.ExtTreeMap.getElem?_empty, reduceCtorEq, not_false_eq_true])

theorem new_safe (h : PartitionModel.new nodes = .ok m) : Safe m [] := by
  rcases new_spec h with ⟨hnone, hvalues, hsize, hall⟩
  have hmajority : ∀ p : Replica → Prop, p ⟨0, [], none⟩ → m.MajorityOf p := by
    intro p hp
    refine ⟨keySet m.replicas, ?_, ?_⟩
    · rw [card_keySet, PartitionModel.quorum]
      omega
    · intro n hn
      rcases hr : m.replicas[n]? with _ | r
      · rw [mem_keySet, Std.ExtTreeMap.mem_iff_isSome_getElem?, hr] at hn
        exact absurd hn Bool.false_ne_true
      · exact ⟨r, rfl, by rw [hall n r hr]; exact hp⟩
  refine ⟨?_, ?_, ?_, ?_, List.nil_prefix, hmajority _ List.nil_prefix, hmajority _ ?_⟩
  · intro o
    rw [hvalues]
    simp only [Std.ExtTreeMap.getElem?_empty, List.getElem?_nil, Option.map_none]
  · intro n r hr
    rw [hall n r hr]
    refine ⟨?_, ?_, ?_, ?_, ?_, ?_⟩
    all_goals simp [EpochSorted, Owns]
  · intro n n' r r' hr _
    rw [hall n r hr]
    intro i j x y _ hx
    exact absurd hx (by simp only [List.getElem?_nil, reduceCtorEq, not_false_eq_true])
  · intro l hl
    rw [hnone] at hl
    cases hl
  · simp only [PartitionModel.leaderEpoch, hnone, Option.elim_none, le_refl]

def Op.isPropagation : Op → Bool
  | .propagateCommit .. => true
  | _ => false

/-- Outside commit propagation every call keeps the invariant without reporting
    a breach, whatever its arguments. -/
theorem apply_settles (h : Safe m committed) (op : Op) (hop : op.isPropagation = false) :
    Settles m committed (op.apply m) := by
  cases op with
  | elect candidate epoch voters => exact elect_settles h candidate epoch voters
  | append digest =>
    have hsame : ∀ e, (m.append digest).1.map (fun _ => ()) = .error e →
        (m.append digest).1 = .error e := by
      intro e he
      rcases hout : (m.append digest).1 with e' | a
      · simpa only [hout, Except.map, Except.error.injEq] using he
      · simp only [hout, Except.map, reduceCtorEq] at he
    rcases append_settles h digest with ⟨⟨committed', hext, hsafe, hbreach⟩, hunchanged⟩
    exact ⟨⟨committed', hext, hsafe, fun e he => hbreach e (hsame e he)⟩,
      fun e he => hunchanged e (hsame e he)⟩
  | replicate follower entry => exact replicate_settles h follower entry
  | commit offset => exact commit_settles h offset
  | propagateCommit node offset =>
    exact absurd hop (by simp only [Op.isPropagation, reduceCtorEq, not_false_eq_true])

/-- Every allowed call keeps the invariant and only extends the committed
    entries. -/
theorem step_safe (h : Safe m committed) (op : Op) (hguard : PropagatesLeaderLog m op) :
    ∃ committed', committed <+: committed' ∧ Safe (step m op) committed' := by
  cases hop : op.isPropagation with
  | false =>
    rcases apply_settles h op hop with ⟨⟨committed', hext, hsafe, _⟩, _⟩
    exact ⟨committed', hext, hsafe⟩
  | true =>
    cases op with
    | propagateCommit node offset =>
      exact ⟨committed, List.prefix_rfl, propagateCommit_safe h hguard⟩
    | _ => exact absurd hop (by simp only [Op.isPropagation, reduceCtorEq, not_false_eq_true])

/-- Committed values are neither removed nor changed. -/
def KeepsValues (m m' : PartitionModel) : Prop :=
  ∀ o v : Nat, m.committedValues[o]? = some v → m'.committedValues[o]? = some v

theorem keepsValues_of_prefix_mono {committed' : List LogEntry} (h : Safe m committed)
    (h' : Safe m' committed') (hext : committed <+: committed') : KeepsValues m m' := by
  intro o v hv
  rw [h.values] at hv
  rcases Option.map_eq_some_iff.mp hv with ⟨e, he, hev⟩
  rw [h'.values, prefix_getElem? hext he, Option.map_some, hev]

theorem reaches_safe (h : ∃ committed, Safe m committed)
    (hrun : Reaches step PropagatesLeaderLog m m') :
    (∃ committed, Safe m' committed) ∧ KeepsValues m m' := by
  refine hrun.related (I := fun m => ∃ committed, Safe m committed) (R := KeepsValues)
    (fun _ _ _ hv => hv) (fun _ _ _ hab hbc o v hv => hbc o v (hab o v hv)) ?_ h
  rintro s op ⟨committed, hs⟩ hguard
  rcases step_safe hs op hguard with ⟨committed', hext, hs'⟩
  exact ⟨⟨committed', hs'⟩, keepsValues_of_prefix_mono hs hs' hext⟩

/-- In every run in which commits are propagated only to replicas that share the
    leader's log up to the propagated offset, the model's check succeeds after
    every call, committed values are never removed or changed, and elections,
    appends, replications and commits never report a breach. -/
theorem committed_values_survive (nodes : List Nat) (m0 m : PartitionModel)
    (hnew : PartitionModel.new nodes = .ok m0) (hrun : Reaches step PropagatesLeaderLog m0 m) :
    m.checkInvariants = .ok () ∧ (∀ m', Reaches step PropagatesLeaderLog m m' → KeepsValues m m') ∧
      (∀ (op : Op) (e : ModelError), op.isPropagation = false →
        (op.apply m).1 = .error e → e.isBreach = false) := by
  rcases (reaches_safe ⟨[], new_safe hnew⟩ hrun).1 with ⟨committed, hsafe⟩
  refine ⟨checkInvariants_of_safe hsafe, ?_, ?_⟩
  · intro m' hrun'
    exact (reaches_safe ⟨committed, hsafe⟩ hrun').2
  · intro op e hop he
    rcases apply_settles hsafe op hop with ⟨⟨_, _, _, hbreach⟩, _⟩
    exact hbreach e he

/-- What one replica knows to be committed at some point of such a run and what
    any replica knows later have the same digests. -/
theorem known_values_agree (nodes : List Nat) (n n' : Nat) {m0 : PartitionModel}
    (hnew : PartitionModel.new nodes = .ok m0) (hrun : Reaches step PropagatesLeaderLog m0 m)
    (hlater : Reaches step PropagatesLeaderLog m m') {k k' o : Nat} {r r' : Replica}
    (hr : m.replicas[n]? = some r) (hr' : m'.replicas[n']? = some r') (hk : r.committed = some k)
    (hk' : r'.committed = some k') (ho : o ≤ k) (ho' : o ≤ k') :
    ∃ v, (r.entry o).map (·.digest) = some v ∧ (r'.entry o).map (·.digest) = some v := by
  rcases (reaches_safe ⟨[], new_safe hnew⟩ hrun).1 with ⟨committed, hsafe⟩
  rcases reaches_safe ⟨committed, hsafe⟩ hlater with ⟨⟨committed', hsafe'⟩, hkeeps⟩
  rcases (hsafe.replica n r hr).known k hk with ⟨hlen, hlog⟩
  rcases (hsafe'.replica n' r' hr').known k' hk' with ⟨hlen', hlog'⟩
  rcases hsafe.digest_of_prefix_take hlen hlog ho with ⟨v, hv, hdigest⟩
  rcases hsafe'.digest_of_prefix_take hlen' hlog' ho' with ⟨v', hv', hdigest'⟩
  -- The committed value at the offset is still the one it was.
  rw [hkeeps o v hv, Option.some.injEq] at hv'
  exact ⟨v, hdigest, hv' ▸ hdigest'⟩

/-- A leader replicates and commits an entry and the follower is told. -/
def propagatedRun : List Op :=
  [.elect 0 1 (.ofList [0, 1]), .append 7, .replicate 1 ⟨0, 1, 7⟩, .commit 0, .propagateCommit 1 0]

/-- Two leaders append under different epochs; the second one's log is committed
    and the first leader, whose own entry at offset one happens to carry the
    committed digest, is told that offset one is committed. -/
def driftedRun : List Op :=
  [.elect 0 1 (.ofList [0, 1]), .append 10, .append 11, .elect 1 2 (.ofList [1, 2]), .append 12,
    .append 11, .replicate 2 ⟨1, 2, 11⟩, .commit 0, .commit 1, .propagateCommit 0 1]

theorem propagated_values_survive :
    ∃ m0 m, PartitionModel.new [0, 1, 2] = .ok m0 ∧ Reaches step PropagatesLeaderLog m0 m ∧
      m.committedValues[0]? = some 7 ∧ m.checkInvariants = .ok () := by
  refine ⟨_, _, rfl, reaches_runOps _ propagatedRun (by decide), by decide, ?_⟩
  exact (committed_values_survive [0, 1, 2] _ _ rfl (reaches_runOps _ propagatedRun (by decide))).1

theorem propagated_values_agree : ∃ m0 r r', PartitionModel.new [0, 1, 2] = .ok m0 ∧
    (runOps step m0 propagatedRun).replicas[0]? = some r ∧
    (runOps step m0 propagatedRun).replicas[1]? = some r' ∧
      ∃ v, (r.entry 0).map (·.digest) = some v ∧ (r'.entry 0).map (·.digest) = some v := by
  refine ⟨_, _, _, rfl, rfl, rfl, ?_⟩
  exact known_values_agree [0, 1, 2] 0 1 rfl (reaches_runOps _ propagatedRun (by decide)) (.refl _)
    rfl rfl rfl rfl le_rfl le_rfl

/-- Propagation to a replica with another log breaks the model's own check, and
    the next replication to that replica asks to cut committed entries. -/
theorem drifted_propagation_breaks_check : (PartitionModel.new [0, 1, 2]).toOption.map (fun m0 =>
        ((runOps step m0 driftedRun).checkInvariants,
          (Op.apply (runOps step m0 driftedRun) (.replicate 0 ⟨0, 2, 12⟩)).1)) =
      some (.error .committedValueChanged, .error .committedTruncation) := by
  decide

end KafkaModel

end Pepper
