import Pepper.Theory.Partition.Election

/-!
# Watermarks of the Replicas

Every replica keeps the offset up to which it knows its log to be committed.
Three calls assign it. An election gives the candidate the greatest value of
its voters, and the candidate is one of them, so nothing is lost there. A
commit and its propagation assign the offset they are called with, and
neither compares it with the value that is already there: a leader that
commits an earlier entry of its own epoch again forgets the later ones, and
so does a follower that is told of an old commit late.

## Main definitions

* `PartitionModel.known`: The watermark of a replica.
* `lowersKnown`: The call passes all tests of the source with an offset below
  the watermark it assigns.
* `Raises`: No watermark is lower than before.

## Theorems

* `step_raises`: A call that does not lower the watermark it assigns lowers
  none.
* `watermarks_never_fall`: The same for every run.
* `earlier_commit_lowers_watermark`: A commit called again for an earlier
  offset.
-/

namespace Pepper

namespace KafkaModel

namespace PartitionModel

/-- The offset up to which a replica knows its log to be committed. -/
def known (m : PartitionModel) (node : Nat) : Option Nat :=
  m.replicas[node]?.bind (·.committed)

theorem known_setReplica (m : PartitionModel) (node : Nat) (r : Replica) (n : Nat) :
    (m.setReplica node r).known n = if node = n then r.committed else m.known n := by
  unfold known setReplica
  rw [getElem?_insert_eq]
  by_cases h : node = n
  · simp only [h, if_true, Option.bind_some]
  · simp only [h, if_false]

end PartitionModel

open PartitionModel

/-- The call goes on to assign a watermark, and the replica knows of a later
    commit. The tests are those of the source before the assignment. -/
def lowersKnown (m : PartitionModel) : Op → Bool
  | .commit offset =>
    m.leader.any fun l => m.replicas[l.node]?.any fun r => (r.entry offset).any fun e =>
      e.epoch = l.epoch ∧ m.quorum ≤ m.replicas.toList.countP (fun s => s.2.entry offset = some e) ∧
        (0 < offset → (offset - 1) ∈ m.committedValues) ∧
        m.committedValues[offset]?.any (· ≠ e.digest) = false ∧ r.committed.any (offset < ·)
  | .propagateCommit node offset =>
    m.committedValues[offset]?.any fun v => m.replicas[node]?.any fun r =>
      (r.entry offset).map (·.digest) = some v ∧ r.committed.any (offset < ·)
  | _ => false

/-- No watermark is lower than before. -/
def Raises (m m' : PartitionModel) : Prop :=
  ∀ node k, m.known node = some k → ∃ k', m'.known node = some k' ∧ k ≤ k'

theorem Raises.refl (m : PartitionModel) : Raises m m :=
  fun _ k hk => ⟨k, hk, le_rfl⟩

theorem Raises.trans (a b c : PartitionModel) (h : Raises a b) (h' : Raises b c) : Raises a c := by
  intro node k hk
  rcases h node k hk with ⟨k', hk', hle⟩
  rcases h' node k' hk' with ⟨k'', hk'', hle'⟩
  exact ⟨k'', hk'', hle.trans hle'⟩

variable {m : PartitionModel} {node : Nat}

/-- One replica is replaced by one that knows at least as much. -/
theorem raises_setReplica {r r' : Replica} (hr : m.replicas[node]? = some r)
    (h : ∀ k, r.committed = some k → ∃ k', r'.committed = some k' ∧ k ≤ k') :
    Raises m (m.setReplica node r') := by
  intro n k hk
  rw [known_setReplica]
  by_cases hn : node = n
  · subst hn
    rw [known, hr, Option.bind_some] at hk
    simpa only [if_true] using h k hk
  · exact ⟨k, by rw [if_neg hn, hk], le_rfl⟩

/-- Replication rewrites the log only. -/
theorem replicateLog_committed (r : Replica) (leaderPrefix : List LogEntry) (e : LogEntry) :
    (replicateLog r leaderPrefix e).2.committed = r.committed := by
  have hcut : ∀ (r r' : Replica) offset, r.truncateUncommitted offset = .ok r' →
      r'.committed = r.committed := by
    intro r r' offset h
    unfold Replica.truncateUncommitted at h
    split at h
    · cases h
    · cases h
      rfl
  unfold replicateLog repairLog
  cases firstMismatch r.log leaderPrefix with
  | none => unfold placeEntry extendLog; grind
  | some mismatch => unfold placeEntry extendLog; grind

theorem replicate_raises (m : PartitionModel) (follower : Nat) (e : LogEntry) :
    Raises m (m.replicate follower e).2 := by
  unfold PartitionModel.replicate
  have hset : ∀ r leaderPrefix, m.replicas[follower]? = some r → Raises m (m.setReplica follower
      (replicateLog { r with promisedEpoch := e.epoch } leaderPrefix e).2) := by
    intro r leaderPrefix hr
    refine raises_setReplica hr fun k hk => ⟨k, ?_, le_rfl⟩
    rw [replicateLog_committed, hk]
  have := Raises.refl m
  grind

theorem append_raises (m : PartitionModel) (digest : Nat) : Raises m (m.append digest).2 := by
  unfold PartitionModel.append
  have := Raises.refl m
  have hset : ∀ node r log, m.replicas[node]? = some r →
      Raises m (m.setReplica node { r with log := log }) :=
    fun _ _ _ hr => raises_setReplica hr fun k hk => ⟨k, hk, le_rfl⟩
  grind

/-- The watermark an election installs is at least that of every voter. -/
theorem le_safeCommitted {voters : BTreeSet Nat} {k : Nat} (hnode : node ∈ voters)
    (hk : m.known node = some k) : ∃ k', m.safeCommitted voters = some k' ∧ k ≤ k' := by
  have hmem : k ∈ voters.toList.filterMap m.known :=
    List.mem_filterMap.mpr ⟨node, Std.ExtTreeSet.mem_toList.mpr hnode, hk⟩
  cases hmax : m.safeCommitted voters with
  | none =>
    have hnil : voters.toList.filterMap m.known = [] := List.max?_eq_none_iff.mp hmax
    simp only [hnil, List.not_mem_nil] at hmem
  | some k' => exact ⟨k', rfl, (List.max?_eq_some_iff.mp hmax).2 k hmem⟩

theorem elect_raises (m : PartitionModel) (candidate epoch : Nat) (voters : BTreeSet Nat) :
    Raises m (m.elect candidate epoch voters).2 := by
  unfold PartitionModel.elect
  have hself := Raises.refl m
  by_cases hquo : voters.size < m.quorum ∨ candidate ∉ voters
  · rw [if_pos hquo]
    exact hself
  have hinstall : ∀ source, Raises m
      (m.installLeader candidate epoch voters source (m.safeCommitted voters)) := by
    intro source n k hk
    -- The candidate votes for itself.
    have hsafe : candidate = n → ∃ k', m.safeCommitted voters = some k' ∧ k ≤ k' := by
      intro hn
      exact le_safeCommitted (by grind) (hn ▸ hk)
    simp only [known, installLeader_getElem?] at hk ⊢
    grind
  grind

/-- A call that does not assign a lower watermark lowers none. -/
theorem step_raises (m : PartitionModel) (op : Op) (h : lowersKnown m op = false) :
    Raises m (step m op) := by
  have hself := Raises.refl m
  cases op with
  | elect candidate epoch voters => exact elect_raises m candidate epoch voters
  | append digest => exact append_raises m digest
  | replicate follower e => exact replicate_raises m follower e
  | commit offset =>
    show Raises m (m.commit offset).2
    unfold PartitionModel.commit
    have hvalues : ∀ digest, Raises m { m with
        committedValues := m.committedValues.insert offset digest } := fun _ => hself
    have hset : ∀ node r digest, m.replicas[node]? = some r → r.committed.any (offset < ·) = false →
        Raises m (PartitionModel.setReplica { m with
          committedValues := m.committedValues.insert offset digest } node
            { r with committed := some offset }) := by
      intro node r digest hr hle
      refine raises_setReplica (m := { m with committedValues := _ }) hr fun k hk =>
        ⟨offset, rfl, ?_⟩
      simpa only [hk, Option.any_some, decide_eq_false_iff_not, not_lt] using hle
    unfold lowersKnown at h
    grind
  | propagateCommit node offset =>
    show Raises m (m.propagateCommit node offset).2
    unfold PartitionModel.propagateCommit
    have hset : ∀ r, m.replicas[node]? = some r → r.committed.any (offset < ·) = false →
        Raises m (m.setReplica node { r with committed := some offset }) := by
      intro r hr hle
      refine raises_setReplica hr fun k hk => ⟨offset, rfl, ?_⟩
      simpa only [hk, Option.any_some, decide_eq_false_iff_not, not_lt] using hle
    unfold lowersKnown at h
    grind

/-- In every run in which no commit and no propagation assigns an offset below
    the watermark of its replica, no watermark ever falls. -/
theorem watermarks_never_fall (m m' : PartitionModel)
    (hrun : Reaches step (fun m op => lowersKnown m op = false) m m') : Raises m m' :=
  (hrun.related (I := fun _ => True) (R := Raises) Raises.refl Raises.trans
    (fun s op _ hop => ⟨trivial, step_raises s op hop⟩) trivial).2

/-- A leader commits two entries of its epoch one after the other. -/
def committedTwice : List Op :=
  [.elect 0 1 (.ofList [0, 1]), .append 7, .append 8, .replicate 1 ⟨1, 1, 8⟩, .commit 0, .commit 1]

theorem committedTwice_raises :
    ∃ m0 m, PartitionModel.new [0, 1, 2] = .ok m0 ∧ Raises m0 m ∧ m.known 0 = some 1 := by
  refine ⟨_, _, rfl, watermarks_never_fall _ _ (reaches_runOps _ committedTwice ?_), ?_⟩
  · decide +kernel
  · decide +kernel

/-- The leader's watermark falls from one to zero. -/
theorem earlier_commit_lowers_watermark : (PartitionModel.new [0, 1, 2]).toOption.map (fun m0 =>
        ((runOps step m0 committedTwice).known 0,
          (runOps step m0 (committedTwice ++ [.commit 0])).known 0)) =
      some (some 1, some 0) := by
  decide +kernel

end KafkaModel

end Pepper
