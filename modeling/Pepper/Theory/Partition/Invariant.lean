import Pepper.Base.EpochLog
import Pepper.Core.PartitionModel

/-!
# The Invariant of the Partition Model

What a run of the partition model keeps, and that it implies the check the
model runs on itself.

The argument is the usual one for majority logs. Within an epoch every log
copies one leader, so the logs are pairwise coherent; a commit puts the
committed prefix on a majority; and an election takes the greatest last entry
among a majority, which meets the first one. `Safe` carries these facts,
relative to the list of committed entries. The model itself keeps only their
digests, which is not enough to say that a log has the committed prefix.

Commit propagation is the one call that can break the invariant. It compares
one digest at one offset, so a replica whose earlier entries differ can be
told that they are committed. `PropagatesLeaderLog` is what a propagation has
to satisfy to be harmless: the replica shares the leader's log up to the
propagated offset.

## Main definitions

* `Safe`: The invariant, relative to the list of committed entries.
* `PropagatesLeaderLog`: The condition on a step.
* `KeepsSafe`: A call keeps the invariant without reporting a breach.
* `Settles`: It also changes nothing when it fails.

## Theorems

* `MajorityOf.meets_voters`: A majority has a member among the voters.
* `checkInvariants_of_safe`: The invariant implies the model's own check.
* `Safe.update`: Replacing one replica by a copy of known entries.
-/

namespace Pepper

namespace KafkaModel

open EpochLog List

/-- The errors by which a call admits that a committed value was lost, changed
    or is about to be cut. -/
def ModelError.isBreach : ModelError → Bool
  | .committedTruncation => true
  | .unsafeElection => true
  | .noSafeElectionSource => true
  | .committedValueChanged => true
  | .missingCommittedValue => true
  | _ => false

namespace PartitionModel

/-- The epoch of the current leader, and zero before the first election. -/
def leaderEpoch (m : PartitionModel) : Nat :=
  m.leader.elim 0 (·.epoch)

/-- The log of the current leader, and nothing before the first election. -/
def leaderLog (m : PartitionModel) : List LogEntry :=
  (m.leader.bind fun l => m.replicas[l.node]?).elim [] (·.log)

/-- A majority of the replicas satisfies the predicate. -/
def MajorityOf (m : PartitionModel) (p : Replica → Prop) : Prop :=
  ∃ q : Finset Nat, m.quorum ≤ q.card ∧ ∀ n ∈ q, ∃ r, m.replicas[n]? = some r ∧ p r

end PartitionModel

/-- What one replica keeps, relative to the leader's epoch and log and the list
    of committed entries. -/
structure ReplicaSafe (top : Nat) (owner committed : List LogEntry) (r : Replica) : Prop where
  numbered : ∀ (i : Nat) e, r.log[i]? = some e → e.offset = i
  sorted : EpochSorted LogEntry.epoch r.log
  epochs : ∀ e ∈ r.log, 0 < e.epoch ∧ e.epoch ≤ top
  owned : Owns LogEntry.epoch top owner r.log
  later : ∀ c ∈ committed.getLast?, ∀ y ∈ r.log, c.epoch < y.epoch → committed <+: r.log
  known : ∀ k, r.committed = some k → k < committed.length ∧ committed.take (k + 1) <+: r.log

/-- The invariant of a run. The committed entries are the ones whose digests
    `committedValues` lists; the model itself does not keep their epochs. -/
structure Safe (m : PartitionModel) (committed : List LogEntry) : Prop where
  values : ∀ o : Nat, m.committedValues[o]? = committed[o]?.map (·.digest)
  replica : ∀ (n : Nat) (r : Replica), m.replicas[n]? = some r →
    ReplicaSafe m.leaderEpoch m.leaderLog committed r
  coherent : ∀ (n n' : Nat) (r r' : Replica), m.replicas[n]? = some r → m.replicas[n']? = some r' →
    Coherent LogEntry.epoch r.log r'.log
  elected : ∀ l, m.leader = some l → 0 < l.epoch ∧ ∃ r, m.replicas[l.node]? = some r
  leads : committed <+: m.leaderLog
  held : m.MajorityOf fun r => committed <+: r.log
  promised : m.MajorityOf fun r => m.leaderEpoch ≤ r.promisedEpoch

/-- A commit is propagated only to a replica that shares the leader's log up to
    the propagated offset. Calls that the digest test refuses, and all other
    calls, are unrestricted. -/
def PropagatesLeaderLog (m : PartitionModel) : Op → Prop
  | .propagateCommit node offset =>
    ∀ r ∈ m.replicas[node]?, ∀ v ∈ m.committedValues[offset]?,
      (r.entry offset).map (·.digest) = some v →
        r.log.take (offset + 1) = m.leaderLog.take (offset + 1)
  | _ => True

instance instDecidablePropagatesLeaderLog (m : PartitionModel) :
    ∀ op, Decidable (PropagatesLeaderLog m op)
  | .propagateCommit node offset =>
    inferInstanceAs (Decidable (∀ r ∈ m.replicas[node]?, ∀ v ∈ m.committedValues[offset]?,
      (r.entry offset).map (·.digest) = some v →
        r.log.take (offset + 1) = m.leaderLog.take (offset + 1)))
  | .elect .. => isTrue trivial
  | .append _ => isTrue trivial
  | .replicate .. => isTrue trivial
  | .commit _ => isTrue trivial

namespace PartitionModel

variable {m : PartitionModel} {p : Replica → Prop}
  {l : Leader} {r : Replica} {voters : BTreeSet Nat}

theorem leaderLog_eq (hl : m.leader = some l) (hr : m.replicas[l.node]? = some r) :
    m.leaderLog = r.log := by
  simp only [leaderLog, hl, Option.bind_some, hr, Option.elim_some]

theorem leaderEpoch_eq (hl : m.leader = some l) : m.leaderEpoch = l.epoch := by
  simp only [leaderEpoch, hl, Option.elim_some]

/-- A majority of the replicas has a member among the voters of an election. -/
theorem MajorityOf.meets_voters (h : m.MajorityOf p) (hsize : m.quorum ≤ voters.size)
    (hpre : ∀ n ∈ voters, ∃ r, m.replicas[n]? = some r) :
    ∃ n ∈ voters, ∃ r, m.replicas[n]? = some r ∧ p r := by
  have hmem : ∀ {n : Nat} {r : Replica}, m.replicas[n]? = some r → n ∈ m.replicas := by
    intro n r hr
    exact mem_iff_exists.mpr ⟨_, hr⟩
  rcases h with ⟨q, hcard, hq⟩
  have hqmem : ∀ n ∈ q, n ∈ m.replicas := by
    intro n hn
    rcases hq n hn with ⟨r, hr, _⟩
    exact hmem hr
  have hvmem : ∀ n ∈ elemSet voters, n ∈ m.replicas := by
    intro n hn
    rcases hpre n ((mem_elemSet voters n).mp hn) with ⟨r, hr⟩
    exact hmem hr
  rcases exists_common_of_majorities m.replicas q (elemSet voters) hqmem hvmem hcard
    (by rw [card_elemSet]; exact hsize) with ⟨n, hnq, hnv⟩
  exact ⟨n, (mem_elemSet voters n).mp hnv, hq n hnq⟩

/-- A majority carries over to a state with the same number of replicas in
    which each of its members still satisfies the new predicate. -/
theorem MajorityOf.mono {m' : PartitionModel} {p' : Replica → Prop} (h : m.MajorityOf p)
    (hsize : m'.replicas.size = m.replicas.size)
    (himp : ∀ (n : Nat) (r : Replica), m.replicas[n]? = some r → p r →
      ∃ r', m'.replicas[n]? = some r' ∧ p' r') : m'.MajorityOf p' := by
  rcases h with ⟨q, hcard, hq⟩
  refine ⟨q, ?_, ?_⟩
  · rw [quorum, hsize]
    exact hcard
  · intro n hn
    rcases hq n hn with ⟨r, hr, hpr⟩
    exact himp n r hr hpr

/-- A majority survives the replacement of one replica that keeps the
    predicate. -/
theorem MajorityOf.insert (h : m.MajorityOf p) {n : Nat} {r' : Replica}
    (hr : m.replicas[n]? = some r) (hp : p r → p r') : (m.setReplica n r').MajorityOf p := by
  refine h.mono (size_insert_of_getElem? hr r') ?_
  intro k s hs hps
  simp only [setReplica, getElem?_insert_eq]
  by_cases hk : n = k
  · subst hk
    cases Option.mem_unique hr hs
    exact ⟨r', by simp only [if_true], hp hps⟩
  · exact ⟨s, by simp only [hk, if_false, hs], hps⟩

theorem majorityOf_voters (hsize : m.quorum ≤ voters.size)
    (hp : ∀ n ∈ voters, ∃ r, m.replicas[n]? = some r ∧ p r) : m.MajorityOf p := by
  refine ⟨elemSet voters, ?_, ?_⟩
  · rw [card_elemSet]
    exact hsize
  · intro n hn
    exact hp n ((mem_elemSet voters n).mp hn)

end PartitionModel

/-! ## The model's own check -/

variable {committed : List LogEntry} {m : PartitionModel} {r r' : Replica} {n : Nat} {α : Type}

theorem Safe.mem_committedValues (h : Safe m committed) (o : Nat) :
    o ∈ m.committedValues ↔ o < committed.length := by
  rw [Std.ExtTreeMap.mem_iff_isSome_getElem?, h.values o, Option.isSome_map]
  by_cases ho : o < committed.length
  · simp only [getElem?_eq_getElem ho, Option.isSome_some, ho]
  · simp only [getElem?_eq_none (Nat.le_of_not_lt ho), Option.isSome_none, ho, Bool.false_eq_true]

theorem checkCommitted_of_safe (h : Safe m committed) : m.checkCommitted = .ok () := by
  rw [PartitionModel.checkCommitted, forM_eq_ok]
  rintro ⟨⟨offset, v⟩, index⟩ hmem
  rw [mem_zipIdx_iff_getElem?] at hmem
  have hkeys : m.committedValues.keys[index]? = some offset := by
    rw [← Std.ExtTreeMap.map_fst_toList_eq_keys, getElem?_map, hmem]
    rfl
  rw [keys_eq_range m.committedValues committed.length h.mem_committedValues,
    getElem?_eq_some_iff] at hkeys
  rcases hkeys with ⟨_, hidx⟩
  rw [getElem_range] at hidx
  simp only [hidx, ne_eq, not_true_eq_false, if_false]

variable {owner : List LogEntry} {top : Nat}

theorem checkLog_of_safe (h : ReplicaSafe top owner committed r) :
    PartitionModel.checkLog r = .ok () := by
  rw [PartitionModel.checkLog, forM_eq_ok]
  rintro ⟨e, i⟩ hmem
  rw [mem_zipIdx_iff_getElem?] at hmem
  simp only [h.numbered i e hmem, ne_eq, not_true_eq_false, if_false]

/-- The committed values below a known commit are the digests of any log that
    has the committed entries up to there. -/
theorem Safe.digest_of_prefix_take {log : List LogEntry} (h : Safe m committed) {k : Nat}
    (hk : k < committed.length) (hlog : committed.take (k + 1) <+: log) {o : Nat} (ho : o ≤ k) :
    ∃ v, m.committedValues[o]? = some v ∧ log[o]?.map (·.digest) = some v := by
  have hlt : o < committed.length := by omega
  refine ⟨committed[o].digest, ?_, ?_⟩
  · rw [h.values o, getElem?_eq_getElem hlt, Option.map_some]
  · have hget : (committed.take (k + 1))[o]? = some committed[o] := by
      rw [getElem?_take_of_lt (by omega), getElem?_eq_getElem hlt]
    rw [prefix_getElem? hlog hget, Option.map_some]

theorem checkKnown_of_safe (h : Safe m committed) (hr : m.replicas[n]? = some r) :
    m.checkKnown r = .ok () := by
  unfold PartitionModel.checkKnown
  rcases hc : r.committed with _ | k
  · rfl
  · simp only []
    rw [forM_eq_ok]
    intro o ho
    rcases (h.replica n r hr).known k hc with ⟨hk, hprefix⟩
    rcases h.digest_of_prefix_take hk hprefix (Nat.lt_succ_iff.mp (mem_range.mp ho)) with
      ⟨v, hv, hd⟩
    simp only [hv, Replica.entry, hd, ne_eq, not_true_eq_false, if_false]

/-- The invariant implies the check the model runs after every mutation. -/
theorem checkInvariants_of_safe (h : Safe m committed) : m.checkInvariants = .ok () := by
  rw [PartitionModel.checkInvariants, checkCommitted_of_safe h]
  refine (forM_eq_ok _ _).mpr ?_
  rintro ⟨n, r⟩ hmem
  have hr := Std.ExtTreeMap.mem_toList_iff_getElem?_eq_some.mp hmem
  simp only [checkLog_of_safe (h.replica n r hr), checkKnown_of_safe h hr]
  rfl

/-! ## Replacing one replica -/

/-- The leader's log after one replica was replaced, when the leader keeps its
    log. -/
theorem leaderLog_insert (hr : m.replicas[n]? = some r)
    (hleader : ∀ l, m.leader = some l → l.node = n → r'.log = r.log) :
    (m.setReplica n r').leaderLog = m.leaderLog := by
  unfold PartitionModel.leaderLog PartitionModel.setReplica
  rcases hl : m.leader with _ | l
  · rfl
  · simp only [Option.bind_some, getElem?_insert_eq]
    by_cases hn : n = l.node
    · subst hn
      simp only [if_true, Option.elim_some, hr, hleader l hl rfl]
    · simp only [hn, if_false]

/-- Replacing a replica keeps the leader's node among the replicas. -/
theorem Safe.elected_insert (h : Safe m committed) (n : Nat) (r' : Replica) (l : Leader)
    (hl : m.leader = some l) : 0 < l.epoch ∧ ∃ r, (m.replicas.insert n r')[l.node]? = some r := by
  rcases h.elected l hl with ⟨hpos, s, hs⟩
  refine ⟨hpos, ?_⟩
  simp only [getElem?_insert_eq]
  by_cases hk : n = l.node
  · exact ⟨r', if_pos hk⟩
  · exact ⟨s, by rw [if_neg hk, hs]⟩

/-- Replacing one replica keeps the invariant when the new log is part of a log
    that was already there, the replica gives up neither the committed entries
    nor its promise, and the leader keeps its log. -/
theorem Safe.update (h : Safe m committed) (hr : m.replicas[n]? = some r)
    (hsafe : ReplicaSafe m.leaderEpoch m.leaderLog committed r')
    (hsource : ∃ (k : Nat) (s : Replica), m.replicas[k]? = some s ∧ r'.log <+: s.log)
    (hheld : committed <+: r.log → committed <+: r'.log)
    (hpromised : r.promisedEpoch ≤ r'.promisedEpoch)
    (hleader : ∀ l, m.leader = some l → l.node = n → r'.log = r.log) :
    Safe (m.setReplica n r') committed := by
  have hlog := leaderLog_insert hr hleader
  -- Every log of the new state is part of a log of the old one.
  have hold : ∀ (k : Nat) (s : Replica), (m.replicas.insert n r')[k]? = some s →
      ∃ (k' : Nat) (s' : Replica), m.replicas[k']? = some s' ∧ s.log <+: s'.log := by
    intro k s hs
    rcases getElem?_insert_cases hs with ⟨_, rfl⟩ | ⟨_, hs⟩
    · exact hsource
    · exact ⟨k, s, hs, prefix_rfl⟩
  refine ⟨h.values, ?_, ?_, h.elected_insert n r', ?_, h.held.insert hr hheld,
    h.promised.insert hr (fun hp => le_trans hp hpromised)⟩
  · intro k s hs
    rw [hlog]
    rcases getElem?_insert_cases hs with ⟨_, rfl⟩ | ⟨_, hs⟩
    · exact hsafe
    · exact h.replica k s hs
  · intro k k' s s' hs hs'
    rcases hold k s hs with ⟨a, ra, hra, hpa⟩
    rcases hold k' s' hs' with ⟨b, rb, hrb, hpb⟩
    exact coherent_prefix_mono (h.coherent a b ra rb hra hrb) hpa hpb
  · rw [hlog]
    exact h.leads

/-! ## Outcomes of calls -/

/-- A call keeps the invariant, possibly for more committed entries, and does
    not report a breach. -/
def KeepsSafe {α : Type} (committed : List LogEntry)
    (out : Except ModelError α × PartitionModel) : Prop :=
  ∃ committed', committed <+: committed' ∧ Safe out.2 committed' ∧
    ∀ e, out.1 = .error e → e.isBreach = false

/-- The same, and a call that fails changes nothing. -/
def Settles {α : Type} (m : PartitionModel) (committed : List LogEntry)
    (out : Except ModelError α × PartitionModel) : Prop :=
  KeepsSafe committed out ∧ ∀ e, out.1 = .error e → out.2 = m

theorem Safe.refuse (h : Safe m committed) {e : ModelError} (he : e.isBreach = false) :
    Settles (α := α) m committed (.error e, m) := by
  refine ⟨⟨committed, prefix_rfl, h, ?_⟩, fun _ _ => rfl⟩
  intro e' he'
  simp only [Except.error.injEq] at he'
  rw [← he', he]

theorem Safe.finish {m' : PartitionModel} (h : Safe m' committed) (a : α) :
    Settles m committed (.ok a, m') :=
  ⟨⟨committed, prefix_rfl, h, fun e he => by simp only [reduceCtorEq] at he⟩,
    fun e he => by simp only [reduceCtorEq] at he⟩

theorem Settles.extend {committed' : List LogEntry} {out : Except ModelError α × PartitionModel}
    (hp : committed <+: committed') (h : Settles m committed' out) : Settles m committed out := by
  rcases h with ⟨⟨last, hlast, hsafe, hbreach⟩, hsame⟩
  exact ⟨⟨last, hp.trans hlast, hsafe, hbreach⟩, hsame⟩

/-- The invariant of a replica reads its log and its known commit only. -/
theorem ReplicaSafe.congr (h : ReplicaSafe top owner committed r) (hlog : r'.log = r.log)
    (hknown : r'.committed = r.committed) : ReplicaSafe top owner committed r' := by
  rcases r' with ⟨p, log, known⟩
  subst hlog hknown
  exact ⟨h.numbered, h.sorted, h.epochs, h.owned, h.later, h.known⟩

end KafkaModel

end Pepper
