import Pepper.Theory.Partition.Invariant

/-!
# Appends, Replication and Commits

Each of the calls between elections keeps the invariant of the partition
model.

Replication is where the source does most. It cuts the follower at the first
difference, copies what is missing and puts the entry in place, with an error
at each step that a well-behaved pair of logs never takes. `replicateLog_cases`
reduces all of it to two outcomes: the follower already had the leader's log up
to the entry, or it now has exactly that.

## Theorems

* `replicateLog_cases`: What replication does to a follower.
* `replicate_settles`, `commit_settles`, `append_settles`: The calls.
* `propagateCommit_safe`: Propagation under the condition of a run.
-/

namespace Pepper

namespace KafkaModel

open EpochLog List

/-! ## Replication -/

variable {k top : Nat} {committed : List LogEntry} {m : PartitionModel}
  {log pre : List LogEntry} {offset n : Nat} {l : Leader}

/-- Where a log and the leader's prefix first differ. -/
theorem firstMismatch_some (h : PartitionModel.firstMismatch log pre = some k) :
    k < log.length ∧ k < pre.length ∧ log[k]? ≠ pre[k]? ∧ log.take k = pre.take k := by
  rw [PartitionModel.firstMismatch, find?_range_eq_some] at h
  rcases h with ⟨hne, hk, hbef⟩
  rw [mem_range] at hk
  refine ⟨by omega, by omega, by simpa using hne, ?_⟩
  refine ext_getElem? fun i => ?_
  by_cases hi : i < k
  · rw [getElem?_take_of_lt hi, getElem?_take_of_lt hi]
    simpa using hbef i hi
  · rw [getElem?_take_eq_none (by omega), getElem?_take_eq_none (by omega)]

theorem firstMismatch_none (h : PartitionModel.firstMismatch log pre = none) :
    log.take pre.length = pre.take log.length := by
  rw [PartitionModel.firstMismatch, find?_range_eq_none] at h
  refine ext_getElem? fun i => ?_
  by_cases hi : i < min log.length pre.length
  · rw [getElem?_take_of_lt (by omega), getElem?_take_of_lt (by omega)]
    simpa using h i hi
  · rw [getElem?_eq_none (by rw [length_take]; omega),
      getElem?_eq_none (by rw [length_take]; omega)]

variable {r : Replica}

/-- Cutting at an offset succeeds where nothing at or after it is known to be
    committed. -/
theorem truncateUncommitted_ok (h : ∀ k, r.committed = some k → k < offset) :
    r.truncateUncommitted offset = .ok { r with log := r.log.take offset } := by
  unfold Replica.truncateUncommitted
  rw [if_neg]
  rcases hc : r.committed with _ | k
  · simp only [Option.any_none, Bool.false_eq_true, not_false_eq_true]
  · have := h k hc
    simp only [Option.any_some, decide_eq_true_eq]
    omega

section Follower

variable {r : Replica} {owner : List LogEntry} {e : LogEntry}

/-- Repairing and extending a follower leaves it with the leader's prefix, or
    as it was when it already had that prefix. Nothing committed is cut, since
    there the follower agrees with the leader. -/
theorem repair_extend (he : owner[e.offset]? = some e)
    (hknown : ∀ k, r.committed = some k → r.log.take (k + 1) = owner.take (k + 1)) :
    ∃ r', PartitionModel.repairLog r (owner.take e.offset) = .ok r' ∧
      (PartitionModel.extendLog r' (owner.take e.offset) =
          { r with log := owner.take e.offset } ∧ ¬ owner.take (e.offset + 1) <+: r.log ∨
        PartitionModel.extendLog r' (owner.take e.offset) = r ∧
          owner.take e.offset <+: r.log ∧ e.offset < r.log.length) := by
  have hlt := lt_length_of_getElem? he
  have hlen : (owner.take e.offset).length = e.offset := by
    rw [length_take]
    omega
  unfold PartitionModel.repairLog PartitionModel.extendLog
  rcases hm : PartitionModel.firstMismatch r.log (owner.take e.offset) with _ | k
  · have hagrees := firstMismatch_none hm
    rw [hlen] at hagrees
    refine ⟨r, rfl, ?_⟩
    by_cases hshort : r.log.length ≤ e.offset
    · -- The follower is a prefix of the leader's prefix, and the rest is copied.
      refine Or.inl ⟨?_, ?_⟩
      · rw [take_of_length_le hshort] at hagrees
        have hcopy : r.log ++ (owner.take e.offset).drop r.log.length = owner.take e.offset := by
          nth_rewrite 1 [hagrees]
          exact take_append_drop _ _
        rw [hcopy]
      · intro hp
        have := hp.length_le
        rw [length_take] at this
        omega
    · -- It reaches beyond the entry, and nothing is copied.
      refine Or.inr ⟨?_, ?_, by omega⟩
      · rw [drop_of_length_le (by rw [hlen]; omega), append_nil]
      · have hwhole : (owner.take e.offset).take r.log.length = owner.take e.offset :=
          take_of_length_le (by rw [hlen]; omega)
        rw [← hwhole, ← hagrees]
        exact take_prefix _ _
  · -- It is cut at the first difference, which lies behind what it committed.
    rcases firstMismatch_some hm with ⟨hk, hkpre, hne, htake⟩
    rw [hlen] at hkpre
    rw [getElem?_take_of_lt hkpre] at hne
    have hcut : ∀ c, r.committed = some c → c < k := by
      intro c hc
      by_contra hle
      have heq := congrArg (·[k]?) (hknown c hc)
      simp only [getElem?_take_of_lt (show k < c + 1 by omega)] at heq
      exact hne heq
    refine ⟨_, truncateUncommitted_ok hcut, Or.inl ⟨?_, ?_⟩⟩
    · simp only [htake, Replica.mk.injEq, true_and, and_true]
      rw [length_take, hlen, min_eq_left (by omega), take_append_drop]
    · intro hp
      have heq := prefix_getElem? hp (i := k) (x := owner[k])
        (by rw [getElem?_take_of_lt (by omega), getElem?_eq_getElem])
      exact hne (by rw [heq, getElem?_eq_getElem])

/-- What replication does to a follower that agrees with the leader wherever it
    knows of a commit: nothing, if it has the leader's log up to the entry, and
    otherwise its log becomes just that. -/
theorem replicateLog_cases (he : owner[e.offset]? = some e)
    (hknown : ∀ k, r.committed = some k → r.log.take (k + 1) = owner.take (k + 1)) :
    PartitionModel.replicateLog r (owner.take e.offset) e = (.ok false, r) ∨
      PartitionModel.replicateLog r (owner.take e.offset) e =
          (.ok true, { r with log := owner.take (e.offset + 1) }) ∧
        ¬ owner.take (e.offset + 1) <+: r.log := by
  have hlt := lt_length_of_getElem? he
  have hlen : (owner.take e.offset).length = e.offset := by
    rw [length_take]
    omega
  have hsucc : owner.take (e.offset + 1) = owner.take e.offset ++ [e] := by
    rw [take_add_one, he]
    rfl
  rcases repair_extend he hknown with ⟨r', hrepair, ⟨hext, hnot⟩ | ⟨hext, hpre, hlong⟩⟩
  · refine Or.inr ⟨?_, hnot⟩
    rw [PartitionModel.replicateLog, hrepair]
    simp only [hext, PartitionModel.placeEntry, hlen, lt_irrefl, if_false, ne_eq,
      not_true_eq_false, hsucc, take_take, min_self]
    rw [if_neg]
    rw [getElem?_take_eq_none le_rfl]
    simp
  · rw [PartitionModel.replicateLog, hrepair]
    simp only [hext, PartitionModel.placeEntry]
    by_cases hthere : r.log[e.offset]? = some e
    · exact Or.inl (by simp only [hthere, if_true])
    · right
      have hcut : ∀ c, r.committed = some c → c < e.offset := by
        intro c hc
        by_contra hle
        have heq := congrArg (·[e.offset]?) (hknown c hc)
        simp only [getElem?_take_of_lt (show e.offset < c + 1 by omega), he] at heq
        exact hthere heq
      have htake : r.log.take e.offset = owner.take e.offset := by
        rw [prefix_take_eq hpre (by omega), take_take, min_self]
      refine ⟨?_, ?_⟩
      · simp only [hthere, if_false, hlong, if_true, truncateUncommitted_ok hcut, htake, hlen,
          ne_eq, not_true_eq_false, take_take, min_self, hsucc]
      · intro hp
        refine hthere (prefix_getElem? hp ?_)
        rw [getElem?_take_of_lt (by omega), he]

end Follower

/-- A follower whose log was replaced by a cut of the leader's that it did not
    have. -/
theorem ReplicaSafe.take_owner {leader : Replica} (hl : ReplicaSafe top leader.log committed leader)
    (hlead : committed <+: leader.log) (hr : ReplicaSafe top leader.log committed r)
    (hnot : ¬ leader.log.take n <+: r.log) :
    ReplicaSafe top leader.log committed { r with log := leader.log.take n } := by
  have hcut : leader.log.take n <+: leader.log := take_prefix n leader.log
  refine ⟨?_, epochSorted_prefix_mono hl.sorted hcut, ?_, ?_, ?_, ?_⟩
  · intro i e he
    exact hl.numbered i e (prefix_getElem? hcut he)
  · intro e he
    exact hl.epochs e (hcut.subset he)
  · intro i e he _
    exact prefix_getElem? hcut he
  · intro c hc y hy hlt
    exact prefix_take_of_later hlead hl.sorted hc hy hlt
  · intro k hk
    rcases hr.known k hk with ⟨hlen, hpre⟩
    exact ⟨hlen, prefix_take_of_not_prefix (( take_prefix _ _).trans hlead) hpre hnot⟩

theorem replicate_settles (h : Safe m committed) (follower : Nat) (e : LogEntry) :
    Settles m committed (m.replicate follower e) := by
  unfold PartitionModel.replicate
  rcases hl : m.leader with _ | l
  · exact h.refuse rfl
  simp only []
  by_cases hguard : e.epoch ≠ l.epoch ∨ follower = l.node
  · rw [if_pos hguard]
    exact h.refuse rfl
  rw [if_neg hguard]
  rcases hlr : m.replicas[l.node]? with _ | leader
  · exact h.refuse rfl
  simp only []
  by_cases hent : leader.entry e.offset ≠ some e
  · rw [if_pos hent]
    exact h.refuse rfl
  rw [if_neg hent]
  rcases hr : m.replicas[follower]? with _ | r
  · exact h.refuse rfl
  simp only []
  by_cases hpromised : e.epoch < r.promisedEpoch
  · rw [if_pos hpromised]
    exact h.refuse rfl
  rw [if_neg hpromised]
  -- The call goes through: the follower agrees with the leader wherever it
  -- knows of a commit, so the only outcomes are the two of `replicateLog`.
  have hlog : m.leaderLog = leader.log := PartitionModel.leaderLog_eq hl hlr
  have hlead : committed <+: leader.log := hlog ▸ h.leads
  have hsafe : ReplicaSafe m.leaderEpoch leader.log committed r := hlog ▸ h.replica _ _ hr
  have hlsafe : ReplicaSafe m.leaderEpoch leader.log committed leader := hlog ▸ h.replica _ _ hlr
  have hother : ∀ l', m.leader = some l' → l'.node ≠ follower := by
    intro l' hl' hn
    cases Option.mem_unique hl hl'
    exact hguard (Or.inr hn.symm)
  have hagrees : ∀ k, r.committed = some k → r.log.take (k + 1) = leader.log.take (k + 1) := by
    intro k hk
    rcases hsafe.known k hk with ⟨hlen, hpre⟩
    have hlen' : k + 1 ≤ (committed.take (k + 1)).length := by
      rw [length_take]
      omega
    rw [prefix_take_eq hpre hlen',
      prefix_take_eq (( take_prefix (k + 1) committed).trans hlead) hlen']
  rcases replicateLog_cases (r := { r with promisedEpoch := e.epoch })
    (not_not.mp hent) hagrees with hcase | ⟨hcase, hnot⟩
  · simp only [hcase]
    have hsame : ReplicaSafe m.leaderEpoch m.leaderLog committed
        { r with promisedEpoch := e.epoch } := (h.replica _ _ hr).congr rfl rfl
    exact (h.update hr hsame ⟨follower, r, hr, prefix_rfl⟩ id
      (Nat.le_of_not_lt hpromised) (fun l' hl' hn => absurd hn (hother l' hl'))).finish ()
  · simp only [hcase]
    have hnew : ReplicaSafe m.leaderEpoch m.leaderLog committed
        { r with promisedEpoch := e.epoch, log := leader.log.take (e.offset + 1) } := by
      rw [hlog]
      exact (hlsafe.take_owner hlead hsafe hnot).congr rfl rfl
    have hsafe' := Safe.update h hr hnew ⟨l.node, leader, hlr, take_prefix _ _⟩
      (fun hheld => prefix_take_of_not_prefix hlead hheld hnot) (Nat.le_of_not_lt hpromised)
      (fun l' hl' hn => absurd hn (hother l' hl'))
    rw [checkInvariants_of_safe hsafe']
    exact hsafe'.finish ()

/-! ## Commits and their propagation -/

theorem ReplicaSafe.learn {owner : List LogEntry} (h : ReplicaSafe top owner committed r)
    (hk : k < committed.length) (hpre : committed.take (k + 1) <+: r.log) :
    ReplicaSafe top owner committed { r with committed := some k } := by
  refine ⟨h.numbered, h.sorted, h.epochs, h.owned, h.later, ?_⟩
  intro k' hk'
  cases hk'
  exact ⟨hk, hpre⟩

section

variable (h : Safe m committed)

include h

/-- Telling a replica about a commit it has the entries of. -/
theorem Safe.learn (hr : m.replicas[n]? = some r) (hk : k < committed.length)
    (hpre : committed.take (k + 1) <+: r.log) :
    Safe (m.setReplica n { r with committed := some k }) committed :=
  h.update hr ((h.replica n r hr).learn hk hpre) ⟨n, r, hr, prefix_rfl⟩ id le_rfl (fun _ _ _ => rfl)

theorem propagateCommit_safe {node : Nat}
    (hguard : PropagatesLeaderLog m (.propagateCommit node offset)) :
    Safe (m.propagateCommit node offset).2 committed := by
  unfold PartitionModel.propagateCommit
  rcases hv : m.committedValues[offset]? with _ | v
  · exact h
  rcases hr : m.replicas[node]? with _ | r
  · exact h
  simp only []
  by_cases hd : (r.entry offset).map (·.digest) ≠ some v
  · rw [if_pos hd]
    exact h
  · rw [if_neg hd]
    have hshared := hguard r hr v hv (not_not.mp hd)
    have hlen : offset < committed.length :=
      (h.mem_committedValues offset).mp (mem_iff_exists.mpr ⟨_, hv⟩)
    refine h.learn hr hlen ?_
    rw [← prefix_take_eq h.leads hlen, ← hshared]
    exact take_prefix _ _

/-- More committed entries: the leader and a majority have them, and no entry
    anywhere is of a later epoch than the last of them without the rest. -/
theorem Safe.extend {committed' : List LogEntry} (hext : committed <+: committed')
    {values : BTreeMap Nat Nat} (hvalues : ∀ o : Nat, values[o]? = committed'[o]?.map (·.digest))
    (hlead : committed' <+: m.leaderLog) (hheld : m.MajorityOf fun r => committed' <+: r.log)
    (hlater : ∀ (n : Nat) (r : Replica), m.replicas[n]? = some r →
      ∀ c ∈ committed'.getLast?, ∀ y ∈ r.log, c.epoch < y.epoch → committed' <+: r.log) :
    Safe { m with committedValues := values } committed' := by
  refine ⟨hvalues, ?_, h.coherent, h.elected, hlead, hheld, h.promised⟩
  intro n r hr
  have hsafe := h.replica n r hr
  refine ⟨hsafe.numbered, hsafe.sorted, hsafe.epochs, hsafe.owned, hlater n r hr, ?_⟩
  intro k hk
  rcases hsafe.known k hk with ⟨hlen, hpre⟩
  refine ⟨lt_of_lt_of_le hlen hext.length_le, ?_⟩
  rw [prefix_take_eq hext hlen]
  exact hpre

/-- Committing the next entry of the leader's log, which is of the leader's own
    epoch and stands on a majority. Every replica that has the entry has the
    leader's log before it. -/
theorem Safe.commit_next {e : LogEntry} (hl : m.leader = some l) (hr : m.replicas[l.node]? = some r)
    (he : r.log[committed.length]? = some e) (hepoch : e.epoch = l.epoch)
    (hcount : m.quorum ≤ m.replicas.toList.countP (fun s => s.2.entry committed.length = some e)) :
    Safe { m with committedValues := m.committedValues.insert committed.length e.digest }
      (committed ++ [e]) := by
  have hlog : m.leaderLog = r.log := PartitionModel.leaderLog_eq hl hr
  have hlead : committed <+: r.log := hlog ▸ h.leads
  have htake : r.log.take (committed.length + 1) = committed ++ [e] := by
    rw [take_add_one, he, prefix_take_eq hlead le_rfl, take_length]
    rfl
  refine h.extend (prefix_append _ _) ?_ ?_ ?_ ?_
  · intro o
    rw [getElem?_insert_eq, h.values]
    by_cases ho : committed.length = o
    · subst ho
      simp only [if_true, getElem?_concat_length, Option.map_some]
    · rw [if_neg ho]
      by_cases hlt : o < committed.length
      · rw [getElem?_append_left hlt]
      · rw [getElem?_eq_none (by omega), getElem?_eq_none
          (by rw [length_append, length_singleton]; omega)]
  · rw [hlog, ← htake]
    exact take_prefix _ _
  · rcases exists_keys_of_countP m.replicas (fun s => s.entry committed.length = some e) with
      ⟨q, hcard, hq⟩
    refine ⟨q, hcard ▸ hcount, ?_⟩
    intro n hn
    rcases hq n hn with ⟨s, hs, hmatch⟩
    refine ⟨s, hs, ?_⟩
    have hse : s.log[committed.length]? = some e := of_decide_eq_true hmatch
    have := h.coherent _ _ r s hr hs _ _ e e le_rfl he hse rfl
    rw [← htake, ← this]
    exact take_prefix _ _
  · intro n s hs c hc y hy hlt
    -- The new last entry is of the leader's epoch, which bounds every other.
    simp only [getLast?_append, getLast?_singleton, Option.some_or,
      Option.mem_def, Option.some.injEq] at hc
    have := ((h.replica n s hs).epochs y hy).2
    rw [PartitionModel.leaderEpoch_eq hl, ← hepoch, hc] at this
    omega

/-- Committing an offset again writes the digest that is already there. -/
theorem Safe.commit_again {o : Nat} {e : LogEntry} (he : committed[o]? = some e) :
    Safe { m with committedValues := m.committedValues.insert o e.digest } committed := by
  refine h.extend prefix_rfl ?_ h.leads h.held (fun n r hr => (h.replica n r hr).later)
  intro o'
  rw [getElem?_insert_eq, h.values]
  by_cases ho : o = o'
  · subst ho
    simp only [if_true, he, Option.map_some]
  · rw [if_neg ho]

theorem commit_settles (offset : Nat) : Settles m committed (m.commit offset) := by
  unfold PartitionModel.commit
  rcases hl : m.leader with _ | l
  · exact h.refuse rfl
  simp only []
  rcases hr : m.replicas[l.node]? with _ | r
  · exact h.refuse rfl
  simp only []
  rcases he : r.entry offset with _ | e
  · exact h.refuse rfl
  simp only []
  by_cases hepoch : e.epoch ≠ l.epoch
  · rw [if_pos hepoch]
    exact h.refuse rfl
  rw [if_neg hepoch]
  by_cases hcount : m.replicas.toList.countP (fun s => s.2.entry offset = some e) < m.quorum
  · rw [if_pos hcount]
    exact h.refuse rfl
  rw [if_neg hcount]
  by_cases hgap : 0 < offset ∧ (offset - 1) ∉ m.committedValues
  · rw [if_pos hgap]
    exact h.refuse rfl
  rw [if_neg hgap]
  have hlog : m.leaderLog = r.log := PartitionModel.leaderLog_eq hl hr
  have hoff : offset ≤ committed.length := by
    by_contra hlt
    rw [h.mem_committedValues] at hgap
    omega
  rcases Nat.lt_or_ge offset committed.length with hlt | hge
  · -- The offset was committed before, with the entry that the leader has.
    have hold : committed[offset]? = some e := by
      have hget : committed[offset]? = some committed[offset] := getElem?_eq_getElem hlt
      have := prefix_getElem? h.leads hget
      rw [hlog, show r.log[offset]? = some e from he, Option.some.injEq] at this
      rw [hget, ← this]
    have hsame : m.committedValues[offset]?.any (· ≠ e.digest) = false := by
      rw [h.values, hold]
      simp only [Option.map_some, Option.any_some, ne_eq, not_true_eq_false, decide_false]
    rw [hsame, if_neg Bool.false_ne_true, ← hl]
    have hsafe := (h.commit_again hold).learn (n := l.node) hr hlt (by
      rw [← hlog]
      exact ( take_prefix _ _).trans h.leads)
    rw [checkInvariants_of_safe hsafe]
    exact hsafe.finish ()
  · -- It is the next one: a quorum has the entry, under the epoch of the leader.
    have heq : offset = committed.length := by omega
    subst heq
    have hnone : m.committedValues[committed.length]?.any (· ≠ e.digest) = false := by
      rw [h.values, getElem?_eq_none le_rfl]
      rfl
    rw [hnone, if_neg Bool.false_ne_true, ← hl]
    have hnext := h.commit_next hl hr he (not_not.mp hepoch) (Nat.le_of_not_lt hcount)
    have hsafe := hnext.learn (n := l.node) hr
      (k := committed.length) (by rw [length_append, length_singleton]; omega) (by
        have hlog' := PartitionModel.leaderLog_eq (m := { m with
          committedValues := m.committedValues.insert committed.length e.digest }) hl hr
        exact ( take_prefix _ _).trans (hlog' ▸ hnext.leads))
    rw [checkInvariants_of_safe hsafe]
    exact (hsafe.finish ()).extend (prefix_append _ _)

end

/-! ## Appends -/

/-- The leader's own log after an append. -/
theorem ReplicaSafe.append (h : ReplicaSafe top r.log committed r) (hlead : committed <+: r.log)
    (htop : 0 < top) (digest : Nat) :
    ReplicaSafe top (r.log ++ [⟨r.log.length, top, digest⟩]) committed
      { r with log := r.log ++ [⟨r.log.length, top, digest⟩] } := by
  refine ⟨?_, epochSorted_concat h.sorted (fun x hx => (h.epochs x hx).2), ?_, ?_, ?_, ?_⟩
  · intro i e he
    rcases getElem?_concat_cases he with hold | ⟨hi, hnew⟩
    · exact h.numbered i e hold
    · rw [hnew, hi]
  · intro e he
    rcases mem_append.mp he with hold | hnew
    · exact h.epochs e hold
    · rw [mem_singleton.mp hnew]
      exact ⟨htop, le_rfl⟩
  · exact fun _ _ he _ => he
  · exact fun _ _ _ _ _ => hlead.trans (prefix_append _ _)
  · intro k hk
    rcases h.known k hk with ⟨hlen, hpre⟩
    exact ⟨hlen, hpre.trans (prefix_append _ _)⟩

theorem Safe.append (h : Safe m committed) (hl : m.leader = some l)
    (hr : m.replicas[l.node]? = some r) (digest : Nat) :
    Safe (m.setReplica l.node { r with log := r.log ++ [⟨r.log.length, l.epoch, digest⟩] })
      committed := by
  have hlog : m.leaderLog = r.log := PartitionModel.leaderLog_eq hl hr
  have htop : m.leaderEpoch = l.epoch := PartitionModel.leaderEpoch_eq hl
  have hlead : committed <+: r.log := hlog ▸ h.leads
  have hext : r.log <+: r.log ++ [⟨r.log.length, l.epoch, digest⟩] := prefix_append _ _
  -- The leader owns its epoch, so its log may grow within it.
  have hsafe : ∀ (k : Nat) (s : Replica), m.replicas[k]? = some s →
      ReplicaSafe l.epoch r.log committed s := by
    intro k s hs
    rw [← hlog, ← htop]
    exact h.replica k s hs
  set r' : Replica := { r with log := r.log ++ [⟨r.log.length, l.epoch, digest⟩] } with hr'
  have hlog' : (m.setReplica l.node r').leaderLog = r'.log :=
    PartitionModel.leaderLog_eq (m := m.setReplica l.node r') hl
      (by rw [PartitionModel.setReplica, getElem?_insert_eq, if_pos rfl])
  have htop' : (m.setReplica l.node r').leaderEpoch = l.epoch :=
    PartitionModel.leaderEpoch_eq (m := m.setReplica l.node r') hl
  refine ⟨h.values, ?_, ?_, h.elected_insert _ _, ?_,
    h.held.insert hr (fun hp => hp.trans hext), h.promised.insert hr id⟩
  · intro k s hs
    rw [hlog', htop']
    rcases getElem?_insert_cases hs with ⟨_, rfl⟩ | ⟨_, hs⟩
    · exact (hsafe _ r hr).append hlead (h.elected l hl).1 digest
    · -- For the other replicas only what the leader owns changes.
      have hs' := hsafe k s hs
      exact ⟨hs'.numbered, hs'.sorted, hs'.epochs, fun i e he htop =>
        prefix_getElem? hext (hs'.owned i e he htop), hs'.later, hs'.known⟩
  · intro k k' s s' hs hs'
    rcases getElem?_insert_cases hs with ⟨_, rfl⟩ | ⟨_, hs⟩
    · rcases getElem?_insert_cases hs' with ⟨_, rfl⟩ | ⟨_, hs'⟩
      · exact coherent_refl _
      · exact coherent_concat_left (h.coherent _ _ r s' hr hs') (hsafe k' s' hs').owned
    · rcases getElem?_insert_cases hs' with ⟨_, rfl⟩ | ⟨_, hs'⟩
      · exact coherent_concat_right (h.coherent _ _ s r hs hr) (hsafe k s hs).owned
      · exact h.coherent _ _ s s' hs hs'
  · rw [hlog']
    exact hlead.trans hext

theorem append_settles (h : Safe m committed) (digest : Nat) :
    Settles m committed (m.append digest) := by
  unfold PartitionModel.append
  rcases hl : m.leader with _ | l
  · exact h.refuse rfl
  simp only []
  rcases hr : m.replicas[l.node]? with _ | r
  · exact h.refuse rfl
  simp only []
  by_cases hpromised : r.promisedEpoch ≠ l.epoch
  · rw [if_pos hpromised]
    exact h.refuse rfl
  rw [if_neg hpromised]
  have hsafe := h.append hl hr digest
  rw [checkInvariants_of_safe hsafe]
  exact hsafe.finish _

end KafkaModel

end Pepper
