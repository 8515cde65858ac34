import Pepper.Theory.Partition.Invariant

/-!
# Elections

An election by a majority installs a log with every committed entry.

One voter holds the committed entries, since a majority does. The installed
log has at least its key, and by coherence it then holds them too. The checks
on the way (no voter reaches the known commit, the source lacks a committed
value) are shown never to fire.

## Main definitions

* `ReachesCommit`: A voter's log reaches the known commit.

## Theorems

* `electionSource_spec`: Which log an election installs.
* `Safe.source`: It has all committed entries.
* `elect_settles`: Elections keep the invariant.
-/

namespace Pepper

namespace KafkaModel

open EpochLog List

/-! ## Elections -/

/-- The replicas after the promises of an election. -/
theorem installLeader_getElem? (m : PartitionModel) (candidate epoch : Nat)
    (voters : BTreeSet Nat) (source : List LogEntry) (safe : Option Nat) (n : Nat) :
    (m.installLeader candidate epoch voters source safe).replicas[n]? = m.replicas[n]?.map fun r =>
        ⟨if n ∈ voters then epoch else r.promisedEpoch, if candidate = n then source else r.log,
          if candidate = n then safe else r.committed⟩ := by
  simp only [PartitionModel.installLeader, getElem?_modify_eq]
  rw [getElem?_foldl_modify (fun r : Replica => { r with promisedEpoch := epoch }) fun _ => rfl]
  simp only [Std.ExtTreeSet.mem_toList]
  rcases m.replicas[n]? with _ | r
  · simp only [Option.map_none, ite_self]
  · by_cases hv : n ∈ voters <;> by_cases hc : candidate = n <;>
      simp only [hv, hc, if_true, if_false, Option.map_some]

variable {m : PartitionModel} {voters : BTreeSet Nat} {n : Nat} {r : Replica}
  {committed : List LogEntry}

/-- The known commit of an election is one voter's. -/
theorem safeCommitted_mem {k : Nat} (h : m.safeCommitted voters = some k) :
    ∃ n ∈ voters, ∃ r, m.replicas[n]? = some r ∧ r.committed = some k := by
  have hmem := max?_mem h
  rcases mem_filterMap.mp hmem with ⟨n, hn, hk⟩
  rcases Option.bind_eq_some_iff.mp hk with ⟨r, hr, hc⟩
  exact ⟨n, Std.ExtTreeSet.mem_toList.mp hn, r, hr, hc⟩

/-- A voter's log reaches the known commit of an election. -/
def ReachesCommit (safe : Option Nat) (r : Replica) : Prop :=
  ∀ k, safe = some k → ∃ last, r.lastOffset = some last ∧ k ≤ last

theorem mem_reachingVoters : (n, r) ∈ m.reachingVoters voters ↔
      n ∈ voters ∧ m.replicas[n]? = some r ∧ ReachesCommit (m.safeCommitted voters) r := by
  rw [PartitionModel.reachingVoters, mem_filter, mem_filterMap]
  have hreach : ((m.safeCommitted voters).all fun offset =>
      r.lastOffset.any fun last => offset ≤ last) = true ↔
      ReachesCommit (m.safeCommitted voters) r := by
    simp only [ReachesCommit, Option.all_eq_true, Option.any_eq_true, decide_eq_true_eq]
  rw [hreach]
  constructor
  · rintro ⟨⟨k, hk, hmap⟩, hall⟩
    rcases Option.map_eq_some_iff.mp hmap with ⟨r', hr', heq⟩
    rcases Prod.mk.inj heq with ⟨rfl, rfl⟩
    exact ⟨Std.ExtTreeSet.mem_toList.mp hk, hr', hall⟩
  · rintro ⟨hn, hr, hall⟩
    exact ⟨⟨n, Std.ExtTreeSet.mem_toList.mpr hn, by rw [hr]; rfl⟩, hall⟩

/-- The log an election installs is one voter's, and its key is greatest among
    the voters that reach the known commit. -/
theorem electionSource_spec (hn : n ∈ voters) (hr : m.replicas[n]? = some r)
    (hreach : ReachesCommit (m.safeCommitted voters) r) :
    ∃ n' ∈ voters, ∃ r', m.replicas[n']? = some r' ∧ m.electionSource voters = some r'.log ∧
      PartitionModel.electionKey (n, r) ≤ PartitionModel.electionKey (n', r') := by
  have hmem := mem_reachingVoters.mpr ⟨hn, hr, hreach⟩
  rcases hmax : maxByKey PartitionModel.electionKey (m.reachingVoters voters) with _ | ⟨n', r'⟩
  · rw [maxByKey_eq_none.mp hmax] at hmem
    cases hmem
  · rcases mem_reachingVoters.mp (maxByKey_spec hmax).1 with ⟨hn', hr', _⟩
    refine ⟨n', hn', r', hr', ?_, (maxByKey_spec hmax).2 _ hmem⟩
    rw [PartitionModel.electionSource, hmax]
    rfl

/-- On a numbered log the election compares the last key, then the node. -/
theorem electionKey_eq (h : ∀ (i : Nat) e, r.log[i]? = some e → e.offset = i) :
    PartitionModel.electionKey (n, r) = toLex (lastKey LogEntry.epoch r.log, n) := by
  unfold PartitionModel.electionKey lastKey
  rcases hl : r.log.getLast? with _ | e
  · rfl
  · have hoff := h (r.log.length - 1) e (by rw [← getLast?_eq_getElem?, hl])
    simp only [hoff]

/-- Of the voters of an election one holds all committed entries, and it
    reaches every commit a voter knows of. -/
theorem Safe.carrier (h : Safe m committed) (hsize : m.quorum ≤ voters.size)
    (hpresent : ∀ n ∈ voters, ∃ r, m.replicas[n]? = some r) :
    ∃ n ∈ voters, ∃ r, m.replicas[n]? = some r ∧ committed <+: r.log ∧
      ReachesCommit (m.safeCommitted voters) r := by
  rcases h.held.meets_voters hsize hpresent with ⟨n, hn, r, hr, hpre⟩
  refine ⟨n, hn, r, hr, hpre, ?_⟩
  intro k hk
  rcases safeCommitted_mem hk with ⟨n', _, r', hr', hc⟩
  have hlt := ((h.replica n' r' hr').known k hc).1
  have hlen := hpre.length_le
  rcases hl : r.log.getLast? with _ | e
  · rw [getLast?_eq_none_iff.mp hl, length_nil] at hlen
    omega
  · have hoff := (h.replica n r hr).numbered (r.log.length - 1) e
      (by rw [← getLast?_eq_getElem?, hl])
    exact ⟨e.offset, by rw [Replica.lastOffset, hl]; rfl, by omega⟩

/-- The log an election installs has all committed entries. -/
theorem Safe.source (h : Safe m committed) (hsize : m.quorum ≤ voters.size)
    (hpresent : ∀ n ∈ voters, ∃ r, m.replicas[n]? = some r) :
    ∃ n ∈ voters, ∃ r, m.replicas[n]? = some r ∧ m.electionSource voters = some r.log ∧
      committed <+: r.log := by
  rcases h.carrier hsize hpresent with ⟨n, hn, v, hv, hpre, hreach⟩
  rcases electionSource_spec hn hv hreach with ⟨n', hn', d, hd, hsource, hkey⟩
  refine ⟨n', hn', d, hd, hsource, ?_⟩
  have hvs := h.replica n v hv
  have hds := h.replica n' d hd
  rw [electionKey_eq hvs.numbered, electionKey_eq hds.numbered, Prod.Lex.toLex_le_toLex] at hkey
  refine prefix_of_lastKey_le hpre hvs.sorted (fun e he => (hvs.epochs e he).1)
    (h.coherent n n' v d hv hd) hds.later ?_
  rcases hkey with hlt | ⟨heq, _⟩
  · exact hlt.le
  · exact heq.le

variable {epoch top : Nat} {owner : List LogEntry} {d : Replica} {safe : Option Nat}

/-- A replica of another epoch or log, when all its entries are older than the
    new leader's epoch. -/
theorem ReplicaSafe.newEpoch {source : List LogEntry} (h : ReplicaSafe top owner committed r)
    (hlt : top < epoch) : ReplicaSafe epoch source committed r := by
  refine ⟨h.numbered, h.sorted, ?_, ?_, h.later, h.known⟩
  · intro e he
    rcases h.epochs e he with ⟨hpos, hle⟩
    exact ⟨hpos, by omega⟩
  · intro i e he htop
    have := (h.epochs e (mem_of_getElem? he)).2
    omega

/-- The candidate after an election that gave it a log with all committed
    entries. -/
theorem ReplicaSafe.takeOver (hd : ReplicaSafe top owner committed d) (hpre : committed <+: d.log)
    (hsafe : ∀ k, safe = some k → k < committed.length) :
    ReplicaSafe top owner committed { r with log := d.log, committed := safe } := by
  refine ⟨hd.numbered, hd.sorted, hd.epochs, hd.owned, hd.later, ?_⟩
  intro k hk
  exact ⟨hsafe k hk, ( take_prefix _ _).trans hpre⟩

theorem Safe.install (h : Safe m committed) {candidate : Nat} (hsize : m.quorum ≤ voters.size)
    (hcandidate : candidate ∈ voters) (hpresent : ∀ n ∈ voters, ∃ r, m.replicas[n]? = some r)
    (hepoch : m.leaderEpoch < epoch) (hd : m.replicas[n]? = some d) (hpre : committed <+: d.log)
    (hsafe : ∀ k, safe = some k → k < committed.length) :
    Safe (m.installLeader candidate epoch voters d.log safe) committed := by
  set m' := m.installLeader candidate epoch voters d.log safe with hm'
  have hget := installLeader_getElem? m candidate epoch voters d.log safe
  have hsizes : m'.replicas.size = m.replicas.size := by
    rw [hm', PartitionModel.installLeader, Std.ExtTreeMap.size_modify, size_foldl_modify]
  rcases hpresent candidate hcandidate with ⟨c, hc⟩
  have hleader : m'.leader = some ⟨candidate, epoch⟩ := rfl
  have hcand : m'.replicas[candidate]? = some ⟨epoch, d.log, safe⟩ := by
    rw [hget, hc]
    simp only [hcandidate, if_true, Option.map_some]
  have hlog : m'.leaderLog = d.log := by rw [PartitionModel.leaderLog_eq hleader hcand]
  have htop : m'.leaderEpoch = epoch := PartitionModel.leaderEpoch_eq hleader
  -- The candidate has taken over the source; every other replica kept its log.
  have hold : ∀ (k : Nat) (s : Replica), m'.replicas[k]? = some s →
      ReplicaSafe epoch d.log committed s ∧
        ∃ (k' : Nat) (s' : Replica), m.replicas[k']? = some s' ∧ s.log = s'.log := by
    intro k s hs
    rw [hget] at hs
    rcases Option.map_eq_some_iff.mp hs with ⟨s', hs', rfl⟩
    by_cases hk : candidate = k
    · simp only [hk, if_true]
      exact ⟨(((h.replica n d hd).takeOver (r := s') hpre hsafe).newEpoch hepoch).congr rfl rfl,
        n, d, hd, rfl⟩
    · simp only [hk, if_false]
      exact ⟨((h.replica k s' hs').newEpoch hepoch).congr rfl rfl, k, s', hs', rfl⟩
  refine ⟨h.values, ?_, ?_, ?_, ?_, ?_, ?_⟩
  · intro k s hs
    rw [hlog, htop]
    exact (hold k s hs).1
  · intro k k' s s' hs hs'
    rcases (hold k s hs).2 with ⟨a, ra, hra, hla⟩
    rcases (hold k' s' hs').2 with ⟨b, rb, hrb, hlb⟩
    rw [hla, hlb]
    exact h.coherent a b ra rb hra hrb
  · intro l hl
    cases Option.mem_unique hleader hl
    exact ⟨by simp only []; omega, _, hcand⟩
  · rw [hlog]
    exact hpre
  · refine h.held.mono hsizes ?_
    intro k s hs hp
    rw [hget, hs]
    refine ⟨_, rfl, ?_⟩
    by_cases hk : candidate = k
    · simp only [hk, if_true]
      exact hpre
    · simp only [hk, if_false]
      exact hp
  · have hquo : m'.quorum ≤ voters.size := by
      rw [PartitionModel.quorum, hsizes]
      exact hsize
    refine PartitionModel.majorityOf_voters hquo ?_
    intro k hk
    rcases hpresent k hk with ⟨s, hs⟩
    rw [hget, hs]
    refine ⟨_, rfl, ?_⟩
    simp only [hk, if_true, htop, le_refl]

theorem elect_settles (h : Safe m committed) (candidate epoch : Nat) (voters : BTreeSet Nat) :
    Settles m committed (m.elect candidate epoch voters) := by
  unfold PartitionModel.elect
  by_cases hquo : voters.size < m.quorum ∨ candidate ∉ voters
  · rw [if_pos hquo]
    exact h.refuse rfl
  rw [if_neg hquo]
  by_cases hunknown : (voters.toList.any fun node => !m.replicas.contains node) = true
  · rw [if_pos hunknown]
    exact h.refuse rfl
  rw [if_neg hunknown]
  by_cases hstale : (voters.toList.any fun node =>
      m.replicas[node]?.any fun r => epoch ≤ r.promisedEpoch) = true
  · rw [if_pos hstale]
    exact h.refuse rfl
  rw [if_neg hstale]
  have hsize : m.quorum ≤ voters.size := by omega
  have hcandidate : candidate ∈ voters := by
    by_contra hc
    exact hquo (Or.inr hc)
  have hpresent : ∀ n ∈ voters, ∃ r, m.replicas[n]? = some r := by
    intro n hn
    rcases hr : m.replicas[n]? with _ | r
    · refine absurd (any_eq_true.mpr ⟨n, Std.ExtTreeSet.mem_toList.mpr hn, ?_⟩) hunknown
      rw [Std.ExtTreeMap.contains_eq_isSome_getElem?, hr]
      rfl
    · exact ⟨r, rfl⟩
  have hpromised : ∀ n ∈ voters, ∀ r, m.replicas[n]? = some r → r.promisedEpoch < epoch := by
    intro n hn r hr
    by_contra hle
    refine hstale (any_eq_true.mpr ⟨n, Std.ExtTreeSet.mem_toList.mpr hn, ?_⟩)
    rw [hr, Option.any_some, decide_eq_true_eq]
    omega
  -- A majority has promised the current epoch, so the new one is later.
  have hepoch : m.leaderEpoch < epoch := by
    rcases h.promised.meets_voters hsize hpresent with ⟨n, hn, r, hr, hle⟩
    exact lt_of_le_of_lt hle (hpromised n hn r hr)
  have hsafe : ∀ k, m.safeCommitted voters = some k → k < committed.length := by
    intro k hk
    rcases safeCommitted_mem hk with ⟨n, _, r, hr, hc⟩
    exact ((h.replica n r hr).known k hc).1
  rcases h.source hsize hpresent with ⟨n, _, d, hd, hsource, hpre⟩
  have hcheck : m.checkSource d.log (m.safeCommitted voters) = .ok () := by
    unfold PartitionModel.checkSource
    rcases hk : m.safeCommitted voters with _ | k
    · rfl
    · simp only []
      rw [forM_eq_ok]
      intro o ho
      rcases h.digest_of_prefix_take (hsafe k hk) (( take_prefix _ _).trans hpre)
        (Nat.lt_succ_iff.mp (mem_range.mp ho)) with ⟨v, hv, hdig⟩
      simp only [hv, hdig, ne_eq, not_true_eq_false, if_false]
  have hins := h.install hsize hcandidate hpresent hepoch hd hpre hsafe
  simp only [hsource, hcheck]
  rw [checkInvariants_of_safe hins]
  exact hins.finish ()

end KafkaModel

end Pepper
