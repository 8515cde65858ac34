import Pepper.Theory.Log.CatchUp

/-!
# Survival of Committed Batches

When a batch below a partition's high watermark stays in the leader's log.

Logs only grow, so a batch can leave the leader's log only when another log
takes the lead. Elections are therefore the only calls with a condition. An
election compares log ends and nothing else: the candidate may hold other
batches below the watermark than the leader does, left over from a time when it
led alone, and it is elected if they happen to end early enough.

`SafeElection` says what the candidate and the source of its catch-up have to
hold. It reads the state before the call.

## Main definitions

* `SafeElection`: The logs of an election agree with the leader's.
* `KeepsLeaderLog`: The condition on a step.
* `Keeps`: Batches below the watermark stay in the leader's log.

## Theorems

* `elect_keeps`, `append_keeps`, `addReplica_keeps`, ...: Each call.
* `committed_batches_survive`: The statement about whole runs.
* `watermark_in_leader_log`: The watermark and the leader's log.
* `divergent_election_loses_batch`: An election without the condition.
-/

namespace Pepper

namespace Log

open Fallible

namespace ReplicatedPartition

/-- What the current leader's log holds. -/
def leaderContents (p : ReplicatedPartition) : List FetchedBatch :=
  p.replicas[p.leader]?.elim [] (·.contents)

end ReplicatedPartition

/-- Two logs hold the same batches between two offsets. -/
def AgreeOn (lo hi : Nat) (a b : List FetchedBatch) : Prop :=
  a.filter (fun x => lo ≤ x.baseOffset ∧ x.lastOffset < hi) =
    b.filter (fun x => lo ≤ x.baseOffset ∧ x.lastOffset < hi)

instance (lo hi : Nat) (a b : List FetchedBatch) : Decidable (AgreeOn lo hi a b) :=
  inferInstanceAs (Decidable (_ = _))

/-- The candidate agrees with the leader as far as its log reaches, and the voter
    with the longest log agrees with the leader on the rest. A candidate that is
    itself the longest has to agree on everything below the watermark. -/
def SafeElection (p : ReplicatedPartition) (candidate : Nat) (voters : BTreeSet Nat) : Prop :=
  ∀ source ∈ p.electionSource voters, ∀ T ∈ p.replicas[candidate]?, ∀ S ∈ p.replicas[source]?,
    (source = candidate → p.highWatermark ≤ T.nextOffset →
      AgreeOn 0 p.highWatermark T.contents p.leaderContents) ∧
    (source ≠ candidate → T.nextOffset ≤ p.highWatermark →
      AgreeOn 0 T.nextOffset T.contents p.leaderContents ∧
        AgreeOn T.nextOffset p.highWatermark S.contents p.leaderContents)

/-- Elections that pass the quorum check are safe, appends stay within the
    offset type, and joining replicas bring a well-formed log. -/
def KeepsLeaderLog (p : ReplicatedPartition) : Op → Prop
  | .append _ _ _ count _ _ =>
    ∀ log ∈ p.replicas[p.leader]?, log.nextOffset + count < offsetLimit
  | .elect candidate newEpoch newControllerEpoch voters =>
    p.quorumFor candidate newEpoch newControllerEpoch voters = true →
      SafeElection p candidate voters
  | .addReplica _ replica => WellFormed replica
  | _ => True

/-- The watermark lies within the leader's log, and all logs are well formed. -/
structure Sound (p : ReplicatedPartition) : Prop where
  logs : AllWellFormed p
  leads : ∃ log, p.replicas[p.leader]? = some log ∧ p.highWatermark ≤ log.nextOffset

/-- Batches of the leader's log below the watermark are in the later leader's
    log, and the watermark does not go back. -/
structure Keeps (p p' : ReplicatedPartition) : Prop where
  highWatermark : p.highWatermark ≤ p'.highWatermark
  batches : ∀ b ∈ p.leaderContents, b.lastOffset < p.highWatermark → b ∈ p'.leaderContents

theorem Keeps.refl (p : ReplicatedPartition) : Keeps p p :=
  ⟨le_rfl, fun _ hb _ => hb⟩

theorem Keeps.trans {a b c : ReplicatedPartition} (hab : Keeps a b) (hbc : Keeps b c) :
    Keeps a c := by
  refine ⟨hab.highWatermark.trans hbc.highWatermark, ?_⟩
  intro x hx hlt
  exact hbc.batches x (hab.batches x hx hlt) (lt_of_lt_of_le hlt hab.highWatermark)

variable {p p' : ReplicatedPartition}
  {log : OrderedLog} {a b : List FetchedBatch} {hi lo : Nat} {p1 : ReplicatedPartition}

theorem leaderContents_eq (h : p.replicas[p.leader]? = some log) :
    p.leaderContents = log.contents := by
  rw [ReplicatedPartition.leaderContents, h, Option.elim_some]

/-- A call that only lets logs grow. -/
theorem Related.keeps (h : Related Grown p p') (hs : Sound p) : Sound p' ∧ Keeps p p' := by
  rcases hs.leads with ⟨log, hlog, hreach⟩
  rcases h.forward p.leader log hlog with ⟨log', hlog', hgrown⟩
  rcases hgrown (hs.logs _ log hlog) with ⟨_, hcontents, hnext⟩
  have hlog'' : p'.replicas[p'.leader]? = some log' := by rw [h.leader, hlog']
  refine ⟨⟨h.allWellFormed hs.logs, log', hlog'', ?_⟩, h.highWatermark.ge, ?_⟩
  · rw [h.highWatermark]
    exact hreach.trans hnext
  · intro b hb _
    rw [leaderContents_eq hlog] at hb
    rw [leaderContents_eq hlog'']
    exact hcontents.subset hb

/-! ## Elections -/

theorem mem_of_agreeOn (h : AgreeOn lo hi a b) {x : FetchedBatch} (hx : x ∈ b)
    (hlo : lo ≤ x.baseOffset) (hhi : x.lastOffset < hi) : x ∈ a := by
  have hmem : x ∈ b.filter (fun x => lo ≤ x.baseOffset ∧ x.lastOffset < hi) :=
    List.mem_filter.mpr ⟨hx, by simp only [decide_eq_true_eq]; exact ⟨hlo, hhi⟩⟩
  rw [← h] at hmem
  exact List.mem_of_mem_filter hmem

/-- A batch of the leader `L` below the watermark is in a log that agreed with it
    up to its own end and took the rest from a log that agreed there. A batch
    that straddles the end of the first log would overlap the first batch
    copied. -/
theorem mem_of_copied {L T S F : List FetchedBatch} {start stop tEnd tEnd' hw : Nat}
    (hL : Tiles FetchedBatch.baseOffset FetchedBatch.lastOffset start L stop)
    (hT : AgreeOn 0 tEnd T L) (hS : AgreeOn tEnd hw S L)
    (hF : F = (S.filter fun b => tEnd ≤ b.lastOffset).filter (fun b => b.lastOffset < hw))
    (htiles : Tiles FetchedBatch.baseOffset FetchedBatch.lastOffset tEnd F tEnd')
    (hreach : hw ≤ tEnd') {b : FetchedBatch} (hb : b ∈ L) (hlt : b.lastOffset < hw) :
    b ∈ T ++ F := by
  have hspan := (hL.bounds hb).2.1
  have hmemF : ∀ x ∈ S, tEnd ≤ x.lastOffset → x.lastOffset < hw → x ∈ F := by
    intro x hx hlo hhi
    rw [hF]
    simp only [List.mem_filter, decide_eq_true_eq]
    exact ⟨⟨hx, hlo⟩, hhi⟩
  rw [List.mem_append]
  by_cases hbef : b.lastOffset < tEnd
  · exact Or.inl (mem_of_agreeOn hT hb (Nat.zero_le _) hbef)
  by_cases haft : tEnd ≤ b.baseOffset
  · exact Or.inr (hmemF b (mem_of_agreeOn hS hb haft hlt) (by omega) hlt)
  -- The batch straddles the end of the target.
  exfalso
  cases F with
  | nil =>
    have : tEnd = tEnd' := htiles
    omega
  | cons f rest =>
    have hf : f ∈ f :: rest := List.mem_cons_self
    have hfbase : f.baseOffset = tEnd := htiles.1
    have hfspan := (htiles.bounds hf).2.1
    rw [hF] at hf
    simp only [List.mem_filter, decide_eq_true_eq] at hf
    have hfL : f ∈ L := mem_of_agreeOn hS.symm hf.1.1 hfbase.ge hf.2
    have heq := hL.eq_of_covers hb hfL (n := tEnd) ⟨by omega, by omega⟩ ⟨by omega, by omega⟩
    rw [heq] at haft
    omega

theorem electionEnd_still (h : Related Still p p') (hwf : AllWellFormed p) :
    p'.electionEnd = p.electionEnd := by
  funext n
  unfold ReplicatedPartition.electionEnd
  cases hn : p.replicas[n]? with
  | some log =>
    rcases h.forward n log hn with ⟨log', hlog', hstill⟩
    rw [hlog', Option.elim_some, Option.elim_some, (hstill (hwf n log hn)).2.2]
  | none =>
    cases hn' : p'.replicas[n]? with
    | none => rfl
    | some log' =>
      rcases h.backward n log' hn' with ⟨log, hlog, _⟩
      rw [hn] at hlog
      cases hlog

/-- The candidate of a safe election that has caught up holds the leader's
    batches below the watermark. -/
theorem caughtUp_holds {p2 : ReplicatedPartition} (hs : Sound p) (h1 : Related Still p p1)
    {source candidate : Nat} {voters : BTreeSet Nat} (hsafe : SafeElection p candidate voters)
    (hsource : p.electionSource voters = some source)
    (hcaught : CaughtUp p1 p2 source candidate p.highWatermark) :
    ∃ T', p2.replicas[candidate]? = some T' ∧ p.highWatermark ≤ T'.nextOffset ∧
      ∀ b ∈ p.leaderContents, b.lastOffset < p.highWatermark → b ∈ T'.contents := by
  rcases hcaught with ⟨T1, T2, hT1, hT2, hreach, hcase⟩
  refine ⟨T2, hT2, hreach, ?_⟩
  intro b hb hlt
  rcases h1.backward candidate T1 hT1 with ⟨T, hT, hstillT⟩
  rcases hstillT (hs.logs candidate T hT) with ⟨_, hcontentsT, hnextT⟩
  rcases hcase with ⟨hsame, hT21⟩ | ⟨S1, hS1, hdiff, hbehind, hcontents, htiles⟩
  · subst hT21 hsame
    rw [hcontentsT]
    exact mem_of_agreeOn ((hsafe source hsource T hT T hT).1 rfl (hnextT ▸ hreach)) hb
      (Nat.zero_le _) hlt
  · rcases h1.backward source S1 hS1 with ⟨S, hS, hstillS⟩
    have hcontentsS := (hstillS (hs.logs source S hS)).2.1
    rcases (hsafe source hsource T hT S hS).2 hdiff (hnextT ▸ hbehind) with ⟨hagreeT, hagreeS⟩
    rcases hs.leads with ⟨L, hL, _⟩
    rcases contents_tiled (hs.logs _ L hL) with ⟨start, htilesL⟩
    rw [leaderContents_eq hL] at hb hagreeT hagreeS
    rw [hcontents, hcontentsT, hcontentsS, hnextT]
    rw [hcontentsS, hnextT] at htiles
    exact mem_of_copied htilesL hagreeT hagreeS rfl htiles hreach hb hlt

theorem promises_still (nodes : List Nat) (controllerEpoch epoch : Nat) :
    (ForM.forM nodes fun node =>
      onReplica node (promiseEpoch controllerEpoch epoch)).Moves (Related Still) :=
  Moves.forM nodes fun node _ => onReplica_moves node (promiseEpoch_still controllerEpoch epoch)

theorem elect_keeps (hs : Sound p) (candidate newEpoch newControllerEpoch : Nat)
    (voters : BTreeSet Nat)
    (hguard : p.quorumFor candidate newEpoch newControllerEpoch voters = true →
      SafeElection p candidate voters) :
    (ReplicatedPartition.elect candidate newEpoch newControllerEpoch voters).Ends p
      fun _ p' => Sound p' ∧ Keeps p p' := by
  unfold ReplicatedPartition.elect
  refine Ends.get_bind ?_
  refine Ends.require_bind (fun _ => ⟨hs, Keeps.refl p⟩) fun hquo => ?_
  refine Ends.call ((promises_still _ _ _).ends p) (fun _ _ h => h.grown.keeps hs) ?_
  intro _ p1 h1
  refine Ends.get_bind ?_
  refine Ends.expect_bind (fun _ => h1.grown.keeps hs) fun source hsource => ?_
  rw [ReplicatedPartition.electionSource, electionEnd_still h1 hs.logs] at hsource
  refine Ends.call (catchUp_yields (h1.grown.allWellFormed hs.logs) _ _ _ _)
    (fun _ _ h => (trans_of _ h1.grown h.1).keeps hs) ?_
  rintro _ p2 ⟨h2, hcaught⟩
  have hgrown2 : Related Grown p p2 := trans_of _ h1.grown h2
  refine Ends.call (Moves.ends (onReplica_moves (G := Related Still) candidate
    (activateLeader_still newControllerEpoch newEpoch)) p2)
    (fun _ _ h => (trans_of _ hgrown2 h.grown).keeps hs) ?_
  intro _ p3 h3
  have hgrown3 : Related Grown p p3 := trans_of _ hgrown2 h3.grown
  -- The candidate has caught up, and being made the leader changes no batch.
  rcases caughtUp_holds hs h1 (hguard hquo) hsource (hcaught () rfl) with
    ⟨T, hT, hreach, hholds⟩
  rcases h3.forward candidate T hT with ⟨T3, hT3, hstill⟩
  rcases hstill (hgrown2.allWellFormed hs.logs candidate T hT) with ⟨_, hcontents, hnext⟩
  refine Ends.modify ⟨⟨hgrown3.allWellFormed hs.logs, T3, hT3, ?_⟩, hgrown3.highWatermark.ge, ?_⟩
  · simp only [hgrown3.highWatermark, hnext]
    exact hreach
  · intro b hb hlt
    have hmem := hholds b hb hlt
    rw [← hcontents] at hmem
    unfold ReplicatedPartition.leaderContents
    simp only [hT3, Option.elim_some]
    exact hmem

/-! ## Appends -/

/-- Commits move no batch; the partition's watermark is raised only after every
    replica with the batch has committed it. -/
theorem commitOn_ends (p : ReplicatedPartition) (epoch highWatermark : Nat)
    (durable : BTreeSet Nat) :
    (ReplicatedPartition.commitOn epoch highWatermark durable).Ends p fun r p' =>
      ∃ p1, Related Still p p1 ∧ (p' = p1 ∨ r = .ok () ∧ p' = { p1 with highWatermark }) := by
  unfold ReplicatedPartition.commitOn
  have hcommits : (ForM.forM durable.toList fun node =>
      onReplica node (commit epoch highWatermark)).Moves (Related Still) :=
    Moves.forM _ fun node _ => onReplica_moves node (commit_still epoch highWatermark)
  refine Ends.call (hcommits.ends p) (fun _ p1 h => ⟨p1, h, Or.inl rfl⟩) ?_
  intro _ p1 h
  exact Ends.modify ⟨p1, h, Or.inr ⟨rfl, rfl⟩⟩

theorem append_keeps (hs : Sound p) (claimedLeader claimedEpoch time count : Nat)
    (payload : List UInt8) (acknowledgments : Acknowledgments)
    (hlim : ∀ log ∈ p.replicas[p.leader]?, log.nextOffset + count < offsetLimit) :
    (ReplicatedPartition.append claimedLeader claimedEpoch time count payload
      acknowledgments).Ends p fun _ p' => Sound p' ∧ Keeps p p' := by
  unfold ReplicatedPartition.append
  refine Ends.get_bind ?_
  refine Ends.require_bind (fun _ => ⟨hs, Keeps.refl p⟩) fun _ => ?_
  refine Ends.require_bind (fun _ => ⟨hs, Keeps.refl p⟩) fun _ => ?_
  refine Ends.call (onReplica_yields (G := Related Grown) p p.leader fun log hlog =>
    append_yields (hs.logs _ log hlog) _ _ _ _ (hlim log hlog)) (fun _ _ h => h.1.keeps hs) ?_
  rintro result p1 ⟨h1, hres⟩
  rcases hres result rfl with ⟨log, log1, hlog, hlog1, _, _, hle, hcount, hlast, hnext1⟩
  refine Ends.call (replicateTo_yields (G := Related Grown)
      (replicateWithIdentity_grown _ _ _ _ _ _ hcount) _ _ p1)
    (fun _ _ h => (trans_of _ h1 h.1).keeps hs) ?_
  rintro durable p2 ⟨h2, _⟩
  have hgrown2 : Related Grown p p2 := trans_of _ h1 h2
  -- The leader's log still ends at or after the new batch.
  rcases h2.forward p.leader log1 hlog1 with ⟨log2, hlog2, hgrownlog⟩
  have hnext2 := (hgrownlog (h1.allWellFormed hs.logs _ log1 hlog1)).2.2
  rcases hs.leads with ⟨log', hlog', hreach⟩
  cases Option.mem_unique hlog hlog'
  by_cases henough : decide (p.minimumIsr ≤ durable.size) = true
  · rw [if_pos henough]
    refine Ends.bind ((commitOn_ends p2 p.epoch (wrappingSucc result.lastOffset) durable).mono ?_)
    rintro r p4 ⟨p3, h3, hout⟩
    have hgrown3 : Related Grown p p3 := trans_of _ hgrown2 h3.grown
    have hdone : Sound p4 ∧ Keeps p p4 := by
      rcases hout with rfl | ⟨_, rfl⟩
      · exact hgrown3.keeps hs
      · rcases h3.forward p.leader log2 hlog2 with ⟨log3, hlog3, hstill⟩
        have hnext3 := (hstill (hgrown2.allWellFormed hs.logs _ log2 hlog2)).2.2
        rcases hgrown3.keeps hs with ⟨hs3, hkeeps⟩
        rw [wrappingSucc_eq hlast]
        refine ⟨⟨hs3.logs, log3, ?_, by show _ + 1 ≤ _; omega⟩, by show _ ≤ _ + 1; omega,
          hkeeps.batches⟩
        simp only [hgrown3.leader]
        exact hlog3
    cases r with
    | error e => exact hdone
    | ok _ => exact Ends.pure hdone
  · rw [if_neg henough]
    exact Ends.bind (Ends.pure (Ends.pure (hgrown2.keeps hs)))

/-! ## Membership -/

/-- The membership and the epochs of a partition say nothing about its logs. -/
theorem Related.relabel {q : ReplicatedPartition} (h : Related Grown p q)
    (assignment isr online : BTreeSet Nat) (epoch controllerEpoch : Nat) :
    Related Grown p { q with assignment, isr, online, epoch, controllerEpoch } :=
  ⟨h.leader, h.highWatermark, h.forward, h.backward⟩

/-- A catch-up that comes after other growth. -/
theorem catchUp_grown (hs : Sound p) (h : Related Grown p p1) (source target through epoch : Nat) :
    (ReplicatedPartition.catchUp source target through epoch).Ends p1 fun _ p' =>
      Related Grown p p' :=
  Ends.mono (catchUp_yields (h.allWellFormed hs.logs) source target through epoch) fun _ _ h' =>
    trans_of _ h h'.1

theorem setOnline_keeps (hs : Sound p) (node : Nat) (online : Bool) :
    (ReplicatedPartition.setOnline node online).Ends p fun _ p' => Sound p' ∧ Keeps p p' := by
  unfold ReplicatedPartition.setOnline
  refine Ends.get_bind ?_
  refine Ends.require_bind (fun _ => ⟨hs, Keeps.refl p⟩) fun _ => Ends.modify ?_
  exact ((refl_of (Related Grown) p).relabel _ _ _ _ _).keeps hs

theorem removeReplica_keeps (hs : Sound p) (node : Nat) :
    (ReplicatedPartition.removeReplica node).Ends p fun _ p' => Sound p' ∧ Keeps p p' := by
  unfold ReplicatedPartition.removeReplica
  refine Ends.get_bind ?_
  refine Ends.require_bind (fun _ => ⟨hs, Keeps.refl p⟩) fun _ => Ends.modify ?_
  exact ((refl_of (Related Grown) p).relabel _ _ _ _ _).keeps hs

theorem recoverReplica_keeps (hs : Sound p) (node : Nat) :
    (ReplicatedPartition.recoverReplica node).Ends p fun _ p' => Sound p' ∧ Keeps p p' := by
  unfold ReplicatedPartition.recoverReplica
  refine Ends.get_bind ?_
  refine Ends.require_bind (fun _ => ⟨hs, Keeps.refl p⟩) fun _ => Ends.modify_bind ?_
  refine Ends.call (catchUp_grown hs ((refl_of (Related Grown) p).relabel _ _ _ _ _) _ _ _ _)
    (fun _ _ h => h.keeps hs) ?_
  intro _ p1 h
  exact Ends.modify ((h.relabel _ _ _ _ _).keeps hs)

theorem promiseJoining_still (replica : OrderedLog) (controllerEpoch epoch : Nat) :
    Still replica (ReplicatedPartition.promiseJoining replica controllerEpoch epoch).2 := by
  unfold ReplicatedPartition.promiseJoining
  split
  · exact promiseEpoch_still controllerEpoch epoch replica
  · split
    · exact refl_of Still replica
    · exact refl_of Still replica

/-- A log under a new node leaves the leader's log where it is. -/
theorem insert_keeps (hs : Sound p) {node : Nat} {replica : OrderedLog} (hnew : node ∉ p.replicas)
    (hwf : WellFormed replica) (assignment online : BTreeSet Nat) :
    Sound { p with replicas := p.replicas.insert node replica, assignment, online } ∧
      Keeps p { p with replicas := p.replicas.insert node replica, assignment, online } := by
  rcases hs.leads with ⟨log, hlog, hreach⟩
  have hleader : node ≠ p.leader := by
    rintro rfl
    exact hnew (mem_iff_exists.mpr ⟨_, hlog⟩)
  have hlog' : (p.replicas.insert node replica)[p.leader]? = some log := by
    rw [getElem?_insert_eq, if_neg hleader, hlog]
  refine ⟨⟨?_, log, hlog', hreach⟩, le_rfl, ?_⟩
  · intro n log1 hlog1
    rcases getElem?_insert_cases hlog1 with ⟨_, rfl⟩ | ⟨_, hold⟩
    · exact hwf
    · exact hs.logs n log1 hold
  · intro b hb _
    rw [leaderContents_eq hlog] at hb
    rw [leaderContents_eq hlog']
    exact hb

theorem addReplica_keeps (hs : Sound p) (node : Nat) (replica : OrderedLog)
    (hwf : WellFormed replica) :
    (ReplicatedPartition.addReplica node replica).Ends p fun _ p' => Sound p' ∧ Keeps p p' := by
  unfold ReplicatedPartition.addReplica
  refine Ends.get_bind ?_
  refine Ends.require_bind (fun _ => ⟨hs, Keeps.refl p⟩) fun hnew => ?_
  have hstill := promiseJoining_still replica p.controllerEpoch p.epoch
  generalize ReplicatedPartition.promiseJoining replica p.controllerEpoch p.epoch = out at hstill ⊢
  rcases out with ⟨r, replica'⟩
  cases r with
  | error e => exact Ends.fail ⟨hs, Keeps.refl p⟩
  | ok _ =>
    refine Ends.modify_bind ?_
    -- From here on the partition with the new replica is the one to keep.
    rcases insert_keeps hs hnew (hstill hwf).1 (p.assignment.insert node)
      (p.online.insert node) with ⟨hs1, hkeeps1⟩
    refine Ends.call (catchUp_grown hs1 (refl_of _ _) _ _ _ _) ?_ ?_
    · intro _ p2 h2
      exact ⟨(h2.keeps hs1).1, hkeeps1.trans (h2.keeps hs1).2⟩
    · intro _ p2 h2
      have h3 := (h2.relabel p2.assignment (p2.isr.insert node) p2.online p2.epoch
        p2.controllerEpoch).keeps hs1
      exact Ends.modify ⟨h3.1, hkeeps1.trans h3.2⟩

theorem reconfigure_keeps (hs : Sound p) (assignment : BTreeSet Nat)
    (newEpoch newControllerEpoch : Nat) :
    (ReplicatedPartition.reconfigure assignment newEpoch newControllerEpoch).Ends p
      fun _ p' => Sound p' ∧ Keeps p p' := by
  unfold ReplicatedPartition.reconfigure
  refine Ends.get_bind ?_
  refine Ends.require_bind (fun _ => ⟨hs, Keeps.refl p⟩) fun _ => ?_
  have hjoin := Ends.forM (s := p) (ε := LogError) (f := fun node => do
      modify fun p => { p with online := p.online.insert node }
      ReplicatedPartition.catchUp p.leader node p.highWatermark p.epoch)
    (Q := fun _ p' => Related Grown p p') (fun _ p' => Related Grown p p')
    (assignment.toList.filter fun node => node ∉ p.assignment)
    (fun node rest p1 h1 => by
      refine Ends.modify_bind ?_
      refine (catchUp_grown hs (h1.relabel _ _ _ _ _) _ _ _ _).mono ?_
      intro r p2 h2
      cases r with
      | ok _ => exact h2
      | error _ => exact h2)
    (fun _ h => h) (refl_of _ p)
  refine Ends.call hjoin (fun _ _ h => h.keeps hs) ?_
  intro _ p1 h1
  refine Ends.call ((promises_still _ _ _).ends p1)
    (fun _ _ h => (trans_of _ h1 h.grown).keeps hs) ?_
  intro _ p2 h2
  have hgrown2 : Related Grown p p2 := trans_of _ h1 h2.grown
  refine Ends.call (Moves.ends (onReplica_moves (G := Related Still) p.leader
    (activateLeader_still newControllerEpoch newEpoch)) p2)
    (fun _ _ h => (trans_of _ hgrown2 h.grown).keeps hs) ?_
  intro _ p3 h3
  have hgrown3 : Related Grown p p3 := trans_of _ hgrown2 h3.grown
  exact Ends.modify ((hgrown3.relabel _ _ _ _ _).keeps hs)

/-! ## Runs -/

/-- Setting up moves only epochs. -/
theorem setUp_yields (p : ReplicatedPartition) (nodes : List Nat)
    (leader epoch controllerEpoch : Nat) :
    (ReplicatedPartition.setUp nodes leader epoch controllerEpoch).Yields (Related Still) p
      fun highWatermark p' =>
        ∃ log, p'.replicas[leader]? = some log ∧ highWatermark = log.highWatermark := by
  unfold ReplicatedPartition.setUp
  refine Yields.bind ((promises_still _ _ _).yields p) fun _ p1 _ _ => ?_
  refine Yields.bind ((onReplica_moves leader
    (activateLeader_still controllerEpoch epoch)).yields p1) fun _ p2 _ _ => ?_
  exact Yields.get_bind (Yields.expect_bind fun log hlog => Yields.pure ⟨log, hlog, rfl⟩)

/-- A partition over well-formed logs starts with its watermark within the
    leader's log. -/
theorem new_sound {replicas : BTreeMap Nat OrderedLog}
    (hreplicas : ∀ (n : Nat) (log : OrderedLog), replicas[n]? = some log → WellFormed log)
    {leader epoch controllerEpoch minimumIsr : Nat}
    (hnew : ReplicatedPartition.new replicas leader epoch controllerEpoch minimumIsr = .ok p) :
    Sound p := by
  unfold ReplicatedPartition.new at hnew
  split at hnew
  · cases hnew
  simp only [] at hnew
  split at hnew
  · cases hnew
  · rename_i highWatermark p1 hsetUp
    cases hnew
    rcases Ends.of_eq (setUp_yields _ _ _ _ _) hsetUp with ⟨hstill, hok⟩
    rcases hok highWatermark rfl with ⟨log, hlog, rfl⟩
    have hwf : AllWellFormed p1 := hstill.grown.allWellFormed hreplicas
    refine ⟨hwf, log, ?_, (hwf _ log hlog).committed⟩
    simp only [hstill.leader]
    exact hlog

/-- One call, successful or not. -/
theorem step_keeps (op : Op) (hs : Sound p) (hguard : KeepsLeaderLog p op) :
    Sound (step p op) ∧ Keeps p (step p op) := by
  cases op with
  | append claimedLeader claimedEpoch time count payload acknowledgments =>
    exact append_keeps hs _ _ _ _ _ _ hguard
  | elect candidate newEpoch newControllerEpoch voters => exact elect_keeps hs _ _ _ _ hguard
  | setOnline node online => exact setOnline_keeps hs node online
  | addReplica node replica => exact addReplica_keeps hs node replica hguard
  | removeReplica node => exact removeReplica_keeps hs node
  | recoverReplica node => exact recoverReplica_keeps hs node
  | reconfigure assignment newEpoch newControllerEpoch => exact reconfigure_keeps hs _ _ _

theorem reaches_keeps (hs : Sound p) (h : Reaches step KeepsLeaderLog p p') :
    Sound p' ∧ Keeps p p' :=
  h.related Keeps.refl (fun _ _ _ => Keeps.trans) (fun _ op => step_keeps op) hs

/-- In a run whose elections are all safe, a batch that was below the watermark
    once is in the log of every later leader, and no other batch of that log
    shares an offset with it. -/
theorem committed_batches_survive {replicas : BTreeMap Nat OrderedLog}
    (hreplicas : ∀ (n : Nat) (log : OrderedLog), replicas[n]? = some log → WellFormed log)
    {leader epoch controllerEpoch minimumIsr : Nat} {p0 p p' : ReplicatedPartition}
    (hnew : ReplicatedPartition.new replicas leader epoch controllerEpoch minimumIsr = .ok p0)
    (hrun : Reaches step KeepsLeaderLog p0 p) (hlater : Reaches step KeepsLeaderLog p p')
    {b : FetchedBatch} (hb : b ∈ p.leaderContents) (hlt : b.lastOffset < p.highWatermark) :
    b ∈ p'.leaderContents ∧
      ∀ c ∈ p'.leaderContents, c.baseOffset ≤ b.lastOffset → b.baseOffset ≤ c.lastOffset →
        c = b := by
  have hs := (reaches_keeps (new_sound hreplicas hnew) hrun).1
  rcases reaches_keeps hs hlater with ⟨hs', hkeeps⟩
  have hmem := hkeeps.batches b hb hlt
  refine ⟨hmem, ?_⟩
  intro c hc hstart hend
  rcases hs'.leads with ⟨log, hlog, _⟩
  rcases contents_tiled (hs'.logs _ log hlog) with ⟨start, htiles⟩
  rw [leaderContents_eq hlog] at hmem hc
  have hspanb := (htiles.bounds hmem).2.1
  have hspanc := (htiles.bounds hc).2.1
  exact htiles.eq_of_covers hc hmem (n := max b.baseOffset c.baseOffset) (by omega) (by omega)

/-- In such a run the watermark never goes back. The leader has a log that reaches
    it, and the batches of that log follow each other without a gap up to its end. -/
theorem watermark_in_leader_log {replicas : BTreeMap Nat OrderedLog}
    (hreplicas : ∀ (n : Nat) (log : OrderedLog), replicas[n]? = some log → WellFormed log)
    {leader epoch controllerEpoch minimumIsr : Nat} {p0 : ReplicatedPartition}
    (hnew : ReplicatedPartition.new replicas leader epoch controllerEpoch minimumIsr = .ok p0)
    (hrun : Reaches step KeepsLeaderLog p0 p) (hlater : Reaches step KeepsLeaderLog p p') :
    p.highWatermark ≤ p'.highWatermark ∧ ∃ log, p'.replicas[p'.leader]? = some log ∧
      p'.highWatermark ≤ log.nextOffset ∧ ∃ start,
        Tiles FetchedBatch.baseOffset FetchedBatch.lastOffset start log.contents
          log.nextOffset := by
  have hs := (reaches_keeps (new_sound hreplicas hnew) hrun).1
  rcases reaches_keeps hs hlater with ⟨hs', hkeeps⟩
  rcases hs'.leads with ⟨log, hlog, hle⟩
  exact ⟨hkeeps.highWatermark, log, hlog, hle, contents_tiled (hs'.logs _ log hlog)⟩

/-! ## Two runs of three nodes -/

def threeEmptyLogs : BTreeMap Nat OrderedLog :=
  .ofList [(0, OrderedLog.empty), (1, OrderedLog.empty), (2, OrderedLog.empty)]

theorem threeEmptyLogs_wellFormed (n : Nat) (log : OrderedLog)
    (h : threeEmptyLogs[n]? = some log) : WellFormed log := by
  have hcases : threeEmptyLogs =
      (((∅ : BTreeMap Nat OrderedLog).insert 0 .empty).insert 1 .empty).insert 2 .empty := by
    rfl
  rw [hcases] at h
  rcases getElem?_insert_cases h with ⟨_, rfl⟩ | ⟨_, h1⟩
  · exact empty_wellFormed
  rcases getElem?_insert_cases h1 with ⟨_, rfl⟩ | ⟨_, h2⟩
  · exact empty_wellFormed
  rcases getElem?_insert_cases h2 with ⟨_, rfl⟩ | ⟨_, h3⟩
  · exact empty_wellFormed
  · simp at h3

/-- A partition over three empty logs, led by node 0. -/
def threeNodes : ReplicatedPartition :=
  (ReplicatedPartition.setUp [0, 1, 2] 0 1 1
    ⟨threeEmptyLogs, .ofList [0, 1, 2], .ofList [0, 1, 2], .ofList [0, 1, 2], 0, 1, 1, 2, 0⟩).2

theorem new_threeEmptyLogs : ReplicatedPartition.new threeEmptyLogs 0 1 1 2 = .ok threeNodes :=
  rfl

/-- Node 0 has committed a batch with everyone online. -/
def afterWrite : ReplicatedPartition :=
  runOps step threeNodes [.append 0 1 10 1 [1] .all]

/-- Node 1 has taken over from it. -/
def afterTakeover : ReplicatedPartition :=
  runOps step afterWrite [.elect 1 2 1 (.ofList [0, 1])]

theorem reaches_afterWrite : Reaches step KeepsLeaderLog threeNodes afterWrite := by
  refine reaches_runOps _ _ ⟨?_, trivial⟩
  unfold KeepsLeaderLog
  decide

theorem reaches_afterTakeover : Reaches step KeepsLeaderLog afterWrite afterTakeover := by
  refine reaches_runOps _ _ ⟨fun _ => ?_, trivial⟩
  unfold SafeElection
  decide

theorem replicated_batch_survives : ⟨0, 0, 1, 10, [1]⟩ ∈ afterTakeover.leaderContents :=
  (committed_batches_survive threeEmptyLogs_wellFormed new_threeEmptyLogs reaches_afterWrite
    reaches_afterTakeover (by decide) (by decide)).1

theorem watermark_survives : afterWrite.highWatermark = 1 ∧ 1 ≤ afterTakeover.highWatermark ∧
    ∃ log, afterTakeover.replicas[1]? = some log ∧ 1 ≤ log.nextOffset := by
  have h := watermark_in_leader_log threeEmptyLogs_wellFormed new_threeEmptyLogs
    reaches_afterWrite reaches_afterTakeover
  rcases h with ⟨hrises, log, hlog, hle, _⟩
  exact ⟨by decide, hrises, log, hlog, hrises.trans hle⟩

/-- Node 0 writes a batch that nobody else has. Node 1 is elected by a quorum
    without node 0 and commits another batch at the same offset. -/
def overtake : List Op :=
  [.setOnline 1 false, .setOnline 2 false, .append 0 1 10 1 [1] .leader,
    .setOnline 0 false, .setOnline 1 true, .setOnline 2 true,
    .elect 1 2 1 (.ofList [1, 2]), .append 1 2 20 1 [2] .all]

/-- Node 0 comes back and is elected: its log is as long as the committed one. -/
def comeBack : List Op :=
  [.setOnline 0 true, .elect 0 3 1 (.ofList [0, 1])]

/-- The committed batch of node 1 is replaced by the leftover of node 0. -/
theorem divergent_election_loses_batch :
    ReplicatedPartition.new threeEmptyLogs 0 1 1 2 = .ok threeNodes ∧
      (runOps step threeNodes overtake).leaderContents = [⟨0, 0, 2, 20, [2]⟩] ∧
      (runOps step threeNodes overtake).highWatermark = 1 ∧
      (runOps step threeNodes (overtake ++ comeBack)).leaderContents = [⟨0, 0, 1, 10, [1]⟩] :=
  ⟨new_threeEmptyLogs, by decide, by decide, by decide⟩

end Log

end Pepper
