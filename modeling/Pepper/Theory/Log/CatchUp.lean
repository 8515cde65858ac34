import Pepper.Theory.Log.Growth

/-!
# Catching Up

What the catch-up of a replica does to its log.

A catch-up compares only the ends of the two logs. When it succeeds, the target
holds what it held, followed by exactly the batches of the source that lie
between the target's end and the offset to reach. Whether that is the committed
log is decided by what the target held before, which the call never looks at.

## Main definitions

* `CaughtUp`: The outcome of a successful catch-up.

## Theorems

* `copyBatches_yields`: Copied batches end up in the target in order.
* `catchUp_yields`: What a catch-up does.
-/

namespace Pepper

namespace Log

open Fallible

theorem contents_tiled {log : OrderedLog} (hwf : WellFormed log) :
    ∃ start, Tiles FetchedBatch.baseOffset FetchedBatch.lastOffset start log.contents
      log.nextOffset := by
  rcases hwf.tiled with ⟨start, htiles⟩
  refine ⟨start, ?_⟩
  rw [contents_eq, tiles_map]
  exact htiles

/-- All logs of the partition are well formed. -/
def AllWellFormed (p : ReplicatedPartition) : Prop :=
  ∀ (n : Nat) (log : OrderedLog), p.replicas[n]? = some log → WellFormed log

variable {p : ReplicatedPartition}

theorem Related.allWellFormed {p' : ReplicatedPartition} (h : Related Grown p p')
    (hwf : AllWellFormed p) : AllWellFormed p' := by
  intro n log' hlog'
  rcases h.backward n log' hlog' with ⟨log, hlog, hgrown⟩
  exact (hgrown (hwf n log hlog)).1

theorem logEnd_yields {G : ReplicatedPartition → ReplicatedPartition → Prop}
    [IsPreorder ReplicatedPartition G] (p : ReplicatedPartition) (node : Nat) :
    (logEnd node).Yields G p fun n p' =>
      p' = p ∧ ∃ log, p.replicas[node]? = some log ∧ n = log.nextOffset :=
  Yields.get_bind (Yields.expect_bind fun log hlog => Yields.pure ⟨rfl, log, hlog, rfl⟩)

/-- Copied batches end up behind what the target held, in order and without a
    gap. -/
theorem copyBatches_yields (target epoch : Nat) (l : List FetchedBatch)
    (hl : ∀ b ∈ l, b.baseOffset ≤ b.lastOffset ∧ b.lastOffset + 1 < offsetLimit)
    (hwf : AllWellFormed p) :
    (ReplicatedPartition.copyBatches target epoch l).Yields (Related Grown) p fun _ p' =>
      ∀ log, p.replicas[target]? = some log →
        ∃ log', p'.replicas[target]? = some log' ∧ log'.contents = log.contents ++ l ∧
          Tiles FetchedBatch.baseOffset FetchedBatch.lastOffset log.nextOffset l
            log'.nextOffset := by
  induction l generalizing p with
  | nil =>
    refine Yields.pure fun log hlog => ?_
    exact ⟨log, hlog, (List.append_nil _).symm, rfl⟩
  | cons b l ih =>
    rcases hl b List.mem_cons_self with ⟨hspan, hlim⟩
    refine Yields.require_bind fun _ => ?_
    refine Yields.bind (onReplica_yields p target fun log hlog =>
      replicateWithIdentity_yields (hwf target log hlog) epoch b hspan hlim) ?_
    rintro _ p1 hrelated ⟨log, log1, hlog, hlog1, _, hbase, happended⟩
    refine (ih (fun b' hb' => hl b' (List.mem_cons_of_mem b hb')) (hrelated.allWellFormed hwf)).mono
      ?_
    intro _ p2 _ hcopied log' hlog'
    cases Option.mem_unique hlog hlog'
    rcases hcopied log1 hlog1 with ⟨log2, hlog2, hcontents, htiles⟩
    refine ⟨log2, hlog2, ?_, hbase, hbase ▸ hspan, ?_⟩
    · rw [hcontents, happended.contents, List.append_assoc, List.singleton_append]
    · rw [← happended.nextOffset]
      exact htiles

/-- The target reached an offset. It held enough already, or it now holds the
    source's batches from its own end up to that offset as well. -/
def CaughtUp (p p' : ReplicatedPartition) (source target through : Nat) : Prop :=
  ∃ T T', p.replicas[target]? = some T ∧ p'.replicas[target]? = some T' ∧ through ≤ T'.nextOffset ∧
    (source = target ∧ T' = T ∨
      ∃ S, p.replicas[source]? = some S ∧ source ≠ target ∧ T.nextOffset ≤ through ∧
        T'.contents = T.contents ++ (S.contents.filter fun b => T.nextOffset ≤ b.lastOffset).filter
            (fun b => b.lastOffset < through) ∧
        Tiles FetchedBatch.baseOffset FetchedBatch.lastOffset T.nextOffset
          ((S.contents.filter fun b => T.nextOffset ≤ b.lastOffset).filter
            (fun b => b.lastOffset < through)) T'.nextOffset)

theorem catchUp_yields (hwf : AllWellFormed p) (source target through epoch : Nat) :
    (ReplicatedPartition.catchUp source target through epoch).Yields (Related Grown) p
      fun _ p' => CaughtUp p p' source target through := by
  refine Yields.bind (logEnd_yields p target) ?_
  rintro _ p _ ⟨rfl, T, hT, rfl⟩
  by_cases hsame : source = target
  · rw [if_pos hsame]
    refine Yields.require fun hthrough => ?_
    exact ⟨T, T, hT, hT, hthrough, Or.inl ⟨hsame, rfl⟩⟩
  rw [if_neg hsame]
  refine Yields.require_bind fun hbehind => ?_
  refine Yields.bind ((onReplica_yields p source fun log hlog =>
    fetch_still (hwf source log hlog) T.nextOffset).coarsen fun _ => Related.grown) ?_
  rintro fetched p1 hrelated1 ⟨hstill, S, _, hS, _, _, hbatches⟩
  rw [hbatches]
  rcases hstill.forward target T hT with ⟨T1, hT1, hstill1⟩
  rcases hstill1 (hwf target T hT) with ⟨_, hcontents1, hnext1⟩
  -- What is copied comes from a well-formed log, so it never uses up offsets.
  have hsource : ∀ b ∈ (S.contents.filter fun b => T.nextOffset ≤ b.lastOffset).filter
      (fun b => b.lastOffset < through),
      b.baseOffset ≤ b.lastOffset ∧ b.lastOffset + 1 < offsetLimit := by
    intro b hb
    have hwfS := hwf source S hS
    rcases contents_tiled hwfS with ⟨start, htiles⟩
    have hbounds := htiles.bounds (List.mem_of_mem_filter (List.mem_of_mem_filter hb))
    have := hwfS.bounded
    omega
  have hwf1 := hrelated1.allWellFormed hwf
  refine Yields.bind (copyBatches_yields target epoch _ hsource hwf1) ?_
  intro _ p2 hrelated2 hcopied
  rcases hcopied T1 hT1 with ⟨T2, hT2, hcontents2, htiles2⟩
  refine ((onReplica_yields p2 target fun log _ => commit_yields log epoch through).coarsen
    fun _ => Related.grown).mono ?_
  rintro _ p3 _ ⟨_, T2', T3, hT2', hT3, hstill3, hreached, _⟩
  cases Option.mem_unique hT2 hT2'
  rcases hstill3 (hrelated2.allWellFormed hwf1 target T2 hT2) with ⟨_, hcontents3, hnext3⟩
  refine ⟨T, T3, hT, hT3, hnext3 ▸ hreached, Or.inr ⟨S, hS, hsame, hbehind, ?_, ?_⟩⟩
  · rw [hcontents3, hcontents2, hcontents1]
  · rw [hnext3, ← hnext1]
    rw [← hnext1] at htiles2
    exact htiles2

end Log

end Pepper
