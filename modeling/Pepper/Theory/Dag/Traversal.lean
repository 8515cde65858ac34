import Pepper.Base.Search
import Pepper.Core.Dag

/-!
# What a Traversal Returns

`traverse` over a graph with finitely many reachable blocks.

Whatever the limits are, the loop ends. If it succeeds, the result lists the
reachable blocks, each once and in the order of their distances from the root.
The depth beside a block that is visited is its distance, so the depth limit is
only reported when a block lies beyond it. A handler's error is passed on as it
is, and could be that one too.

## Main definitions

* `Links`: One block links to another.
* `Tracks`: The variables of the loop belong to a search.

## Theorems

* `visit_cases`: What the body of the loop does to its variables.
* `traverseFrom_ends`: The loop ends, with the right result.
* `traverse_finds_reachable`: The statement about `traverse`.
-/

namespace Pepper

namespace Dag

open List

section Traverse

variable {Digest : Type} [DecidableEq Digest] {blocks : Blocks Digest} {limits : TraversalLimits}
  {root cid : Cid Digest} {depth : Nat} {p : Progress Digest} {done : List (Cid Digest × Nat)}

variable (blocks limits) in
/-- The answer of the handler of a block to its payload. -/
def linksOf (cid : Cid Digest) : Option (Except DagError (List (Cid Digest))) :=
  match blocks.handler cid.codec, blocks.resolve cid with
  | some handler, .ok payload =>
    if handler.requiresPayload then some (handler.links payload limits) else none
  | _, _ => none

variable (blocks limits) in
/-- One block links to another. -/
def Links (cid child : Cid Digest) : Prop :=
  ∃ links, linksOf blocks limits cid = some (.ok links) ∧ child ∈ links

omit [DecidableEq Digest] in
/-- A visit fails, or it takes the block and puts its links into the queue. The
    depth error comes from the depth or from the handler. -/
theorem visit_cases (blocks : Blocks Digest) (limits : TraversalLimits) (cid : Cid Digest)
    (depth : Nat) (p : Progress Digest) :
    match visit blocks limits cid depth p with
    | .ok p' => ∃ links : List (Cid Digest),
        (∀ child, Links blocks limits cid child ↔ child ∈ links) ∧
        p'.seen = cid :: p.seen ∧ p'.ordered = p.ordered ++ [cid] ∧
        p'.queue = p.queue ++ links.map fun child => (child, depth + 1)
    | .error e => ∀ d l, e = .tooDeep d l →
        limits.maxDepth < depth ∨ linksOf blocks limits cid = some (.error e) := by
  unfold visit
  by_cases hdeep : limits.maxDepth < depth
  · simp [hdeep]
  by_cases hblocks : limits.maxBlocks < (cid :: p.seen).length
  · simp only [if_neg hdeep, if_pos hblocks, reduceCtorEq, false_implies, implies_true]
  simp only [if_neg hdeep, if_neg hblocks]
  cases hhandler : blocks.handler cid.codec with
  | none => simp
  | some handler =>
    by_cases hreads : handler.requiresPayload = true
    · simp only [hreads, if_true]
      unfold expand
      cases hresolve : blocks.resolve cid with
      | error message => simp
      | ok payload =>
        have hanswer : linksOf blocks limits cid = some (handler.links payload limits) := by
          simp only [linksOf, hhandler, hresolve, hreads, if_true]
        simp only [Links, hanswer]
        cases handler.links payload limits with
        | error e => grind
        | ok links => grind [mem_insertionSort]
    · -- A leaf has no links.
      simp only [hreads]
      have hanswer : linksOf blocks limits cid = none := by
        unfold linksOf
        grind
      exact ⟨[], by simp [Links, hanswer], rfl, rfl, by simp⟩

variable (blocks limits root) in
/-- The variables of the loop are those of a search that has taken some blocks. -/
structure Tracks (p : Progress Digest) (done : List (Cid Digest × Nat)) : Prop where
  search : Searching (Links blocks limits) root done p.queue
  ordered : p.ordered = done.map Prod.fst
  seen : ∀ cid, cid ∈ p.seen ↔ cid ∈ p.ordered

omit [DecidableEq Digest] in
theorem Tracks.fresh (h : Tracks blocks limits root p done) (hnew : cid ∉ p.seen) :
    cid ∉ done.map Prod.fst := by
  rw [← h.ordered, ← h.seen]
  exact hnew

variable {queue : List (Cid Digest × Nat)}

omit [DecidableEq Digest] in
theorem Tracks.skip (h : Tracks blocks limits root p done)
    (hqueue : p.queue = (cid, depth) :: queue) (hseen : cid ∈ p.seen) :
    Tracks blocks limits root { p with queue } done := by
  have hsearch := h.search
  rw [hqueue] at hsearch
  exact ⟨hsearch.skip (h.ordered ▸ (h.seen cid).mp hseen), h.ordered, h.seen⟩

omit [DecidableEq Digest] in
theorem Tracks.visit {p' : Progress Digest} (h : Tracks blocks limits root p done)
    (hqueue : p.queue = (cid, depth) :: queue) (hnew : cid ∉ p.seen)
    (hvisit : visit blocks limits cid depth { p with queue } = .ok p') :
    Tracks blocks limits root p' (done ++ [(cid, depth)]) := by
  have hcases := visit_cases blocks limits cid depth { p with queue }
  rw [hvisit] at hcases
  rcases hcases with ⟨links, hlinks, hseen, hord, haft⟩
  have hsearch := h.search
  rw [hqueue] at hsearch
  refine ⟨haft ▸ hsearch.visit (h.fresh hnew) hlinks, ?_, fun c => ?_⟩
  · rw [hord, map_append, h.ordered]
    rfl
  · rw [hseen, hord, mem_cons, mem_append, mem_singleton, h.seen, or_comm]

variable (blocks limits root) in
/-- What the result of a traversal has to be: the reachable blocks in the order of
    their distances, and a depth error only for a distant block, unless a handler
    has returned it. -/
structure Right (out : Except DagError (Traversal Digest)) : Prop where
  found : ∀ t, out = .ok t → t.cids.Nodup ∧
    (∀ cid, cid ∈ t.cids ↔ ∃ n, Walk (Links blocks limits) root n cid) ∧
    t.cids.Pairwise fun a b =>
      distance (Links blocks limits) root a ≤ distance (Links blocks limits) root b
  deep : ∀ d l, out = .error (.tooDeep d l) → ∃ cid n, Walk (Links blocks limits) root n cid ∧
    (limits.maxDepth < distance (Links blocks limits) root cid ∨
      linksOf blocks limits cid = some (.error (.tooDeep d l)))

/-- The loop ends, since every step takes a new block, of which there are finitely
    many, or shortens the queue. What it returns is right. -/
theorem traverseFrom_ends {reachable : Finset (Cid Digest)}
    (hfinite : ∀ n cid, Walk (Links blocks limits) root n cid → cid ∈ reachable) (left : Nat)
    (h : Tracks blocks limits root p done) (hleft : reachable.card < done.length + left) :
    ∃ out, Right blocks limits root out ∧
      ∃ fuel, ∀ n ≥ fuel, traverseFrom blocks limits n p = some out := by
  induction left generalizing p done with
  | zero =>
    -- No more blocks were taken than there are.
    have hsub : (done.map Prod.fst).toFinset ⊆ reachable := by
      intro cid hcid
      rcases mem_map.mp (mem_toFinset.mp hcid) with ⟨e, he, rfl⟩
      exact hfinite e.2 e.1 (h.search.walks e (mem_append_left _ he))
    have hcard := Finset.card_le_card hsub
    rw [toFinset_card_of_nodup h.search.nodup, length_map] at hcard
    omega
  | succ left ihleft =>
    generalize hqueue : p.queue = queue
    induction queue generalizing p with
    | nil =>
      have hsearch := h.search
      rw [hqueue] at hsearch
      refine ⟨.ok ⟨p.ordered, p.decodedPayloadBytes, p.linksExamined⟩, ?_, 1, fun n hn => ?_⟩
      · refine ⟨?_, by simp⟩
        rintro _ ⟨⟩
        rw [h.ordered]
        exact ⟨hsearch.nodup, hsearch.complete, hsearch.pairwise_distance⟩
      · obtain ⟨n, rfl⟩ := Nat.exists_eq_add_of_le' hn
        simp only [traverseFrom, hqueue]
    | cons entry queue ihqueue =>
      rcases entry with ⟨cid, depth⟩
      -- One step more than the rest of the loop needs.
      have hmore : ∀ {p'}, (∀ n, traverseFrom blocks limits (n + 1) p =
            traverseFrom blocks limits n p') →
          (∃ out, Right blocks limits root out ∧
            ∃ fuel, ∀ n ≥ fuel, traverseFrom blocks limits n p' = some out) →
          ∃ out, Right blocks limits root out ∧
            ∃ fuel, ∀ n ≥ fuel, traverseFrom blocks limits n p = some out := by
        rintro p' heq ⟨out, hright, fuel, hrest⟩
        refine ⟨out, hright, fuel + 1, fun n hn => ?_⟩
        obtain ⟨n, rfl⟩ := Nat.exists_eq_add_of_le' (Nat.le_of_add_left_le hn)
        rw [heq]
        exact hrest n (by omega)
      by_cases hseen : cid ∈ p.seen
      · exact hmore (fun n => by simp only [traverseFrom, hqueue, if_pos hseen])
          (ihqueue (h.skip hqueue hseen) rfl)
      cases hvisit : visit blocks limits cid depth { p with queue } with
      | ok p' =>
        refine hmore (fun n => by simp only [traverseFrom, hqueue, if_neg hseen, hvisit])
          (ihleft (h.visit hqueue hseen hvisit) ?_)
        rw [length_append, length_singleton]
        omega
      | error e =>
        refine ⟨.error e, ⟨by simp, ?_⟩, 1, fun n hn => ?_⟩
        · rintro d l ⟨⟩
          have hcases := visit_cases blocks limits cid depth { p with queue }
          rw [hvisit] at hcases
          have hsearch := h.search
          rw [hqueue] at hsearch
          refine ⟨cid, depth, hsearch.walks (cid, depth) (by simp), ?_⟩
          rw [hsearch.distance_eq (h.fresh hseen)]
          exact hcases d l rfl
        · obtain ⟨n, rfl⟩ := Nat.exists_eq_add_of_le' hn
          simp only [traverseFrom, hqueue, if_neg hseen, hvisit]

/-- Over a graph with finitely many reachable blocks a traversal ends, whatever its
    limits are, and its result is the right one. -/
theorem traverse_finds_reachable (blocks : Blocks Digest) (limits : TraversalLimits)
    (root : Cid Digest) (hfinite : {cid | ∃ n, Walk (Links blocks limits) root n cid}.Finite) :
    ∃ out, (∃ fuel, ∀ n ≥ fuel, traverse blocks limits root n = some out) ∧
      Right blocks limits root out := by
  unfold traverse
  unfold TraversalLimits.validate
  split_ifs with hzero
  · exact ⟨.error .invalidLimits, ⟨0, fun _ _ => rfl⟩, by simp, by simp⟩
  · have hstart : Tracks blocks limits root ⟨[], [], [(root, 0)], 0, 0⟩ [] :=
      ⟨searching_start, rfl, by simp⟩
    have hmem : ∀ n cid, Walk (Links blocks limits) root n cid → cid ∈ hfinite.toFinset :=
      fun n cid hwalk => hfinite.mem_toFinset.mpr ⟨n, hwalk⟩
    rcases traverseFrom_ends hmem (hfinite.toFinset.card + 1) hstart (by simp) with
      ⟨out, hright, hfuel⟩
    exact ⟨out, hfuel, hright⟩

end Traverse

/-- Three blocks, each of which links to itself and to the next one. -/
def ringOfThree : Blocks (Fin 3) where
  handler _ := some ⟨true, fun payload _ =>
    .ok (payload.map fun byte => ⟨codecRaw, Fin.ofNat 3 byte.toNat⟩)⟩
  resolve cid := .ok [cid.digest.val.toUInt8, (cid.digest.val + 1).toUInt8]
  toString cid := cid.codec.canonicalDisplay

theorem traverse_finds_ring : traverse ringOfThree ⟨2, 3, 2, 6, 2, 6⟩ ⟨codecRaw, 0⟩ 8 =
        some (.ok ⟨[⟨codecRaw, 0⟩, ⟨codecRaw, 1⟩, ⟨codecRaw, 2⟩], 6, 6⟩) ∧
      ∃ out, (∃ fuel, ∀ n ≥ fuel,
        traverse ringOfThree ⟨2, 3, 2, 6, 2, 6⟩ ⟨codecRaw, 0⟩ n = some out) ∧
        Right ringOfThree ⟨2, 3, 2, 6, 2, 6⟩ ⟨codecRaw, 0⟩ out := by
  refine ⟨by decide +kernel, traverse_finds_reachable _ _ _ ?_⟩
  refine (Set.finite_range fun n : Fin 3 => (⟨codecRaw, n⟩ : Cid (Fin 3))).subset ?_
  rintro cid ⟨n, hwalk⟩
  cases hwalk with
  | start => exact ⟨0, rfl⟩
  | next _ hlinks =>
    rcases hlinks with ⟨links, hanswer, hmem⟩
    simp only [linksOf, ringOfThree, if_true, Option.some.injEq, Except.ok.injEq] at hanswer
    subst hanswer
    rcases mem_map.mp hmem with ⟨byte, _, rfl⟩
    exact ⟨_, rfl⟩

/-- A registry whose handler reports a depth of its own accord. -/
def reportsDepth : Blocks (Fin 1) where
  handler _ := some ⟨true, fun _ _ => .error (.tooDeep 5 3)⟩
  resolve _ := .ok []
  toString cid := cid.codec.canonicalDisplay

/-- The handler's depth error comes back although there is no block but the root. -/
theorem handler_reports_depth :
    traverse reportsDepth ⟨3, 1, 1, 1, 1, 1⟩ ⟨codecRaw, 0⟩ 1 = some (.error (.tooDeep 5 3)) ∧
      ¬ ∃ cid n, Walk (Links reportsDepth ⟨3, 1, 1, 1, 1, 1⟩) ⟨codecRaw, 0⟩ n cid ∧
        3 < distance (Links reportsDepth ⟨3, 1, 1, 1, 1, 1⟩) ⟨codecRaw, 0⟩ cid := by
  refine ⟨by decide +kernel, ?_⟩
  rintro ⟨cid, n, hwalk, hfar⟩
  cases hwalk with
  | start =>
    have hnear := Nat.sInf_le (s := {n | Walk (Links reportsDepth ⟨3, 1, 1, 1, 1, 1⟩)
      ⟨codecRaw, 0⟩ n ⟨codecRaw, 0⟩}) Walk.start
    exact absurd (lt_of_lt_of_le hfar hnear) (by decide)
  | next _ hlinks =>
    rcases hlinks with ⟨links, hanswer, _⟩
    simp [linksOf, reportsDepth] at hanswer

end Dag

end Pepper
