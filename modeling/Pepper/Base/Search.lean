import Mathlib

/-!
# Breadth-First Search

What holds of a search that takes vertices from the front of a queue and puts
the neighbours of each new one at its end.

The queue holds vertices with the length of the walk they were found by. These
lengths never decrease along the queue and differ by at most one, and they are
at least those of the vertices already taken. A vertex that is taken for the
first time therefore has its distance beside it: a shorter walk would pass
through another vertex of the queue, at a smaller depth.

## Main definitions

* `Walk`: A walk of a given length from the root.
* `distance`: The length of the shortest walk.
* `Searching`: The invariant, over the vertices taken and the queue.

## Theorems

* `Searching.skip`, `Searching.visit`: The two steps of the search.
* `Searching.distance_eq`: A new vertex is taken at its distance.
* `Searching.complete`: With an empty queue everything reachable was taken.
-/

namespace Pepper

open List

variable {α : Type} {R : α → α → Prop} {root : α}

/-- A walk of some length along the relation. -/
inductive Walk (R : α → α → Prop) (root : α) : Nat → α → Prop
  | start : Walk R root 0 root
  | next {n a b} : Walk R root n a → R a b → Walk R root (n + 1) b

/-- The length of the shortest walk to a vertex. -/
noncomputable def distance (R : α → α → Prop) (root a : α) : Nat :=
  sInf {n | Walk R root n a}

theorem distance_eq_of_shortest {a : α} {d : Nat} (hwalk : Walk R root d a)
    (hleast : ∀ n, Walk R root n a → d ≤ n) : distance R root a = d :=
  le_antisymm (Nat.sInf_le hwalk) (hleast _ (Nat.sInf_mem (s := {n | Walk R root n a}) ⟨d, hwalk⟩))

/-- A search with the vertices it has taken and those in its queue. -/
structure Searching (R : α → α → Prop) (root : α) (done queue : List (α × Nat)) : Prop where
  rooted : (root, 0) ∈ done ++ queue
  walks : ∀ e ∈ done ++ queue, Walk R root e.2 e.1
  closed : ∀ e ∈ done, ∀ b, R e.1 b → ∃ d ≤ e.2 + 1, (b, d) ∈ done ++ queue
  shortest : ∀ e ∈ done, e.2 = distance R root e.1
  sorted : (done ++ queue).Pairwise fun e e' => e.2 ≤ e'.2
  near : ∀ e ∈ queue, ∀ e' ∈ queue, e'.2 ≤ e.2 + 1
  nodup : (done.map Prod.fst).Nodup

theorem searching_start : Searching R root [] [(root, 0)] where
  rooted := mem_cons_self
  walks e he := by
    rw [mem_singleton.mp he]
    exact Walk.start
  closed := by simp
  shortest := by simp
  sorted := pairwise_singleton _ _
  near := by simp
  nodup := nodup_nil

namespace Searching

variable {done queue : List (α × Nat)} {a : α} {d : Nat}

/-- A walk ends at a vertex that was taken, or it leaves the search at a vertex of
    the queue. -/
theorem reaches (h : Searching R root done queue) {n : Nat} (hwalk : Walk R root n a) :
    (∃ d ≤ n, (a, d) ∈ done) ∨ ∃ e ∈ queue, e.2 ≤ n := by
  induction hwalk with
  | start =>
    rcases mem_append.mp h.rooted with hroot | hroot
    · exact Or.inl ⟨0, le_rfl, hroot⟩
    · exact Or.inr ⟨_, hroot, le_rfl⟩
  | next _ hstep ih =>
    rcases ih with ⟨d, hd, hdone⟩ | ⟨e, he, hle⟩
    · rcases h.closed _ hdone _ hstep with ⟨d', hd', hmem⟩
      have hle : d' ≤ d + 1 := hd'
      rcases mem_append.mp hmem with hmem | hmem
      · exact Or.inl ⟨d', by omega, hmem⟩
      · exact Or.inr ⟨_, hmem, by simp only; omega⟩
    · exact Or.inr ⟨e, he, by omega⟩

section

variable (h : Searching R root done ((a, d) :: queue))

include h

/-- What is in front of the queue has the least depth of it. -/
theorem head_le {e : α × Nat} (he : e ∈ queue) : d ≤ e.2 :=
  rel_of_pairwise_cons (pairwise_append.mp h.sorted).2.1 he

/-- A vertex that is taken for the first time is taken at its distance. -/
theorem distance_eq (hnew : a ∉ done.map Prod.fst) : distance R root a = d := by
  refine distance_eq_of_shortest (h.walks (a, d) (by simp)) fun n hwalk => ?_
  rcases h.reaches hwalk with ⟨d', _, hdone⟩ | ⟨e, he, hle⟩
  · exact absurd (mem_map_of_mem hdone) hnew
  · rcases mem_cons.mp he with rfl | he
    · exact hle
    · exact le_trans (h.head_le he) hle

/-- A vertex that was taken before is dropped. -/
theorem skip (hseen : a ∈ done.map Prod.fst) : Searching R root done queue := by
  rcases mem_map.mp hseen with ⟨⟨a', d0⟩, hdone, heq⟩
  have heq : a' = a := heq
  subst heq
  have hle : d0 ≤ d := (pairwise_append.mp h.sorted).2.2 _ hdone _ mem_cons_self
  have hsub : (done ++ queue).Sublist (done ++ (a', d) :: queue) :=
    (sublist_cons_self _ _).append_left _
  -- Where the dropped entry stood for its vertex the earlier one does.
  have hstands : ∀ b n, (b, n) ∈ done ++ (a', d) :: queue → ∃ m ≤ n, (b, m) ∈ done ++ queue := by
    intro b n hmem
    rcases mem_append.mp hmem with hmem | hmem
    · exact ⟨n, le_rfl, mem_append_left _ hmem⟩
    rcases mem_cons.mp hmem with heq | hmem
    · cases heq
      exact ⟨d0, hle, mem_append_left _ hdone⟩
    · exact ⟨n, le_rfl, mem_append_right _ hmem⟩
  refine ⟨?_, fun e he => h.walks e (hsub.subset he), fun e he b hb => ?_, h.shortest,
    h.sorted.sublist hsub, fun e he e' he' => h.near e (by simp [he]) e' (by simp [he']), h.nodup⟩
  · rcases hstands _ _ h.rooted with ⟨m, hm, hmem⟩
    rwa [Nat.le_zero.mp hm] at hmem
  · rcases h.closed e he b hb with ⟨n, hn, hmem⟩
    rcases hstands b n hmem with ⟨m, hm, hmem⟩
    exact ⟨m, le_trans hm hn, hmem⟩

/-- A new vertex is taken, and its neighbours go to the end of the queue. -/
theorem visit (hnew : a ∉ done.map Prod.fst) {links : List α} (hlinks : ∀ b, R a b ↔ b ∈ links) :
    Searching R root (done ++ [(a, d)]) (queue ++ links.map fun b => (b, d + 1)) := by
  have hwalk : Walk R root d a := h.walks (a, d) (by simp)
  have hqueue : ∀ e ∈ queue, d ≤ e.2 ∧ e.2 ≤ d + 1 := fun e he =>
    ⟨h.head_le he, h.near (a, d) mem_cons_self e (mem_cons_of_mem _ he)⟩
  have hassoc : done ++ [(a, d)] ++ (queue ++ links.map fun b => (b, d + 1)) =
      (done ++ (a, d) :: queue) ++ links.map fun b => (b, d + 1) := by simp
  refine ⟨?_, fun e he => ?_, fun e he b hb => ?_, fun e he => ?_, ?_, fun e he e' he' => ?_, ?_⟩
  · rw [hassoc]
    exact mem_append_left _ h.rooted
  · rw [hassoc] at he
    rcases mem_append.mp he with he | he
    · exact h.walks e he
    · rcases mem_map.mp he with ⟨b, hb, rfl⟩
      exact hwalk.next ((hlinks b).mpr hb)
  · rw [hassoc]
    rcases mem_append.mp he with he | he
    · rcases h.closed e he b hb with ⟨d', hd', hmem⟩
      exact ⟨d', hd', mem_append_left _ hmem⟩
    · rw [mem_singleton.mp he] at hb ⊢
      exact ⟨d + 1, le_rfl, by simp [(hlinks b).mp hb]⟩
  · rcases mem_append.mp he with he | he
    · exact h.shortest e he
    · rw [mem_singleton.mp he]
      exact (h.distance_eq hnew).symm
  · have hbef : ∀ e ∈ done, e.2 ≤ d := fun e he =>
      (pairwise_append.mp h.sorted).2.2 e he (a, d) mem_cons_self
    rw [hassoc, pairwise_append, pairwise_map]
    exact ⟨h.sorted, pairwise_of_forall fun _ _ => le_rfl, by grind⟩
  · grind
  · rw [map_append]
    exact h.nodup.append (nodup_singleton a) (by simpa using hnew)

end

/-- With an empty queue the vertices that were taken are the reachable ones. -/
theorem complete (h : Searching R root done []) (b : α) :
    b ∈ done.map Prod.fst ↔ ∃ n, Walk R root n b := by
  constructor
  · intro hb
    rcases mem_map.mp hb with ⟨e, he, rfl⟩
    exact ⟨e.2, h.walks e (mem_append_left _ he)⟩
  · rintro ⟨n, hwalk⟩
    rcases h.reaches hwalk with ⟨d, _, hdone⟩ | ⟨e, he, _⟩
    · exact mem_map_of_mem hdone
    · cases he

/-- The vertices were taken in the order of their distances. -/
theorem pairwise_distance (h : Searching R root done queue) :
    (done.map Prod.fst).Pairwise fun a b => distance R root a ≤ distance R root b := by
  rw [pairwise_map]
  refine (pairwise_append.mp h.sorted).1.imp_of_mem ?_
  intro e e' he he' hle
  rwa [← h.shortest e he, ← h.shortest e' he']

end Searching

end Pepper
