import Pepper.Theory.Merkle.History

/-!
# Lookups in the Merkle Map

A lookup walks down the path of its key and answers what the map holds. A level
of the walk uses up at least the symbol of an edge, so a limit on the depth that
is not below the limit on keys never stops it.

## Theorems

* `getFrom_stored`: A lookup from a node down.
* `get_of_history`: A lookup under the root of a history.
-/

namespace Pepper

namespace Merkle

open List

variable {Digest : Type} [DecidableEq Digest] {enc : Encoding Digest} {limits : MerkleLimits}
  {read : Cid Digest → Except String Bytes}

/-- The answer of a lookup is the entry of the key, if the levels that are left
    suffice for its symbols. -/
theorem getFrom_stored {key : Bytes} {room offset : Nat} {pre rest : Bytes} {t : KeyTree Digest}
    (hkey : key.drop offset = pre ++ rest) (ht : t = Radix.empty ∨ t.Canonical)
    (hstored : Stored enc limits read pre t) (hroom : rest.length < room) :
    ∃ answer, getFrom enc limits read key room (treeCid enc pre t) offset = .ok answer ∧
      ∀ w, answer = some w ↔ (rest, w) ∈ t.entries := by
  induction room generalizing offset pre rest t with
  | zero => omega
  | succ room ih =>
    rcases hstored with ⟨_, path, value, children, hload, hchildren⟩
    have hsorted : children.Pairwise fun a b => a.1 < b.1 := by
      rcases ht with hempty | hcan
      · cases hempty
        exact List.Pairwise.nil
      · exact (Radix.canonical_node.mp hcan).1.sorted
    have hpre : (treeNode enc pre (.node path value children)).prefixBytes = .ok (pre ++ path) := by
      rw [treeNode, prefixBytes_new]
    have hlinks : (treeNode enc pre (.node path value children)).children =
        childLinks enc children := rfl
    rw [getFrom, hload]
    simp only [bind, Except.bind, hpre, hlinks, hkey]
    by_cases hstart : path <+: rest
    · rcases hstart with ⟨more, rfl⟩
      rw [if_neg (by
        rw [not_not, prefix_append_right_inj]
        exact prefix_append _ _)]
      have hnext : key.drop (offset + (pre ++ path).length) = more := drop_of_append hkey
      rw [hnext]
      cases more with
      | nil =>
        refine ⟨value, rfl, fun w => ?_⟩
        rw [append_nil, Radix.mem_entries_path]
      | cons edge more =>
        simp only
        cases hsearch : searchEdge edge (childLinks enc children) with
        | ok index =>
          rcases searchEdge_ok hsearch with ⟨left, child, right, rfl, rfl⟩
          have hmem : (edge, child) ∈ left ++ (edge, child) :: right :=
            mem_append_right _ mem_cons_self
          rcases ht with hempty | hcan
          · injection hempty with _ _ hchildren
            rw [hchildren] at hmem
            cases hmem
          · -- A level takes at least the symbol of the edge.
            have hlen : more.length < room := by
              rw [length_append, length_cons] at hroom
              omega
            rcases ih hnext (Or.inr ((Radix.canonical_node.mp hcan).1.canonical _ hmem))
              (hchildren _ hmem) hlen with ⟨answer, hanswer, hentries⟩
            simp only [childLinks_getElem?]
            refine ⟨answer, hanswer, fun w => ?_⟩
            rw [hentries, Radix.mem_entries_edge hsorted hmem]
        | error index =>
          refine ⟨none, rfl, fun w => ?_⟩
          simp only [reduceCtorEq, false_iff]
          exact not_mem_of_searchEdge_error hsorted hsearch
    · rw [if_pos (by rw [prefix_append_right_inj]; exact hstart)]
      refine ⟨none, rfl, fun w => ?_⟩
      simp only [reduceCtorEq, false_iff]
      exact fun hw => hstart (Radix.path_isPrefix_of_mem hw)

variable {σ : Type} {store : MerkleStore σ Digest}

/-- Under the root of a history, a lookup of a key within the limit succeeds and
    answers what the map holds. -/
theorem get_of_history (hstore : store.ContentAddressed)
    (hlimits : (limits.validate : Except (MerkleError Digest) MerkleLimits) = .ok limits)
    (hdepth : limits.maxKeyBytes ≤ limits.maxDepth) {s : σ} {root : Cid Digest} {m : KeyMap Digest}
    (h : History enc limits store s root m) {key : Bytes} (hkey : key.length ≤ limits.maxKeyBytes) :
    get enc limits (store.get · s) root key = .ok (m key) := by
  rcases h.holds hstore with ⟨t, rfl, ht, hstored, hentries⟩
  have hroom : key.length < limits.maxDepth + 1 := by omega
  rcases @getFrom_stored Digest _ enc limits _ key _ 0 [] key t rfl ht hstored hroom with
    ⟨answer, hanswer, hmem⟩
  have hcheck : (validateKey key limits : Except (MerkleError Digest) Unit) = .ok () :=
    if_neg (by omega)
  have hmap : answer = m key := by
    apply Option.ext
    intro w
    rw [hmem, hentries]
  rw [get, hlimits]
  simp only [bind, Except.bind, hcheck, hanswer, hmap]

/-- A key that is there and one that is not, under the root of a batch. -/
theorem get_of_history_pair : ∃ s root, History plainEncoding {} (blockList plainHashing) s root
        ([.put [1] (plainValue 1), .put [2] (plainValue 2)].foldl KeyMap.mutate fun _ => none) ∧
      get plainEncoding {} ((blockList plainHashing).get · s) root [2] = .ok (some (plainValue 2)) ∧
      get plainEncoding {} ((blockList plainHashing).get · s) root [2, 1] = .ok none := by
  have hanswer : (applyBatch plainEncoding {} (blockList plainHashing)
      (treeCid plainEncoding [] Radix.empty) [.put [1] (plainValue 1), .put [2] (plainValue 2)]
      plainBlocks).1 = .ok (treeCid plainEncoding [] (.node [] none
        [(1, .leaf [] (plainValue 1)), (2, .leaf [] (plainValue 2))])) := by
    decide +kernel
  have hhistory := (History.empty plain_empty).of_answer hanswer
  refine ⟨_, _, hhistory, ?_, ?_⟩
  · exact get_of_history (blockList_contentAddressed _) rfl (by decide) hhistory (by decide)
  · exact get_of_history (blockList_contentAddressed _) rfl (by decide) hhistory (by decide)

end Merkle

end Pepper
