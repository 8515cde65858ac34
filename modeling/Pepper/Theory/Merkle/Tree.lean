import Pepper.Base.Radix
import Pepper.Core.Merkle.Map

/-!
# Trees Behind Identifiers

The Merkle map as a compressed radix tree. The identifier of a root names a
tree: digests do not collide, so a node that is loaded under an identifier is
the node that the identifier was made from, and so are its children.

`treeCid` is that identifier. A node below the root holds the symbol of its
edge as the first of its own string; the tree of `Radix` keeps it at the edge,
so the identifier of a subtree also takes the string before its path.

## Main definitions

* `treeNode`, `treeCid`: The node and the identifier of a tree.
* `Stored`: All nodes of a tree can be loaded.
* `Keeps`: Every block of one state is in the other.

## Theorems

* `eq_treeNode_of_loadNode`: What is loaded under the identifier of a tree.
* `storeNode_yields`: What is stored can be loaded.
* `searchEdge_ok`, `searchEdge_error`: Searching the children of a node.
* `commonPrefixLen_cases`: Where two strings part.
-/

namespace Pepper

namespace Merkle

open List

variable {Digest : Type}

/-- A map from byte strings to values. -/
abbrev KeyTree (Digest : Type) := Radix UInt8 (MerkleValue Digest)

section Identifiers

variable (enc : Encoding Digest)

mutual

/-- The identifier of a tree whose keys have `pre` before its path. -/
def treeCid (pre : Bytes) : KeyTree Digest → Cid Digest
  | .node path value children =>
    enc.cid codecMerkleNode (enc.node.toVec (Node.new (pre ++ path) value (childLinks children)))

def childLinks : List (UInt8 × KeyTree Digest) → List (Child Digest)
  | [] => []
  | (edge, child) :: rest => ⟨edge, treeCid [edge] child⟩ :: childLinks rest

end

/-- The root node of a tree. -/
def treeNode (pre : Bytes) : KeyTree Digest → Node Digest
  | .node path value children => Node.new (pre ++ path) value (childLinks enc children)

theorem treeCid_eq (pre : Bytes) (t : KeyTree Digest) :
    treeCid enc pre t = enc.cid codecMerkleNode (enc.node.toVec (treeNode enc pre t)) := by
  cases t with
  | node path value children => rw [treeCid, treeNode]

theorem childLinks_eq_map (children : List (UInt8 × KeyTree Digest)) :
    childLinks enc children =
      children.map fun child => ⟨child.1, treeCid enc [child.1] child.2⟩ := by
  induction children with
  | nil => rw [childLinks, map_nil]
  | cons child children ih => rw [childLinks, ih, map_cons]

theorem prefixBytes_new (pre : Bytes) (value : Option (MerkleValue Digest))
    (children : List (Child Digest)) : (Node.new pre value children).prefixBytes = .ok pre := by
  rw [Node.prefixBytes, Node.new, Hex.decode_encode]

end Identifiers

variable {pre : Bytes} {children : List (UInt8 × KeyTree Digest)}
  {cid : Cid Digest} {path : Bytes} {value : Option (MerkleValue Digest)}

section Loading

variable [DecidableEq Digest] {enc : Encoding Digest} {limits : MerkleLimits}
  {read : Cid Digest → Except String Bytes}

/-- A node that passes its checks and the size limit. -/
def Fits (enc : Encoding Digest) (limits : MerkleLimits) (node : Node Digest) : Prop :=
  validateNodeShallow node limits = .ok () ∧ (enc.node.toVec node).length ≤ limits.maxNodeBytes

variable {node : Node Digest}

omit [DecidableEq Digest] in
/-- What it takes for a block to be a node: its bytes are the node's encoding. -/
theorem decodeNode_eq_ok {payload : Bytes} :
    decodeNode enc limits payload = .ok node ↔
      payload = enc.node.toVec node ∧ Fits enc limits node := by
  rw [decodeNode, throw_unless_eq_ok, not_lt]
  cases hslice : enc.node.fromSlice payload with
  | error message =>
    constructor
    · exact fun h => by cases h.2
    · rintro ⟨rfl, _⟩
      rw [enc.node.fromSlice_toVec] at hslice
      cases hslice
  | ok found =>
    simp only [pure_bind]
    rw [bind_eq_ok]
    constructor
    · rintro ⟨hsize, _, hval, h⟩
      rcases throw_unless_eq_ok.mp h with ⟨hsame, h⟩
      rw [not_not] at hsame
      cases h
      exact ⟨hsame.symm, hval, hsame ▸ hsize⟩
    · rintro ⟨rfl, hval, hsize⟩
      cases hslice.symm.trans (enc.node.fromSlice_toVec node)
      exact ⟨hsize, (), hval, throw_unless_eq_ok.mpr ⟨not_not.mpr rfl, rfl⟩⟩

theorem loadNode_eq_ok : loadNode enc limits read cid = .ok node ↔
      cid = enc.cid codecMerkleNode (enc.node.toVec node) ∧
        read cid = .ok (enc.node.toVec node) ∧ Fits enc limits node := by
  rw [loadNode, throw_unless_eq_ok, not_not]
  constructor
  · rintro ⟨hcodec, h⟩
    cases hread : read cid with
    | error message =>
      rw [hread] at h
      cases h
    | ok payload =>
      rw [hread] at h
      rcases throw_unless_eq_ok.mp h with ⟨hverify, h⟩
      rcases decodeNode_eq_ok.mp h with ⟨rfl, hfits⟩
      have hdig := of_decide_eq_true (Bool.not_eq_false _ ▸ hverify)
      rw [hcodec] at hdig
      refine ⟨?_, rfl, hfits⟩
      rw [Hashing.cid, hdig, ← hcodec]
  · rintro ⟨hcid, hread, hfits⟩
    have hverify : enc.verify cid (enc.node.toVec node) = true := by
      rw [hcid]
      exact enc.verify_cid _ _
    refine ⟨by rw [hcid, Hashing.cid], ?_⟩
    rw [hread]
    exact throw_unless_eq_ok.mpr ⟨by rw [hverify]; exact nofun, decodeNode_eq_ok.mpr ⟨rfl, hfits⟩⟩

variable {t : KeyTree Digest}

/-- What is loaded under the identifier of a tree is its root node. -/
theorem eq_treeNode_of_loadNode (h : loadNode enc limits read (treeCid enc pre t) = .ok node) :
    node = treeNode enc pre t := by
  have hcid := (loadNode_eq_ok.mp h).1
  rw [treeCid_eq] at hcid
  exact (enc.node.toVec_injective (enc.cid_injective _ hcid)).symm

/-- All nodes of a tree can be loaded. -/
inductive Stored (enc : Encoding Digest) (limits : MerkleLimits)
    (read : Cid Digest → Except String Bytes) : Bytes → KeyTree Digest → Prop where
  | node (pre path : Bytes) (value : Option (MerkleValue Digest))
      (children : List (UInt8 × KeyTree Digest))
      (hload : loadNode enc limits read (treeCid enc pre (.node path value children)) =
        .ok (treeNode enc pre (.node path value children)))
      (hchildren : ∀ child ∈ children, Stored enc limits read [child.1] child.2) :
      Stored enc limits read pre (.node path value children)

theorem Stored.mono {read' : Cid Digest → Except String Bytes}
    (hkeep : ∀ cid bytes, read cid = .ok bytes → read' cid = .ok bytes)
    (h : Stored enc limits read pre t) : Stored enc limits read' pre t := by
  induction h with
  | node pre path value children hload _ ih =>
    apply Stored.node _ _ _ _ _ ih
    rw [loadNode_eq_ok] at hload ⊢
    exact ⟨hload.1, hkeep _ _ hload.2.1, hload.2.2⟩

end Loading

section Storing

variable [DecidableEq Digest] (enc : Encoding Digest) (limits : MerkleLimits) {σ : Type}
  (store : MerkleStore σ Digest)

/-- Every block of the first state is in the second. -/
def Keeps (s s' : σ) : Prop :=
  ∀ cid bytes, store.get cid s = .ok bytes → store.get cid s' = .ok bytes

instance instIsPreorderKeeps : IsPreorder σ (Keeps store) where
  refl _ _ _ h := h
  trans _ _ _ h h' cid bytes hs := h' cid bytes (h cid bytes hs)

variable {store} {s : σ}

theorem fetchNode_yields : (fetchNode enc limits store cid).Yields (Keeps store) s fun node s' =>
      s' = s ∧ loadNode enc limits (store.get · s) cid = .ok node := by
  apply Fallible.Yields.get_bind
  refine ⟨fun _ _ h => h, fun node hnode => ⟨rfl, hnode⟩⟩

/-- A node that is stored can be loaded from then on. -/
theorem storeNode_yields (hstore : store.ContentAddressed) (node : Node Digest) (s : σ) :
    (storeNode enc limits store node).Yields (Keeps store) s fun cid s' =>
      cid = enc.cid codecMerkleNode (enc.node.toVec node) ∧
        loadNode enc limits (store.get · s') cid = .ok node := by
  apply Fallible.Yields.ofExcept_bind
  intro _ hval
  apply Fallible.Yields.require_bind
  intro hsize
  have hput : (putBlock store codecMerkleNode (enc.node.toVec node)).Yields (Keeps store) s
      fun cid s' => store.get cid s' = .ok (enc.node.toVec node) := by
    have hkeep : Keeps store s (store.put codecMerkleNode (enc.node.toVec node) s).2 :=
      fun cid bytes h => hstore.get_keep _ _ s cid bytes h
    rw [Fallible.Yields, Fallible.Ends, putBlock]
    rcases hres : store.put codecMerkleNode (enc.node.toVec node) s with ⟨answer, s'⟩
    rw [hres] at hkeep
    cases answer with
    | error message => exact ⟨hkeep, fun _ h => by cases h⟩
    | ok cid =>
      refine ⟨hkeep, fun _ h => ?_⟩
      cases h
      exact hstore.get_put _ _ s _ s' hres
  apply hput.bind
  intro actual s' _ hget
  apply Fallible.Yields.require_bind
  intro hactual
  apply Fallible.Yields.pure
  exact ⟨hactual, loadNode_eq_ok.mpr ⟨hactual, hget, hval, hsize⟩⟩

/-- Storing the root node of a tree whose children are stored stores the tree. -/
theorem storeNode_tree (hstore : store.ContentAddressed)
    (hchildren : ∀ child ∈ children, Stored enc limits (store.get · s) [child.1] child.2) :
    (storeNode enc limits store (treeNode enc pre (.node path value children))).Yields (Keeps store)
      s fun cid s' => cid = treeCid enc pre (.node path value children) ∧
        Stored enc limits (store.get · s') pre (.node path value children) := by
  apply (storeNode_yields enc limits hstore _ s).mono
  intro cid s' hkeep h
  have hcid : cid = treeCid enc pre (.node path value children) := by
    rw [h.1, treeCid_eq]
  refine ⟨hcid, Stored.node _ _ _ _ ?_ fun child hchild => (hchildren child hchild).mono hkeep⟩
  rw [← hcid]
  exact h.2

end Storing

section Search

variable {enc : Encoding Digest}

theorem childLinks_append (left right : List (UInt8 × KeyTree Digest)) :
    childLinks enc (left ++ right) = childLinks enc left ++ childLinks enc right := by
  simp only [childLinks_eq_map, map_append]

theorem length_childLinks (children : List (UInt8 × KeyTree Digest)) :
    (childLinks enc children).length = children.length := by
  rw [childLinks_eq_map, length_map]

section

variable (left right : List (UInt8 × KeyTree Digest))

include left right

theorem childLinks_getElem? (edge : UInt8) (child : KeyTree Digest) :
    (childLinks enc (left ++ (edge, child) :: right))[left.length]? =
      some ⟨edge, treeCid enc [edge] child⟩ := by
  rw [childLinks_append, getElem?_append_right (by rw [length_childLinks]), length_childLinks,
    Nat.sub_self, childLinks, getElem?_cons_zero]

theorem childLinks_set (edge : UInt8) (child child' : KeyTree Digest) :
    (childLinks enc (left ++ (edge, child) :: right)).set left.length
        ⟨edge, treeCid enc [edge] child'⟩ =
      childLinks enc (left ++ (edge, child') :: right) := by
  simp only [childLinks_append, childLinks]
  rw [set_append_right _ _ (by rw [length_childLinks]), length_childLinks, Nat.sub_self,
    set_cons_zero]

theorem childLinks_eraseIdx (child : UInt8 × KeyTree Digest) :
    (childLinks enc (left ++ child :: right)).eraseIdx left.length =
      childLinks enc (left ++ right) := by
  simp only [childLinks_append, childLinks]
  rw [eraseIdx_append_of_length_le (by rw [length_childLinks]), length_childLinks, Nat.sub_self,
    eraseIdx_cons_zero]

theorem childLinks_insertIdx (edge : UInt8) (child : KeyTree Digest) :
    (childLinks enc (left ++ right)).insertIdx left.length ⟨edge, treeCid enc [edge] child⟩ =
      childLinks enc (left ++ (edge, child) :: right) := by
  induction left with
  | nil => rw [nil_append, length_nil, insertIdx_zero, nil_append, childLinks]
  | cons head left ih =>
    rw [cons_append, cons_append, childLinks, childLinks, length_cons, insertIdx_succ_cons, ih]

end

/-- The children before the place of an edge. -/
def before (edge : UInt8) (children : List (UInt8 × KeyTree Digest)) :
    List (UInt8 × KeyTree Digest) :=
  children.takeWhile fun child => child.1 < edge

/-- The children from the place of an edge on. -/
def after (edge : UInt8) (children : List (UInt8 × KeyTree Digest)) :
    List (UInt8 × KeyTree Digest) :=
  children.dropWhile fun child => child.1 < edge

theorem before_append_after (edge : UInt8) (children : List (UInt8 × KeyTree Digest)) :
    before edge children ++ after edge children = children :=
  takeWhile_append_dropWhile

/-- The search stops before the children from the place of the edge on, and
    looks at the first of them. -/
theorem searchEdge_childLinks (edge : UInt8) (children : List (UInt8 × KeyTree Digest)) :
    searchEdge edge (childLinks enc children) = match after edge children with
      | (e, _) :: _ => if e = edge then .ok (before edge children).length
          else .error (before edge children).length
      | [] => .error (before edge children).length := by
  have hidx : ((childLinks enc children).takeWhile (·.edge < edge)).length =
      (before edge children).length := by
    rw [childLinks_eq_map, takeWhile_map, length_map, before]
    rfl
  have hfound : (childLinks enc children)[(before edge children).length]? =
      (childLinks enc (after edge children))[0]? := by
    conv => lhs; rw [← before_append_after edge children, childLinks_append]
    rw [getElem?_append_right (by rw [length_childLinks, before_append_after]),
      length_childLinks, before_append_after, Nat.sub_self]
  rw [searchEdge, hidx, hfound]
  rcases after edge children with _ | ⟨⟨e, child⟩, rest⟩
  · rfl
  · rfl

variable {edge : UInt8} {index : Nat}

theorem searchEdge_ok (h : searchEdge edge (childLinks enc children) = .ok index) :
    ∃ left child right, children = left ++ (edge, child) :: right ∧ index = left.length := by
  have hsplit := before_append_after edge children
  rw [searchEdge_childLinks] at h
  rcases haft : after edge children with _ | ⟨⟨e, child⟩, right⟩
  · rw [haft] at h
    cases h
  · rw [haft] at h hsplit
    by_cases he : e = edge
    · simp only [if_pos he] at h
      cases h
      rw [he] at hsplit
      exact ⟨before edge children, child, right, hsplit.symm, rfl⟩
    · simp only [if_neg he] at h
      cases h

theorem searchEdge_error (hsorted : children.Pairwise fun a b => a.1 < b.1)
    (h : searchEdge edge (childLinks enc children) = .error index) :
    ∃ left right, children = left ++ right ∧ index = left.length ∧
      (∀ a ∈ left, a.1 < edge) ∧ ∀ b ∈ right, edge < b.1 := by
  rw [searchEdge_childLinks] at h
  have hleft : ∀ a ∈ before edge children, a.1 < edge := by
    intro a ha
    have := mem_takeWhile_imp ha
    exact of_decide_eq_true this
  rcases haft : after edge children with _ | ⟨⟨e, child⟩, right⟩
  · rw [haft] at h
    exact ⟨_, _, (before_append_after edge children).symm, (Except.error.inj h).symm, hleft,
      fun b hb => absurd hb (by rw [haft]; exact not_mem_nil)⟩
  · rw [haft] at h
    -- The first edge that is not smaller is not the one that is looked for.
    have hle : ¬ e < edge := by
      have hhead := head?_dropWhile_not (fun child : UInt8 × KeyTree Digest => child.1 < edge)
        children
      rw [after] at haft
      rw [haft] at hhead
      simpa only [head?_cons, decide_eq_false_iff_not] using hhead
    by_cases he : e = edge
    · simp only [if_pos he] at h
      cases h
    · simp only [if_neg he] at h
      have hlt : edge < e := lt_of_le_of_ne (not_lt.mp hle) (Ne.symm he)
      have hpart : ((e, child) :: right).Pairwise fun a b => a.1 < b.1 := by
        rw [← haft]
        exact hsorted.sublist (dropWhile_sublist _)
      refine ⟨_, _, (before_append_after edge children).symm, (Except.error.inj h).symm, hleft, ?_⟩
      rw [haft]
      intro b hb
      rcases mem_cons.mp hb with rfl | hb
      · exact hlt
      · exact hlt.trans ((pairwise_cons.mp hpart).1 b hb)

/-- A key that goes on with an edge that is not there has no entry. -/
theorem not_mem_of_searchEdge_error {rest : Bytes} {w : MerkleValue Digest}
    (hsorted : children.Pairwise fun a b => a.1 < b.1)
    (hsearch : searchEdge edge (childLinks enc children) = .error index) :
    (path ++ edge :: rest, w) ∉ (Radix.node path value children).entries := by
  rcases searchEdge_error hsorted hsearch with ⟨left, right, rfl, rfl, hleft, hright⟩
  intro hw
  rcases Radix.mem_entries_node.mp hw with ⟨hk, _⟩ | ⟨e, c, r, hc, hk, _⟩
  · have hlen := congrArg List.length hk
    rw [length_append, length_cons] at hlen
    omega
  · -- The edge would be one of those that the search went past.
    rcases List.cons.inj (append_cancel_left hk) with ⟨rfl, _⟩
    rcases mem_append.mp hc with hc | hc
    · exact lt_irrefl _ (hleft _ hc)
    · exact lt_irrefl _ (hright _ hc)

end Search

section Common

theorem commonPrefixLen_append (pre left right : Bytes) :
    commonPrefixLen (pre ++ left) (pre ++ right) = pre.length + commonPrefixLen left right := by
  induction pre with
  | nil => rw [nil_append, nil_append, length_nil, Nat.zero_add]
  | cons x pre ih =>
    rw [commonPrefixLen] at ih ⊢
    rw [cons_append, cons_append, zip_cons_cons, takeWhile_cons_of_pos
      (by simp only [decide_true]), length_cons, ih, length_cons]
    omega

/-- Either the first string is a start of the second, or they part at a place
    that the common length names. -/
theorem commonPrefixLen_cases (left right : Bytes) :
    (commonPrefixLen left right = left.length ∧ left <+: right) ∨
      ∃ stem x tail rest, left = stem ++ x :: tail ∧ right = stem ++ rest ∧
        commonPrefixLen left right = stem.length ∧ rest.head? ≠ some x := by
  induction left generalizing right with
  | nil => exact Or.inl ⟨rfl, nil_prefix⟩
  | cons x left ih =>
    cases right with
    | nil =>
      exact Or.inr ⟨[], x, left, [], rfl, rfl, rfl, by
        simp only [head?_nil, ne_eq, reduceCtorEq, not_false_eq_true]⟩
    | cons y right =>
      by_cases hxy : x = y
      · subst hxy
        have hlen := commonPrefixLen_append [x] left right
        rw [singleton_append, singleton_append, length_singleton] at hlen
        rcases ih right with ⟨hfull, hstart⟩ | ⟨stem, z, tail, rest, hleft, hright, hstem, hne⟩
        · exact Or.inl ⟨by rw [hlen, hfull, length_cons]; omega, cons_prefix_cons.mpr ⟨rfl, hstart⟩⟩
        · exact Or.inr ⟨x :: stem, z, tail, rest, by rw [hleft]; rfl, by rw [hright]; rfl,
            by rw [hlen, hstem, length_cons]; omega, hne⟩
      · refine Or.inr ⟨[], x, left, y :: right, rfl, rfl, ?_, ?_⟩
        · rw [commonPrefixLen, zip_cons_cons, takeWhile_cons_of_neg
            (by simp only [hxy, decide_false, Bool.false_eq_true, not_false_eq_true])]
          rfl
        · simp only [head?_cons, ne_eq, Option.some.injEq]
          exact fun h => hxy h.symm

end Common

end Merkle

end Pepper
