import Pepper.Theory.Merkle.Tree

/-!
# Updates of the Merkle Map

Inserting and deleting turn the identifier of one canonical tree into that of
another, with the map changed at the key and nowhere else.

Both walk down one path and rebuild its nodes on the way back, so each proof is
an induction over the levels that are left. What happens at a node (its value
is set, a child is replaced, added or dropped, its string is split, it is merged
with its only child) is a fact about `Radix`.

## Main definitions

* `Names`: An identifier names a stored canonical tree with a property.
* `Holds`: A root holds a map.

## Theorems

* `normalizeAndStore_yields`: Normalizing changes no entry.
* `insertAt_yields`, `deleteAt_yields`: One change from a node down.
* `applyBatch_yields`: A batch takes a root of one map to a root of another.
-/

namespace Pepper

namespace Merkle

open Fallible List

variable {D : Type} [DecidableEq D] (enc : Encoding D) (limits : MerkleLimits)
  {σ : Type} (store : MerkleStore σ D)

/-- The identifier names a canonical tree that is stored and has a property. -/
def Names (s : σ) (pre : Bytes) (cid : Cid D) (P : KeyTree D → Prop) : Prop :=
  ∃ t, cid = treeCid enc pre t ∧ t.Canonical ∧ Stored enc limits (store.get · s) pre t ∧ P t

/-- The subtrees of a node are stored. -/
def StoredBelow (s : σ) (children : List (UInt8 × KeyTree D)) : Prop :=
  ∀ child ∈ children, Stored enc limits (store.get · s) [child.1] child.2

variable {enc limits store}
  {pre path key rest : Bytes} {s : σ} {children left right : List (UInt8 × KeyTree D)}
  {value : Option (MerkleValue D)} {offset : Nat} {v : MerkleValue D} {edge : UInt8}
  {t : KeyTree D}

theorem Names.imp {cid : Cid D} {P Q : KeyTree D → Prop}
    (h : Names enc limits store s pre cid P) (himp : ∀ t, P t → Q t) :
    Names enc limits store s pre cid Q := by
  rcases h with ⟨t, hcid, hcan, hstored, ht⟩
  exact ⟨t, hcid, hcan, hstored, himp t ht⟩

theorem Stored.child {read : Cid D → Except String Bytes}
    (h : Stored enc limits read pre (.node path value children)) :
    ∀ child ∈ children, Stored enc limits read [child.1] child.2 := by
  cases h with
  | node _ _ _ _ _ hchildren => exact hchildren

/-- The first steps at a node: it comes back as it was stored, with its string. -/
theorem fetchNode_bind {α : Type} {Q : α → σ → Prop}
    {f : Node D → Bytes → Fallible σ (MerkleError D) α}
    (h : (f (treeNode enc pre (.node path value children)) (pre ++ path)).Yields
      (Keeps store) s Q) :
    (do
      let node ← fetchNode enc limits store (treeCid enc pre (.node path value children))
      let bytes ← ofExcept node.prefixBytes
      f node bytes).Yields (Keeps store) s Q := by
  apply (fetchNode_yields enc limits).bind
  rintro node s' _ ⟨rfl, hload⟩
  rw [eq_treeNode_of_loadNode hload]
  apply Yields.ofExcept_bind
  intro bytes hbytes
  rw [treeNode, prefixBytes_new] at hbytes
  cases hbytes
  exact h

/-- Where a string starts another one, the rest of it. -/
theorem drop_of_append (hkey : key.drop offset = pre ++ (path ++ rest)) :
    key.drop (offset + (pre ++ path).length) = rest := by
  rw [← drop_drop, hkey, ← append_assoc, drop_left]

/-- What a deletion leaves of a tree: nothing, if it held no other key, or the
    canonical tree of the map without the key. -/
def Deleted (enc : Encoding D) (limits : MerkleLimits) (store : MerkleStore σ D)
    (pre rest : Bytes) (t : KeyTree D) (result : Option (Cid D)) (s : σ) : Prop :=
  (result = none → ∀ k w, (k, w) ∈ t.entries → k = rest) ∧
    ∀ cid, result = some cid → Names enc limits store s pre cid fun t' => t.Updates t' rest none

theorem deleted_self (hcan : t.Canonical) (hstored : Stored enc limits (store.get · s) pre t)
    (habs : ∀ w, (rest, w) ∉ t.entries) :
    Deleted enc limits store pre rest t (some (treeCid enc pre t)) s := by
  refine ⟨nofun, fun cid hcid => ?_⟩
  cases hcid
  exact ⟨t, rfl, hcan, hstored, Radix.updates_self habs⟩

/-- Deleting from the tree without entries changes nothing. -/
theorem deleteAt_empty_yields {room : Nat} :
    (deleteAt enc limits store key room (treeCid enc [] Radix.empty) 0).Yields (Keeps store) s
      fun result s' => result = some (treeCid enc [] Radix.empty) ∧ s' = s := by
  cases room with
  | zero => exact Yields.fail _
  | succ room =>
    apply fetchNode_bind
    rw [if_neg (by rw [not_not]; exact nil_prefix)]
    simp only [append_nil, length_nil, Nat.add_zero, drop_zero]
    cases key with
    | nil => exact Yields.pure ⟨rfl, rfl⟩
    | cons edge key => exact Yields.pure ⟨rfl, rfl⟩

/-- A map from keys to values, as the plain function it is. -/
abbrev KeyMap (D : Type) := Bytes → Option (MerkleValue D)

/-- The map after a mutation. -/
def KeyMap.mutate (m : KeyMap D) : Mutation D → KeyMap D
  | .put key value => Function.update m key (some value)
  | .delete key => Function.update m key none

omit [DecidableEq D] in
/-- What holds of the keys of a map and of its mutations. -/
theorem forall_key_of_mutations {P : Bytes → Prop} {m : KeyMap D} {mutations : List (Mutation D)}
    (hm : ∀ k w, m k = some w → P k) (hmutations : ∀ mutation ∈ mutations, P mutation.key) :
    ∀ k w, mutations.foldl KeyMap.mutate m k = some w → P k := by
  induction mutations generalizing m with
  | nil => exact hm
  | cons mutation mutations ih =>
    rw [forall_mem_cons] at hmutations
    apply ih _ hmutations.2
    intro k w hk
    by_cases hkey : k = mutation.key
    · rw [hkey]
      exact hmutations.1
    · cases mutation <;> exact hm k w ((Function.update_of_ne hkey _ _).symm.trans hk)

/-- The identifier names the canonical tree of a map, or the empty one. -/
def Holds (enc : Encoding D) (limits : MerkleLimits) (store : MerkleStore σ D) (s : σ)
    (root : Cid D) (m : KeyMap D) : Prop :=
  ∃ t, root = treeCid enc [] t ∧ (t = Radix.empty ∨ t.Canonical) ∧
    Stored enc limits (store.get · s) [] t ∧ ∀ k w, (k, w) ∈ t.entries ↔ m k = some w

variable {m : KeyMap D} {root : Cid D}

theorem Holds.mono {s' : σ} (h : Holds enc limits store s root m) (hkeep : Keeps store s s') :
    Holds enc limits store s' root m := by
  rcases h with ⟨t, hroot, ht, hstored, hentries⟩
  exact ⟨t, hroot, ht, hstored.mono hkeep, hentries⟩

omit [DecidableEq D] in
theorem validate_eq_ok {valid : MerkleLimits}
    (h : (limits.validate : Except (MerkleError D) MerkleLimits) = .ok valid) :
    valid = limits := by
  rw [MerkleLimits.validate] at h
  split at h
  · cases h
  · exact (Except.ok.inj h).symm

variable (hstore : store.ContentAddressed)
include hstore

theorem storeNode_names (hchildren : StoredBelow enc limits store s children)
    (hcan : (Radix.node path value children).Canonical) :
    (storeNode enc limits store (treeNode enc pre (.node path value children))).Yields (Keeps store)
      s fun cid s' => Names enc limits store s' pre cid (· = Radix.node path value children) := by
  apply (storeNode_tree enc limits hstore hchildren).mono
  intro cid s' _ h
  exact ⟨_, h.1, hcan, h.2, rfl⟩

/-- A new leaf. -/
theorem storeLeaf_names (edge : UInt8) (rest : Bytes) :
    (storeNode enc limits store (Node.new (edge :: rest) (some v) [])).Yields (Keeps store) s
      fun cid s' => Names enc limits store s' [edge] cid (· = Radix.leaf rest v) := by
  have hleaf : Node.new (edge :: rest) (some v) [] = treeNode enc [edge] (Radix.leaf rest v) := by
    simp only [treeNode, Radix.leaf, Node.new, singleton_append, childLinks]
  rw [hleaf]
  exact storeNode_names hstore (forall_mem_nil _) (Radix.canonical_leaf rest v)

/-- Normalizing a node changes no entry. There is nothing to store only if
    there is no entry. -/
theorem normalizeAndStore_yields (hord : Radix.Ordered children)
    (hchildren : StoredBelow enc limits store s children) :
    (normalizeAndStore enc limits store (treeNode enc pre (.node path value children))).Yields
      (Keeps store) s fun result s' =>
        (result = none → value = none ∧ children = []) ∧
        ∀ cid, result = some cid → Names enc limits store s' pre cid
          fun t => t.entries = (Radix.node path value children).entries := by
  -- Storing the node as it is.
  have hkeep : (value = none → 2 ≤ children.length) → (do
        let cid ← storeNode enc limits store (treeNode enc pre (.node path value children))
        return some cid : Fallible σ (MerkleError D) (Option (Cid D))).Yields (Keeps store) s
        fun result s' => (result = none → value = none ∧ children = []) ∧
          ∀ cid, result = some cid → Names enc limits store s' pre cid
            fun t => t.entries = (Radix.node path value children).entries := by
    intro hbranch
    apply (storeNode_names hstore hchildren (Radix.canonical_node.mpr ⟨hord, hbranch⟩)).bind
    intro cid s' _ hnames
    apply Yields.pure
    refine ⟨nofun, fun _ h => ?_⟩
    cases h
    exact hnames.imp fun t ht => by rw [ht]
  cases value with
  | some v => exact hkeep fun h => by cases h
  | none =>
    rcases children with _ | ⟨⟨edge, child⟩, _ | ⟨other, children⟩⟩
    · exact Yields.pure ⟨fun _ => ⟨rfl, rfl⟩, nofun⟩
    · -- The node only passes its child on: the two become one.
      have hcan : child.Canonical := hord.canonical _ mem_cons_self
      have hstored := hchildren _ mem_cons_self
      apply (fetchNode_yields enc limits).bind
      rintro node s' _ ⟨rfl, hload⟩
      have hnode : node = treeNode enc [edge] child := eq_treeNode_of_loadNode hload
      subst hnode
      rcases child with ⟨path', value', children'⟩
      apply Yields.ofExcept_bind
      intro pre' hpre'
      apply Yields.ofExcept_bind
      intro childPre hchildPre
      rw [treeNode, prefixBytes_new] at hpre' hchildPre
      cases hpre'
      cases hchildPre
      have hmerged : Node.new (pre ++ path ++ ([edge] ++ path'))
          (treeNode enc [edge] (Radix.node path' value' children')).value
          (treeNode enc [edge] (Radix.node path' value' children')).children =
          treeNode enc pre (Radix.node (path ++ edge :: path') value' children') := by
        simp only [treeNode, Node.new, append_assoc, singleton_append]
      rw [hmerged]
      have hcan' : (Radix.node (path ++ edge :: path') value' children').Canonical :=
        Radix.canonical_node.mpr (Radix.canonical_node.mp hcan)
      apply (storeNode_names hstore hstored.child hcan').bind
      intro cid s'' _ hnames
      apply Yields.pure
      refine ⟨nofun, fun _ h => ?_⟩
      cases h
      exact hnames.imp fun t ht => by rw [ht, Radix.entries_merge]
    · apply hkeep
      intro _
      simp only [length_cons]
      omega

/-- Splitting a node at the place where the key parts from its string. -/
theorem splitNode_yields {stem tail : Bytes} {x : UInt8}
    (hcan : (Radix.node tail value children).Canonical)
    (hchildren : StoredBelow enc limits store s children)
    (hcommon : commonPrefixLen (pre ++ (stem ++ x :: tail)) (pre ++ (stem ++ rest)) =
      pre.length + stem.length) (hrest : rest.head? ≠ some x) :
    (splitNode enc limits store (treeNode enc pre (.node (stem ++ x :: tail) value children))
      (pre ++ (stem ++ x :: tail)) (pre ++ (stem ++ rest)) v).Yields (Keeps store) s fun cid s' =>
        Names enc limits store s' pre cid fun t =>
          (Radix.node (stem ++ x :: tail) value children).Updates t (stem ++ rest) (some v) := by
  have hdrop : ∀ more : Bytes, (pre ++ (stem ++ more)).drop (pre.length + stem.length) = more := by
    intro more
    rw [← append_assoc, ← length_append, drop_left]
  have htake : (pre ++ (stem ++ x :: tail)).take (pre.length + stem.length) = pre ++ stem := by
    rw [← append_assoc, ← length_append, take_left]
  rw [splitNode, hcommon, hdrop, hdrop, htake]
  -- The part of the node behind the stem becomes a child.
  have hexi : ({ treeNode enc pre (.node (stem ++ x :: tail) value children) with
      prefixHex := Hex.encode (x :: tail) } : Node D) =
      treeNode enc [x] (.node tail value children) := by
    simp only [treeNode, Node.new, singleton_append]
  rw [hexi]
  apply (storeNode_names hstore hchildren hcan).bind
  rintro existingCid s1 hkeep1 ⟨_, rfl, _, hstored, rfl⟩
  have hmerge : (Radix.node stem none [(x, Radix.node tail value children)]).entries =
      (Radix.node (stem ++ x :: tail) value children).entries := Radix.entries_merge _ _ _ _ _
  have hsingle : Radix.Ordered [(x, Radix.node tail value children)] :=
    ⟨fun child hchild => by rw [mem_singleton.mp hchild]; exact hcan, pairwise_singleton _ _⟩
  have hsingleStored : StoredBelow enc limits store s1 [(x, Radix.node tail value children)] := by
    intro child hchild
    rw [mem_singleton.mp hchild]
    exact hstored
  cases rest with
  | nil =>
    -- The key ends at the stem, which gets the value.
    simp only [append_nil, length_append, if_true, lt_irrefl, if_false]
    have hparent : (Radix.node stem (some v) [(x, Radix.node tail value children)]).Canonical :=
      Radix.canonical_node.mpr ⟨hsingle, (absurd · (Option.some_ne_none v))⟩
    apply (storeNode_names hstore hsingleStored hparent).mono
    intro cid s' _ hnames
    apply hnames.imp
    rintro t rfl
    exact (Radix.updates_value _ none _ _).of_entries hmerge rfl
  | cons y rest =>
    -- The key goes on with another symbol, which becomes a second child.
    have hne : y ≠ x := fun h => hrest (by rw [head?_cons, h])
    have hlen : pre.length + stem.length < (pre ++ (stem ++ y :: rest)).length := by
      rw [length_append, length_append, length_cons]
      omega
    simp only [if_pos hlen, if_neg (Nat.ne_of_lt hlen), headD_cons]
    apply (storeLeaf_names hstore y rest).bind
    rintro newCid s2 hkeep2 ⟨_, rfl, _, hstored2, rfl⟩
    apply Yields.ofExcept_bind
    intro links hlinks
    have hparentLinks : (Node.new (pre ++ stem) none
        [⟨x, treeCid enc [x] (Radix.node tail value children)⟩]).children =
        childLinks enc [(x, Radix.node tail value children)] := by
      simp only [Node.new, childLinks]
    rw [hparentLinks, insertChildSorted] at hlinks
    cases hsearch : searchEdge y (childLinks enc [(x, Radix.node tail value children)]) with
    | ok index =>
      rw [hsearch] at hlinks
      cases hlinks
    | error index =>
      rw [hsearch] at hlinks
      cases hlinks
      rcases searchEdge_error hsingle.sorted hsearch with
        ⟨left, right, hsplit, rfl, hleft, hright⟩
      rw [hsplit] at hsingle hsingleStored hmerge ⊢
      rw [childLinks_insertIdx]
      have hord := hsingle.add (Radix.canonical_leaf rest v) hleft hright
      have htwo : 2 ≤ (left ++ (y, Radix.leaf rest v) :: right).length := by
        have hone := congrArg List.length hsplit
        simp only [length_append, length_cons, length_nil] at hone ⊢
        omega
      have hall : StoredBelow enc limits store s2 (left ++ (y, Radix.leaf rest v) :: right) :=
        forall_mem_middle (fun child hchild => (hsingleStored child hchild).mono hkeep2) hstored2
      apply (storeNode_names hstore hall (Radix.canonical_node.mpr ⟨hord, fun _ => htwo⟩)).mono
      intro cid s' _ hnames
      apply hnames.imp
      rintro t rfl
      exact (Radix.updates_new_child hord.edge_ne).of_entries hmerge rfl

/-- A node whose children were changed, at the end of an insertion. -/
theorem finishInsert_yields (hord : Radix.Ordered children)
    (hchildren : StoredBelow enc limits store s children) :
    (finishInsert enc limits store (treeNode enc pre (.node path value children))).Yields
      (Keeps store) s fun cid s' => Names enc limits store s' pre cid
        fun t => t.entries = (Radix.node path value children).entries := by
  apply (normalizeAndStore_yields hstore hord hchildren).bind
  intro result s' _ h
  apply Yields.expect
  exact fun cid hcid => h.2 cid hcid

theorem insertValue_yields (hord : Radix.Ordered children)
    (hchildren : StoredBelow enc limits store s children) :
    (storeNode enc limits store
      { treeNode enc pre (.node path value children) with value := some v }).Yields (Keeps store) s
        fun cid s' => Names enc limits store s' pre cid fun t =>
          (Radix.node path value children).Updates t path (some v) := by
  have hcan : (Radix.node path (some v) children).Canonical :=
    Radix.canonical_node.mpr ⟨hord, nofun⟩
  apply (storeNode_names hstore hchildren hcan).mono
  intro cid s' _ hnames
  apply hnames.imp
  rintro t rfl
  exact Radix.updates_value _ _ _ _

theorem insertChild_yields {child : KeyTree D} {cid : Cid D}
    (hord : Radix.Ordered (left ++ (edge, child) :: right))
    (hchildren : StoredBelow enc limits store s (left ++ right))
    (hchild : Names enc limits store s [edge] cid fun t => child.Updates t rest (some v)) :
    (finishInsert enc limits store
      { treeNode enc pre (.node path value (left ++ (edge, child) :: right)) with
        children := (childLinks enc (left ++ (edge, child) :: right)).set left.length
          ⟨edge, cid⟩ }).Yields (Keeps store) s fun cid s' =>
        Names enc limits store s' pre cid fun t =>
          (Radix.node path value (left ++ (edge, child) :: right)).Updates t (path ++ edge :: rest)
            (some v) := by
  rcases hchild with ⟨child', rfl, hcan, hstored, hupdates⟩
  rw [childLinks_set]
  apply (finishInsert_yields hstore (hord.set hcan) (forall_mem_middle hchildren hstored)).mono
  intro cid s' _ hnames
  apply hnames.imp
  intro t hentries
  exact (Radix.updates_child hord.edge_ne hupdates).of_entries rfl hentries.symm

theorem insertNew_yields (hord : Radix.Ordered (left ++ right)) (hleft : ∀ a ∈ left, a.1 < edge)
    (hright : ∀ b ∈ right, edge < b.1)
    (hchildren : StoredBelow enc limits store s (left ++ right)) :
    (do
      let childCid ← storeNode enc limits store (Node.new (edge :: rest) (some v) [])
      finishInsert enc limits store { treeNode enc pre (.node path value (left ++ right)) with
          children := (childLinks enc (left ++ right)).insertIdx left.length ⟨edge, childCid⟩ } :
        Fallible σ (MerkleError D) (Cid D)).Yields (Keeps store) s fun cid s' =>
        Names enc limits store s' pre cid fun t =>
          (Radix.node path value (left ++ right)).Updates t (path ++ edge :: rest) (some v) := by
  apply (storeLeaf_names hstore edge rest).bind
  rintro cid s1 hkeep ⟨_, rfl, _, hstored, rfl⟩
  rw [childLinks_insertIdx]
  have hord' := hord.add (Radix.canonical_leaf rest v) hleft hright
  apply (finishInsert_yields hstore hord'
    (forall_mem_middle (fun c hc => (hchildren c hc).mono hkeep) hstored)).mono
  intro cid s' _ hnames
  apply hnames.imp
  intro t hentries
  exact (Radix.updates_new_child hord'.edge_ne).of_entries rfl hentries.symm

/-- Inserting from a node down: the identifier that comes back names the
    canonical tree of the map with the key set. -/
theorem insertAt_yields (room : Nat) (hkey : key.drop offset = pre ++ rest)
    (ht : t = Radix.empty ∨ t.Canonical) (hstored : Stored enc limits (store.get · s) pre t) :
    (insertAt enc limits store key v room (treeCid enc pre t) offset).Yields (Keeps store) s
      fun cid s' => Names enc limits store s' pre cid fun t' => t.Updates t' rest (some v) := by
  induction room generalizing offset pre rest t s with
  | zero => exact Yields.fail _
  | succ room ih =>
    apply Yields.require_bind
    intro _
    apply Yields.ofExcept_bind
    intro _ _
    rcases t with ⟨path, value, children⟩
    -- Only the empty root is not canonical, and it has no children.
    have hord : Radix.Ordered children := by
      rcases ht with hempty | hcan
      · cases hempty
        exact ⟨forall_mem_nil _, List.Pairwise.nil⟩
      · exact (Radix.canonical_node.mp hcan).1
    apply fetchNode_bind
    rw [hkey]
    rcases commonPrefixLen_cases path rest with ⟨hfull, hstart⟩ |
      ⟨stem, x, tail, more, rfl, rfl, hcommon, hmore⟩
    · -- The key goes on behind the node's string.
      rcases hstart with ⟨more, rfl⟩
      rw [if_neg (by rw [commonPrefixLen_append, hfull, length_append]; omega)]
      have hnext : key.drop (offset + (pre ++ path).length) = more := drop_of_append hkey
      cases more with
      | nil =>
        rw [append_nil]
        simp only [hnext]
        exact insertValue_yields hstore hord hstored.child
      | cons edge more =>
        simp only [hnext]
        have hlinks : (treeNode enc pre (.node path value children)).children =
            childLinks enc children := rfl
        rw [hlinks]
        cases hsearch : searchEdge edge (childLinks enc children) with
        | ok index =>
          rcases searchEdge_ok hsearch with ⟨left, child, right, rfl, rfl⟩
          apply Yields.expect_bind
          intro link hlink
          rw [childLinks_getElem?] at hlink
          cases hlink
          have hmem : (edge, child) ∈ left ++ (edge, child) :: right :=
            mem_append_right _ mem_cons_self
          apply (ih hnext (Or.inr (hord.canonical _ hmem)) (hstored.child _ hmem)).bind
          intro cid s1 hkeep hnames
          exact insertChild_yields hstore hord
            (fun c hc => (forall_mem_remove hstored.child c hc).mono hkeep) hnames
        | error index =>
          rcases searchEdge_error hord.sorted hsearch with
            ⟨left, right, rfl, rfl, hleft, hright⟩
          -- No child has the symbol: a leaf takes the place where it would be.
          exact insertNew_yields hstore hord hleft hright hstored.child
    · -- The node's string and the key part behind the stem.
      have hcan : (Radix.node (stem ++ x :: tail) value children).Canonical := by
        rcases ht with hempty | hcan
        · cases stem <;> cases hempty
        · exact hcan
      have hsplit : commonPrefixLen (pre ++ (stem ++ x :: tail)) (pre ++ (stem ++ more)) =
          pre.length + stem.length := by
        rw [commonPrefixLen_append, hcommon]
      rw [if_pos (by
        rw [hsplit, length_append, length_append, length_cons]
        omega)]
      exact splitNode_yields hstore
        (Radix.canonical_node.mpr (Radix.canonical_node.mp hcan)) hstored.child hsplit hmore

theorem deleteValue_yields (hord : Radix.Ordered children)
    (hchildren : StoredBelow enc limits store s children) :
    (normalizeAndStore enc limits store
      { treeNode enc pre (.node path value children) with value := none }).Yields (Keeps store) s
        (Deleted enc limits store pre path (Radix.node path value children)) := by
  have hyields : (normalizeAndStore enc limits store
      (treeNode enc pre (.node path none children))).Yields (Keeps store) s _ :=
    normalizeAndStore_yields hstore hord hchildren
  apply hyields.mono
  rintro result s' _ ⟨hnone, hsome⟩
  constructor
  · intro hres k w hent
    rcases Radix.mem_entries_node.mp hent with ⟨hk, _⟩ | ⟨edge, child, more, hchild, _⟩
    · exact hk
    · rw [(hnone hres).2] at hchild
      cases hchild
  · intro cid hcid
    apply (hsome cid hcid).imp
    intro t hentries
    exact (Radix.updates_value _ _ _ _).of_entries rfl hentries.symm

theorem deleteChild_yields {child : KeyTree D} {updated : Option (Cid D)}
    (hcan : (Radix.node path value (left ++ (edge, child) :: right)).Canonical)
    (hchildren : StoredBelow enc limits store s (left ++ right))
    (hchild : Deleted enc limits store [edge] rest child updated s) :
    (match updated with
      | some cid =>
        normalizeAndStore enc limits store
          { treeNode enc pre (.node path value (left ++ (edge, child) :: right)) with
            children := (childLinks enc (left ++ (edge, child) :: right)).set left.length
              ⟨edge, cid⟩ }
      | none =>
        normalizeAndStore enc limits store
          { treeNode enc pre (.node path value (left ++ (edge, child) :: right)) with
            children := (childLinks enc (left ++ (edge, child) :: right)).eraseIdx
              left.length }).Yields (Keeps store) s
      (Deleted enc limits store pre (path ++ edge :: rest)
        (Radix.node path value (left ++ (edge, child) :: right))) := by
  rcases Radix.canonical_node.mp hcan with ⟨hord, hbranch⟩
  cases updated with
  | some cid =>
    -- The child is left with fewer entries, and this node keeps its shape.
    rcases hchild.2 cid rfl with ⟨child', rfl, hcan', hstored', hupdates⟩
    simp only [childLinks_set]
    have hyields : (normalizeAndStore enc limits store
        (treeNode enc pre (.node path value (left ++ (edge, child') :: right)))).Yields
          (Keeps store) s _ :=
      normalizeAndStore_yields hstore (hord.set hcan') (forall_mem_middle hchildren hstored')
    apply hyields.mono
    rintro result s' _ ⟨hnone, hsome⟩
    constructor
    · intro hres
      exact absurd (hnone hres).2 (by simp)
    · intro cid hcid
      apply (hsome cid hcid).imp
      intro t hentries
      exact (Radix.updates_child hord.edge_ne hupdates).of_entries rfl hentries.symm
  | none =>
    simp only [childLinks_eraseIdx]
    have hyields : (normalizeAndStore enc limits store
        (treeNode enc pre (.node path value (left ++ right)))).Yields (Keeps store) s _ :=
      normalizeAndStore_yields hstore hord.remove hchildren
    apply hyields.mono
    rintro result s' _ ⟨hnone, hsome⟩
    constructor
    · -- A node without a value had a second child.
      intro hres
      rcases hnone hres with ⟨hvalue, hempty⟩
      have htwo := hbranch hvalue
      have hone := congrArg List.length hempty
      simp only [length_append, length_cons, length_nil] at htwo hone
      omega
    · intro cid hcid
      apply (hsome cid hcid).imp
      intro t hentries
      exact (Radix.updates_drop_child hord.edge_ne (hchild.1 rfl)).of_entries rfl hentries.symm

/-- Deleting from a node down. -/
theorem deleteAt_yields (room : Nat) (hkey : key.drop offset = pre ++ rest)
    (hcan : t.Canonical) (hstored : Stored enc limits (store.get · s) pre t) :
    (deleteAt enc limits store key room (treeCid enc pre t) offset).Yields (Keeps store) s
      (Deleted enc limits store pre rest t) := by
  induction room generalizing offset pre rest t s with
  | zero => exact Yields.fail _
  | succ room ih =>
    rcases t with ⟨path, value, children⟩
    have hord := (Radix.canonical_node.mp hcan).1
    apply fetchNode_bind
    rw [hkey]
    by_cases hstart : path <+: rest
    · -- The key goes on behind the node's string.
      rcases hstart with ⟨more, rfl⟩
      rw [if_neg (by
        rw [not_not, prefix_append_right_inj]
        exact prefix_append _ _)]
      have hnext : key.drop (offset + (pre ++ path).length) = more := drop_of_append hkey
      cases more with
      | nil =>
        rw [append_nil]
        simp only [hnext]
        cases hvalue : value with
        | none =>
          apply Yields.pure
          rw [hvalue] at hcan hstored
          exact deleted_self hcan hstored fun w hw => by
            cases Radix.mem_entries_path.mp hw
        | some v =>
          rw [hvalue] at hstored
          exact deleteValue_yields hstore hord hstored.child
      | cons edge more =>
        simp only [hnext]
        have hlinks : (treeNode enc pre (.node path value children)).children =
            childLinks enc children := rfl
        rw [hlinks]
        cases hsearch : searchEdge edge (childLinks enc children) with
        | ok index =>
          rcases searchEdge_ok hsearch with ⟨left, child, right, rfl, rfl⟩
          apply Yields.expect_bind
          intro link hlink
          rw [childLinks_getElem?] at hlink
          cases hlink
          have hmem : (edge, child) ∈ left ++ (edge, child) :: right :=
            mem_append_right _ mem_cons_self
          apply (ih hnext (hord.canonical _ hmem) (hstored.child _ hmem)).bind
          intro updated s1 hkeep hdel
          exact deleteChild_yields hstore hcan
            (fun c hc => (forall_mem_remove hstored.child c hc).mono hkeep) hdel
        | error index =>
          apply Yields.pure
          apply deleted_self hcan hstored
          exact fun w => not_mem_of_searchEdge_error hord.sorted hsearch
    · -- The key is not below the node, and nothing changes.
      rw [if_pos (by rw [prefix_append_right_inj]; exact hstart)]
      apply Yields.pure
      apply deleted_self hcan hstored
      exact fun w hw => hstart (Radix.path_isPrefix_of_mem hw)

theorem emptyRoot_yields (s : σ) :
    (emptyRoot enc limits store).Yields (Keeps store) s fun root s' =>
      Holds enc limits store s' root fun _ => none := by
  apply Yields.ofExcept_bind
  intro valid hval
  rw [validate_eq_ok hval]
  have hnode : Node.new [] none [] = treeNode enc [] (Radix.empty : KeyTree D) := by
    simp only [treeNode, Radix.empty, Node.new, append_nil, childLinks]
  rw [hnode]
  apply (storeNode_tree enc limits hstore fun _ h => absurd h not_mem_nil).mono
  intro root s' _ h
  refine ⟨Radix.empty, h.1, Or.inl rfl, h.2, fun k w => ?_⟩
  simp only [Radix.entries_empty, not_mem_nil, reduceCtorEq]

/-- One mutation takes a root of a map to a root of the changed map. -/
theorem applyMutation_yields (h : Holds enc limits store s root m) (mutation : Mutation D) :
    (applyMutation enc limits store root mutation).Yields (Keeps store) s fun root' s' =>
      Holds enc limits store s' root' (m.mutate mutation) := by
  rcases h with ⟨t, rfl, ht, hstored, hentries⟩
  -- A canonical tree of the changed entries holds the changed map.
  have hholds : ∀ {key : Bytes} {value : Option (MerkleValue D)} {s' : σ} {root' : Cid D},
      Names enc limits store s' [] root' (fun t' => t.Updates t' key value) →
      Holds enc limits store s' root' (Function.update m key value) := by
    rintro key value s' root' ⟨t', rfl, hcan, hstored', hupdates⟩
    refine ⟨t', rfl, Or.inr hcan, hstored', fun k w => ?_⟩
    rw [hupdates k w, hentries k w]
    by_cases hk : k = key
    · rw [hk, Function.update_self]
      simp only [true_and, ne_eq, not_true_eq_false, false_and, or_false]
    · rw [Function.update_of_ne hk]
      simp only [hk, false_and, ne_eq, not_false_eq_true, true_and, false_or]
  cases mutation with
  | put key value =>
    apply (insertAt_yields hstore (limits.maxDepth + 1) (by rw [drop_zero, nil_append]) ht
      hstored).mono
    exact fun root' s' _ hnames => hholds hnames
  | delete key =>
    rcases ht with rfl | hcan
    · apply deleteAt_empty_yields.bind
      rintro result s' _ ⟨rfl, rfl⟩
      apply Yields.pure
      refine ⟨Radix.empty, rfl, Or.inl rfl, hstored, fun k w => ?_⟩
      have hnone := hentries k w
      simp only [Radix.entries_empty, not_mem_nil, false_iff] at hnone ⊢
      by_cases hk : k = key
      · rw [KeyMap.mutate, hk, Function.update_self]
        simp
      · rwa [KeyMap.mutate, Function.update_of_ne hk]
    · apply (deleteAt_yields hstore (limits.maxDepth + 1)
        (by rw [drop_zero, nil_append]) hcan hstored).bind
      intro result s' _ hdel
      cases result with
      | some cid =>
        apply Yields.pure
        exact hholds (hdel.2 cid rfl)
      | none =>
        -- The key was the only one.
        apply (emptyRoot_yields hstore s').mono
        intro root' s'' _ hempty
        have hnone : m.mutate (.delete key) = fun _ => none := by
          funext k
          by_cases hk : k = key
          · rw [KeyMap.mutate, hk, Function.update_self]
          · rw [KeyMap.mutate, Function.update_of_ne hk]
            cases hm : m k with
            | none => rfl
            | some w => exact absurd (hdel.1 rfl k w ((hentries k w).mpr hm)) hk
        rw [hnone]
        exact hempty

/-- A batch takes a root of a map to a root of the map with its mutations made
    in order. -/
theorem applyMutations_yields (mutations : List (Mutation D))
    (h : Holds enc limits store s root m) :
    (applyMutations enc limits store root mutations).Yields (Keeps store) s fun root' s' =>
      Holds enc limits store s' root' (mutations.foldl KeyMap.mutate m) := by
  induction mutations generalizing root m s with
  | nil => exact Yields.pure h
  | cons mutation mutations ih =>
    apply (applyMutation_yields hstore h mutation).bind
    exact fun root' s' _ hholds => ih hholds

theorem applyBatch_yields (mutations : List (Mutation D)) (h : Holds enc limits store s root m) :
    (applyBatch enc limits store root mutations).Yields (Keeps store) s fun root' s' =>
      Holds enc limits store s' root' (mutations.foldl KeyMap.mutate m) := by
  apply Yields.ofExcept_bind
  intro valid hval
  rw [validate_eq_ok hval]
  apply Yields.ofExcept_bind
  intro _ _
  apply (fetchNode_yields enc limits).bind
  rintro node s' _ ⟨rfl, _⟩
  exact applyMutations_yields hstore mutations h

end Merkle

end Pepper
