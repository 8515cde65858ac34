import Pepper.Base.Collections

/-!
# Compressed Radix Trees

Finite maps from strings over an ordered alphabet, as trees whose edges carry a
symbol each and whose nodes carry the rest of the string that their keys share.

A tree stores a map in many ways. `Canonical` picks one: edges in order, and no
node that only passes its single child on. That this determines the tree is
`Canonical.ext`: two canonical trees with the same entries are equal. Anything
computed from the tree alone is then a function of the map.

The second half says what the changes of one node do to the entries and to
canonicity. An algorithm on trees changes a node at a time, so its own
recursion is the only induction that its proof needs.

## Main definitions

* `Radix`: A tree, with the string shared by its keys at the root.
* `Radix.entries`: The map, in the order of a walk that meets a node before its
  children.
* `Radix.Canonical`: The tree is the one the map determines.
* `Radix.Updates`: One tree holds the map of another, changed at a key.

## Theorems

* `mem_entries_node`: The entries of a node.
* `Canonical.ext`: A canonical tree is determined by its entries.
* `updates_value`, `updates_child`, `updates_new_child`, `updates_drop_child`: What
  the changes of a node do to its map.
* `entries_merge`: Merging a node with its only child changes no entry.
-/

namespace Pepper

open List

/-- A tree whose keys all start with `path`. A child stands for the keys that
    go on with the symbol of its edge. -/
inductive Radix (α β : Type) where
  | node (path : List α) (value : Option β) (children : List (α × Radix α β))

namespace Radix

variable {α β : Type}

mutual

/-- The entries of a tree, a node before its children. -/
def entries : Radix α β → List (List α × β)
  | node path value children =>
    value.toList.map (path, ·) ++
      (childEntries children).map fun entry => (path ++ entry.1, entry.2)

def childEntries : List (α × Radix α β) → List (List α × β)
  | [] => []
  | (edge, child) :: rest =>
    (child.entries.map fun entry => (edge :: entry.1, entry.2)) ++ childEntries rest

end

/-- The tree of the map without entries. -/
def empty : Radix α β :=
  node [] none []

/-- The tree of a single entry. -/
def leaf (key : List α) (value : β) : Radix α β :=
  node key (some value) []

theorem childEntries_eq_flatMap (children : List (α × Radix α β)) :
    childEntries children = children.flatMap fun child =>
      child.2.entries.map fun entry => (child.1 :: entry.1, entry.2) := by
  induction children with
  | nil => rfl
  | cons child children ih => rw [childEntries, ih, flatMap_cons]

theorem childEntries_append (left right : List (α × Radix α β)) :
    childEntries (left ++ right) = childEntries left ++ childEntries right := by
  simp only [childEntries_eq_flatMap, flatMap_append]

variable {children left right : List (α × Radix α β)} {key path rest : List α} {value : Option β}
  {w : β} {child t : Radix α β} {edge : α}

theorem mem_childEntries {value : β} : (key, value) ∈ childEntries children ↔
      ∃ edge child rest, (edge, child) ∈ children ∧ key = edge :: rest ∧
        (rest, value) ∈ child.entries := by
  rw [childEntries_eq_flatMap, mem_flatMap]
  constructor
  · rintro ⟨⟨edge, child⟩, hchild, hmem⟩
    rcases mem_map.mp hmem with ⟨⟨rest, w⟩, hent, heq⟩
    cases heq
    exact ⟨edge, child, rest, hchild, rfl, hent⟩
  · rintro ⟨edge, child, rest, hchild, rfl, hent⟩
    exact ⟨(edge, child), hchild, mem_map_of_mem hent⟩

/-- The entries of a node: its own value at its path, and those of its children
    behind the path and their edge. -/
theorem mem_entries_node : (key, w) ∈ (node path value children).entries ↔
      (key = path ∧ value = some w) ∨
        ∃ edge child rest, (edge, child) ∈ children ∧ key = path ++ edge :: rest ∧
          (rest, w) ∈ child.entries := by
  rw [entries, mem_append, mem_map, mem_map]
  constructor
  · intro h
    rcases h with ⟨v, hv, heq⟩ | ⟨⟨tail, v⟩, hmem, heq⟩
    · simp only [Prod.mk.injEq] at heq
      rw [heq.2] at hv
      exact Or.inl ⟨heq.1.symm, Option.mem_toList.mp hv⟩
    · simp only [Prod.mk.injEq] at heq
      rw [heq.2] at hmem
      rcases mem_childEntries.mp hmem with ⟨edge, child, rest, hchild, htail, hent⟩
      exact Or.inr ⟨edge, child, rest, hchild, by rw [← heq.1, htail], hent⟩
  · intro h
    rcases h with ⟨hkey, hvalue⟩ | ⟨edge, child, rest, hchild, hkey, hent⟩
    · exact Or.inl ⟨w, Option.mem_toList.mpr hvalue, by rw [hkey]⟩
    · exact Or.inr ⟨(edge :: rest, w), mem_childEntries.mpr ⟨edge, child, rest, hchild, rfl, hent⟩,
        by rw [hkey]⟩

variable {k : List α} {v : β} {child' : Radix α β}

theorem mem_entries_leaf : (k, w) ∈ (leaf key v).entries ↔ k = key ∧ w = v := by
  rw [leaf, mem_entries_node]
  simp only [not_mem_nil, false_and, exists_false, or_false, Option.some.injEq]
  exact and_congr_right fun _ => eq_comm

theorem entries_empty : (empty : Radix α β).entries = [] := by
  rw [empty, entries, childEntries]
  rfl

/-- Every key of a node starts with its path. -/
theorem path_isPrefix_of_mem (h : (key, w) ∈ (node path value children).entries) :
    path <+: key := by
  rcases mem_entries_node.mp h with ⟨rfl, _⟩ | ⟨edge, child, rest, _, rfl, _⟩
  · exact prefix_refl _
  · exact prefix_append _ _

/-- The entry at the path of a node is its value. -/
theorem mem_entries_path : (path, w) ∈ (node path value children).entries ↔ value = some w := by
  rw [mem_entries_node]
  constructor
  · intro h
    rcases h with ⟨_, hvalue⟩ | ⟨edge, child, rest, _, hkey, _⟩
    · exact hvalue
    · have hlen := congrArg List.length hkey
      rw [length_append, length_cons] at hlen
      omega
  · exact fun hvalue => Or.inl ⟨rfl, hvalue⟩

section Order

variable [LinearOrder α]

/-- The tree is the one its map determines: every node has a value or branches,
    and the edges of a node increase. -/
inductive Canonical : Radix α β → Prop where
  | node (path : List α) (value : Option β) (children : List (α × Radix α β))
      (hchildren : ∀ child ∈ children, child.2.Canonical)
      (hsorted : children.Pairwise fun a b => a.1 < b.1)
      (hbranches : value = none → 2 ≤ children.length) :
      Canonical (.node path value children)

/-- Increasing edges are different edges. -/
theorem eq_of_edge_eq (hsorted : children.Pairwise fun a b => a.1 < b.1) {c c' : Radix α β}
    (h : (edge, c) ∈ children) (h' : (edge, c') ∈ children) : c = c' := by
  induction children with
  | nil => cases h
  | cons head children ih =>
    rcases pairwise_cons.mp hsorted with ⟨hhead, htail⟩
    rcases mem_cons.mp h with heq | hmem
    · rcases mem_cons.mp h' with heq' | hmem'
      · exact (Prod.mk.inj (heq.trans heq'.symm)).2
      · exact absurd (hhead _ hmem') (by rw [← heq]; exact lt_irrefl edge)
    · rcases mem_cons.mp h' with heq' | hmem'
      · exact absurd (hhead _ hmem) (by rw [← heq']; exact lt_irrefl edge)
      · exact ih htail hmem hmem'

/-- The entries behind an edge are those of the child at that edge. -/
theorem mem_entries_edge (hsorted : children.Pairwise fun a b => a.1 < b.1)
    (hchild : (edge, child) ∈ children) :
    (path ++ edge :: rest, w) ∈ (node path value children).entries ↔ (rest, w) ∈ child.entries := by
  rw [mem_entries_node]
  constructor
  · intro h
    rcases h with ⟨hkey, _⟩ | ⟨e, c, r, hmem, hkey, hent⟩
    · have hlen := congrArg List.length hkey
      rw [length_append, length_cons] at hlen
      omega
    · rcases List.cons.inj (append_cancel_left hkey) with ⟨rfl, rfl⟩
      rw [eq_of_edge_eq hsorted hchild hmem]
      exact hent
  · exact fun h => Or.inr ⟨edge, child, rest, hchild, rfl, h⟩

theorem Canonical.exists_entry (h : t.Canonical) : ∃ key value, (key, value) ∈ t.entries := by
  induction h with
  | node path value children _ _ hbranches ih =>
    cases hvalue : value with
    | some v => exact ⟨path, v, mem_entries_path.mpr rfl⟩
    | none =>
      have hlen := hbranches hvalue
      rcases children with _ | ⟨⟨edge, child⟩, children⟩
      · simp only [length_nil] at hlen
        omega
      · rcases ih _ mem_cons_self with ⟨rest, w, hent⟩
        exact ⟨path ++ edge :: rest, w, mem_entries_node.mpr
          (Or.inr ⟨edge, child, rest, mem_cons_self, rfl, hent⟩)⟩

/-- The path of a canonical node is the longest string that all its keys start
    with: two of them part there, or one of them ends there. -/
theorem Canonical.isPrefix_path {stem : List α} (h : (Radix.node path value children).Canonical)
    (hstem : ∀ key w, (key, w) ∈ (Radix.node path value children).entries → stem <+: key) :
    stem <+: path := by
  cases h with
  | node _ _ _ hchildren hsorted hbranches =>
    cases hvalue : value with
    | some v => exact hstem path v (mem_entries_path.mpr hvalue)
    | none =>
      have hlen := hbranches hvalue
      rcases children with _ | ⟨⟨e, c⟩, _ | ⟨⟨e', c'⟩, children⟩⟩
      · simp only [length_nil] at hlen
        omega
      · simp only [length_cons, length_nil] at hlen
        omega
      · have hne : e < e' := (pairwise_cons.mp hsorted).1 _ mem_cons_self
        rcases (hchildren (e, c) mem_cons_self).exists_entry with ⟨r, w, hent⟩
        rcases (hchildren (e', c') (mem_cons_of_mem _ mem_cons_self)).exists_entry
          with ⟨r', w', hent'⟩
        have hleft := hstem _ _ (mem_entries_node.mpr (Or.inr ⟨e, c, r, mem_cons_self, rfl, hent⟩))
        have hright := hstem _ _ (mem_entries_node.mpr
          (Or.inr ⟨e', c', r', mem_cons_of_mem _ mem_cons_self, rfl, hent'⟩))
        by_cases hle : stem.length ≤ path.length
        · exact prefix_of_prefix_length_le hleft (prefix_append _ _) hle
        · -- A longer stem would contain the symbol at which the two keys part.
          rcases prefix_of_prefix_length_le (prefix_append path (e :: r)) hleft
            (by omega) with ⟨tail, rfl⟩
          rw [prefix_append_right_inj] at hleft hright
          cases tail with
          | nil => simp only [append_nil, le_refl, not_true_eq_false] at hle
          | cons x tail =>
            rw [cons_prefix_cons] at hleft hright
            exact absurd hne (by rw [← hleft.1, ← hright.1]; exact lt_irrefl x)

/-- A node that holds the entries of a child has an edge for them. -/
theorem Canonical.exists_edge (h : child.Canonical) (hentries : ∀ rest w,
    (rest, w) ∈ child.entries →
      (path ++ edge :: rest, w) ∈ (Radix.node path value children).entries) :
    ∃ c, (edge, c) ∈ children := by
  rcases h.exists_entry with ⟨rest, w, hent⟩
  rcases mem_entries_node.mp (hentries rest w hent) with ⟨hkey, _⟩ | ⟨e, c, r, hc, hkey, _⟩
  · have hlen := congrArg List.length hkey
    rw [length_append, length_cons] at hlen
    omega
  · rcases List.cons.inj (append_cancel_left hkey) with ⟨rfl, _⟩
    exact ⟨c, hc⟩

/-- A canonical tree is determined by its entries. -/
theorem Canonical.ext {t t' : Radix α β} (h : t.Canonical) (h' : t'.Canonical)
    (hentries : ∀ key w, (key, w) ∈ t.entries ↔ (key, w) ∈ t'.entries) : t = t' := by
  induction h generalizing t' with
  | node path value children hchildren hsorted hbranches ih =>
    rcases h' with ⟨path', value', children', hchildren', hsorted', hbranches'⟩
    have h := Canonical.node path value children hchildren hsorted hbranches
    have h' := Canonical.node path' value' children' hchildren' hsorted' hbranches'
    have hpath : path = path' := by
      have hle := h'.isPrefix_path fun key w hmem =>
        path_isPrefix_of_mem ((hentries key w).mpr hmem)
      have hge := h.isPrefix_path fun key w hmem =>
        path_isPrefix_of_mem ((hentries key w).mp hmem)
      exact hle.eq_of_length (le_antisymm hle.length_le hge.length_le)
    subst hpath
    have hvalue : value = value' := by
      ext w
      have hw := hentries path w
      rwa [mem_entries_path, mem_entries_path] at hw
    subst hvalue
    -- Two children at the same edge hold the same map, so they are equal.
    have hsame : ∀ edge c c', (edge, c) ∈ children → (edge, c') ∈ children' → c = c' := by
      intro edge c c' hc hc'
      apply ih _ hc (hchildren' _ hc')
      intro key v
      have hv := hentries (path ++ edge :: key) v
      rwa [mem_entries_edge hsorted hc, mem_entries_edge hsorted' hc'] at hv
    have hmem : ∀ child, child ∈ children ↔ child ∈ children' := by
      rintro ⟨edge, child⟩
      constructor
      · intro hchild
        have hedge : ∃ c, (edge, c) ∈ children' := by
          apply (hchildren _ hchild).exists_edge
          exact fun rest w hw => (hentries _ _).mp ((mem_entries_edge hsorted hchild).mpr hw)
        rcases hedge with ⟨c, hc⟩
        rw [hsame edge child c hchild hc]
        exact hc
      · intro hchild
        have hedge : ∃ c, (edge, c) ∈ children := by
          apply (hchildren' _ hchild).exists_edge
          exact fun rest w hw => (hentries _ _).mpr ((mem_entries_edge hsorted' hchild).mpr hw)
        rcases hedge with ⟨c, hc⟩
        rw [← hsame edge c child hc hchild]
        exact hc
    rw [hsorted.eq_of_mem_iff hsorted' hmem]

/-- Children that may stand under a canonical node. -/
structure Ordered (children : List (α × Radix α β)) : Prop where
  canonical : ∀ child ∈ children, child.2.Canonical
  sorted : children.Pairwise fun a b => a.1 < b.1

theorem canonical_node : (Radix.node path value children).Canonical ↔
      Ordered children ∧ (value = none → 2 ≤ children.length) := by
  constructor
  · intro h
    cases h with
    | node _ _ _ hchildren hsorted hbranches => exact ⟨⟨hchildren, hsorted⟩, hbranches⟩
  · exact fun h => .node path value children h.1.canonical h.1.sorted h.2

theorem canonical_leaf (key : List α) (value : β) : (leaf key value).Canonical :=
  canonical_node.mpr ⟨⟨forall_mem_nil _, List.Pairwise.nil⟩, fun h => absurd h (by simp)⟩

theorem Ordered.edge_ne (h : Ordered (left ++ (edge, child) :: right)) :
    ∀ other ∈ left ++ right, other.1 ≠ edge := by
  intro other hother
  rcases pairwise_append.mp h.sorted with ⟨_, hright, hcross⟩
  rcases mem_append.mp hother with hmem | hmem
  · exact ne_of_lt (hcross other hmem _ mem_cons_self)
  · exact ne_of_gt ((pairwise_cons.mp hright).1 other hmem)

/-- Below a canonical node, the entries of a child part from another entry. -/
theorem Canonical.exists_other (h : (Radix.node path value children).Canonical)
    (hchild : (edge, child) ∈ children) :
    ∃ other w, (other, w) ∈ (Radix.node path value children).entries ∧
      other.take path.length = path ∧ other[path.length]? ≠ some edge := by
  rcases canonical_node.mp h with ⟨hordered, hbranches⟩
  cases hvalue : value with
  | some v =>
    refine ⟨path, v, mem_entries_path.mpr rfl, take_length, ?_⟩
    rw [getElem?_eq_none le_rfl]
    exact nofun
  | none =>
    rcases append_of_mem hchild with ⟨left, right, rfl⟩
    have hlen := hbranches hvalue
    have hne : left ++ right ≠ [] := by
      intro hnil
      rw [append_eq_nil_iff] at hnil
      simp [hnil.1, hnil.2] at hlen
    rcases exists_mem_of_ne_nil _ hne with ⟨⟨edge', child'⟩, hother⟩
    have hmem : (edge', child') ∈ left ++ (edge, child) :: right := by
      rcases mem_append.mp hother with hleft | hright
      · exact mem_append_left _ hleft
      · exact mem_append_right _ (mem_cons_of_mem _ hright)
    rcases (hordered.canonical _ hmem).exists_entry with ⟨rest, w, hentry⟩
    refine ⟨path ++ edge' :: rest, w, mem_entries_node.mpr (.inr ⟨edge', child', rest, hmem, rfl,
      hentry⟩), take_left, ?_⟩
    rw [getElem?_append_right le_rfl, Nat.sub_self, getElem?_cons_zero]
    exact fun heq => hordered.edge_ne _ hother (Option.some.inj heq)

theorem Ordered.set (h : Ordered (left ++ (edge, child) :: right)) (hchild : child'.Canonical) :
    Ordered (left ++ (edge, child') :: right) := by
  constructor
  · exact forall_mem_middle (forall_mem_remove h.canonical) hchild
  · have hsorted := h.sorted
    rw [pairwise_append, pairwise_cons] at hsorted ⊢
    refine ⟨hsorted.1, hsorted.2.1, fun a ha b hb => ?_⟩
    rcases mem_cons.mp hb with rfl | hb
    · exact hsorted.2.2 a ha (edge, child) mem_cons_self
    · exact hsorted.2.2 a ha b (mem_cons_of_mem _ hb)

theorem Ordered.remove {child : α × Radix α β} (h : Ordered (left ++ child :: right)) :
    Ordered (left ++ right) := by
  have hsub : (left ++ right).Sublist (left ++ child :: right) :=
    List.Sublist.append_left (sublist_cons_self _ _) _
  exact ⟨fun other hother => h.canonical other (hsub.subset hother), h.sorted.sublist hsub⟩

theorem Ordered.add (h : Ordered (left ++ right)) (hchild : child.Canonical)
    (hleft : ∀ a ∈ left, a.1 < edge) (hright : ∀ b ∈ right, edge < b.1) :
    Ordered (left ++ (edge, child) :: right) := by
  constructor
  · exact forall_mem_middle h.canonical hchild
  · have hsorted := h.sorted
    rw [pairwise_append] at hsorted ⊢
    refine ⟨hsorted.1, pairwise_cons.mpr ⟨hright, hsorted.2.1⟩, fun a ha b hb => ?_⟩
    rcases mem_cons.mp hb with rfl | hb
    · exact hleft a ha
    · exact hsorted.2.2 a ha b hb

end Order

section Changes

/-- `t'` holds the map of `t` with the key set to the value, or unset. -/
def Updates (t t' : Radix α β) (key : List α) (value : Option β) : Prop :=
  ∀ k w, (k, w) ∈ t'.entries ↔ (k = key ∧ value = some w) ∨ (k ≠ key ∧ (k, w) ∈ t.entries)

theorem Updates.of_entries {t' u u' : Radix α β} (h : t.Updates t' key value)
    (hold : t.entries = u.entries) (hnew : t'.entries = u'.entries) : u.Updates u' key value := by
  intro k w
  rw [← hold, ← hnew]
  exact h k w

/-- A key that is not there is unset already. -/
theorem updates_self (h : ∀ w, (key, w) ∉ t.entries) : t.Updates t key none := by
  intro k w
  simp only [reduceCtorEq, and_false, false_or]
  exact ⟨fun hmem => ⟨fun hk => h w (hk ▸ hmem), hmem⟩, fun hmem => hmem.2⟩

theorem updates_value (path : List α) (value value' : Option β) (children : List (α × Radix α β)) :
    (node path value children).Updates (node path value' children) path value' := by
  intro k w
  by_cases hk : k = path
  · subst hk
    simp only [mem_entries_path, true_and, ne_eq, not_true_eq_false, false_and, or_false]
  · simp only [mem_entries_node, hk, false_and, false_or, ne_eq, not_false_eq_true, true_and]

/-- Changing what stands at an edge changes the key behind it. -/
theorem updates_edge {w : Option β} {old new : List (α × Radix α β)}
    (hother : ∀ other ∈ left ++ right, other.1 ≠ edge) (hedge : ∀ k v, (k, v) ∈ childEntries new ↔
      (k = edge :: rest ∧ w = some v) ∨ (k ≠ edge :: rest ∧ (k, v) ∈ childEntries old)) :
    (node path value (left ++ old ++ right)).Updates (node path value (left ++ new ++ right))
      (path ++ edge :: rest) w := by
  have hcons : ∀ (stem : List α), stem ++ edge :: rest ≠ stem := fun stem hstem => by
    have hlen := congrArg List.length hstem
    rw [length_append, length_cons] at hlen
    omega
  have hsplit : ∀ middle : List (α × Radix α β), ∀ k v,
      (k, v) ∈ (node path value (left ++ middle ++ right)).entries ↔
        (k, v) ∈ (node path value (left ++ right)).entries ∨
          ∃ tail, k = path ++ tail ∧ (tail, v) ∈ childEntries middle := by
    intro middle k v
    simp only [entries, childEntries_append, map_append, mem_append, mem_map,
      Prod.exists, Prod.mk.injEq]
    constructor
    · intro h
      rcases h with h | (h | ⟨tail, u, hmem, hk, hu⟩) | h
      · exact Or.inl (Or.inl h)
      · exact Or.inl (Or.inr (Or.inl h))
      · exact Or.inr ⟨tail, hk.symm, hu ▸ hmem⟩
      · exact Or.inl (Or.inr (Or.inr h))
    · intro h
      rcases h with (h | h | h) | ⟨tail, hk, hmem⟩
      · exact Or.inl h
      · exact Or.inr (Or.inl (Or.inl h))
      · exact Or.inr (Or.inr h)
      · exact Or.inr (Or.inl (Or.inr ⟨tail, v, hmem, hk.symm, rfl⟩))
  -- The other edges do not lead to the key.
  have haway : ∀ v, (path ++ edge :: rest, v) ∉ (node path value (left ++ right)).entries := by
    intro v hmem
    rcases mem_entries_node.mp hmem with ⟨hkey, _⟩ | ⟨e, c, r, hc, hkey, _⟩
    · exact hcons path hkey
    · rcases List.cons.inj (append_cancel_left hkey) with ⟨rfl, _⟩
      exact hother _ hc rfl
  intro k v
  rw [hsplit new, hsplit old]
  constructor
  · intro h
    rcases h with h | ⟨tail, rfl, hmem⟩
    · exact Or.inr ⟨fun hk => haway v (hk ▸ h), Or.inl h⟩
    · rcases (hedge tail v).mp hmem with ⟨rfl, hw⟩ | ⟨hne, hold⟩
      · exact Or.inl ⟨rfl, hw⟩
      · exact Or.inr ⟨fun hk => hne (append_cancel_left hk), Or.inr ⟨tail, rfl, hold⟩⟩
  · intro h
    rcases h with ⟨rfl, hw⟩ | ⟨hne, h | ⟨tail, rfl, hold⟩⟩
    · exact Or.inr ⟨edge :: rest, rfl, (hedge _ v).mpr (Or.inl ⟨rfl, hw⟩)⟩
    · exact Or.inl h
    · exact Or.inr ⟨tail, rfl, (hedge tail v).mpr
        (Or.inr ⟨fun ht => hne (congrArg (path ++ ·) ht), hold⟩)⟩

theorem mem_childEntries_singleton :
    (k, v) ∈ childEntries [(edge, child)] ↔ ∃ r, k = edge :: r ∧ (r, v) ∈ child.entries := by
  rw [mem_childEntries]
  constructor
  · intro h
    rcases h with ⟨e, c, r, hc, hk, hr⟩
    rcases Prod.mk.inj (mem_singleton.mp hc) with ⟨rfl, rfl⟩
    exact ⟨r, hk, hr⟩
  · intro h
    rcases h with ⟨r, hk, hr⟩
    exact ⟨edge, child, r, mem_singleton_self _, hk, hr⟩

section

variable (hother : ∀ other ∈ left ++ right, other.1 ≠ edge)

include hother

theorem updates_child {w : Option β} (h : child.Updates child' rest w) :
    (node path value (left ++ (edge, child) :: right)).Updates
      (node path value (left ++ (edge, child') :: right)) (path ++ edge :: rest) w := by
  rw [append_cons left, append_cons left (edge, child')]
  apply updates_edge hother
  intro k v
  rw [mem_childEntries_singleton, mem_childEntries_singleton]
  constructor
  · rintro ⟨r, rfl, hr⟩
    rcases (h r v).mp hr with ⟨rfl, hw⟩ | ⟨hne, hold⟩
    · exact Or.inl ⟨rfl, hw⟩
    · exact Or.inr ⟨fun hk => hne (List.cons.inj hk).2, r, rfl, hold⟩
  · rintro (⟨rfl, hw⟩ | ⟨hne, r, rfl, hold⟩)
    · exact ⟨rest, rfl, (h rest v).mpr (Or.inl ⟨rfl, hw⟩)⟩
    · exact ⟨r, rfl, (h r v).mpr (Or.inr ⟨fun hr => hne (by rw [hr]), hold⟩)⟩

theorem updates_new_child : (node path value (left ++ right)).Updates
      (node path value (left ++ (edge, leaf rest w) :: right)) (path ++ edge :: rest) (some w) := by
  have hnone : left ++ right = left ++ [] ++ right := by rw [append_nil]
  rw [append_cons left, hnone]
  apply updates_edge hother
  intro k v
  rw [mem_childEntries_singleton]
  simp only [childEntries, not_mem_nil, and_false, or_false, mem_entries_leaf, Option.some.injEq]
  constructor
  · rintro ⟨r, rfl, rfl, rfl⟩
    exact ⟨rfl, rfl⟩
  · rintro ⟨rfl, rfl⟩
    exact ⟨rest, rfl, rfl, rfl⟩

/-- A child that held the key and nothing else can go. -/
theorem updates_drop_child (honly : ∀ k w, (k, w) ∈ child.entries → k = rest) :
    (node path value (left ++ (edge, child) :: right)).Updates (node path value (left ++ right))
      (path ++ edge :: rest) none := by
  have hnone : left ++ right = left ++ [] ++ right := by rw [append_nil]
  rw [append_cons left, hnone]
  apply updates_edge hother
  intro k v
  rw [mem_childEntries_singleton]
  simp only [childEntries, not_mem_nil, reduceCtorEq, and_false, false_or, false_iff, not_and,
    ne_eq]
  rintro hne ⟨r, rfl, hr⟩
  exact hne (by rw [honly r v hr])

end

/-- Merging a node with its only child changes no entry. -/
theorem entries_merge (path path' : List α) (edge : α) (value : Option β)
    (children : List (α × Radix α β)) :
    (node path none [(edge, node path' value children)]).entries =
      (node (path ++ edge :: path') value children).entries := by
  simp only [entries, childEntries, Option.toList_none, map_nil, nil_append,
    append_nil, map_append, map_map]
  congr 1
  apply map_congr_left
  intro entry _
  simp only [Function.comp_apply, append_assoc, cons_append]

end Changes

end Radix

end Pepper
