import Pepper.Theory.Merkle.Update

/-!
# Maps From Sorted Entries

What the construction from a sorted list of entries stores is the canonical
tree of these entries.

The construction works on slices of one list with an offset into the keys. The
proof speaks about the keys behind the offset instead: a slice is a list of such
rests behind a common base. The first and the last key of a sorted slice bound
all others, so what these two share is shared by all.

## Main definitions

* `entriesAt`: The entries whose keys have given rests behind a base.

## Theorems

* `isPrefix_of_between`: A string between two strings shares what they share.
* `exists_groups`: The runs of a sorted list, by their first symbol.
* `buildSubtree_yields`, `buildFromSorted_yields`: What is built is the canonical
  tree of the entries.
-/

namespace Pepper

namespace Merkle

open List

variable {D : Type} {stem key : Bytes} {rels : List (Bytes × MerkleValue D)}
  {w : MerkleValue D} {x y : UInt8}

/-- A string between two strings shares what they share. -/
theorem isPrefix_of_between {a b r : Bytes} (ha : stem <+: a) (hb : stem <+: b) (hle : ¬ r < a)
    (hge : ¬ b < r) : stem <+: r := by
  induction stem generalizing a b r with
  | nil => exact nil_prefix
  | cons x stem ih =>
    rcases ha with ⟨a', rfl⟩
    rcases hb with ⟨b', rfl⟩
    cases r with
    | nil => exact absurd List.Lex.nil hle
    | cons y r =>
      rw [cons_append, cons_lt_cons_iff, not_or, not_and] at hle hge
      -- Neither symbol is below the other one.
      have hxy : x = y := le_antisymm (not_lt.mp hle.1) (not_lt.mp hge.1)
      rw [cons_prefix_cons]
      exact ⟨hxy, ih (prefix_append _ _) (prefix_append _ _) (hle.2 hxy.symm) (hge.2 hxy)⟩

/-- The entries whose keys have the given rests behind a base. -/
def entriesAt (base : Bytes) (rels : List (Bytes × MerkleValue D)) : List (MapEntry D) :=
  rels.map fun rel => ⟨base ++ rel.1, rel.2⟩

variable (base : Bytes)

theorem entriesAt_prepend (stem : Bytes) (rels : List (Bytes × MerkleValue D)) :
    entriesAt base (rels.map fun rel => (stem ++ rel.1, rel.2)) =
      entriesAt (base ++ stem) rels := by
  simp only [entriesAt, map_map]
  apply map_congr_left
  intro rel _
  simp only [Function.comp_apply, append_assoc]

/-- Keys that share a stem are that stem with rests behind it. -/
theorem exists_rests (h : ∀ rel ∈ rels, stem <+: rel.1)
    (hsorted : rels.Pairwise fun a b => a.1 < b.1) :
    ∃ rests : List (Bytes × MerkleValue D), rels = rests.map (fun rel => (stem ++ rel.1, rel.2)) ∧
        rests.Pairwise fun a b => a.1 < b.1 := by
  have hrels : rels = (rels.map fun rel => (rel.1.drop stem.length, rel.2)).map
      fun rel => (stem ++ rel.1, rel.2) := by
    rw [map_map]
    conv => lhs; rw [← map_id rels]
    apply map_congr_left
    rintro ⟨key, value⟩ hmem
    rcases h _ hmem with ⟨more, hmore⟩
    simp only at hmore
    simp only [id_eq, Function.comp_apply, ← hmore, drop_left]
  refine ⟨_, hrels, ?_⟩
  rw [hrels, pairwise_map] at hsorted
  apply hsorted.imp
  intro a b hab
  by_contra hnot
  -- The order of the rests is the order of the keys.
  rcases lt_or_eq_of_le (not_lt.mp hnot) with hlt | heq
  · exact lt_asymm hab (List.Lex.append_left _ hlt _)
  · rw [heq] at hab
    exact lt_irrefl _ hab

theorem takeWhile_dropWhile_congr {γ : Type} {p q : γ → Bool} {l : List γ}
    (h : ∀ a ∈ l, p a = q a) : l.takeWhile p = l.takeWhile q ∧ l.dropWhile p = l.dropWhile q := by
  induction l with
  | nil => exact ⟨rfl, rfl⟩
  | cons a l ih =>
    have hrest := ih fun b hb => h b (mem_cons_of_mem _ hb)
    rw [takeWhile_cons, takeWhile_cons, dropWhile_cons, dropWhile_cons,
      h a mem_cons_self, hrest.1, hrest.2]
    exact ⟨rfl, rfl⟩

/-- The rest of a key starts with a symbol. -/
def leads (x : UInt8) (rel : Bytes × MerkleValue D) : Bool :=
  rel.1.head? == some x

theorem leads_cons {rest : Bytes} : leads x (y :: rest, w) = true ↔ y = x := by
  rw [leads, head?_cons, beq_iff_eq, Option.some.injEq]

/-- Behind the run of the smallest first symbol all first symbols are greater. -/
theorem lt_of_mem_dropWhile {rest : Bytes} (hsorted : rels.Pairwise fun a b => a.1 < b.1)
    (hfirst : ∀ rel ∈ rels, x :: key < rel.1) (hmem : (y :: rest, w) ∈ rels.dropWhile (leads x)) :
    x < y := by
  have hsub : (rels.dropWhile (leads x)).Sublist rels := dropWhile_sublist _
  have hhead := head?_dropWhile_not (leads x) rels
  rcases hdrop : rels.dropWhile (leads x) with _ | ⟨⟨first, u⟩, more⟩
  · rw [hdrop] at hmem
    cases hmem
  · rw [hdrop] at hmem hsub hhead
    have hbelow := hfirst _ (hsub.subset mem_cons_self)
    have hpart := pairwise_cons.mp (hsorted.sublist hsub)
    cases first with
    | nil => cases hbelow
    | cons z first =>
      have hxz : x < z := by
        rcases cons_lt_cons_iff.mp hbelow with hlt | ⟨heq, _⟩
        · exact hlt
        · simp only [head?_cons] at hhead
          rw [leads_cons.mpr heq.symm] at hhead
          cases hhead
      rcases mem_cons.mp hmem with heq | hmem
      · rw [(List.cons.inj (Prod.mk.inj heq).1).1]
        exact hxz
      · rcases cons_lt_cons_iff.mp (hpart.1 _ hmem) with hlt | ⟨heq, _⟩
        · exact hxz.trans hlt
        · rw [← heq]
          exact hxz

/-- The first run: the first rest with those that start with the same symbol. -/
theorem exists_run {value : MerkleValue D}
    (hsorted : ((x :: key, value) :: rels).Pairwise fun a b => a.1 < b.1) :
    ∃ rests : List (Bytes × MerkleValue D),
      (x :: key, value) :: rels.takeWhile (leads x) = rests.map (fun rel => ([x] ++ rel.1, rel.2)) ∧
        rests.Pairwise fun a b => a.1 < b.1 := by
  rcases pairwise_cons.mp hsorted with ⟨hfirst, hrest⟩
  apply exists_rests
  · rintro ⟨rest, w⟩ hrel
    rcases mem_cons.mp hrel with heq | hrel
    · rw [(Prod.mk.inj heq).1]
      exact ⟨key, rfl⟩
    · have hleads : leads x (rest, w) = true := mem_takeWhile_imp hrel
      cases rest with
      | nil => cases hleads
      | cons y rest => exact ⟨rest, by rw [leads_cons.mp hleads]; rfl⟩
  · exact pairwise_cons.mpr ⟨fun b hb => hfirst b ((takeWhile_sublist _).subset hb),
      hrest.sublist (takeWhile_sublist _)⟩

/-- The runs of a sorted list by the first symbol of the rests. -/
theorem exists_groups (rels : List (Bytes × MerkleValue D))
    (hsorted : rels.Pairwise fun a b => a.1 < b.1) (hne : ∀ rel ∈ rels, rel.1 ≠ []) :
    ∃ runs : List (UInt8 × List (Bytes × MerkleValue D)), groups base.length (entriesAt base rels) =
        runs.map (fun run => (run.1, entriesAt (base ++ [run.1]) run.2)) ∧
      rels = runs.flatMap (fun run => run.2.map fun rel => (run.1 :: rel.1, rel.2)) ∧
      (runs.Pairwise fun a b => a.1 < b.1) ∧
      ∀ run ∈ runs, run.2 ≠ [] ∧ run.2.Pairwise fun a b => a.1 < b.1 := by
  induction hn : rels.length using Nat.strong_induction_on generalizing rels with
  | _ n ih =>
    rcases rels with _ | ⟨⟨key, value⟩, rels⟩
    · exact ⟨[], by rw [entriesAt, map_nil, groups, map_nil], rfl, List.Pairwise.nil,
        forall_mem_nil _⟩
    · cases key with
      | nil => exact absurd rfl (hne _ mem_cons_self)
      | cons x key =>
        rcases pairwise_cons.mp hsorted with ⟨hfirst, hrest⟩
        rcases exists_run hsorted with ⟨rests, hrests, hrestsSorted⟩
        have hsub : (rels.dropWhile (leads x)).Sublist rels := dropWhile_sublist _
        have hlen : (rels.dropWhile (leads x)).length < n := by
          have hle := hsub.length_le
          rw [← hn, length_cons]
          omega
        rcases ih _ hlen _ (hrest.sublist hsub)
          (fun rel hrel => hne rel (mem_cons_of_mem _ (hsub.subset hrel))) rfl with
          ⟨runs, hgroups, hflat, hedges, hruns⟩
        -- The code compares the symbols at the position, which is behind the base.
        have hedge : ∀ rel ∈ rels, sameEdge base.length (⟨base ++ x :: key, value⟩ : MapEntry D)
              ⟨base ++ rel.1, rel.2⟩ = leads x rel := by
          rintro ⟨rest, w⟩ hrel
          cases rest with
          | nil => exact absurd rfl (hne _ (mem_cons_of_mem _ hrel))
          | cons y rest => simp [sameEdge, edgeAt, leads]
        rcases takeWhile_dropWhile_congr hedge with ⟨htake, hdrop⟩
        have hent : edgeAt base.length (⟨base ++ x :: key, value⟩ : MapEntry D) = x := by
          simp [edgeAt]
        refine ⟨(x, rests) :: runs, ?_, ?_, ?_, ?_⟩
        · rw [entriesAt, map_cons, groups, hent, takeWhile_map, dropWhile_map,
            map_cons, ← hgroups, ← entriesAt_prepend, ← hrests, ← hdrop, ← htake]
          rfl
        · rw [flatMap_cons, ← hflat]
          show _ = rests.map (fun rel => ([x] ++ rel.1, rel.2)) ++ _
          rw [← hrests, cons_append, takeWhile_append_dropWhile]
        · refine pairwise_cons.mpr ⟨fun run hrun => ?_, hedges⟩
          rcases exists_mem_of_ne_nil _ (hruns run hrun).1 with ⟨rel, hrel⟩
          have hmem : (run.1 :: rel.1, rel.2) ∈ rels.dropWhile (leads x) := by
            rw [hflat]
            exact mem_flatMap.mpr ⟨run, hrun, mem_map.mpr ⟨rel, hrel, rfl⟩⟩
          exact lt_of_mem_dropWhile hrest hfirst hmem
        · intro run hrun
          rcases mem_cons.mp hrun with rfl | hrun
          · refine ⟨fun h => ?_, hrestsSorted⟩
            simp only at h
            rw [h] at hrests
            cases hrests
          · exact hruns run hrun

/-- What the keys of a sorted list share is what its first and last key share.
    Either the first key ends there, or the two go on differently. -/
theorem exists_common {r0 : Bytes} {v0 : MerkleValue D} {last : Bytes × MerkleValue D}
    (hsorted : ((r0, v0) :: rels).Pairwise fun a b => a.1 < b.1)
    (hlast : ((r0, v0) :: rels).getLast? = some last) :
    ∃ stem, stem.length = commonPrefixLen r0 last.1 ∧ (∀ rel ∈ (r0, v0) :: rels, stem <+: rel.1) ∧
      (r0 = stem ∨ ∃ x tail y tail', r0 = stem ++ x :: tail ∧ last.1 = stem ++ y :: tail' ∧
        x ≠ y) := by
  have hlower : ∀ rel ∈ (r0, v0) :: rels, ¬ rel.1 < r0 := by
    refine forall_mem_cons.mpr ⟨lt_irrefl _, fun rel hrel => ?_⟩
    exact lt_asymm ((pairwise_cons.mp hsorted).1 rel hrel)
  have hupper : ∀ rel ∈ (r0, v0) :: rels, ¬ last.1 < rel.1 := by
    rcases getLast?_eq_some_iff.mp hlast with ⟨front, hfront⟩
    rw [hfront] at hsorted ⊢
    refine forall_mem_concat (fun rel hrel => ?_) (lt_irrefl _)
    exact lt_asymm ((pairwise_append.mp hsorted).2.2 rel hrel last mem_cons_self)
  have hmem : last ∈ (r0, v0) :: rels := mem_of_getLast? hlast
  rcases commonPrefixLen_cases r0 last.1 with ⟨hfull, hstart⟩ |
    ⟨stem, x, tail, rest, hr0, hlastKey, hcommon, hrest⟩
  · exact ⟨r0, hfull.symm, fun rel hrel => isPrefix_of_between (prefix_refl _) hstart
      (hlower rel hrel) (hupper rel hrel), Or.inl rfl⟩
  · refine ⟨stem, hcommon.symm, fun rel hrel => ?_, Or.inr ?_⟩
    · exact isPrefix_of_between (by rw [hr0]; exact prefix_append _ _)
        (by rw [hlastKey]; exact prefix_append _ _) (hlower rel hrel) (hupper rel hrel)
    · cases rest with
      | nil =>
        -- The last key would be a start of the first one.
        exfalso
        apply hlower last hmem
        rw [hlastKey, hr0]
        exact List.Lex.append_left _ List.Lex.nil _
      | cons y rest =>
        refine ⟨x, tail, y, rest, hr0, hlastKey, fun h => hrest ?_⟩
        rw [head?_cons, h]

variable [DecidableEq D] {enc : Encoding D} {limits : MerkleLimits} {σ : Type}
  {store : MerkleStore σ D}

/-- The children of a node, if each group is built as it should. -/
theorem buildChildren_yields {build : List (MapEntry D) → Fallible σ (MerkleError D) (Cid D)}
    (runs : List (UInt8 × List (Bytes × MerkleValue D)))
    (hbuild : ∀ run ∈ runs, ∀ s, (build (entriesAt (base ++ [run.1]) run.2)).Yields (Keeps store) s
      fun cid s' => Names enc limits store s' [run.1] cid fun t => t.entries = run.2) (s : σ) :
    (buildChildren build
      (runs.map fun run => (run.1, entriesAt (base ++ [run.1]) run.2))).Yields (Keeps store) s
        fun links s' => ∃ cs : List (UInt8 × KeyTree D), links = childLinks enc cs ∧
          cs.map Prod.fst = runs.map Prod.fst ∧
          (∀ child ∈ cs, child.2.Canonical ∧ Stored enc limits (store.get · s') [child.1] child.2) ∧
          Radix.childEntries cs =
            runs.flatMap fun run => run.2.map fun rel => (run.1 :: rel.1, rel.2) := by
  induction runs generalizing s with
  | nil =>
    apply Fallible.Yields.pure
    exact ⟨[], by rw [childLinks], rfl, forall_mem_nil _, rfl⟩
  | cons run runs ih =>
    apply (hbuild run mem_cons_self s).bind
    rintro cid s1 _ ⟨t, rfl, hcan, hstored, hentries⟩
    apply (ih (fun other hother => hbuild other (mem_cons_of_mem _ hother)) s1).bind
    rintro links s2 hkeep ⟨cs, rfl, hedges, hchildren, hflat⟩
    apply Fallible.Yields.pure
    refine ⟨(run.1, t) :: cs, by rw [childLinks], ?_, ?_, ?_⟩
    · rw [map_cons, map_cons, hedges]
    · intro child hchild
      rcases mem_cons.mp hchild with rfl | hchild
      · exact ⟨hcan, hstored.mono hkeep⟩
      · exact hchildren child hchild
    · rw [Radix.childEntries, flatMap_cons, hflat, hentries]

omit [DecidableEq D] in
/-- Two first symbols need two children. -/
theorem two_le_of_childEntries {cs : List (UInt8 × KeyTree D)} {a b : Bytes}
    {v : MerkleValue D} (hx : (x :: a, v) ∈ Radix.childEntries cs)
    (hy : (y :: b, w) ∈ Radix.childEntries cs) (hne : x ≠ y) : 2 ≤ cs.length := by
  rcases Radix.mem_childEntries.mp hx with ⟨e, c, r, hc, hkey, _⟩
  rcases Radix.mem_childEntries.mp hy with ⟨e', c', r', hc', hkey', _⟩
  rcases cs with _ | ⟨first, _ | ⟨second, cs⟩⟩
  · cases hc
  · exfalso
    have he := (Prod.mk.inj (mem_singleton.mp hc)).1
    have he' := (Prod.mk.inj (mem_singleton.mp hc')).1
    exact hne (by rw [(List.cons.inj hkey).1, (List.cons.inj hkey').1, he, he'])
  · simp only [length_cons]
    omega

/-- The node over the groups of a sorted list, if each group is built as it
    should. Without a value of its own the node needs two first symbols. -/
theorem buildNode_yields (hstore : store.ContentAddressed)
    {build : List (MapEntry D) → Fallible σ (MerkleError D) (Cid D)}
    {base pre : Bytes} {value : Option (MerkleValue D)}
    {body : List (Bytes × MerkleValue D)} {s : σ}
    (hbuild : ∀ edge rels, rels ≠ [] → (rels.Pairwise fun a b => a.1 < b.1) → ∀ s,
      (build (entriesAt (base ++ [edge]) rels)).Yields (Keeps store) s
        fun cid s' => Names enc limits store s' [edge] cid fun t => t.entries = rels)
    (hsorted : body.Pairwise fun a b => a.1 < b.1) (hne : ∀ rel ∈ body, rel.1 ≠ [])
    (hbranch : value = none → ∃ x a v y b w, (x :: a, v) ∈ body ∧ (y :: b, w) ∈ body ∧ x ≠ y) :
    (do
      let cs ← buildChildren build (groups base.length (entriesAt base body))
      storeNode enc limits store (Node.new (pre ++ stem) value cs) :
        Fallible σ (MerkleError D) (Cid D)).Yields (Keeps store) s fun cid s' =>
          Names enc limits store s' pre cid fun t =>
            t.entries = value.toList.map (stem, ·) ++
              body.map fun rel => (stem ++ rel.1, rel.2) := by
  rcases exists_groups base body hsorted hne with ⟨runs, hgroups, hflat, hedges, hruns⟩
  rw [hgroups]
  apply (buildChildren_yields base runs
    (fun run hrun s => hbuild run.1 run.2 (hruns run hrun).1 (hruns run hrun).2 s) s).bind
  rintro links s1 _ ⟨cs, rfl, hfirst, hchildren, hentries⟩
  rw [← hflat] at hentries
  have hchildSorted : cs.Pairwise fun a b => a.1 < b.1 := by
    rw [← pairwise_map (f := Prod.fst) (R := fun a b : UInt8 => a < b), hfirst, pairwise_map]
    exact hedges
  have hcan : (Radix.node stem value cs).Canonical := by
    apply Radix.canonical_node.mpr
    refine ⟨⟨fun child hchild => (hchildren child hchild).1, hchildSorted⟩, fun hvalue => ?_⟩
    rcases hbranch hvalue with ⟨x, a, v, y, b, w, hx, hy, hxy⟩
    rw [← hentries] at hx hy
    exact two_le_of_childEntries hx hy hxy
  apply (storeNode_names hstore (fun child hchild => (hchildren child hchild).2) hcan).mono
  intro cid s' _ hnames
  apply hnames.imp
  rintro t rfl
  rw [Radix.entries, hentries]

omit [DecidableEq D] in
theorem getLastD_entriesAt {last : Bytes × MerkleValue D} (hlast : rels.getLast? = some last)
    (default : MapEntry D) :
    (entriesAt base rels).getLastD default = ⟨base ++ last.1, last.2⟩ := by
  rw [getLastD_eq_getLast?, entriesAt, getLast?_map, hlast]
  rfl

omit [DecidableEq D] in
theorem entriesAt_cons (r : Bytes) (v : MerkleValue D) (rels : List (Bytes × MerkleValue D)) :
    entriesAt base ((r, v) :: rels) = ⟨base ++ r, v⟩ :: entriesAt base rels :=
  rfl

theorem buildSubtree_yields (hstore : store.ContentAddressed) (room : Nat) {base pre r0 : Bytes}
    {v0 : MerkleValue D} {s : σ} (hsorted : ((r0, v0) :: rels).Pairwise fun a b => a.1 < b.1) :
    (buildSubtree enc limits store room ⟨base ++ pre ++ r0, v0⟩ (entriesAt (base ++ pre) rels)
      base.length).Yields (Keeps store) s
      fun cid s' => Names enc limits store s' pre cid fun t => t.entries = (r0, v0) :: rels := by
  induction room generalizing base pre r0 v0 rels s with
  | zero => exact Fallible.Yields.fail _
  | succ room ih =>
    rcases hlast : ((r0, v0) :: rels).getLast? with _ | last
    · rw [getLast?_eq_none_iff] at hlast
      cases hlast
    · rcases exists_common hsorted hlast with ⟨stem, hstem, hshared, hcases⟩
      rcases exists_rests hshared hsorted with ⟨rests, hrests, hrestsSorted⟩
      have hlastEntry := getLastD_entriesAt (base ++ pre) hlast
      have hdrop : ∀ r : Bytes, (base ++ pre ++ r).drop base.length = pre ++ r := by
        intro r
        rw [append_assoc, drop_left]
      have hlen : commonPrefixLen (pre ++ r0) (pre ++ last.1) = (pre ++ stem).length := by
        rw [commonPrefixLen_append, ← hstem, length_append]
      have htake : (pre ++ r0).take (pre ++ stem).length = pre ++ stem := by
        rcases hshared _ mem_cons_self with ⟨more, hmore⟩
        simp only at hmore
        rw [← hmore, ← append_assoc, take_left]
      have hposition : base.length + (pre ++ stem).length = (base ++ pre ++ stem).length := by
        simp only [length_append]
        omega
      -- The groups are built one level deeper, behind the stem.
      have hbuild : ∀ edge group, group ≠ [] →
          (group.Pairwise fun a b : Bytes × MerkleValue D => a.1 < b.1) → ∀ s,
          (onGroup limits (fun first rest =>
            buildSubtree enc limits store room first rest (base ++ pre ++ stem).length)
            (entriesAt (base ++ pre ++ stem ++ [edge]) group)).Yields (Keeps store) s
            fun cid s' => Names enc limits store s' [edge] cid fun t => t.entries = group := by
        intro edge group hne hgroup s
        rcases group with _ | ⟨⟨r, v⟩, group⟩
        · exact absurd rfl hne
        · exact ih hgroup
      rw [buildSubtree]
      simp only [← entriesAt_cons, hlastEntry, hdrop, hlen, htake, hposition]
      rcases rests with _ | ⟨⟨a, v⟩, body⟩
      · cases hrests
      · rcases List.cons.inj (hrests.trans map_cons) with ⟨hfirst, hbody⟩
        rcases Prod.mk.inj hfirst with ⟨hr0, rfl⟩
        have habove := (pairwise_cons.mp hrestsSorted).1
        have hne : ∀ rel ∈ body, rel.1 ≠ [] := by
          intro rel hrel hnil
          have hlt := habove rel hrel
          rw [hnil] at hlt
          cases hlt
        rcases hcases with hends | ⟨x, tail, y, tail', hparts, hlastKey, hxy⟩
        · -- The first key ends behind the stem: it is the value of the node.
          have ha : a = [] := by
            rw [hends] at hr0
            exact append_right_eq_self.mp hr0.symm
          rw [hends, if_pos rfl, if_pos rfl, hbody, entriesAt_prepend]
          have hvalued : (some v0 : Option (MerkleValue D)) = none → ∃ x a v y b w,
              (x :: a, v) ∈ body ∧ (y :: b, w) ∈ body ∧ x ≠ y :=
            (absurd · (Option.some_ne_none v0))
          apply (buildNode_yields hstore hbuild (pairwise_cons.mp hrestsSorted).2 hne hvalued).mono
          intro cid s' _ hnames
          apply hnames.imp
          intro t ht
          rw [ht]
          rfl
        · -- The first and the last key go on differently: the node branches.
          have ha : a = x :: tail := by
            rw [hparts] at hr0
            exact (append_cancel_left hr0).symm
          have hlength : ¬ (base ++ pre ++ r0).length = (base ++ pre ++ stem).length := by
            simp only [hparts, length_append, length_cons]
            omega
          have hall : ∀ rel ∈ (a, v0) :: body, rel.1 ≠ [] := by
            intro rel hrel
            rcases mem_cons.mp hrel with rfl | hrel
            · rw [ha]
              exact cons_ne_nil _ _
            · exact hne rel hrel
          have hlastMem : (y :: tail', last.2) ∈ (a, v0) :: body := by
            have hmem := mem_of_getLast? hlast
            rw [hrests] at hmem
            rcases mem_map.mp hmem with ⟨rel, hrel, heq⟩
            have hkey : rel.1 = y :: tail' := by
              rw [← heq] at hlastKey
              exact append_cancel_left hlastKey
            rw [← heq, ← hkey]
            exact hrel
          rw [if_neg hlength, if_neg hlength, hrests, entriesAt_prepend]
          apply (buildNode_yields hstore hbuild hrestsSorted hall fun _ =>
            ⟨x, tail, v0, y, tail', last.2, by rw [← ha]; exact mem_cons_self, hlastMem, hxy⟩).mono
          intro cid s' _ hnames
          apply hnames.imp
          intro t ht
          rw [ht]
          rfl

/-- The map of a list of entries. -/
def entriesMap (entries : List (MapEntry D)) : KeyMap D := fun key =>
  (entries.find? (·.key = key)).map (·.value)

omit [DecidableEq D] in
/-- In a sorted list an entry is the only one of its key. -/
theorem entriesMap_eq_some {entries : List (MapEntry D)}
    (hsorted : entries.Pairwise fun a b => a.key < b.key) {value : MerkleValue D} :
    entriesMap entries key = some value ↔ ⟨key, value⟩ ∈ entries := by
  induction entries with
  | nil => simp only [entriesMap, find?_nil, Option.map_none, reduceCtorEq, not_mem_nil]
  | cons entry rest ih =>
    rcases pairwise_cons.mp hsorted with ⟨hbelow, hrest⟩
    rw [mem_cons, ← ih hrest, entriesMap, entriesMap]
    by_cases hkey : entry.key = key
    · rw [find?_cons_of_pos (by simpa only [decide_eq_true_eq] using hkey)]
      have hnone : rest.find? (·.key = key) = none := by
        rw [find?_eq_none]
        intro other hother
        have hlt := hbelow other hother
        rw [hkey] at hlt
        simpa only [decide_eq_true_eq] using hlt.ne'
      rw [hnone, ← hkey]
      simp only [Option.map_some, Option.some.injEq, Option.map_none, reduceCtorEq, or_false]
      constructor
      · rintro rfl
        rfl
      · intro h
        rw [← h]
    · rw [find?_cons_of_neg (by simpa only [decide_eq_true_eq] using hkey)]
      constructor
      · exact Or.inr
      · rintro (h | h)
        · rw [← h] at hkey
          exact absurd rfl hkey
        · exact h

omit [DecidableEq D] in
theorem validateEntries_eq_ok {previous : Option Bytes} {entries : List (MapEntry D)}
    (h : validateEntries limits previous entries = .ok ()) :
    (entries.Pairwise fun a b => a.key < b.key) ∧
      ∀ key ∈ previous, ∀ entry ∈ entries, key < entry.key := by
  induction entries generalizing previous with
  | nil => exact ⟨List.Pairwise.nil, nofun⟩
  | cons entry rest ih =>
    rw [validateEntries] at h
    rcases bind_eq_ok.mp h with ⟨_, _, h⟩
    rcases bind_eq_ok.mp h with ⟨_, _, h⟩
    rcases throw_unless_eq_ok.mp h with ⟨hearlier, h⟩
    rcases ih h with ⟨hsorted, hbelow⟩
    have hfirst : ∀ other ∈ rest, entry.key < other.key := hbelow _ rfl
    refine ⟨pairwise_cons.mpr ⟨hfirst, hsorted⟩, fun key hmem => ?_⟩
    rw [hmem] at hearlier
    simp only [Option.any_some, decide_not, Bool.not_eq_true', Bool.not_eq_false,
      decide_eq_true_eq] at hearlier
    rw [forall_mem_cons]
    exact ⟨hearlier, fun other hother => hearlier.trans (hfirst other hother)⟩

/-- What is built from entries holds their map. -/
theorem buildFromSorted_yields (hstore : store.ContentAddressed) (entries : List (MapEntry D))
    (s : σ) :
    (buildFromSorted enc limits store entries).Yields (Keeps store) s fun root s' =>
      Holds enc limits store s' root (entriesMap entries) ∧
        entries.Pairwise fun a b => a.key < b.key := by
  apply Fallible.Yields.ofExcept_bind
  intro valid hval
  rw [validate_eq_ok hval]
  apply Fallible.Yields.ofExcept_bind
  intro _ hentries
  have hsorted := (validateEntries_eq_ok hentries).1
  cases entries with
  | nil =>
    apply (emptyRoot_yields hstore s).mono
    exact fun root s' _ hholds => ⟨hholds, hsorted⟩
  | cons first rest =>
    have hrels : (first :: rest).map (fun entry => (entry.key, entry.value)) =
        (first.key, first.value) :: rest.map fun entry => (entry.key, entry.value) := rfl
    have hpairs : ((first.key, first.value) ::
        rest.map fun entry => (entry.key, entry.value)).Pairwise fun a b => a.1 < b.1 := by
      rw [← hrels, pairwise_map]
      exact hsorted
    have hrest : entriesAt ([] ++ []) (rest.map fun entry => (entry.key, entry.value)) = rest := by
      rw [entriesAt, map_map]
      exact map_id rest
    -- The whole list is the subtree below the empty prefix.
    have hbuilt := @buildSubtree_yields D _ _ enc limits σ store hstore (limits.maxDepth + 1)
      [] [] first.key first.value s hpairs
    rw [hrest] at hbuilt
    apply hbuilt.mono
    rintro root s' _ ⟨t, hroot, hcan, hstored, ht⟩
    refine ⟨⟨t, hroot, Or.inr hcan, hstored, fun k w => ?_⟩, hsorted⟩
    rw [entriesMap_eq_some hsorted, ht, ← hrels, mem_map]
    constructor
    · rintro ⟨entry, hent, heq⟩
      cases heq
      exact hent
    · exact fun hent => ⟨_, hent, rfl⟩

end Merkle

end Pepper
