import Pepper.Core.Merkle.Scan
import Pepper.Theory.Merkle.History

/-!
# The Depth of a Merkle Map

Whether what was written can be read back within the limit on the depth.

Readers check the depth of every node they come to. Writers check it for the
nodes they walk through, but a node that a split or a new key adds is one level
further down, so a batch can succeed and leave a tree that no reader accepts.
Above each level there is a place where the keys below it part from another key
or continue one, so this needs a key with more such places than the limit.

## Main definitions

* `NotDeep`: A result that is not the error for too deep a tree.
* `Forks`, `ForksBelow`: The places where a key parts from another one.
* `Shallow`: A node below which there are at most so many levels.

## Theorems

* `shallow_of_stored`: The levels are bounded by the forks of the keys.
* `getFrom_notDeep`, `scanFrom_notDeep`, `validateFrom_notDeep`: The walks.
* `history_readable`: A map whose keys do not fork too often can be read.
-/

namespace Pepper

namespace Merkle

open List

variable {Digest α β : Type}

def NotDeep (x : Except (MerkleError Digest) α) : Prop :=
  ∀ n, x ≠ .error (.tooDeep n)

theorem NotDeep.bind {x : Except (MerkleError Digest) α} {f : α → Except (MerkleError Digest) β}
    (hx : NotDeep x) (hf : ∀ a, x = .ok a → NotDeep (f a)) : NotDeep (x >>= f) := by
  cases x with
  | error e =>
    intro n h
    cases h
    exact hx n rfl
  | ok a => exact hf a rfl

/-- A check that fails with another error. -/
theorem NotDeep.check {c : Prop} [Decidable c] {e : MerkleError Digest} {x : Except _ α}
    {f : PUnit → Except (MerkleError Digest) α} (he : ∀ n, e ≠ .tooDeep n) (hx : NotDeep x) :
    NotDeep (if c then throw e >>= f else x) := by
  split
  · exact fun n h => he n (Except.error.inj h)
  · exact hx

theorem notDeep_forM {f : α → Except (MerkleError Digest) PUnit} {l : List α}
    (h : ∀ a ∈ l, NotDeep (f a)) : NotDeep (l.forM f) := by
  induction l with
  | nil => exact nofun
  | cons a rest ih =>
    rw [forall_mem_cons] at h
    exact h.1.bind fun _ _ => ih h.2

theorem notDeep_validateKey (key : Bytes) (limits : MerkleLimits) :
    NotDeep (validateKey key limits : Except (MerkleError Digest) Unit) := by
  unfold validateKey
  split <;> exact nofun

theorem NotDeep.validated {limits : MerkleLimits} {f : MerkleLimits → Except (MerkleError Digest) α}
    (h : NotDeep (f limits)) : NotDeep (limits.validate >>= f) := by
  unfold MerkleLimits.validate
  split
  · exact nofun
  · exact h

variable [DecidableEq Digest] {enc : Encoding Digest} {limits : MerkleLimits}
  {read : Cid Digest → Except String Bytes}

/-- A node that can be loaded, and below which there are fewer levels than the
    number. -/
inductive Shallow (enc : Encoding Digest) (limits : MerkleLimits)
    (read : Cid Digest → Except String Bytes) : Nat → Cid Digest → Prop where
  | node {room : Nat} {cid : Cid Digest} {node : Node Digest} {pre : Bytes}
      (hload : loadNode enc limits read cid = .ok node) (hpre : node.prefixBytes = .ok pre)
      (hchildren : ∀ child ∈ node.children, Shallow enc limits read room child.cid) :
      Shallow enc limits read (room + 1) cid

variable {room : Nat}

/-- At a position, a key parts from another one of the keys or continues it. -/
def Forks (keys : Bytes → Prop) (key : Bytes) (position : Nat) : Prop :=
  position < key.length ∧ ∃ other, keys other ∧ other.take position = key.take position ∧
    other[position]? ≠ key[position]?

/-- Each key forks at fewer positions than the number. -/
def ForksBelow (keys : Bytes → Prop) (room : Nat) : Prop :=
  ∀ key, keys key → ∀ positions : List Nat, positions.Pairwise (· < ·) →
    (∀ position ∈ positions, Forks keys key position) → positions.length < room

omit [DecidableEq Digest] in
/-- The keys below an edge fork once less than those of the node. -/
theorem ForksBelow.child {path : Bytes} {value : Option (MerkleValue Digest)}
    {children : List (UInt8 × KeyTree Digest)} {edge : UInt8} {below : KeyTree Digest}
    (ht : (Radix.node path value children).Canonical) (hmem : (edge, below) ∈ children)
    (h : ForksBelow (fun k => ∃ w, (k, w) ∈ (Radix.node path value children).entries) (room + 1)) :
    ForksBelow (fun k => ∃ w, (k, w) ∈ below.entries) room := by
  have hlift : ∀ {k w}, (k, w) ∈ below.entries →
      (path ++ edge :: k, w) ∈ (Radix.node path value children).entries := fun hk =>
    Radix.mem_entries_node.mpr (.inr ⟨edge, below, _, hmem, rfl, hk⟩)
  rintro k ⟨w, hk⟩ positions hsorted hforks
  have hnode := h (path ++ edge :: k) ⟨w, hlift hk⟩
    (path.length :: positions.map (· + (path.length + 1))) ?_ ?_
  · rw [length_cons, length_map] at hnode
    omega
  · rw [pairwise_cons, pairwise_map]
    refine ⟨?_, hsorted.imp fun hlt => by omega⟩
    simp only [mem_map]
    rintro _ ⟨position, _, rfl⟩
    omega
  · rw [forall_mem_cons, forall_mem_map]
    constructor
    · -- The node has another entry, in its own value or below another edge.
      rcases ht.exists_other hmem with ⟨other, w', hother, htake, hne⟩
      refine ⟨by simp, other, ⟨w', hother⟩, by rw [htake, take_left], ?_⟩
      rwa [getElem?_append_right le_rfl, Nat.sub_self, getElem?_cons_zero]
    · intro position hposition
      rcases hforks position hposition with ⟨hlt, other, ⟨w', hother⟩, htake, hne⟩
      have hshift : position + (path.length + 1) = path.length + (position + 1) := by omega
      refine ⟨by simp; omega, _, ⟨w', hlift hother⟩, ?_, ?_⟩
      · rw [hshift, take_length_add_append, take_length_add_append, take_succ_cons, take_succ_cons,
          htake]
      · rw [hshift, getElem?_append_right (by omega), getElem?_append_right (by omega),
          Nat.add_sub_cancel_left, getElem?_cons_succ, getElem?_cons_succ]
        exact hne

/-- Above each level the keys fork. -/
theorem shallow_of_stored {pre : Bytes} {t : KeyTree Digest} (h : Stored enc limits read pre t)
    (ht : t = Radix.empty ∨ t.Canonical)
    (hkeys : ForksBelow (fun k => ∃ w, (k, w) ∈ t.entries) room) (hroom : 0 < room) :
    Shallow enc limits read room (treeCid enc pre t) := by
  induction h generalizing room with
  | node pre path value cs hload _ ih =>
    cases room with
    | zero => omega
    | succ room =>
      refine .node hload (prefixBytes_new _ _ _) fun child hchild => ?_
      have hlinks : child ∈ childLinks enc cs := hchild
      rw [childLinks_eq_map] at hlinks
      rcases mem_map.mp hlinks with ⟨⟨edge, below⟩, hmem, rfl⟩
      rcases ht with hempty | ht
      · injection hempty with _ _ hnone
        rw [hnone] at hmem
        cases hmem
      · have hcanonical : below.Canonical := (Radix.canonical_node.mp ht).1.canonical _ hmem
        have hbelow := hkeys.child ht hmem
        rcases hcanonical.exists_entry with ⟨k, w, hk⟩
        exact ih _ hmem (Or.inr hcanonical) hbelow (hbelow k ⟨w, hk⟩ [] .nil nofun)

theorem getFrom_notDeep {key : Bytes} {offset : Nat} {cid : Cid Digest}
    (h : Shallow enc limits read room cid) :
    NotDeep (getFrom enc limits read key room cid offset) := by
  induction h generalizing offset with
  | node hload hpre _ ih =>
    rw [getFrom, hload]
    simp only [bind, Except.bind, hpre]
    split
    · exact nofun
    · split
      · exact nofun
      · split
        · exact nofun
        · split
          · next child hchild => exact ih _ (mem_of_getElem? hchild)
          · exact nofun

/-- A frame of a stack, with its depth within the limit. -/
theorem Shallow.frame {depth : Nat} {cid : Cid Digest}
    (h : Shallow enc limits read (limits.maxDepth + 1 - depth) cid) :
    ¬ depth > limits.maxDepth ∧ ∃ node pre, loadNode enc limits read cid = .ok node ∧
      node.prefixBytes = .ok pre ∧ ∀ child ∈ node.children,
        Shallow enc limits read (limits.maxDepth + 1 - (depth + 1)) child.cid := by
  generalize hroom : limits.maxDepth + 1 - depth = room at h
  cases h with
  | @node room _ _ _ hload hpre hchildren =>
    obtain rfl : limits.maxDepth + 1 - (depth + 1) = room := by omega
    exact ⟨by omega, _, _, hload, hpre, hchildren⟩

theorem scanFrom_notDeep {query : ScanQuery} {after : Option Bytes} {nodesRead : Nat}
    {stack : List (Cid Digest × Bytes × Nat)} {entries : List (MapEntry Digest)}
    (h : ∀ frame ∈ stack, Shallow enc limits read (limits.maxDepth + 1 - frame.2.2) frame.1) :
    NotDeep (scanFrom enc limits read query after room stack entries nodesRead) := by
  induction room generalizing stack entries nodesRead with
  | zero =>
    cases stack with
    | nil => exact nofun
    | cons frame stack =>
      rw [scanFrom, if_neg (h frame mem_cons_self).frame.1]
      exact nofun
  | succ room ih =>
    cases stack with
    | nil => exact nofun
    | cons frame stack =>
      rw [forall_mem_cons] at h
      rcases h.1.frame with ⟨hdepth, node, pre, hload, hpre, hchildren⟩
      rw [scanFrom, if_neg hdepth, hload]
      simp only [bind, Except.bind, hpre]
      split
      · exact nofun
      · exact ih (forall_mem_append.mpr ⟨forall_mem_map.mpr hchildren, h.2⟩)

theorem validateFrom_notDeep {entries maxDepth : Nat}
    {stack : List (Cid Digest × Bytes × Nat × Bool)} {seen : List (Cid Digest)}
    (h : ∀ frame ∈ stack, Shallow enc limits read (limits.maxDepth + 1 - frame.2.2.1) frame.1) :
    NotDeep (validateFrom enc limits read room stack seen entries maxDepth) := by
  induction room generalizing stack seen entries maxDepth with
  | zero =>
    cases stack with
    | nil => exact nofun
    | cons frame stack =>
      rw [validateFrom, if_neg (h frame mem_cons_self).frame.1]
      split <;> exact nofun
  | succ room ih =>
    cases stack with
    | nil => exact nofun
    | cons frame stack =>
      rw [forall_mem_cons] at h
      rcases h.1.frame with ⟨hdepth, node, pre, hload, hpre, hchildren⟩
      rw [validateFrom, if_neg hdepth, hload]
      have hedges : ∀ child ∈ node.children.reverse,
          NotDeep (validateChildEdge enc limits read child) := by
        intro child hchild
        rcases (hchildren child (mem_reverse.mp hchild)).frame with ⟨_, _, _, hload, hpre, _⟩
        rw [validateChildEdge, hload]
        simp only [bind, Except.bind, hpre]
        split <;> exact nofun
      split
      · exact nofun
      refine NotDeep.bind nofun fun _ hnode => ?_
      cases hnode
      refine NotDeep.bind (by rw [hpre]; exact nofun) fun _ hbytes => ?_
      cases hpre.symm.trans hbytes
      refine NotDeep.check nofun (NotDeep.check nofun (NotDeep.check nofun ?_))
      refine (notDeep_validateKey _ _).bind fun _ _ => (notDeep_forM hedges).bind fun _ _ => ?_
      exact ih (forall_mem_append.mpr ⟨forall_mem_map.mpr hchildren, h.2⟩)

variable {σ : Type} {store : MerkleStore σ Digest} {m : KeyMap Digest} {root : Cid Digest} {s : σ}

omit [DecidableEq Digest] in
theorem decodeCursor_notDeep (text : String) : NotDeep (decodeCursor enc text) := by
  unfold decodeCursor
  simp only [pure_bind]
  split
  · split
    · exact NotDeep.check nofun (NotDeep.check nofun nofun)
    · exact nofun
  · exact nofun

theorem afterKey_notDeep (query : ScanQuery) : NotDeep (afterKey enc root query) := by
  unfold afterKey
  split
  · exact nofun
  · refine (decodeCursor_notDeep _).bind fun _ _ => NotDeep.check nofun (NotDeep.check nofun ?_)
    split <;> exact nofun

theorem History.shallow (hstore : store.ContentAddressed) (h : History enc limits store s root m)
    (hkeys : ForksBelow (fun k => ∃ w, m k = some w) (limits.maxDepth + 1)) :
    Shallow enc limits (store.get · s) (limits.maxDepth + 1) root := by
  rcases h.holds hstore with ⟨t, rfl, ht, hstored, hentries⟩
  simp only [← hentries] at hkeys
  exact shallow_of_stored hstored ht hkeys (Nat.succ_pos _)

/-- A map whose keys fork at no more positions than the limit on the depth can be
    read. -/
theorem history_readable (hstore : store.ContentAddressed) (h : History enc limits store s root m)
    (hkeys : ForksBelow (fun k => ∃ w, m k = some w) (limits.maxDepth + 1)) :
    (∀ key, NotDeep (get enc limits (store.get · s) root key)) ∧
      (∀ query, NotDeep (scan enc limits (store.get · s) root query)) ∧
      NotDeep (validateTree enc limits (store.get · s) root) := by
  have hroot := h.shallow hstore hkeys
  refine ⟨fun key => NotDeep.validated ?_, fun query => NotDeep.validated ?_, NotDeep.validated ?_⟩
  · exact (notDeep_validateKey _ _).bind fun _ _ => getFrom_notDeep hroot
  · have hkey : ∀ key,
        NotDeep (validateOptionalKey key limits : Except (MerkleError Digest) Unit) := by
      intro key
      cases key with
      | none => exact nofun
      | some key => exact notDeep_validateKey key limits
    refine NotDeep.check nofun (NotDeep.check nofun ?_)
    refine (hkey _).bind fun _ _ => (hkey _).bind fun _ _ => (hkey _).bind fun _ _ =>
      (afterKey_notDeep query).bind fun _ _ => ?_
    exact (scanFrom_notDeep (forall_mem_singleton.mpr hroot)).bind fun _ _ => nofun
  · exact validateFrom_notDeep (forall_mem_singleton.mpr hroot)

/-- Limits that allow two levels. -/
def lowLimits : MerkleLimits :=
  { maxDepth := 1 }

theorem low_empty : emptyRoot plainEncoding lowLimits (blockList plainHashing) [] =
      (.ok (treeCid plainEncoding [] Radix.empty), plainBlocks) := by
  decide +kernel

/-- A long key and a short one, which part at once: the tree is as deep as the limit
    allows. -/
theorem history_readable_forked : ∃ s root,
    History plainEncoding lowLimits (blockList plainHashing) s root
        ([.put [1, 2, 3] (plainValue 1), .put [2] (plainValue 2)].foldl KeyMap.mutate
          fun _ => none) ∧
      (∀ key, NotDeep (get plainEncoding lowLimits ((blockList plainHashing).get · s) root key)) ∧
      NotDeep (validateTree plainEncoding lowLimits ((blockList plainHashing).get · s) root) := by
  have hanswer : (applyBatch plainEncoding lowLimits (blockList plainHashing)
      (treeCid plainEncoding [] Radix.empty) [.put [1, 2, 3] (plainValue 1),
        .put [2] (plainValue 2)] plainBlocks).1 = .ok (treeCid plainEncoding []
          (.node [] none [(1, .leaf [2, 3] (plainValue 1)), (2, .leaf [] (plainValue 2))])) := by
    decide +kernel
  have hhistory := (History.empty low_empty).of_answer hanswer
  have hkey : ∀ k w, [.put [1, 2, 3] (plainValue 1), .put [2] (plainValue 2)].foldl KeyMap.mutate
      (fun _ => none) k = some w → k ∈ [[1, 2, 3], [2]] :=
    forall_key_of_mutations nofun (by decide)
  -- The two keys differ in their first byte, and fork nowhere else.
  have hfirst : ∀ k ∈ [[1, 2, 3], ([2] : Bytes)], ∀ other ∈ [[1, 2, 3], ([2] : Bytes)],
      ∀ position < 3, other.take position = k.take position → other[position]? ≠ k[position]? →
        position = 0 := by
    decide
  have hread := history_readable (blockList_contentAddressed _) hhistory ?_
  · exact ⟨_, _, hhistory, hread.1, hread.2.2⟩
  rintro k ⟨w, hk⟩ positions hsorted hforks
  have hzero : ∀ position ∈ positions, position = 0 := by
    intro position hposition
    rcases hforks position hposition with ⟨hlt, other, ⟨w', hother⟩, htake, hne⟩
    have hlen : k.length ≤ 3 := (show ∀ k ∈ [[1, 2, 3], ([2] : Bytes)], k.length ≤ 3 by decide) k
      (hkey k w hk)
    exact hfirst k (hkey k w hk) other (hkey other w' hother) position (by omega) htake hne
  rcases positions with _ | ⟨a, _ | ⟨b, rest⟩⟩
  · exact Nat.succ_pos _
  · exact Nat.lt_succ_self 1
  · have hlt := (pairwise_cons.mp hsorted).1 b mem_cons_self
    rw [hzero b (mem_cons_of_mem _ mem_cons_self)] at hlt
    omega

/-- Each of three keys is the front of the next one. The third is written, one
    level below the limit, and then nothing reads the tree. -/
theorem history_unreadable :
    ∃ s root, History plainEncoding lowLimits (blockList plainHashing) s root
        ([.put [1] (plainValue 1), .put [1, 2] (plainValue 2), .put [1, 2, 3] (plainValue 3)].foldl
          KeyMap.mutate fun _ => none) ∧
      get plainEncoding lowLimits ((blockList plainHashing).get · s) root [1, 2, 3] =
        .error (.tooDeep 1) ∧
      scan plainEncoding lowLimits ((blockList plainHashing).get · s) root { limit := 5 } =
        .error (.tooDeep 1) ∧
      validateTree plainEncoding lowLimits ((blockList plainHashing).get · s) root =
        .error (.tooDeep 1) := by
  have hanswer : (applyBatch plainEncoding lowLimits (blockList plainHashing)
      (treeCid plainEncoding [] Radix.empty) [.put [1] (plainValue 1), .put [1, 2] (plainValue 2),
        .put [1, 2, 3] (plainValue 3)] plainBlocks).1 = .ok (treeCid plainEncoding []
          (.node [1] (some (plainValue 1)) [(2, .node [] (some (plainValue 2))
            [(3, .leaf [] (plainValue 3))])])) := by
    decide +kernel
  refine ⟨_, _, (History.empty low_empty).of_answer hanswer, ?_⟩
  decide +kernel

end Merkle

end Pepper
