import Pepper.Theory.Merkle.Build

/-!
# Histories of the Merkle Map

A root comes from the empty map or from a sorted list of entries, and from
batches on top of these. However it came about, it is the identifier of the one
canonical tree of its map, so two histories that end with the same map end with
the same root.

Other writers may add blocks between two calls of a history, and the two
histories may use different stores and different limits.

## Main definitions

* `History`: A root with the map that its calls make.
* `blockList`, `plainEncoding`: A store and an encoding to run the map with.

## Theorems

* `History.holds`: The root of a history holds its map.
* `Holds.root_eq`: Roots of one map are equal.
* `root_of_history`: What a history makes of a map does not depend on the way.
-/

namespace Pepper

namespace Merkle

variable {Digest : Type} [DecidableEq Digest] {σ τ : Type}

/-- A root that successful calls lead to, the state behind them, and the map
    they make. -/
inductive History (enc : Encoding Digest) (limits : MerkleLimits) (store : MerkleStore σ Digest) :
    σ → Cid Digest → KeyMap Digest → Prop where
  | empty {s s' : σ} {root : Cid Digest} (h : emptyRoot enc limits store s = (.ok root, s')) :
      History enc limits store s' root fun _ => none
  | build {s s' : σ} {root : Cid Digest} {entries : List (MapEntry Digest)}
      (h : buildFromSorted enc limits store entries s = (.ok root, s')) :
      History enc limits store s' root (entriesMap entries)
  | batch {s s1 s' : σ} {root root' : Cid Digest} {m : KeyMap Digest}
      {mutations : List (Mutation Digest)} (before : History enc limits store s root m)
      (hkeep : Keeps store s s1)
      (h : applyBatch enc limits store root mutations s1 = (.ok root', s')) :
      History enc limits store s' root' (mutations.foldl KeyMap.mutate m)

variable {enc : Encoding Digest} {limits limits' : MerkleLimits} {store : MerkleStore σ Digest}
  {store' : MerkleStore τ Digest} {m : KeyMap Digest} {root : Cid Digest} {s : σ}

theorem History.holds (hstore : store.ContentAddressed) (h : History enc limits store s root m) :
    Holds enc limits store s root m := by
  induction h with
  | empty h => exact ((emptyRoot_yields hstore _).of_eq h).2 _ rfl
  | build h => exact (((buildFromSorted_yields hstore _ _).of_eq h).2 _ rfl).1
  | batch _ hkeep h ih => exact ((applyBatch_yields hstore _ (ih.mono hkeep)).of_eq h).2 _ rfl

/-- Roots of one map are equal, in whatever stores they are. -/
theorem Holds.root_eq {s' : τ} {root' : Cid Digest} (h : Holds enc limits store s root m)
    (h' : Holds enc limits' store' s' root' m) : root = root' := by
  rcases h with ⟨t, rfl, ht, _, hentries⟩
  rcases h' with ⟨t', rfl, ht', _, hentries'⟩
  have hsame : ∀ k w, (k, w) ∈ t.entries ↔ (k, w) ∈ t'.entries := by
    intro k w
    rw [hentries, hentries']
  -- A canonical tree has an entry, so it is not the empty one.
  rcases ht with rfl | ht <;> rcases ht' with rfl | ht'
  · rfl
  · rcases ht'.exists_entry with ⟨k, w, hmem⟩
    rw [← hsame, Radix.entries_empty] at hmem
    cases hmem
  · rcases ht.exists_entry with ⟨k, w, hmem⟩
    rw [hsame, Radix.entries_empty] at hmem
    cases hmem
  · rw [ht.ext ht' hsame]

/-- A history that ends with the same map ends with the same root, and so does
    the construction from the map's entries. -/
theorem root_of_history (hstore : store.ContentAddressed) (hstore' : store'.ContentAddressed)
    {s : σ} {root : Cid Digest} {m : KeyMap Digest} (h : History enc limits store s root m) :
    (∀ s' root', History enc limits' store' s' root' m → root' = root) ∧
      ∀ entries s0 s' root', (∀ k w, ⟨k, w⟩ ∈ entries ↔ m k = some w) →
        buildFromSorted enc limits' store' entries s0 = (.ok root', s') → root' = root := by
  have hholds := h.holds hstore
  constructor
  · intro s' root' h'
    exact (h'.holds hstore').root_eq hholds
  · intro entries s0 s' root' hentries hbuild
    rcases ((buildFromSorted_yields hstore' entries s0).of_eq hbuild).2 _ rfl with ⟨hbuilt, hsorted⟩
    -- A sorted list of the map's entries has the map.
    have hmap : entriesMap entries = m := by
      funext k
      apply Option.ext
      intro w
      rw [entriesMap_eq_some hsorted, hentries]
    rw [hmap] at hbuilt
    exact hbuilt.root_eq hholds

/-! ## A map to run -/

/-- A store that keeps a list of blocks. -/
def blockList (hashing : Hashing Digest) : MerkleStore (List (Codec × Bytes)) Digest where
  get cid blocks :=
    match blocks.find? fun block => hashing.cid block.1 block.2 = cid with
    | some block => .ok block.2
    | none => .error "block not found"
  put codec payload blocks := (.ok (hashing.cid codec payload), (codec, payload) :: blocks)

theorem blockList_contentAddressed (hashing : Hashing Digest) :
    (blockList hashing).ContentAddressed where
  get_put codec payload s cid s' h := by
    cases h
    simp only [blockList]
    rw [List.find?_cons_of_pos (by simp only [decide_true])]
  get_keep codec payload s cid bytes h := by
    simp only [blockList] at h ⊢
    by_cases hcid : hashing.cid codec payload = cid
    · rw [List.find?_cons_of_pos (by simpa only [decide_eq_true_eq] using hcid)]
      -- The block that was there has the same identifier, so it is the same.
      cases hfind : s.find? fun block => hashing.cid block.1 block.2 = cid with
      | none =>
        rw [hfind] at h
        cases h
      | some block =>
        rw [hfind] at h
        cases h
        have hblock := List.find?_some hfind
        rw [decide_eq_true_eq, ← hcid] at hblock
        have hcodec : block.1 = codec := (Cid.mk.inj hblock).1
        rw [hcodec] at hblock
        rw [hashing.cid_injective codec hblock]
    · rw [List.find?_cons_of_neg (by simpa only [decide_eq_true_eq] using hcid)]
      exact h

/-- Identifiers whose digest is the block itself. -/
def plainHashing : Hashing Bytes where
  computeDigest _ payload := payload
  collisionFree _ _ _ h := h

def cidWire : Wire (Cid Bytes) :=
  (Wire.nat.pair (Wire.list Wire.byte)).map (fun cid => (cid.codec.code, cid.digest))
    (fun parts => ⟨⟨parts.1⟩, parts.2⟩) fun _ => rfl

def valueWire : Wire (MerkleValue Bytes) :=
  (cidWire.pair (Wire.nat.pair (Wire.string.pair (Wire.btreeMap Wire.string Wire.string)))).map
    (fun value => (value.cid, value.generation, value.valueKind, value.metadata))
    (fun parts => ⟨parts.1, parts.2.1, parts.2.2.1, parts.2.2.2⟩) fun _ => rfl

def childWire : Wire (Child Bytes) :=
  (Wire.byte.pair cidWire).map (fun child => (child.edge, child.cid))
    (fun parts => ⟨parts.1, parts.2⟩) fun _ => rfl

def nodeWire : Wire (Node Bytes) :=
  (Wire.string.pair (Wire.nat.pair (Wire.string.pair ((Wire.option valueWire).pair
    (Wire.list childWire))))).map
    (fun node => (node.nodeType, node.version, node.prefixHex, node.value, node.children))
    (fun parts => ⟨parts.1, parts.2.1, parts.2.2.1, parts.2.2.2.1, parts.2.2.2.2⟩) fun _ => rfl

def cursorWire : Wire (CursorRecord Bytes) :=
  (Wire.nat.pair (cidWire.pair (Wire.string.pair ((Wire.option Wire.string).pair
    ((Wire.option Wire.string).pair (Wire.option Wire.string)))))).map
    (fun cursor => (cursor.version, cursor.root, cursor.afterKeyHex, cursor.startHex, cursor.endHex,
      cursor.prefixHex))
    (fun parts => ⟨parts.1, parts.2.1, parts.2.2.1, parts.2.2.2.1, parts.2.2.2.2.1,
      parts.2.2.2.2.2⟩) fun _ => rfl

def plainEncoding : Encoding Bytes where
  toHashing := plainHashing
  node := nodeWire.serde
  cursor := cursorWire.serde

def plainValue (generation : Nat) : MerkleValue Bytes :=
  ⟨⟨codecRaw, []⟩, generation, "o", ∅⟩

/-- The only block of the empty map. -/
def plainBlocks : List (Codec × Bytes) :=
  [(codecMerkleNode, plainEncoding.node.toVec (Node.new [] none []))]

theorem plain_empty : emptyRoot plainEncoding {} (blockList plainHashing) [] =
      (.ok (treeCid plainEncoding [] Radix.empty), plainBlocks) := by
  decide +kernel

/-- A batch on a root, from the answer alone. -/
theorem History.of_answer {root' : Cid Digest} {mutations : List (Mutation Digest)}
    (h : History enc limits store s root m)
    (hanswer : (applyBatch enc limits store root mutations s).1 = .ok root') :
    History enc limits store (applyBatch enc limits store root mutations s).2 root'
      (mutations.foldl KeyMap.mutate m) :=
  h.batch (refl_of (Keeps store) s) (Prod.ext hanswer rfl)

/-- Two keys in one batch, and in two batches the other way round. -/
theorem root_of_history_either_order : ∃ s s' root root',
      History plainEncoding {} (blockList plainHashing) s root
        ([.put [1] (plainValue 1), .put [2] (plainValue 2)].foldl KeyMap.mutate fun _ => none) ∧
      History plainEncoding {} (blockList plainHashing) s' root'
        ([.put [1] (plainValue 1), .put [2] (plainValue 2)].foldl KeyMap.mutate fun _ => none) ∧
      root' = root := by
  have hempty := History.empty plain_empty
  have hleft : (applyBatch plainEncoding {} (blockList plainHashing)
      (treeCid plainEncoding [] Radix.empty) [.put [1] (plainValue 1), .put [2] (plainValue 2)]
      plainBlocks).1 = .ok (treeCid plainEncoding [] (.node [] none
        [(1, .leaf [] (plainValue 1)), (2, .leaf [] (plainValue 2))])) := by
    decide +kernel
  have hfirst : (applyBatch plainEncoding {} (blockList plainHashing)
      (treeCid plainEncoding [] Radix.empty) [.put [2] (plainValue 2)] plainBlocks).1 =
      .ok (treeCid plainEncoding [] (.leaf [2] (plainValue 2))) := by
    decide +kernel
  have hsecond : (applyBatch plainEncoding {} (blockList plainHashing)
      (treeCid plainEncoding [] (.leaf [2] (plainValue 2))) [.put [1] (plainValue 1)]
      (applyBatch plainEncoding {} (blockList plainHashing) (treeCid plainEncoding [] Radix.empty)
        [.put [2] (plainValue 2)] plainBlocks).2).1 = .ok (treeCid plainEncoding [] (.node [] none
        [(1, .leaf [] (plainValue 1)), (2, .leaf [] (plainValue 2))])) := by
    decide +kernel
  have htogether := hempty.of_answer hleft
  have hreversed := (hempty.of_answer hfirst).of_answer hsecond
  have hmap : ([.put [1] (plainValue 1)] : List (Mutation Bytes)).foldl KeyMap.mutate
      ([.put [2] (plainValue 2)].foldl KeyMap.mutate fun _ => none) =
      [.put [1] (plainValue 1), .put [2] (plainValue 2)].foldl KeyMap.mutate fun _ => none :=
    Function.update_comm (by decide) _ _ _
  rw [hmap] at hreversed
  exact ⟨_, _, _, _, htogether, hreversed, (root_of_history (blockList_contentAddressed _)
    (blockList_contentAddressed _) htogether).1 _ _ hreversed⟩

end Merkle

end Pepper
