import Pepper.Core.Maintenance
import Pepper.Theory.Log.Reopen

/-!
# Logs Under Maintenance

The invariant of a log that is not only written and read but also truncated,
compacted and reclaimed.

Compaction leaves gaps between batches, so the offsets of a log no longer tile.
What stays is the division into segments: each starts where the previous one
ends, and holds its batches in order within its span. Only the active segment,
which is never compacted, is still without gaps. That is `Ordered`, and each call
changes one segment of such a list or takes one from an end.

What a log holds is read off its store here, extent by extent, since a compacted
segment has its batches in another extent than before.

## Main definitions

* `Segment.Holds`, `Ordered`: A list of segments is in order.
* `Intact`: The invariant of a log.
* `batchesOf`: What the extents of the segments hold.

## Theorems

* `Ordered.exchange`, `Ordered.setLast`, `Ordered.push`, `Ordered.tail`: The ways
  a list of segments changes.
* `Mirrored.exchange`, `Mirrored.tail`: The same for the store behind it.
* `Mirrored.contents`: The contents of a log are those of its extents.
* `Intact.candidates`: A fetch finds its place in spite of the gaps.
-/

namespace Pepper

open List

namespace ExtentStore

/-- No call reports an error after its effect. -/
def Store.Atomic (s : Store) : Prop :=
  ∀ n, (s.script n).outcome ≠ .late

/-- Every call from now on is performed. -/
def Store.Performs (s : Store) : Prop :=
  ∀ n, s.clock ≤ n → (s.script n).outcome = .done

/-- A store in which no extent has lost its seal. -/
def Store.KeepsSeals (s s' : Store) : Prop :=
  ∀ id, s.isSealed id = true → s'.isSealed id = true

theorem Store.keepsSeals_put {s : Store} {id : Nat} {e : Extent} (h : s.extents[id]? = some e)
    (e' : Extent) (hsealed : e.sealed = true → e'.sealed = true) (clock : Nat) :
    s.KeepsSeals { s with extents := s.extents.insert id e', clock } := by
  intro k hk
  simp only [Store.isSealed, getElem?_insert_eq] at hk ⊢
  by_cases hid : id = k
  · subst hid
    rw [h, Option.elim_some] at hk
    rw [if_pos rfl, Option.elim_some]
    exact hsealed hk
  · rw [if_neg hid]
    exact hk

end ExtentStore

namespace Log

open ExtentStore Fallible

/-! ## Segments in order -/

/-- The batches of a segment lie in its span, the first one at its start. A
    segment that is not sealed has no gaps, and one that is sealed is not empty and
    has a manifest of its own contents. -/
structure Segment.Holds (s : Segment) : Prop where
  spaced : Spaced BatchLocation.baseOffset BatchLocation.lastOffset s.batches
  first : ∀ b, s.batches.head? = some b → b.baseOffset = s.baseOffset
  ends : ∀ b ∈ s.batches, b.lastOffset < s.endOffset
  tiled : s.sealed = none →
    Tiles BatchLocation.baseOffset BatchLocation.lastOffset s.baseOffset s.batches s.endOffset
  manifest : ∀ m, s.sealed = some m → m = manifestOf s
  filled : ∀ m, s.sealed = some m → s.batches ≠ []

variable {b : BatchLocation} {log : OrderedLog} {s : Segment}

theorem Segment.Holds.starts (h : s.Holds) (hb : b ∈ s.batches) :
    s.baseOffset ≤ b.baseOffset := by
  rcases hs : s.batches with _ | ⟨a, rest⟩
  · rw [hs] at hb
    cases hb
  · have hfirst := h.first a (by rw [hs, head?_cons])
    have hspaced := h.spaced
    rw [hs] at hb hspaced
    rcases mem_cons.mp hb with rfl | hb
    · exact hfirst.ge
    · have := (pairwise_cons.mp hspaced.ordered).1 b hb
      have := hspaced.spans a mem_cons_self
      omega

/-- The span of a segment ends with its last batch. -/
theorem Segment.Holds.endOffset_eq (h : s.Holds) (hb : s.batches.getLast? = some b) :
    s.endOffset = b.lastOffset + 1 := by
  have hlt := h.ends b (mem_of_getLast? hb)
  unfold Segment.endOffset at *
  rw [hb] at *
  have hlt : b.lastOffset < min (b.lastOffset + 1) (offsetLimit - 1) := hlt
  show min (b.lastOffset + 1) (offsetLimit - 1) = b.lastOffset + 1
  omega

theorem endOffset_of_nil (h : s.batches = []) : s.endOffset = s.baseOffset := by
  unfold Segment.endOffset
  rw [h]
  rfl

/-- The manifest of a segment names its end. -/
theorem Segment.Holds.manifest_end (h : s.Holds) {m : SegmentManifest} (hm : s.sealed = some m) :
    m.endOffset = s.endOffset := by
  rw [h.manifest m hm]
  cases hb : s.batches.getLast? with
  | none =>
    rw [endOffset_of_nil (getLast?_eq_none_iff.mp hb)]
    simp only [manifestOf, hb, Option.map_none, Option.getD_none]
  | some b =>
    have hend := h.endOffset_eq hb
    have hlim : s.endOffset ≤ offsetLimit - 1 := by
      unfold Segment.endOffset
      rw [hb]
      exact Nat.min_le_right _ _
    have hpos : 0 < offsetLimit := by decide
    simp only [manifestOf, hb, Option.map_some, Option.getD_some]
    rw [wrappingSucc_eq (by omega), hend]

/-- An open segment without gaps. -/
theorem Segment.Holds.of_tiles (hopen : s.sealed = none)
    (h : Tiles BatchLocation.baseOffset BatchLocation.lastOffset s.baseOffset s.batches
      s.endOffset) : s.Holds := by
  have hnone : ∀ m, s.sealed ≠ some m := by
    intro m hm
    rw [hopen] at hm
    exact absurd hm (by simp)
  exact ⟨h.spaced, fun b hb => h.base_head hb, fun b hb => (h.bounds hb).2.2, fun _ => h,
    fun m hm => absurd hm (hnone m), fun m hm => absurd hm (hnone m)⟩

/-- A segment with one more batch, as `pushBatch` makes it. -/
def Segment.withBatch (s : Segment) (b : BatchLocation) : Segment :=
  { s with
    baseOffset := if s.batches.isEmpty then b.baseOffset else s.baseOffset
    payloadBytes := saturatingAdd s.payloadBytes b.encodedLen
    batches := s.batches ++ [b] }

/-- A batch is added to an open segment at its end. -/
theorem Segment.Holds.withBatch (h : s.Holds) (hopen : s.sealed = none)
    (hbase : b.baseOffset = s.endOffset) (hspan : b.baseOffset ≤ b.lastOffset)
    (hlim : b.lastOffset + 1 < offsetLimit) :
    (s.withBatch b).Holds ∧ (s.withBatch b).baseOffset = s.baseOffset ∧
      (s.withBatch b).endOffset = b.lastOffset + 1 := by
  have hsame : (s.withBatch b).baseOffset = s.baseOffset := by
    show (if s.batches.isEmpty then b.baseOffset else s.baseOffset) = s.baseOffset
    by_cases hempty : s.batches = []
    · rw [hempty, isEmpty_nil, if_pos rfl, hbase, endOffset_of_nil hempty]
    · rw [if_neg (by simpa using hempty)]
  have hend : (s.withBatch b).endOffset = b.lastOffset + 1 :=
    endOffset_of_getLast getLast?_concat hlim
  have htiles := tiles_concat (h.tiled hopen) hbase (hbase ▸ hspan)
  refine ⟨Segment.Holds.of_tiles hopen ?_, hsame, hend⟩
  rw [hsame, hend]
  exact htiles

/-- An open segment is cut at the start of one of its batches. -/
theorem Segment.Holds.cut (h : s.Holds) (hopen : s.sealed = none) {kept rest : List BatchLocation}
    (hsplit : s.batches = kept ++ b :: rest) (payloadBytes : Nat) :
    Segment.Holds { s with batches := kept, payloadBytes } ∧
      Segment.endOffset { s with batches := kept, payloadBytes } = b.baseOffset := by
  have htiles := h.tiled hopen
  rw [hsplit] at htiles
  rcases tiles_append.mp htiles with ⟨mid, hkept, hb, hle, hrest⟩
  have hlim : s.endOffset ≤ offsetLimit - 1 := by
    have hsome : s.batches ≠ [] := by simp [hsplit]
    rcases Option.isSome_iff_exists.mp (getLast?_isSome.mpr hsome) with ⟨l, hl⟩
    unfold Segment.endOffset
    rw [hl]
    exact Nat.min_le_right _ _
  have hend : Segment.endOffset { s with batches := kept, payloadBytes } = b.baseOffset := by
    rw [hb]
    cases hlast : kept.getLast? with
    | none =>
      have hnil := getLast?_eq_none_iff.mp hlast
      rw [endOffset_of_nil hnil]
      rw [hnil] at hkept
      exact hkept
    | some l =>
      have hstop := hkept.last_getLast hlast
      have := hrest.le
      rw [endOffset_of_getLast hlast (by omega)]
      exact hstop
  refine ⟨Segment.Holds.of_tiles hopen ?_, hend⟩
  rw [hend, hb]
  exact hkept

/-- Each segment starts where the previous one ends, the last one ends at the
    given offset, and all others are sealed and not empty. -/
structure Ordered (segments : List Segment) (hi : Nat) : Prop where
  chained : ∃ lo, Chained Segment.baseOffset Segment.endOffset lo segments hi
  holds : ∀ s ∈ segments, s.Holds
  closed : ∀ s ∈ segments.dropLast, s.batches ≠ [] ∧ s.sealed.isSome = true

section Ordered

variable {segments front back : List Segment} {s s' : Segment} {hi hi' : Nat}

theorem Ordered.spaced (h : Ordered segments hi) :
    Spaced BatchLocation.baseOffset BatchLocation.lastOffset (segments.flatMap (·.batches)) := by
  rcases h.chained with ⟨lo, hchained⟩
  exact hchained.spaced (fun s hs => (h.holds s hs).spaced)
    fun s hs b hb => ⟨(h.holds s hs).starts hb, (h.holds s hs).ends b hb⟩

theorem Ordered.below (h : Ordered segments hi) (hb : b ∈ segments.flatMap (·.batches)) :
    b.lastOffset < hi := by
  rcases h.chained with ⟨lo, hchained⟩
  rcases mem_flatMap.mp hb with ⟨s, hs, hbs⟩
  have := (h.holds s hs).ends b hbs
  have := (hchained.bounds hs).2.2
  omega

theorem Ordered.last (h : Ordered (front ++ [s]) hi) : s.endOffset = hi := by
  rcases h.chained with ⟨lo, hchained⟩
  rcases chained_append.mp hchained with ⟨mid, _, _, _, hend⟩
  exact hend

/-- A list with segments has a last one, which ends where the list does. -/
theorem Ordered.last_le (h : Ordered segments hi) (hne : segments ≠ []) :
    ∃ s ∈ segments, s.endOffset = hi := by
  refine ⟨segments.getLast hne, getLast_mem hne, ?_⟩
  have hsplit := dropLast_append_getLast hne
  exact Ordered.last (hsplit.symm ▸ h)

/-- A segment is exchanged for a sealed one with the same span. -/
theorem Ordered.exchange (h : Ordered (front ++ s :: back) hi)
    (hbase : s'.baseOffset = s.baseOffset)
    (hend : s'.endOffset = s.endOffset) (hs' : s'.Holds) (hne : s'.batches ≠ [])
    (hsealed : s'.sealed.isSome = true) : Ordered (front ++ s' :: back) hi := by
  rcases h.chained with ⟨lo, hchained⟩
  refine ⟨⟨lo, hchained.exchange hbase hend⟩, ?_, ?_⟩
  · exact forall_mem_middle (forall_mem_remove h.holds) hs'
  · intro t ht
    -- The two lists differ in one place, which satisfies the condition anyway.
    have hclosed := h.closed
    rw [dropLast_append_cons] at ht hclosed
    rcases mem_append.mp ht with ht | ht
    · exact hclosed t (mem_append_left _ ht)
    · cases back with
      | nil => exact absurd ht (by simp)
      | cons a back =>
        rw [dropLast_cons_cons] at ht hclosed
        rcases mem_cons.mp ht with rfl | ht
        · exact ⟨hne, hsealed⟩
        · exact hclosed t (mem_append_right _ (mem_cons_of_mem s ht))

/-- The last segment is exchanged for one that may end elsewhere. -/
theorem Ordered.setLast (h : Ordered (front ++ [s]) hi) (hbase : s'.baseOffset = s.baseOffset)
    (hend : s'.endOffset = hi') (hle : s.baseOffset ≤ hi') (hs' : s'.Holds) :
    Ordered (front ++ [s']) hi' := by
  rcases h.chained with ⟨lo, hchained⟩
  rcases chained_append.mp hchained with ⟨mid, hfront, hmid, _, _⟩
  refine ⟨⟨lo, chained_append.mpr ⟨mid, hfront, hbase.trans hmid, ?_, hend⟩⟩, ?_, ?_⟩
  · omega
  · exact forall_mem_concat (fun t ht => h.holds t (mem_append_left _ ht)) hs'
  · have hclosed := h.closed
    rw [dropLast_concat] at hclosed ⊢
    exact hclosed

/-- An empty segment is added at the end. -/
theorem Ordered.push (h : Ordered segments hi)
    (hclosed : ∀ s ∈ segments, s.batches ≠ [] ∧ s.sealed.isSome = true) (extentId : Nat) :
    Ordered (segments ++ [⟨extentId, hi, 0, [], none⟩]) hi := by
  rcases h.chained with ⟨lo, hchained⟩
  refine ⟨⟨lo, chained_append.mpr ⟨hi, hchained, rfl, le_rfl, rfl⟩⟩, ?_, ?_⟩
  · exact forall_mem_concat h.holds (Segment.Holds.of_tiles rfl rfl)
  · rw [dropLast_concat]
    exact hclosed

theorem Ordered.tail (h : Ordered (s :: back) hi) : Ordered back hi := by
  rcases h.chained with ⟨lo, _, _, hchained⟩
  refine ⟨⟨_, hchained⟩, fun t ht => h.holds t (mem_cons_of_mem s ht), ?_⟩
  intro t ht
  refine h.closed t ?_
  rw [dropLast_cons_of_ne_nil (ne_nil_of_mem (mem_of_mem_dropLast ht))]
  exact mem_cons_of_mem s ht

end Ordered

/-! ## The store behind the segments -/

section Mirrored

variable {key : Nat} {front back : List Segment} {s s' : Segment} {store store' : Store}

theorem Mirrored.ne_of_split (h : Mirrored key (front ++ s :: back) store) {t : Segment}
    (ht : t ∈ front ++ back) : t.extentId ≠ s.extentId := by
  have hdis := h.distinct
  rw [map_append, map_cons, nodup_middle, nodup_cons, ← map_append] at hdis
  intro heq
  exact hdis.1 (heq ▸ mem_map_of_mem ht)

/-- The extent of a segment is exchanged for a new one that is sealed. -/
theorem Mirrored.exchange (h : Mirrored key (front ++ s :: back) store) {id : Nat}
    {records : List Record} (hfresh : id ∉ store.extents)
    (hextents : store'.extents = (store.extents.erase s.extentId).insert id ⟨records, true⟩)
    (hid : s'.extentId = id) (hbatches : s'.batches = recordLocations id 0 records)
    (hkeyed : ∀ r ∈ records, r.identity.partitionKey = key) :
    Mirrored key (front ++ s' :: back) store' ∧
      ∀ t ∈ front ++ back, store'.extents[t.extentId]? = store.extents[t.extentId]? := by
  have hkept : ∀ t ∈ front ++ back, t ∈ front ++ s :: back := forall_mem_remove fun _ ht => ht
  have hother : ∀ t ∈ front ++ back, t.extentId ≠ id := by
    intro t ht heq
    exact hfresh ((h.present id).mpr (mem_map.mpr ⟨t, hkept t ht, heq⟩))
  have hlook : ∀ t ∈ front ++ back, store'.extents[t.extentId]? = store.extents[t.extentId]? := by
    intro t ht
    rw [hextents, getElem?_insert_eq, if_neg (Ne.symm (hother t ht)), getElem?_erase_eq,
      if_neg (Ne.symm (h.ne_of_split ht))]
  have hnew : store'.extents[id]? = some ⟨records, true⟩ := by
    rw [hextents, getElem?_insert_eq, if_pos rfl]
  refine ⟨⟨forall_mem_middle (fun t ht => ?_) ?_, ?_, ?_, forall_mem_middle (fun t ht => ?_) ?_, ?_,
    by simp⟩, hlook⟩
  · rw [Store.records, hlook t ht]
    exact h.batches t (hkept t ht)
  · rw [hid, Store.records, hnew]
    exact hbatches
  · intro k
    rw [hextents, Std.ExtTreeMap.mem_insert, Std.LawfulEqCmp.compare_eq_iff_eq,
      Std.ExtTreeMap.mem_erase, h.present, ne_eq, Std.LawfulEqCmp.compare_eq_iff_eq]
    have hgone : s.extentId ∉ (front ++ back).map (·.extentId) := by
      intro hmem
      rcases mem_map.mp hmem with ⟨t, ht, heq⟩
      exact h.ne_of_split ht heq
    simp only [map_append, map_cons, mem_append, mem_cons, hid, not_or] at hgone ⊢
    constructor
    · rintro (rfl | ⟨hne, hk | rfl | hk⟩)
      · exact Or.inr (Or.inl rfl)
      · exact Or.inl hk
      · exact absurd rfl hne
      · exact Or.inr (Or.inr hk)
    · rintro (hk | rfl | hk)
      · exact Or.inr ⟨fun heq => hgone.1 (heq ▸ hk), Or.inl hk⟩
      · exact Or.inl rfl
      · exact Or.inr ⟨fun heq => hgone.2 (heq ▸ hk), Or.inr (Or.inr hk)⟩
  · have hdis := h.distinct
    rw [map_append, map_cons, nodup_middle, nodup_cons, ← map_append] at hdis ⊢
    refine ⟨fun hmem => ?_, hdis.2⟩
    rcases mem_map.mp hmem with ⟨t, ht, heq⟩
    exact hother t ht (heq.trans hid)
  · rw [Store.records, hlook t ht]
    exact h.keyed t (hkept t ht)
  · rw [hid, Store.records, hnew]
    exact hkeyed
  · intro t ht
    have hsealed : ∀ t ∈ (front ++ s :: back).dropLast, t ∈ front ++ back →
        store'.isSealed t.extentId = true := by
      intro t ht hmem
      rw [Store.isSealed, hlook t hmem]
      exact h.sealed t ht
    have hlast : store'.isSealed s'.extentId = true := by
      rw [hid, Store.isSealed, hnew]
      rfl
    rw [dropLast_append_cons] at ht hsealed
    -- A segment before the last one is still before the last one.
    cases back with
    | nil =>
      exact hsealed t ht (by simpa using ht)
    | cons a back =>
      rw [dropLast_cons_cons] at ht hsealed
      refine forall_mem_middle (fun u hu => hsealed u ?_ ?_) hlast t ht
      · exact forall_mem_remove (fun _ h => h) u hu
      · exact (List.Sublist.append_left (dropLast_sublist _) _).subset hu

/-- The first extent is taken away. -/
theorem Mirrored.tail (h : Mirrored key (s :: back) store) (hne : back ≠ [])
    (hextents : store'.extents = store.extents.erase s.extentId) :
    Mirrored key back store' ∧
      ∀ t ∈ back, store'.extents[t.extentId]? = store.extents[t.extentId]? := by
  have hother : ∀ t ∈ back, t.extentId ≠ s.extentId := by
    intro t ht
    have hsplit : Mirrored key ([] ++ s :: back) store := h
    exact hsplit.ne_of_split ht
  have hlook : ∀ t ∈ back, store'.extents[t.extentId]? = store.extents[t.extentId]? := by
    intro t ht
    rw [hextents, getElem?_erase_eq, if_neg (Ne.symm (hother t ht))]
  have hdis := h.distinct
  rw [map_cons, nodup_cons] at hdis
  refine ⟨⟨?_, ?_, hdis.2, ?_, ?_, hne⟩, hlook⟩
  · intro t ht
    rw [Store.records, hlook t ht]
    exact h.batches t (mem_cons_of_mem s ht)
  · intro k
    rw [hextents, Std.ExtTreeMap.mem_erase, ne_eq, Std.LawfulEqCmp.compare_eq_iff_eq, h.present,
      map_cons, mem_cons]
    constructor
    · rintro ⟨hk, rfl | hmem⟩
      · exact absurd rfl hk
      · exact hmem
    · intro hmem
      exact ⟨fun heq => hdis.1 (heq ▸ hmem), Or.inr hmem⟩
  · intro t ht
    rw [Store.records, hlook t ht]
    exact h.keyed t (mem_cons_of_mem s ht)
  · intro t ht
    rw [Store.isSealed, hlook t (mem_of_mem_dropLast ht)]
    refine h.sealed t ?_
    rw [dropLast_cons_of_ne_nil hne]
    exact mem_cons_of_mem s ht

end Mirrored

/-! ## What the extents hold -/

/-- The batch that a record was stored for. -/
def batchOf (r : Record) : FetchedBatch :=
  ⟨r.identity.baseOffset, r.identity.lastOffset, r.identity.epoch, r.identity.timestampMs,
    r.payload⟩

/-- The batches in the extents of the segments. -/
def batchesOf (segments : List Segment) (store : Store) : List FetchedBatch :=
  segments.flatMap fun s => (store.records s.extentId).map batchOf

theorem batchesOf_append (a b : List Segment) (store : Store) :
    batchesOf (a ++ b) store = batchesOf a store ++ batchesOf b store :=
  flatMap_append

theorem batchesOf_cons (s : Segment) (rest : List Segment) (store : Store) :
    batchesOf (s :: rest) store = (store.records s.extentId).map batchOf ++ batchesOf rest store :=
  flatMap_cons

/-- Only the extents of the segments matter, and of these the records. -/
theorem batchesOf_congr {segments : List Segment} {store store' : Store}
    (h : ∀ s ∈ segments, store'.records s.extentId = store.records s.extentId) :
    batchesOf segments store' = batchesOf segments store :=
  flatMap_congr fun s hs => by rw [h s hs]

/-- Reading the locations of records gives the batches of these records. -/
theorem map_batchAt_recordLocations {extentId index : Nat} {records : List Record}
    (h : ∀ i r, records[i]? = some r → log.store.recordAt extentId (index + i) = some r) :
    (recordLocations extentId index records).map log.batchAt = records.map batchOf := by
  induction records generalizing index with
  | nil => rfl
  | cons r records ih =>
    rw [recordLocations, map_cons, map_cons, ih]
    · congr 1
      have hr := h 0 r getElem?_cons_zero
      rw [OrderedLog.batchAt, bytesAt_eq (b := ⟨_, _, _, _, extentId, index, _⟩) hr, batchOf]
    · intro i r' hr'
      rw [show index + 1 + i = index + (i + 1) by omega]
      exact h (i + 1) r' (by rw [getElem?_cons_succ]; exact hr')

theorem recordAt_of_records {store : Store} {id i : Nat} {r : Record}
    (h : (store.records id)[i]? = some r) : store.recordAt id i = some r := by
  unfold Store.records at h
  unfold Store.recordAt
  cases he : store.extents[id]? with
  | none =>
    rw [he] at h
    exact absurd h (by simp)
  | some e =>
    rw [he] at h
    exact h

theorem Mirrored.map_batchAt {key : Nat} (h : Mirrored key log.segments log.store)
    (hs : s ∈ log.segments) :
    s.batches.map log.batchAt = (log.store.records s.extentId).map batchOf := by
  rw [h.batches s hs]
  refine map_batchAt_recordLocations fun i r hr => ?_
  rw [Nat.zero_add]
  exact recordAt_of_records hr

/-- A log holds what the extents of its segments hold. -/
theorem Mirrored.contents {key : Nat} (h : Mirrored key log.segments log.store) :
    log.contents = batchesOf log.segments log.store := by
  rw [contents_eq, OrderedLog.locations, map_flatMap]
  exact flatMap_congr fun s hs => h.map_batchAt hs

/-! ## The invariant -/

/-- The index is in order and agrees with the store, the watermark lies between
    the start and the end of the log, and no batch lies on both sides of it. A
    log may be left without segments, when all its extents were sealed and then
    reclaimed; its store is empty in that case. -/
structure Intact (log : OrderedLog) : Prop where
  ordered : Ordered log.segments log.nextOffset
  mirrored : log.segments ≠ [] → Mirrored log.config.partitionKey log.segments log.store
  vacant : log.segments = [] → log.store.extents = ∅
  shut : ∀ s ∈ log.segments, s.sealed.isSome = true → log.store.isSealed s.extentId = true
  settled : ∀ s ∈ log.segments, s.sealed.isSome = true → s.endOffset ≤ log.highWatermark
  started : ∀ s ∈ log.segments, s.baseOffset ≤ log.highWatermark
  clean : ∀ b ∈ log.locations, b.lastOffset < log.highWatermark ∨ log.highWatermark ≤ b.baseOffset
  logStart : log.logStartOffset ≤ log.highWatermark
  committed : log.highWatermark ≤ log.nextOffset
  bounded : log.nextOffset < offsetLimit

theorem Intact.contents (h : Intact log) : log.contents = batchesOf log.segments log.store := by
  by_cases hnil : log.segments = []
  · rw [contents_eq, OrderedLog.locations, hnil]
    rfl
  · exact (h.mirrored hnil).contents

theorem Intact.spaced (h : Intact log) :
    Spaced BatchLocation.baseOffset BatchLocation.lastOffset log.locations :=
  h.ordered.spaced

theorem Intact.candidates (h : Intact log) (offset : Nat) :
    log.candidates offset = log.locations.filter fun b => offset ≤ b.lastOffset := by
  rw [OrderedLog.candidates, drop_partitionPoint, OrderedLog.locations]
  refine candidates_filter h.spaced (fun s hs => (h.ordered.closed s hs).1) (fun b hb => ?_) offset
  have := h.ordered.below hb
  have := h.bounded
  omega

end Log

end Pepper
