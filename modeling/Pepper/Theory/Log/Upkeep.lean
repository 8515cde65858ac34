import Pepper.Theory.Log.View

/-!
# Compaction and Reclaiming

The two calls that take committed batches away, and with them all calls of a log:
each keeps the invariant and does to the view what `LogView.Allows` says.

Compaction replaces an extent by one with fewer records. The first and the last
batch of the segment are always among these, so the segment spans the offsets it
spanned before and its neighbours need not know. Reclaiming drops segments from
the front as long as they end at or below the start of the log.

## Main definitions

* `LogOp.Fits`: The call does not use up the offsets.

## Theorems

* `compactSealed_refines`: Compaction loses batches it was not asked to retain.
* `reclaimBelowLogStart_refines`: Reclaiming loses batches below the start.
* `perform_refines`: Every call does what the view allows.
-/

namespace Pepper

namespace Log

open ExtentStore Fallible List

/-! ## Rewritten segments -/

variable {l : List BatchLocation} {log : OrderedLog} {s : Segment}

theorem mem_relocated {extentId index : Nat} {c : BatchLocation}
    (hc : c ∈ relocated extentId index l) :
    ∃ b ∈ l, c.baseOffset = b.baseOffset ∧ c.lastOffset = b.lastOffset := by
  induction l generalizing index with
  | nil => cases hc
  | cons b l ih =>
    rcases mem_cons.mp hc with rfl | hc
    · exact ⟨b, mem_cons_self, rfl, rfl⟩
    · rcases ih hc with ⟨b', hb', h⟩
      exact ⟨b', mem_cons_of_mem b hb', h⟩

theorem map_relocated {β : Type} (f : BatchLocation → β)
    (hf : ∀ (b : BatchLocation) (extentId recordIndex : Nat),
      f { b with extentId, recordIndex } = f b)
    (extentId index : Nat) (l : List BatchLocation) :
    (relocated extentId index l).map f = l.map f := by
  induction l generalizing index with
  | nil => rfl
  | cons b l ih => rw [relocated, map_cons, map_cons, ih, hf]

theorem spaced_relocated (extentId index : Nat)
    (h : Spaced BatchLocation.baseOffset BatchLocation.lastOffset l) :
    Spaced BatchLocation.baseOffset BatchLocation.lastOffset (relocated extentId index l) := by
  induction l generalizing index with
  | nil => exact h
  | cons b l ih =>
    refine (ih (index + 1) (h.sublist (sublist_cons_self b l))).cons
      (h.spans b mem_cons_self) fun c hc => ?_
    rcases mem_relocated hc with ⟨b', hb', hbase, _⟩
    rw [hbase]
    exact (pairwise_cons.mp h.ordered).1 b' hb'

/-- The extent that was written for the kept batches holds them in their order. -/
theorem relocated_eq_recordLocations (h : ∀ b ∈ l, (log.bytesAt b).length = b.encodedLen)
    (key extentId index : Nat) :
    relocated extentId index l =
      recordLocations extentId index ((l.map log.batchAt).map (replacementRecord key)) := by
  induction l generalizing index with
  | nil => rfl
  | cons b l ih =>
    rw [relocated, ih (fun c hc => h c (mem_cons_of_mem b hc))]
    simp only [map_cons, recordLocations, replacementRecord, OrderedLog.batchAt, h b mem_cons_self]

/-- Whatever is asked for, the first and the last batch are kept. -/
theorem head?_kept (s : Segment) (retained : BTreeSet Nat) :
    (s.batches.filter (s.keeps retained)).head? = s.batches.head? := by
  cases hs : s.batches with
  | nil => rfl
  | cons b rest =>
    rw [filter_cons_of_pos]
    · rfl
    · simp [Segment.keeps, hs]

theorem getLast?_kept (s : Segment) (retained : BTreeSet Nat) :
    (s.batches.filter (s.keeps retained)).getLast? = s.batches.getLast? := by
  cases hlast : s.batches.getLast? with
  | none =>
    rw [getLast?_eq_none_iff.mp hlast]
    rfl
  | some b =>
    have hkept : s.keeps retained b = true := by simp [Segment.keeps, hlast]
    nth_rewrite 1 [← dropLast_append_getLast? b hlast]
    rw [filter_append, filter_cons_of_pos hkept, filter_nil, getLast?_concat]

/-- The end of a segment is read off its last batch. -/
theorem endOffset_congr {s' : Segment} (hbase : s'.baseOffset = s.baseOffset)
    (hlast : s'.batches.getLast?.map (·.lastOffset) = s.batches.getLast?.map (·.lastOffset)) :
    s'.endOffset = s.endOffset := by
  unfold Segment.endOffset
  cases hl : s.batches.getLast? with
  | none =>
    rw [hl, Option.map_none, Option.map_eq_none_iff] at hlast
    simp only [hlast, hbase]
  | some b =>
    rw [hl, Option.map_some, Option.map_eq_some_iff] at hlast
    rcases hlast with ⟨c, hc, hcb⟩
    simp only [hc, hcb]

/-- The rewritten segment spans what the segment spanned. -/
theorem Segment.Holds.rewritten (h : s.Holds) (hne : s.batches ≠ []) (retained : BTreeSet Nat)
    (extentId : Nat) :
    (s.rewritten extentId (s.batches.filter (s.keeps retained))).Holds ∧
      (s.rewritten extentId (s.batches.filter (s.keeps retained))).endOffset = s.endOffset := by
  have hlasts := map_relocated (·.lastOffset) (fun _ _ _ => rfl) extentId 0
    (s.batches.filter (s.keeps retained))
  have hbases := map_relocated (·.baseOffset) (fun _ _ _ => rfl) extentId 0
    (s.batches.filter (s.keeps retained))
  have hend : (s.rewritten extentId (s.batches.filter (s.keeps retained))).endOffset =
      s.endOffset := by
    refine endOffset_congr rfl ?_
    rw [← getLast?_kept s retained, ← getLast?_map, ← getLast?_map]
    exact congrArg List.getLast? hlasts
  refine ⟨⟨spaced_relocated _ _ (h.spaced.sublist filter_sublist), ?_, ?_, ?_, ?_, ?_⟩, hend⟩
  · intro b hb
    have hb : (relocated extentId 0 (s.batches.filter (s.keeps retained))).head? = some b := hb
    have hhead := congrArg List.head? hbases
    rw [head?_map, head?_map, head?_kept, hb, Option.map_some, eq_comm,
      Option.map_eq_some_iff] at hhead
    rcases hhead with ⟨c, hc, hcb⟩
    rw [← hcb]
    exact h.first c hc
  · intro c hc
    rcases mem_relocated hc with ⟨b, hb, _, hlast⟩
    rw [hend, hlast]
    exact h.ends b (mem_of_mem_filter hb)
  · intro hnone
    exact absurd hnone (by simp [Segment.rewritten])
  · intro m hm
    exact (Option.some.inj hm).symm
  · intro _ _ hnil
    have hnil : relocated extentId 0 (s.batches.filter (s.keeps retained)) = [] := hnil
    have hhead := congrArg List.head? hbases
    rw [head?_map, head?_map, head?_kept, hnil, head?_nil, Option.map_none, eq_comm,
      Option.map_eq_none_iff, head?_eq_none_iff] at hhead
    exact hne hhead

/-! ## Compaction -/

variable {α : Type} {back front : List Segment} {kept : List BatchLocation}
  {retained : BTreeSet Nat} {store : Store}

theorem split_of_getElem? {l : List α} {i : Nat} {x : α} (h : l[i]? = some x) :
    l = l.take i ++ x :: l.drop (i + 1) ∧ ∀ y, l.set i y = l.take i ++ y :: l.drop (i + 1) := by
  rcases List.getElem?_eq_some_iff.mp h with ⟨hi, rfl⟩
  refine ⟨?_, fun y => ?_⟩
  · rw [← drop_eq_getElem_cons hi, take_append_drop]
  · rw [set_eq_take_append_cons_drop, if_pos hi]

/-- A sealed segment is exchanged for its rewritten form. -/
theorem Intact.rewrite (h : Intact log) (hsplit : log.segments = front ++ s :: back)
    (hsealed : s.sealed.isSome = true) (hfil : s.batches ≠ [])
    (hkept : kept = s.batches.filter (s.keeps retained)) {id : Nat}
    (hfresh : id ∉ log.store.extents)
    (hextents : store.extents = (log.store.extents.erase s.extentId).insert id
      ⟨(kept.map log.batchAt).map (replacementRecord log.config.partitionKey), true⟩) :
    Intact { log with store, segments := front ++ s.rewritten id kept :: back } ∧
      batchesOf (front ++ s.rewritten id kept :: back) store =
        batchesOf front log.store ++ (kept.map log.batchAt ++ batchesOf back log.store) := by
  have hmem : s ∈ log.segments := hsplit ▸ mem_append_right _ mem_cons_self
  have hmir := h.mirrored (ne_nil_of_mem hmem)
  have hholds := h.ordered.holds s hmem
  have hrewritten := hholds.rewritten hfil retained id
  rw [← hkept] at hrewritten
  have hsub : ∀ b ∈ kept, b ∈ s.batches := fun b hb => mem_of_mem_filter (hkept ▸ hb)
  have hstored : ∀ b ∈ kept, (log.bytesAt b).length = b.encodedLen := by
    intro b hb
    rcases hmir.stored (mem_flatMap.mpr ⟨s, hmem, hsub b hb⟩) with ⟨r, hr, hlen⟩
    rw [bytesAt_eq hr, hlen]
  -- The first batch of a segment is always kept.
  have hne : (s.rewritten id kept).batches ≠ [] := by
    intro hnil
    have hlasts := map_relocated (·.lastOffset) (fun _ _ _ => rfl) id 0 kept
    rw [show relocated id 0 kept = [] from hnil, map_nil, eq_comm, map_eq_nil_iff, hkept] at hlasts
    have hhead := head?_kept s retained
    rw [hlasts, head?_nil, eq_comm, head?_eq_none_iff] at hhead
    exact hfil hhead
  have hord : Ordered (front ++ s :: back) log.nextOffset := hsplit ▸ h.ordered
  have hexchange : Mirrored log.config.partitionKey (front ++ s.rewritten id kept :: back) store ∧
      ∀ t ∈ front ++ back, store.extents[t.extentId]? = log.store.extents[t.extentId]? := by
    refine Mirrored.exchange (hsplit ▸ hmir) hfresh hextents rfl
      (relocated_eq_recordLocations hstored _ _ _) fun r hr => ?_
    rcases mem_map.mp hr with ⟨b, _, rfl⟩
    rfl
  have hold : ∀ t ∈ front ++ back, t ∈ log.segments :=
    hsplit ▸ forall_mem_remove fun _ ht => ht
  have hfound : store.extents[id]? =
      some ⟨(kept.map log.batchAt).map (replacementRecord log.config.partitionKey), true⟩ := by
    rw [hextents, getElem?_insert_eq, if_pos rfl]
  refine ⟨⟨hord.exchange rfl hrewritten.2 hrewritten.1 hne rfl, fun _ => hexchange.1,
    fun hnil => absurd hnil (by simp), ?_, ?_, ?_, ?_, h.logStart, h.committed, h.bounded⟩, ?_⟩
  · refine forall_mem_middle (fun t ht hsome => ?_) fun _ => ?_
    · rw [Store.isSealed, hexchange.2 t ht]
      exact h.shut t (hold t ht) hsome
    · show store.isSealed id = true
      rw [Store.isSealed, hfound]
      rfl
  · refine forall_mem_middle (fun t ht => h.settled t (hold t ht)) fun _ => ?_
    rw [hrewritten.2]
    exact h.settled s hmem hsealed
  · exact forall_mem_middle (fun t ht => h.started t (hold t ht)) (h.started s hmem)
  · refine forall_mem_flatMap.mpr (forall_mem_middle (fun t ht c hc => ?_) fun c hc => ?_)
    · exact h.clean c (mem_flatMap.mpr ⟨t, hold t ht, hc⟩)
    · rcases mem_relocated hc with ⟨b, hb, hbase, hlast⟩
      rw [hbase, hlast]
      exact h.clean b (mem_flatMap.mpr ⟨s, hmem, hsub b hb⟩)
  · have hsame : ∀ t ∈ front ++ back, store.records t.extentId = log.store.records t.extentId := by
      intro t ht
      rw [Store.records, Store.records, hexchange.2 t ht]
    rw [forall_mem_append] at hsame
    rw [batchesOf_append, batchesOf_cons, batchesOf_congr hsame.1, batchesOf_congr hsame.2]
    congr 2
    show (store.records id).map batchOf = _
    rw [records_of_getElem? hfound, map_map, map_map]
    exact map_congr_left fun b _ => rfl

/-- What a log has lost when a committed segment was rewritten. -/
theorem Intact.lost_rewritten {log' : OrderedLog} (h : Intact log)
    (hsplit : log.segments = front ++ s :: back) (hcom : s.endOffset ≤ log.highWatermark)
    (hkept : kept = s.batches.filter (s.keeps retained))
    (hcontents : log'.contents = batchesOf front log.store ++
      (kept.map log.batchAt ++ batchesOf back log.store))
    (hstart : log'.logStartOffset = log.logStartOffset)
    (hmark : log'.highWatermark = log.highWatermark) (hend : log'.nextOffset = log.nextOffset) :
    LogView.Lost (fun b => b.baseOffset ∉ retained ∧ b.lastOffset < log.highWatermark) log.view
      log'.view := by
  have hmem : s ∈ log.segments := hsplit ▸ mem_append_right _ mem_cons_self
  have hbef : log.contents = batchesOf front log.store ++
      (s.batches.map log.batchAt ++ batchesOf back log.store) := by
    rw [h.contents, (h.mirrored (ne_nil_of_mem hmem)).map_batchAt hmem, ← batchesOf_cons,
      ← batchesOf_append, ← hsplit]
  refine ⟨?_, ?_, hstart, hmark, hend⟩
  · show log'.contents.Sublist log.contents
    rw [hcontents, hbef, hkept]
    exact (List.Sublist.refl _).append ((filter_sublist.map _).append (List.Sublist.refl _))
  · intro x hx hnot
    have hx : x ∈ log.contents := hx
    have hnot : x ∉ log'.contents := hnot
    rw [hbef, mem_append, mem_append] at hx
    rw [hcontents, mem_append, mem_append] at hnot
    have hx : x ∈ s.batches.map log.batchAt := by tauto
    rcases mem_map.mp hx with ⟨b, hb, rfl⟩
    have hdropped : ¬ s.keeps retained b = true := by
      intro hkeeps
      exact hnot (Or.inr (Or.inl (mem_map_of_mem (hkept ▸ mem_filter.mpr ⟨hb, hkeeps⟩))))
    have hlast := (h.ordered.holds s hmem).ends b hb
    simp only [Segment.keeps, Bool.or_eq_true, decide_eq_true_eq, not_or] at hdropped
    exact ⟨hdropped.1.1, lt_of_lt_of_le hlast hcom⟩

theorem compactSealed_refines (h : Intact log) (leased : Bool) (extentId : Nat)
    (retained : BTreeSet Nat) :
    (compactSealed leased extentId retained).Ends log fun r log' => Steady log log' ∧
      ((log.store.Atomic ∨ ∃ a, r = .ok a) → Intact log' ∧ match r with
        | .ok _ => LogView.Lost
            (fun b => b.baseOffset ∉ retained ∧ b.lastOffset < log.highWatermark) log.view log'.view
        | .error _ => log'.view = log.view) := by
  have hsteady := Steady.refl log
  unfold compactSealed
  refine Ends.get_bind (Ends.expect_bind (fun _ => ⟨hsteady, fun _ => ⟨h, rfl⟩⟩) fun index hidx =>
    ?_)
  refine Ends.expect_bind (fun _ => ⟨hsteady, fun _ => ⟨h, rfl⟩⟩) fun s hs => ?_
  refine Ends.expect_bind (fun _ => ⟨hsteady, fun _ => ⟨h, rfl⟩⟩) fun m hm => ?_
  refine Ends.require_bind (fun _ => ⟨hsteady, fun _ => ⟨h, rfl⟩⟩) fun hcom => ?_
  have hsealed : s.sealed.isSome = true := by rw [hm]; rfl
  have hid : s.extentId = extentId := by
    rcases findIdx?_eq_some_iff_getElem.mp hidx with ⟨hlt, hfound, _⟩
    rw [getElem?_eq_getElem hlt, Option.some.injEq] at hs
    rw [← hs]
    exact of_decide_eq_true hfound
  subst hid
  rcases split_of_getElem? hs with ⟨hsplit, hset⟩
  have hmem : s ∈ log.segments := hsplit ▸ mem_append_right _ mem_cons_self
  have hmir := h.mirrored (ne_nil_of_mem hmem)
  generalize hkept : s.batches.filter (s.keeps retained) = kept
  have hsub : ∀ b ∈ kept, b ∈ s.batches := fun b hb => mem_of_mem_filter (hkept ▸ hb)
  by_cases hall : kept.length = s.batches.length
  · -- Every batch is kept, and the store is not called.
    rw [if_pos hall]
    exact Ends.pure ⟨hsteady, fun _ => ⟨h, LogView.Lost.refl _ _⟩⟩
  · rw [if_neg hall]
    have hfil : s.batches ≠ [] := by
      intro hnil
      rw [← hkept, hnil] at hall
      exact hall rfl
    refine Ends.call (readLocations_yields _ fun b hb => hmir.stored
      (mem_flatMap.mpr ⟨s, hmem, hsub b hb⟩)) ?_ ?_
    · rintro e log1 ⟨⟨clock, rfl⟩, _⟩
      exact ⟨⟨rfl, rfl⟩, fun _ => h.unmoved rfl⟩
    · rintro batches log1 ⟨⟨clock, rfl⟩, hbatches⟩
      rw [hbatches batches rfl]
      refine onStore_bind (replaceSealed_ends _ _ _ _) ?_ ?_
      · -- A failed replacement leaves the extents alone if the store is atomic.
        rintro e store ⟨hscript, hsame, _⟩
        refine ⟨⟨rfl, hscript⟩, ?_⟩
        rintro (hatomic | ⟨a, ha⟩)
        · exact h.unmoved (hsame e rfl hatomic)
        · exact absurd ha (by simp)
      · rintro newId store ⟨hscript, _, hnew⟩
        rcases hnew newId rfl with ⟨hfresh, hextents⟩
        rcases h.rewrite hsplit hsealed hfil hkept.symm hfresh hextents with ⟨hintact, hcontents⟩
        refine Ends.modify_bind (Ends.pure ⟨⟨rfl, hscript⟩, fun _ => ?_⟩)
        rw [hset]
        have hrebuilt : Intact (OrderedLog.rebuildSparseIndex { log with
            store,
            segments := log.segments.take index ++ s.rewritten newId kept ::
              log.segments.drop (index + 1) }) :=
          hintact.of_eq rfl rfl rfl rfl
        refine ⟨hrebuilt, h.lost_rewritten hsplit hcom hkept.symm
          (hrebuilt.contents.trans hcontents) rfl rfl rfl⟩

/-! ## Reclaiming -/

/-- The first segment and its extent are taken away. -/
theorem Intact.dropFirst (h : Intact log) {rest : List Segment} (hsplit : log.segments = s :: rest)
    (hextents : store.extents = log.store.extents.erase s.extentId) (totalBatches : Nat) :
    Intact { log with store, segments := rest, totalBatches } ∧
      batchesOf rest store = batchesOf rest log.store := by
  have hmir := h.mirrored (by simp [hsplit])
  rw [hsplit] at hmir
  have hold : ∀ t ∈ rest, t ∈ log.segments := fun t ht => hsplit ▸ mem_cons_of_mem s ht
  have hlook : ∀ t ∈ rest, store.extents[t.extentId]? = log.store.extents[t.extentId]? :=
    fun t ht => (hmir.tail (ne_nil_of_mem ht) hextents).2 t ht
  refine ⟨⟨(hsplit ▸ h.ordered).tail, fun hne => (hmir.tail hne hextents).1, fun hnil => ?_, ?_,
    fun t ht => h.settled t (hold t ht), fun t ht => h.started t (hold t ht), fun b hb => ?_,
    h.logStart, h.committed, h.bounded⟩, ?_⟩
  · -- The extent was the only one left.
    have hnil : rest = [] := hnil
    rw [Std.ExtTreeMap.eq_empty_iff_forall_not_mem]
    intro k hk
    rw [hextents, Std.ExtTreeMap.mem_erase, ne_eq, Std.LawfulEqCmp.compare_eq_iff_eq,
      hmir.present, hnil, map_singleton, mem_singleton] at hk
    exact hk.1 hk.2.symm
  · intro t ht hsome
    rw [Store.isSealed, hlook t ht]
    exact h.shut t (hold t ht) hsome
  · rcases mem_flatMap.mp hb with ⟨t, ht, hbt⟩
    exact h.clean b (mem_flatMap.mpr ⟨t, hold t ht, hbt⟩)
  · refine batchesOf_congr fun t ht => ?_
    rw [Store.records, Store.records, hlook t ht]

/-- The loop, by induction on the segments that are left. It may stop at any of
    them with an error of the store. -/
theorem reclaimSegments_refines (leased : Nat → Bool) (segments : List Segment) (h : Intact log)
    (hsegments : log.segments = segments) :
    (reclaimSegments leased segments).Ends log fun r log' => Steady log log' ∧
      ((log.store.Atomic ∨ ∃ a, r = .ok a) → Intact log' ∧
        LogView.Lost (fun b => b.lastOffset < log.logStartOffset) log.view log'.view) := by
  induction segments generalizing log with
  | nil => exact Ends.pure ⟨Steady.refl log, fun _ => ⟨h, LogView.Lost.refl _ _⟩⟩
  | cons s rest ih =>
    unfold reclaimSegments
    refine Ends.get_bind ?_
    cases hm : s.sealed.filter fun manifest => decide (manifest.endOffset ≤ log.logStartOffset ∧
        manifest.endOffset ≤ log.highWatermark) with
    | none => exact Ends.pure ⟨Steady.refl log, fun _ => ⟨h, LogView.Lost.refl _ _⟩⟩
    | some m =>
      rcases Option.filter_eq_some_iff.mp hm with ⟨hsome, hbelow⟩
      have hmem : s ∈ log.segments := hsegments ▸ mem_cons_self
      have hholds := h.ordered.holds s hmem
      have hend : s.endOffset ≤ log.logStartOffset := by
        rw [← hholds.manifest_end hsome]
        exact (of_decide_eq_true hbelow).1
      have hid : m.extentId = s.extentId := by
        rw [hholds.manifest m hsome]
        rfl
      dsimp only
      rw [hid]
      refine onStore_bind (reclaim_ends log.store (leased s.extentId) s.extentId) ?_ ?_
      · rintro e store ⟨hscript, hsame, _⟩
        refine ⟨⟨rfl, hscript⟩, ?_⟩
        rintro (hatomic | ⟨a, ha⟩)
        · rcases h.unmoved (hsame e rfl hatomic) with ⟨hintact, hview⟩
          refine ⟨hintact, ?_⟩
          rw [hview]
          exact LogView.Lost.refl _ _
        · exact absurd ha (by simp)
      · rintro u store ⟨hscript, _, hgone⟩
        rcases h.dropFirst hsegments (hgone u rfl) (log.totalBatches - m.batchCount) with
          ⟨hintact, hcontents⟩
        refine Ends.modify_bind ?_
        rw [show log.segments.tail = rest by rw [hsegments, tail_cons]]
        -- What has gone are the batches of the first segment.
        have hlost : LogView.Lost (fun b => b.lastOffset < log.logStartOffset) log.view
            (OrderedLog.view { log with
              store, segments := rest, totalBatches := log.totalBatches - m.batchCount }) := by
          have hbef : log.contents = s.batches.map log.batchAt ++ batchesOf rest log.store := by
            rw [h.contents, (h.mirrored (ne_nil_of_mem hmem)).map_batchAt hmem,
              ← batchesOf_cons, hsegments]
          have haft : OrderedLog.contents { log with
              store, segments := rest, totalBatches := log.totalBatches - m.batchCount } =
              batchesOf rest log.store := hintact.contents.trans hcontents
          refine ⟨?_, ?_, rfl, rfl, rfl⟩
          · show (OrderedLog.contents _).Sublist log.contents
            rw [haft, hbef]
            exact sublist_append_right _ _
          · intro x hx hnot
            have hx : x ∈ log.contents := hx
            have hnot : x ∉ OrderedLog.contents _ := hnot
            rw [hbef, mem_append] at hx
            rw [haft] at hnot
            rcases mem_map.mp (hx.resolve_right hnot) with ⟨b, hb, rfl⟩
            exact lt_of_lt_of_le (hholds.ends b hb) hend
        refine Ends.bind ((ih hintact rfl).mono ?_)
        rintro r log' ⟨hsteady, hrest⟩
        have hsteady' : Steady log log' := ⟨hsteady.config, hsteady.script.trans hscript⟩
        cases r with
        | ok reclaimed =>
          refine Ends.pure ⟨hsteady', fun _ => ?_⟩
          rcases hrest (Or.inr ⟨reclaimed, rfl⟩) with ⟨hintact', hlost'⟩
          exact ⟨hintact', hlost.trans hlost'⟩
        | error e =>
          refine ⟨hsteady', ?_⟩
          rintro (hatomic | ⟨a, ha⟩)
          · rcases hrest (Or.inl fun n => by
              rw [show Store.script _ = log.store.script from hscript]
              exact hatomic n) with ⟨hintact', hlost'⟩
            exact ⟨hintact', hlost.trans hlost'⟩
          · exact absurd ha (by simp)

theorem reclaimBelowLogStart_refines (h : Intact log) (leased : Nat → Bool) :
    (reclaimBelowLogStart leased).Ends log fun r log' => Steady log log' ∧
      ((log.store.Atomic ∨ ∃ a, r = .ok a) → Intact log' ∧
        LogView.Lost (fun b => b.lastOffset < log.logStartOffset) log.view log'.view) := by
  unfold reclaimBelowLogStart
  refine Ends.get_bind (Ends.bind ((reclaimSegments_refines leased log.segments h rfl).mono ?_))
  rintro r log' ⟨hsteady, hr⟩
  cases r with
  | error e =>
    refine ⟨hsteady, fun hsure => hr (hsure.imp_right ?_)⟩
    rintro ⟨a, ha⟩
    exact absurd ha (by simp)
  | ok reclaimed =>
    rcases hr (Or.inr ⟨reclaimed, rfl⟩) with ⟨hintact, hlost⟩
    by_cases hempty : reclaimed.isEmpty = true
    · simp only [hempty, if_true]
      exact Ends.pure ⟨hsteady, fun _ => ⟨hintact, hlost⟩⟩
    · simp only [hempty, if_false, Bool.false_eq_true]
      exact Ends.modify_bind (Ends.pure ⟨⟨hsteady.config, hsteady.script⟩,
        fun _ => ⟨hintact.of_eq rfl rfl rfl rfl, hlost⟩⟩)

/-! ## All calls -/

/-- The call does not write the last offset there is, behind which the end of the
    log has no number. -/
def LogOp.Fits (log : OrderedLog) : LogOp → Prop
  | .append _ _ count _ => log.nextOffset + count < offsetLimit
  | .replicate _ _ _ _ count _ => log.nextOffset + count < offsetLimit
  | _ => True

instance instDecidableFits (log : OrderedLog) : (op : LogOp) → Decidable (op.Fits log)
  | .append _ _ count _ =>
    inferInstanceAs (Decidable (log.nextOffset + count < offsetLimit))
  | .replicate _ _ _ _ count _ =>
    inferInstanceAs (Decidable (log.nextOffset + count < offsetLimit))
  | .promiseEpoch _ _ => isTrue trivial
  | .activateLeader _ _ => isTrue trivial
  | .commit _ _ => isTrue trivial
  | .truncate _ _ => isTrue trivial
  | .sealAndRotate _ => isTrue trivial
  | .compactSealed _ _ _ => isTrue trivial
  | .advanceLogStart _ _ => isTrue trivial
  | .reclaimBelowLogStart _ => isTrue trivial

/-- Forgetting the answer of a call. -/
theorem ends_void {x : LogM α} {Q : Except LogError Unit → OrderedLog → Prop}
    (h : x.Ends log fun r log' =>
      match r with
      | .ok _ => Q (.ok ()) log'
      | .error e => Q (.error e) log') : Ends (do let _ ← x; pure ()) log Q :=
  Ends.bind (h.mono fun r log' hr => by cases r <;> exact hr)

/-- Every call keeps the invariant and does what the view allows. None changes the
    configuration or the script. -/
theorem perform_refines (h : Intact log) (op : LogOp) (hfits : op.Fits log) :
    (perform op).Ends log fun r log' => Steady log log' ∧ ((log.store.Atomic ∨ ∃ a, r = .ok a) →
        Intact log' ∧ log.view.Allows op r.isOk log'.view) := by
  have hrefl : ∀ P : Prop, Steady log log ∧ (P → Intact log ∧ log.view = log.view) :=
    fun _ => ⟨Steady.refl log, fun _ => ⟨h, rfl⟩⟩
  cases op with
  | promiseEpoch ctl epoch =>
    refine (promiseEpoch_keeps h ctl epoch).mono fun r log' hr => ⟨hr.1, fun _ => ?_⟩
    cases r <;> exact hr.2
  | activateLeader ctl epoch =>
    refine (activateLeader_keeps h ctl epoch).mono fun r log' hr => ⟨hr.1, fun _ => ?_⟩
    cases r <;> exact hr.2
  | append epoch time count payload =>
    refine ends_void ?_
    unfold append
    refine Ends.get_bind (Ends.require_bind (fun _ => hrefl _) fun _ => ?_)
    refine (appendAssigned_refines h epoch _ time count payload hfits).mono ?_
    rintro r log' ⟨hsteady, hintact, hview⟩
    cases r with
    | ok _ => exact ⟨hsteady, fun _ => ⟨hintact, hview.2⟩⟩
    | error e => exact ⟨hsteady, fun _ => ⟨hintact, hview⟩⟩
  | replicate commandEpoch recordEpoch base time count payload =>
    refine ends_void ?_
    unfold replicateWithIdentity
    refine Ends.get_bind (Ends.require_bind (fun _ => hrefl _) fun _ => ?_)
    refine (appendAssigned_refines h recordEpoch base time count payload hfits).mono ?_
    intro r log' hr
    cases r <;> exact ⟨hr.1, fun _ => hr.2⟩
  | commit epoch mark =>
    refine (commit_refines h epoch mark).mono fun r log' hr => ⟨hr.1, fun _ => ?_⟩
    cases r <;> exact hr.2
  | truncate authority command =>
    show (truncate authority command).Ends log _
    unfold truncate
    refine Ends.get_bind (Ends.require_bind (fun _ => hrefl _) fun _ => ?_)
    refine Ends.require_bind (fun _ => hrefl _) fun _ => ?_
    refine Ends.call (truncateActiveTo_refines h command.truncateTo)
      (fun _ _ hr => ⟨hr.1, fun _ => hr.2⟩) ?_
    rintro _ log' ⟨hsteady, hintact, hcut⟩
    exact Ends.modify ⟨⟨hsteady.config, hsteady.script⟩, fun _ =>
      ⟨hintact.of_eq rfl rfl rfl rfl, hcut⟩⟩
  | sealAndRotate epoch =>
    refine ends_void ((sealAndRotate_keeps h epoch).mono ?_)
    intro r log' hr
    cases r <;> exact ⟨hr.1, fun _ => hr.2⟩
  | compactSealed leased extentId retained =>
    refine ends_void ((compactSealed_refines h leased extentId retained).mono ?_)
    rintro r log' ⟨hsteady, hr⟩
    cases r with
    | ok a => exact ⟨hsteady, fun _ => hr (Or.inr ⟨a, rfl⟩)⟩
    | error e => exact ⟨hsteady, fun hsure => hr (hsure.imp_right fun ⟨_, ha⟩ => nomatch ha)⟩
  | advanceLogStart ctl offset =>
    refine (advanceLogStart_refines h ctl offset).mono fun r log' hr => ⟨hr.1, fun _ => ?_⟩
    cases r <;> exact hr.2
  | reclaimBelowLogStart leased =>
    refine ends_void ((reclaimBelowLogStart_refines h leased).mono ?_)
    rintro r log' ⟨hsteady, hr⟩
    cases r with
    | ok a => exact ⟨hsteady, fun _ => hr (Or.inr ⟨a, rfl⟩)⟩
    | error e => exact ⟨hsteady, fun hsure => hr (hsure.imp_right fun ⟨_, ha⟩ => nomatch ha)⟩

end Log

end Pepper
