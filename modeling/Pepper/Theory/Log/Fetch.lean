import Pepper.Theory.Log.Contents

/-!
# Fetching from an Ordered Log

A fetch without a byte limit returns the batches that reach the offset, with
the bytes that were stored for them.

The source finds its place by two binary searches, over segments by their ends
and then within one segment by last offsets, and stops at the first batch that
is not visible. On a well-formed log the places found this way are those of a
filter over all batches, which is the form replication reasons with.

## Theorems

* `candidates_eq`: Where a fetch starts.
* `takeVisible_eq`: Without a byte limit everything visible is taken.
* `fetch_yields`: What a fetch of everything returns.
-/

namespace Pepper

namespace Log

open ExtentStore Fallible List

theorem drop_partitionPoint {α : Type} (p : α → Bool) (l : List α) :
    l.drop (partitionPoint p l) = l.dropWhile p := by
  unfold partitionPoint
  nth_rewrite 2 [← takeWhile_append_dropWhile (p := p) (l := l)]
  exact drop_left

variable {b : BatchLocation} {log' : OrderedLog}

/-- The end of a segment that is not empty is one past its last batch, as long
    as the offset type is not exhausted. -/
theorem endOffset_of_getLast {s : Segment} (hlast : s.batches.getLast? = some b)
    (hlim : b.lastOffset + 1 < offsetLimit) : s.endOffset = b.lastOffset + 1 := by
  unfold Segment.endOffset
  rw [hlast]
  show min (b.lastOffset + 1) (offsetLimit - 1) = b.lastOffset + 1
  omega

/-- The candidates of a fetch on a list of segments, by recursion. -/
theorem candidates_filter {segments : List Segment}
    (hspaced : Spaced BatchLocation.baseOffset BatchLocation.lastOffset
    (segments.flatMap (·.batches)))
    (hfil : ∀ s ∈ segments.dropLast, s.batches ≠ [])
    (hlim : ∀ b ∈ segments.flatMap (·.batches), b.lastOffset + 1 < offsetLimit) (offset : Nat) :
    locationsFrom offset (segments.dropWhile (fun s => s.endOffset ≤ offset)) =
      (segments.flatMap (·.batches)).filter (fun b => offset ≤ b.lastOffset) := by
  induction segments with
  | nil => rfl
  | cons s rest ih =>
    rw [flatMap_cons] at hspaced hlim
    rcases spaced_append.mp hspaced with ⟨hs, hrest, hbetween⟩
    have hfil' : ∀ s' ∈ rest.dropLast, s'.batches ≠ [] := by
      intro s' hs'
      refine hfil s' ?_
      cases rest with
      | nil => exact absurd hs' (by simp)
      | cons a l =>
        rw [dropLast_cons_cons]
        exact mem_cons_of_mem s hs'
    have ih := ih hrest hfil' fun b hb => hlim b (mem_append_right _ hb)
    rw [flatMap_cons, filter_append]
    by_cases hempty : s.batches = []
    · -- Only the last segment may be empty.
      have hlast : rest = [] := by
        cases rest with
        | nil => rfl
        | cons a l =>
          refine absurd hempty (hfil s ?_)
          rw [dropLast_cons_cons]
          exact mem_cons_self
      subst hlast
      rw [hempty]
      by_cases hend : s.endOffset ≤ offset
      · rw [dropWhile_cons_of_pos (by simpa using hend)]
        rfl
      · rw [dropWhile_cons_of_neg (by simpa using hend)]
        rw [locationsFrom, hempty]
        rfl
    · rcases Option.isSome_iff_exists.mp (getLast?_isSome.mpr hempty) with ⟨b, hb⟩
      have hmem := mem_of_getLast? hb
      have hsend := endOffset_of_getLast hb (hlim b (mem_append_left _ hmem))
      by_cases hend : s.endOffset ≤ offset
      · -- All batches of the segment end before the offset.
        have hnone : s.batches.filter (fun b => offset ≤ b.lastOffset) = [] := by
          rw [filter_eq_nil_iff]
          intro b' hb'
          have := hs.le_getLast hb' hb
          simp only [decide_eq_true_eq]
          omega
        rw [dropWhile_cons_of_pos (by simpa using hend), ih, hnone, nil_append]
      · -- The batches of all later segments start behind the offset.
        have hall : (rest.flatMap (·.batches)).filter
            (fun b => offset ≤ b.lastOffset) = rest.flatMap (·.batches) := by
          rw [filter_eq_self]
          intro b' hb'
          have := hbetween b hmem b' hb'
          have := hrest.spans b' hb'
          simp only [decide_eq_true_eq]
          omega
        rw [dropWhile_cons_of_neg (by simpa using hend)]
        rw [locationsFrom, drop_partitionPoint, hs.dropWhile_eq_filter, hall]

variable {log : OrderedLog}

theorem candidates_eq (hwf : WellFormed log) (offset : Nat) : log.candidates offset =
      log.locations.filter (fun b => offset ≤ b.lastOffset) := by
  rcases hwf.tiled with ⟨start, htiles⟩
  rw [OrderedLog.candidates, drop_partitionPoint, OrderedLog.locations]
  refine candidates_filter htiles.spaced hwf.filled (fun b hb => ?_) offset
  have := htiles.bounds hb
  have := hwf.bounded
  omega

/-- With the greatest byte limit, which no sum exceeds, every location before
    the visible end is taken. -/
theorem takeVisible_eq (visibleEnd bytes : Nat) (started : Bool) (l : List BatchLocation) :
    takeVisible visibleEnd (offsetLimit - 1) bytes started l =
      l.takeWhile fun b => b.lastOffset < visibleEnd := by
  induction l generalizing bytes started with
  | nil => rfl
  | cons b l ih =>
    have hsum : ¬ (started = true ∧ offsetLimit - 1 < saturatingAdd bytes b.encodedLen) := by
      simp only [saturatingAdd]
      omega
    by_cases hb : b.lastOffset < visibleEnd
    · rw [takeVisible, if_neg (by omega), if_neg hsum, ih,
        takeWhile_cons_of_pos (by simpa using hb)]
    · rw [takeVisible, if_pos (by omega), takeWhile_cons_of_neg (by simpa using hb)]

/-- Only the store's clock moved. -/
def Ticked (log log' : OrderedLog) : Prop :=
  ∃ clock, log' = { log with store := { log.store with clock } }

instance instIsPreorderTicked : IsPreorder OrderedLog Ticked where
  refl log := ⟨log.store.clock, rfl⟩
  trans := by
    rintro a b c ⟨_, rfl⟩ ⟨clock, rfl⟩
    exact ⟨clock, rfl⟩

theorem Ticked.rotated (h : Ticked log log') : Rotated log log' := by
  rcases h with ⟨clock, rfl⟩
  exact rotated_store log (log.store.extends_clock clock)

theorem Ticked.batchAt (h : Ticked log log') : log'.batchAt = log.batchAt := by
  rcases h with ⟨clock, rfl⟩
  rfl

theorem readRange_ends (store : Store) (extentId recordIndex length : Nat) :
    (Store.readRange extentId recordIndex 0 length).Ends store fun r store' =>
      (∃ clock, store' = { store with clock }) ∧ ∀ bytes, r = .ok bytes →
          ∃ record, store.recordAt extentId recordIndex = some record ∧
            bytes = record.payload.take length := by
  have hsame : ∃ clock, store = { store with clock } := ⟨store.clock, rfl⟩
  unfold Store.readRange
  refine find_bind (fun _ => ⟨hsame, by simp⟩) fun e he => ?_
  refine Ends.expect_bind (fun _ => ⟨hsame, by simp⟩) fun record hrec => ?_
  refine Ends.require_bind (fun _ => ⟨hsame, by simp⟩) fun _ => ?_
  refine perform_bind ⟨⟨_, rfl⟩, by simp⟩ (Ends.pure ⟨⟨_, rfl⟩, ?_⟩)
  intro bytes hbytes
  rw [Except.ok.injEq, drop_zero] at hbytes
  refine ⟨record, ?_, hbytes.symm⟩
  rw [Store.recordAt, he, Option.bind_some, hrec]

/-- Reading a location whose record is as long as the index says. -/
theorem readLocation_yields {record : Record}
    (hrec : log.store.recordAt b.extentId b.recordIndex = some record)
    (hlen : record.payload.length = b.encodedLen) :
    (readLocation b).Yields Ticked log fun batch _ => batch = log.batchAt b := by
  unfold readLocation
  refine Ends.call (onStore_ends (readRange_ends log.store _ _ _)) ?_ ?_
  · rintro e log' ⟨_, store, ⟨⟨clock, rfl⟩, _⟩, rfl, _⟩
    exact ⟨⟨clock, rfl⟩, by simp⟩
  · rintro bytes log' ⟨r', store, ⟨⟨clock, rfl⟩, hread⟩, rfl, hr'⟩
    refine Ends.pure ⟨⟨clock, rfl⟩, ?_⟩
    intro batch hbat
    cases r' with
    | error e => simp only [Except.mapError, reduceCtorEq] at hr'
    | ok bytes' =>
      simp only [Except.mapError, Except.ok.injEq] at hr' hbat
      rcases hread bytes' rfl with ⟨record', hrec', hbytes⟩
      cases Option.mem_unique hrec hrec'
      rw [← hbat, OrderedLog.batchAt, bytesAt_eq hrec, hr', hbytes, take_of_length_le (by omega)]

theorem readLocations_yields (l : List BatchLocation)
    (hstored : ∀ b ∈ l, ∃ r, log.store.recordAt b.extentId b.recordIndex = some r ∧
      r.payload.length = b.encodedLen) :
    (readLocations l).Yields Ticked log fun batches _ => batches = l.map log.batchAt := by
  induction l generalizing log with
  | nil => exact Yields.pure rfl
  | cons b l ih =>
    rcases hstored b mem_cons_self with ⟨record, hrec, hlen⟩
    refine Yields.bind (readLocation_yields hrec hlen) fun batch log1 hticked hbat => ?_
    have hstored1 : ∀ b' ∈ l, ∃ r, log1.store.recordAt b'.extentId b'.recordIndex = some r ∧
        r.payload.length = b'.encodedLen := by
      intro b' hb'
      rcases hstored b' (mem_cons_of_mem b hb') with ⟨r, hr, hlen'⟩
      exact ⟨r, hticked.rotated.store.recordAt hr, hlen'⟩
    refine Yields.bind (ih hstored1) fun batches log2 _ hbatches => Yields.pure ?_
    rw [hbat, hbatches, hticked.batchAt, map_cons]

/-- The batches of a spaced log that reach an offset and end before another one. -/
def OrderedLog.between (log : OrderedLog) (offset visibleEnd : Nat) : List FetchedBatch :=
  log.contents.filter fun b => decide (offset ≤ b.lastOffset) && decide (b.lastOffset < visibleEnd)

/-- A fetch of everything that reaches an offset returns those batches of the
    log, and changes nothing. -/
theorem fetch_yields (hwf : WellFormed log) (offset : Nat) :
    (fetch offset (offsetLimit - 1) false).Yields Ticked log fun result _ =>
      result.batches = log.contents.filter (fun b => offset ≤ b.lastOffset) := by
  rcases hwf.tiled with ⟨start, htiles⟩
  have hcandidates := candidates_eq hwf offset
  unfold fetch
  refine Yields.get_bind (Yields.require_bind fun _ => ?_)
  have hvis : takeVisible log.nextOffset (offsetLimit - 1) 0 false (log.candidates offset) =
      log.locations.filter (fun b => offset ≤ b.lastOffset) := by
    rw [takeVisible_eq, hcandidates, takeWhile_eq_self_iff]
    intro b hb
    exact decide_eq_true (htiles.bounds (mem_of_mem_filter hb)).2.2
  simp only [Bool.false_eq_true, if_false, hvis]
  refine Yields.bind (readLocations_yields _ fun b hb =>
    hwf.stored b (mem_of_mem_filter hb)) fun batches log' _ hbatches => Yields.pure ?_
  rw [hbatches, contents_eq, filter_map]
  rfl

end Log

end Pepper
