import Pepper.Theory.Log.Upkeep

/-!
# A Replica's Log Over Time

Everything that one log goes through after it was opened over an empty store:
appends, commits, rotations, truncations, compactions and retention, in any
order and number.

In every state reached this way a fetch returns what the log holds between two
offsets, which are batches that were written, with the bytes they were written
with. `Removes` says which calls a batch can fall victim to. A committed one is
lost only to a compaction that was not asked to retain it and to reclaiming below
the start of the log.

The one condition is on offsets. The source checks that the last offset of a
batch exists, and then adds one to it without a check. A batch that ends at the
greatest offset makes the log end at zero, below its own watermark.

## Main definitions

* `LogOp.written`, `LogOp.Removes`: What a call adds to a log, and takes from it.
* `Recorded`, `record`: A log with all batches ever written to it.
* `Succeeds`: The guard of the runs.

## Theorems

* `Intact.fetch_ends`: What a fetch returns.
* `openLog_intact`: A log as it is opened first.
* `log_operations_refine`: The statement about whole runs.
* `append_passes_last_offset`: A run without the condition.
-/

namespace Pepper

namespace Log

open ExtentStore Fallible List

/-! ## Fetching -/

variable {log : OrderedLog}
  {b : BatchLocation} {config : LogConfig} {recovery : RecoveryState} {store : Store}
  {op : LogOp}

/-- On a store that performs its calls a stored batch is read. -/
theorem readLocation_performs (hperforms : log.store.Performs) {record : Record}
    (hrec : log.store.recordAt b.extentId b.recordIndex = some record)
    (hlen : record.payload.length = b.encodedLen) :
    (readLocation b).Ends log fun r log' => r = .ok (log.batchAt b) ∧
      log' = { log with store := { log.store with clock := log.store.clock + 1 } } := by
  rcases he : log.store.extents[b.extentId]? with _ | e
  · rw [Store.recordAt, he] at hrec
    exact absurd hrec (by simp)
  · have hfound : e.records[b.recordIndex]? = some record := by
      rw [Store.recordAt, he] at hrec
      exact hrec
    have hread : (Store.readRange b.extentId b.recordIndex 0 b.encodedLen).Ends log.store
        fun r store => r = .ok record.payload ∧
          store = { log.store with clock := log.store.clock + 1 } := by
      unfold Store.readRange
      refine find_bind (fun hnone => absurd (he.symm.trans hnone) (by simp)) fun e' he' => ?_
      cases Option.mem_unique he he'
      refine Ends.expect_some hfound (Ends.require_pos (by omega) ?_)
      refine Ends.bind (nextIo_bind (Ends.require (fun hc => absurd (hperforms _ le_rfl) hc)
        fun _ => Ends.pure ⟨?_, rfl⟩))
      rw [drop_zero, take_of_length_le (by omega)]
    unfold readLocation
    refine onStore_bind hread (fun e store herr => absurd herr.1 (by simp)) ?_
    rintro bytes store ⟨hbytes, rfl⟩
    rw [Except.ok.injEq] at hbytes
    refine Ends.pure ⟨?_, rfl⟩
    rw [OrderedLog.batchAt, bytesAt_eq hrec, hbytes]

theorem readLocations_performs (hperforms : log.store.Performs) (l : List BatchLocation)
    (hstored : ∀ b ∈ l, ∃ r,
      log.store.recordAt b.extentId b.recordIndex = some r ∧ r.payload.length = b.encodedLen) :
    (readLocations l).Ends log fun r _ => ∃ batches, r = .ok batches := by
  induction l generalizing log with
  | nil => exact Ends.pure ⟨[], rfl⟩
  | cons b l ih =>
    rcases hstored b mem_cons_self with ⟨record, hrec, hlen⟩
    unfold readLocations
    refine Ends.bind ((readLocation_performs hperforms hrec hlen).mono ?_)
    rintro _ log1 ⟨rfl, rfl⟩
    -- The next read is at a later clock, and finds the same records.
    have hrest : (readLocations l).Ends
        { log with store := { log.store with clock := log.store.clock + 1 } } _ :=
      ih (fun n hn => hperforms n (Nat.le_of_succ_le hn)) fun b' hb' =>
      hstored b' (mem_cons_of_mem b hb')
    refine Ends.bind (hrest.mono ?_)
    rintro _ log2 ⟨batches, rfl⟩
    exact Ends.pure ⟨_, rfl⟩

/-- What a fetch without a byte limit has to return. -/
def OrderedLog.visible (log : OrderedLog) (offset : Nat) (committedOnly : Bool) : FetchResult :=
  ⟨log.between offset (if committedOnly then log.highWatermark else log.nextOffset),
    log.highWatermark, log.logStartOffset, log.nextOffset⟩

theorem Intact.stored (h : Intact log) (hb : b ∈ log.locations) :
    ∃ r, log.store.recordAt b.extentId b.recordIndex = some r ∧
      r.payload.length = b.encodedLen := by
  rcases mem_flatMap.mp hb with ⟨s, hs, _⟩
  exact (h.mirrored (ne_nil_of_mem hs)).stored hb

/-- A fetch returns what is visible, or the error of a read that the store has
    refused. -/
theorem Intact.fetch_ends (h : Intact log) {offset : Nat} (hoff : log.logStartOffset ≤ offset)
    (committedOnly : Bool) :
    (fetch offset (offsetLimit - 1) committedOnly).Ends log fun r _ =>
      (∀ result, r = .ok result → result = log.visible offset committedOnly) ∧
        (log.store.Performs → ∃ result, r = .ok result) := by
  have hcandidates := h.candidates offset
  -- Without a byte limit everything below the end is read.
  have hread : ∀ visibleEnd, (takeVisible visibleEnd (offsetLimit - 1) 0 false
      (log.candidates offset)).map log.batchAt = log.between offset visibleEnd := by
    intro visibleEnd
    rw [takeVisible_eq, hcandidates, (h.spaced.sublist filter_sublist).takeWhile_eq_filter,
      filter_filter, OrderedLog.between, contents_eq, filter_map]
    congr 1
    refine filter_congr fun b _ => ?_
    exact Bool.and_comm _ _
  have hsublist : ∀ visibleEnd, ∀ b ∈ takeVisible visibleEnd (offsetLimit - 1) 0 false
      (log.candidates offset), b ∈ log.locations := by
    intro visibleEnd b hb
    rw [takeVisible_eq, hcandidates] at hb
    exact mem_of_mem_filter ((takeWhile_sublist _).mem hb)
  unfold fetch
  refine Ends.get_bind (Ends.require_pos hoff ?_)
  generalize hvis : (if committedOnly = true then log.highWatermark else log.nextOffset) =
    visibleEnd
  have hstored : ∀ b ∈ takeVisible visibleEnd (offsetLimit - 1) 0 false (log.candidates offset),
      ∃ r, log.store.recordAt b.extentId b.recordIndex = some r ∧ r.payload.length = b.encodedLen :=
    fun b hb => h.stored (hsublist visibleEnd b hb)
  have hdone : (readLocations (takeVisible visibleEnd (offsetLimit - 1) 0 false
      (log.candidates offset))).Ends log fun r _ =>
      log.store.Performs → ∃ batches, r = .ok batches :=
    fun hperforms => readLocations_performs hperforms _ hstored
  refine Ends.bind (Ends.mono (Ends.and (readLocations_yields _ hstored) hdone) ?_)
  rintro r log' ⟨⟨_, hbatches⟩, hok⟩
  cases r with
  | error e => exact ⟨by simp, fun hperforms => absurd (hok hperforms) (by simp)⟩
  | ok batches =>
    refine Ends.pure ⟨fun result hres => ?_, fun _ => ⟨_, rfl⟩⟩
    rw [← Except.ok.inj hres, hbatches batches rfl, hread, OrderedLog.visible, hvis]

/-! ## The first opening -/

/-- The active segment can be cut at the watermark, if the store performs the cut. -/
theorem Intact.cut_reliable (h : Intact log) {a : Segment} (ha : log.segments.getLast? = some a)
    (hopen : log.store.isSealed a.extentId = false) (hrel : log.store.Reliable) :
    (truncateActiveTo log.highWatermark).Ends log fun r _ => r = .ok () := by
  have hmem : a ∈ log.segments := mem_of_getLast? ha
  have hmir := h.mirrored (ne_nil_of_mem hmem)
  have hnone : a.sealed = none := by
    rw [← Option.not_isSome_iff_eq_none]
    intro hsome
    exact absurd ((h.shut a hmem hsome).symm.trans hopen) (by simp)
  have htiles := (h.ordered.holds a hmem).tiled hnone
  have hstarted := h.started a hmem
  have hend := h.endOffset_last ha
  have hcut := htiles.cut hstarted (le_of_le_of_eq h.committed hend.symm)
    fun b hb => h.clean b (mem_flatMap.mpr ⟨a, hmem, hb⟩)
  -- The watermark is a boundary of the active segment, so no check refuses it.
  unfold truncateActiveTo
  refine Ends.get_bind (Ends.require_pos ⟨le_rfl, h.committed⟩ ?_)
  refine active_bind (fun hnil => ?_) fun s hs => ?_
  · rw [ha] at hnil
    cases hnil
  cases Option.mem_unique ha hs
  refine Ends.require_pos ⟨hnone, hstarted⟩ ?_
  refine Ends.require_pos hcut.2 ?_
  by_cases hall : (a.batches.takeWhile fun b => b.lastOffset < log.highWatermark).length =
      a.batches.length
  · rw [if_neg (not_not.mpr hall)]
    exact Ends.bind (Ends.pure (Ends.modify rfl))
  · rw [if_pos hall]
    refine onStore_bind (P := fun r _ => r = .ok ()) ?_ (fun e _ he => by cases he) fun _ _ _ =>
      Ends.modify_bind (Ends.modify rfl)
    unfold Store.truncate
    refine find_bind (fun hmissing => ?_) fun e he => ?_
    · have hpre := (hmir.present a.extentId).mpr (mem_map_of_mem hmem)
      rw [Std.ExtTreeMap.mem_iff_isSome_getElem?, hmissing] at hpre
      cases hpre
    rw [Store.isSealed, he] at hopen
    refine Ends.require_pos hopen ?_
    refine Ends.require_pos ?_ ?_
    · have hlen := congrArg List.length (h.extent hmem he).1
      rw [length_recordLocations] at hlen
      exact hlen ▸ ( takeWhile_prefix _).length_le
    exact Ends.bind (nextIo_bind (Ends.require (fun hc => absurd (hrel _) hc) fun _ => rfl))

/-- The last step of an opening: the log that was scanned is cut at its
    watermark. -/
theorem cutToWatermark_opens {scanned : OrderedLog} (h : Intact scanned) {performs : Prop}
    (hperforms : performs →
      (truncateActiveTo scanned.highWatermark).Ends scanned fun r _ => r = .ok ()) (store : Store) :
    (cutToWatermark scanned).Ends store fun r _ =>
      (∀ log, r = .ok log → Intact log ∧ Steady scanned log ∧
        log.view = scanned.view.cut scanned.highWatermark) ∧
      (performs → ∃ log, r = .ok log) := by
  have hdone : (truncateActiveTo scanned.highWatermark).Ends scanned
      fun r _ => performs → r = .ok () := by
    by_cases hp : performs
    · exact (hperforms hp).mono fun _ _ hr _ => hr
    · exact (truncateActiveTo_refines h _).mono fun _ _ _ hc => absurd hc hp
  refine (cutToWatermark_ends ((truncateActiveTo_refines h scanned.highWatermark).and hdone)
    store).mono ?_
  rintro _ _ ⟨r, log', ⟨⟨hsteady, hintact, hcut⟩, hok⟩, rfl⟩
  cases r with
  | error e => exact ⟨by simp [Except.map], fun hp => absurd (hok hp) (by simp)⟩
  | ok u =>
    refine ⟨fun log hlog => ?_, fun _ => ⟨_, rfl⟩⟩
    simp only [Except.map, Except.ok.injEq] at hlog
    subst hlog
    exact ⟨hintact.of_eq rfl rfl rfl rfl, ⟨hsteady.config, hsteady.script⟩, hcut.2.2⟩

/-- The log over one empty extent, before anything is cut off. -/
theorem intact_blank {id : Nat}
    (hextents : store.extents = (∅ : BTreeMap Nat Extent).insert id ⟨[], false⟩)
    (hlogStart : recovery.logStartOffset ≤ recovery.highWatermark)
    (hlim : recovery.highWatermark < offsetLimit) :
    Intact (scannedLog config recovery [⟨id, recovery.highWatermark, 0, [], none⟩] store) := by
  refine ⟨⟨⟨recovery.highWatermark, rfl, le_rfl, rfl⟩, ?_, ?_⟩,
    fun _ => mirrored_blank hextents _ _ _, fun hnil => absurd hnil (cons_ne_nil _ _), ?_, ?_, ?_,
    ?_, hlogStart, le_rfl, hlim⟩
  · exact forall_mem_singleton.mpr (Segment.Holds.of_tiles rfl rfl)
  · intro s hs
    cases hs
  · exact forall_mem_singleton.mpr (by simp)
  · exact forall_mem_singleton.mpr (by simp)
  · exact forall_mem_singleton.mpr le_rfl
  · intro b hb
    cases hb

/-- Opening an empty store, whatever the store refuses: if it succeeds the log is
    empty and starts at the given watermark. -/
theorem openLog_intact (hempty : store.extents = ∅) (hlim : recovery.highWatermark < offsetLimit) :
    (openLog config recovery).Ends store fun r _ => (∀ log, r = .ok log →
      Intact log ∧ config.Valid ∧ log.config = config ∧ log.store.script = store.script ∧
        log.view = ⟨[], recovery.logStartOffset, recovery.highWatermark, recovery.highWatermark⟩) ∧
      (store.Reliable → config.Valid → recovery.logStartOffset ≤ recovery.highWatermark →
        ∃ log, r = .ok log) := by
  have hkeys : store.extents.keys = [] := by
    rw [hempty]
    rfl
  unfold openLog
  refine Ends.require_bind (fun hc => ⟨by simp, fun _ hv => absurd hv hc⟩) fun hval => Ends.bind ?_
  unfold scanStore
  refine extentIds_bind ?_
  rw [hkeys]
  refine Ends.bind (Ends.pure (Ends.require_pos rfl ?_))
  -- Nothing was scanned, so an extent is created.
  refine Ends.bind (Ends.bind ((fromStore_ends (create_ends store)).mono ?_))
  rintro _ store1 ⟨r, hcreated, rfl⟩
  cases r with
  | error e =>
    refine ⟨by simp, fun hrel => absurd ⟨hrel _, ?_⟩ hcreated.1⟩
    rw [hempty]
    exact Std.ExtTreeMap.not_mem_empty
  | ok id =>
    have hscript := congrArg Store.script hcreated.2.2.2
    have hextents := congrArg Store.extents hcreated.2.2.2
    rw [hempty] at hextents
    refine Ends.pure (Ends.require_pos rfl (Ends.pure ?_))
    refine Ends.require_bind (fun hc => ⟨by simp, fun _ _ h => absurd ⟨le_rfl, h⟩ hc⟩)
      fun hrange => ?_
    have hintact : Intact (scannedLog config recovery
        [⟨id, recovery.highWatermark, 0, [], none⟩] store1) :=
      intact_blank hextents hrange.2 hlim
    refine Ends.require_pos hintact.settled (Ends.get_bind ?_)
    refine (cutToWatermark_opens hintact (fun hrel : store.Reliable => ?_) store1).mono ?_
    · refine hintact.cut_reliable rfl ?_ fun n => ?_
      · show store1.isSealed id = false
        rw [Store.isSealed, hextents, getElem?_insert_eq, if_pos rfl]
        rfl
      · show (store1.script n).outcome = _
        rw [hscript]
        exact hrel n
    · rintro r _ ⟨hopened, hok⟩
      refine ⟨fun log hlog => ?_, fun hrel _ _ => hok hrel⟩
      rcases hopened log hlog with ⟨hlog, hsteady, hview⟩
      exact ⟨hlog, hval, hsteady.config, hsteady.script.trans hscript, hview⟩

/-! ## Calls -/

/-- The batches that a call writes when it succeeds. -/
def LogOp.written (log : OrderedLog) : LogOp → List FetchedBatch
  | .append epoch timestampMs count payload =>
    [⟨log.nextOffset, log.nextOffset + (count - 1), epoch, timestampMs, payload⟩]
  | .replicate _ recordEpoch base timestampMs count payload =>
    [⟨base, base + (count - 1), recordEpoch, timestampMs, payload⟩]
  | _ => []

/-- The batches that a call may take from a log. -/
def LogOp.Removes (log : OrderedLog) (b : FetchedBatch) : LogOp → Prop
  -- Only what is not committed is cut off.
  | .truncate _ command => log.highWatermark ≤ b.lastOffset ∧ command.truncateTo ≤ b.lastOffset
  | .compactSealed _ _ retained => b.baseOffset ∉ retained
  | .reclaimBelowLogStart _ => b.lastOffset < log.logStartOffset
  | _ => False

/-- What the abstract log says about the batches of a call that succeeded. -/
theorem Allows.batches {log' : OrderedLog} (h : log.view.Allows op true log'.view) :
    log.highWatermark ≤ log'.highWatermark ∧
      log'.contents.Sublist (log.contents ++ op.written log) ∧
      ∀ b ∈ log.contents ++ op.written log, b ∉ log'.contents → op.Removes log b := by
  -- Most calls lose no batch.
  have hpushed : ∀ {written}, log.highWatermark ≤ log'.highWatermark →
      log'.contents = log.contents ++ written →
      log.highWatermark ≤ log'.highWatermark ∧ log'.contents.Sublist (log.contents ++ written) ∧
        ∀ b ∈ log.contents ++ written, b ∉ log'.contents → op.Removes log b := by
    intro written hmark hcontents
    rw [hcontents]
    exact ⟨hmark, List.Sublist.refl _, fun b hb hnot => absurd hb hnot⟩
  have hsame : log.highWatermark ≤ log'.highWatermark → log'.contents = log.contents →
      log.highWatermark ≤ log'.highWatermark ∧ log'.contents.Sublist (log.contents ++ []) ∧
        ∀ b ∈ log.contents ++ [], b ∉ log'.contents → op.Removes log b :=
    fun hmark hcontents => hpushed hmark (hcontents.trans (append_nil _).symm)
  have hlost : log'.highWatermark = log.highWatermark → log'.contents.Sublist log.contents →
      (∀ b ∈ log.contents, b ∉ log'.contents → op.Removes log b) →
      log.highWatermark ≤ log'.highWatermark ∧ log'.contents.Sublist (log.contents ++ []) ∧
        ∀ b ∈ log.contents ++ [], b ∉ log'.contents → op.Removes log b := by
    intro hmark hsublist hremoved
    rw [append_nil]
    exact ⟨hmark.ge, hsublist, hremoved⟩
  cases op with
  | promiseEpoch ctl epoch =>
    exact hsame (congrArg LogView.highWatermark h).ge (congrArg LogView.batches h)
  | activateLeader ctl epoch =>
    exact hsame (congrArg LogView.highWatermark h).ge (congrArg LogView.batches h)
  | sealAndRotate epoch =>
    exact hsame (congrArg LogView.highWatermark h).ge (congrArg LogView.batches h)
  | append epoch timestampMs count payload =>
    exact hpushed (congrArg LogView.highWatermark h).ge (congrArg LogView.batches h)
  | replicate commandEpoch recordEpoch base timestampMs count payload =>
    exact hpushed (congrArg LogView.highWatermark h.2).ge (congrArg LogView.batches h.2)
  | commit epoch mark =>
    rcases h with ⟨hup, _, hview⟩
    exact hsame (le_of_le_of_eq hup (congrArg LogView.highWatermark hview).symm)
      (congrArg LogView.batches hview)
  | advanceLogStart ctl offset =>
    exact hsame (congrArg LogView.highWatermark h.2.2).ge (congrArg LogView.batches h.2.2)
  | truncate authority command =>
    rcases h with ⟨hmark, _, hview⟩
    have hcontents : log'.contents = log.contents.filter fun b =>
      b.lastOffset < command.truncateTo :=
      congrArg LogView.batches hview
    refine hlost (congrArg LogView.highWatermark hview) (hcontents ▸ filter_sublist) ?_
    intro b hb hnot
    rw [hcontents, mem_filter, decide_eq_true_eq] at hnot
    have hmark : log.highWatermark ≤ command.truncateTo := hmark
    have hcut : command.truncateTo ≤ b.lastOffset := Nat.le_of_not_lt fun hlt => hnot ⟨hb, hlt⟩
    exact ⟨hmark.trans hcut, hcut⟩
  | compactSealed leased extentId retained =>
    exact hlost h.highWatermark h.batches fun b hb hnot => (h.lost b hb hnot).1
  | reclaimBelowLogStart leased => exact hlost h.highWatermark h.batches h.lost

/-! ## Runs -/

/-- A log with everything that was ever written to it. -/
structure Recorded where
  log : OrderedLog
  written : List FetchedBatch

def record (s : Recorded) (op : LogOp) : Recorded :=
  ⟨(perform op s.log).2, s.written ++ op.written s.log⟩

/-- The call succeeds, and does not write the last offset there is. -/
def Succeeds (s : Recorded) (op : LogOp) : Prop :=
  (perform op s.log).1 = .ok () ∧ op.Fits s.log

instance instDecidableSucceeds (s : Recorded) (op : LogOp) : Decidable (Succeeds s op) :=
  inferInstanceAs (Decidable (_ ∧ _))

/-- One successful call: the invariant is kept, and the batches are those of the
    log before or the one that was written. -/
theorem record_keeps {s : Recorded} (h : Intact s.log) (hop : Succeeds s op) :
    Intact (record s op).log ∧ s.log.highWatermark ≤ (record s op).log.highWatermark ∧
      (record s op).log.contents.Sublist (s.log.contents ++ op.written s.log) ∧
      ∀ b ∈ s.log.contents ++ op.written s.log, b ∉ (record s op).log.contents →
        op.Removes s.log b := by
  have hstep := perform_refines h op hop.2
  unfold Ends at hstep
  rw [hop.1] at hstep
  rcases hstep.2 (Or.inr ⟨(), rfl⟩) with ⟨hintact, hallows⟩
  exact ⟨hintact, Allows.batches hallows⟩

/-- In every state that successful calls lead to, the marks of the log are in
    order, a fetch returns exactly the surviving batches in the range it asks
    for, and these were written as they are read. A further call does not lower
    the watermark, and takes from the log only the batches it may remove. -/
theorem log_operations_refine {config : LogConfig} {recovery : RecoveryState} {store store' : Store}
    {log : OrderedLog} {s : Recorded} (hempty : store.extents = ∅)
    (hlimit : recovery.highWatermark < offsetLimit)
    (hopened : openLog config recovery store = (.ok log, store'))
    (hrun : Reaches record Succeeds ⟨log, []⟩ s) :
    s.log.logStartOffset ≤ s.log.highWatermark ∧ s.log.highWatermark ≤ s.log.nextOffset ∧
      s.log.contents.Sublist s.written ∧
      s.log.contents.Pairwise (fun a b => a.lastOffset < b.baseOffset) ∧
      (∀ offset committedOnly, s.log.logStartOffset ≤ offset →
        (fetch offset (offsetLimit - 1) committedOnly).Ends s.log fun r _ =>
          (∀ result, r = .ok result → result = s.log.visible offset committedOnly) ∧
            (s.log.store.Performs → ∃ result, r = .ok result)) ∧
      ∀ op, Succeeds s op → s.log.highWatermark ≤ (record s op).log.highWatermark ∧
        ∀ b ∈ s.log.contents ++ op.written s.log, b ∉ (record s op).log.contents →
          op.Removes s.log b := by
  rcases ((openLog_intact hempty hlimit).of_eq hopened).1 log rfl with ⟨hopen, _, _, _, hview⟩
  have hinvariant : Intact s.log ∧ s.log.contents.Sublist s.written := by
    refine hrun.invariant (I := fun s => Intact s.log ∧ s.log.contents.Sublist s.written) ?_ ?_
    · intro s op hs hop
      rcases record_keeps hs.1 hop with ⟨hintact, _, hsublist, _⟩
      exact ⟨hintact, hsublist.trans (hs.2.append (List.Sublist.refl _))⟩
    · have hnil : log.contents = [] := congrArg LogView.batches hview
      refine ⟨hopen, ?_⟩
      rw [hnil]
  rcases hinvariant with ⟨hintact, hwritten⟩
  refine ⟨hintact.logStart, hintact.committed, hwritten, ?_, ?_, ?_⟩
  · rw [contents_eq, pairwise_map]
    exact hintact.spaced.ordered
  · intro offset committedOnly hoffset
    exact hintact.fetch_ends hoffset committedOnly
  · intro op hop
    rcases record_keeps hintact hop with ⟨_, hmark, _, hremoved⟩
    exact ⟨hmark, hremoved⟩

/-- A store without extents that performs every call. -/
def blankStore : Store :=
  ⟨∅, fun n => ⟨.done, n⟩, 0⟩

/-- The log that is opened over it. -/
def openedBlank (config : LogConfig) (recovery : RecoveryState) : OrderedLog :=
  match (openLog config recovery blankStore).1 with
  | .ok log => log
  | .error _ => .empty

/-- Three batches in one segment, of which a compaction drops the second one. -/
def compactingRun : List LogOp :=
  [.promiseEpoch 1 1, .activateLeader 1 1, .append 1 10 1 [1], .append 1 11 2 [2],
    .append 1 12 1 [3], .commit 1 4, .sealAndRotate 1, .compactSealed false 0 ∅,
    .append 1 13 1 [4]]

def compacted : Recorded :=
  runOps record ⟨openedBlank ⟨0, 1, 100, 3⟩ ⟨0, 0, 0⟩, []⟩ compactingRun

theorem log_operations_refine_compacting :
    compacted.log.visible 1 false = ⟨[⟨3, 3, 1, 12, [3]⟩, ⟨4, 4, 1, 13, [4]⟩], 4, 0, 5⟩ ∧
      (fetch 1 (offsetLimit - 1) false).Ends compacted.log fun r _ =>
        ∀ result, r = .ok result → result = compacted.log.visible 1 false := by
  refine ⟨by decide +kernel, ?_⟩
  have hopened : openLog ⟨0, 1, 100, 3⟩ ⟨0, 0, 0⟩ blankStore =
    (.ok (openedBlank ⟨0, 1, 100, 3⟩ ⟨0, 0, 0⟩), _) := rfl
  have hrun : Reaches record Succeeds ⟨openedBlank ⟨0, 1, 100, 3⟩ ⟨0, 0, 0⟩, []⟩ compacted :=
    reaches_runOps _ compactingRun (by decide +kernel)
  exact ((log_operations_refine rfl (by decide) hopened hrun).2.2.2.2.1 1 false
    (by decide +kernel)).mono fun _ _ hr => hr.1

def lastOffsetRun : List LogOp :=
  [.promiseEpoch 1 1, .activateLeader 1 1, .append 1 10 1 [1]]

/-- A log that is opened at the last offset there is. The append has an offset to
    write to, and the log then ends below its watermark. -/
theorem append_passes_last_offset :
    (openLog ⟨0, 1, 100, 3⟩ ⟨0, 2 ^ 64 - 1, 2 ^ 64 - 1⟩ blankStore).1.isOk = true ∧
      Admits record (fun s op => (perform op s.log).1 = .ok ())
        ⟨openedBlank ⟨0, 1, 100, 3⟩ ⟨0, 2 ^ 64 - 1, 2 ^ 64 - 1⟩, []⟩ lastOffsetRun ∧
      (runOps record ⟨openedBlank ⟨0, 1, 100, 3⟩ ⟨0, 2 ^ 64 - 1, 2 ^ 64 - 1⟩, []⟩
        lastOffsetRun).log.nextOffset = 0 ∧
      (runOps record ⟨openedBlank ⟨0, 1, 100, 3⟩ ⟨0, 2 ^ 64 - 1, 2 ^ 64 - 1⟩, []⟩
        lastOffsetRun).log.highWatermark = 2 ^ 64 - 1 := by
  decide +kernel

end Log

end Pepper
