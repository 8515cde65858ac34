import Pepper.Theory.Log.Intact

/-!
# What a Log Is For

A log without its segments, extents and indices: a list of batches with a start,
a watermark and an end. `Allows` says what each call may do to it, and that is all
a user of a log has to know.

The rest of the module takes the calls of `OrderedLog` one after the other and
shows that each keeps the invariant and does to the view of the log what
`Allows` says, whether it succeeds or fails. A failed call leaves the view as it
was. The exception is reclaiming, which may stop half way. The calls that work
on sealed segments have a module of their own.

A machine that reports an error after the effect of a call can take an extent
away under the log's index. Failed calls are therefore followed on stores that
do not do that; for successful calls nothing is assumed.

## Main definitions

* `LogView`, `OrderedLog.view`: The abstract log, and how a log is one.
* `LogView.Allows`: What a call may do to the view.

## Theorems

* `rotateActive_keeps`, `appendAssigned_refines`, `truncateActiveTo_refines`: The
  calls that work on the active segment.
* `commit_refines`, `advanceLogStart_refines`: The calls that move a mark.
-/

namespace Pepper

open List

namespace ExtentStore

open Fallible

/-- A cut takes the end of one open extent away, or nothing. -/
theorem truncate_ends (s : Store) (id count : Nat) : (Store.truncate id count).Ends s fun r s' =>
      match r with
      | .ok _ => ∃ e, s.extents[id]? = some e ∧ s' = { s with
          extents := s.extents.insert id { e with records := e.records.take count }
          clock := s.clock + 1 }
      | .error _ => ∃ clock, s' = { s with clock } := by
  unfold Store.truncate
  refine find_bind (fun _ => ⟨s.clock, rfl⟩) fun e he => ?_
  refine Ends.require_bind (fun _ => ⟨s.clock, rfl⟩) fun _ => ?_
  refine Ends.require_bind (fun _ => ⟨s.clock, rfl⟩) fun _ => perform_bind ⟨_, rfl⟩ ?_
  exact Ends.modify ⟨e, he, rfl⟩

/-- On an atomic store a call is refused or performed. -/
theorem Store.Atomic.cases {s : Store} (h : s.Atomic) {n : Nat}
    (hdone : (s.script n).outcome ≠ .done) (href : (s.script n).outcome ≠ .refused) : False := by
  cases hout : (s.script n).outcome with
  | done => exact hdone hout
  | refused => exact href hout
  | late => exact h n hout

/-- A reclaimed extent is gone. On an atomic store it is there as before when the
    call has failed. -/
theorem reclaim_ends (s : Store) (leased : Bool) (id : Nat) :
    (Store.reclaim leased id).Ends s fun r s' => s'.script = s.script ∧
      (∀ e, r = .error e → s.Atomic → s'.extents = s.extents) ∧
      ∀ u, r = .ok u → s'.extents = s.extents.erase id := by
  unfold Store.reclaim
  refine find_bind (fun _ => ⟨rfl, fun _ _ _ => rfl, by simp⟩) fun e he => ?_
  refine Ends.require_bind (fun _ => ⟨rfl, fun _ _ _ => rfl, by simp⟩) fun _ => ?_
  refine Ends.require_bind (fun _ => ⟨rfl, fun _ _ _ => rfl, by simp⟩) fun _ => ?_
  refine nextIo_bind (Ends.require_bind (fun _ => ⟨rfl, fun _ _ _ => rfl, by simp⟩) fun hc => ?_)
  -- The call was neither refused nor performed, so its error came late.
  exact Ends.modify_bind (Ends.require
    (fun hlate => ⟨rfl, fun _ _ hatomic => (hatomic.cases hlate hc).elim, by simp⟩)
    fun _ => ⟨rfl, by simp, fun _ _ => rfl⟩)

/-- A replaced extent is gone, and a sealed one with the given records is there. -/
theorem replaceSealed_ends (s : Store) (leased : Bool) (id : Nat) (records : List Record) :
    (Store.replaceSealed leased id records).Ends s fun r s' => s'.script = s.script ∧
      (∀ e, r = .error e → s.Atomic → s'.extents = s.extents) ∧
      ∀ newId, r = .ok newId → newId ∉ s.extents ∧
        s'.extents = (s.extents.erase id).insert newId ⟨records, true⟩ := by
  unfold Store.replaceSealed
  refine Ends.require_bind (fun _ => ⟨rfl, fun _ _ _ => rfl, by simp⟩) fun _ => ?_
  refine find_bind (fun _ => ⟨rfl, fun _ _ _ => rfl, by simp⟩) fun e he => ?_
  refine Ends.require_bind (fun _ => ⟨rfl, fun _ _ _ => rfl, by simp⟩) fun _ => ?_
  refine Ends.require_bind (fun _ => ⟨rfl, fun _ _ _ => rfl, by simp⟩) fun _ => ?_
  refine nextIo_bind (Ends.get_bind ?_)
  refine Ends.require_bind (fun _ => ⟨rfl, fun _ _ _ => rfl, by simp⟩) fun hc => ?_
  refine Ends.modify_bind (Ends.require_bind
    (fun hlate => ⟨rfl, fun _ _ hatomic => (hatomic.cases hlate hc.1).elim, by simp⟩)
    fun _ => Ends.pure ⟨rfl, by simp, ?_⟩)
  rintro _ ⟨⟩
  exact ⟨hc.2, rfl⟩

end ExtentStore

namespace Log

open ExtentStore Fallible

/-! ## The abstract log -/

/-- A log as its users see it. -/
@[ext]
structure LogView where
  batches : List FetchedBatch
  logStart : Nat
  highWatermark : Nat
  logEnd : Nat

def OrderedLog.view (log : OrderedLog) : LogView :=
  ⟨log.contents, log.logStartOffset, log.highWatermark, log.nextOffset⟩

namespace LogView

/-- A batch is added at the end. -/
def push (v : LogView) (b : FetchedBatch) : LogView :=
  { v with batches := v.batches ++ [b], logEnd := b.lastOffset + 1 }

/-- The end is cut off. -/
def cut (v : LogView) (offset : Nat) : LogView :=
  { v with
    batches := v.batches.filter fun b => b.lastOffset < offset, logEnd := offset }

/-- Some batches are gone, all of which satisfy a condition. -/
structure Lost (P : FetchedBatch → Prop) (v v' : LogView) : Prop where
  batches : v'.batches.Sublist v.batches
  lost : ∀ b ∈ v.batches, b ∉ v'.batches → P b
  logStart : v'.logStart = v.logStart
  highWatermark : v'.highWatermark = v.highWatermark
  logEnd : v'.logEnd = v.logEnd

theorem Lost.refl (P : FetchedBatch → Prop) (v : LogView) : Lost P v v :=
  ⟨List.Sublist.refl _, fun _ hb hnot => absurd hb hnot, rfl, rfl, rfl⟩

theorem Lost.trans {P : FetchedBatch → Prop} {a b c : LogView} (hab : Lost P a b)
    (hbc : Lost P b c) : Lost P a c := by
  refine ⟨hbc.batches.trans hab.batches, ?_, hbc.logStart.trans hab.logStart,
    hbc.highWatermark.trans hab.highWatermark, hbc.logEnd.trans hab.logEnd⟩
  intro x hx hnot
  by_cases hb : x ∈ b.batches
  · exact hbc.lost x hb hnot
  · exact hab.lost x hx hb

/-- What a call may do to a log, given whether it has succeeded. -/
def Allows (v : LogView) : LogOp → Bool → LogView → Prop
  -- Reclaiming may have taken some extents away before it failed.
  | .reclaimBelowLogStart _, _, v' => Lost (fun b => b.lastOffset < v.logStart) v v'
  | _, false, v' => v' = v
  | .append epoch timestampMs count payload, true, v' =>
    v' = v.push ⟨v.logEnd, v.logEnd + (count - 1), epoch, timestampMs, payload⟩
  | .replicate _ recordEpoch baseOffset timestampMs count payload, true, v' =>
    baseOffset = v.logEnd ∧
      v' = v.push ⟨baseOffset, baseOffset + (count - 1), recordEpoch, timestampMs, payload⟩
  | .commit _ highWatermark, true, v' =>
    v.highWatermark ≤ highWatermark ∧ highWatermark ≤ v.logEnd ∧ v' = { v with highWatermark }
  | .truncate _ command, true, v' =>
    v.highWatermark ≤ command.truncateTo ∧ command.truncateTo ≤ v.logEnd ∧
      v' = v.cut command.truncateTo
  | .compactSealed _ _ retained, true, v' =>
    Lost (fun b => b.baseOffset ∉ retained ∧ b.lastOffset < v.highWatermark) v v'
  | .advanceLogStart _ offset, true, v' =>
    v.logStart ≤ offset ∧ offset ≤ v.highWatermark ∧ v' = { v with logStart := offset }
  | .promiseEpoch _ _, true, v' => v' = v
  | .activateLeader _ _, true, v' => v' = v
  | .sealAndRotate _, true, v' => v' = v

end LogView

/-! ## Calls that leave the view alone -/

/-- The log has its configuration, and its store its script. A store that never
    reports an error after an effect never starts to. -/
structure Steady (log log' : OrderedLog) : Prop where
  config : log'.config = log.config
  script : log'.store.script = log.store.script

theorem Steady.refl (log : OrderedLog) : Steady log log :=
  ⟨rfl, rfl⟩

theorem Steady.trans {a b c : OrderedLog} (hab : Steady a b) (hbc : Steady b c) : Steady a c :=
  ⟨hbc.config.trans hab.config, hbc.script.trans hab.script⟩

variable {log log' : OrderedLog} {a : Segment}

section

variable (h : Intact log)

include h

/-- The invariant reads only the index, the store and the marks. -/
theorem Intact.of_eq (hconfig : log'.config = log.config) (hsegments : log'.segments = log.segments)
    (hstore : log'.store = log.store) (hview : log'.view = log.view) : Intact log' := by
  have hlocations : log'.locations = log.locations := by
    rw [OrderedLog.locations, OrderedLog.locations, hsegments]
  have hstart : log'.logStartOffset = log.logStartOffset := congrArg LogView.logStart hview
  have hmark : log'.highWatermark = log.highWatermark := congrArg LogView.highWatermark hview
  have hend : log'.nextOffset = log.nextOffset := congrArg LogView.logEnd hview
  constructor
  · rw [hsegments, hend]
    exact h.ordered
  · rw [hsegments, hconfig, hstore]
    exact h.mirrored
  · rw [hsegments, hstore]
    exact h.vacant
  · rw [hsegments, hstore]
    exact h.shut
  · rw [hsegments, hmark]
    exact h.settled
  · rw [hsegments, hmark]
    exact h.started
  · rw [hlocations, hmark]
    exact h.clean
  · rw [hstart, hmark]
    exact h.logStart
  · rw [hmark, hend]
    exact h.committed
  · rw [hend]
    exact h.bounded

theorem promiseEpoch_keeps (ctl epoch : Nat) : (promiseEpoch ctl epoch).Ends log fun _ log' =>
      Steady log log' ∧ Intact log' ∧ log'.view = log.view := by
  unfold promiseEpoch
  refine Ends.get_bind (Ends.require_bind (fun _ => ⟨Steady.refl log, h, rfl⟩) fun _ => ?_)
  exact Ends.modify ⟨⟨rfl, rfl⟩, h.of_eq rfl rfl rfl rfl, rfl⟩

theorem activateLeader_keeps (ctl epoch : Nat) : (activateLeader ctl epoch).Ends log fun _ log' =>
      Steady log log' ∧ Intact log' ∧ log'.view = log.view := by
  unfold activateLeader
  refine Ends.get_bind (Ends.require_bind (fun _ => ⟨Steady.refl log, h, rfl⟩) fun _ => ?_)
  exact Ends.modify ⟨⟨rfl, rfl⟩, h.of_eq rfl rfl rfl rfl, rfl⟩

/-- A store call that left every extent as it was. -/
theorem Intact.unmoved {store : Store} (hextents : store.extents = log.store.extents) :
    Intact { log with store } ∧ OrderedLog.view { log with store } = log.view := by
  have hsealed : ∀ id, store.isSealed id = log.store.isSealed id := by
    intro id
    rw [Store.isSealed, Store.isSealed, hextents]
  have hintact : Intact { log with store } := by
    refine ⟨h.ordered, fun hne => (h.mirrored hne).of_extents hextents, fun hnil => ?_, ?_,
      h.settled,
      h.started, h.clean, h.logStart, h.committed, h.bounded⟩
    · rw [← h.vacant hnil]
      exact hextents
    · intro s hs hsome
      rw [hsealed]
      exact h.shut s hs hsome
  refine ⟨hintact, LogView.ext ?_ rfl rfl rfl⟩
  show OrderedLog.contents { log with store } = log.contents
  rw [hintact.contents, h.contents]
  refine batchesOf_congr fun s _ => ?_
  rw [Store.records, Store.records, hextents]

/-! ## Rotation -/

/-- The last segment is exchanged in index and store, for one that starts where
    it did and has its extent. -/
theorem Intact.setLast (ha : log.segments.getLast? = some a) (a' : Segment)
    {e : Extent} (he : log.store.extents[a.extentId]? = some e) (e' : Extent) (clock : Nat)
    {hi : Nat} (hid : a'.extentId = a.extentId) (hbase : a'.baseOffset = a.baseOffset)
    (hholds : a'.Holds) (hend : a'.endOffset = hi) (hmark : log.highWatermark ≤ hi)
    (hlim : hi < offsetLimit) (hseals : e.sealed = true → e'.sealed = true)
    (hbatches : a'.batches = recordLocations a.extentId 0 e'.records)
    (hkeyed : ∀ r ∈ e'.records, r.identity.partitionKey = log.config.partitionKey)
    (hstates : a'.sealed.isSome = true → e'.sealed = true ∧ a'.endOffset ≤ log.highWatermark)
    (hclean : ∀ b ∈ a'.batches, b.lastOffset < log.highWatermark ∨
      log.highWatermark ≤ b.baseOffset) :
    Intact { log with
      store := { log.store with extents := log.store.extents.insert a.extentId e', clock }
      segments := log.segments.dropLast ++ [a'], nextOffset := hi } ∧
    batchesOf (log.segments.dropLast ++ [a'])
        { log.store with extents := log.store.extents.insert a.extentId e', clock } =
      batchesOf log.segments.dropLast log.store ++ e'.records.map batchOf := by
  have htouched := Store.touched_put he e' clock
  have hrecords := records_insert log.store a.extentId e' clock
  have hsplit := segments_eq ha
  have hne : log.segments ≠ [] := by
    rw [← hsplit]
    simp
  have hmem : a ∈ log.segments := mem_of_getLast? ha
  have hord : Ordered (log.segments.dropLast ++ [a]) log.nextOffset := hsplit.symm ▸ h.ordered
  have hmir := mirrored_split (h.mirrored hne) ha
  have hstarted := h.started a hmem
  refine ⟨⟨hord.setLast hbase hend (hstarted.trans hmark) hholds,
    fun _ => hmir.replace hid htouched (hrecords.symm ▸ hbatches) (hrecords.symm ▸ hkeyed),
    fun hnil => absurd hnil (by simp), ?_, ?_, ?_, ?_, h.logStart, hmark, hlim⟩, ?_⟩
  · refine forall_mem_concat (fun s hs hsome => ?_) fun hsome => ?_
    · exact Store.keepsSeals_put he e' hseals clock _ (h.shut s (mem_of_mem_dropLast hs) hsome)
    · rw [hid, Store.isSealed, getElem?_insert_eq, if_pos rfl]
      exact (hstates hsome).1
  · exact forall_mem_concat (fun s hs => h.settled s (mem_of_mem_dropLast hs))
      fun hsome => (hstates hsome).2
  · exact forall_mem_concat (fun s hs => h.started s (mem_of_mem_dropLast hs))
      (hbase.trans_le hstarted)
  · refine forall_mem_flatMap.mpr (forall_mem_concat (fun s hs b hb => ?_) hclean)
    exact h.clean b (mem_flatMap.mpr ⟨s, mem_of_mem_dropLast hs, hb⟩)
  · rw [batchesOf_append]
    congr 1
    · exact batchesOf_congr fun s hs => htouched.records _ (hmir.ne_last hs)
    · rw [batchesOf_cons, hid, hrecords]
      exact append_nil _

theorem Intact.endOffset_last (ha : log.segments.getLast? = some a) :
    a.endOffset = log.nextOffset :=
  Ordered.last ((segments_eq ha).symm ▸ h.ordered)

/-- What the log held before, split at the last segment. -/
theorem Intact.contents_split (ha : log.segments.getLast? = some a) :
    log.contents = batchesOf log.segments.dropLast log.store ++
      (log.store.records a.extentId).map batchOf := by
  rw [h.contents]
  nth_rewrite 1 [← segments_eq ha]
  rw [batchesOf_append, batchesOf_cons]
  congr 1
  exact append_nil _

/-- What is known of the extent of a segment. -/
theorem Intact.extent (ha : a ∈ log.segments) {e : Extent}
    (he : log.store.extents[a.extentId]? = some e) :
    a.batches = recordLocations a.extentId 0 e.records ∧
      ∀ r ∈ e.records, r.identity.partitionKey = log.config.partitionKey := by
  have hmir := h.mirrored (ne_nil_of_mem ha)
  rw [← records_of_getElem? he]
  exact ⟨hmir.batches a ha, hmir.keyed a ha⟩

/-- A new segment is put behind sealed ones. -/
theorem Intact.push (hclosed : ∀ s ∈ log.segments, s.batches ≠ [] ∧ s.sealed.isSome = true)
    (hne : log.segments ≠ []) {id : Nat} (hnew : id ∉ log.store.extents) (clock : Nat) :
    Intact { log with
      segments := log.segments ++ [⟨id, log.nextOffset, 0, [], none⟩]
      store := { log.store with extents := log.store.extents.insert id ⟨[], false⟩, clock } } := by
  have hmir : Mirrored log.config.partitionKey (log.segments ++ [⟨id, log.nextOffset, 0, [], none⟩])
      { log.store with extents := log.store.extents.insert id ⟨[], false⟩, clock } :=
    (h.mirrored hne).push (fun s hs => h.shut s hs (hclosed s hs).2) hnew rfl log.nextOffset
  refine ⟨h.ordered.push hclosed id, fun _ => hmir, fun hnil => absurd hnil (by simp), ?_, ?_,
    ?_, ?_, h.logStart, h.committed, h.bounded⟩
  · refine forall_mem_concat (fun s hs _ => ?_) (by simp)
    exact hmir.sealed s (by rwa [dropLast_concat])
  · exact forall_mem_concat h.settled (by simp)
  · refine forall_mem_concat h.started ?_
    -- All of the log lies in sealed segments, which are committed.
    rcases h.ordered.last_le hne with ⟨a, ha, hend⟩
    exact hend ▸ h.settled a ha (hclosed a ha).2
  · intro b hb
    rw [OrderedLog.locations, flatMap_append, flatMap_singleton, append_nil] at hb
    exact h.clean b hb

end

/-- No step of a rotation is seen from outside. -/
theorem Turn.keeps (hturn : Turn log log') (h : Intact log) :
    Intact log' ∧ log'.view = log.view := by
  have hrotated := hturn.rotated
  have hcontents : log'.contents = log.contents := by
    refine contents_extends (fun b hb => ?_) hrotated.locations hrotated.store
    rcases mem_flatMap.mp hb with ⟨s, hs, _⟩
    exact ((h.mirrored (ne_nil_of_mem hs)).stored hb).imp fun _ hr => hr.1
  refine ⟨?_, LogView.ext hcontents hrotated.logStartOffset hrotated.highWatermark
    hrotated.nextOffset⟩
  cases hturn with
  | tick clock =>
    have hsame : Store.extents { log.store with clock } = log.store.extents := rfl
    exact (h.unmoved hsame).1
  | @shut a e manifest hlast hfil hcom hextent hmanifest clock =>
    have hmem : a ∈ log.segments := mem_of_getLast? hlast
    have hholds := h.ordered.holds a hmem
    have hend := h.endOffset_last hlast
    rcases h.extent hmem hextent with ⟨hbatches, hkeyed⟩
    refine (h.setLast hlast { a with sealed := manifest } hextent { e with sealed := true } clock
      rfl rfl ?_ hend h.committed h.bounded (fun _ => rfl) hbatches hkeyed
      (fun _ => ⟨rfl, hcom⟩) fun b hb => h.clean b (mem_flatMap.mpr ⟨a, hmem, hb⟩)).1
    rcases hmanifest with rfl | rfl
    · exact hholds
    · exact ⟨hholds.spaced, hholds.first, hholds.ends, by simp,
        fun m hm => (Option.some.inj hm).symm, fun _ _ => hfil⟩
  | @push a e id hlast hfil hsealed _ _ hfresh clock =>
    refine h.push ?_ (ne_nil_of_mem (mem_of_getLast? hlast)) hfresh clock
    rw [← segments_eq hlast]
    exact forall_mem_concat h.ordered.closed ⟨hfil, hsealed⟩

theorem Turns.keeps (hturns : Turns log log') (h : Intact log) :
    Steady log log' ∧ Intact log' ∧ log'.view = log.view := by
  induction hturns with
  | refl => exact ⟨Steady.refl log, h, rfl⟩
  | tail _ hturn ih =>
    rcases hturn.keeps ih.2.1 with ⟨hintact, hview⟩
    refine ⟨ih.1.trans ⟨hturn.rotated.config, ?_⟩, hintact, hview.trans ih.2.2⟩
    cases hturn <;> rfl

theorem rotateActive_keeps (h : Intact log) :
    rotateActive.Ends log fun _ log' => Steady log log' ∧ Intact log' ∧ log'.view = log.view :=
  (rotateActive_turns.ends log).mono fun _ _ hturns => Turns.keeps hturns h

theorem sealAndRotate_keeps (h : Intact log) (epoch : Nat) :
    (sealAndRotate epoch).Ends log fun _ log' =>
      Steady log log' ∧ Intact log' ∧ log'.view = log.view := by
  unfold sealAndRotate
  exact Ends.get_bind (Ends.require_bind (fun _ => ⟨Steady.refl log, h, rfl⟩) fun _ =>
    rotateActive_keeps h)

/-! ## Appends -/

/-- Storing a batch at the end of the log. The extent is open when the store has
    taken the record, so the segment is too. -/
theorem Stored.refines {epoch baseOffset lastOffset timestampMs : Nat} {payload : List UInt8}
    (hstored : Stored log epoch baseOffset lastOffset timestampMs payload log') (h : Intact log)
    (hbase : baseOffset = log.nextOffset) (hspan : baseOffset ≤ lastOffset)
    (hlim : lastOffset + 1 < offsetLimit) :
    Steady log log' ∧ Intact log' ∧
      log'.view = log.view.push ⟨baseOffset, lastOffset, epoch, timestampMs, payload⟩ := by
  rcases hstored with @⟨a, e, ha, he, hopen, clock⟩
  have hmem : a ∈ log.segments := mem_of_getLast? ha
  rcases h.extent hmem he with ⟨hbatches, hkeyed⟩
  have hnone : a.sealed = none := by
    rw [← Option.not_isSome_iff_eq_none]
    intro hsome
    have hshut := h.shut a hmem hsome
    rw [Store.isSealed, he, Option.elim_some, hopen] at hshut
    cases hshut
  have hend := h.endOffset_last ha
  have hholds := (h.ordered.holds a hmem).withBatch hnone
    (b := ⟨baseOffset, lastOffset, epoch, timestampMs, a.extentId, e.records.length,
        payload.length⟩)
    (hbase.trans hend.symm) hspan hlim
  have hmark : log.highWatermark ≤ lastOffset + 1 := by
    have := h.committed
    omega
  refine (h.setLast ha (a.withBatch _) he { e with
      records := e.records ++ [⟨⟨log.config.partitionKey, epoch, baseOffset, lastOffset,
        timestampMs⟩, payload⟩] } clock rfl hholds.2.1 hholds.1 hholds.2.2 hmark hlim id
    (by rw [recordLocations_append, ← hbatches, Nat.zero_add]; rfl) (forall_mem_concat hkeyed rfl)
    (fun hsome => absurd (hnone ▸ hsome) (by simp)) ?_).elim fun hintact hcontents => ?_
  · exact forall_mem_concat (fun b hb => h.clean b (mem_flatMap.mpr ⟨a, hmem, hb⟩))
      (Or.inr (hbase ▸ h.committed))
  · have hnext : wrappingSucc lastOffset = lastOffset + 1 := wrappingSucc_eq hlim
    refine ⟨⟨rfl, rfl⟩, hintact.of_eq rfl rfl rfl (LogView.ext rfl rfl rfl hnext),
      LogView.ext ?_ rfl rfl hnext⟩
    refine hintact.contents.trans (hcontents.trans ?_)
    rw [map_append, ← append_assoc, ← records_of_getElem? he, ← h.contents_split ha]
    rfl

theorem appendAssigned_refines (h : Intact log) (epoch baseOffset timestampMs count : Nat)
    (payload : List UInt8) (hlim : log.nextOffset + count < offsetLimit) :
    (appendAssigned epoch baseOffset timestampMs count payload).Ends log fun r log' =>
      Steady log log' ∧ Intact log' ∧ match r with
        | .ok _ => baseOffset = log.nextOffset ∧ log'.view = log.view.push
            ⟨baseOffset, baseOffset + (count - 1), epoch, timestampMs, payload⟩
        | .error _ => log'.view = log.view := by
  refine (appendAssigned_cases log epoch baseOffset timestampMs count payload).mono ?_
  rintro r log' ⟨log1, hturns, _, hr⟩
  rcases hturns.keeps h with ⟨hsteady, hintact, hview⟩
  cases r with
  | error e => exact hr ▸ ⟨hsteady, hintact, hview⟩
  | ok result =>
    rcases hr with ⟨hbase, hcount, _, hstored⟩
    rcases hstored.refines hintact (hbase.trans hturns.rotated.nextOffset.symm)
      (Nat.le_add_right _ _) (by omega) with ⟨hsteady', hintact', hview'⟩
    exact ⟨hsteady.trans hsteady', hintact', hbase, hview ▸ hview'⟩

/-! ## Truncation -/

/-- The batches of closed segments lie below the watermark. -/
theorem Intact.closed_below (h : Intact log) {x : FetchedBatch}
    (hx : x ∈ batchesOf log.segments.dropLast log.store) : x.lastOffset < log.highWatermark := by
  rcases mem_flatMap.mp hx with ⟨s, hs, hxs⟩
  have hmem := mem_of_mem_dropLast hs
  rw [← (h.mirrored (ne_nil_of_mem hmem)).map_batchAt hmem] at hxs
  rcases mem_map.mp hxs with ⟨b, hb, rfl⟩
  have hend := (h.ordered.holds s hmem).ends b hb
  exact lt_of_lt_of_le hend (h.settled s hmem (h.ordered.closed s hs).2)

/-- Truncating the active segment. The offset is the end of the log, and then
    nothing is cut, or the start of a batch of the segment. -/
theorem truncateActiveTo_refines (h : Intact log) (offset : Nat) :
    (truncateActiveTo offset).Ends log fun r log' =>
      Steady log log' ∧ Intact log' ∧ match r with
        | .ok _ => log.highWatermark ≤ offset ∧ offset ≤ log.nextOffset ∧
            log'.view = log.view.cut offset
        | .error _ => log'.view = log.view := by
  unfold truncateActiveTo
  refine Ends.get_bind (Ends.require_bind (fun _ => ⟨Steady.refl log, h, rfl⟩) fun hrange => ?_)
  refine active_bind (fun _ => ⟨Steady.refl log, h, rfl⟩) fun a ha => ?_
  refine Ends.require_bind (fun _ => ⟨Steady.refl log, h, rfl⟩) fun hact => ?_
  refine Ends.require_bind (fun _ => ⟨Steady.refl log, h, rfl⟩) fun hboundary => ?_
  have hmem : a ∈ log.segments := mem_of_getLast? ha
  have hmir := h.mirrored (ne_nil_of_mem hmem)
  have hholds := h.ordered.holds a hmem
  have hfront : (a.batches.takeWhile fun b => b.lastOffset < offset) <+: a.batches :=
    takeWhile_prefix _
  generalize hkept : (a.batches.takeWhile fun b => b.lastOffset < offset) = kept at *
  by_cases hall : kept.length = a.batches.length
  · -- Nothing lies above the offset, which is then the end of the log.
    have hend : offset = log.nextOffset := by
      rw [← hboundary, ← h.endOffset_last ha, hall, getElem?_length, Option.elim_none]
    rw [if_neg (not_not.mpr hall), hend]
    refine Ends.bind (Ends.pure (Ends.modify ⟨⟨rfl, rfl⟩, h, h.committed, le_rfl, ?_⟩))
    refine LogView.ext (filter_eq_self.mpr fun x hx => ?_).symm rfl rfl rfl
    rcases mem_map.mp hx with ⟨b, hb, rfl⟩
    exact decide_eq_true (h.ordered.below hb)
  · -- The offset is the start of the first batch that is cut.
    rw [if_pos hall]
    rcases hfront with ⟨_ | ⟨b, rest⟩, hsplit⟩
    · rw [append_nil] at hsplit
      exact absurd (congrArg List.length hsplit) hall
    have hb : b.baseOffset = offset := by
      rw [← hboundary, ← hsplit, getElem?_append_right le_rfl, Nat.sub_self]
      rfl
    have hprefix : a.batches.take kept.length = kept := by
      rw [← hsplit, take_left]
    refine onStore_bind (truncate_ends log.store a.extentId kept.length) ?_ ?_
    · rintro error store ⟨clock, rfl⟩
      exact ⟨⟨rfl, rfl⟩, h.unmoved rfl⟩
    · rintro u store ⟨e, he, rfl⟩
      rcases h.extent hmem he with ⟨hbatches, hkeyed⟩
      have hlocated : kept = recordLocations a.extentId 0 (e.records.take kept.length) := by
        rw [← take_recordLocations, ← hbatches, hprefix]
      have hcutHolds := hholds.cut hact.1 hsplit.symm (payloadSum kept)
      rcases h.setLast ha { a with batches := kept, payloadBytes := payloadSum kept } he
        { e with records := e.records.take kept.length } (log.store.clock + 1) rfl rfl hcutHolds.1
        (hcutHolds.2.trans hb) hrange.1 (lt_of_le_of_lt hrange.2 h.bounded) id hlocated
        (fun r hr => hkeyed r (mem_of_mem_take hr))
        (fun hsome => absurd (hact.1 ▸ hsome) (by simp))
        (fun c hc => h.clean c (mem_flatMap.mpr ⟨a, hmem, hsplit ▸ mem_append_left _ hc⟩))
        with ⟨hintact, hcontents⟩
      refine Ends.modify_bind (Ends.modify ⟨⟨rfl, rfl⟩, hintact, hrange.1, hrange.2,
        LogView.ext ?_ rfl rfl rfl⟩)
      refine hintact.contents.trans (hcontents.trans ?_)
      show _ = log.contents.filter fun b => b.lastOffset < offset
      rw [h.contents_split ha, filter_append]
      congr 1
      · refine (filter_eq_self.mpr fun x hx => decide_eq_true ?_).symm
        exact lt_of_lt_of_le (h.closed_below hx) hrange.1
      · -- The records that are left are those of the batches that are left.
        rw [map_take, ← records_of_getElem? he, ← hmir.map_batchAt hmem, ← map_take,
          hprefix, filter_map, ← hkept, hholds.spaced.takeWhile_eq_filter]
        rfl

/-! ## Marks -/

theorem commit_refines (h : Intact log) (epoch highWatermark : Nat) :
    (commit epoch highWatermark).Ends log fun r log' =>
      Steady log log' ∧ Intact log' ∧ match r with
        | .ok _ => log.highWatermark ≤ highWatermark ∧ highWatermark ≤ log.nextOffset ∧
            log'.view = { log.view with highWatermark }
        | .error _ => log'.view = log.view := by
  unfold commit
  refine Ends.get_bind (Ends.require_bind (fun _ => ⟨Steady.refl log, h, rfl⟩) fun _ => ?_)
  refine Ends.require_bind (fun _ => ⟨Steady.refl log, h, rfl⟩) fun hc => Ends.modify ?_
  rcases hc with ⟨hup, hbelow, hboundary⟩
  refine ⟨⟨rfl, rfl⟩, ⟨h.ordered, h.mirrored, h.vacant, h.shut,
    fun s hs hsome => (h.settled s hs hsome).trans hup,
    fun s hs => (h.started s hs).trans hup, fun b hb => ?_, h.logStart.trans hup, hbelow,
    h.bounded⟩,
    hup, hbelow, rfl⟩
  -- The watermark is at the edge of a batch, and batches do not overlap.
  show b.lastOffset < highWatermark ∨ highWatermark ≤ b.baseOffset
  have hb' : b ∈ log.locations := hb
  have hend := h.ordered.below hb'
  have hold := h.clean b hb'
  have hstart := h.logStart
  simp only [OrderedLog.isBatchBoundary, Bool.or_eq_true, decide_eq_true_eq, any_eq_true]
    at hboundary
  rcases hboundary with (heq | heq) | ⟨c, hc, hedge⟩
  · omega
  · omega
  · have hcend := h.ordered.below hc
    have hlim := h.bounded
    rw [wrappingSucc_eq (by omega)] at hedge
    have hspan := h.spaced.spans b hb'
    have hspan' := h.spaced.spans c hc
    have happart := h.spaced.apart hb' hc
    rcases happart with rfl | happart | happart
    · omega
    · omega
    · omega

theorem advanceLogStart_refines (h : Intact log) (ctl offset : Nat) :
    (advanceLogStart ctl offset).Ends log fun r log' =>
      Steady log log' ∧ Intact log' ∧ match r with
        | .ok _ => log.logStartOffset ≤ offset ∧ offset ≤ log.highWatermark ∧
            log'.view = { log.view with logStart := offset }
        | .error _ => log'.view = log.view := by
  unfold advanceLogStart
  refine Ends.get_bind (Ends.require_bind (fun _ => ⟨Steady.refl log, h, rfl⟩) fun hc =>
    Ends.modify ?_)
  exact ⟨⟨rfl, rfl⟩, ⟨h.ordered, h.mirrored, h.vacant, h.shut, h.settled, h.started, h.clean,
    hc.2.2.1, h.committed, h.bounded⟩, hc.2.1, hc.2.2.1, rfl⟩

end Log

end Pepper
