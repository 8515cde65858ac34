import Pepper.Theory.Log.Operations
import Pepper.Theory.Log.Watermark

/-!
# Counters of a Log

The numbers that a log keeps beside its batches: the offset it ends at, the count
of its batches and the sparse index.

The offsets are 64-bit words. A write checks that the last offset of its batch is
one, and computes the end behind it without a check, so the only batch that makes
an offset wrap is the one that ends at the greatest offset. Such a call goes wrong
exactly when it passes the checks before and the store takes the record, and both
are read off the state before the call.

The sparse index is kept up by every append and rebuilt by the calls that move or
remove batches. Reclaiming rebuilds it after its loop. When the store refuses an
extent, the loop is left, and the segments that went before it are still in the
index. So the store has to delete all of the extents or none of them.

## Main definitions

* `Unwrapped`, `Bounded`: No offset of a log wraps, before and after a write.
* `OrderedLog.stores`: The store takes a batch.
* `Indexed`: The counters are those of the batches.
* `OrderedLog.Reclaims`: Reclaiming does not stop half way.
* `Completes`, `logStep`: The runs and their guard.

## Theorems

* `append_unwrapped`: What a write does to the offsets.
* `reclaimSegments_isOk`, `reclaimSegments_refused`: Where the loop stops.
* `perform_indexed`: One call keeps the counters.
* `log_indexed`: Runs of calls.
-/

namespace Pepper

namespace Log

open ExtentStore Fallible List

variable {log log' : OrderedLog}

/-- What a stored batch does to the fields beside the batches. -/
theorem Stored.counters {epoch base last time : Nat} {payload : List UInt8}
    (h : Stored log epoch base last time payload log') :
    ∃ b : BatchLocation, b.lastOffset = last ∧ log'.locations = log.locations ++ [b] ∧
      log'.nextOffset = wrappingSucc last ∧ log'.config = log.config ∧
      log'.totalBatches = saturatingAdd log.totalBatches 1 ∧
      log'.sparseIndex = log.sparseIndex ++
        if log.totalBatches % log.config.sparseIndexStride = 0 then
          [⟨b.baseOffset, b.extentId, b.recordIndex⟩] else [] := by
  rcases h with ⟨hseg, _, _, _⟩
  refine ⟨_, rfl, locations_pushBatch hseg, rfl, rfl, rfl, ?_⟩
  show (if _ then _ else _) = _
  split
  · rfl
  · exact (append_nil _).symm

/-! ## Offsets -/

/-- The store performs the call that comes after so many others. -/
def performs (s : Store) (later : Nat) : Bool :=
  decide ((s.script (s.clock + later)).outcome = .done)

/-- The active extent is open and the store takes a record into it. -/
def OrderedLog.takes (log : OrderedLog) : Bool :=
  log.segments.getLast?.any fun a =>
    log.store.extents[a.extentId]?.any (!·.sealed) && performs log.store 0

/-- The store takes the record of a batch, and before it the rotation of a full
    segment: the seal, and a new extent under an identifier that is free. -/
def OrderedLog.stores (log : OrderedLog) (payloadLen : Nat) : Bool :=
  if log.shouldRotate payloadLen then
    log.segments.getLast?.any fun a =>
      decide (a.endOffset ≤ log.highWatermark ∧ a.extentId ∈ log.store.extents ∧
        (log.store.script (log.store.clock + 1)).freshId ∉ log.store.extents) &&
      performs log.store 0 && performs log.store 1 && performs log.store 2
  else log.takes

/-- The sparse index has every batch whose position the stride divides, and the
    count is that of the batches. -/
def Indexed (log : OrderedLog) : Prop :=
  log.sparseIndex = sparseEntries log.config.sparseIndexStride 0 log.locations ∧
    log.totalBatches = log.locations.length

theorem rebuildSparseIndex_indexed (log : OrderedLog) : Indexed log.rebuildSparseIndex :=
  ⟨rfl, rfl⟩

def Indexes (log log' : OrderedLog) : Prop :=
  Indexed log → Indexed log'

instance instIsPreorderIndexes : IsPreorder OrderedLog Indexes where
  refl _ := id
  trans _ _ _ h h' := h' ∘ h

theorem sparseEntries_concat (stride ordinal : Nat) (l : List BatchLocation) (b : BatchLocation) :
    sparseEntries stride ordinal (l ++ [b]) = sparseEntries stride ordinal l ++
      if (ordinal + l.length) % stride = 0 then [⟨b.baseOffset, b.extentId, b.recordIndex⟩]
      else [] := by
  induction l generalizing ordinal with
  | nil => simp [sparseEntries]
  | cons a l ih =>
    rw [cons_append, sparseEntries, ih, sparseEntries, append_assoc, length_cons,
      Nat.add_right_comm, Nat.add_assoc]

theorem sparseEntries_eq (stride ordinal : Nat) (l : List BatchLocation) :
    sparseEntries stride ordinal l = ((l.zipIdx ordinal).filter (·.2 % stride = 0)).map
      fun p => ⟨p.1.baseOffset, p.1.extentId, p.1.recordIndex⟩ := by
  induction l generalizing ordinal with
  | nil => rfl
  | cons b l ih =>
    rw [sparseEntries, ih, zipIdx_cons, filter_cons]
    by_cases h : ordinal % stride = 0 <;> simp [h]

theorem Turns.indexed (hturns : Turns log log') : Indexes log log' := by
  induction hturns with
  | refl => exact id
  | @tail log1 log2 _ hturn ih =>
    intro h
    have hcounters : log2.sparseIndex = log1.sparseIndex ∧
        log2.totalBatches = log1.totalBatches := by
      cases hturn <;> exact ⟨rfl, rfl⟩
    rw [Indexed, hcounters.1, hcounters.2, hturn.rotated.config, hturn.rotated.locations]
    exact ih h

theorem appendAssigned_indexed (h : Indexed log) (hcount : log.locations.length + 1 < offsetLimit)
    (epoch base time count : Nat) (payload : List UInt8) :
    (appendAssigned epoch base time count payload).Ends log fun _ log' =>
      Indexed log' := by
  refine (appendAssigned_cases log epoch base time count payload).mono ?_
  rintro r log' ⟨log1, hturns, _, hr⟩
  have h1 := hturns.indexed h
  cases r with
  | error e => exact hr ▸ h1
  | ok result =>
    rcases hr.2.2.2.counters with ⟨b, _, hlocations, _, hconfig, htotal, hsparse⟩
    rw [← hturns.rotated.locations, ← h1.2] at hcount
    constructor
    · rw [hsparse, hconfig, hlocations, sparseEntries_concat, Nat.zero_add, ← h1.2, ← h1.1]
    · rw [htotal, hlocations, length_append, length_singleton, ← h1.2]
      exact min_eq_left (Nat.le_sub_one_of_lt hcount)

/-- A call that cuts the log does so as its last step, and the index is rebuilt
    after it. -/
theorem truncate_indexed (authority : RecoveryAuthority) (command : RecoveryCommand) :
    (truncate authority command).Moves Indexes := by
  unfold truncate
  refine Moves.get_bind fun _ => Moves.require_bind fun _ => Moves.require_bind fun _ => ?_
  intro log
  show Ends _ log fun _ log' => Indexes log log'
  refine Ends.call (P := fun r log' => ∀ e, r = .error e → Indexes log log') ?_
    (fun e _ h => h e rfl) fun _ log' _ => Ends.modify fun _ => rebuildSparseIndex_indexed log'
  unfold truncateActiveTo
  refine Ends.get_bind (Ends.require_bind (fun _ _ _ => id) fun _ => ?_)
  refine active_bind (fun _ _ _ => id) fun a _ => ?_
  refine Ends.require_bind (fun _ _ _ => id) fun _ => ?_
  refine Ends.require_bind (fun _ _ _ => id) fun _ => ?_
  split
  · exact onStore_bind (P := fun _ _ => True) trivial (fun _ _ _ _ _ => id)
      fun _ _ _ => Ends.modify_bind (Ends.modify (by simp))
  · exact Ends.bind (Ends.pure (Ends.modify (by simp)))

theorem compactSealed_indexed (leased : Bool) (extentId : Nat) (retained : BTreeSet Nat) :
    (compactSealed leased extentId retained).Moves Indexes := by
  unfold compactSealed
  refine Moves.get_bind fun _ => Moves.expect_bind fun _ _ => Moves.expect_bind fun _ _ => ?_
  refine Moves.expect_bind fun _ _ => Moves.require_bind fun _ => ?_
  dsimp only
  split
  · exact Moves.pure _
  · refine Moves.bind (readLocations_moves (fun _ _ => id) _) fun _ => ?_
    refine Moves.bind (R := Indexes) (fun _ => id) fun _ => ?_
    exact Moves.bind (Moves.modify fun _ _ => rebuildSparseIndex_indexed _) fun _ => Moves.pure _

/-- The loop takes nothing away, or the log has fewer segments after it. -/
theorem reclaimSegments_ends (leased : Nat → Bool) (segments : List Segment)
    (hsegments : log.segments = segments) :
    (reclaimSegments leased segments).Ends log fun r log' =>
      (∃ store, log' = { log with store }) ∧ (∀ l, r = .ok l → l = []) ∨
        log'.segments.length < log.segments.length ∧ ∀ l, r = .ok l → l ≠ [] := by
  induction segments generalizing log with
  | nil => exact Ends.pure (.inl ⟨⟨log.store, rfl⟩, fun l hl => (Except.ok.inj hl).symm⟩)
  | cons segment rest ih =>
    have hrest : ∀ log1 : OrderedLog, log1.segments = rest →
        (reclaimSegments leased rest).Ends log1 fun _ log' =>
          log'.segments.length < log.segments.length := by
      rintro log1 rfl
      rw [hsegments]
      refine (ih rfl).mono ?_
      rintro _ log' (⟨⟨store, rfl⟩, _⟩ | ⟨hlt, _⟩)
      · exact Nat.lt_succ_self _
      · exact hlt.trans (Nat.lt_succ_self _)
    refine Ends.get_bind ?_
    split
    · exact Ends.pure (.inl ⟨⟨log.store, rfl⟩, fun l hl => (Except.ok.inj hl).symm⟩)
    · refine onStore_bind (P := fun _ _ => True) trivial (fun _ store _ => ?_) fun _ store _ => ?_
      · exact .inl ⟨⟨store, rfl⟩, by simp⟩
      · refine Ends.modify_bind (Ends.call (hrest _ ?_) (fun e log' h => ?_) fun l log' h => ?_)
        · show log.segments.tail = rest
          rw [hsegments, tail_cons]
        · exact .inr ⟨h, by simp⟩
        · refine Ends.pure (.inr ⟨h, fun l' hl' => ?_⟩)
          rw [← Except.ok.inj hl']
          exact cons_ne_nil _ _

/-- The extents that the loop asks the store for: those of the sealed segments at
    the front that lie below the start of the log and below its watermark. -/
def extentsBelow (start mark : Nat) : List Segment → List Nat
  | [] => []
  | segment :: rest =>
    match segment.sealed.filter fun manifest =>
        decide (manifest.endOffset ≤ start ∧ manifest.endOffset ≤ mark) with
    | none => []
    | some manifest => manifest.extentId :: extentsBelow start mark rest

/-- The extent is there, sealed and not leased. -/
def deletable (s : Store) (leased : Nat → Bool) (extentId : Nat) : Bool :=
  !leased extentId && s.extents[extentId]?.any (·.sealed)

theorem reclaim_isOk (s : Store) (leased : Nat → Bool) (id : Nat) :
    (Store.reclaim (leased id) id).Ends s fun r s' =>
      r.isOk = (deletable s leased id && performs s 0) ∧
      (r.isOk = true → s' = { s with extents := s.extents.erase id, clock := s.clock + 1 }) := by
  unfold Store.reclaim deletable
  refine find_bind (fun hnone => ?_) fun e he => ?_
  · simp [hnone, Except.isOk, Except.toBool]
  rw [he, Option.any_some]
  refine Ends.require_bind (fun hopen => ?_) fun hsealed => ?_
  · simp [hopen, Except.isOk, Except.toBool]
  refine Ends.require_bind (fun hlease => ?_) fun hfree => ?_
  · simp [hlease, Except.isOk, Except.toBool]
  refine nextIo_bind (Ends.require_bind (fun hrefused => ?_) fun _ => ?_)
  · simp [not_not.mp hrefused, performs, Except.isOk, Except.toBool]
  refine Ends.modify_bind (Ends.require (fun hlate => ?_) fun hdone => ?_)
  · simp [hlate, performs, Except.isOk, Except.toBool]
  · simp [hdone, hfree, hsealed, performs, Except.isOk, Except.toBool]

/-- The store deletes the extents one after the other. None of them is named
    twice, since it is gone after the first time. -/
structure DeletesAll (s : Store) (leased : Nat → Bool) (extentIds : List Nat) : Prop where
  nodup : extentIds.Nodup
  deletable : ∀ id ∈ extentIds, deletable s leased id = true
  performs : ∀ i < extentIds.length, performs s i = true

theorem DeletesAll.tail {s : Store} {leased : Nat → Bool} {id : Nat} {rest : List Nat}
    (h : DeletesAll s leased (id :: rest)) : DeletesAll
      { s with extents := s.extents.erase id, clock := s.clock + 1 } leased rest := by
  rcases nodup_cons.mp h.nodup with ⟨hnew, hnodup⟩
  refine ⟨hnodup, fun other hmem => ?_, fun i hi => ?_⟩
  · have hne : id ≠ other := fun heq => hnew (heq ▸ hmem)
    rw [Log.deletable, getElem?_erase_eq, if_neg hne]
    exact h.deletable other (mem_cons_of_mem _ hmem)
  · have hlater := h.performs (i + 1) (Nat.succ_lt_succ hi)
    rwa [Log.performs, Nat.add_comm i, ← Nat.add_assoc] at hlater

/-- The loop comes to its end when the store deletes what it asks for. -/
theorem reclaimSegments_isOk (leased : Nat → Bool) (segments : List Segment)
    (hall : DeletesAll log.store leased
      (extentsBelow log.logStartOffset log.highWatermark segments)) :
    (reclaimSegments leased segments).Ends log fun r _ => r.isOk = true := by
  induction segments generalizing log with
  | nil => rfl
  | cons segment rest ih =>
    refine Ends.get_bind ?_
    rw [extentsBelow] at hall
    split
    · rfl
    · rename_i manifest hmanifest
      rw [hmanifest] at hall
      have hfirst : (deletable log.store leased manifest.extentId && performs log.store 0) = true :=
        Bool.and_eq_true_iff.mpr ⟨hall.deletable _ mem_cons_self, hall.performs 0 (by simp)⟩
      refine onStore_bind (reclaim_isOk log.store leased manifest.extentId) ?_ ?_
      · rintro e store ⟨herr, _⟩
        cases herr.trans hfirst
      · rintro u store ⟨_, hstore⟩
        cases hstore rfl
        exact Ends.modify_bind (Ends.call (ih hall.tail) (fun _ _ h => h) fun _ _ _ => rfl)

/-- The loop takes nothing away when the store does not delete the first extent. -/
theorem reclaimSegments_refused (leased : Nat → Bool) (segments : List Segment)
    (hfirst : (extentsBelow log.logStartOffset log.highWatermark segments).head?.any
      (fun id => deletable log.store leased id && performs log.store 0) = false) :
    (reclaimSegments leased segments).Ends log fun _ log' => log'.segments = log.segments := by
  cases segments with
  | nil => rfl
  | cons segment rest =>
    refine Ends.get_bind ?_
    rw [extentsBelow] at hfirst
    split
    · rfl
    · rename_i manifest hmanifest
      simp only [hmanifest, head?_cons, Option.any_some] at hfirst
      refine onStore_bind (reclaim_isOk log.store leased manifest.extentId) (fun _ _ _ => rfl) ?_
      rintro u store ⟨hok, _⟩
      cases hok.trans hfirst

/-- The store deletes all of the extents that reclaiming asks for, or not even the
    first one. -/
def OrderedLog.Reclaims (log : OrderedLog) (leased : Nat → Bool) : Prop :=
  let extentIds := extentsBelow log.logStartOffset log.highWatermark log.segments
  DeletesAll log.store leased extentIds ∨ extentIds.head?.any
    (fun id => deletable log.store leased id && performs log.store 0) = false

/-- The index is rebuilt behind the loop, when the loop has taken anything away. -/
theorem reclaimBelowLogStart_indexed (h : Indexed log) {leased : Nat → Bool}
    (hall : log.Reclaims leased) :
    (reclaimBelowLogStart leased).Ends log fun _ log' => Indexed log' := by
  unfold reclaimBelowLogStart
  have hkept : (reclaimSegments leased log.segments).Ends log fun r log' =>
      r.isOk = true ∨ log'.segments = log.segments := by
    rcases hall with hall | hfirst
    · exact (reclaimSegments_isOk leased _ hall).mono fun _ _ => .inl
    · exact (reclaimSegments_refused leased _ hfirst).mono fun _ _ => .inr
  refine Ends.get_bind (Ends.call ((reclaimSegments_ends leased _ rfl).and hkept) ?_ ?_)
  · rintro e log' ⟨⟨⟨store, rfl⟩, _⟩ | ⟨hlt, _⟩, hkept⟩
    · exact h
    · rcases hkept with hok | hsame
      · cases hok
      · exact absurd hlt (by rw [hsame]; exact Nat.lt_irrefl _)
  · rintro l log' ⟨⟨⟨store, rfl⟩, hl⟩ | ⟨_, hl⟩, _⟩
    · rw [hl l rfl]
      exact Ends.pure h
    · rw [if_neg (by simpa using hl l rfl)]
      exact Ends.modify_bind (Ends.pure (rebuildSparseIndex_indexed log'))

/-- The log has room for a batch, and reclaiming does not stop half way. -/
def Completes (log : OrderedLog) : LogOp → Prop
  | .reclaimBelowLogStart leased => log.Reclaims leased
  | _ => log.locations.length + 1 < offsetLimit

instance instDecidableDeletesAll (s : Store) (leased : Nat → Bool) (extentIds : List Nat) :
    Decidable (DeletesAll s leased extentIds) :=
  decidable_of_iff (extentIds.Nodup ∧ (∀ id ∈ extentIds, deletable s leased id = true) ∧
      ∀ i < extentIds.length, performs s i = true)
    ⟨fun h => ⟨h.1, h.2.1, h.2.2⟩, fun h => ⟨h.nodup, h.deletable, h.performs⟩⟩

instance instDecidableReclaims (log : OrderedLog) (leased : Nat → Bool) :
    Decidable (log.Reclaims leased) :=
  inferInstanceAs (Decidable (_ ∨ _))

instance instDecidableCompletes (log : OrderedLog) (op : LogOp) : Decidable (Completes log op) := by
  cases op <;>
    first
    | exact inferInstanceAs (Decidable (_ < _))
    | exact inferInstanceAs (Decidable (OrderedLog.Reclaims _ _))

/-- A call on a log, whatever it answers. -/
def logStep (log : OrderedLog) (op : LogOp) : OrderedLog :=
  (perform op log).2

/-- One call, whether it succeeds or fails. -/
theorem perform_indexed {op : LogOp} (h : Indexed log) (hop : Completes log op) :
    Indexed (logStep log op) := by
  have hforget : ∀ {α : Type} {x : LogM α}, x.Moves Indexes →
      ((do let _ ← x; pure ()) : LogM Unit).Moves Indexes :=
    fun hx => Moves.bind hx fun _ => Moves.pure ()
  cases op with
  | promiseEpoch ctl epoch =>
    exact Ends.get_bind (Q := fun _ log' => Indexed log') (Ends.require_bind (fun _ => h) fun _ =>
      Ends.modify h)
  | activateLeader ctl epoch =>
    exact Ends.get_bind (Q := fun _ log' => Indexed log') (Ends.require_bind (fun _ => h) fun _ =>
      Ends.modify h)
  | append epoch time count payload =>
    exact Ends.void (P := Indexed) (Ends.get_bind (Ends.require_bind (fun _ => h) fun _ =>
      appendAssigned_indexed h hop _ _ _ _ _))
  | replicate commandEpoch recordEpoch base time count payload =>
    exact Ends.void (P := Indexed) (Ends.get_bind (Ends.require_bind (fun _ => h) fun _ =>
      appendAssigned_indexed h hop _ _ _ _ _))
  | commit epoch mark =>
    exact Ends.get_bind (Q := fun _ log' => Indexed log') (Ends.require_bind (fun _ => h) fun _ =>
      Ends.require_bind (fun _ => h) fun _ => Ends.modify h)
  | truncate authority command => exact truncate_indexed authority command log h
  | sealAndRotate epoch =>
    refine hforget (Moves.get_bind fun _ => Moves.require_bind fun _ => ?_) log h
    exact fun log => (rotateActive_turns log).indexed
  | compactSealed leased extentId retained =>
    exact hforget (compactSealed_indexed leased extentId retained) log h
  | advanceLogStart ctl offset =>
    exact Ends.get_bind (Q := fun _ log' => Indexed log') (Ends.require_bind (fun _ => h) fun _ =>
      Ends.modify h)
  | reclaimBelowLogStart leased =>
    exact Ends.void (P := Indexed) (reclaimBelowLogStart_indexed h hop)

theorem openLog_indexed (cfg : LogConfig) (recovery : RecoveryState) (store : Store) :
    (openLog cfg recovery).Ends store fun r _ => ∀ log, r = .ok log → Indexed log := by
  unfold openLog
  refine Ends.require_bind (fun _ => by simp) fun _ => ?_
  refine Ends.call (P := fun _ _ => True) trivial (fun _ _ _ => by simp) fun _ store1 _ => ?_
  refine Ends.require_bind (fun _ => by simp) fun _ => ?_
  refine Ends.require_bind (fun _ => by simp) fun _ => Ends.get_bind ?_
  refine (cutToWatermark_ends (P := fun _ _ => True) trivial store1).mono ?_
  rintro _ _ ⟨r, log1, _, rfl⟩ log hlog
  cases r with
  | error e => cases hlog
  | ok u =>
    rw [← Except.ok.inj hlog]
    exact rebuildSparseIndex_indexed log1

/-- The counters of a log that was opened and then used, as long as reclaiming does
    not stop half way. -/
theorem log_indexed {config : LogConfig} {recovery : RecoveryState} {store store' : Store}
    (hopen : openLog config recovery store = (.ok log, store'))
    (hrun : Reaches logStep Completes log log') :
    log'.sparseIndex = (log'.locations.zipIdx.filter (·.2 % log'.config.sparseIndexStride = 0)).map
        (fun p => ⟨p.1.baseOffset, p.1.extentId, p.1.recordIndex⟩) ∧
      log'.totalBatches = log'.locations.length := by
  have hlog : Indexed log := (openLog_indexed config recovery store).of_eq hopen log rfl
  rw [← sparseEntries_eq]
  exact hrun.invariant (I := Indexed) (fun _ _ => perform_indexed) hlog

/-! ## Runs of a log -/

/-- Three batches in a segment each, the first two of which are below the start
    of the log. -/
def reclaimingRun : List LogOp :=
  [.replicate 0 0 0 10 1 [1], .commit 0 1, .replicate 0 0 1 11 1 [2], .commit 0 2,
    .replicate 0 0 2 12 1 [3], .advanceLogStart 0 2]

/-- An empty log whose segments have room for one batch. -/
def blankLog : OrderedLog :=
  openedBlank ⟨0, 1, 100, 1⟩ ⟨0, 0, 0⟩

theorem log_indexed_reclaimed : (runOps logStep blankLog
      (reclaimingRun ++ [.reclaimBelowLogStart fun _ => false])).totalBatches = 1 := by
  have hopened : openLog ⟨0, 1, 100, 1⟩ ⟨0, 0, 0⟩ blankStore = (.ok blankLog, _) := rfl
  refine (log_indexed hopened (reaches_runOps _ _ (by decide +kernel))).2.trans ?_
  decide +kernel

/-- The second extent is leased, so reclaiming fails after the first one, and the
    commit after it finds the first one in the index. -/
theorem reclaim_leaves_index : (perform (.commit 0 3) (runOps logStep blankLog
      (reclaimingRun ++ [.reclaimBelowLogStart (· = 3)]))).1 = .ok () ∧
    (runOps logStep blankLog
      (reclaimingRun ++ [.reclaimBelowLogStart (· = 3), .commit 0 3])).sparseIndex =
        [⟨0, 0, 0⟩, ⟨1, 3, 0⟩, ⟨2, 6, 0⟩] ∧
    (runOps logStep blankLog
      (reclaimingRun ++ [.reclaimBelowLogStart (· = 3), .commit 0 3])).locations.map
        (·.baseOffset) = [1, 2] := by
  decide +kernel

end Log

end Pepper
