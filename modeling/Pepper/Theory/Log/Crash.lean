import Pepper.Theory.Log.Restart

/-!
# Crashes While a Log Is Written

A process dies inside `rotateActive` or `appendAssigned`, after some of the store
calls they make, and the log is opened again from what is on the device.

Neither call touches a committed batch, and a batch that was only appended lies
above the watermark and is cut off. Whether the log can be opened at all depends
on the last extent. A rotation seals it with one call and creates the next one
with another, and a process that dies in between leaves no extent open.
`leavesOpen` reads this off the state before the call.

The states considered are those that any calls lead to, successful or not, with
restarts in between, on stores that do not report an error after an effect.

## Main definitions

* `Store.dyingAfter`: The store of a process that dies after some calls.
* `WriteCall`, `WriteCall.crashed`: The call that is cut short, and what it leaves.
* `WriteCall.leavesOpen`: The last extent is open in what it leaves.
* `LogEvent`, `live`: A log over its whole life.

## Theorems

* `rotateActive_dying`, `lastOpen_crashed`: Where the calls stop.
* `live_keeps`: One event of a log's life.
* `crash_recovers_iff`: When the log is recovered.
* `crash_between_seal_and_create`: A rotation that is cut short.
-/

namespace Pepper

open List

namespace ExtentStore

open Fallible

/-- The store as a process sees it that makes some more calls and then dies: these
    are performed, and all later ones have no effect. -/
def Store.dyingAfter (s : Store) (k : Nat) : Store :=
  { s with
    script := fun n => ⟨if n < s.clock + k then .done else .refused, (s.script n).freshId⟩ }

end ExtentStore

namespace Log

open ExtentStore Fallible

/-! ## Where a call stops -/

/-- The calls in which a process may die. -/
inductive WriteCall where
  | rotateActive
  | appendAssigned (epoch baseOffset timestampMs recordCount : Nat) (payload : List UInt8)

namespace WriteCall

def run : WriteCall → LogM Unit
  | .rotateActive => do
      let _ ← Log.rotateActive
      pure ()
  | .appendAssigned epoch base time count payload => do
      let _ ← Log.appendAssigned epoch base time count payload
      pure ()

/-- The log in the memory and the extents on the device when the process has died
    in the call, after the given number of store calls. -/
def crashed (call : WriteCall) (log : OrderedLog) (k : Nat) : OrderedLog :=
  (call.run { log with store := log.store.dyingAfter k }).2

/-- The call does not write the last offset there is. -/
def Fits (log : OrderedLog) : WriteCall → Prop
  | .rotateActive => True
  | .appendAssigned _ _ _ count _ => log.nextOffset + count < offsetLimit

instance instDecidableWriteFits (log : OrderedLog) : (call : WriteCall) → Decidable (call.Fits log)
  | .rotateActive => isTrue trivial
  | .appendAssigned _ _ _ count _ =>
    inferInstanceAs (Decidable (log.nextOffset + count < offsetLimit))

end WriteCall

/-- The active segment has batches, and all of them are committed. -/
def OrderedLog.canRotate (log : OrderedLog) : Bool :=
  log.segments.getLast?.any fun s =>
    !s.batches.isEmpty && decide (s.endOffset ≤ log.highWatermark)

namespace WriteCall

/-- The call gets as far as sealing the active extent. -/
def rotates (log : OrderedLog) : WriteCall → Bool
  | .rotateActive => log.canRotate
  | .appendAssigned _ base _ count payload =>
    decide (count ≠ 0 ∧ base = log.nextOffset ∧ base + (count - 1) < offsetLimit) &&
    log.shouldRotate payload.length && log.canRotate

/-- The last extent is open when the process has died. Once it was sealed, this
    takes a second call, which creates the next one. -/
def leavesOpen (call : WriteCall) (log : OrderedLog) (k : Nat) : Bool :=
  if call.rotates log = true ∧ k ≠ 0 then
    decide (2 ≤ k ∧ (log.store.script (log.store.clock + 1)).freshId ∉ log.store.extents)
  else log.lastOpen

end WriteCall

variable {log : OrderedLog}

/-- A log whose store has the same extents, sealed or not, ends in the same state. -/
theorem lastOpen_congr {log' : OrderedLog} (hsegments : log'.segments = log.segments)
    (hsealed : ∀ id, log'.store.isSealed id = log.store.isSealed id) :
    log'.lastOpen = log.lastOpen := by
  unfold OrderedLog.lastOpen
  rw [hsegments]
  simp only [hsealed]

theorem lastOpen_of_getLast {a : Segment} (ha : log.segments.getLast? = some a) :
    log.lastOpen = !log.store.isSealed a.extentId := by
  rw [OrderedLog.lastOpen, ha, Option.all_some]

/-- A rotation in a dying process. The seal is its first call of the store, and the
    new extent its second. -/
theorem rotateActive_dying (h : Intact log) (k : Nat) :
    Log.rotateActive.Ends { log with store := log.store.dyingAfter k } fun _ log' =>
      log'.lastOpen = WriteCall.rotateActive.leavesOpen log k := by
  have hstays : ¬ (log.canRotate = true ∧ k ≠ 0) → ∀ clock,
      OrderedLog.lastOpen { log with store := { log.store.dyingAfter k with clock } } =
        WriteCall.rotateActive.leavesOpen log k := fun hnot _ =>
    (lastOpen_congr rfl fun _ => rfl).trans (if_neg hnot).symm
  unfold Log.rotateActive sealActive pushActive
  refine Ends.bind (active_bind (fun hnone => hstays (fun hc => ?_) _) fun a ha => ?_)
  · rw [OrderedLog.canRotate, show log.segments.getLast? = none from hnone] at hc
    exact absurd hc.1 (by simp)
  have ha : log.segments.getLast? = some a := ha
  have hmem : a ∈ log.segments := mem_of_getLast? ha
  have hrotates : log.canRotate = true ↔ a.batches ≠ [] ∧ a.endOffset ≤ log.highWatermark := by
    rw [OrderedLog.canRotate, ha, Option.any_some, Bool.and_eq_true, decide_eq_true_eq]
    simp
  refine Ends.require_bind (fun hc => hstays (fun hr => hc (hrotates.mp hr.1).1) _) fun hne => ?_
  refine Ends.get_bind (Ends.require_bind (fun hc => hstays (fun hr => hc (hrotates.mp hr.1).2) _)
    fun hcom => onStore_bind (sealExtent_ends (log.store.dyingAfter k) a.extentId) ?_ ?_)
  · rintro error store (⟨e, _, href, hdone, _⟩ | ⟨_, href, clock, rfl⟩)
    · -- The call was neither performed nor refused.
      have hlate := mt hdone.mpr (by simp)
      simp only [Store.dyingAfter] at href hlate
      by_cases hk : log.store.clock < log.store.clock + k
      · exact absurd (if_pos hk) hlate
      · exact absurd (if_neg hk) href
    · -- The store refused the seal, and the segment stays open.
      refine hstays (fun hc => ?_) clock
      have hout := href
        (((h.mirrored (ne_nil_of_mem hmem)).present a.extentId).mpr (mem_map_of_mem hmem))
      simp only [Store.dyingAfter] at hout
      rw [if_pos (by omega)] at hout
      cases hout
  · rintro u store (⟨e, he, href, _, rfl⟩ | ⟨⟨_, herr⟩, _⟩)
    · -- The seal was performed, so the process lived to its first call.
      have hk : k ≠ 0 := by
        rintro rfl
        exact href (if_neg (by simp [Store.dyingAfter]))
      have hleaves : WriteCall.rotateActive.leavesOpen log k = decide
          (2 ≤ k ∧ (log.store.script (log.store.clock + 1)).freshId ∉ log.store.extents) :=
        if_pos ⟨hrotates.mpr ⟨hne, hcom⟩, hk⟩
      have hpre : ∀ id, id ∈ log.store.extents.insert a.extentId { e with sealed := true } ↔
          id ∈ log.store.extents :=
        (Store.touched_put he { e with sealed := true } log.store.clock).present
      rw [hleaves]
      refine Ends.modify_bind (Ends.pure (Ends.bind (onStore_bind (create_ends _) ?_ ?_)))
      · rintro error store ⟨hnot, rfl⟩
        rw [decide_eq_false fun hc => hnot
          ⟨if_pos (show log.store.clock + 1 < log.store.clock + k by
          omega), mt (hpre _).mp hc.2⟩]
        refine (lastOpen_of_getLast getLast?_concat).trans ?_
        show (!((log.store.extents.insert a.extentId _)[a.extentId]?.elim false (·.sealed))) = false
        rw [getElem?_insert_eq, if_pos rfl]
        rfl
      · rintro id store ⟨hdone, rfl, hfresh, rfl⟩
        have hlives : 2 ≤ k := by
          by_contra hlate
          have href : ¬ log.store.clock + 1 < log.store.clock + k := by omega
          cases (if_neg href).symm.trans hdone
        refine Ends.modify (Ends.pure ?_)
        rw [decide_eq_true ⟨hlives, mt (hpre _).mpr hfresh⟩,
          lastOpen_of_getLast getLast?_concat, Store.isSealed, getElem?_insert_eq, if_pos rfl]
        rfl
    · cases herr

/-- Appending a record opens and seals nothing. -/
theorem appendRecord_lastOpen (log : OrderedLog) (epoch base last time : Nat)
    (payload : List UInt8) :
    (appendRecord epoch base last time payload).Ends log fun _ log' =>
      log'.lastOpen = log.lastOpen := by
  unfold appendRecord
  refine active_bind (fun _ => rfl) fun a ha => Ends.get_bind ?_
  refine onStore_bind (ExtentStore.append_ends log.store a.extentId _) ?_ ?_
  · rintro error store ⟨clock, rfl⟩
    rfl
  · rintro receipt store ⟨e, he, _, _, rfl⟩
    refine Ends.modify ?_
    rw [lastOpen_of_getLast ha, lastOpen_of_getLast getLast?_concat, Store.isSealed,
      Store.isSealed, he]
    show (!((log.store.extents.insert a.extentId _)[a.extentId]?.elim false (·.sealed))) = !e.sealed
    rw [getElem?_insert_eq, if_pos rfl]
    rfl

/-- An append in a dying process. -/
theorem appendAssigned_dying (h : Intact log) (epoch base time count : Nat)
    (payload : List UInt8) (k : Nat) :
    (Log.appendAssigned epoch base time count payload).Ends
      { log with store := log.store.dyingAfter k } fun _ log' => log'.lastOpen =
        (WriteCall.appendAssigned epoch base time count payload).leavesOpen log k := by
  have hsame : OrderedLog.lastOpen { log with store := log.store.dyingAfter k } = log.lastOpen :=
    lastOpen_congr rfl fun _ => rfl
  -- A call that does not come to a rotation leaves the last extent as it is.
  have hstays : WriteCall.rotates log (.appendAssigned epoch base time count payload) = false →
      OrderedLog.lastOpen { log with store := log.store.dyingAfter k } =
        (WriteCall.appendAssigned epoch base time count payload).leavesOpen log k := by
    intro hnot
    rw [hsame, WriteCall.leavesOpen, if_neg (by simp [hnot])]
  unfold Log.appendAssigned
  refine Ends.require_bind (fun hc => hstays ?_) fun hcount => Ends.get_bind ?_
  · simp only [WriteCall.rotates, hc, false_and, decide_false, Bool.false_and]
  refine Ends.require_bind (fun hc => hstays ?_) fun hbase => ?_
  · have hc : ¬ base = log.nextOffset := hc
    simp only [WriteCall.rotates, hc, false_and, and_false, decide_false, Bool.false_and]
  refine Ends.require_bind (fun hc => hstays ?_) fun hlim => ?_
  · simp only [WriteCall.rotates, hc, and_false, decide_false, Bool.false_and]
  have hbase : base = log.nextOffset := hbase
  have hrotate : (rotateIfFull payload.length).Ends { log with store := log.store.dyingAfter k }
      fun _ log' => log'.lastOpen =
        (WriteCall.appendAssigned epoch base time count payload).leavesOpen log k := by
    unfold rotateIfFull
    refine Ends.get_bind ?_
    rw [show OrderedLog.shouldRotate { log with store := log.store.dyingAfter k } payload.length =
      log.shouldRotate payload.length from rfl]
    have hrotates : WriteCall.rotates log (.appendAssigned epoch base time count payload) =
        (log.shouldRotate payload.length && log.canRotate) := by
      rw [WriteCall.rotates, decide_eq_true ⟨hcount, hbase, hlim⟩, Bool.true_and]
    by_cases hfull : log.shouldRotate payload.length = true
    · rw [if_pos hfull]
      rw [hfull, Bool.true_and] at hrotates
      have hleaves : (WriteCall.appendAssigned epoch base time count
          payload).leavesOpen log k = WriteCall.rotateActive.leavesOpen log k := by
        rw [WriteCall.leavesOpen, WriteCall.leavesOpen, hrotates, WriteCall.rotates]
      rw [hleaves]
      exact Ends.call (rotateActive_dying h k) (fun _ _ hr => hr) fun _ _ hr => Ends.pure hr
    · rw [if_neg hfull]
      refine Ends.pure (hstays ?_)
      rw [hrotates, Bool.eq_false_iff.mpr hfull, Bool.false_and]
  refine Ends.call hrotate (fun _ _ hr => hr) fun _ log1 hr => ?_
  refine Ends.call (appendRecord_lastOpen log1 epoch base _ time payload)
    (fun _ _ hkept => hkept.trans hr) fun _ log2 hkept => ?_
  exact Ends.get_bind (Ends.pure (hkept.trans hr))

/-- What the state before a call says about the last extent after the crash. -/
theorem lastOpen_crashed (h : Intact log) (call : WriteCall) (k : Nat) :
    (call.crashed log k).lastOpen = call.leavesOpen log k := by
  cases call with
  | rotateActive => exact Ends.void (rotateActive_dying h k)
  | appendAssigned epoch base time count payload =>
    exact Ends.void (appendAssigned_dying h epoch base time count payload k)

/-- The invariant and the committed batches are kept. -/
def KeepsCommitted (log log' : OrderedLog) : Prop :=
  Intact log' ∧ log'.config = log.config ∧ log'.highWatermark = log.highWatermark ∧
    log'.logStartOffset = log.logStartOffset ∧
      log'.view.cut log.highWatermark = log.view.cut log.highWatermark

theorem crashed_keeps (h : Intact log) {call : WriteCall} (hfits : call.Fits log) (k : Nat) :
    KeepsCommitted log (call.crashed log k) := by
  rcases h.unmoved (show (log.store.dyingAfter k).extents = log.store.extents from rfl) with
    ⟨hdying, hview⟩
  -- The view is the same, or has one more batch, which is not committed.
  have hcut : ∀ log' : OrderedLog, log'.view = log.view →
      log'.highWatermark = log.highWatermark ∧ log'.logStartOffset = log.logStartOffset ∧
        log'.view.cut log.highWatermark = log.view.cut log.highWatermark := by
    intro log' hsame
    exact ⟨congrArg LogView.highWatermark hsame, congrArg LogView.logStart hsame,
      congrArg (LogView.cut · log.highWatermark) hsame⟩
  cases call with
  | rotateActive =>
    refine Ends.void (P := KeepsCommitted log) ((rotateActive_keeps hdying).mono ?_)
    exact fun _ log' hr => ⟨hr.2.1, hr.1.config, hcut log' (hr.2.2.trans hview)⟩
  | appendAssigned epoch base time count payload =>
    have hcall := appendAssigned_refines hdying epoch base time count payload hfits
    refine Ends.void (P := KeepsCommitted log) (hcall.mono fun r log' hr => ?_)
    cases r with
    | error e => exact ⟨hr.2.1, hr.1.config, hcut log' (hr.2.2.trans hview)⟩
    | ok _ =>
      rcases hr with ⟨hsteady, hintact, hbase, hpushed⟩
      rw [hview] at hpushed
      have hbase : base = log.nextOffset := hbase
      refine ⟨hintact, hsteady.config, congrArg LogView.highWatermark hpushed,
        congrArg LogView.logStart hpushed, ?_⟩
      rw [hpushed]
      refine LogView.ext ?_ rfl rfl rfl
      have habove : ¬ base + (count - 1) < log.highWatermark := by
        have := h.committed
        omega
      show (log.contents ++ [_]).filter _ = log.contents.filter _
      rw [filter_append, filter_singleton, decide_eq_false habove]
      exact append_nil _

/-! ## Runs -/

/-- What a machine does with the calls of a store, none of which reports an error
    after its effect. -/
def AtomicScript := { script : Nat → Io // ∀ n, (script n).outcome ≠ .late }

/-- What can happen to a log: a call, or a restart on some machine. -/
inductive LogEvent where
  | call (op : LogOp)
  | restart (promisedEpoch : Nat) (script : AtomicScript)

/-- A restart opens the log from its extents, with its own watermark and start. One
    that fails leaves the extents for the next. -/
def OrderedLog.restarted (log : OrderedLog) (promisedEpoch : Nat) (machine : Store) : OrderedLog :=
  match openLog log.config ⟨promisedEpoch, log.highWatermark, log.logStartOffset⟩ machine with
  | (.ok log', _) => log'
  | (.error _, _) => log

def live (log : OrderedLog) : LogEvent → OrderedLog
  | .call op => (perform op log).2
  | .restart promisedEpoch script =>
    log.restarted promisedEpoch ⟨log.store.extents, script.1, 0⟩

/-- No call writes the last offset there is. -/
def LogEvent.Fits (log : OrderedLog) : LogEvent → Prop
  | .call op => op.Fits log
  | .restart _ _ => True

instance instDecidableEventFits (log : OrderedLog) : (event : LogEvent) → Decidable (event.Fits log)
  | .call op => inferInstanceAs (Decidable (op.Fits log))
  | .restart _ _ => isTrue trivial

/-- The invariant of a log's life. -/
structure Living (log : OrderedLog) : Prop where
  intact : Intact log
  valid : log.config.Valid
  atomic : log.store.Atomic

theorem restarted_keeps (h : Living log) (promisedEpoch : Nat) {machine : Store}
    (hextents : machine.extents = log.store.extents) (hatomic : machine.Atomic) :
    Living (log.restarted promisedEpoch machine) := by
  unfold OrderedLog.restarted
  rcases hout : openLog log.config ⟨promisedEpoch, log.highWatermark, log.logStartOffset⟩ machine
    with ⟨r, store⟩
  cases r with
  | error e => exact h
  | ok log' =>
    cases hlast : log.lastOpen with
    | false => exact absurd rfl ((openLog_stuck h.intact hextents hlast _).of_eq hout log')
    | true =>
      rcases ((openLog_restarts h.intact h.valid hextents hlast promisedEpoch).of_eq hout).1
        log' rfl with ⟨hintact, hconfig, hscript, _⟩
      refine ⟨hintact, hconfig ▸ h.valid, fun n => ?_⟩
      rw [hscript]
      exact hatomic n

theorem live_keeps (h : Living log) {event : LogEvent} (hfits : event.Fits log) :
    Living (live log event) := by
  cases event with
  | call op =>
    rcases perform_refines h.intact op hfits with ⟨hsteady, hkeeps⟩
    refine ⟨(hkeeps (Or.inl h.atomic)).1, hsteady.config.symm ▸ h.valid, fun n => ?_⟩
    rw [live, hsteady.script]
    exact h.atomic n
  | restart promisedEpoch script => exact restarted_keeps h promisedEpoch rfl script.2

/-- After a crash in a rotation or an append the log can be opened from its extents
    if and only if the last of them is open, and then holds the committed batches. -/
theorem crash_recovers_iff {config : LogConfig} {recovery : RecoveryState} {store store' : Store}
    {log0 log : OrderedLog} (hempty : store.extents = ∅) (hatomic : store.Atomic)
    (hlimit : recovery.highWatermark < offsetLimit)
    (hopened : openLog config recovery store = (.ok log0, store'))
    (hrun : Reaches live (fun log event => event.Fits log) log0 log)
    {call : WriteCall} (hfits : call.Fits log) (k : Nat) {machine : Store}
    (hmachine : machine.extents = (call.crashed log k).store.extents)
    (hreliable : machine.Reliable) (promisedEpoch : Nat) :
    (∃ log', (openLog log.config ⟨promisedEpoch, log.highWatermark, log.logStartOffset⟩
        machine).1 = .ok log' ∧
      log'.contents = log.contents.filter fun b => b.lastOffset < log.highWatermark) ↔
    call.leavesOpen log k = true := by
  have hliving : Living log := by
    refine hrun.invariant (fun log event h hevent => live_keeps h hevent) ?_
    rcases ((openLog_intact hempty hlimit).of_eq hopened).1 log0 rfl with
      ⟨hintact, hvalid, hconfig, hscript, _⟩
    refine ⟨hintact, hconfig ▸ hvalid, fun n => ?_⟩
    rw [hscript]
    exact hatomic n
  rcases crashed_keeps hliving.intact hfits k with ⟨hintact, hconfig, hmark, hstart, hcut⟩
  have hopen := lastOpen_crashed hliving.intact call k
  rw [← hopen]
  cases hlast : (call.crashed log k).lastOpen with
  | false =>
    have hstuck := openLog_stuck hintact hmachine hlast
      ⟨promisedEpoch, log.highWatermark, log.logStartOffset⟩
    rw [hconfig] at hstuck
    refine ⟨?_, fun hc => absurd hc (by simp)⟩
    rintro ⟨log', hlog', _⟩
    exact absurd hlog' (hstuck log')
  | true =>
    have hrestart := openLog_restarts hintact (hconfig ▸ hliving.valid) hmachine hlast promisedEpoch
    rw [hconfig, hmark, hstart] at hrestart
    refine ⟨fun _ => rfl, fun _ => ?_⟩
    rcases hrestart.2 hreliable with ⟨log', hlog'⟩
    refine ⟨log', hlog', ?_⟩
    exact congrArg LogView.batches ((hrestart.1 log' hlog').2.2.2.trans hcut)

/-- A log with one committed batch, which fills its segment. -/
def committedOnce : OrderedLog :=
  runOps live (openedBlank ⟨0, 1, 100, 1⟩ ⟨0, 0, 0⟩)
    [.call (.promiseEpoch 1 1), .call (.activateLeader 1 1), .call (.append 1 10 1 [1]),
      .call (.commit 1 1)]

/-- The machine after a crash in the append of a second batch. -/
def machineAfter (k : Nat) : Store :=
  ⟨((WriteCall.appendAssigned 1 1 11 1 [2]).crashed committedOnce k).store.extents,
    fun n => ⟨.done, n⟩, 0⟩

/-- The process dies when the second batch is stored. -/
theorem crash_recovers_iff_appended : ∃ log', (openLog committedOnce.config
        ⟨1, committedOnce.highWatermark, committedOnce.logStartOffset⟩
        (machineAfter 3)).1 = .ok log' ∧
      log'.contents = committedOnce.contents.filter fun b =>
        b.lastOffset < committedOnce.highWatermark := by
  have hopened : openLog ⟨0, 1, 100, 1⟩ ⟨0, 0, 0⟩ blankStore =
    (.ok (openedBlank ⟨0, 1, 100, 1⟩ ⟨0, 0, 0⟩), _) := rfl
  have hrun : Reaches live (fun log event => event.Fits log)
      (openedBlank ⟨0, 1, 100, 1⟩ ⟨0, 0, 0⟩) committedOnce :=
    reaches_runOps _ _ (by decide +kernel)
  have hmachine : (machineAfter 3).extents =
    ((WriteCall.appendAssigned 1 1 11 1 [2]).crashed committedOnce 3).store.extents := rfl
  exact (crash_recovers_iff rfl (by simp [Store.Atomic, blankStore]) (by decide) hopened hrun
    (by decide +kernel) 3 hmachine (fun _ => rfl) 1).mpr (by decide +kernel)

/-- The process dies between the two calls of the rotation. -/
theorem crash_between_seal_and_create :
    committedOnce.contents = [⟨0, 0, 1, 10, [1]⟩] ∧ committedOnce.highWatermark = 1 ∧
      (openLog committedOnce.config
        ⟨1, committedOnce.highWatermark, committedOnce.logStartOffset⟩ (machineAfter 1)).1.map
          (fun _ => ()) = .error (.activeExtentCount 0) := by
  decide +kernel

end Log

end Pepper
