import Pepper.Core.Recovery
import Pepper.Theory.Log.Growth

/-!
# What a Log Leaves on Its Store

The index of a log is lost in a crash and has to be found again from the store.
`Mirrored` says that it can be: every segment lists exactly the records of its
extent, every extent belongs to one segment, and all but the last are sealed.

The seal of the last extent is left open. A seal that was made durable and then
reported as an error, and an extent that was sealed before its successor could
be created, are both states an append can leave behind.

## Main definitions

* `Store.Touched`: At most one extent was written.
* `Mirrored`: The segments can be read back from the store.
* `Durable`: A well-formed log whose segments can be read back.
* `closedLocations`: The batches of all segments but the last.

## Theorems

* `Mirrored.replace`, `Mirrored.push`: Writing the last segment, and a new one.
* `Turn.mirrored`, `Stored.mirrored`: The steps of a write.
* `appendAssigned_mirrored`: A write keeps a log durable, also when it fails.
-/

namespace Pepper

open List

namespace ExtentStore

open Fallible

/-- The records of an extent, none when it is missing. -/
def Store.records (s : Store) (id : Nat) : List Record :=
  s.extents[id]?.elim [] (·.records)

def Store.isSealed (s : Store) (id : Nat) : Bool :=
  s.extents[id]?.elim false (·.sealed)

/-- No extent appeared or went away, and at most the given one was written. -/
structure Store.Touched (id : Nat) (s s' : Store) : Prop where
  present : ∀ k, k ∈ s'.extents ↔ k ∈ s.extents
  records : ∀ k, k ≠ id → s'.records k = s.records k
  sealed : ∀ k, k ≠ id → s'.isSealed k = s.isSealed k

variable {e : Extent} {id : Nat} {s : Store}

theorem Store.touched_put (h : s.extents[id]? = some e) (e' : Extent) (clock : Nat) :
    Store.Touched id s { s with extents := s.extents.insert id e', clock } := by
  refine ⟨?_, ?_, ?_⟩
  · intro k
    rw [Std.ExtTreeMap.mem_iff_isSome_getElem?, Std.ExtTreeMap.mem_iff_isSome_getElem?,
      getElem?_insert_eq]
    by_cases hk : id = k
    · subst hk
      simp only [if_true, h, Option.isSome_some]
    · rw [if_neg hk]
  · intro k hk
    simp only [Store.records, getElem?_insert_eq, if_neg (Ne.symm hk)]
  · intro k hk
    simp only [Store.isSealed, getElem?_insert_eq, if_neg (Ne.symm hk)]

theorem records_of_getElem? (h : s.extents[id]? = some e) : s.records id = e.records := by
  rw [Store.records, h, Option.elim_some]

theorem records_insert (s : Store) (id : Nat) (e : Extent) (clock : Nat) :
    Store.records { s with extents := s.extents.insert id e, clock } id = e.records := by
  simp only [Store.records, getElem?_insert_eq, if_true, Option.elim_some]

end ExtentStore

namespace Log

open ExtentStore Fallible

/-! ## The locations of an extent -/

theorem recordLocations_append (extentId index : Nat) (a b : List Record) :
    recordLocations extentId index (a ++ b) =
      recordLocations extentId index a ++ recordLocations extentId (index + a.length) b := by
  induction a generalizing index with
  | nil => rfl
  | cons r a ih =>
    simp only [cons_append, recordLocations, ih, length_cons]
    rw [show index + 1 + a.length = index + (a.length + 1) by omega]

theorem length_recordLocations (extentId index : Nat) (records : List Record) :
    (recordLocations extentId index records).length = records.length := by
  induction records generalizing index with
  | nil => rfl
  | cons r records ih => rw [recordLocations, length_cons, length_cons, ih]

theorem take_recordLocations (extentId index count : Nat) (records : List Record) :
    (recordLocations extentId index records).take count =
      recordLocations extentId index (records.take count) := by
  induction records generalizing index count with
  | nil => simp only [recordLocations, take_nil]
  | cons r records ih =>
    cases count with
    | zero => rfl
    | succ count => simp only [recordLocations, take_succ_cons, ih]

variable {b : BatchLocation} {epoch payloadLen recordCount : Nat}

/-- A location leads back to its record. -/
theorem mem_recordLocations {extentId index : Nat} {records : List Record}
    (h : b ∈ recordLocations extentId index records) :
    b.extentId = extentId ∧ index ≤ b.recordIndex ∧
      ∃ r, records[b.recordIndex - index]? = some r ∧ r.payload.length = b.encodedLen := by
  induction records generalizing index with
  | nil => cases h
  | cons r records ih =>
    rcases mem_cons.mp h with rfl | hrest
    · exact ⟨rfl, le_rfl, r, by simp only [Nat.sub_self, getElem?_cons_zero], rfl⟩
    · rcases ih hrest with ⟨hid, hle, r', hr', hlen⟩
      refine ⟨hid, by omega, r', ?_, hlen⟩
      rw [show b.recordIndex - index = b.recordIndex - (index + 1) + 1 by omega, getElem?_cons_succ]
      exact hr'

/-! ## Segments that can be read back -/

/-- Each segment lists the records of its extent, each extent belongs to one
    segment, and all segments but the last are sealed on the store. -/
structure Mirrored (partitionKey : Nat) (segments : List Segment) (store : Store) : Prop where
  batches : ∀ s ∈ segments, s.batches = recordLocations s.extentId 0 (store.records s.extentId)
  present : ∀ id, id ∈ store.extents ↔ id ∈ segments.map (·.extentId)
  distinct : (segments.map (·.extentId)).Nodup
  keyed : ∀ s ∈ segments, ∀ r ∈ store.records s.extentId, r.identity.partitionKey = partitionKey
  sealed : ∀ s ∈ segments.dropLast, store.isSealed s.extentId = true
  active : segments ≠ []

section Mirrored

variable {key : Nat} {segments : List Segment} {store store' : Store}

theorem Mirrored.of_extents (h : Mirrored key segments store)
    (hextents : store'.extents = store.extents) : Mirrored key segments store' := by
  have hrecords : ∀ id, store'.records id = store.records id := by
    intro id
    rw [Store.records, Store.records, hextents]
  refine ⟨?_, ?_, h.distinct, ?_, ?_, h.active⟩
  · intro s hs
    rw [hrecords]
    exact h.batches s hs
  · intro id
    rw [hextents]
    exact h.present id
  · intro s hs r hr
    rw [hrecords] at hr
    exact h.keyed s hs r hr
  · intro s hs
    rw [Store.isSealed, hextents]
    exact h.sealed s hs

/-- Only the extents and locations of the segments matter. -/
theorem Mirrored.congr {segments' : List Segment} (h : Mirrored key segments store)
    (heq : segments'.map (fun s => (s.extentId, s.batches)) =
      segments.map fun s => (s.extentId, s.batches)) : Mirrored key segments' store := by
  have hids : segments'.map (·.extentId) = segments.map (·.extentId) := by
    have := congrArg (List.map Prod.fst) heq
    rwa [map_map, map_map] at this
  have hmem : ∀ s ∈ segments', ∃ t ∈ segments, t.extentId = s.extentId ∧ t.batches = s.batches := by
    intro s hs
    have hpair : (s.extentId, s.batches) ∈ segments.map fun s => (s.extentId, s.batches) :=
      heq ▸ mem_map_of_mem hs
    rcases mem_map.mp hpair with ⟨t, ht, htq⟩
    exact ⟨t, ht, congrArg Prod.fst htq, congrArg Prod.snd htq⟩
  refine ⟨?_, fun id => hids ▸ h.present id, hids ▸ h.distinct, ?_, ?_, ?_⟩
  · intro s hs
    rcases hmem s hs with ⟨t, ht, hid, hbatches⟩
    rw [← hid, ← hbatches]
    exact h.batches t ht
  · intro s hs
    rcases hmem s hs with ⟨t, ht, hid, _⟩
    rw [← hid]
    exact h.keyed t ht
  · intro s hs
    have hdrop : segments'.dropLast.map (·.extentId) = segments.dropLast.map (·.extentId) := by
      rw [map_dropLast, map_dropLast, hids]
    rcases mem_map.mp (hdrop ▸ mem_map_of_mem hs) with ⟨t, ht, hid⟩
    rw [← hid]
    exact h.sealed t ht
  · intro hnil
    rw [hnil, map_nil, eq_comm, map_eq_nil_iff] at heq
    exact h.active heq

variable {a : Segment} {l : List Segment}

/-- The other extents are not that of the last segment. -/
theorem Mirrored.ne_last (h : Mirrored key (l ++ [a]) store) {s : Segment} (hs : s ∈ l) :
    s.extentId ≠ a.extentId := by
  have hdis := h.distinct
  rw [map_append, nodup_append] at hdis
  exact hdis.2.2 _ (mem_map_of_mem hs) _ (mem_map_of_mem mem_cons_self)

/-- The last segment and its extent change together. -/
theorem Mirrored.replace {a' : Segment} (h : Mirrored key (l ++ [a]) store)
    (hid : a'.extentId = a.extentId) (htouched : Store.Touched a.extentId store store')
    (hbatches : a'.batches = recordLocations a.extentId 0 (store'.records a.extentId))
    (hkeyed : ∀ r ∈ store'.records a.extentId, r.identity.partitionKey = key) :
    Mirrored key (l ++ [a']) store' := by
  have hids : (l ++ [a']).map (·.extentId) = (l ++ [a]).map (·.extentId) := by
    simp only [map_append, map_cons, map_nil, hid]
  refine ⟨?_, ?_, hids ▸ h.distinct, ?_, ?_, append_ne_nil_of_right_ne_nil l (cons_ne_nil a' [])⟩
  · refine forall_mem_concat (fun s hs => ?_) (by rwa [hid])
    rw [htouched.records _ (h.ne_last hs)]
    exact h.batches s (mem_append_left _ hs)
  · intro id
    rw [htouched.present, hids]
    exact h.present id
  · refine forall_mem_concat (fun s hs => ?_) (by rwa [hid])
    rw [htouched.records _ (h.ne_last hs)]
    exact h.keyed s (mem_append_left _ hs)
  · intro s hs
    rw [dropLast_concat] at hs
    rw [htouched.sealed _ (h.ne_last hs)]
    exact h.sealed s (by rwa [dropLast_concat])

/-- A new extent becomes the last segment once all others are sealed. -/
theorem Mirrored.push (h : Mirrored key segments store)
    (hsealed : ∀ s ∈ segments, store.isSealed s.extentId = true) {id : Nat}
    (hfresh : id ∉ store.extents)
    (hextents : store'.extents = store.extents.insert id ⟨[], false⟩) (baseOffset : Nat) :
    Mirrored key (segments ++ [⟨id, baseOffset, 0, [], none⟩]) store' := by
  have hother : ∀ s ∈ segments, s.extentId ≠ id := by
    intro s hs heq
    exact hfresh ((h.present id).mpr (heq ▸ mem_map_of_mem hs))
  have hlook : ∀ s ∈ segments, store'.extents[s.extentId]? = store.extents[s.extentId]? := by
    intro s hs
    rw [hextents, getElem?_insert_eq, if_neg (Ne.symm (hother s hs))]
  have hnew : store'.records id = [] := by
    simp only [Store.records, hextents, getElem?_insert_eq, if_true, Option.elim_some]
  refine ⟨?_, ?_, ?_, ?_, ?_, append_ne_nil_of_left_ne_nil h.active _⟩
  · refine forall_mem_concat (fun s hs => ?_) (by rw [hnew]; rfl)
    rw [Store.records, hlook s hs]
    exact h.batches s hs
  · intro k
    rw [hextents, Std.ExtTreeMap.mem_insert, Std.LawfulEqCmp.compare_eq_iff_eq, h.present,
      map_append, mem_append, map_singleton, mem_singleton]
    constructor
    · rintro (rfl | hk)
      · exact Or.inr rfl
      · exact Or.inl hk
    · rintro (hk | rfl)
      · exact Or.inr hk
      · exact Or.inl rfl
  · rw [map_append, nodup_append]
    refine ⟨h.distinct, nodup_singleton _, ?_⟩
    intro k hk k' hk' heq
    rcases mem_map.mp hk with ⟨s, hs, rfl⟩
    rw [map_singleton, mem_singleton] at hk'
    exact hother s hs (heq.trans hk')
  · refine forall_mem_concat (fun s hs => ?_) (by rw [hnew]; exact forall_mem_nil _)
    rw [Store.records, hlook s hs]
    exact h.keyed s hs
  · intro s hs
    rw [dropLast_concat] at hs
    rw [Store.isSealed, hlook s hs]
    exact hsealed s hs

/-- Every location points at a record of the right length. -/
theorem Mirrored.stored (h : Mirrored key segments store) (hb : b ∈ segments.flatMap (·.batches)) :
    ∃ r, store.recordAt b.extentId b.recordIndex = some r ∧ r.payload.length = b.encodedLen := by
  rcases mem_flatMap.mp hb with ⟨s, hs, hbs⟩
  rw [h.batches s hs] at hbs
  rcases mem_recordLocations hbs with ⟨hid, _, r, hr, hlen⟩
  refine ⟨r, ?_, hlen⟩
  rw [Nat.sub_zero, Store.records] at hr
  rw [Store.recordAt, hid]
  cases he : store.extents[s.extentId]? with
  | none =>
    rw [he] at hr
    exact absurd hr (by simp)
  | some e =>
    rw [he] at hr
    exact hr

end Mirrored

/-! ## Writing to a durable log -/

/-- The batches of all segments but the last. -/
def OrderedLog.closedLocations (log : OrderedLog) : List BatchLocation :=
  log.segments.dropLast.flatMap (·.batches)

/-- The log can be read back from its store. -/
structure Durable (log : OrderedLog) : Prop where
  wellFormed : WellFormed log
  mirrored : Mirrored log.config.partitionKey log.segments log.store

variable {log log' : OrderedLog} {p : ReplicatedPartition}

theorem mirrored_split {key : Nat} {segment : Segment} (h : Mirrored key log.segments log.store)
    (hlast : log.segments.getLast? = some segment) :
    Mirrored key (log.segments.dropLast ++ [segment]) log.store := by
  rw [segments_eq hlast]
  exact h

theorem Turn.mirrored {key : Nat} (hturn : Turn log log')
    (h : Mirrored key log.segments log.store) : Mirrored key log'.segments log'.store := by
  cases hturn with
  | tick clock => exact h.of_extents rfl
  | @shut a e manifest hlast _ _ hextent _ clock =>
    have hrecords := (records_insert log.store a.extentId { e with sealed := true } clock).trans
      (records_of_getElem? hextent).symm
    have hmem : a ∈ log.segments := mem_of_getLast? hlast
    refine (mirrored_split h hlast).replace rfl (Store.touched_put hextent _ clock) ?_ ?_
    · rw [hrecords]
      exact h.batches a hmem
    · rw [hrecords]
      exact h.keyed a hmem
  | @push a e id hlast _ _ hextent hshut hfresh clock =>
    refine h.push ?_ hfresh rfl _
    rw [← segments_eq hlast]
    refine forall_mem_concat h.sealed ?_
    rw [Store.isSealed, hextent]
    exact hshut

theorem Turns.mirrored {key : Nat} (hturns : Turns log log')
    (h : Mirrored key log.segments log.store) : Mirrored key log'.segments log'.store := by
  induction hturns with
  | refl => exact h
  | tail _ hturn ih => exact hturn.mirrored ih

/-- When a segment is closed, then with all it holds. -/
theorem Turns.closedLocations (hturns : Turns log log') :
    log'.closedLocations = log.closedLocations ∨ log'.closedLocations = log.locations := by
  induction hturns with
  | refl => exact Or.inl rfl
  | tail hturns hturn ih =>
    cases hturn with
    | tick clock => exact ih
    | shut =>
      simp only [OrderedLog.closedLocations, OrderedLog.setActive, dropLast_concat]
      exact ih
    | push =>
      refine Or.inr (Eq.trans ?_ (Turns.rotated hturns).locations)
      simp only [OrderedLog.closedLocations, OrderedLog.locations, dropLast_concat]

theorem Stored.mirrored {baseOffset lastOffset timestampMs : Nat} {payload : List UInt8}
    (hstored : Stored log epoch baseOffset lastOffset timestampMs payload log')
    (h : Mirrored log.config.partitionKey log.segments log.store) :
    Mirrored log.config.partitionKey log'.segments log'.store ∧
      log'.closedLocations = log.closedLocations := by
  rcases hstored with @⟨a, e, hlast, hextent, _, clock⟩
  have hmem : a ∈ log.segments := mem_of_getLast? hlast
  have hbatches := h.batches a hmem
  have hkeyed := h.keyed a hmem
  rw [records_of_getElem? hextent] at hbatches hkeyed
  have hrecords := records_insert log.store a.extentId { e with
    records := e.records ++ [⟨⟨log.config.partitionKey, epoch, baseOffset, lastOffset, timestampMs⟩,
      payload⟩] } clock
  refine ⟨(mirrored_split h hlast).replace rfl (Store.touched_put hextent _ clock) ?_ ?_, ?_⟩
  · refine Eq.trans ?_ (congrArg (recordLocations a.extentId 0) hrecords).symm
    rw [recordLocations_append, ← hbatches, Nat.zero_add]
    rfl
  · intro r hr
    exact forall_mem_concat hkeyed rfl r ((congrArg (r ∈ ·) hrecords).mp hr)
  · simp only [OrderedLog.closedLocations, OrderedLog.pushBatch, OrderedLog.setActive,
      dropLast_concat]

/-- A write leaves a durable log, whatever the store refused on the way. Only a full
    segment is closed by it. -/
theorem appendAssigned_mirrored (h : Mirrored log.config.partitionKey log.segments log.store)
    (epoch baseOffset timestampMs recordCount : Nat) (payload : List UInt8) :
    (appendAssigned epoch baseOffset timestampMs recordCount payload).Ends log fun _ log' =>
      Mirrored log.config.partitionKey log'.segments log'.store ∧
        (log'.closedLocations = log.closedLocations ∨
          log.shouldRotate payload.length = true ∧ log'.closedLocations = log.locations) := by
  refine (appendAssigned_cases log epoch baseOffset timestampMs recordCount payload).mono ?_
  rintro r log' ⟨log1, hturns, hfull, hr⟩
  have hkept := hturns.mirrored h
  have hclosed : log1.closedLocations = log.closedLocations ∨
      log.shouldRotate payload.length = true ∧ log1.closedLocations = log.locations := by
    rcases hfull with hsame | hfull
    · exact Or.inl (congrArg (fun segments => segments.dropLast.flatMap (·.batches)) hsame)
    · exact hturns.closedLocations.imp_right fun hall => ⟨hfull, hall⟩
  cases r with
  | error e =>
    rw [hr]
    exact ⟨hkept, hclosed⟩
  | ok result =>
    rw [← hturns.rotated.config] at hkept ⊢
    rcases hr.2.2.2.mirrored hkept with ⟨hkept', hsame⟩
    rw [hsame]
    exact ⟨hkept', hclosed⟩

/-- What an attempt to write leaves behind: a durable log with the same batches
    or with one more at its end. Only a full segment was closed. -/
structure Written (log log' : OrderedLog) (recordCount payloadLen : Nat) : Prop where
  durable : Durable log'
  config : log'.config = log.config
  logStartOffset : log'.logStartOffset = log.logStartOffset
  batches : log'.contents = log.contents ∧ log'.nextOffset = log.nextOffset ∨
    ∃ batch, log'.contents = log.contents ++ [batch] ∧ batch.baseOffset = log.nextOffset ∧
      batch.lastOffset + 1 = log.nextOffset + recordCount ∧
      log'.nextOffset = log.nextOffset + recordCount
  closed : log'.closedLocations = log.closedLocations ∨
    log.shouldRotate payloadLen = true ∧ log'.closedLocations = log.locations

theorem Written.refl (h : Durable log) (recordCount payloadLen : Nat) :
    Written log log recordCount payloadLen :=
  ⟨h, rfl, rfl, Or.inl ⟨rfl, rfl⟩, Or.inl rfl⟩

theorem Written.subset (h : Written log log' recordCount payloadLen) :
    log.contents ⊆ log'.contents := by
  rcases h.batches with ⟨hsame, _⟩ | ⟨_, hmore, _⟩
  · rw [hsame]
    exact List.Subset.refl _
  · rw [hmore]
    exact subset_append_left _ _

/-- The watermark is not part of what is written. -/
theorem Written.commit (h : Written log log' recordCount payloadLen) {highWatermark : Nat}
    (hle : highWatermark ≤ log'.nextOffset) :
    Written log { log' with highWatermark } recordCount payloadLen := by
  have hwf := h.durable.wellFormed
  exact ⟨⟨⟨hwf.stored, hwf.tiled, hwf.filled, hle, hwf.bounded⟩, h.durable.mirrored⟩, h.config,
    h.logStartOffset, h.batches, h.closed⟩

/-- The log has one more batch, and the result is about that one. -/
structure Adds (log log' : OrderedLog) (batch : FetchedBatch) (result : AppendResult) : Prop where
  base : result.baseOffset = batch.baseOffset
  last : result.lastOffset = batch.lastOffset
  contents : log'.contents = log.contents ++ [batch]

/-- An append by the leader, successful or not. -/
theorem append_written (hdur : Durable log) (epoch timestampMs recordCount : Nat)
    (payload : List UInt8) (hlim : log.nextOffset + recordCount < offsetLimit) :
    (append epoch timestampMs recordCount payload).Ends log fun r log' =>
      Written log log' recordCount payload.length ∧ ∀ result, r = .ok result →
        Adds log log' ⟨log.nextOffset, log.nextOffset + (recordCount - 1), epoch, timestampMs,
          payload⟩ result := by
  unfold append
  refine Ends.get_bind ?_
  refine Ends.require_bind (fun _ => ⟨Written.refl hdur _ _, by simp⟩) fun _ => ?_
  refine ((appendAssigned_ends hdur.wellFormed epoch _ timestampMs recordCount payload
    hlim).and (appendAssigned_mirrored hdur.mirrored epoch _ timestampMs recordCount
      payload)).mono ?_
  rintro r log' ⟨hr, hmir, hclosed⟩
  cases r with
  | error e =>
    refine ⟨⟨⟨hr.wellFormed hdur.wellFormed, hr.config.symm ▸ hmir⟩, hr.config,
      hr.logStartOffset, Or.inl ⟨hr.contents hdur.wellFormed, hr.nextOffset⟩, hclosed⟩,
      by simp⟩
  | ok result =>
    rcases hr with ⟨_, hcount, hres, happended⟩
    have hlast : log.nextOffset + (recordCount - 1) + 1 = log.nextOffset + recordCount := by
      omega
    refine ⟨⟨⟨happended.wellFormed, happended.config.symm ▸ hmir⟩, happended.config,
      happended.logStartOffset, Or.inr ⟨_, happended.contents, rfl, hlast, ?_⟩, hclosed⟩, ?_⟩
    · rw [happended.nextOffset]
      exact hlast
    · rintro _ ⟨⟩
      rw [hres]
      exact ⟨rfl, rfl, happended.contents⟩

/-! ## Partitions with one replica -/

/-- The leader appends to this log and has nobody to copy to. -/
structure Alone (p : ReplicatedPartition) (log : OrderedLog) : Prop where
  log : p.replicas[p.leader]? = some log
  followers : p.followers = []

/-- The partition went on with another log of its leader. -/
structure Continued (p : ReplicatedPartition) (log : OrderedLog) (p' : ReplicatedPartition) :
    Prop where
  log : p'.replicas[p.leader]? = some log
  leader : p'.leader = p.leader
  epoch : p'.epoch = p.epoch
  isr : p'.isr = p.isr
  online : p'.online = p.online

theorem Continued.alone {p' : ReplicatedPartition} (h : Alone p log) (h' : Continued p log' p') :
    Alone p' log' := by
  refine ⟨h'.leader ▸ h'.log, ?_⟩
  unfold ReplicatedPartition.followers
  rw [h'.isr, h'.leader, h'.online]
  exact h.followers

theorem commit_cases (log : OrderedLog) (epoch highWatermark : Nat) :
    (commit epoch highWatermark).Ends log fun _ log' => log' = log ∨
      highWatermark ≤ log.nextOffset ∧ log' = { log with highWatermark } := by
  unfold commit
  refine Ends.get_bind (Ends.require_bind (fun _ => Or.inl rfl) fun _ => ?_)
  refine Ends.require_bind (fun _ => Or.inl rfl) fun hc => ?_
  exact Ends.modify (Or.inr ⟨hc.2.1, rfl⟩)

/-- Commits change no log's batches. -/
theorem commitOn_continued {p1 : ReplicatedPartition} {log1 : OrderedLog} (h : Continued p log1 p1)
    (hwritten : Written log log1 recordCount payloadLen) (epoch highWatermark : Nat)
    (durable : BTreeSet Nat) :
    (ReplicatedPartition.commitOn epoch highWatermark durable).Ends p1 fun _ p' =>
      ∃ log', Continued p log' p' ∧ Written log log' recordCount payloadLen ∧
        log'.contents = log1.contents := by
  unfold ReplicatedPartition.commitOn
  refine Ends.bind (Ends.forM (fun _ p' => ∃ log', Continued p log' p' ∧
    Written log log' recordCount payloadLen ∧ log'.contents = log1.contents) durable.toList ?_ ?_
    ⟨log1, h, hwritten, rfl⟩)
  · rintro node rest p2 ⟨log2, h2, hwritten2, hcontents⟩
    refine Ends.within (fun _ => ⟨log2, h2, hwritten2, hcontents⟩) fun other hother => ?_
    refine (commit_cases other epoch highWatermark).mono ?_
    intro r other' hcommit
    -- The commit is on the leader's log or leaves that log alone.
    have hstep : ∃ log', Continued p log' { p2 with replicas := p2.replicas.insert node other' } ∧
        Written log log' recordCount payloadLen ∧ log'.contents = log1.contents := by
      by_cases hnode : node = p.leader
      · subst hnode
        rw [h2.log, Option.some.injEq] at hother
        subst hother
        refine ⟨other', ⟨?_, h2.leader, h2.epoch, h2.isr, h2.online⟩, ?_⟩
        · rw [getElem?_insert_eq, if_pos rfl]
        · rcases hcommit with rfl | ⟨hle, rfl⟩
          · exact ⟨hwritten2, hcontents⟩
          · exact ⟨hwritten2.commit hle, hcontents⟩
      · refine ⟨log2, ⟨?_, h2.leader, h2.epoch, h2.isr, h2.online⟩, hwritten2, hcontents⟩
        rw [getElem?_insert_eq, if_neg hnode]
        exact h2.log
    cases r with
    | ok _ => exact hstep
    | error e => exact hstep
  · rintro p2 ⟨log2, h2, hrest⟩
    exact ⟨log2, ⟨h2.log, h2.leader, h2.epoch, h2.isr, h2.online⟩, hrest⟩

/-- An append of a partition with one replica: what happens to its log. -/
theorem append_alone (halone : Alone p log) (hdur : Durable log)
    (claimedLeader claimedEpoch timestampMs recordCount : Nat) (payload : List UInt8)
    (acknowledgments : Acknowledgments) (hlim : log.nextOffset + recordCount < offsetLimit) :
    (ReplicatedPartition.append claimedLeader claimedEpoch timestampMs recordCount payload
      acknowledgments).Ends p fun r p' => ∃ log', Continued p log' p' ∧
        Written log log' recordCount payload.length ∧ ∀ answer, r = .ok answer →
          Adds log log' ⟨log.nextOffset, log.nextOffset + (recordCount - 1), p.epoch, timestampMs,
            payload⟩ answer.result := by
  have hrefl : Continued p log p := ⟨halone.log, rfl, rfl, rfl, rfl⟩
  have hkept := Written.refl hdur recordCount payload.length
  unfold ReplicatedPartition.append
  refine Ends.get_bind (Ends.require_bind (fun _ => ⟨log, hrefl, hkept, by simp⟩) fun _ => ?_)
  refine Ends.require_bind (fun _ => ⟨log, hrefl, hkept, by simp⟩) fun _ => ?_
  have hleader : (onReplica p.leader (append p.epoch timestampMs recordCount payload)).Ends p
      fun r p1 => ∃ log1, Continued p log1 p1 ∧ Written log log1 recordCount payload.length ∧
        ∀ result, r = .ok result → Adds log log1 ⟨log.nextOffset,
          log.nextOffset + (recordCount - 1), p.epoch, timestampMs, payload⟩ result := by
    refine Ends.within_some halone.log ?_
    refine (append_written hdur p.epoch timestampMs recordCount payload hlim).mono ?_
    rintro r log1 ⟨hwritten, hres⟩
    exact ⟨log1, ⟨by rw [getElem?_insert_eq, if_pos rfl], rfl, rfl, rfl, rfl⟩, hwritten, hres⟩
  refine Ends.call hleader ?_ ?_
  · rintro e p1 ⟨log1, h1, hwritten, _⟩
    exact ⟨log1, h1, hwritten, by simp⟩
  rintro result p1 ⟨log1, h1, hwritten, hres⟩
  have hadds := hres result rfl
  rw [halone.followers]
  refine Ends.call (P := fun _ p2 => p2 = p1) (Ends.pure rfl) ?_ ?_
  · rintro e p2 rfl
    exact ⟨log1, h1, hwritten, by simp⟩
  rintro durable p2 rfl
  -- Whether or not the batch is committed, the log holds it.
  by_cases henough : decide (p.minimumIsr ≤ durable.size) = true
  · rw [if_pos henough]
    refine Ends.call (commitOn_continued h1 hwritten _ _ _) ?_ ?_
    · rintro e p3 ⟨log2, h2, hwritten2, _⟩
      exact ⟨log2, h2, hwritten2, by simp⟩
    · rintro _ p3 ⟨log2, h2, hwritten2, hsame⟩
      refine Ends.pure ⟨log2, h2, hwritten2, ?_⟩
      rintro _ ⟨⟩
      exact ⟨hadds.base, hadds.last, hsame.trans hadds.contents⟩
  · rw [if_neg henough]
    refine Ends.bind (Ends.pure (Ends.pure ⟨log1, h1, hwritten, ?_⟩))
    rintro _ ⟨⟩
    exact ⟨hadds.base, hadds.last, hadds.contents⟩

theorem keys_singleton {β : Type} (k : Nat) (v : β) :
    ((∅ : BTreeMap Nat β).insert k v).keys = [k] := by
  have hperm : ((∅ : BTreeMap Nat β).insert k v).keys.Perm [k] := by
    rw [perm_ext_iff_of_nodup Std.ExtTreeMap.nodup_keys (nodup_singleton k)]
    intro a
    rw [Std.ExtTreeMap.mem_keys, Std.ExtTreeMap.mem_insert, Std.LawfulEqCmp.compare_eq_iff_eq,
      mem_singleton]
    constructor
    · rintro (rfl | hmem)
      · rfl
      · exact absurd hmem Std.ExtTreeMap.not_mem_empty
    · rintro rfl
      exact Or.inl rfl
  exact perm_singleton.mp hperm

end Log

end Pepper
