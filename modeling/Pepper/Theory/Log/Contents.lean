import Pepper.Base.Tiling
import Pepper.Core.OrderedLog

/-!
# What an Ordered Log Holds

The agreement of a log's index with its store, and what each call does to the
batches the log holds.

Every store call except a cut only adds: extents appear, records are appended,
an extent becomes sealed. `Store.Extends` is that preorder, and a location that
was readable stays readable with the same bytes along it. Rotation therefore
changes nothing a reader can see (`Rotated`), and an append adds exactly one
batch at the end (`appendAssigned_ends`), whatever the store's script does.

## Main definitions

* `Store.Extends`: The preorder of store calls that only add.
* `WellFormed`: Index and store agree, and offsets are contiguous.
* `Turn`, `Stored`: The steps of a write.
* `Rotated`, `Appended`: What the calls of a log do to it.

## Theorems

* `rotateActive_turns`, `appendAssigned_cases`: The steps that rotations and writes
  are made of.
* `appendAssigned_ends`: An append adds one batch at the end, or nothing.
-/

namespace Pepper

open List

namespace ExtentStore

open Fallible

/-- Every extent is still there with at least the records it had. -/
def Store.Extends (s s' : Store) : Prop :=
  ∀ (id : Nat) (e : Extent), s.extents[id]? = some e →
    ∃ e', s'.extents[id]? = some e' ∧ e.records <+: e'.records

theorem Store.Extends.refl (s : Store) : s.Extends s :=
  fun _ e he => ⟨e, he, prefix_rfl⟩

theorem Store.Extends.trans {a b c : Store} (hab : a.Extends b) (hbc : b.Extends c) :
    a.Extends c := by
  intro id e he
  rcases hab id e he with ⟨e', he', hpre⟩
  rcases hbc id e' he' with ⟨e'', he'', hpre'⟩
  exact ⟨e'', he'', hpre.trans hpre'⟩

/-- The record at a place of the store. -/
def Store.recordAt (s : Store) (extentId recordIndex : Nat) : Option Record :=
  s.extents[extentId]?.bind (·.records[recordIndex]?)

variable {s : Store} {α : Type} {Q : Except ExtentError α → Store → Prop}

theorem Store.Extends.recordAt {s' : Store} (h : s.Extends s') {extentId recordIndex : Nat}
    {r : Record} (hr : s.recordAt extentId recordIndex = some r) :
    s'.recordAt extentId recordIndex = some r := by
  rcases Option.bind_eq_some_iff.mp hr with ⟨e, he, hrec⟩
  rcases h extentId e he with ⟨e', he', t, ht⟩
  refine Option.bind_eq_some_iff.mpr ⟨e', he', ?_⟩
  rw [← ht, getElem?_append_left (List.getElem?_eq_some_iff.mp hrec).1, hrec]

variable {id : Nat}

/-- Replacing an extent by one with more records. -/
theorem Store.extends_put {e' : Extent}
    (h : ∀ e, s.extents[id]? = some e → e.records <+: e'.records) (clock : Nat) :
    s.Extends { s with extents := s.extents.insert id e', clock } := by
  intro k e he
  simp only [getElem?_insert_eq]
  by_cases hk : id = k
  · subst hk
    exact ⟨e', if_pos rfl, h e he⟩
  · exact ⟨e, by rw [if_neg hk, he], prefix_rfl⟩

theorem Store.extends_clock (s : Store) (clock : Nat) : s.Extends { s with clock } :=
  fun _ e he => ⟨e, he, prefix_rfl⟩

/-- Looking an extent up changes nothing. -/
theorem find_bind {f : Extent → StoreM α}
    (hfail : s.extents[id]? = none → Q (.error (.notFound id)) s)
    (hok : ∀ e, s.extents[id]? = some e → (f e).Ends s Q) : Ends (Store.find id >>= f) s Q :=
  Ends.bind (Ends.get_bind (Ends.expect hfail hok))

theorem nextIo_bind {f : Io → StoreM α}
    (h : (f (s.script s.clock)).Ends { s with clock := s.clock + 1 } Q) :
    Ends (Store.nextIo >>= f) s Q :=
  Ends.bind h

/-- The script decides whether the machine performs a call; only the clock
    moves. -/
theorem perform_bind {f : Unit → StoreM α}
    (hfail : Q (.error .refused) { s with clock := s.clock + 1 })
    (hok : (f ()).Ends { s with clock := s.clock + 1 } Q) : Ends (Store.perform >>= f) s Q := by
  refine Ends.bind (nextIo_bind ?_)
  exact Ends.require (fun _ => hfail) (fun _ => hok)

theorem create_ends (s : Store) : Store.create.Ends s fun r s' =>
    match r with
    | .ok id => (s.script s.clock).outcome = .done ∧ (s.script s.clock).freshId = id ∧
        id ∉ s.extents ∧
        s' = { s with extents := s.extents.insert id ⟨[], false⟩, clock := s.clock + 1 }
    | .error _ => ¬ ((s.script s.clock).outcome = .done ∧
        (s.script s.clock).freshId ∉ s.extents) ∧ s' = { s with clock := s.clock + 1 } := by
  unfold Store.create
  refine nextIo_bind (Ends.get_bind (Ends.require_bind (fun hc => ⟨hc, rfl⟩) fun hc => ?_))
  exact Ends.modify_bind (Ends.pure ⟨hc.1, rfl, hc.2, rfl⟩)

/-- A seal may be in place although the call has failed. -/
theorem sealExtent_ends (s : Store) (id : Nat) : (Store.sealExtent id).Ends s fun r s' =>
    (∃ e, s.extents[id]? = some e ∧ (s.script s.clock).outcome ≠ .refused ∧
      (r = .ok () ↔ (s.script s.clock).outcome = .done) ∧
      s' = { s with
        extents := s.extents.insert id { e with sealed := true }, clock := s.clock + 1 }) ∨
    (∃ error, r = .error error) ∧ (id ∈ s.extents → (s.script s.clock).outcome = .refused) ∧
      ∃ clock, s' = { s with clock } := by
  unfold Store.sealExtent
  refine find_bind (fun hnone => Or.inr ⟨⟨_, rfl⟩, fun hid => ?_, s.clock, rfl⟩) fun e he => ?_
  · rw [Std.ExtTreeMap.mem_iff_isSome_getElem?, hnone] at hid
    cases hid
  refine nextIo_bind (Ends.require_bind
    (fun hc => Or.inr ⟨⟨_, rfl⟩, fun _ => not_not.mp hc, _, rfl⟩)
    fun hc => Ends.modify_bind (Ends.require (fun hlate => ?_) fun hdone => ?_))
  · exact Or.inl ⟨e, he, hc, iff_of_false (by simp) hlate, rfl⟩
  · exact Or.inl ⟨e, he, hc, iff_of_true rfl hdone, rfl⟩

/-- An append adds the record behind those of its extent, or nothing. -/
theorem append_ends (s : Store) (id : Nat) (record : Record) :
    (Store.append id record).Ends s fun r s' =>
      match r with
      | .ok receipt => ∃ e, s.extents[id]? = some e ∧ e.sealed = false ∧
          receipt = ⟨id, e.records.length, record.payload.length⟩ ∧
          s' = { s with
            extents := s.extents.insert id { e with records := e.records ++ [record] }
            clock := s.clock + 1 }
      | .error _ => ∃ clock, s' = { s with clock } := by
  unfold Store.append
  refine find_bind (fun _ => ⟨s.clock, rfl⟩) fun e he => ?_
  refine Ends.require_bind (fun _ => ⟨s.clock, rfl⟩) fun hopen => perform_bind ⟨_, rfl⟩ ?_
  exact Ends.modify_bind (Ends.pure ⟨e, he, hopen, rfl, rfl⟩)

end ExtentStore

namespace Log

open ExtentStore Fallible

/-- Index and store agree, the offsets of the batches are contiguous up to the
    end of the log, and only the last segment may be empty. -/
structure WellFormed (log : OrderedLog) : Prop where
  stored : ∀ b ∈ log.locations, ∃ r, log.store.recordAt b.extentId b.recordIndex = some r ∧
    r.payload.length = b.encodedLen
  tiled : ∃ start, Tiles BatchLocation.baseOffset BatchLocation.lastOffset start log.locations
    log.nextOffset
  filled : ∀ s ∈ log.segments.dropLast, s.batches ≠ []
  committed : log.highWatermark ≤ log.nextOffset
  bounded : log.nextOffset < offsetLimit

theorem empty_wellFormed : WellFormed OrderedLog.empty where
  stored := by simp [OrderedLog.locations, OrderedLog.empty]
  tiled := ⟨0, rfl⟩
  filled := by simp [OrderedLog.empty]
  committed := le_rfl
  bounded := by decide

/-- The batch behind a location. -/
def OrderedLog.batchAt (log : OrderedLog) (b : BatchLocation) : FetchedBatch :=
  ⟨b.baseOffset, b.lastOffset, b.epoch, b.timestampMs, log.bytesAt b⟩

theorem contents_eq (log : OrderedLog) : log.contents = log.locations.map log.batchAt := rfl

variable {log log' : OrderedLog} {store : Store} {segment : Segment} {α : Type}
  {b : BatchLocation} {r : Record} {P : Except ExtentError α → Store → Prop} {x : StoreM α}

theorem bytesAt_eq (h : log.store.recordAt b.extentId b.recordIndex = some r) :
    log.bytesAt b = r.payload := by
  unfold OrderedLog.bytesAt
  rw [show (log.store.extents[b.extentId]?.bind (·.records[b.recordIndex]?)) = some r from h]
  rfl

/-- A store that only grew gives every stored location the bytes it had. -/
theorem contents_extends (hstored : ∀ b ∈ log.locations,
      ∃ r, log.store.recordAt b.extentId b.recordIndex = some r)
    (hlocations : log'.locations = log.locations) (hstore : log.store.Extends log'.store) :
    log'.contents = log.contents := by
  rw [contents_eq, contents_eq, hlocations]
  refine map_congr_left ?_
  intro b hb
  rcases hstored b hb with ⟨r, hr⟩
  rw [OrderedLog.batchAt, OrderedLog.batchAt, bytesAt_eq hr, bytesAt_eq (hstore.recordAt hr)]

/-- The log was rotated, sealed or its store moved on, and nothing else. -/
structure Rotated (log log' : OrderedLog) : Prop where
  config : log'.config = log.config
  store : log.store.Extends log'.store
  locations : log'.locations = log.locations
  nextOffset : log'.nextOffset = log.nextOffset
  highWatermark : log'.highWatermark = log.highWatermark
  logStartOffset : log'.logStartOffset = log.logStartOffset
  promisedEpoch : log'.promisedEpoch = log.promisedEpoch
  leaderEpoch : log'.leaderEpoch = log.leaderEpoch
  filled : (∀ s ∈ log.segments.dropLast, s.batches ≠ []) →
    ∀ s ∈ log'.segments.dropLast, s.batches ≠ []

theorem Rotated.refl (log : OrderedLog) : Rotated log log :=
  ⟨rfl, Store.Extends.refl _, rfl, rfl, rfl, rfl, rfl, rfl, id⟩

theorem Rotated.trans {a b c : OrderedLog} (hab : Rotated a b) (hbc : Rotated b c) : Rotated a c :=
  ⟨hbc.config.trans hab.config, hab.store.trans hbc.store, hbc.locations.trans hab.locations,
    hbc.nextOffset.trans hab.nextOffset, hbc.highWatermark.trans hab.highWatermark,
    hbc.logStartOffset.trans hab.logStartOffset, hbc.promisedEpoch.trans hab.promisedEpoch,
    hbc.leaderEpoch.trans hab.leaderEpoch, fun h => hbc.filled (hab.filled h)⟩

theorem Rotated.wellFormed (h : Rotated log log') (hwf : WellFormed log) : WellFormed log' := by
  refine ⟨?_, ?_, h.filled hwf.filled, ?_, ?_⟩
  · intro b hb
    rw [h.locations] at hb
    rcases hwf.stored b hb with ⟨r, hr, hlen⟩
    exact ⟨r, h.store.recordAt hr, hlen⟩
  · rw [h.locations, h.nextOffset]
    exact hwf.tiled
  · rw [h.highWatermark, h.nextOffset]
    exact hwf.committed
  · rw [h.nextOffset]
    exact hwf.bounded

theorem Rotated.contents (h : Rotated log log') (hwf : WellFormed log) :
    log'.contents = log.contents :=
  contents_extends (fun b hb => (hwf.stored b hb).imp fun _ hr => hr.1) h.locations h.store

theorem rotated_store (log : OrderedLog) (h : log.store.Extends store) :
    Rotated log { log with store } :=
  ⟨rfl, h, rfl, rfl, rfl, rfl, rfl, rfl, id⟩

/-- The last segment, taken from the list and put back. -/
theorem segments_eq (h : log.segments.getLast? = some segment) :
    log.segments.dropLast ++ [segment] = log.segments :=
  dropLast_append_getLast? segment h

theorem locations_setActive (log : OrderedLog) (segment : Segment) :
    (log.setActive segment).locations =
      log.segments.dropLast.flatMap (·.batches) ++ segment.batches := by
  simp only [OrderedLog.locations, OrderedLog.setActive, flatMap_append, flatMap_cons,
    flatMap_nil, append_nil]

theorem locations_eq (h : log.segments.getLast? = some segment) :
    log.locations = log.segments.dropLast.flatMap (·.batches) ++ segment.batches := by
  rw [← locations_setActive log segment]
  simp only [OrderedLog.locations, OrderedLog.setActive, segments_eq h]

/-- A store call seen from the log: only the store changes. -/
theorem onStore_ends (h : x.Ends log.store P) : (onStore x).Ends log fun r log' =>
      ∃ r' store, P r' store ∧ log' = { log with store } ∧ r = r'.mapError LogError.extent :=
  ⟨_, _, h, rfl, rfl⟩

/-- A store call, followed by more, from what is known of the outcomes of the
    call. -/
theorem onStore_bind {β : Type} {f : α → LogM β} {Q : Except LogError β → OrderedLog → Prop}
    (h : x.Ends log.store P)
    (hfail : ∀ e store, P (.error e) store → Q (.error (.extent e)) { log with store })
    (hok : ∀ a store, P (.ok a) store → (f a).Ends { log with store } Q) :
    Ends (onStore x >>= f) log Q := by
  refine Ends.bind (Ends.zoom (h.mono ?_))
  intro r store hr
  cases r with
  | ok a => exact hok a store hr
  | error e => exact hfail e store hr

theorem active_bind {f : Segment → LogM α} {Q : Except LogError α → OrderedLog → Prop}
    (hfail : log.segments.getLast? = none → Q (.error (.activeExtentCount 0)) log)
    (hok : ∀ segment, log.segments.getLast? = some segment → (f segment).Ends log Q) :
    Ends (active >>= f) log Q :=
  Ends.bind (Ends.get_bind (Ends.expect hfail hok))

/-- Sealing the last segment. -/
theorem rotated_setSealed (log : OrderedLog) (hstore : log.store.Extends store)
    (h : log.segments.getLast? = some segment) (manifest : Option SegmentManifest) :
    Rotated log { log.setActive { segment with sealed := manifest } with store } := by
  refine ⟨rfl, hstore, ?_, rfl, rfl, rfl, rfl, rfl, ?_⟩
  · exact (locations_setActive log _).trans (locations_eq h).symm
  · intro hfilled s hs
    simp only [OrderedLog.setActive, dropLast_concat] at hs
    exact hfilled s hs

/-- A new segment behind one that has batches. -/
theorem rotated_push (log : OrderedLog) (hstore : log.store.Extends store)
    (h : log.segments.getLast? = some segment) (hbatches : segment.batches ≠ [])
    (extentId baseOffset : Nat) :
    Rotated log { log with
      segments := log.segments ++ [⟨extentId, baseOffset, 0, [], none⟩], store } := by
  refine ⟨rfl, hstore, ?_, rfl, rfl, rfl, rfl, rfl, ?_⟩
  · simp only [OrderedLog.locations, flatMap_append, flatMap_cons, flatMap_nil, append_nil]
  · intro hfilled s hs
    simp only [dropLast_concat] at hs
    rw [← segments_eq h, mem_append, mem_singleton] at hs
    rcases hs with hs | rfl
    · exact hfilled s hs
    · exact hbatches

/-- One step on the way through a rotation. -/
inductive Turn (log : OrderedLog) : OrderedLog → Prop where
  /-- A call of the store had no effect. -/
  | tick (clock : Nat) : Turn log { log with store := { log.store with clock } }
  /-- The last extent is sealed. The segment is not when the store has reported an
      error. -/
  | shut {a : Segment} {e : Extent} {manifest : Option SegmentManifest}
      (hlast : log.segments.getLast? = some a) (hfilled : a.batches ≠ [])
      (hcommitted : a.endOffset ≤ log.highWatermark)
      (hextent : log.store.extents[a.extentId]? = some e)
      (hmanifest : manifest = a.sealed ∨ manifest = some (manifestOf a)) (clock : Nat) :
      Turn log { log.setActive { a with sealed := manifest } with
        store := { log.store with
          extents := log.store.extents.insert a.extentId { e with sealed := true }, clock } }
  /-- A new extent is there, with its segment. -/
  | push {a : Segment} {e : Extent} {id : Nat} (hlast : log.segments.getLast? = some a)
      (hfilled : a.batches ≠ []) (hsealed : a.sealed.isSome = true)
      (hextent : log.store.extents[a.extentId]? = some e) (hshut : e.sealed = true)
      (hfresh : id ∉ log.store.extents) (clock : Nat) :
      Turn log { log with
        segments := log.segments ++ [⟨id, log.nextOffset, 0, [], none⟩]
        store := { log.store with
          extents := log.store.extents.insert id ⟨[], false⟩, clock } }

def Turns : OrderedLog → OrderedLog → Prop :=
  Relation.ReflTransGen Turn

theorem Turn.rotated (h : Turn log log') : Rotated log log' := by
  cases h with
  | tick clock => exact rotated_store log (log.store.extends_clock clock)
  | @shut a e manifest hlast _ _ hextent _ clock =>
    refine rotated_setSealed log (Store.extends_put (fun e' he' => ?_) clock) hlast manifest
    rw [hextent, Option.some.injEq] at he'
    exact he' ▸ prefix_rfl
  | push hlast hfilled _ _ _ hfresh clock =>
    refine rotated_push log (Store.extends_put (fun e' he' => ?_) clock) hlast hfilled _ _
    exact absurd (mem_iff_exists.mpr ⟨_, he'⟩) hfresh

theorem Turns.rotated (h : Turns log log') : Rotated log log' := by
  induction h with
  | refl => exact Rotated.refl log
  | tail _ hturn ih => exact ih.trans hturn.rotated

theorem rotateActive_turns : rotateActive.Moves Turns := by
  intro log
  show rotateActive.Ends log fun _ log' => Relation.ReflTransGen Turn log log'
  unfold rotateActive sealActive pushActive
  refine Ends.bind (active_bind (fun _ => .refl) fun a hlast => ?_)
  refine Ends.require_bind (fun _ => .refl) fun hfilled => Ends.get_bind ?_
  refine Ends.require_bind (fun _ => .refl) fun hcommitted => ?_
  refine onStore_bind (sealExtent_ends log.store a.extentId) ?_ ?_
  · rintro error store (⟨e, hextent, _, _, rfl⟩ | ⟨_, _, clock, rfl⟩)
    · have hturn := Turn.shut hlast hfilled hcommitted hextent (Or.inl rfl) (log.store.clock + 1)
      rw [OrderedLog.setActive, segments_eq hlast] at hturn
      exact .single hturn
    · exact .single (.tick clock)
  · rintro u store (⟨e, hextent, _, _, rfl⟩ | ⟨⟨_, herr⟩, _⟩)
    · have hshut := Turn.shut hlast hfilled hcommitted hextent (Or.inr rfl) (log.store.clock + 1)
      refine Ends.modify_bind (Ends.pure (Ends.bind (onStore_bind (create_ends _) ?_ ?_)))
      · rintro error store ⟨_, rfl⟩
        exact (Relation.ReflTransGen.single hshut).tail (.tick _)
      · rintro id store ⟨_, _, hfresh, rfl⟩
        refine Ends.modify (Ends.pure ((Relation.ReflTransGen.single hshut).tail ?_))
        exact .push (a := { a with sealed := some (manifestOf a) }) getLast?_concat hfilled rfl
          ((getElem?_insert_eq _ _ _ _).trans (if_pos rfl)) rfl hfresh _
    · cases herr

theorem rotateIfFull_turns (log : OrderedLog) (payloadLen : Nat) :
    (rotateIfFull payloadLen).Ends log fun _ log' =>
      Turns log log' ∧ (log' = log ∨ log.shouldRotate payloadLen = true) := by
  unfold rotateIfFull
  refine Ends.get_bind ?_
  by_cases hfull : log.shouldRotate payloadLen = true
  · rw [if_pos hfull]
    exact Ends.call (rotateActive_turns.ends log) (fun _ _ h => ⟨h, Or.inr hfull⟩)
      fun _ _ h => Ends.pure ⟨h, Or.inr hfull⟩
  · rw [if_neg hfull]
    exact Ends.pure ⟨.refl, Or.inl rfl⟩

/-! ## Appends -/

/-- One batch was added at the end of the log. -/
structure Appended (log log' : OrderedLog) (batch : FetchedBatch) : Prop where
  config : log'.config = log.config
  wellFormed : WellFormed log'
  contents : log'.contents = log.contents ++ [batch]
  nextOffset : log'.nextOffset = batch.lastOffset + 1
  highWatermark : log'.highWatermark = log.highWatermark
  logStartOffset : log'.logStartOffset = log.logStartOffset
  promisedEpoch : log'.promisedEpoch = log.promisedEpoch
  leaderEpoch : log'.leaderEpoch = log.leaderEpoch

theorem wrappingSucc_eq {n : Nat} (h : n + 1 < offsetLimit) : wrappingSucc n = n + 1 :=
  Nat.mod_eq_of_lt h

theorem locations_pushBatch (hseg : log.segments.getLast? = some segment) :
    (log.pushBatch segment b).locations = log.locations ++ [b] := by
  rw [locations_eq hseg, append_assoc]
  exact locations_setActive log _

/-- Entering a stored batch into the index. -/
theorem pushBatch_appended (hwf : WellFormed log) (hrotated : Rotated log log')
    (hseg : log'.segments.getLast? = some segment)
    (hstored : log'.store.recordAt b.extentId b.recordIndex = some r)
    (hlen : r.payload.length = b.encodedLen) (hbase : b.baseOffset = log.nextOffset)
    (hspan : b.baseOffset ≤ b.lastOffset) (hlim : b.lastOffset + 1 < offsetLimit) :
    Appended log (log'.pushBatch segment b)
      ⟨b.baseOffset, b.lastOffset, b.epoch, b.timestampMs, r.payload⟩ := by
  have hlocations := locations_pushBatch (b := b) hseg
  have hwf' := hrotated.wellFormed hwf
  have hnext : (log'.pushBatch segment b).nextOffset = b.lastOffset + 1 := wrappingSucc_eq hlim
  refine ⟨hrotated.config, ⟨?_, ?_, ?_, ?_, ?_⟩, ?_, hnext, hrotated.highWatermark,
    hrotated.logStartOffset, hrotated.promisedEpoch, hrotated.leaderEpoch⟩
  · intro b' hb'
    rw [hlocations, mem_append, mem_singleton] at hb'
    rcases hb' with hb' | rfl
    · exact hwf'.stored b' hb'
    · exact ⟨r, hstored, hlen⟩
  · rcases hwf.tiled with ⟨start, htiles⟩
    refine ⟨start, ?_⟩
    rw [hlocations, hnext, hrotated.locations]
    exact tiles_concat htiles hbase (hbase ▸ hspan)
  · intro s hs
    refine hwf'.filled s ?_
    simpa only [OrderedLog.pushBatch, OrderedLog.setActive, dropLast_concat] using hs
  · rw [hnext, show (log'.pushBatch segment b).highWatermark = log'.highWatermark from rfl,
      hrotated.highWatermark]
    have := hwf.committed
    omega
  · rw [hnext]
    exact hlim
  · rw [contents_eq, hlocations, map_append, map_singleton]
    congr 1
    · rw [← hrotated.contents hwf]
      rfl
    · rw [OrderedLog.batchAt,
        show (log'.pushBatch segment b).bytesAt b = log'.bytesAt b from rfl, bytesAt_eq hstored]

/-- A record was stored in the last extent and its batch entered into the index. -/
inductive Stored (log : OrderedLog) (epoch baseOffset lastOffset timestampMs : Nat)
    (payload : List UInt8) : OrderedLog → Prop where
  | mk {a : Segment} {e : Extent} (hlast : log.segments.getLast? = some a)
      (hextent : log.store.extents[a.extentId]? = some e) (hopen : e.sealed = false) (clock : Nat) :
      Stored log epoch baseOffset lastOffset timestampMs payload (OrderedLog.pushBatch { log with
            store := { log.store with
              extents := log.store.extents.insert a.extentId { e with
                records := e.records ++ [⟨⟨log.config.partitionKey, epoch, baseOffset, lastOffset,
                  timestampMs⟩, payload⟩] }
              clock } }
          a ⟨baseOffset, lastOffset, epoch, timestampMs, a.extentId, e.records.length,
            payload.length⟩)

/-- The ways a write can end: the log was rotated or not, and then the batch is
    stored or the call has failed. -/
theorem appendAssigned_cases (log : OrderedLog) (epoch baseOffset timestampMs count : Nat)
    (payload : List UInt8) :
    (appendAssigned epoch baseOffset timestampMs count payload).Ends log fun r log' =>
      ∃ log1, Turns log log1 ∧
        (log1.segments = log.segments ∨ log.shouldRotate payload.length = true) ∧
        match r with
        | .ok result => baseOffset = log.nextOffset ∧ count ≠ 0 ∧
            result = ⟨baseOffset, baseOffset + (count - 1), epoch, log1.highWatermark⟩ ∧
            Stored log1 epoch baseOffset (baseOffset + (count - 1)) timestampMs payload log'
        | .error _ => log' = log1 := by
  have hrefl : ∃ log1, Turns log log1 ∧
      (log1.segments = log.segments ∨ log.shouldRotate payload.length = true) ∧ log = log1 :=
    ⟨log, .refl, Or.inl rfl, rfl⟩
  unfold appendAssigned
  refine Ends.require_bind (fun _ => hrefl) fun hcount => Ends.get_bind ?_
  refine Ends.require_bind (fun _ => hrefl) fun hbase => ?_
  refine Ends.require_bind (fun _ => hrefl) fun _ => ?_
  refine Ends.call ((rotateIfFull_turns log payload.length).mono fun _ log1 h =>
    And.intro h.1 (h.2.imp_left (congrArg OrderedLog.segments))) (fun _ log1 h =>
      ⟨log1, h.1, h.2, rfl⟩) ?_
  rintro _ log1 ⟨hturns, hfull⟩
  unfold appendRecord
  refine Ends.bind (active_bind (fun _ => ⟨log1, hturns, hfull, rfl⟩) fun a hlast => ?_)
  refine Ends.get_bind (onStore_bind (append_ends log1.store a.extentId _) ?_ ?_)
  · rintro error store ⟨clock, rfl⟩
    exact ⟨_, Relation.ReflTransGen.tail hturns (.tick clock), hfull, rfl⟩
  · rintro receipt store ⟨e, hextent, hopen, rfl, rfl⟩
    exact Ends.modify (Ends.get_bind (Ends.pure
      ⟨log1, hturns, hfull, hbase, hcount, rfl, .mk hlast hextent hopen _⟩))

/-- What a write at the end of a well-formed log does: it adds the batch, or it
    leaves what the log holds as it was. -/
theorem appendAssigned_ends (hwf : WellFormed log) (epoch baseOffset timestampMs count : Nat)
    (payload : List UInt8) (hlim : baseOffset + count < offsetLimit) :
    (appendAssigned epoch baseOffset timestampMs count payload).Ends log fun r log' =>
      match r with
      | .ok result => baseOffset = log.nextOffset ∧ count ≠ 0 ∧
          result = ⟨baseOffset, baseOffset + (count - 1), epoch, log.highWatermark⟩ ∧
          Appended log log' ⟨baseOffset, baseOffset + (count - 1), epoch, timestampMs, payload⟩
      | .error _ => Rotated log log' := by
  refine (appendAssigned_cases log epoch baseOffset timestampMs count payload).mono ?_
  rintro r log' ⟨log1, hturns, _, hr⟩
  cases r with
  | error e => exact hr ▸ hturns.rotated
  | ok result =>
    rcases hr with ⟨hbase, hcount, hres, ⟨hlast, hextent, _, clock⟩⟩
    refine ⟨hbase, hcount, hturns.rotated.highWatermark ▸ hres, ?_⟩
    refine pushBatch_appended hwf (hturns.rotated.trans (rotated_store log1
      (Store.extends_put (fun e' he' => ?_) clock))) hlast
      (r := ⟨⟨log1.config.partitionKey, epoch, baseOffset, baseOffset + (count - 1),
        timestampMs⟩, payload⟩) ?_ rfl hbase (Nat.le_add_right _ _) (by simp only []; omega)
    · rw [hextent, Option.some.injEq] at he'
      exact he' ▸ prefix_append _ _
    · simp only [Store.recordAt, getElem?_insert_eq, if_true, Option.bind_some,
        getElem?_concat_length]

end Log

end Pepper
