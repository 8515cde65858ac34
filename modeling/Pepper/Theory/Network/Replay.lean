import Pepper.Base.Runs
import Pepper.Core.Network.Admission

/-!
# Replayed Requests

How often one signed envelope gets past authentication and the replay window.

An envelope is fresh for a minute on either side of its timestamp, two minutes
in all, while the window forgets a request one minute after its arrival. The
two agree only if the minute of the window does not start before the timestamp:
a request that is dated ahead of the node's clock outlives its entry. Both
checks also read the clock on their own, so a request can be fresh when it is
verified and meet a window that has moved on when it is checked.

## Main definitions

* `Arrival`: A request with the two times at which the node looks at it.
* `Node`: A node, its clock and the arrivals that passed both checks.
* `Arrival.Timely`: The request is not dated ahead, and verified and checked in
  the same bucket.
* `Arrival.Guarded`: What is asked of the arrivals of a run.

## Theorems

* `getElem?_expire`: What forgetting leaves.
* `checkReplay_yields`: What a check finds and what it leaves in the windows.
* `envelope_passes_once`: No envelope passes twice in a run of timely arrivals.
-/

namespace Pepper

namespace Network

open Fallible List

namespace ReplayWindow

theorem getElem?_remove (window : ReplayWindow) (bucket b : Int) :
    (window.remove bucket).buckets[b]? = if bucket = b then none else window.buckets[b]? := by
  rw [remove]
  cases hbucket : window.buckets[bucket]? with
  | some keys => simp only [getElem?_erase_eq]
  | none =>
    by_cases h : bucket = b
    · rw [if_pos h, ← h, hbucket]
    · rw [if_neg h]

theorem getElem?_foldl_remove (expired : List Int) (window : ReplayWindow) (b : Int) :
    (expired.foldl remove window).buckets[b]? =
      if b ∈ expired then none else window.buckets[b]? := by
  induction expired generalizing window with
  | nil => simp only [foldl_nil, not_mem_nil, if_false]
  | cons bucket expired ih =>
    rw [foldl_cons, ih, getElem?_remove]
    by_cases hmem : b ∈ expired
    · rw [if_pos hmem, if_pos (mem_cons_of_mem _ hmem)]
    · by_cases hb : bucket = b
      · rw [if_neg hmem, if_pos hb, if_pos (mem_cons.mpr (.inl hb.symm))]
      · rw [if_neg hmem, if_neg hb, if_neg]
        simp only [mem_cons, not_or]
        exact ⟨fun h => hb h.symm, hmem⟩

/-- Forgetting takes the old buckets and leaves the others as they are. -/
theorem getElem?_expire (window : ReplayWindow) (oldest b : Int) :
    (window.expire oldest).buckets[b]? = if b < oldest then none else window.buckets[b]? := by
  rw [expire, getElem?_foldl_remove]
  by_cases hb : b < oldest
  · rw [if_pos hb]
    by_cases hmem : b ∈ window.buckets.keys
    · rw [if_pos (mem_filter.mpr ⟨hmem, decide_eq_true hb⟩)]
    · rw [if_neg (fun h => hmem (mem_filter.mp h).1)]
      rw [Std.ExtTreeMap.mem_keys] at hmem
      exact Std.ExtTreeMap.getElem?_eq_none hmem
  · rw [if_neg hb, if_neg]
    intro h
    exact hb (of_decide_eq_true (mem_filter.mp h).2)

/-- A window remembers a key in a bucket. -/
def Remembers (window : ReplayWindow) (bucket : Int) (key : Bytes) : Prop :=
  ∃ keys, window.buckets[bucket]? = some keys ∧ key ∈ keys

variable {bucket : Int} {key : Bytes} {window : ReplayWindow}

theorem remembers_expire {oldest : Int} (h : window.Remembers bucket key) (hle : oldest ≤ bucket) :
    (window.expire oldest).Remembers bucket key := by
  rcases h with ⟨keys, hkeys, hkey⟩
  exact ⟨keys, by rw [getElem?_expire, if_neg (by omega), hkeys], hkey⟩

theorem Remembers.contains (h : window.Remembers bucket key) : window.contains key = true := by
  rcases h with ⟨keys, hkeys, hkey⟩
  rw [ReplayWindow.contains, any_eq_true]
  exact ⟨(bucket, keys), Std.ExtTreeMap.mem_toList_iff_getElem?_eq_some.mpr hkeys,
    contains_iff_mem.mpr hkey⟩

theorem Remembers.insert (h : window.Remembers bucket key) (bucket' : Int) (key' : Bytes) :
    (window.insert bucket' key').Remembers bucket key := by
  rcases h with ⟨keys, hkeys, hkey⟩
  by_cases hb : bucket' = bucket
  · subst hb
    refine ⟨_, by rw [ReplayWindow.insert, getElem?_insert_eq, if_pos rfl], ?_⟩
    rw [hkeys]
    exact mem_insert_of_mem hkey
  · exact ⟨keys, by rw [ReplayWindow.insert, getElem?_insert_eq, if_neg hb, hkeys], hkey⟩

/-- The first bucket that a check at this time looks at. -/
def oldest (now : Int) : Int :=
  (now - replayWindowSeconds) / replayBucketSeconds

/-- Nothing is forgotten from a bucket on. -/
def Retains (first : Int) (window window' : ReplayWindow) : Prop :=
  ∀ b k, first ≤ b → window.Remembers b k → window'.Remembers b k

instance instIsPreorderRetains (first : Int) : IsPreorder ReplayWindow (Retains first) where
  refl _ _ _ _ h := h
  trans _ _ _ h h' b k hb hk := h' b k hb (h b k hb hk)

/-- A window lets a key in only if it does not remember it from the oldest bucket
    on. -/
theorem admitKey_yields (now : Int) (key : Bytes) (capacity : Nat) (window : ReplayWindow) :
    (admitKey now key capacity).Yields (Retains (oldest now)) window fun _ window' =>
      (∀ b, oldest now ≤ b → ¬ window.Remembers b key) ∧
        window'.Remembers (now / replayBucketSeconds) key := by
  have hkept : Retains (oldest now) window (window.expire (oldest now)) :=
    fun b k hb h => remembers_expire h hb
  refine Yields.modify_bind hkept (Yields.get_bind (Yields.require_bind fun hnew => ?_))
  refine Yields.require_bind fun _ => Yields.modify ?_ ⟨fun b hb h => ?_, ?_⟩
  · exact fun b k _ h => h.insert _ _
  · have hcontains := (hkept b key hb h).contains
    rw [oldest, hnew] at hcontains
    exact absurd hcontains (by simp)
  · exact ⟨_, by rw [insert, getElem?_insert_eq, if_pos rfl], mem_insert_self⟩

end ReplayWindow

namespace NetworkHandle

variable (crypto : Crypto)

/-- The handle remembers that a request was let in at a time. -/
def Remembers (handle : NetworkHandle) (request : RequestEnvelope) (time : Int) : Prop :=
  (handle.window request).Remembers (time / replayBucketSeconds) (crypto.replayKey request)

theorem window_setWindow (handle : NetworkHandle) (request other : RequestEnvelope)
    (window : ReplayWindow) :
    (handle.setWindow request window).window other =
      if isBulkMethod request.method = isBulkMethod other.method then window
      else handle.window other := by
  cases hrequest : isBulkMethod request.method <;> cases hother : isBulkMethod other.method <;>
    simp [setWindow, NetworkHandle.window, hrequest, hother]

/-- No request is forgotten that was let in from a bucket on. -/
def Retains (first : Int) (handle handle' : NetworkHandle) : Prop :=
  ∀ other time, first ≤ time / replayBucketSeconds →
    handle.Remembers crypto other time → handle'.Remembers crypto other time

instance instIsPreorderRetains (first : Int) : IsPreorder NetworkHandle (Retains crypto first) where
  refl _ _ _ _ h := h
  trans _ _ _ h h' other time htime hother := h' other time htime (h other time htime hother)

/-- A check at a time keeps every request whose bucket it looks at, in both
    windows, and passes only a request that it does not remember. -/
theorem checkReplay_yields (now : Int) (request : RequestEnvelope) (handle : NetworkHandle) :
    (checkReplay crypto now request).Yields (Retains crypto (ReplayWindow.oldest now)) handle
      fun _ handle' => (∀ time, ReplayWindow.oldest now ≤ time / replayBucketSeconds →
        ¬ handle.Remembers crypto request time) ∧ handle'.Remembers crypto request now := by
  rcases ReplayWindow.admitKey_yields now (crypto.replayKey request) handle.replayCapacity
    (handle.window request) with ⟨hkept, hpassed⟩
  refine ⟨fun other time htime hother => ?_, fun _ hok => ⟨fun time htime => ?_, ?_⟩⟩
  · show ((handle.setWindow request _).window other).Remembers _ _
    rw [window_setWindow]
    by_cases hsame : isBulkMethod request.method = isBulkMethod other.method
    · rw [if_pos hsame]
      apply hkept _ _ htime
      rwa [window, hsame, ← window, ← Remembers]
    · rwa [if_neg hsame]
  · exact (hpassed () hok).1 _ htime
  · show ((handle.setWindow request _).window request).Remembers _ _
    rw [window_setWindow, if_pos rfl]
    exact (hpassed () hok).2

/-- A request that authenticates is at most a minute old, unless its timestamp
    is so far in the past that its age is no 64-bit number. -/
theorem timestamp_ge_of_verifyRequestAuth {crypto : Crypto} {handle : NetworkHandle} {now : Int}
    {request : RequestEnvelope} (hok : handle.verifyRequestAuth crypto now request = .ok ())
    (hnow : 0 ≤ now) (hlim : now < 2 ^ 63) (hstamp : 0 ≤ request.authTimestampUnixSeconds.toInt) :
    now - replayWindowSeconds ≤ request.authTimestampUnixSeconds.toInt := by
  have hbound := request.authTimestampUnixSeconds.toInt_lt
  have hwrap : wrap (now - request.authTimestampUnixSeconds.toInt) =
      now - request.authTimestampUnixSeconds.toInt := by
    rw [wrap, Int.bmod_eq_of_le (by omega) (by omega)]
  rw [verifyRequestAuth] at hok
  by_cases hold : wrap |wrap (now - request.authTimestampUnixSeconds.toInt)| > 60
  · rw [if_pos hold] at hok
    cases hok
  · have hfresh : |now - request.authTimestampUnixSeconds.toInt| ≤ 60 := by
      rw [hwrap, wrap, Int.bmod_eq_of_le] at hold
      · omega
      · have := abs_nonneg (now - request.authTimestampUnixSeconds.toInt)
        omega
      · have := abs_le.mpr (⟨by omega, by omega⟩ :
          -(2 ^ 63 - 1 : Int) ≤ now - request.authTimestampUnixSeconds.toInt ∧
            now - request.authTimestampUnixSeconds.toInt ≤ 2 ^ 63 - 1)
        omega
    have := (abs_le.mp hfresh).2
    rw [replayWindowSeconds]
    omega

/-- Getting past the checks means that the envelope authenticates when it is
    verified and that the window lets it in when it is checked. -/
theorem validateRequest_yields (verifiedAt checkedAt : Int) (limited : Bool)
    (request : RequestEnvelope) (handle : NetworkHandle) :
    (validateRequest crypto verifiedAt checkedAt limited request).Yields
      (Retains crypto (ReplayWindow.oldest checkedAt)) handle fun _ handle' =>
        handle.verifyRequestAuth crypto verifiedAt request = .ok () ∧
          (∀ time, ReplayWindow.oldest checkedAt ≤ time / replayBucketSeconds →
            ¬ handle.Remembers crypto request time) ∧
          handle'.Remembers crypto request checkedAt := by
  refine Yields.get_bind (Yields.require_bind fun _ => ?_)
  refine Yields.ofExcept_bind fun _ hverified => Yields.require_bind fun _ => ?_
  exact (checkReplay_yields crypto checkedAt request handle).mono fun _ _ _ h => ⟨hverified, h⟩

end NetworkHandle

/-- A request that reaches the node, with the clock as each of the two checks
    reads it and the answer of the rate limit between them. -/
structure Arrival where
  request : RequestEnvelope
  verifiedAt : Int
  checkedAt : Int
  limited : Bool

/-- A node with its clock. `passed` is the history of the arrivals that got
    past both checks, the latest first. -/
structure Node where
  handle : NetworkHandle
  clock : Int := 0
  passed : List Arrival := []

namespace Node

def receive (crypto : Crypto) (node : Node) (arrival : Arrival) : Node :=
  match NetworkHandle.validateRequest crypto arrival.verifiedAt arrival.checkedAt arrival.limited
      arrival.request node.handle with
  | (.ok (), handle) =>
    { handle, clock := arrival.checkedAt, passed := arrival :: node.passed }
  | (.error _, handle) => { handle, clock := arrival.checkedAt, passed := node.passed }

end Node

/-- The clock does not run backwards, and it is a 64-bit number. -/
def Arrival.InOrder (node : Node) (arrival : Arrival) : Prop :=
  node.clock ≤ arrival.verifiedAt ∧ arrival.verifiedAt ≤ arrival.checkedAt ∧
    arrival.checkedAt < 2 ^ 63

/-- The request is dated no later than the five seconds in which it arrives, at
    no time before the epoch, and it is checked in the five seconds in which it
    is verified. -/
def Arrival.Timely (arrival : Arrival) : Prop :=
  0 ≤ arrival.request.authTimestampUnixSeconds.toInt ∧
    arrival.request.authTimestampUnixSeconds.toInt / replayBucketSeconds ≤
      arrival.verifiedAt / replayBucketSeconds ∧
    arrival.checkedAt / replayBucketSeconds = arrival.verifiedAt / replayBucketSeconds

instance instDecidableInOrder (node : Node) (arrival : Arrival) :
    Decidable (arrival.InOrder node) :=
  inferInstanceAs (Decidable (_ ∧ _ ∧ _))

instance instDecidableTimely (arrival : Arrival) : Decidable arrival.Timely :=
  inferInstanceAs (Decidable (_ ∧ _ ∧ _))

/-- What is asked of an arrival: that it is in order, and that it is timely if it
    passes the first check. -/
def Arrival.Guarded (crypto : Crypto) (node : Node) (arrival : Arrival) : Prop :=
  arrival.InOrder node ∧
    (node.handle.verifyRequestAuth crypto arrival.verifiedAt arrival.request = .ok () →
      arrival.Timely)

instance instDecidableGuarded (crypto : Crypto) (node : Node) (arrival : Arrival) :
    Decidable (arrival.Guarded crypto node) :=
  inferInstanceAs (Decidable (_ ∧ (_ → _)))

/-- What the arrivals that passed have in common with the windows. An arrival
    is either remembered or so old that no later check looks at its bucket. -/
structure Node.Tracks (crypto : Crypto) (node : Node) : Prop where
  nonneg : 0 ≤ node.clock
  unique : (node.passed.map (·.request)).Nodup
  timely : ∀ arrival ∈ node.passed, arrival.Timely
  kept : ∀ arrival ∈ node.passed,
    ReplayWindow.oldest node.clock ≤ arrival.checkedAt / replayBucketSeconds →
      node.handle.Remembers crypto arrival.request arrival.checkedAt

theorem ReplayWindow.oldest_le_oldest {a b : Int} (h : a ≤ b) : oldest a ≤ oldest b := by
  simp only [oldest, replayWindowSeconds, replayBucketSeconds]
  omega

theorem Node.Tracks.receive {crypto : Crypto} {node : Node} {arrival : Arrival}
    (h : node.Tracks crypto) (hguarded : arrival.Guarded crypto node) :
    (node.receive crypto arrival).Tracks crypto := by
  rcases hguarded with ⟨⟨hclock, hle, hlim⟩, htimely⟩
  have hyields := NetworkHandle.validateRequest_yields crypto arrival.verifiedAt arrival.checkedAt
    arrival.limited arrival.request node.handle
  have holdest : ReplayWindow.oldest node.clock ≤ ReplayWindow.oldest arrival.checkedAt :=
    ReplayWindow.oldest_le_oldest (by omega)
  have hnonneg := h.nonneg
  rw [Node.receive]
  -- Whatever the answer is, what the check looked at is still remembered.
  rcases hres : NetworkHandle.validateRequest crypto arrival.verifiedAt arrival.checkedAt
    arrival.limited arrival.request node.handle with ⟨answer, handle⟩
  rcases Ends.of_eq hyields hres with ⟨hkept, hpassed⟩
  have hprevious : ∀ earlier ∈ node.passed,
      ReplayWindow.oldest arrival.checkedAt ≤ earlier.checkedAt / replayBucketSeconds →
        handle.Remembers crypto earlier.request earlier.checkedAt := by
    intro earlier hmem hbucket
    exact hkept _ _ hbucket (h.kept earlier hmem (holdest.trans hbucket))
  cases answer with
  | error e =>
    exact ⟨by show 0 ≤ arrival.checkedAt; omega, h.unique, h.timely, hprevious⟩
  | ok =>
    rcases hpassed () rfl with ⟨hverified, hnew, hremembers⟩
    have hprompt := htimely hverified
    refine ⟨by show 0 ≤ arrival.checkedAt; omega, ?_, ?_, ?_⟩
    · -- An earlier passage of the same envelope would still be remembered.
      show (arrival.request :: node.passed.map (·.request)).Nodup
      refine nodup_cons.mpr ⟨fun hmem => ?_, h.unique⟩
      rcases mem_map.mp hmem with ⟨earlier, hearlier, hsame⟩
      -- The envelope was let in no earlier than the oldest bucket of this check.
      have hbucket : ReplayWindow.oldest arrival.checkedAt ≤
          earlier.checkedAt / replayBucketSeconds := by
        have hfresh := NetworkHandle.timestamp_ge_of_verifyRequestAuth hverified (by omega)
          (by omega) hprompt.1
        have hdated := (h.timely earlier hearlier).2
        rw [hsame] at hdated
        have hchecked := hprompt.2.2
        simp only [ReplayWindow.oldest, replayWindowSeconds, replayBucketSeconds] at *
        omega
      have hkeptEarlier := h.kept earlier hearlier (holdest.trans hbucket)
      rw [hsame] at hkeptEarlier
      exact hnew _ hbucket hkeptEarlier
    · exact forall_mem_cons.mpr ⟨hprompt, h.timely⟩
    · exact forall_mem_cons.mpr ⟨fun _ => hremembers, hprevious⟩

/-- A node whose windows are empty. -/
def Node.start (clusterSecret : Option Bytes) (replayCapacity : Nat) : Node :=
  { handle := { clusterSecret, replayCapacity } }

/-- No envelope passes both checks twice, at any node, however often and in
    whatever order envelopes arrive, as long as none that authenticates is dated
    ahead of the clock and none waits between the two checks. -/
theorem envelope_passes_once (crypto : Crypto) (clusterSecret : Option Bytes)
    (replayCapacity : Nat) (node : Node)
    (hrun : Reaches (Node.receive crypto) (fun node arrival => arrival.Guarded crypto node)
      (Node.start clusterSecret replayCapacity) node) :
    (node.passed.map (·.request)).Nodup := by
  have hstart : (Node.start clusterSecret replayCapacity).Tracks crypto :=
    ⟨le_refl _, nodup_nil, forall_mem_nil _, forall_mem_nil _⟩
  have htracks := hrun.invariant (fun _ _ h hguarded => h.receive hguarded) hstart
  exact htracks.unique

/-- A request under a fixed identity and signature. -/
def sampleRequest (timestamp : Int64) : RequestEnvelope :=
  { requestId := "request", protocolVersion := protocolVersion
    nodeId := Hex.encode (List.replicate 32 0), method := "/node/info", payload := []
    authTimestampUnixSeconds := timestamp, authSignatureHex := ""
    publicKeyHex := Hex.encode (List.replicate 32 0)
    identitySignatureHex := Hex.encode (List.replicate 64 0) }

/-- Primitives under which the request's signature is good. -/
def sampleCrypto : Crypto :=
  { blake3 := id, blake3Keyed := fun _ payload => payload, verifySignature := fun _ _ _ => true }

def sampleArrival (timestamp : Int64) (time : Int) : Arrival :=
  { request := sampleRequest timestamp, verifiedAt := time, checkedAt := time, limited := false }

/-- An envelope that comes again after a minute, and one dated far ahead, which is
    refused. -/
theorem envelope_passes_once_resent :
    let node := runOps (Node.receive sampleCrypto) (Node.start none 100000)
      [sampleArrival 1000 1000, sampleArrival 1000 1060, sampleArrival 5000 1061]
    node.passed.length = 1 ∧ (node.passed.map (·.request)).Nodup :=
  ⟨by decide +kernel, envelope_passes_once sampleCrypto none 100000 _
    (reaches_runOps _ _ (by decide +kernel))⟩

/-- A request dated a minute ahead arrives, and again sixty-five seconds later:
    its bucket is gone and it is still fresh. -/
theorem envelope_dated_ahead_passes_twice :
    let node := Node.start none 100000
    let arrivals := [sampleArrival 1060 1000, sampleArrival 1060 1065]
    Admits (Node.receive sampleCrypto) (fun node arrival => arrival.InOrder node) node arrivals ∧
      (runOps (Node.receive sampleCrypto) node arrivals).passed.map (·.request) =
        [sampleRequest 1060, sampleRequest 1060] := by
  decide +kernel

end Network

end Pepper
