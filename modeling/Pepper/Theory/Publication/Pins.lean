import Pepper.Core.Pins

/-!
# Writing Pins

What the calls of the protection backend do to the pin table.

Every call computes a list of records from the table and writes them in one
transaction. Each record turns a pin over: an active pin gets deleted, and a pin
that is not active is written as a new one. Two records for the same pin are
therefore the same, and the transaction goes through exactly when none of them
is for a deleted pin. A call is then known once it is known which pins it turns.

## Main definitions

* `statusOf`: The status of a pin.
* `Turns`: A record turns a pin over.
* `turned`: The status of a pin after it was turned over.

## Theorems

* `statusOf_replace`: A transaction of records that turn pins over.
* `statusOf_protectMany`, `statusOf_releaseManyGrouped`: The calls on several roots.
* `statusOf_protect`, `statusOf_release`: The calls on one root.
* `statusOf_applyPinIntents`: A batch of intents.
-/

namespace Pepper

namespace Pins

open Namespace List

variable {D : Type} [DecidableEq D]

/-- The status of a pin. -/
def statusOf (table : PinTable D) (id : PinId D) : Option PinStatus :=
  (table.lookup id).map (·.status)

variable {id : PinId D} {cids : List (Cid D)} {namespaceId : NamespaceId D}
  {reason : String} {intent : PublicationIntentRecord D}
  {intents : List (PublicationIntentRecord D)}

theorem statusOf_eq_some {table : PinTable D} {status : PinStatus} :
    statusOf table id = some status ↔ ∃ body, table.lookup id = some body ∧ body.status = status :=
  Option.map_eq_some_iff

/-! ## Transactions -/

/-- Records for the same pin are the same. -/
def Agree (pins : List (PinRecord D)) : Prop :=
  ∀ pin ∈ pins, ∀ other ∈ pins, other.pinId = pin.pinId → other.body = pin.body

/-- A record may replace what the table has under its identifier. -/
def Allowed (table : PinTable D) (pin : PinRecord D) : Prop :=
  ∀ existing, table.lookup pin.pinId = some existing → validatePinUpdate existing pin.body = .ok ()

/-- A record may always be written again. -/
theorem validatePinUpdate_self (body : PinBody) : validatePinUpdate body body = .ok () := by
  rcases body with ⟨factor, created, status⟩
  cases status <;> simp [validatePinUpdate, pure, Except.pure]

variable {pin : PinRecord D} {key : PinKey D} {expires : Option Int}

theorem writePin_of_allowed {table : PinTable D} (h : Allowed table pin) :
    writePin table pin = .ok (table.insert pin.pinId pin.body) := by
  rw [writePin]
  cases hlook : table.lookup pin.pinId with
  | none => rfl
  | some existing =>
    simp only [h existing hlook]
    rfl

theorem writePin_of_not_allowed {table : PinTable D} (h : ¬ Allowed table pin) :
    ∃ e, writePin table pin = .error e := by
  rw [writePin]
  cases hlook : table.lookup pin.pinId with
  | none => exact absurd (fun existing hexi => by simp [hlook] at hexi) h
  | some existing =>
    cases hval : validatePinUpdate existing pin.body with
    | error e => exact ⟨e, by simp only [hval]; rfl⟩
    | ok _ =>
      refine absurd (fun other hother => ?_) h
      rw [hlook, Option.some.injEq] at hother
      rw [← hother, hval]

/-- After one record of a list that agrees, the others may be written exactly
    when they might before. -/
theorem allowed_insert {table : PinTable D} {other : PinRecord D}
    (hagrees : other.pinId = pin.pinId → other.body = pin.body) (hpin : Allowed table pin) :
    Allowed (table.insert pin.pinId pin.body) other ↔ Allowed table other := by
  by_cases hid : other.pinId = pin.pinId
  · have hbody := hagrees hid
    constructor
    · intro _ existing hexi
      rw [hid] at hexi
      rw [hbody]
      exact hpin existing hexi
    · intro _ existing hexi
      rw [hid, AList.lookup_insert, Option.some.injEq] at hexi
      rw [hbody, ← hexi]
      exact validatePinUpdate_self pin.body
  · unfold Allowed
    rw [AList.lookup_insert_ne hid]

/-- Records that agree and may all be written are what is there afterwards. -/
theorem foldlM_writePin_ok {pins : List (PinRecord D)} (hagrees : Agree pins)
    (table : PinTable D) (hallowed : ∀ pin ∈ pins, Allowed table pin) :
    ∃ table', pins.foldlM writePin table = .ok table' ∧
      (∀ pin ∈ pins, table'.lookup pin.pinId = some pin.body) ∧
      ∀ id, (∀ pin ∈ pins, pin.pinId ≠ id) → table'.lookup id = table.lookup id := by
  induction pins generalizing table with
  | nil => exact ⟨table, rfl, by simp, fun _ _ => rfl⟩
  | cons pin pins ih =>
    have hfirst := hallowed pin mem_cons_self
    have hsame : ∀ other ∈ pins, other.pinId = pin.pinId → other.body = pin.body :=
      fun other hother => hagrees pin mem_cons_self other (mem_cons_of_mem _ hother)
    rcases ih (fun p hp q hq => hagrees p (mem_cons_of_mem _ hp) q (mem_cons_of_mem _ hq))
      (table.insert pin.pinId pin.body)
      (fun other hother => (allowed_insert (hsame other hother) hfirst).mpr
        (hallowed other (mem_cons_of_mem _ hother))) with ⟨table', hfold, hwritten, hkept⟩
    refine ⟨table', ?_, ?_, ?_⟩
    · rw [foldlM_cons, writePin_of_allowed hfirst]
      exact hfold
    · intro other hother
      rcases mem_cons.mp hother with rfl | hother
      · -- The first record stays, or a later one for the same pin says the same.
        by_cases hlater : ∃ p ∈ pins, p.pinId = other.pinId
        · rcases hlater with ⟨p, hp, hid⟩
          rw [← hid, hwritten p hp, hsame p hp hid]
        · push Not at hlater
          rw [hkept other.pinId hlater, AList.lookup_insert]
      · exact hwritten other hother
    · intro id hid
      rw [hkept id fun p hp => hid p (mem_cons_of_mem _ hp),
        AList.lookup_insert_ne (hid pin mem_cons_self).symm]

/-- One record that may not be written stops all. -/
theorem foldlM_writePin_error {pins : List (PinRecord D)} (hagrees : Agree pins)
    (table : PinTable D) (hnot : ∃ pin ∈ pins, ¬ Allowed table pin) :
    ∃ e, pins.foldlM writePin table = .error e := by
  induction pins generalizing table with
  | nil => simp at hnot
  | cons pin pins ih =>
    rw [foldlM_cons]
    by_cases hfirst : Allowed table pin
    · rw [writePin_of_allowed hfirst]
      rcases hnot with ⟨other, hother, hnot⟩
      rcases mem_cons.mp hother with rfl | hother
      · exact absurd hfirst hnot
      · have hsame := hagrees pin mem_cons_self other (mem_cons_of_mem _ hother)
        exact ih (fun p hp q hq =>
            hagrees p (mem_cons_of_mem _ hp) q (mem_cons_of_mem _ hq))
          (table.insert pin.pinId pin.body)
          ⟨other, hother, fun h => hnot ((allowed_insert hsame hfirst).mp h)⟩
    · rcases writePin_of_not_allowed hfirst with ⟨e, he⟩
      exact ⟨e, by rw [he]; rfl⟩

/-! ## Turning pins over -/

/-- The body of the record that turns a pin over. -/
def turnedBody (factor : Nat) (now : Int) : Option PinBody → PinBody
  | some body =>
    if body.status = .active then { body with status := .deleted } else ⟨factor, now, .active⟩
  | none => ⟨factor, now, .active⟩

/-- The status of a pin after it was turned over. -/
def turned : Option PinStatus → PinStatus
  | some .active => .deleted
  | _ => .active

theorem turnedBody_status (factor : Nat) (now : Int) (body : Option PinBody) :
    (turnedBody factor now body).status = turned (body.map (·.status)) := by
  rcases body with _ | ⟨oldFactor, created, status⟩
  · rfl
  · cases status <;> simp [turnedBody, turned]

/-- A record turns a pin over. -/
def Turns (factor : Nat) (now : Int) (table : PinTable D) (pin : PinRecord D) : Prop :=
  pin.body = turnedBody factor now (table.lookup pin.pinId)

variable {factor : Nat} {now : Int} {table : PinTable D} {pins : List (PinRecord D)}

theorem agree_of_turns (h : ∀ pin ∈ pins, Turns factor now table pin) : Agree pins := by
  intro pin hpin other hother hid
  rw [h pin hpin, h other hother, hid]

/-- Only a deleted pin can not be turned over. -/
theorem allowed_iff_of_turns (h : Turns factor now table pin) :
    Allowed table pin ↔ statusOf table pin.pinId ≠ some .deleted := by
  rw [Allowed, statusOf]
  cases hlook : table.lookup pin.pinId with
  | none => simp
  | some body =>
    rw [Turns, hlook] at h
    rcases body with ⟨oldFactor, created, status⟩
    cases status
    · simp [h, turnedBody, validatePinUpdate, pure, Except.pure]
    · -- The new record is active, and if its other fields are new too that is refused first.
      simp only [h, turnedBody, validatePinUpdate, Option.some.injEq, forall_eq', Option.map_some,
        ne_eq, not_true_eq_false, iff_false]
      simp only [reduceCtorEq, if_false, not_false_eq_true, and_self, if_true]
      split <;> intro hok <;> cases hok

theorem replace_eq_error (h : ∀ pin ∈ pins, Turns factor now table pin)
    (hdel : ∃ pin ∈ pins, statusOf table pin.pinId = some .deleted) :
    ∃ e, replace pins table = (.error e, table) := by
  rcases hdel with ⟨pin, hpin, hstatus⟩
  have hnot : ¬ Allowed table pin := fun hallowed =>
    (allowed_iff_of_turns (h pin hpin)).mp hallowed hstatus
  rcases foldlM_writePin_error (agree_of_turns h) table ⟨pin, hpin, hnot⟩ with ⟨e, he⟩
  exact ⟨e, by rw [replace, he]⟩

theorem statusOf_replace (h : ∀ pin ∈ pins, Turns factor now table pin)
    (hdel : ∀ pin ∈ pins, statusOf table pin.pinId ≠ some .deleted) :
    (replace pins table).1 = .ok () ∧ (∀ pin ∈ pins, statusOf (replace pins table).2 pin.pinId =
        some (turned (statusOf table pin.pinId))) ∧
      ∀ id, (∀ pin ∈ pins, pin.pinId ≠ id) →
        statusOf (replace pins table).2 id = statusOf table id := by
  rcases foldlM_writePin_ok (agree_of_turns h) table fun pin hpin =>
    (allowed_iff_of_turns (h pin hpin)).mpr (hdel pin hpin) with
    ⟨table', hfold, hwritten, hkept⟩
  rw [replace, hfold]
  refine ⟨rfl, fun pin hpin => ?_, fun id hid => ?_⟩
  · rw [statusOf, hwritten pin hpin, Option.map_some, h pin hpin, turnedBody_status, statusOf]
  · rw [statusOf, hkept id hid, statusOf]

/-! ## Records of a call -/

variable (backend : AgentProtectionBackend)

theorem mem_ownActive : pin ∈ backend.ownActive table key ↔
      table.lookup pin.pinId = some pin.body ∧ pin.pinId.key = key ∧
        pin.pinId.owner = backend.nodeId ∧ pin.body.status = .active := by
  have hent : (⟨pin.pinId, pin.body⟩ : (_ : PinId D) × PinBody) ∈ table.entries ↔
      table.lookup pin.pinId = some pin.body := AList.mem_lookup_iff.symm
  simp only [AgentProtectionBackend.ownActive, prefixed, mem_filter, mem_map,
    decide_eq_true_eq, Bool.and_eq_true]
  constructor
  · rintro ⟨⟨⟨id, body⟩, ⟨hmem, hkey⟩, rfl⟩, hown, hstatus⟩
    exact ⟨hent.mp hmem, hkey, hown, hstatus⟩
  · rintro ⟨hlook, hkey, hown, hstatus⟩
    exact ⟨⟨⟨pin.pinId, pin.body⟩, ⟨hent.mpr hlook, hkey⟩, rfl⟩, hown, hstatus⟩

/-- A pin of this node is among the active ones under its key exactly when its
    status says so. -/
theorem any_ownActive (key : PinKey D) (expires : Option Int) :
    ((backend.ownActive table key).any fun pin => pin.pinId = ⟨key, expires, backend.nodeId⟩) ↔
      statusOf table ⟨key, expires, backend.nodeId⟩ = some .active := by
  rw [statusOf_eq_some, any_eq_true]
  constructor
  · rintro ⟨pin, hpin, hid⟩
    rcases (mem_ownActive backend).mp hpin with ⟨hlook, _, _, hstatus⟩
    rw [of_decide_eq_true hid] at hlook
    exact ⟨pin.body, hlook, hstatus⟩
  · rintro ⟨body, hlook, hstatus⟩
    exact ⟨⟨_, body⟩, (mem_ownActive backend).mpr ⟨hlook, rfl, rfl, hstatus⟩,
      decide_eq_true rfl⟩

/-- Under a key the pins of this node differ in their expiry only. -/
theorem any_ownActive_expires (key : PinKey D) (expires : Option Int) :
    ((backend.ownActive table key).any fun pin => pin.pinId.expiresAtUnixSeconds = expires) ↔
      statusOf table ⟨key, expires, backend.nodeId⟩ = some .active := by
  rw [← any_ownActive, any_eq_true, any_eq_true]
  refine exists_congr fun pin => and_congr_right fun hpin => ?_
  rcases (mem_ownActive backend).mp hpin with ⟨_, hkey, hown, _⟩
  rw [decide_eq_true_eq, decide_eq_true_eq, PinId.mk.injEq]
  exact ⟨fun h => ⟨hkey, h, hown⟩, fun h => h.2.1⟩

/-- The records of a release turn over the active pins of this node under its
    key. -/
theorem mem_deleted (factor : Nat) (now : Int) :
    pin ∈ (backend.ownActive table key).map AgentProtectionBackend.deletedPin ↔
      Turns factor now table pin ∧ pin.pinId.key = key ∧ pin.pinId.owner = backend.nodeId ∧
        statusOf table pin.pinId = some .active := by
  rw [mem_map]
  constructor
  · rintro ⟨other, hother, rfl⟩
    rcases (mem_ownActive backend).mp hother with ⟨hlook, hkey, hown, hstatus⟩
    refine ⟨?_, hkey, hown, statusOf_eq_some.mpr ⟨other.body, hlook, hstatus⟩⟩
    simp only [Turns, AgentProtectionBackend.deletedPin, hlook, turnedBody, hstatus, if_true]
  · rintro ⟨hturns, hkey, hown, hstatus⟩
    rcases statusOf_eq_some.mp hstatus with ⟨body, hlook, hact⟩
    refine ⟨⟨pin.pinId, body⟩, (mem_ownActive backend).mpr ⟨hlook, hkey, hown, hact⟩, ?_⟩
    rw [Turns, hlook] at hturns
    simp only [turnedBody, hact, if_true] at hturns
    rw [AgentProtectionBackend.deletedPin, ← hturns]

/-- A new record turns over a pin that is not active. -/
theorem turns_newPin (h : statusOf table ⟨key, expires, backend.nodeId⟩ ≠ some .active) :
    Turns backend.replicationFactor now table (backend.newPin key expires now) := by
  rw [Turns, AgentProtectionBackend.newPin]
  cases hlook : table.lookup ⟨key, expires, backend.nodeId⟩ with
  | none => rfl
  | some body =>
    have hstatus : body.status ≠ .active := fun hact =>
      h (statusOf_eq_some.mpr ⟨body, hlook, hact⟩)
    simp only [turnedBody, hstatus, if_false]

/-! ## Calls on several roots -/

/-- The records of a protection are new pins that are not active. -/
theorem mem_prepareProtectPins :
    pin ∈ backend.prepareProtectPins now table namespaceId cids reason expires ↔
      ∃ cid ∈ cids, pin = backend.newPin ⟨namespaceId, cid, reason⟩ expires now ∧
        statusOf table ⟨⟨namespaceId, cid, reason⟩, expires, backend.nodeId⟩ ≠ some .active := by
  simp only [AgentProtectionBackend.prepareProtectPins, mem_filterMap]
  constructor
  · rintro ⟨cid, hcid, hpin⟩
    split at hpin
    · cases hpin
    · rename_i hnot
      rw [AgentProtectionBackend.newPin, any_ownActive] at hnot
      exact ⟨cid, hcid, (Option.some.inj hpin).symm, hnot⟩
  · rintro ⟨cid, hcid, rfl, hnot⟩
    refine ⟨cid, hcid, if_neg ?_⟩
    rw [AgentProtectionBackend.newPin, any_ownActive]
    exact hnot

/-- The pins that a protection of several roots is about. -/
def Named (namespaceId : NamespaceId D) (cids : List (Cid D)) (reason : String)
    (expires : Option Int) (id : PinId D) : Prop :=
  ∃ cid ∈ cids, id = ⟨⟨namespaceId, cid, reason⟩, expires, backend.nodeId⟩

theorem turns_prepareProtectPins (table : PinTable D) (namespaceId : NamespaceId D)
    (cids : List (Cid D)) (reason : String) (expires : Option Int) :
    ∀ pin ∈ backend.prepareProtectPins now table namespaceId cids reason expires,
      Turns backend.replicationFactor now table pin := by
  intro pin hpin
  rcases (mem_prepareProtectPins backend).mp hpin with ⟨cid, _, rfl, hnot⟩
  exact turns_newPin backend hnot

/-- A protection of several roots fails when one of its pins is deleted. -/
theorem protectMany_eq_error (now : Int)
    (h : ∃ id, Named backend namespaceId cids reason expires id ∧
      statusOf table id = some .deleted) :
    ∃ e, backend.protectMany now namespaceId cids reason expires table = (.error e, table) := by
  rcases h with ⟨id, ⟨cid, hcid, rfl⟩, hdel⟩
  refine replace_eq_error (turns_prepareProtectPins backend table namespaceId cids reason expires)
    ⟨backend.newPin ⟨namespaceId, cid, reason⟩ expires now, ?_, hdel⟩
  refine (mem_prepareProtectPins backend).mpr ⟨cid, hcid, rfl, ?_⟩
  rw [hdel]
  simp

/-- Otherwise each of its pins is active, and the other pins are as before. -/
theorem statusOf_protectMany (now : Int) (table : PinTable D)
    (namespaceId : NamespaceId D) (cids : List (Cid D)) (reason : String)
    (expires : Option Int)
    (h : ∀ id, Named backend namespaceId cids reason expires id →
      statusOf table id ≠ some .deleted) :
    (backend.protectMany now namespaceId cids reason expires table).1 = .ok () ∧
      (∀ id, Named backend namespaceId cids reason expires id →
        statusOf (backend.protectMany now namespaceId cids reason expires table).2 id =
          some .active) ∧
      ∀ id, ¬ Named backend namespaceId cids reason expires id →
        statusOf (backend.protectMany now namespaceId cids reason expires table).2 id =
          statusOf table id := by
  rcases statusOf_replace (turns_prepareProtectPins backend table namespaceId cids reason expires)
    (fun pin hpin => by
      rcases (mem_prepareProtectPins backend).mp hpin with ⟨cid, hcid, rfl, _⟩
      exact h _ ⟨cid, hcid, rfl⟩) with ⟨hok, hturned, hkept⟩
  refine ⟨hok, ?_, ?_⟩
  · rintro id ⟨cid, hcid, rfl⟩
    by_cases hact :
        statusOf table ⟨⟨namespaceId, cid, reason⟩, expires, backend.nodeId⟩ = some .active
    · -- Nothing is written for a pin that is active.
      refine (hkept _ fun pin hpin hid => ?_).trans hact
      rcases (mem_prepareProtectPins backend).mp hpin with ⟨other, _, rfl, hnot⟩
      exact hnot (by rw [← hact, ← hid]; rfl)
    · have hwritten := hturned _ ((mem_prepareProtectPins backend).mpr ⟨cid, hcid, rfl, hact⟩)
      refine hwritten.trans ?_
      rw [Option.some.injEq, turned]
      exact hact
  · intro id hid
    refine hkept id fun pin hpin heq => hid ?_
    rcases (mem_prepareProtectPins backend).mp hpin with ⟨cid, hcid, rfl, _⟩
    exact ⟨cid, hcid, heq.symm⟩

/-- A release under several reasons deletes the active pins of this node under
    its keys. -/
theorem statusOf_releaseManyGrouped (table : PinTable D) (namespaceId : NamespaceId D)
    (cids : List (Cid D)) (reasons : List String) :
    (backend.releaseManyGrouped namespaceId cids reasons table).1 = .ok () ∧
      ∀ id, statusOf (backend.releaseManyGrouped namespaceId cids reasons table).2 id =
        if id.owner = backend.nodeId ∧ id.key.namespaceId = namespaceId ∧ id.key.cid ∈ cids ∧
            id.key.reason ∈ reasons ∧ statusOf table id = some .active then
          some .deleted
        else statusOf table id := by
  -- Which records are written; the values in a new record play no part.
  have hmem : ∀ pin, pin ∈ reasons.flatMap (fun reason => cids.flatMap fun cid =>
        (backend.ownActive table ⟨namespaceId, cid, reason⟩).map
          AgentProtectionBackend.deletedPin) ↔
      Turns 0 0 table pin ∧ pin.pinId.owner = backend.nodeId ∧
        pin.pinId.key.namespaceId = namespaceId ∧ pin.pinId.key.cid ∈ cids ∧
        pin.pinId.key.reason ∈ reasons ∧ statusOf table pin.pinId = some .active := by
    intro pin
    simp only [mem_flatMap, mem_deleted backend 0 0]
    constructor
    · rintro ⟨reason, hreason, cid, hcid, hturns, hkey, hown, hact⟩
      rw [hkey]
      exact ⟨hturns, hown, rfl, hcid, hreason, hact⟩
    · rintro ⟨hturns, hown, hnamespace, hcid, hreason, hact⟩
      exact ⟨_, hreason, _, hcid, hturns, by rw [← hnamespace], hown, hact⟩
  rcases statusOf_replace (fun pin hpin => ((hmem pin).mp hpin).1) (fun pin hpin => by
    rw [((hmem pin).mp hpin).2.2.2.2.2]
    simp) with ⟨hok, hturned, hkept⟩
  refine ⟨hok, fun id => ?_⟩
  split
  · rename_i hid
    have hwritten := hturned ⟨id, turnedBody 0 0 (table.lookup id)⟩ ((hmem _).mpr ⟨rfl, hid⟩)
    refine hwritten.trans ?_
    rw [hid.2.2.2.2]
    rfl
  · rename_i hid
    refine hkept id fun pin hpin heq => hid ?_
    rw [← heq]
    exact ((hmem pin).mp hpin).2

/-! ## Calls on one root -/

theorem protect_eq_protectMany (now : Int) (key : PinKey D) (expires : Option Int) :
    backend.protect now key expires table =
      backend.protectMany now key.namespaceId [key.cid] key.reason expires table := by
  have hprotect : backend.protect now key expires table =
      if (backend.ownActive table key).any fun pin => pin.pinId.expiresAtUnixSeconds = expires then
        (.ok (), table)
      else replace [backend.newPin key expires now] table := by
    show (if _ then _ else _ : Fallible (PinTable D) PinError Unit) table = _
    split <;> rfl
  show _ = replace _ table
  by_cases hact : statusOf table ⟨key, expires, backend.nodeId⟩ = some .active
  · have hprepared : backend.prepareProtectPins now table key.namespaceId [key.cid] key.reason
        expires = [] :=
      filterMap_cons_none (if_pos ((any_ownActive backend key expires).mpr hact))
    rw [hprotect, if_pos ((any_ownActive_expires backend key expires).mpr hact), hprepared]
    rfl
  · have hprepared : backend.prepareProtectPins now table key.namespaceId [key.cid] key.reason
        expires = [backend.newPin key expires now] :=
      filterMap_cons_some (if_neg (mt (any_ownActive backend key expires).mp hact))
    rw [hprotect, if_neg (mt (any_ownActive_expires backend key expires).mp hact), hprepared]

theorem release_eq_releaseManyGrouped (key : PinKey D) : backend.release key table =
      backend.releaseManyGrouped key.namespaceId [key.cid] [key.reason] table := by
  simp [AgentProtectionBackend.release, AgentProtectionBackend.releaseManyGrouped]

omit [DecidableEq D] in
theorem named_singleton : Named backend key.namespaceId [key.cid] key.reason expires id ↔
      id = ⟨key, expires, backend.nodeId⟩ := by
  simp [Named]

theorem protect_eq_error (now : Int)
    (h : statusOf table ⟨key, expires, backend.nodeId⟩ = some .deleted) :
    ∃ e, backend.protect now key expires table = (.error e, table) := by
  rw [protect_eq_protectMany]
  exact protectMany_eq_error backend now ⟨_, (named_singleton backend).mpr rfl, h⟩

theorem statusOf_protect (now : Int)
    (h : statusOf table ⟨key, expires, backend.nodeId⟩ ≠ some .deleted) :
    (backend.protect now key expires table).1 = .ok () ∧
      ∀ id, statusOf (backend.protect now key expires table).2 id =
        if id = ⟨key, expires, backend.nodeId⟩ then some .active else statusOf table id := by
  have hstatus := statusOf_protectMany backend now table key.namespaceId [key.cid] key.reason
    expires
  simp only [named_singleton, forall_eq, ← protect_eq_protectMany] at hstatus
  rcases hstatus h with ⟨hok, hact, hkept⟩
  refine ⟨hok, fun id => ?_⟩
  by_cases hid : id = ⟨key, expires, backend.nodeId⟩
  · rw [if_pos hid, hid, hact]
  · rw [if_neg hid, hkept id hid]

theorem statusOf_release (table : PinTable D) (key : PinKey D) :
    (backend.release key table).1 = .ok () ∧ ∀ id, statusOf (backend.release key table).2 id =
        if id.owner = backend.nodeId ∧ id.key = key ∧ statusOf table id = some .active then
          some .deleted
        else statusOf table id := by
  rw [release_eq_releaseManyGrouped]
  rcases statusOf_releaseManyGrouped backend table key.namespaceId [key.cid] [key.reason] with
    ⟨hok, hstatus⟩
  refine ⟨hok, fun id => (hstatus id).trans ?_⟩
  congr 1
  rcases key with ⟨namespaceId, cid, reason⟩
  rcases id with ⟨⟨namespaceId', cid', reason'⟩, expires, owner⟩
  simp [and_assoc]

/-! ## Batches -/

/-- A list of intents asks for an action on a key. -/
def Asked (intents : List (PublicationIntentRecord D)) (action : PinAction)
    (key : PinKey D) : Prop :=
  ∃ intent ∈ intents, intent.action = action ∧ intent.key = key

instance (intents : List (PublicationIntentRecord D)) (action : PinAction)
    (key : PinKey D) : Decidable (Asked intents action key) :=
  inferInstanceAs (Decidable (∃ intent ∈ intents, _))

/-- The pins that a batch turns over. -/
def Changes (table : PinTable D) (intents : List (PublicationIntentRecord D))
    (id : PinId D) : Prop :=
  id.owner = backend.nodeId ∧ ((statusOf table id = some .active ∧ Asked intents .release id.key) ∨
      (statusOf table id ≠ some .active ∧ id.expiresAtUnixSeconds = none ∧
        Asked intents .protect id.key))

theorem intentWrites_of_protect (haction : intent.action = .protect) :
    backend.intentWrites now table intent =
      if statusOf table ⟨intent.key, none, backend.nodeId⟩ = some .active then []
      else [backend.newPin intent.key none now] := by
  have hany : ((backend.ownActive table intent.key).any fun other =>
      other.pinId = ⟨intent.key, none, backend.nodeId⟩ && other.pinId.expiresAtUnixSeconds = none) ↔
      statusOf table ⟨intent.key, none, backend.nodeId⟩ = some .active := by
    rw [← any_ownActive, any_eq_true, any_eq_true]
    refine exists_congr fun other => and_congr_right fun _ => ?_
    simp +contextual
  simp only [AgentProtectionBackend.intentWrites, haction]
  by_cases hact : statusOf table ⟨intent.key, none, backend.nodeId⟩ = some .active
  · rw [if_pos hact]
    exact if_pos (hany.mpr hact)
  · rw [if_neg hact]
    exact if_neg (mt hany.mp hact)

/-- The records of one intent. -/
theorem mem_intentWrites_one : pin ∈ backend.intentWrites now table intent ↔
      Turns backend.replicationFactor now table pin ∧ Changes backend table [intent] pin.pinId := by
  simp only [Changes, Asked, mem_singleton, exists_eq_left]
  cases haction : intent.action with
  | release =>
    simp only [AgentProtectionBackend.intentWrites, haction,
      mem_deleted backend backend.replicationFactor now]
    simp only [reduceCtorEq, false_and, and_false, or_false, true_and]
    tauto
  | protect =>
    rw [intentWrites_of_protect backend haction]
    simp only [reduceCtorEq, false_and, and_false, false_or, true_and]
    constructor
    · intro hpin
      split at hpin
      · cases hpin
      · rename_i hnot
        rw [mem_singleton.mp hpin]
        exact ⟨turns_newPin backend hnot, rfl, hnot, rfl, rfl⟩
    · rintro ⟨hturns, hown, hnot, hexp, hkey⟩
      rcases pin with ⟨⟨key, expires, owner⟩, body⟩
      obtain rfl : owner = backend.nodeId := hown
      obtain rfl : expires = none := hexp
      obtain rfl : intent.key = key := hkey
      rw [if_neg hnot, mem_singleton]
      exact congrArg (PinRecord.mk _) (hturns.trans (turns_newPin backend hnot).symm)

/-- The records of a batch. -/
theorem mem_intentWrites : pin ∈ intents.flatMap (backend.intentWrites now table) ↔
      Turns backend.replicationFactor now table pin ∧ Changes backend table intents pin.pinId := by
  simp only [mem_flatMap, mem_intentWrites_one, Changes, Asked, mem_singleton, exists_eq_left]
  constructor
  · rintro ⟨intent, hintent, hturns, hown, ⟨hact, hask⟩ | ⟨hnot, hexp, hask⟩⟩
    · exact ⟨hturns, hown, .inl ⟨hact, intent, hintent, hask⟩⟩
    · exact ⟨hturns, hown, .inr ⟨hnot, hexp, intent, hintent, hask⟩⟩
  · rintro ⟨hturns, hown, ⟨hact, intent, hintent, hask⟩ | ⟨hnot, hexp, intent, hintent, hask⟩⟩
    · exact ⟨intent, hintent, hturns, hown, .inl ⟨hact, hask⟩⟩
    · exact ⟨intent, hintent, hturns, hown, .inr ⟨hnot, hexp, hask⟩⟩

theorem applyPinIntents_eq_error (now : Int) (h : ∃ intent ∈ intents, intent.action = .protect ∧
      statusOf table ⟨intent.key, none, backend.nodeId⟩ = some .deleted) :
    ∃ e, backend.applyPinIntents now intents table = (.error e, table) := by
  rcases h with ⟨intent, hintent, haction, hdel⟩
  have hchange : Changes backend table intents ⟨intent.key, none, backend.nodeId⟩ :=
    ⟨rfl, .inr ⟨by simp [hdel], rfl, intent, hintent, haction, rfl⟩⟩
  refine replace_eq_error (fun pin hpin => ((mem_intentWrites backend).mp hpin).1)
    ⟨⟨⟨intent.key, none, backend.nodeId⟩, turnedBody backend.replicationFactor now
      (table.lookup ⟨intent.key, none, backend.nodeId⟩)⟩, ?_, hdel⟩
  exact (mem_intentWrites backend).mpr ⟨rfl, hchange⟩

theorem statusOf_applyPinIntents (now : Int) (table : PinTable D)
    (intents : List (PublicationIntentRecord D))
    (h : ∀ intent ∈ intents, intent.action = .protect →
      statusOf table ⟨intent.key, none, backend.nodeId⟩ ≠ some .deleted) :
    (backend.applyPinIntents now intents table).1 = .ok () ∧
      (∀ id, Changes backend table intents id →
        statusOf (backend.applyPinIntents now intents table).2 id =
          some (turned (statusOf table id))) ∧
      ∀ id, ¬ Changes backend table intents id →
        statusOf (backend.applyPinIntents now intents table).2 id = statusOf table id := by
  have hallowed : ∀ pin ∈ intents.flatMap (backend.intentWrites now table),
      statusOf table pin.pinId ≠ some .deleted := by
    intro pin hpin
    rcases ((mem_intentWrites backend).mp hpin).2 with
      ⟨hown, ⟨hact, _⟩ | ⟨_, hexp, intent, hintent, haction, hkey⟩⟩
    · simp [hact]
    · have hid : pin.pinId = ⟨intent.key, none, backend.nodeId⟩ := by
        rw [hkey, ← hexp, ← hown]
      rw [hid]
      exact h intent hintent haction
  rcases statusOf_replace (fun pin hpin => ((mem_intentWrites backend).mp hpin).1) hallowed with
    ⟨hok, hturned, hkept⟩
  refine ⟨hok, fun id hid => ?_, fun id hid => ?_⟩
  · exact hturned ⟨id, turnedBody backend.replicationFactor now (table.lookup id)⟩
      ((mem_intentWrites backend).mpr ⟨rfl, hid⟩)
  · refine hkept id fun pin hpin heq => hid ?_
    rw [← heq]
    exact ((mem_intentWrites backend).mp hpin).2

end Pins

end Pepper
