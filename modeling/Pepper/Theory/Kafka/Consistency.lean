import Pepper.Base.Runs
import Pepper.Core.Groups

/-!
# Consistent Groups

What holds of every group in every state of the coordinator.

A command that is taken does one of three things to the groups: nothing, a change
of one record, or a pass over all of them. The change of one record is a join, a
leader's assignments, a heartbeat or a departure. `RecordAfter` lists these, and
an invariant is checked against the list, so that the commands themselves are
unfolded only once.

A command that fails may leave a group without members behind, but the host drops
the copy it worked on.

## Main definitions

* `partitionsOf`, `Apart`: The partitions of an assignment.
* `Answer`: What a sync tells a member.
* `RecordAfter`: What a command makes of a record.
* `GroupsAfter`: What a command makes of the groups.
* `GroupRecord.Consistent`: The invariant.

## Theorems

* `validateUniqueAssignments_disjoint`: What the check establishes.
* `apply_groupsAfter`: A command that is taken is one of the cases.
* `head_keys_least`: The first key of a map is the least one.
* `GroupsAfter.consistent`: Each case keeps the invariant.
* `groups_consistent`: The invariant holds in every state of the host.
-/

namespace Pepper

namespace Kafka

open Fallible List

variable {decode : AssignmentDecoder}

/-! ## Assignments -/

/-- The partitions of an assignment; what does not decode has none. -/
def partitionsOf (decode : AssignmentDecoder) (assignment : Bytes) : List (String × Int) :=
  match decodeAssignment decode assignment with
  | .ok pairs => pairs
  | .error _ => []

/-- Two assignments without a common partition. -/
def Apart (decode : AssignmentDecoder) (a b : Bytes) : Prop :=
  ∀ pair ∈ partitionsOf decode a, pair ∉ partitionsOf decode b

theorem Apart.symm {a b : Bytes} (h : Apart decode a b) : Apart decode b a :=
  fun pair hb ha => h pair ha hb

theorem apart_nil_right (a : Bytes) : Apart decode a [] :=
  fun _ _ => not_mem_nil

/-! ## What the check establishes -/

theorem claimOwners_eq_ok {owners owners' pairs : List (String × Int)}
    (h : claimOwners owners pairs = .ok owners') :
    (∀ pair ∈ pairs, pair ∉ owners) ∧ (∀ pair ∈ pairs, pair ∈ owners') ∧
      ∀ pair ∈ owners, pair ∈ owners' := by
  induction pairs generalizing owners with
  | nil =>
    cases h
    exact ⟨nofun, nofun, fun _ hpair => hpair⟩
  | cons head rest ih =>
    rw [claimOwners] at h
    by_cases hhead : head ∈ owners
    · rw [if_pos hhead] at h
      cases h
    · rw [if_neg hhead] at h
      rcases ih h with ⟨hnew, hclaimed, hkept⟩
      rw [forall_mem_cons, forall_mem_cons]
      refine ⟨⟨hhead, fun pair hpair hown => ?_⟩, ⟨hkept _ mem_cons_self, hclaimed⟩,
        fun pair hown => hkept _ (mem_cons_of_mem _ hown)⟩
      exact hnew pair hpair (mem_cons_of_mem _ hown)

theorem validateAssignments_eq_ok {owners : List (String × Int)} {assignments : List Bytes}
    (h : validateAssignments decode owners assignments = .ok ()) :
    (∀ a ∈ assignments, ∀ pair ∈ partitionsOf decode a, pair ∉ owners) ∧
      assignments.Pairwise (Apart decode) := by
  induction assignments generalizing owners with
  | nil => exact ⟨nofun, List.Pairwise.nil⟩
  | cons assignment rest ih =>
    rw [validateAssignments] at h
    by_cases hnil : assignment = []
    · rw [if_pos hnil] at h
      rcases ih h with ⟨hfree, hapart⟩
      rw [hnil, forall_mem_cons, pairwise_cons]
      exact ⟨⟨nofun, hfree⟩, fun other _ => (apart_nil_right other).symm, hapart⟩
    · rw [if_neg hnil] at h
      rcases bind_eq_ok.mp h with ⟨pairs, hpairs, h⟩
      rcases bind_eq_ok.mp h with ⟨owners', howners, h⟩
      rcases ih h with ⟨hfree, hapart⟩
      rcases claimOwners_eq_ok howners with ⟨hnew, hclaimed, hkept⟩
      have hown : partitionsOf decode assignment = pairs := by
        rw [partitionsOf, hpairs]
      rw [forall_mem_cons, pairwise_cons, hown]
      refine ⟨⟨hnew, fun a ha pair hpair howner => hfree a ha pair hpair (hkept pair howner)⟩,
        fun other hother => ?_, hapart⟩
      -- What the first one claims is taken for the others.
      intro pair hpair hpair'
      rw [hown] at hpair
      exact hfree other hother pair hpair' (hclaimed pair hpair)

variable {assignments : BTreeMap String Bytes} {id group : String} {record record' : GroupRecord}

/-- Assignments that pass the check give different members no common partition. -/
theorem validateUniqueAssignments_disjoint
    (h : validateUniqueAssignments decode assignments = .ok ()) {id' : String} (hne : id ≠ id') :
    Apart decode (assignments[id]?.getD []) (assignments[id']?.getD []) := by
  have hapart := (validateAssignments_eq_ok h).2
  rw [pairwise_map] at hapart
  cases ha : assignments[id]? with
  | none => exact (apart_nil_right _).symm
  | some a =>
    cases hb : assignments[id']? with
    | none => exact apart_nil_right _
    | some b =>
      have hsymm : Std.Symm fun p q : String × Bytes => Apart decode p.2 q.2 :=
        ⟨fun _ _ hpq => hpq.symm⟩
      exact hapart.forall (Std.ExtTreeMap.mem_toList_iff_getElem?_eq_some.mpr ha)
        (Std.ExtTreeMap.mem_toList_iff_getElem?_eq_some.mpr hb)
        fun heq => hne (Prod.mk.inj heq).1

/-! ## What a command does -/

/-- What a member was told. -/
structure Answer where
  group : String
  generation : Int
  memberId : String
  assignment : Bytes
deriving DecidableEq

def answerOf : GroupCommand × GroupResponse → Option Answer
  | (.sync group generation memberId _, .assignment bytes) =>
    some ⟨group, generation, memberId, bytes⟩
  | _ => none

/-- The record bears an answer out: the group is stable, and its member holds
    what the member was told. -/
def Answer.Stands (a : Answer) (record : GroupRecord) : Prop :=
  record.phase = .stable ∧
    ∃ member, record.members[a.memberId]? = some member ∧ member.assignment = a.assignment

/-- The record after a member has joined. -/
def GroupRecord.joinedBy (record : GroupRecord) (member : GroupMember) (selected : String)
    (generation : Int) : GroupRecord :=
  let members := record.members.insert member.memberId member
  { record with
    protocolName := selected
    members
    generation
    leader := members.keys.head?.getD ""
    phase := .preparingRebalance }

/-- What a command for a group makes of its record. -/
inductive RecordAfter (decode : AssignmentDecoder) (group : String) (record : GroupRecord) :
    GroupCommand → GroupRecord → Prop
  | joined (memberId clientId clientHost protocolType : String) (protocols : BTreeMap String Bytes)
      (sessionTimeoutMs nowMs : Nat) (id selected : String) (generation : Int)
      (hselected : selected ∈ protocols)
      (hothers : ∀ other ∈ record.members.toList, selected ∈ other.2.protocols)
      (hgeneration : record.phase = .preparingRebalance ∧ generation = record.generation ∨
        generation = nextGeneration record.generation) :
      RecordAfter decode group record
        (.join group memberId clientId clientHost protocolType protocols sessionTimeoutMs nowMs)
        (record.joinedBy ⟨id, clientId, clientHost, sessionTimeoutMs, nowMs, protocols, []⟩ selected
          generation)
  | assigned (assignments : BTreeMap String Bytes) (hsome : assignments.isEmpty = false)
      (hleader : record.leader ∈ record.members)
      (hunique : validateUniqueAssignments decode assignments = .ok ()) :
      RecordAfter decode group record (.sync group record.generation record.leader assignments)
        (record.assign assignments)
  | beaten (id : String) (member : GroupMember) (nowMs : Nat)
      (hmember : record.members[id]? = some member) (hphase : record.phase = .stable) :
      RecordAfter decode group record (.heartbeat group record.generation id nowMs)
        { record with members := record.members.insert id { member with lastHeartbeatMs := nowMs } }
  | shrunk (id : String) (hid : id ∈ record.members) :
      RecordAfter decode group record (.leave group id) (record.shrink (record.members.erase id))

/-- A record that a command finds: that of the group, or a new one. -/
def Found (groups : BTreeMap String GroupRecord) (group : String) (record : GroupRecord) : Prop :=
  groups[group]? = some record ∨ groups[group]? = none ∧ ∃ memberId protocolType protocols,
      record = .new memberId protocolType protocols

/-- What a command makes of the groups. -/
inductive GroupsAfter (decode : AssignmentDecoder) (groups : BTreeMap String GroupRecord) :
    GroupCommand → BTreeMap String GroupRecord → Prop
  | same (command : GroupCommand) : GroupsAfter decode groups command groups
  | one (command : GroupCommand) (group : String) (record record' : GroupRecord)
      (groups' : BTreeMap String GroupRecord) (hfound : Found groups group record)
      (hafter : RecordAfter decode group record command record')
      (hgroups : ∀ other : String, groups'[other]? =
        if group = other then some record' else groups[other]?) :
      GroupsAfter decode groups command groups'
  | all (nowMs : Nat) :
      GroupsAfter decode groups (.expire nowMs) (groups.map fun _ record => record.expire nowMs)

theorem memberIdFor_returns (memberId : String) (s : GroupState) :
    (memberIdFor memberId).Returns s fun _ s' => s'.groups = s.groups := by
  rw [memberIdFor]
  split
  · apply Returns.modify_bind
    apply Returns.get_bind
    exact Returns.pure rfl
  · exact Returns.pure rfl

theorem validateMember_returns (group : String) (generation : Int) (member : String)
    (s : GroupState) :
    (validateMember group generation member).Returns s fun record s' => s' = s ∧
      s.groups[group]? = some record ∧ record.generation = generation ∧
        member ∈ record.members := by
  rw [validateMember]
  apply Returns.get_bind
  apply Returns.expect_bind
  intro record hrec
  apply Returns.require_bind
  intro hgen
  apply Returns.require_bind
  intro hmember
  exact Returns.pure ⟨rfl, hrec, hgen, hmember⟩

/-- The second half of a sync. -/
def syncAnswer (group id : String) : GroupM GroupResponse := do
  let s ← Fallible.get
  let record ← expect s.groups[group]? .unknownGroup
  require (record.phase = .stable) .rebalanceInProgress
  let member ← expect record.members[id]? .unknownMember
  advanceRevision
  pure (.assignment member.assignment)

section Commands

variable {s : GroupState} (group : String)

theorem join_groupsAfter (memberId clientId clientHost protocolType : String)
    (protocols : BTreeMap String Bytes) (sessionTimeoutMs nowMs : Nat) :
    (join group memberId clientId clientHost protocolType protocols sessionTimeoutMs
      nowMs).Returns s
      fun _ s' => GroupsAfter decode s.groups (.join group memberId clientId clientHost protocolType
        protocols sessionTimeoutMs nowMs) s'.groups := by
  rw [join]
  refine Returns.require_bind fun _ => (memberIdFor_returns memberId s).bind fun id s1 hgroups => ?_
  refine Returns.get_bind (Returns.modify_bind (Returns.require_bind fun _ => ?_))
  refine Returns.expect_bind fun selected _ => Returns.require_bind fun hselected => ?_
  refine Returns.modify_bind (Returns.modify_bind (Returns.pure ?_))
  have hfound : Found s.groups group (s1.groups[group]?.getD (.new id protocolType protocols)) := by
    rw [hgroups, Found]
    cases s.groups[group]? with
    | none => exact .inr ⟨rfl, id, protocolType, protocols, rfl⟩
    | some record => exact .inl rfl
  generalize s1.groups[group]?.getD (.new id protocolType protocols) = record at hfound hselected ⊢
  -- A join that begins no rebalance finds the group being rebalanced.
  have hgeneration : ∀ generation, (if id ∉ record.members ∨ record.phase ≠ .preparingRebalance then
      nextGeneration record.generation else record.generation) = generation →
      record.phase = .preparingRebalance ∧ generation = record.generation ∨
        generation = nextGeneration record.generation := by
    rintro generation rfl
    split
    · exact .inr rfl
    · next hkeeps => exact .inl ⟨not_not.mp (not_or.mp hkeeps).2, rfl⟩
  refine .one _ group record _ _ hfound (.joined memberId clientId clientHost protocolType protocols
    sessionTimeoutMs nowMs id selected _ hselected.1 hselected.2 (hgeneration _ rfl))
    fun other => ?_
  -- The record is written twice, and the second write is the one that stays.
  simp only [GroupState.setGroup, getElem?_insert_eq, hgroups]
  by_cases hother : group = other
  · rw [if_pos hother, if_pos hother]
    rfl
  · rw [if_neg hother, if_neg hother, if_neg hother]

/-- The second half of a sync changes no group, and its record bears the answer
    out. -/
theorem syncAnswer_returns {record : GroupRecord} (hrec : s.groups[group]? = some record)
    (id : String) : (syncAnswer group id).Returns s fun response s' => s'.groups = s.groups ∧
      ∃ bytes, response = .assignment bytes ∧
        (⟨group, record.generation, id, bytes⟩ : Answer).Stands record := by
  refine Returns.get_bind (Returns.expect_bind fun found hfound =>
    Returns.require_bind fun hphase => ?_)
  rw [hrec] at hfound
  cases hfound
  refine Returns.expect_bind fun member hmember => Returns.modify_bind (Returns.pure ?_)
  exact ⟨rfl, _, rfl, hphase, member, hmember, rfl⟩

theorem sync_groupsAfter (generation : Int) (memberId : String)
    (assignments : BTreeMap String Bytes) :
    (sync decode group generation memberId assignments).Returns s fun response s' =>
      GroupsAfter decode s.groups (.sync group generation memberId assignments) s'.groups ∧
        ∃ bytes record, response = .assignment bytes ∧ s'.groups[group]? = some record ∧
          record.generation = generation ∧
          (⟨group, generation, memberId, bytes⟩ : Answer).Stands record := by
  rw [sync]
  refine (validateMember_returns group generation memberId s).bind fun record s1 hrec => ?_
  rcases hrec with ⟨rfl, hrec, rfl, hmember⟩
  by_cases hsome : assignments.isEmpty = false
  · rw [if_pos hsome]
    refine Returns.require_bind fun hleader => Returns.ofExcept_bind fun _ hunique => ?_
    obtain rfl := hleader.1
    have hfound : (s1.setGroup group (record.assign assignments)).groups[group]? =
        some (record.assign assignments) := by
      rw [GroupState.setGroup, getElem?_insert_eq, if_pos rfl]
    refine Returns.modify_bind ((syncAnswer_returns group hfound record.leader).mono ?_)
    rintro response s' ⟨hs', bytes, hresponse, hstands⟩
    rw [hs']
    refine ⟨.one _ group record _ _ (.inl hrec) (.assigned assignments hsome hmember hunique)
      fun other => getElem?_insert_eq _ _ _ _, bytes, _, hresponse, hfound, rfl, hstands⟩
  · rw [if_neg hsome]
    refine (syncAnswer_returns group hrec memberId).mono ?_
    rintro response s' ⟨hs', bytes, hresponse, hstands⟩
    rw [hs']
    exact ⟨.same _, bytes, record, hresponse, hrec, rfl, hstands⟩

theorem heartbeat_groupsAfter (generation : Int) (memberId : String) (nowMs : Nat) :
    (heartbeat group generation memberId nowMs).Returns s fun _ s' =>
      GroupsAfter decode s.groups (.heartbeat group generation memberId nowMs) s'.groups := by
  rw [heartbeat]
  refine (validateMember_returns group generation memberId s).bind fun record s1 hrec => ?_
  rcases hrec with ⟨rfl, hrec, rfl, _⟩
  refine Returns.require_bind fun hphase => Returns.expect_bind fun member hmember => ?_
  refine Returns.modify_bind (Returns.modify_bind (Returns.pure ?_))
  exact .one _ group record _ _ (.inl hrec) (.beaten memberId member nowMs hmember hphase)
    fun other => getElem?_insert_eq _ _ _ _

theorem leave_groupsAfter (memberId : String) :
    (leave group memberId).Returns s fun _ s' =>
      GroupsAfter decode s.groups (.leave group memberId) s'.groups := by
  rw [leave]
  refine Returns.get_bind (Returns.expect_bind fun record hrec => ?_)
  refine Returns.require_bind fun hid => Returns.modify_bind (Returns.modify_bind (Returns.pure ?_))
  exact .one _ group record _ _ (.inl hrec) (.shrunk memberId hid)
    fun other => getElem?_insert_eq _ _ _ _

theorem expireGroups_groupsAfter (nowMs : Nat) :
    (expireGroups nowMs).Returns s fun _ s' =>
      GroupsAfter decode s.groups (.expire nowMs) s'.groups := by
  rw [expireGroups]
  refine Returns.get_bind (Returns.modify_bind ?_)
  split
  · exact Returns.modify_bind (Returns.pure (.all nowMs))
  · exact Returns.pure (.all nowMs)

/-- A command that is taken is one of the cases, and what it answers is borne
    out by the group. -/
theorem apply_groupsAfter (command : GroupCommand) :
    (GroupMachine.apply decode command).Returns s fun response s' =>
      GroupsAfter decode s.groups command s'.groups ∧
        ∀ a ∈ answerOf (command, response), ∃ record, s'.groups[a.group]? = some record ∧
          record.generation = a.generation ∧ a.Stands record := by
  cases command with
  | join group memberId clientId clientHost protocolType protocols sessionTimeoutMs nowMs =>
    exact (join_groupsAfter group memberId clientId clientHost protocolType protocols
      sessionTimeoutMs nowMs).mono fun _ _ hafter => ⟨hafter, nofun⟩
  | sync group generation memberId assignments =>
    refine (sync_groupsAfter group generation memberId assignments).mono ?_
    rintro _ s' ⟨hafter, bytes, record, rfl, hrec, hgen, hstands⟩
    refine ⟨hafter, fun a ha => ?_⟩
    cases ha
    exact ⟨record, hrec, hgen, hstands⟩
  | heartbeat group generation memberId nowMs =>
    exact (heartbeat_groupsAfter group generation memberId nowMs).mono
      fun _ _ hafter => ⟨hafter, nofun⟩
  | leave group memberId =>
    exact (leave_groupsAfter group memberId).mono fun _ _ hafter => ⟨hafter, nofun⟩
  | commitOffsets group generation memberId offsets retentionMs nowMs =>
    refine (validateMember_returns group generation memberId s).bind fun record s1 hrec => ?_
    rcases hrec with ⟨rfl, _⟩
    exact Returns.modify_bind (Returns.modify_bind (Returns.pure ⟨.same _, nofun⟩))
  | commitTransactionalOffsets group offsets nowMs =>
    exact Returns.modify_bind (Returns.modify_bind (Returns.pure ⟨.same _, nofun⟩))
  | expire nowMs =>
    exact (expireGroups_groupsAfter nowMs).mono fun _ _ hafter => ⟨hafter, nofun⟩
  | migrate expectedEpoch =>
    refine Returns.get_bind (Returns.require_bind fun _ => ?_)
    exact Returns.modify_bind (Returns.modify_bind (Returns.pure ⟨.same _, nofun⟩))

end Commands

/-! ## The invariant -/

theorem isEmpty_iff_forall_notMem {κ β : Type} [Ord κ] [Std.TransOrd κ] {t : BTreeMap κ β} :
    t.isEmpty = true ↔ ∀ k, k ∉ t :=
  Std.ExtTreeMap.isEmpty_iff.trans Std.ExtTreeMap.eq_empty_iff_forall_not_mem

/-- The first key of a map is the least one. -/
theorem head_keys_least {β : Type} {t : BTreeMap String β} {id : String} (h : id ∈ t) :
    t.keys.head?.getD "" ∈ t ∧ t.keys.head?.getD "" ≤ id := by
  have hord := Std.ExtTreeMap.ordered_keys (t := t)
  rw [← Std.ExtTreeMap.mem_keys] at h ⊢
  cases hkeys : t.keys with
  | nil =>
    rw [hkeys] at h
    cases h
  | cons first rest =>
    rw [hkeys] at h hord
    refine ⟨List.mem_cons_self, ?_⟩
    rcases List.mem_cons.mp h with rfl | hrest
    · exact le_refl _
    · exact le_of_lt (compare_lt_iff_lt.mp ((List.pairwise_cons.mp hord).1 id hrest))

/-- Members are filed under their ids, and while the group is stable their
    assignments have no partition in common. -/
structure GroupRecord.Sound (decode : AssignmentDecoder) (record : GroupRecord) : Prop where
  named : ∀ (id : String) (member : GroupMember), record.members[id]? = some member →
    member.memberId = id
  apart : record.phase = .stable → ∀ (id id' : String) (member member' : GroupMember),
    record.members[id]? = some member → record.members[id']? = some member' → id ≠ id' →
      Apart decode member.assignment member'.assignment

/-- What holds of the record of every group: it is empty exactly without members,
    the least member leads, every member has the selected protocol, and the
    assignments of a stable group have no partition in common. -/
structure GroupRecord.Consistent (decode : AssignmentDecoder) (record : GroupRecord) : Prop where
  sound : record.Sound decode
  empty_iff : record.phase = .empty ↔ record.members.isEmpty = true
  least : ∀ id ∈ record.members, record.leader ∈ record.members ∧ record.leader ≤ id
  supported : ∀ (id : String) (member : GroupMember), record.members[id]? = some member →
    record.protocolName ∈ member.protocols

theorem new_sound (memberId protocolType : String) (protocols : BTreeMap String Bytes) :
    (GroupRecord.new memberId protocolType protocols).Sound decode := by
  constructor
  · intro id member hmember
    rw [GroupRecord.new, Std.ExtTreeMap.getElem?_empty] at hmember
    cases hmember
  · exact nofun

theorem new_consistent (memberId protocolType : String) (protocols : BTreeMap String Bytes) :
    (GroupRecord.new memberId protocolType protocols).Consistent decode := by
  refine ⟨new_sound _ _ _, ⟨fun _ => rfl, fun _ => rfl⟩, fun id hid => ?_,
    fun id member hmember => ?_⟩
  · exact absurd hid Std.ExtTreeMap.not_mem_empty
  · rw [GroupRecord.new, Std.ExtTreeMap.getElem?_empty] at hmember
    cases hmember

/-- A group with fewer members is in another generation, and not stable. -/
theorem shrink_sound (h : record.Sound decode) {members : BTreeMap String GroupMember}
    (hsub : ∀ (id : String) (member : GroupMember), members[id]? = some member →
      record.members[id]? = some member) : (record.shrink members).Sound decode := by
  constructor
  · exact fun id member hmember => h.named id member (hsub id member hmember)
  · intro hphase
    simp only [GroupRecord.shrink] at hphase
    split at hphase <;> cases hphase

/-- A record with some of its members. -/
theorem shrink_consistent (h : record.Consistent decode) {members : BTreeMap String GroupMember}
    (hsub : ∀ (id : String) (member : GroupMember), members[id]? = some member →
      record.members[id]? = some member) : (record.shrink members).Consistent decode := by
  refine ⟨shrink_sound h.sound hsub, ?_, fun id hid => head_keys_least hid,
    fun id member hmember => h.supported id member (hsub id member hmember)⟩
  by_cases hempty : members.isEmpty = true
  · simp [GroupRecord.shrink, hempty]
  · simp [GroupRecord.shrink, hempty]

theorem assign_sound (h : record.Sound decode)
    (hunique : validateUniqueAssignments decode assignments = .ok ()) :
    (record.assign assignments).Sound decode := by
  -- A member of the new record has the assignment of its id.
  have hassigned : ∀ (id : String) (member : GroupMember),
      (record.assign assignments).members[id]? = some member →
        member.memberId = id ∧ member.assignment = assignments[id]?.getD [] := by
    intro id member hmember
    rw [GroupRecord.assign, Std.ExtTreeMap.getElem?_map] at hmember
    rcases Option.map_eq_some_iff.mp hmember with ⟨old, hold, rfl⟩
    have hid := h.named id old hold
    exact ⟨hid, by simp only [hid]⟩
  constructor
  · exact fun id member hmember => (hassigned id member hmember).1
  · intro _ id id' member member' hmember hmember' hne
    rw [(hassigned id member hmember).2, (hassigned id' member' hmember').2]
    exact validateUniqueAssignments_disjoint hunique hne

theorem RecordAfter.consistent {command : GroupCommand}
    (hafter : RecordAfter decode group record command record') (h : record.Consistent decode) :
    record'.Consistent decode := by
  cases hafter with
  | joined memberId clientId clientHost protocolType protocols sessionTimeoutMs nowMs id selected
      generation hselected hothers _ =>
    refine ⟨⟨?_, nofun⟩, ⟨nofun, fun hempty => ?_⟩, fun id hid => head_keys_least hid, ?_⟩
    · intro id found hfound
      rcases getElem?_insert_cases hfound with ⟨rfl, rfl⟩ | ⟨_, hold⟩
      · rfl
      · exact h.sound.named id found hold
    · exact absurd Std.ExtTreeMap.mem_insert_self (isEmpty_iff_forall_notMem.mp hempty id)
    · intro id found hfound
      rcases getElem?_insert_cases hfound with ⟨rfl, rfl⟩ | ⟨_, hold⟩
      · exact hselected
      · exact hothers (id, found) (Std.ExtTreeMap.mem_toList_iff_getElem?_eq_some.mpr hold)
  | assigned assignments _ hleader hunique =>
    -- The members are the same ones, with other assignments.
    refine ⟨assign_sound h.sound hunique, ⟨nofun, fun hempty => ?_⟩, fun id hid => ?_, ?_⟩
    · exact absurd (Std.ExtTreeMap.mem_map.mpr hleader) (isEmpty_iff_forall_notMem.mp hempty _)
    · rcases h.least id (Std.ExtTreeMap.mem_map.mp hid) with ⟨hmem, hle⟩
      exact ⟨Std.ExtTreeMap.mem_map.mpr hmem, hle⟩
    · intro id found hfound
      rw [GroupRecord.assign, Std.ExtTreeMap.getElem?_map] at hfound
      rcases Option.map_eq_some_iff.mp hfound with ⟨old, hold, rfl⟩
      exact h.supported id old hold
  | beaten beating member nowMs hmember hphase =>
    have hmem : ∀ id, id ∈ record.members.insert beating { member with lastHeartbeatMs := nowMs } ↔
        id ∈ record.members := by
      intro id
      rw [Std.ExtTreeMap.mem_insert, Std.LawfulEqCmp.compare_eq_iff_eq]
      refine or_iff_right_of_imp fun heq => ?_
      rw [← heq, Std.ExtTreeMap.mem_iff_isSome_getElem?, hmember]
      rfl
    -- A heartbeat changes neither the id nor the assignment of its member.
    have hsame : ∀ (id : String) (found : GroupMember),
        (record.members.insert beating { member with lastHeartbeatMs := nowMs })[id]? =
          some found → ∃ old, record.members[id]? = some old ∧ found.memberId = old.memberId ∧
            found.assignment = old.assignment ∧ found.protocols = old.protocols := by
      intro id found hfound
      rcases getElem?_insert_cases hfound with ⟨rfl, rfl⟩ | ⟨_, hold⟩
      · exact ⟨member, hmember, rfl, rfl, rfl⟩
      · exact ⟨found, hold, rfl, rfl, rfl⟩
    refine ⟨⟨?_, ?_⟩, ?_, fun id hid => ?_, ?_⟩
    · intro id found hfound
      rcases hsame id found hfound with ⟨old, hold, hid, _⟩
      rw [hid]
      exact h.sound.named id old hold
    · intro _ id id' found found' hfound hfound' hne
      rcases hsame id found hfound with ⟨old, hold, _, hasg, _⟩
      rcases hsame id' found' hfound' with ⟨old', hold', _, hasg', _⟩
      rw [hasg, hasg']
      exact h.sound.apart hphase id id' old old' hold hold' hne
    · rw [h.empty_iff, isEmpty_iff_forall_notMem, isEmpty_iff_forall_notMem]
      simp only [hmem]
    · rcases h.least id ((hmem id).mp hid) with ⟨hin, hle⟩
      exact ⟨(hmem _).mpr hin, hle⟩
    · intro id found hfound
      rcases hsame id found hfound with ⟨old, hold, _, _, hprotocols⟩
      rw [hprotocols]
      exact h.supported id old hold
  | shrunk id _ =>
    refine shrink_consistent h fun other member hmember => ?_
    rw [getElem?_erase_eq] at hmember
    split at hmember
    · cases hmember
    · exact hmember

theorem expire_consistent (h : record.Consistent decode) (nowMs : Nat) :
    (record.expire nowMs).Consistent decode := by
  rw [GroupRecord.expire]
  split
  · refine shrink_consistent h fun id member hmember => ?_
    rw [GroupRecord.liveMembers, Std.ExtTreeMap.getElem?_filter'] at hmember
    exact (Option.filter_eq_some_iff.mp hmember).1
  · exact h

/-- Every record of a state is consistent. -/
def AllConsistent (decode : AssignmentDecoder) (groups : BTreeMap String GroupRecord) : Prop :=
  ∀ (group : String) (record : GroupRecord), groups[group]? = some record → record.Consistent decode

theorem GroupsAfter.consistent {groups groups' : BTreeMap String GroupRecord}
    {command : GroupCommand} (hafter : GroupsAfter decode groups command groups')
    (h : AllConsistent decode groups) :
    AllConsistent decode groups' := by
  intro other record hrec
  cases hafter with
  | same _ => exact h other record hrec
  | one _ group old new _ hfound hnew hgroups =>
    rw [hgroups] at hrec
    by_cases hother : group = other
    · rw [if_pos hother, Option.some.injEq] at hrec
      rw [← hrec]
      rcases hfound with hold | ⟨_, memberId, protocolType, protocols, rfl⟩
      · exact hnew.consistent (h group old hold)
      · exact hnew.consistent (new_consistent memberId protocolType protocols)
    · rw [if_neg hother] at hrec
      exact h other record hrec
  | all nowMs =>
    rw [Std.ExtTreeMap.getElem?_map] at hrec
    rcases Option.map_eq_some_iff.mp hrec with ⟨old, hold, rfl⟩
    exact expire_consistent (h other old hold) nowMs

/-! ## Runs -/

theorem applyCommands_consistent {s : GroupState} (h : AllConsistent decode s.groups)
    (commands : List GroupCommand) :
    (DeterministicHost.applyCommands (GroupMachine.apply decode) commands).Returns s
      fun _ s' => AllConsistent decode s'.groups := by
  induction commands generalizing s with
  | nil => exact Returns.pure h
  | cons command rest ih =>
    refine (apply_groupsAfter command).bind fun _ s1 hafter => ?_
    exact (ih (hafter.1.consistent h)).bind fun _ s2 hrest => Returns.pure hrest

/-- A batch of commands through the host, whether it is taken or not. -/
def hostStep (decode : AssignmentDecoder) (hosted : HostedState GroupState)
    (commands : List GroupCommand) : HostedState GroupState :=
  (DeterministicHost.applyBatch (GroupMachine.apply decode) commands hosted).2

theorem hostStep_consistent {hosted : HostedState GroupState}
    (h : AllConsistent decode hosted.value.groups) (commands : List GroupCommand) :
    AllConsistent decode (hostStep decode hosted commands).value.groups := by
  rw [hostStep, DeterministicHost.applyBatch]
  rcases hres : DeterministicHost.applyCommands (GroupMachine.apply decode) commands hosted.value
    with ⟨_ | responses, next⟩
  · exact h
  · exact (applyCommands_consistent h commands).of_eq hres

theorem allConsistent_new : AllConsistent decode
    (DeterministicHost.new GroupState.default : HostedState GroupState).value.groups := by
  intro group record hrec
  rw [DeterministicHost.new, GroupState.default, Std.ExtTreeMap.getElem?_empty] at hrec
  cases hrec

/-- In every state that the host can reach, every group is consistent. -/
theorem groups_consistent {hosted : HostedState GroupState}
    (h : Reaches (hostStep decode) (fun _ _ => True) (DeterministicHost.new .default) hosted)
    {group : String} {record : GroupRecord} (hrecord : hosted.value.groups[group]? = some record) :
    (record.phase = .empty ↔ record.members.isEmpty = true) ∧
    (∀ id ∈ record.members, record.leader ∈ record.members ∧ record.leader ≤ id) ∧
    (∀ (id : String) (member : GroupMember), record.members[id]? = some member →
      record.protocolName ∈ member.protocols) ∧
    (record.phase = .stable → ∀ (id id' : String) (member member' : GroupMember),
      record.members[id]? = some member → record.members[id']? = some member' → id ≠ id' →
        Apart decode member.assignment member'.assignment) := by
  have hall := h.invariant (I := fun hosted => AllConsistent decode hosted.value.groups)
    (fun _ commands hI _ => hostStep_consistent hI commands) allConsistent_new
  have hconsistent := hall group record hrecord
  exact ⟨hconsistent.empty_iff, hconsistent.least, hconsistent.supported, hconsistent.sound.apart⟩

/-! ## A group of two members -/

/-- Every byte is a partition of one topic. -/
def byteDecoder : AssignmentDecoder := fun _ bytes =>
  some (⟨[("t", bytes.map fun b => (b.toNat : Int))]⟩, [])

def joinAs (memberId : String) : GroupCommand :=
  .join "g" memberId "c" "h" "consumer" (Std.ExtTreeMap.ofList [("range", [])]) 10 1

/-- A sync of the leader, with a partition for itself and one for the other
    member. -/
def leaderSync (first second : UInt8) : GroupCommand :=
  .sync "g" 2 "a" (Std.ExtTreeMap.ofList [("a", [0, 0, first]), ("b", [0, 0, second])])

def memberSync : GroupCommand :=
  .sync "g" 2 "b" ∅

/-- A group of two members whose leader has handed out the partitions. -/
theorem groups_consistent_stable :
    ∃ record, (runOps (hostStep byteDecoder) (DeterministicHost.new .default)
        [[joinAs "b"], [joinAs "a"], [leaderSync 1 2]]).value.groups["g"]? = some record ∧
      record.phase = .stable ∧
      (∀ id ∈ record.members, record.leader ∈ record.members ∧ record.leader ≤ id) := by
  have hrun := reaches_runOps (DeterministicHost.new GroupState.default)
    [[joinAs "b"], [joinAs "a"], [leaderSync 1 2]]
    (show Admits (hostStep byteDecoder) (fun _ _ => True) _ _ from
      ⟨trivial, trivial, trivial, trivial⟩)
  have hphase : ((runOps (hostStep byteDecoder) (DeterministicHost.new .default)
      [[joinAs "b"], [joinAs "a"], [leaderSync 1 2]]).value.groups["g"]?.map (·.phase)) =
      some .stable := by
    decide +kernel
  rcases Option.map_eq_some_iff.mp hphase with ⟨record, hrecord, hstable⟩
  exact ⟨record, hrecord, hstable, (groups_consistent hrun hrecord).2.1⟩

end Kafka

end Pepper
