import Pepper.Base.Bytes
import Pepper.Core.Rsm
import Pepper.Core.Transactions

/-!
# Consumer Groups

The classic consumer-group coordinator, as `GroupMachine` of `pepper-kafka`.

Members join a group, and each join that changes the membership begins a new
generation. The leader hands out assignments with a sync, and every member reads
its own with a sync of its own. The machine changes its state in place: a join
that fails may leave a new member number or an empty group behind. The host
takes that back.

The decoder of assignments is a function of a library; it is a parameter here.

## Main definitions

* `GroupRecord`, `GroupMember`, `GroupState`: What the coordinator keeps.
* `GroupCommand`, `GroupResponse`: Its commands and their answers.
* `validateUniqueAssignments`: No partition for two members.
* `GroupMachine.apply`: A command.
-/

namespace Pepper

namespace Kafka

open Fallible

/-- Where a group is in its rebalance. -/
inductive GroupPhase where
  | empty
  | preparingRebalance
  | stable
deriving DecidableEq, Repr

structure GroupMember where
  memberId : String
  clientId : String
  clientHost : String
  sessionTimeoutMs : Nat
  lastHeartbeatMs : Nat
  protocols : BTreeMap String Bytes
  assignment : Bytes
deriving DecidableEq

structure OffsetKey where
  group : String
  topic : String
  partition : Int
deriving DecidableEq, Repr

namespace OffsetKey

/-- Keys are ordered by group, topic and partition. -/
instance instOrd : Ord OffsetKey where
  compare := compareLex (compareOn group) (compareLex (compareOn topic) (compareOn partition))

instance instTransOrd : Std.TransOrd OffsetKey :=
  inferInstanceAs (Std.TransCmp
    (compareLex (compareOn group) (compareLex (compareOn topic) (compareOn partition))))

end OffsetKey

structure OffsetRecord where
  offset : Int
  metadata : String
  commitTimestampMs : Nat
  expireTimestampMs : Option Nat
deriving DecidableEq, Repr

/-- A group of consumers. -/
structure GroupRecord where
  generation : Int
  leader : String
  protocolType : String
  protocolName : String
  phase : GroupPhase
  members : BTreeMap String GroupMember

structure GroupState where
  revision : Nat
  coordinatorEpoch : Nat
  nextMember : Nat
  groups : BTreeMap String GroupRecord
  offsets : BTreeMap OffsetKey OffsetRecord

def GroupState.default : GroupState :=
  ⟨0, 1, 0, ∅, ∅⟩

/-- What a commit says about one partition. -/
structure CommittedOffset where
  topic : String
  partition : Int
  offset : Int
  metadata : String
deriving DecidableEq, Repr

/-- The commands of the replicated machine. -/
inductive GroupCommand where
  | join (group memberId clientId clientHost protocolType : String)
      (protocols : BTreeMap String Bytes) (sessionTimeoutMs nowMs : Nat)
  | sync (group : String) (generation : Int) (memberId : String)
      (assignments : BTreeMap String Bytes)
  | heartbeat (group : String) (generation : Int) (memberId : String) (nowMs : Nat)
  | leave (group memberId : String)
  | commitOffsets (group : String) (generation : Int) (memberId : String)
      (offsets : List CommittedOffset) (retentionMs : Option Nat) (nowMs : Nat)
  | commitTransactionalOffsets (group : String) (offsets : List CommittedOffset) (nowMs : Nat)
  | expire (nowMs : Nat)
  | migrate (expectedEpoch : Nat)

inductive GroupResponse where
  | joined (generation : Int) (protocolName leader memberId : String)
      (members : List (String × Bytes))
  | assignment (bytes : Bytes)
  | empty
  | expired (members offsets : Nat)
  | migrated (epoch : Nat)
deriving DecidableEq, Repr

inductive GroupError where
  | invalid
  | unknownGroup
  | unknownMember
  | illegalGeneration
  | inconsistentProtocol
  | rebalanceInProgress
  | invalidAssignment
  | duplicateAssignment
  | fencedCoordinator
deriving DecidableEq, Repr

abbrev GroupM (α : Type) := Fallible GroupState GroupError α

/-! ## Assignments -/

/-- A decoded assignment: the partitions of each topic. -/
structure ConsumerProtocolAssignment where
  assignedPartitions : List (String × List Int)

/-- `ConsumerProtocolAssignment::decode` for a version: the value and the bytes
    that are left. -/
abbrev AssignmentDecoder := Int → Bytes → Option (ConsumerProtocolAssignment × Bytes)

/-- `get_i16` -/
def getI16 : Bytes → Option (Int × Bytes)
  | high :: low :: rest =>
    let n := high.toNat * 256 + low.toNat
    some (if n < 2 ^ 15 then (n : Int) else (n : Int) - 2 ^ 16, rest)
  | _ => none

/-- The topics and partitions of an assignment. -/
def decodeAssignment (decode : AssignmentDecoder) (assignment : Bytes) :
    Except GroupError (List (String × Int)) :=
  match getI16 assignment with
  | none => .error .invalidAssignment
  | some (version, bytes) =>
    match decode version bytes with
    | none => .error .invalidAssignment
    | some (decoded, rest) =>
      if rest ≠ [] then .error .invalidAssignment
      else .ok (decoded.assignedPartitions.flatMap fun topic => topic.2.map (topic.1, ·))

/-- Claim partitions one after the other. -/
def claimOwners : List (String × Int) → List (String × Int) →
    Except GroupError (List (String × Int))
  | owners, [] => .ok owners
  | owners, pair :: rest =>
    if pair ∈ owners then .error .duplicateAssignment else claimOwners (pair :: owners) rest

/-- The loop of `validate_unique_assignments`, from the partitions that have an
    owner on. -/
def validateAssignments (decode : AssignmentDecoder) :
    List (String × Int) → List Bytes → Except GroupError Unit
  | _, [] => .ok ()
  | owners, assignment :: rest =>
    if assignment = [] then validateAssignments decode owners rest
    else do
      let pairs ← decodeAssignment decode assignment
      let owners ← claimOwners owners pairs
      validateAssignments decode owners rest

/-- No partition is assigned to two members of one map. -/
def validateUniqueAssignments (decode : AssignmentDecoder) (assignments : BTreeMap String Bytes) :
    Except GroupError Unit :=
  validateAssignments decode [] (assignments.toList.map Prod.snd)

/-! ## The machine -/

/-- Generations are 32-bit numbers that stop at the greatest one. -/
def nextGeneration (generation : Int) : Int :=
  saturatingAddSigned (2 ^ 31 - 1) generation 1

def GroupState.setGroup (s : GroupState) (group : String) (record : GroupRecord) : GroupState :=
  { s with groups := s.groups.insert group record }

/-- Each change of the state is a revision. -/
def advanceRevision : GroupM Unit :=
  modify fun s => { s with revision := min (s.revision + 1) (2 ^ 64 - 1) }

/-- `or_else_nonempty` -/
def orElseNonempty (name : String) (fallback : Option String) : Option String :=
  if name = "" then fallback else some name

/-- `validate_member` and `validate_member_mut` -/
def validateMember (group : String) (generation : Int) (member : String) : GroupM GroupRecord := do
  let s ← get
  let record ← expect s.groups[group]? .unknownGroup
  require (record.generation = generation) .illegalGeneration
  require (member ∈ record.members) .unknownMember
  pure record

/-- The record of a group whose membership has shrunk. -/
def GroupRecord.shrink (record : GroupRecord) (members : BTreeMap String GroupMember) :
    GroupRecord :=
  { record with
    members
    generation := nextGeneration record.generation
    leader := members.keys.head?.getD ""
    phase := if members.isEmpty then .empty else .preparingRebalance }

/-- What a leader's assignments make of a record. -/
def GroupRecord.assign (record : GroupRecord) (assignments : BTreeMap String Bytes) :
    GroupRecord :=
  { record with
    members := record.members.map fun _ member =>
      { member with assignment := assignments[member.memberId]?.getD [] }
    phase := .stable }

/-- The record a member joins, for a group that has none. -/
def GroupRecord.new (memberId protocolType : String) (protocols : BTreeMap String Bytes) :
    GroupRecord where
  generation := 0
  leader := memberId
  protocolType := protocolType
  protocolName := protocols.keys.head?.getD ""
  phase := .empty
  members := ∅

/-- The id of a joining member; one that brings none gets the next number. -/
def memberIdFor (memberId : String) : GroupM String :=
  if memberId = "" then do
    modify fun s => { s with nextMember := min (s.nextMember + 1) (2 ^ 64 - 1) }
    let s ← get
    pure ("pepper-member-" ++ toString s.nextMember)
  else pure memberId

/-- A member comes or comes back, which begins a rebalance. -/
def join (group memberId clientId clientHost protocolType : String)
    (protocols : BTreeMap String Bytes) (sessionTimeoutMs nowMs : Nat) : GroupM GroupResponse := do
  require (group ≠ "" ∧ protocolType ≠ "" ∧ protocols.isEmpty = false ∧ sessionTimeoutMs ≠ 0)
    .invalid
  let memberId ← memberIdFor memberId
  let s ← get
  let record := s.groups[group]?.getD (.new memberId protocolType protocols)
  -- The group is there from here on, also if the join fails.
  modify fun s => s.setGroup group record
  require (record.protocolType = protocolType) .inconsistentProtocol
  let selected ← expect (orElseNonempty record.protocolName protocols.keys.head?)
    .inconsistentProtocol
  require (selected ∈ protocols ∧
      ∀ member ∈ record.members.toList, selected ∈ member.2.protocols) .inconsistentProtocol
  let beginsRebalance := memberId ∉ record.members ∨ record.phase ≠ .preparingRebalance
  let members := record.members.insert memberId
    { memberId, clientId, clientHost, sessionTimeoutMs, lastHeartbeatMs := nowMs, protocols,
      assignment := [] }
  let generation := if beginsRebalance then nextGeneration record.generation else record.generation
  -- There is a member now, so there is a first one.
  let leader := members.keys.head?.getD ""
  modify fun s => s.setGroup group
    { record with
      protocolName := selected, members, generation, leader, phase := .preparingRebalance }
  advanceRevision
  -- Every member has the selected protocol.
  pure (.joined generation selected leader memberId
    (members.toList.map fun member => (member.2.memberId, member.2.protocols[selected]?.getD [])))

/-- The leader brings the assignments, the others ask for theirs. -/
def sync (decode : AssignmentDecoder) (group : String) (generation : Int) (memberId : String)
    (assignments : BTreeMap String Bytes) : GroupM GroupResponse := do
  let record ← validateMember group generation memberId
  if assignments.isEmpty = false then
    require (record.leader = memberId ∧ ∀ pair ∈ assignments.toList, pair.1 ∈ record.members)
      .unknownMember
    ofExcept (validateUniqueAssignments decode assignments)
    modify fun s => s.setGroup group (record.assign assignments)
  let s ← get
  let record ← expect s.groups[group]? .unknownGroup
  require (record.phase = .stable) .rebalanceInProgress
  let member ← expect record.members[memberId]? .unknownMember
  advanceRevision
  pure (.assignment member.assignment)

/-- A member of the current generation is alive. -/
def heartbeat (group : String) (generation : Int) (memberId : String) (nowMs : Nat) :
    GroupM GroupResponse := do
  let record ← validateMember group generation memberId
  require (record.phase = .stable) .rebalanceInProgress
  let member ← expect record.members[memberId]? .unknownMember
  modify fun s => s.setGroup group
    { record with
      members := record.members.insert memberId { member with lastHeartbeatMs := nowMs } }
  advanceRevision
  pure .empty

/-- A member goes, which begins a rebalance. -/
def leave (group memberId : String) : GroupM GroupResponse := do
  let s ← get
  let record ← expect s.groups[group]? .unknownGroup
  require (memberId ∈ record.members) .unknownMember
  modify fun s => s.setGroup group (record.shrink (record.members.erase memberId))
  advanceRevision
  pure .empty

/-- Both kinds of commits: they differ in the checks before and in when the
    offsets expire. -/
def insertOffsets (group : String) (offsets : List CommittedOffset) (nowMs : Nat)
    (expireTimestampMs : Option Nat) : GroupM Unit :=
  modify fun s =>
    { s with
      offsets := offsets.foldl (fun all committed =>
        all.insert ⟨group, committed.topic, committed.partition⟩
          ⟨committed.offset, committed.metadata, nowMs, expireTimestampMs⟩) s.offsets }

/-- Offsets of a member of the current generation. -/
def commitOffsets (group : String) (generation : Int) (memberId : String)
    (offsets : List CommittedOffset) (retentionMs : Option Nat) (nowMs : Nat) :
    GroupM GroupResponse := do
  let _ ← validateMember group generation memberId
  insertOffsets group offsets nowMs (retentionMs.map fun retention =>
    min (nowMs + retention) (2 ^ 64 - 1))
  advanceRevision
  pure .empty

/-- Offsets of a transaction need no member. -/
def commitTransactionalOffsets (group : String) (offsets : List CommittedOffset) (nowMs : Nat) :
    GroupM GroupResponse := do
  insertOffsets group offsets nowMs none
  advanceRevision
  pure .empty

/-- The members whose session has not timed out. -/
def GroupRecord.liveMembers (record : GroupRecord) (nowMs : Nat) : BTreeMap String GroupMember :=
  record.members.filter fun _ member => nowMs - member.lastHeartbeatMs ≤ member.sessionTimeoutMs

/-- Members that have been silent too long are dropped. -/
def GroupRecord.expire (record : GroupRecord) (nowMs : Nat) : GroupRecord :=
  if record.members.size ≠ (record.liveMembers nowMs).size then
    record.shrink (record.liveMembers nowMs)
  else record

def expireGroups (nowMs : Nat) : GroupM GroupResponse := do
  let s ← get
  let expiredMembers := (s.groups.toList.map fun group =>
    group.2.members.size - (group.2.liveMembers nowMs).size).sum
  let groups := s.groups.map fun _ record => record.expire nowMs
  -- Offsets of a group with members do not expire.
  let active : String → Bool := fun name => groups[name]?.any fun record => !record.members.isEmpty
  let offsets := s.offsets.filter fun key offset =>
    active key.group || offset.expireTimestampMs.all (· > nowMs)
  let expiredOffsets := s.offsets.size - offsets.size
  modify fun s => { s with groups, offsets }
  if expiredMembers > 0 ∨ expiredOffsets > 0 then
    advanceRevision
  pure (.expired expiredMembers expiredOffsets)

/-- The state moves to the next epoch. -/
def migrate (expectedEpoch : Nat) : GroupM GroupResponse := do
  let s ← get
  require (s.coordinatorEpoch = expectedEpoch) .fencedCoordinator
  modify fun s => { s with coordinatorEpoch := min (s.coordinatorEpoch + 1) (2 ^ 64 - 1) }
  advanceRevision
  pure (.migrated (min (s.coordinatorEpoch + 1) (2 ^ 64 - 1)))

/-- `GroupMachine::apply` -/
def GroupMachine.apply (decode : AssignmentDecoder) : GroupCommand → GroupM GroupResponse
  | .join group memberId clientId clientHost protocolType protocols sessionTimeoutMs nowMs =>
    join group memberId clientId clientHost protocolType protocols sessionTimeoutMs nowMs
  | .sync group generation memberId assignments =>
    sync decode group generation memberId assignments
  | .heartbeat group generation memberId nowMs => heartbeat group generation memberId nowMs
  | .leave group memberId => leave group memberId
  | .commitOffsets group generation memberId offsets retentionMs nowMs =>
    commitOffsets group generation memberId offsets retentionMs nowMs
  | .commitTransactionalOffsets group offsets nowMs =>
    commitTransactionalOffsets group offsets nowMs
  | .expire nowMs => expireGroups nowMs
  | .migrate expectedEpoch => migrate expectedEpoch

end Kafka

end Pepper
