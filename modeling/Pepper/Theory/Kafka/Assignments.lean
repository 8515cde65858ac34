import Pepper.Theory.Kafka.Consistency

/-!
# Exclusive Assignments

Within one generation of a group, no partition is handed to two members, as
long as a leader does not replace the assignments it has already made.

The machine checks one leader's assignments against each other, but members
read theirs one at a time. What they are told agrees with each other only if it
comes from the same assignments. A group takes new ones in its stable phase too,
and a generation that has reached the greatest number is not followed by
another one; the condition excludes both.

The proof keeps a ledger of the answers. Of an answer in the current generation,
the group still holds the assignment; of an older one nothing is needed.

## Main definitions

* `Ledger`, `Ledger.step`: The host with the answers it has given.
* `Exclusive`: No partition for two members in one generation.
* `Lasting`: A command that leaves assignments of a generation alone.
* `Kept`: The invariant.

## Theorems

* `RecordAfter.follows`: A lasting command keeps the answers about its group.
* `apply_kept`, `applyCommands_kept`, `step_kept`: A command, a batch, a step.
* `answers_exclusive`: Every run of such commands.
-/

namespace Pepper

namespace Kafka

open Fallible List

variable {decode : AssignmentDecoder} {group id : String} {record record' : GroupRecord}
  {s : GroupState} {answers : List Answer}

/-! ## The ledger of answers -/

/-- The host, with the assignments that it has answered. -/
structure Ledger where
  host : HostedState GroupState
  answers : List Answer

def Ledger.start : Ledger :=
  ⟨DeterministicHost.new .default, []⟩

/-- A batch of commands. What is answered to a batch that fails is the error. -/
def Ledger.step (decode : AssignmentDecoder) (l : Ledger) (commands : List GroupCommand) : Ledger :=
  match DeterministicHost.applyBatch (GroupMachine.apply decode) commands l.host with
  | (.ok responses, host) => ⟨host, l.answers ++ (commands.zip responses).filterMap answerOf⟩
  | (.error _, host) => ⟨host, l.answers⟩

/-- Within one generation of a group, what different members were told has no
    partition in common. -/
def Exclusive (decode : AssignmentDecoder) (answers : List Answer) : Prop :=
  ∀ a ∈ answers, ∀ b ∈ answers, a.group = b.group → a.generation = b.generation →
    a.memberId ≠ b.memberId → Apart decode a.assignment b.assignment

/-- The generation of a group can still be followed by another one. -/
def GroupRecord.Followed (record : GroupRecord) : Prop :=
  record.generation < 2 ^ 31 - 1

instance instDecidableFollowed (record : GroupRecord) : Decidable record.Followed :=
  inferInstanceAs (Decidable (record.generation < 2 ^ 31 - 1))

/-- The assignments are those that the members have already. -/
def GroupRecord.Repeats (record : GroupRecord) (assignments : BTreeMap String Bytes) : Prop :=
  ∀ member ∈ record.members.toList, assignments[member.1]?.getD [] = member.2.assignment

instance instDecidableRepeats (record : GroupRecord) (assignments : BTreeMap String Bytes) :
    Decidable (record.Repeats assignments) :=
  inferInstanceAs (Decidable (∀ member ∈ record.members.toList, _))

/-- A command that leaves the assignments of a generation alone: a leader brings
    new ones only while the group is being rebalanced, and a rebalance begins
    only while there is another generation. -/
def Lasting (s : GroupState) : GroupCommand → Prop
  | .sync group generation memberId assignments => ∀ record ∈ s.groups[group]?,
      record.generation = generation → record.leader = memberId → assignments.isEmpty = false →
        record.phase = .stable → record.Repeats assignments
  | .join group _ _ _ _ _ _ _ => ∀ record ∈ s.groups[group]?, record.Followed
  | .leave group memberId => ∀ record ∈ s.groups[group]?, memberId ∈ record.members →
      record.Followed
  | .expire nowMs => ∀ group ∈ s.groups.toList,
      group.2.members.size ≠ (group.2.liveMembers nowMs).size → group.2.Followed
  | _ => True

/-! ## The invariant -/

/-- What was told in the current generation is what the members still hold. -/
def Answer.Holds (a : Answer) (record : GroupRecord) : Prop :=
  a.generation ≤ record.generation ∧ (a.generation = record.generation → a.Stands record)

structure Kept (decode : AssignmentDecoder) (s : GroupState) (answers : List Answer) : Prop where
  consistent : AllConsistent decode s.groups
  held : ∀ a ∈ answers, ∃ record, s.groups[a.group]? = some record ∧ a.Holds record
  exclusive : Exclusive decode answers

/-- A record that every answer about the other one agrees with. -/
def GroupRecord.Follows (record record' : GroupRecord) : Prop :=
  ∀ a : Answer, a.Holds record → a.Holds record'

/-- A later generation has no answers yet. -/
theorem follows_of_lt (h : record.generation < record'.generation) : record.Follows record' := by
  intro a ha
  have hle := ha.1
  exact ⟨by omega, fun heq => by omega⟩

/-- Before a group is stable it has given no answers. -/
theorem follows_of_phase (hphase : record.phase ≠ .stable)
    (hle : record.generation ≤ record'.generation) : record.Follows record' := by
  intro a ha
  have hold : a.generation < record.generation := lt_of_le_of_ne ha.1 fun h => hphase (ha.2 h).1
  exact ⟨by omega, fun heq => by omega⟩

/-- Members that keep their assignments in a stable group keep the answers. -/
theorem follows_of_members (hgen : record'.generation = record.generation)
    (hphase : record.phase = .stable → record'.phase = .stable)
    (hmembers : ∀ (id : String) (member : GroupMember), record.members[id]? = some member →
      ∃ member', record'.members[id]? = some member' ∧ member'.assignment = member.assignment) :
    record.Follows record' := by
  intro a ha
  refine ⟨by rw [hgen]; exact ha.1, fun heq => ?_⟩
  rcases ha.2 (heq.trans hgen) with ⟨hstable, member, hmember, hasg⟩
  rcases hmembers _ _ hmember with ⟨member', hmember', hasg'⟩
  exact ⟨hphase hstable, member', hmember', hasg'.trans hasg⟩

theorem lt_nextGeneration (h : record.Followed) :
    record.generation < nextGeneration record.generation := by
  rw [GroupRecord.Followed] at h
  rw [nextGeneration, saturatingAddSigned]
  omega

theorem assign_follows {assignments : BTreeMap String Bytes} (h : record.Sound decode)
    (hlast : record.phase = .stable → record.Repeats assignments) :
    record.Follows (record.assign assignments) := by
  by_cases hphase : record.phase = .stable
  · apply follows_of_members
    · rfl
    · exact fun _ => rfl
    · intro id member hmember
      refine ⟨_, by rw [GroupRecord.assign, Std.ExtTreeMap.getElem?_map, hmember, Option.map_some],
        ?_⟩
      rw [h.named id member hmember]
      exact hlast hphase _ (Std.ExtTreeMap.mem_toList_iff_getElem?_eq_some.mpr hmember)
  · exact follows_of_phase hphase le_rfl

theorem expire_follows {nowMs : Nat}
    (h : record.members.size ≠ (record.liveMembers nowMs).size → record.Followed) :
    record.Follows (record.expire nowMs) := by
  rw [GroupRecord.expire]
  split
  · next hsize => exact follows_of_lt (lt_nextGeneration (h hsize))
  · exact fun a ha => ha

/-- A lasting command keeps the answers about its group. -/
theorem RecordAfter.follows {command : GroupCommand}
    (hafter : RecordAfter decode group record command record') (h : record.Consistent decode)
    (hrec : s.groups[group]? = some record) (hlast : Lasting s command) :
    record.Follows record' := by
  cases hafter with
  | joined memberId clientId clientHost protocolType protocols sessionTimeoutMs nowMs id selected
      generation _ _ hgeneration =>
    rcases hgeneration with ⟨hphase, rfl⟩ | rfl
    · exact follows_of_phase (by rw [hphase]; exact nofun) le_rfl
    · exact follows_of_lt (lt_nextGeneration (hlast record hrec))
  | assigned assignments hsome _ _ =>
    exact assign_follows h.sound (hlast record hrec rfl rfl hsome)
  | beaten beating member nowMs hmember _ =>
    refine follows_of_members rfl (fun hphase => hphase) fun id found hfound => ?_
    simp only [getElem?_insert_eq]
    by_cases hid : beating = id
    · rw [← hid, hmember] at hfound
      cases hfound
      exact ⟨_, if_pos hid, rfl⟩
    · exact ⟨found, by rw [if_neg hid, hfound], rfl⟩
  | shrunk id hid => exact follows_of_lt (lt_nextGeneration (hlast record hrec hid))

theorem GroupsAfter.held {groups' : BTreeMap String GroupRecord} {command : GroupCommand}
    (hafter : GroupsAfter decode s.groups command groups') (h : AllConsistent decode s.groups)
    (hlast : Lasting s command) {a : Answer} (hrec : s.groups[a.group]? = some record)
    (hholds : a.Holds record) : ∃ record', groups'[a.group]? = some record' ∧ a.Holds record' := by
  cases hafter with
  | same _ => exact ⟨record, hrec, hholds⟩
  | one _ group old new _ hfound hnew hgroups =>
    rw [hgroups]
    by_cases hgroup : group = a.group
    · subst hgroup
      rcases hfound with hold | ⟨hnone, _⟩
      · rw [hrec] at hold
        cases hold
        exact ⟨new, if_pos rfl, hnew.follows (h _ record hrec) hrec hlast a hholds⟩
      · rw [hrec] at hnone
        cases hnone
    · exact ⟨record, by rw [if_neg hgroup, hrec], hholds⟩
  | all nowMs =>
    have hmem := Std.ExtTreeMap.mem_toList_iff_getElem?_eq_some.mpr hrec
    refine ⟨_, by rw [Std.ExtTreeMap.getElem?_map, hrec, Option.map_some], ?_⟩
    exact expire_follows (hlast _ hmem) a hholds

/-- An answer that the record of its group bears out. -/
theorem Kept.answer (h : Kept decode s answers) {a : Answer}
    (hrec : s.groups[a.group]? = some record) (hgeneration : record.generation = a.generation)
    (hstands : a.Stands record) : Kept decode s (answers ++ [a]) := by
  rcases hstands with ⟨hphase, member, hmember, hassigned⟩
  -- An earlier answer of the generation is what its member still holds.
  have hnew : ∀ b ∈ answers, b.group = a.group → b.generation = a.generation →
      b.memberId ≠ a.memberId → Apart decode b.assignment a.assignment := by
    intro b hb hgroup hsame hne
    rcases h.held b hb with ⟨found, hfound, hholds⟩
    rw [hgroup, hrec] at hfound
    cases hfound
    rcases (hholds.2 (hsame.trans hgeneration.symm)).2 with ⟨holder, hholder, hheld⟩
    rw [← hassigned, ← hheld]
    exact (h.consistent _ record hrec).sound.apart hphase _ _ _ _ hholder hmember hne
  refine ⟨h.consistent, forall_mem_concat h.held ⟨record, hrec, le_of_eq hgeneration.symm,
    fun _ => ⟨hphase, member, hmember, hassigned⟩⟩, fun b hb c hc hgroup hsame hne => ?_⟩
  rcases mem_append.mp hb with hb | hb <;> rcases mem_append.mp hc with hc | hc
  · exact h.exclusive b hb c hc hgroup hsame hne
  · rw [mem_singleton.mp hc] at hgroup hsame hne ⊢
    exact hnew b hb hgroup hsame hne
  · rw [mem_singleton.mp hb] at hgroup hsame hne ⊢
    exact (hnew c hc hgroup.symm hsame.symm hne.symm).symm
  · rw [mem_singleton.mp hb, mem_singleton.mp hc] at hne
    exact absurd rfl hne

/-- A command that is taken keeps the invariant, with what it answers. -/
theorem apply_kept (h : Kept decode s answers) {command : GroupCommand}
    (hlast : Lasting s command) :
    (GroupMachine.apply decode command).Returns s fun response s' =>
      Kept decode s' (answers ++ (answerOf (command, response)).toList) := by
  refine (apply_groupsAfter command).mono ?_
  rintro response s' ⟨hafter, htold⟩
  have hkept : Kept decode s' answers := by
    refine ⟨hafter.consistent h.consistent, fun a ha => ?_, h.exclusive⟩
    rcases h.held a ha with ⟨record, hrec, hholds⟩
    exact hafter.held h.consistent hlast hrec hholds
  cases hanswer : answerOf (command, response) with
  | none =>
    rw [Option.toList_none, append_nil]
    exact hkept
  | some a =>
    rcases htold a hanswer with ⟨record, hrec, hgeneration, hstands⟩
    exact hkept.answer hrec hgeneration hstands

/-! ## Runs -/

/-- Each command of a batch is lasting where the host applies it. -/
def LastingBatch (decode : AssignmentDecoder) : GroupState → List GroupCommand → Prop :=
  Admits (fun s command => (GroupMachine.apply decode command s).2) Lasting

theorem applyCommands_kept (h : Kept decode s answers) {commands : List GroupCommand}
    (hlast : LastingBatch decode s commands) :
    (DeterministicHost.applyCommands (GroupMachine.apply decode) commands).Returns s
      fun responses s' =>
        Kept decode s' (answers ++ (commands.zip responses).filterMap answerOf) := by
  induction commands generalizing s answers with
  | nil =>
    apply Returns.pure
    rw [zip_nil_left, filterMap_nil, append_nil]
    exact h
  | cons command rest ih =>
    have hfirst : (GroupMachine.apply decode command).Returns s fun response s' =>
        Kept decode s' (answers ++ (answerOf (command, response)).toList) ∧
          s' = (GroupMachine.apply decode command s).2 :=
      ⟨fun response hresponse => ⟨(apply_kept h hlast.1).ends response hresponse, rfl⟩⟩
    apply hfirst.bind
    rintro response s' ⟨hkept, rfl⟩
    apply (ih hkept hlast.2).bind
    intro responses s'' hrest
    apply Returns.pure
    rw [zip_cons_cons, filterMap_cons]
    cases hanswer : answerOf (command, response) with
    | none =>
      rw [hanswer, Option.toList_none, append_nil] at hrest
      exact hrest
    | some a =>
      rw [hanswer, Option.toList_some, append_assoc, singleton_append] at hrest
      exact hrest

theorem step_kept {l : Ledger} (h : Kept decode l.host.value l.answers)
    {commands : List GroupCommand} (hlast : LastingBatch decode l.host.value commands) :
    Kept decode (l.step decode commands).host.value (l.step decode commands).answers := by
  have hbat := (applyCommands_kept h hlast).ends
  rw [Ledger.step, DeterministicHost.applyBatch]
  rw [Fallible.Ends] at hbat
  rcases hres : DeterministicHost.applyCommands (GroupMachine.apply decode) commands l.host.value
    with ⟨result, next⟩
  rw [hres] at hbat
  cases result with
  | error e => exact h
  | ok responses => exact hbat responses rfl

/-- In every run whose commands leave the assignments of a generation alone, no
    partition is handed to two members of a generation. -/
theorem answers_exclusive {l : Ledger}
    (h : Reaches (Ledger.step decode) (fun l commands => LastingBatch decode l.host.value commands)
      Ledger.start l) : Exclusive decode l.answers := by
  have hstart : Kept decode Ledger.start.host.value Ledger.start.answers := by
    exact ⟨allConsistent_new, nofun, nofun⟩
  have hkept := Reaches.invariant (I := fun l : Ledger => Kept decode l.host.value l.answers)
    (fun l commands hl hlast => step_kept hl hlast) hstart h
  exact hkept.exclusive

instance instDecidableLasting (s : GroupState) : ∀ command, Decidable (Lasting s command)
  | .sync group generation memberId assignments =>
    inferInstanceAs (Decidable (∀ record ∈ s.groups[group]?, record.generation = generation →
      record.leader = memberId → assignments.isEmpty = false → record.phase = .stable →
        record.Repeats assignments))
  | .join group _ _ _ _ _ _ _ =>
    inferInstanceAs (Decidable (∀ record ∈ s.groups[group]?, record.Followed))
  | .leave group memberId => inferInstanceAs (Decidable (∀ record ∈ s.groups[group]?,
      memberId ∈ record.members → record.Followed))
  | .expire nowMs => inferInstanceAs (Decidable (∀ group ∈ s.groups.toList,
      group.2.members.size ≠ (group.2.liveMembers nowMs).size → group.2.Followed))
  | .heartbeat _ _ _ _ => isTrue trivial
  | .commitOffsets _ _ _ _ _ _ => isTrue trivial
  | .commitTransactionalOffsets _ _ _ => isTrue trivial
  | .migrate _ => isTrue trivial

instance instDecidableLastingBatch (s : GroupState) (commands : List GroupCommand) :
    Decidable (LastingBatch decode s commands) :=
  inferInstanceAs (Decidable (Admits _ Lasting s commands))

/-- A leader that repeats its assignments. -/
theorem answers_exclusive_repeated : ∃ l, Reaches (Ledger.step byteDecoder)
        (fun l commands => LastingBatch byteDecoder l.host.value commands) Ledger.start l ∧
      l.answers = [⟨"g", 2, "a", [0, 0, 1]⟩, ⟨"g", 2, "b", [0, 0, 2]⟩, ⟨"g", 2, "a", [0, 0, 1]⟩] ∧
      Exclusive byteDecoder l.answers := by
  have hlast : Admits (Ledger.step byteDecoder)
      (fun l commands => LastingBatch byteDecoder l.host.value commands) Ledger.start
      [[joinAs "a"], [joinAs "b"], [leaderSync 1 2], [memberSync], [leaderSync 1 2]] := by
    decide +kernel
  have hrun := reaches_runOps _ _ hlast
  exact ⟨_, hrun, by decide +kernel, answers_exclusive hrun⟩

/-- The leader swaps the partitions of the stable group: the other member has
    been told what the leader is told now. -/
theorem reassigned_partition_told_twice :
    ∃ l, Reaches (Ledger.step byteDecoder) (fun _ _ => True) Ledger.start l ∧
      ¬ Exclusive byteDecoder l.answers := by
  have hrun := reaches_runOps Ledger.start
    [[joinAs "a"], [joinAs "b"], [leaderSync 1 2], [memberSync], [leaderSync 2 1]]
    (show Admits (Ledger.step byteDecoder) (fun _ _ => True) _ _ from
      ⟨trivial, trivial, trivial, trivial, trivial, trivial⟩)
  refine ⟨_, hrun, fun hexclusive => ?_⟩
  have htold : (runOps (Ledger.step byteDecoder) Ledger.start
      [[joinAs "a"], [joinAs "b"], [leaderSync 1 2], [memberSync], [leaderSync 2 1]]).answers =
      [⟨"g", 2, "a", [0, 0, 1]⟩, ⟨"g", 2, "b", [0, 0, 2]⟩, ⟨"g", 2, "a", [0, 0, 2]⟩] := by
    decide +kernel
  rw [htold] at hexclusive
  exact hexclusive ⟨"g", 2, "b", [0, 0, 2]⟩ (by decide) ⟨"g", 2, "a", [0, 0, 2]⟩ (by decide) rfl rfl
    (by decide) ("t", 2) (by decide) (by decide)

end Kafka

end Pepper
