import Pepper.Theory.Publication.Pins

/-!
# A Batch of Intents

A batch computes its records from the table it starts with and writes them in
one transaction. One by one, each intent sees what the intents before it did.
The two agree on most lists, and this module says on which.

The permanent pin of this node under a key is absent, active or deleted. An
intent moves it along that chain and never back: a protection makes an absent
pin active, a release makes an active pin deleted, and a protection of a deleted
pin is refused. One by one, the first refusal ends the list and what came before
it stays; in a batch a refusal undoes everything, but only pins that are deleted
at the start can be refused.

## Main definitions

* `mark`: The status of this node's permanent pin under a key.
* `markAfter`: The statuses after one intent.
* `beforeRefusal`: The intents before the first that is refused.
* `lastAction`: The last action on a key.
* `BatchAgrees`: What the last action does is what the batch does.

## Theorems

* `mark_applyEach`: One by one, the statuses are those after the intents before
  the first refusal.
* `applyPinIntents_agrees_iff`: When the batch leaves the same permanent pins.
-/

namespace Pepper

namespace Pins

open Namespace List

section Marks

variable {Digest : Type} [DecidableEq Digest]

/-- What one intent does to the status of its pin. -/
def advance : PinAction → Option PinStatus → Option PinStatus
  | .protect, _ => some .active
  | .release, some .active => some .deleted
  | .release, status => status

/-- The statuses after one intent. -/
def markAfter (marks : PinKey Digest → Option PinStatus)
    (intent : PublicationIntentRecord Digest) : PinKey Digest → Option PinStatus :=
  Function.update marks intent.key (advance intent.action (marks intent.key))

/-- A protection of a deleted pin. -/
def Refused (marks : PinKey Digest → Option PinStatus)
    (intent : PublicationIntentRecord Digest) : Prop :=
  intent.action = .protect ∧ marks intent.key = some .deleted

instance (marks : PinKey Digest → Option PinStatus) (intent : PublicationIntentRecord Digest) :
    Decidable (Refused marks intent) :=
  inferInstanceAs (Decidable (_ ∧ _))

/-- The intents before the first that is refused. -/
def beforeRefusal (marks : PinKey Digest → Option PinStatus) :
    List (PublicationIntentRecord Digest) → List (PublicationIntentRecord Digest)
  | [] => []
  | intent :: rest =>
    if Refused marks intent then [] else intent :: beforeRefusal (markAfter marks intent) rest

/-- The last action on a key. -/
def lastAction (intents : List (PublicationIntentRecord Digest)) (key : PinKey Digest) :
    Option PinAction :=
  ((intents.filter fun intent => intent.key = key).getLast?).map (·.action)

/-- A pin ends active when the last action on it is a protection, or when it is
    active and nothing is done. -/
theorem foldl_markAfter_active (intents : List (PublicationIntentRecord Digest))
    (marks : PinKey Digest → Option PinStatus) (key : PinKey Digest) :
    intents.foldl markAfter marks key = some .active ↔ lastAction intents key = some .protect ∨
        (lastAction intents key = none ∧ marks key = some .active) := by
  induction intents using List.reverseRecOn with
  | nil => simp [lastAction]
  | append_singleton intents intent ih =>
    rw [foldl_append, foldl_cons, foldl_nil, markAfter]
    by_cases hkey : intent.key = key
    · -- The last intent is on this key, so its action decides.
      have hlast : lastAction (intents ++ [intent]) key = some intent.action := by
        simp [lastAction, filter_append, hkey]
      rw [hlast, hkey, Function.update_self]
      cases intent.action with
      | protect => simp [advance]
      | release =>
        rcases intents.foldl markAfter marks key with _ | status
        · simp [advance]
        · cases status <;> simp [advance]
    · have hlast : lastAction (intents ++ [intent]) key = lastAction intents key := by
        simp [lastAction, filter_append, hkey]
      rw [hlast, Function.update_of_ne (Ne.symm hkey), ih]

variable {intent : PublicationIntentRecord Digest}
  {intents : List (PublicationIntentRecord Digest)} {key : PinKey Digest}
  {marks : PinKey Digest → Option PinStatus}

theorem lastAction_eq_none (h : ∀ intent ∈ intents, intent.key ≠ key) :
    lastAction intents key = none := by
  have hfilter : intents.filter (fun intent => intent.key = key) = [] := by
    simp only [filter_eq_nil_iff, decide_eq_true_eq]
    exact h
  simp [lastAction, hfilter]

theorem mem_of_mem_beforeRefusal (h : intent ∈ beforeRefusal marks intents) : intent ∈ intents := by
  induction intents generalizing marks with
  | nil => exact h
  | cons first rest ih =>
    rw [beforeRefusal] at h
    split at h
    · cases h
    · rcases mem_cons.mp h with rfl | hrest
      · exact mem_cons_self
      · exact mem_cons_of_mem _ (ih hrest)

/-- Before the first refusal, nothing protects a pin that is deleted. -/
theorem action_of_mem_beforeRefusal (h : intent ∈ beforeRefusal marks intents)
    (hmark : marks intent.key = some .deleted) : intent.action = .release := by
  induction intents generalizing marks with
  | nil => cases h
  | cons first rest ih =>
    rw [beforeRefusal] at h
    split at h
    · cases h
    · rename_i hnot
      by_cases hkey : intent.key = first.key
      · have hfirst : first.action = .release := by
          cases haction : first.action with
          | protect => exact absurd ⟨haction, hkey ▸ hmark⟩ hnot
          | release => rfl
        rcases mem_cons.mp h with rfl | hrest
        · exact hfirst
        · refine ih hrest ?_
          -- A release leaves a deleted pin as it is.
          rw [markAfter, hkey, Function.update_self, ← hkey, hmark, hfirst, advance]
          simp
      · rcases mem_cons.mp h with rfl | hrest
        · exact absurd rfl hkey
        · refine ih hrest ?_
          rw [markAfter, Function.update_of_ne hkey, hmark]

theorem lastAction_ne_protect (h : marks key = some .deleted) :
    lastAction (beforeRefusal marks intents) key ≠ some .protect := by
  intro hlast
  rcases Option.map_eq_some_iff.mp hlast with ⟨intent, hintent, haction⟩
  rcases mem_filter.mp (mem_of_getLast? hintent) with ⟨hmem, hkey⟩
  rw [action_of_mem_beforeRefusal hmem (of_decide_eq_true hkey ▸ h)] at haction
  cases haction

/-- One by one, the last action on a key before the first refusal does what the
    batch does. The batch changes a pin that it is asked to change, and it changes
    none when a deleted pin is to be protected. -/
def Agrees (marks : PinKey Digest → Option PinStatus)
    (intents : List (PublicationIntentRecord Digest)) (key : PinKey Digest) : Prop :=
  ((∃ intent ∈ intents, Refused marks intent) →
    (marks key = some .active → lastAction (beforeRefusal marks intents) key ≠ some .release) ∧
    (marks key = none → lastAction (beforeRefusal marks intents) key ≠ some .protect)) ∧
  ((¬ ∃ intent ∈ intents, Refused marks intent) →
    (marks key = some .active → (Asked intents .release key ↔
      lastAction (beforeRefusal marks intents) key = some .release)) ∧
    (marks key = none → (Asked intents .protect key ↔
      lastAction (beforeRefusal marks intents) key = some .protect)))

/-- This holds of every key that the list names. -/
def BatchAgrees (marks : PinKey Digest → Option PinStatus)
    (intents : List (PublicationIntentRecord Digest)) : Prop :=
  ∀ intent ∈ intents, Agrees marks intents intent.key

theorem agrees_of_unnamed (h : ∀ intent ∈ intents, intent.key ≠ key) :
    Agrees marks intents key := by
  have hlast : lastAction (beforeRefusal marks intents) key = none :=
    lastAction_eq_none fun intent hintent => h intent (mem_of_mem_beforeRefusal hintent)
  have hask : ∀ action, ¬ Asked intents action key := by
    rintro action ⟨intent, hintent, _, hkey⟩
    exact h intent hintent hkey
  simp [Agrees, hlast, hask]

/-! ## Lists that say one thing about each key -/

/-- All intents on a key have the same action. -/
def Uniform (intents : List (PublicationIntentRecord Digest)) : Prop :=
  ∀ intent ∈ intents, ∀ other ∈ intents, intent.key = other.key → intent.action = other.action

omit [DecidableEq Digest] in
theorem Uniform.tail (h : Uniform (intent :: intents)) :
    Uniform intents := fun first hfirst second hsec =>
  h first (mem_cons_of_mem _ hfirst) second (mem_cons_of_mem _ hsec)

theorem advance_advance (action : PinAction) (status : Option PinStatus) :
    advance action (advance action status) = advance action status := by
  cases action with
  | protect => rfl
  | release => rcases status with _ | _ | _ <;> rfl

/-- What is not refused at the start is not refused later. -/
theorem beforeRefusal_eq_self (huniform : Uniform intents)
    (h : ∀ intent ∈ intents, ¬ Refused marks intent) : beforeRefusal marks intents = intents := by
  induction intents generalizing marks with
  | nil => rfl
  | cons first rest ih =>
    rw [beforeRefusal, if_neg (h first mem_cons_self), ih huniform.tail]
    rintro intent hintent ⟨haction, hdel⟩
    rw [markAfter, Function.update_apply] at hdel
    split at hdel
    · rename_i hkey
      -- The first intent protects the same pin, so it is active now.
      rw [huniform first mem_cons_self intent (mem_cons_of_mem _ hintent) hkey.symm, haction]
        at hdel
      cases hdel
    · exact h intent (mem_cons_of_mem _ hintent) ⟨haction, hdel⟩

theorem foldl_markAfter_of_not_mem (h : ∀ intent ∈ intents, intent.key ≠ key)
    (marks : PinKey Digest → Option PinStatus) : intents.foldl markAfter marks key = marks key := by
  induction intents generalizing marks with
  | nil => rfl
  | cons first rest ih =>
    rw [foldl_cons, ih fun intent hintent => h intent (mem_cons_of_mem _ hintent),
      markAfter, Function.update_of_ne (h first mem_cons_self).symm]

theorem foldl_markAfter_of_mem (huniform : Uniform intents) (h : intent ∈ intents)
    (marks : PinKey Digest → Option PinStatus) :
    intents.foldl markAfter marks intent.key = advance intent.action (marks intent.key) := by
  induction intents generalizing marks intent with
  | nil => cases h
  | cons first rest ih =>
    rw [foldl_cons]
    by_cases hkey : intent.key = first.key
    · have haction : first.action = intent.action :=
        huniform first mem_cons_self intent h hkey.symm
      by_cases hrest : ∃ other ∈ rest, other.key = first.key
      · -- A second intent on the pin does what the first one did.
        rcases hrest with ⟨other, hother, hkey'⟩
        have hsame : other.action = intent.action :=
          huniform other (mem_cons_of_mem _ hother) intent h (hkey'.trans hkey.symm)
        have hfold := ih huniform.tail hother (markAfter marks first)
        rw [hkey', markAfter, Function.update_self, haction, hsame, advance_advance] at hfold
        rw [hkey, markAfter, haction, hfold]
      · push Not at hrest
        rw [hkey, foldl_markAfter_of_not_mem hrest, markAfter, Function.update_self, haction]
    · rcases mem_cons.mp h with rfl | hrest
      · exact absurd rfl hkey
      · rw [ih huniform.tail hrest, markAfter, Function.update_of_ne hkey]

end Marks

section Backend

variable {Digest : Type} [DecidableEq Digest] (backend : AgentProtectionBackend)

/-- The status of this node's permanent pin under a key. -/
def mark (table : PinTable Digest) (key : PinKey Digest) : Option PinStatus :=
  statusOf table ⟨key, none, backend.nodeId⟩

/-! ## One by one -/

variable {table : PinTable Digest} {intent : PublicationIntentRecord Digest} (now : Int)

/-- What one intent does: the permanent pins of this node move along, and those
    of others stay. -/
theorem applyOne_of_not_refused (h : ¬ Refused (mark backend table) intent) :
    ∃ table', backend.applyOne now intent table = (.ok (), table') ∧
      mark backend table' = markAfter (mark backend table) intent ∧
      ∀ id, id.owner ≠ backend.nodeId → statusOf table' id = statusOf table id := by
  refine ⟨(backend.applyOne now intent table).2, ?_⟩
  rw [AgentProtectionBackend.applyOne]
  cases haction : intent.action with
  | protect =>
    have hstatus : mark backend table intent.key ≠ some .deleted := fun hdel =>
      h ⟨haction, hdel⟩
    rcases statusOf_protect backend now hstatus with ⟨hok, hall⟩
    refine ⟨Prod.ext hok rfl, ?_, ?_⟩
    · ext1 key
      rw [mark, hall, markAfter, haction, Function.update_apply]
      simp only [PinId.mk.injEq, and_true, advance, mark]
    · intro id hown
      rw [hall, if_neg]
      rintro rfl
      exact hown rfl
  | release =>
    rcases statusOf_release backend table intent.key with ⟨hok, hall⟩
    refine ⟨Prod.ext hok rfl, ?_, ?_⟩
    · ext1 key
      rw [mark, hall, markAfter, haction, Function.update_apply, mark]
      by_cases hkey : key = intent.key
      · rw [if_pos hkey, hkey]
        rcases statusOf table ⟨intent.key, none, backend.nodeId⟩ with _ | status
        · simp [advance]
        · cases status <;> simp [advance]
      · rw [if_neg hkey, if_neg fun hid => hkey hid.2.1, mark]
    · intro id hown
      rw [hall, if_neg fun hid => hown hid.1]

/-- The whole list, by induction with the statuses as the state. -/
theorem mark_applyEach (timed : List (Int × PublicationIntentRecord Digest)) :
    mark backend (backend.applyEach timed table).2 =
        (beforeRefusal (mark backend table) (timed.map Prod.snd)).foldl markAfter
          (mark backend table) ∧
      ∀ id, id.owner ≠ backend.nodeId →
        statusOf (backend.applyEach timed table).2 id = statusOf table id := by
  induction timed generalizing table with
  | nil => exact ⟨rfl, fun _ _ => rfl⟩
  | cons first rest ih =>
    rcases first with ⟨now, intent⟩
    rw [map_cons, beforeRefusal]
    by_cases href : Refused (mark backend table) intent
    · rcases protect_eq_error backend now href.2 with ⟨e, he⟩
      have hstop : backend.applyEach ((now, intent) :: rest) table = (.error e, table) := by
        simp only [AgentProtectionBackend.applyEach, bind, AgentProtectionBackend.applyOne,
          href.1, he]
      rw [hstop, if_pos href]
      exact ⟨rfl, fun _ _ => rfl⟩
    · rcases applyOne_of_not_refused backend now href with ⟨table', hone, hmark, hother⟩
      have hnext : backend.applyEach ((now, intent) :: rest) table =
          backend.applyEach rest table' := by
        simp only [AgentProtectionBackend.applyEach, bind, hone]
      rw [hnext, if_neg href, foldl_cons, ← hmark]
      rcases @ih table' with ⟨hmarks, hothers⟩
      exact ⟨hmarks, fun id hown => (hothers id hown).trans (hother id hown)⟩

/-! ## The batch -/

theorem mark_applyPinIntents (intents : List (PublicationIntentRecord Digest))
    (table : PinTable Digest) (key : PinKey Digest) :
    mark backend (backend.applyPinIntents now intents table).2 key = some .active ↔
      if ∃ intent ∈ intents, Refused (mark backend table) intent then
        mark backend table key = some .active
      else
        (mark backend table key = some .active ∧ ¬ Asked intents .release key) ∨
          (mark backend table key ≠ some .active ∧ Asked intents .protect key) := by
  split
  · rename_i href
    rcases href with ⟨intent, hintent, haction, hdel⟩
    rcases applyPinIntents_eq_error backend now ⟨intent, hintent, haction, hdel⟩ with ⟨e, he⟩
    rw [he]
  · rename_i hnot
    push Not at hnot
    rcases statusOf_applyPinIntents backend now table intents fun intent hintent haction hdel =>
      hnot intent hintent ⟨haction, hdel⟩ with ⟨_, hturned, hkept⟩
    rw [mark]
    by_cases hchange : Changes backend table intents ⟨key, none, backend.nodeId⟩
    · rw [hturned _ hchange, Option.some.injEq]
      rcases hchange.2 with ⟨hact, hask⟩ | ⟨hinactive, _, hask⟩
      · simp [hact, turned, mark, hask]
      · simp [mark, hinactive, hask, turned]
    · rw [hkept _ hchange]
      simp only [Changes, true_and, not_or, not_and] at hchange
      by_cases hact : statusOf table ⟨key, none, backend.nodeId⟩ = some .active
      · simp [mark, hact, hchange.1 hact]
      · simp [mark, hact, hchange.2 hact]

theorem statusOf_applyPinIntents_other {id : PinId Digest}
    (intents : List (PublicationIntentRecord Digest)) (table : PinTable Digest)
    (hown : id.owner ≠ backend.nodeId) :
    statusOf (backend.applyPinIntents now intents table).2 id = statusOf table id := by
  by_cases href : ∃ intent ∈ intents, Refused (mark backend table) intent
  · rcases applyPinIntents_eq_error backend now href with ⟨e, he⟩
    rw [he]
  · push Not at href
    rcases statusOf_applyPinIntents backend now table intents fun intent hintent haction hdel =>
      href intent hintent ⟨haction, hdel⟩ with ⟨_, _, hkept⟩
    exact hkept id fun hchange => hown hchange.1

/-- The same for one key: what the batch does is what the last action does. -/
theorem mark_agrees_iff (timed : List (Int × PublicationIntentRecord Digest))
    (table : PinTable Digest) (key : PinKey Digest) :
    (mark backend (backend.applyPinIntents now (timed.map Prod.snd) table).2 key = some .active ↔
      mark backend (backend.applyEach timed table).2 key = some .active) ↔
    Agrees (mark backend table) (timed.map Prod.snd) key := by
  rw [mark_applyPinIntents, (mark_applyEach backend timed).1, foldl_markAfter_active, Agrees]
  have href : mark backend table key = some .deleted → Asked (timed.map Prod.snd) .protect key →
        ∃ intent ∈ timed.map Prod.snd, Refused (mark backend table) intent := by
    rintro hmark ⟨intent, hintent, haction, rfl⟩
    exact ⟨intent, hintent, haction, hmark⟩
  have hlast : mark backend table key = some .deleted →
      lastAction (beforeRefusal (mark backend table) (timed.map Prod.snd)) key ≠ some .protect :=
    lastAction_ne_protect
  -- What is left is a table over the status at the start and the last action.
  by_cases hsome : ∃ intent ∈ timed.map Prod.snd, Refused (mark backend table) intent
  · simp only [hsome, if_true, true_implies, not_true_eq_false, false_implies, and_true]
    rcases hstatus : mark backend table key with _ | _ | _ <;>
      rcases hact : lastAction (beforeRefusal (mark backend table) (timed.map Prod.snd)) key
        with _ | _ | _ <;> simp_all
  · have hnot : mark backend table key = some .deleted →
        ¬ Asked (timed.map Prod.snd) .protect key := fun hmark hask =>
      hsome (href hmark hask)
    simp only [hsome, if_false, false_implies, not_false_eq_true, true_implies, true_and]
    clear href hsome
    rcases hstatus : mark backend table key with _ | _ | _ <;>
      rcases hact : lastAction (beforeRefusal (mark backend table) (timed.map Prod.snd)) key
        with _ | _ | _ <;> simp_all

/-- A batch and the intents one by one leave the same active permanent pins
    exactly when the last actions say what the batch does. -/
theorem applyPinIntents_agrees_iff (now : Int)
    (timed : List (Int × PublicationIntentRecord Digest)) (table : PinTable Digest) :
    (∀ id : PinId Digest, id.expiresAtUnixSeconds = none →
      (statusOf (backend.applyPinIntents now (timed.map Prod.snd) table).2 id = some .active ↔
        statusOf (backend.applyEach timed table).2 id = some .active)) ↔
      BatchAgrees (mark backend table) (timed.map Prod.snd) := by
  constructor
  · intro h intent _
    exact (mark_agrees_iff backend now timed table intent.key).mp (h ⟨intent.key, none, _⟩ rfl)
  · rintro h ⟨key, expires, owner⟩ rfl
    by_cases howner : owner = backend.nodeId
    · subst howner
      refine (mark_agrees_iff backend now timed table key).mpr ?_
      by_cases hkey : ∃ intent ∈ timed.map Prod.snd, intent.key = key
      · rcases hkey with ⟨intent, hintent, rfl⟩
        exact h intent hintent
      · push Not at hkey
        exact agrees_of_unnamed hkey
    · rw [statusOf_applyPinIntents_other backend now _ table howner,
        (mark_applyEach backend timed).2 _ howner]

end Backend

/-! ## A root that comes and goes -/

/-- The roots of the examples. -/
def plainKey (reason : String) : PinKey Nat :=
  ⟨⟨⟨codecNamespaceDescriptor, 0⟩⟩, ⟨codecMerkleNode, 1⟩, reason⟩

def plainIntent (action : PinAction) (reason : String) : PublicationIntentRecord Nat :=
  ⟨"i", ⟨⟨codecNamespaceDescriptor, 0⟩⟩, 1, "r", ⟨codecMerkleNode, 1⟩, action, reason⟩

/-- A root that is protected and released in one list is active after the batch,
    and deleted when the two are applied one by one. -/
theorem batch_keeps_released_pin :
    let backend : AgentProtectionBackend := ⟨"n", 1⟩
    let intents := [plainIntent .protect "c", plainIntent .release "c"]
    statusOf (backend.applyPinIntents 5 intents ∅).2 ⟨plainKey "c", none, "n"⟩ = some .active ∧
      statusOf (backend.applyEach (intents.map (5, ·)) ∅).2 ⟨plainKey "c", none, "n"⟩ =
        some .deleted := by
  decide +kernel

end Pins

end Pepper
