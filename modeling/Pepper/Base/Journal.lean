import Mathlib

/-!
# Segmented Journals

A map that is kept as a sequence of updates, spread over append-only segments
whose last entries may not be durable yet.

`outcome` is what a sequence of updates makes of a map. Only the last update of
a key counts, and that one fact is behind everything a log-structured store
does: dropping old updates, copying live ones forward, losing copies in a crash.

A `Journal` says for each segment what was appended and what of it is durable.
After a power loss a segment may hold anything in between, so a statement about
restarts quantifies over all `Kept` contents. `Withstands` is that statement.

## Main definitions

* `Update`, `outcome`: Updates of a map and their effect.
* `Journal`: Segments with their durable parts.
* `Journal.append`, `Journal.sync`, `Journal.discard`: What happens to segments.
* `Journal.Kept`: What may be found of them.
* `joined`: Segments read one after the other.
* `Withstands`: Whatever is found, the outcome is a given map.
* `Appends`: Batches are appended, to the last segment or to new ones.

## Theorems

* `outcome_eq`: The last update of a key counts.
* `Appends.withstands_copy`: Appending copies changes nothing.
* `Appends.withstands_synced`: Durable updates take effect.
-/

namespace Pepper

open List

/-- A key with its new value, or without one. -/
abbrev Update (κ ν : Type) := κ × Option ν

section Outcome

variable {κ ν : Type} [DecidableEq κ]

/-- The map after some updates. -/
def outcome (m : κ → Option ν) (updates : List (Update κ ν)) : κ → Option ν :=
  updates.foldl (fun m update => Function.update m update.1 update.2) m

/-- The map without entries. -/
def emptyMap : κ → Option ν := fun _ => none

variable (m : κ → Option ν)

theorem outcome_append (first second : List (Update κ ν)) :
    outcome m (first ++ second) = outcome (outcome m first) second :=
  foldl_append

theorem outcome_cons (update : Update κ ν) (rest : List (Update κ ν)) :
    outcome m (update :: rest) = outcome (Function.update m update.1 update.2) rest :=
  rfl

/-- The last update of a key counts. -/
theorem outcome_eq (updates : List (Update κ ν)) (key : κ) :
    outcome m updates key =
      (updates.reverse.find? fun update => update.1 = key).elim (m key) Prod.snd := by
  induction updates using List.reverseRecOn with
  | nil => rfl
  | append_singleton rest update ih =>
    rw [outcome_append, reverse_concat]
    by_cases hkey : update.1 = key
    · simp [outcome, ← hkey]
    · rw [find?_cons_of_neg (by simpa using hkey), ← ih]
      exact Function.update_of_ne (Ne.symm hkey) _ _

variable {updates : List (Update κ ν)}

/-- Updates of other keys do not matter. -/
theorem outcome_of_forall_ne {m : κ → Option ν} {key : κ} (h : ∀ update ∈ updates, update.1 ≠ key) :
    outcome m updates key = m key := by
  have hnone : updates.reverse.find? (fun update => update.1 = key) = none := by
    simpa using h
  rw [outcome_eq, hnone]
  rfl

/-- If all updates of a key agree, that is its value. -/
theorem outcome_of_forall_eq {m : κ → Option ν} {key : κ} {value : Option ν}
    (h : ∀ update ∈ updates, update.1 = key → update.2 = value)
    (hstart : m key = value ∨ ∃ update ∈ updates, update.1 = key) :
    outcome m updates key = value := by
  rw [outcome_eq]
  cases hlast : updates.reverse.find? fun update => update.1 = key with
  | some update =>
    exact h update (mem_reverse.mp (mem_of_find?_eq_some hlast)) (by simpa using find?_some hlast)
  | none =>
    rcases hstart with hstart | ⟨update, hmem, hkey⟩
    · exact hstart
    · simp at hlast
      exact absurd hkey (hlast _ _ hmem)

/-- Once a key has been updated, its earlier value does not matter. -/
theorem outcome_congr {m m' : κ → Option ν} {key : κ} (h : ∃ update ∈ updates, update.1 = key) :
    outcome m updates key = outcome m' updates key := by
  have hsome : (updates.reverse.find? fun update => update.1 = key).isSome := by
    simpa using h
  rcases Option.isSome_iff_exists.mp hsome with ⟨update, hlast⟩
  rw [outcome_eq, outcome_eq, hlast]
  rfl

/-- A key that is not there at the end is not there either if only the later
    updates are applied. -/
theorem outcome_suffix_none {first second : List (Update κ ν)} {key : κ}
    (h : outcome emptyMap (first ++ second) key = none) : outcome emptyMap second key = none := by
  by_cases hlater : ∃ u ∈ second, u.1 = key
  · rw [outcome_append] at h
    rw [← h]
    exact outcome_congr hlater
  · exact outcome_of_forall_ne fun u hu heq => hlater ⟨u, hu, heq⟩

end Outcome

/-! ## Segments -/

/-- What was appended to each segment, and what of it is durable. -/
structure Journal (σ β : Type) where
  log : σ → List β
  safe : σ → List β
  safe_le : ∀ segment, safe segment <+: log segment

namespace Journal

variable {σ β : Type} [DecidableEq σ]

def empty : Journal σ β where
  log _ := []
  safe _ := []
  safe_le _ := prefix_refl []

def append (j : Journal σ β) (segment : σ) (batch : β) : Journal σ β where
  log := Function.update j.log segment (j.log segment ++ [batch])
  safe := j.safe
  safe_le s := by
    by_cases hs : s = segment
    · rw [hs, Function.update_self]
      exact (j.safe_le segment).trans (prefix_append _ _)
    · rw [Function.update_of_ne hs]
      exact j.safe_le s

/-- Make some segments durable. -/
def sync (j : Journal σ β) (which : σ → Bool) : Journal σ β where
  log := j.log
  safe s := if which s then j.log s else j.safe s
  safe_le s := by
    by_cases hs : which s = true
    · rw [if_pos hs]
    · rw [if_neg hs]
      exact j.safe_le s

/-- Forget some segments. -/
def discard (j : Journal σ β) (which : σ → Bool) : Journal σ β where
  log s := if which s then [] else j.log s
  safe s := if which s then [] else j.safe s
  safe_le s := by
    by_cases hs : which s = true
    · rw [if_pos hs, if_pos hs]
    · rw [if_neg hs, if_neg hs]
      exact j.safe_le s

section

variable (j : Journal σ β)

include j

theorem log_append_self (segment : σ) (batch : β) :
    (j.append segment batch).log segment = j.log segment ++ [batch] :=
  Function.update_self _ _ _

theorem log_append_of_ne {segment s : σ} (h : s ≠ segment) (batch : β) :
    (j.append segment batch).log s = j.log s :=
  Function.update_of_ne h _ _

omit [DecidableEq σ] in
theorem safe_sync_of {which : σ → Bool} {s : σ} (h : which s = true) :
    (j.sync which).safe s = j.log s :=
  if_pos h

omit [DecidableEq σ] in
theorem safe_sync_of_not {which : σ → Bool} {s : σ} (h : ¬ which s = true) :
    (j.sync which).safe s = j.safe s :=
  if_neg h

theorem safe_sync_append_of_ne {segment s : σ} (h : s ≠ segment) (batch : β) (which : σ → Bool) :
    ((j.append segment batch).sync which).safe s = (j.sync which).safe s := by
  by_cases hs : which s = true
  · rw [safe_sync_of _ hs, safe_sync_of _ hs, log_append_of_ne j h]
  · rw [safe_sync_of_not _ hs, safe_sync_of_not _ hs]
    rfl

omit [DecidableEq σ] in
/-- Syncing twice is syncing both. -/
theorem sync_sync (first second : σ → Bool) :
    (j.sync first).sync second = j.sync fun s => first s || second s := by
  have hsafe : ((j.sync first).sync second).safe = (j.sync fun s => first s || second s).safe := by
    funext s
    by_cases hsec : second s = true
    · rw [safe_sync_of _ hsec, safe_sync_of j (by rw [hsec, Bool.or_true])]
      rfl
    · rw [safe_sync_of_not _ hsec]
      by_cases hfirst : first s = true
      · rw [safe_sync_of j hfirst, safe_sync_of j (by rw [hfirst, Bool.true_or])]
      · rw [safe_sync_of_not j hfirst, safe_sync_of_not j]
        rw [Bool.or_eq_true]
        exact not_or.mpr ⟨hfirst, hsec⟩
  unfold sync at hsafe ⊢
  simp only [mk.injEq, true_and]
  exact hsafe

end

/-- What may be found of the segments after a power loss. -/
def Kept (j : Journal σ β) (kept : σ → List β) : Prop :=
  ∀ segment, j.safe segment <+: kept segment ∧ kept segment <+: j.log segment

omit [DecidableEq σ] in
theorem kept_log (j : Journal σ β) : j.Kept j.log :=
  fun segment => ⟨j.safe_le segment, prefix_refl _⟩

omit [DecidableEq σ] in
/-- With more of the journal durable, less can be lost. -/
theorem Kept.of_sync {j : Journal σ β} {which : σ → Bool} {kept : σ → List β}
    (h : (j.sync which).Kept kept) :
    j.Kept kept ∧ ∀ segment, which segment = true → kept segment = j.log segment := by
  constructor
  · intro segment
    refine ⟨?_, (h segment).2⟩
    have hsafe := (h segment).1
    by_cases hs : which segment = true
    · rw [safe_sync_of j hs] at hsafe
      exact (j.safe_le segment).trans hsafe
    · rw [safe_sync_of_not j hs] at hsafe
      exact hsafe
  · intro segment hs
    have hsafe := (h segment).1
    rw [safe_sync_of j hs] at hsafe
    exact (h segment).2.eq_of_length_le hsafe.length_le

/-- An appended batch is found as a whole or not at all. -/
theorem Kept.of_append {j : Journal σ β} {segment : σ} {batch : β} {kept : σ → List β}
    (h : (j.append segment batch).Kept kept) :
    j.Kept kept ∨ kept segment = j.log segment ++ [batch] ∧
      j.Kept (Function.update kept segment (j.log segment)) := by
  have hlog := (h segment).2
  rw [log_append_self] at hlog
  have hothers : ∀ s, s ≠ segment → j.safe s <+: kept s ∧ kept s <+: j.log s := by
    intro s hs
    have hseg := h s
    rw [log_append_of_ne j hs] at hseg
    exact hseg
  rcases prefix_concat_iff.mp hlog with hall | hpart
  · right
    refine ⟨hall, fun s => ?_⟩
    by_cases hs : s = segment
    · rw [hs, Function.update_self]
      exact ⟨j.safe_le segment, prefix_refl _⟩
    · rw [Function.update_of_ne hs]
      exact hothers s hs
  · left
    intro s
    by_cases hs : s = segment
    · rw [hs]
      exact ⟨(h segment).1, hpart⟩
    · exact hothers s hs

end Journal

/-- Segments read one after the other. -/
def joined {σ β : Type} (segments : List σ) (kept : σ → List β) : List β :=
  segments.flatMap kept

section Joined

variable {σ β : Type}

theorem joined_congr {segments : List σ} {kept kept' : σ → List β}
    (h : ∀ segment ∈ segments, kept segment = kept' segment) :
    joined segments kept = joined segments kept' :=
  flatMap_congr h

theorem joined_append (first second : List σ) (kept : σ → List β) :
    joined (first ++ second) kept = joined first kept ++ joined second kept :=
  flatMap_append

theorem joined_singleton (segment : σ) (kept : σ → List β) : joined [segment] kept = kept segment :=
  flatMap_singleton _ _

/-- What is added to the last segment comes last. -/
theorem joined_update_last [DecidableEq σ] {first : List σ} {segment : σ} (h : segment ∉ first)
    (kept : σ → List β) (contents : List β) :
    joined (first ++ [segment]) (Function.update kept segment contents) =
      joined first kept ++ contents := by
  have hfirst : joined first (Function.update kept segment contents) = joined first kept := by
    refine joined_congr fun s hs => Function.update_of_ne ?_ _ _
    intro heq
    exact h (heq ▸ hs)
  rw [joined_append, hfirst, joined_singleton, Function.update_self]

end Joined

section Withstands

variable {σ β κ ν : Type} [DecidableEq κ] (updates : β → List (Update κ ν))

variable {updates} in
/-- Segments that do not mention a key do not matter for it. -/
theorem outcome_joined_filter {segments : List σ} {kept : σ → List β} {keep : σ → Bool} {key : κ}
    (h : ∀ segment ∈ segments, keep segment = false → ∀ batch ∈ kept segment,
      ∀ update ∈ updates batch, update.1 ≠ key) (m : κ → Option ν) :
    outcome m ((joined (segments.filter keep) kept).flatMap updates) key =
      outcome m ((joined segments kept).flatMap updates) key := by
  -- Only the updates of the key count, and those segments have none.
  have hdrop : ((joined (segments.filter keep) kept).flatMap updates).filter
      (fun update => update.1 = key) =
      ((joined segments kept).flatMap updates).filter fun update => update.1 = key := by
    induction segments with
    | nil => rfl
    | cons segment rest ih =>
      have hrest := ih fun s hs => h s (mem_cons_of_mem _ hs)
      unfold joined at hrest ⊢
      rw [flatMap_cons, flatMap_append, filter_append]
      by_cases hkeep : keep segment = true
      · rw [filter_cons_of_pos hkeep, flatMap_cons, flatMap_append, filter_append, hrest]
      · rw [filter_cons_of_neg hkeep, hrest]
        have hnone : ((kept segment).flatMap updates).filter
            (fun update => update.1 = key) = [] := by
          rw [filter_eq_nil_iff]
          intro update hupd
          rcases mem_flatMap.mp hupd with ⟨batch, hbat, hin⟩
          rw [decide_eq_true_eq]
          exact h segment mem_cons_self (Bool.not_eq_true _ ▸ hkeep) batch hbat update hin
        rw [hnone, nil_append]
  rw [outcome_eq, outcome_eq, ← getLast?_filter, hdrop, getLast?_filter]

/-- Whatever is found of the segments, the outcome at the keys is the map. -/
def Withstands (j : Journal σ β) (segments : List σ) (keys : Set κ) (m : κ → Option ν) : Prop :=
  ∀ kept, j.Kept kept → ∀ key ∈ keys,
    outcome emptyMap ((joined segments kept).flatMap updates) key = m key

variable {updates} {j j' : Journal σ β} {first segments : List σ} {segment : σ} {batch : β}
  {keys : Set κ} {m : κ → Option ν}

/-- More durable segments are no worse. -/
theorem Withstands.sync (h : Withstands updates j segments keys m) (which : σ → Bool) :
    Withstands updates (j.sync which) segments keys m :=
  fun kept hkept => h kept hkept.of_sync.1

/-- An empty segment behind the others adds nothing. -/
theorem Withstands.grow (h : Withstands updates j segments keys m) (hlog : j.log segment = []) :
    Withstands updates j (segments ++ [segment]) keys m := by
  intro kept hkept
  have hnil : kept segment = [] := by
    have hfound := (hkept segment).2
    rw [hlog] at hfound
    exact prefix_nil.mp hfound
  rw [joined_append, joined_singleton, hnil, append_nil]
  exact h kept hkept

variable [DecidableEq σ]

/-- Only the segments that are read matter. -/
theorem Withstands.congr (h : Withstands updates j segments keys m)
    (hlog : ∀ s ∈ segments, j'.log s = j.log s) (hsafe : ∀ s ∈ segments, j'.safe s = j.safe s) :
    Withstands updates j' segments keys m := by
  intro kept hkept
  have hagrees : joined segments kept =
      joined segments fun s => if s ∈ segments then kept s else j.log s :=
    joined_congr fun s hs => (if_pos hs).symm
  rw [hagrees]
  refine h _ fun s => ?_
  by_cases hs : s ∈ segments
  · rw [if_pos hs, ← hlog s hs, ← hsafe s hs]
    exact hkept s
  · rw [if_neg hs]
    exact j.kept_log s

theorem joined_of_last (hnew : segment ∉ first) {kept : σ → List β} {contents : List β}
    (h : kept segment = contents) :
    joined (first ++ [segment]) kept = joined first kept ++ contents := by
  have hupd := joined_update_last hnew kept contents
  rw [← h, Function.update_eq_self, h] at hupd
  exact hupd

/-- A batch of copies of what is there may be lost or not. -/
theorem Withstands.append_copy (h : Withstands updates j (first ++ [segment]) keys m)
    (hnew : segment ∉ first)
    (hcopy : ∀ update ∈ updates batch, update.1 ∈ keys → update.2 = m update.1) :
    Withstands updates (j.append segment batch) (first ++ [segment]) keys m := by
  intro kept hkept key hkey
  rcases hkept.of_append with hkept | ⟨hall, hkept⟩
  · exact h kept hkept key hkey
  · have hbef := h _ hkept key hkey
    rw [joined_update_last hnew] at hbef
    rw [joined_of_last hnew hall, ← append_assoc, flatMap_append, flatMap_singleton, outcome_append]
    by_cases hbat : ∃ update ∈ updates batch, update.1 = key
    · refine outcome_of_forall_eq ?_ (Or.inr hbat)
      intro update hmem heq
      rw [hcopy update hmem (heq ▸ hkey), heq]
    · rw [outcome_of_forall_ne fun update hmem heq => hbat ⟨update, hmem, heq⟩]
      exact hbef

/-- A batch that is made durable takes effect. -/
theorem Withstands.append_synced {which : σ → Bool}
    (h : Withstands updates (j.sync which) (first ++ [segment]) keys m) (hnew : segment ∉ first)
    (hwhich : which segment = true) :
    Withstands updates ((j.append segment batch).sync which) (first ++ [segment]) keys
      (outcome m (updates batch)) := by
  intro kept hkept key hkey
  rcases hkept.of_sync with ⟨hkept', hfull⟩
  have hall := hfull segment hwhich
  rw [Journal.log_append_self] at hall
  -- What is found of the journal before is the same without the new batch.
  have hbef : (j.sync which).Kept (Function.update kept segment (j.log segment)) := by
    intro s
    by_cases hs : s = segment
    · rw [hs, Function.update_self, j.safe_sync_of hwhich]
      exact ⟨prefix_refl _, prefix_refl _⟩
    · rw [Function.update_of_ne hs, ← j.safe_sync_append_of_ne hs batch which]
      refine ⟨(hkept s).1, ?_⟩
      have hlog := (hkept' s).2
      rw [Journal.log_append_of_ne j hs] at hlog
      exact hlog
  have hmap := h _ hbef
  rw [joined_update_last hnew] at hmap
  rw [joined_of_last hnew hall, ← append_assoc, flatMap_append, flatMap_singleton, outcome_append]
  by_cases hbat : ∃ update ∈ updates batch, update.1 = key
  · exact outcome_congr hbat
  · have hne : ∀ update ∈ updates batch, update.1 ≠ key :=
      fun update hmem heq => hbat ⟨update, hmem, heq⟩
    rw [outcome_of_forall_ne hne, outcome_of_forall_ne hne]
    exact hmap key hkey

end Withstands

/-! ## Appending -/

/-- The segments are divided into shards. Batches go to the last segment of a
    shard, or to a new one behind it. -/
inductive Appends {σ ι β : Type} [DecidableEq σ] [DecidableEq ι] (shard : σ → ι) (j : Journal σ β)
    (segments : ι → List σ) : List (σ × β) → Journal σ β → (ι → List σ) → Prop
  | refl : Appends shard j segments [] j segments
  | grow {l j' segments'} (segment : σ) : Appends shard j segments l j' segments' →
      segment ∉ segments' (shard segment) → j'.log segment = [] →
      Appends shard j segments l j' (Function.update segments' (shard segment)
        (segments' (shard segment) ++ [segment]))
  | append {l j' segments' first} (segment : σ) (batch : β) :
      Appends shard j segments l j' segments' →
      segments' (shard segment) = first ++ [segment] → segment ∉ first →
      Appends shard j segments (l ++ [(segment, batch)]) (j'.append segment batch) segments'

namespace Appends

variable {σ ι β κ ν : Type} [DecidableEq σ] [DecidableEq ι] {shard : σ → ι}
  {j j' j'' : Journal σ β} {segments segments' segments'' : ι → List σ} {l l' : List (σ × β)}

theorem trans (h : Appends shard j segments l j' segments')
    (h' : Appends shard j' segments' l' j'' segments'') :
    Appends shard j segments (l ++ l') j'' segments'' := by
  induction h' with
  | refl =>
    rw [append_nil]
    exact h
  | grow segment _ hnew hlog ih => exact ih.grow segment hnew hlog
  | append segment batch _ hlast hnew ih =>
    rw [← append_assoc]
    exact ih.append segment batch hlast hnew

/-- Without batches the journal stays as it is. -/
theorem journal_eq (h : Appends shard j segments [] j' segments') : j' = j := by
  generalize hl : ([] : List (σ × β)) = l at h
  induction h with
  | refl => rfl
  | grow _ _ _ _ ih => exact ih hl
  | append _ _ _ _ _ _ => exact absurd hl (by simp only [nil_eq, append_eq_nil_iff,
      and_false, not_false_eq_true, cons_ne_nil])

section

variable (h : Appends shard j segments l j' segments')

include h

theorem safe_eq : j'.safe = j.safe := by
  induction h with
  | refl => rfl
  | grow _ _ _ _ ih => exact ih
  | append _ _ _ _ _ ih => exact ih

/-- The batches of a segment follow what was there. -/
theorem log_eq (s : σ) :
    j'.log s = j.log s ++ (l.filter fun entry => entry.1 = s).map Prod.snd := by
  induction h with
  | refl => rw [filter_nil, map_nil, append_nil]
  | grow _ _ _ _ ih => exact ih
  | append segment batch _ _ _ ih =>
    rw [filter_append, map_append, ← append_assoc, ← ih]
    by_cases hs : segment = s
    · rw [← hs, Journal.log_append_self, filter_cons_of_pos (by exact decide_eq_true rfl),
        filter_nil, map_singleton]
    · rw [Journal.log_append_of_ne _ (Ne.symm hs), filter_cons_of_neg (by
        rw [decide_eq_true_eq]; exact hs), filter_nil, map_nil, append_nil]

theorem log_le (s : σ) : j.log s <+: j'.log s := by
  rw [h.log_eq]
  exact prefix_append _ _

/-- Everything in the segments was there before or has been appended. -/
theorem mem_log {s : σ} {batch : β} (hbat : batch ∈ j'.log s) :
    batch ∈ j.log s ∨ (s, batch) ∈ l := by
  rw [h.log_eq, mem_append] at hbat
  refine hbat.imp_right fun hnew => ?_
  rcases mem_map.mp hnew with ⟨entry, hent, rfl⟩
  rw [mem_filter, decide_eq_true_eq] at hent
  rw [← hent.2]
  exact hent.1

theorem segments_subset (i : ι) (s : σ) (hs : s ∈ segments i) : s ∈ segments' i := by
  induction h with
  | refl => exact hs
  | grow segment _ _ _ ih =>
    by_cases hi : i = shard segment
    · rw [hi] at ih ⊢
      rw [Function.update_self]
      exact mem_append_left _ ih
    · rw [Function.update_of_ne hi]
      exact ih
  | append _ _ _ _ _ ih => exact ih

section

variable (hshard : ∀ i, ∀ s ∈ segments i, shard s = i)

include hshard

/-- New segments are in the shards they belong to. -/
theorem sharded : ∀ i, ∀ s ∈ segments' i, shard s = i := by
  induction h with
  | refl => exact hshard
  | grow segment _ _ _ ih =>
    intro i s hs
    by_cases hi : i = shard segment
    · rw [hi, Function.update_self, mem_append, mem_singleton] at hs
      rcases hs with hold | rfl
      · rw [hi]
        exact ih _ s hold
      · exact hi.symm
    · rw [Function.update_of_ne hi] at hs
      exact ih i s hs
  | append _ _ _ _ _ ih => exact ih

variable [DecidableEq κ] {updates : β → List (Update κ ν)} {keys : Set κ} {m : κ → Option ν}

/-- Copies of what is there may be lost or not. -/
theorem withstands_copy {i : ι} (hmap : Withstands updates j (segments i) keys m)
    (hcopy : ∀ entry ∈ l, shard entry.1 = i → ∀ update ∈ updates entry.2, update.1 ∈ keys →
      update.2 = m update.1) : Withstands updates j' (segments' i) keys m := by
  induction h with
  | refl => exact hmap
  | grow segment _ _ hlog ih =>
    by_cases hi : i = shard segment
    · rw [← hi, Function.update_self]
      exact (ih hcopy).grow hlog
    · rw [Function.update_of_ne hi]
      exact ih hcopy
  | append segment batch hbef hlast hnew ih =>
    have hearlier := ih fun entry hent => hcopy entry (mem_append_left _ hent)
    by_cases hi : shard segment = i
    · rw [hi] at hlast
      rw [hlast] at hearlier ⊢
      refine hearlier.append_copy hnew ?_
      exact hcopy (segment, batch) mem_concat_self hi
    · refine hearlier.congr (fun s hs => Journal.log_append_of_ne _ ?_ batch) fun _ _ => rfl
      intro heq
      exact hi (by rw [← heq]; exact hbef.sharded hshard i s hs)

/-- Updates take effect once all segments they went to are durable. -/
theorem withstands_synced {i : ι} {which : σ → Bool}
    (hmap : Withstands updates (j.sync which) (segments i) keys m)
    (hwhich : ∀ entry ∈ l, which entry.1 = true) :
    Withstands updates (j'.sync which) (segments' i) keys
      (outcome m (((l.filter fun entry => shard entry.1 = i).map Prod.snd).flatMap updates)) := by
  induction h with
  | refl => exact hmap
  | grow segment _ _ hlog ih =>
    by_cases hi : i = shard segment
    · rw [← hi, Function.update_self]
      exact (ih hwhich).grow hlog
    · rw [Function.update_of_ne hi]
      exact ih hwhich
  | append segment batch hbef hlast hnew ih =>
    have hearlier := ih fun entry hent => hwhich entry (mem_append_left _ hent)
    by_cases hi : shard segment = i
    · rw [filter_append, map_append, flatMap_append, outcome_append,
        filter_cons_of_pos (by exact decide_eq_true hi), filter_nil,
        map_singleton, flatMap_singleton]
      rw [hi] at hlast
      rw [hlast] at hearlier ⊢
      exact hearlier.append_synced hnew (hwhich (segment, batch) mem_concat_self)
    · rw [filter_append, filter_cons_of_neg (by simp only [hi, decide_false,
        Bool.false_eq_true, not_false_eq_true]), filter_nil, append_nil]
      refine hearlier.congr (fun s hs => Journal.log_append_of_ne _ ?_ batch)
        fun s hs => Journal.safe_sync_append_of_ne _ ?_ batch which
      all_goals
        intro heq
        exact hi (by rw [← heq]; exact hbef.sharded hshard i s hs)

end

end

end Appends

end Pepper
