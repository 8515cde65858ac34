import Mathlib

/-!
# Ordered Collections

The collection vocabulary the models are written in: ordered maps and sets,
the iterator maximum, and checks that run down a list until one fails.

Ordered maps are `Std.ExtTreeMap`, so two maps with the same entries are
equal and a concrete map evaluates. The lemmas here restate lookups with
`=` on keys instead of `compare … = .eq`, which is the form every proof over
a map with a lawful key order wants.

## Main definitions

* `BTreeMap`, `BTreeSet`: Ordered maps and sets over the key type's own order.
* `maxByKey`: The last element of a list with the greatest key.
* `minByKey`: The first element of a list with the least key.

## Theorems

* `getElem?_insert_eq`, `getElem?_modify_eq`: Lookup after an update.
* `getElem?_foldl_modify`: Lookup after the same update at a list of keys.
* `maxByKey_spec`, `minByKey_spec`: What the iterator maximum and minimum select.
* `mem_values_iff`: The values of a map.
* `bind_eq_ok`, `throw_unless_eq_ok`, `forM_eq_ok`: Checks succeed exactly when
  each of them does.
* `exists_common_of_majorities`: Two majorities of a map's keys meet.
* `forall_mem_concat`, `forall_mem_middle`: One more member of a list.
-/

namespace Pepper

open List

/-- Ordered map over the key type's own comparison. -/
abbrev BTreeMap (κ β : Type) [Ord κ] := Std.ExtTreeMap κ β compare

/-- Ordered set over the element type's own comparison. -/
abbrev BTreeSet (κ : Type) [Ord κ] := Std.ExtTreeSet κ compare

section Maps

variable {κ β : Type} [Ord κ] [Std.TransOrd κ]

theorem size_foldl_modify (f : β → β) (l : List κ) (t : BTreeMap κ β) :
    (l.foldl (fun t k => t.modify k f) t).size = t.size := by
  induction l generalizing t with
  | nil => rfl
  | cons k l ih => rw [foldl_cons, ih, Std.ExtTreeMap.size_modify]

variable {k : κ} {t : BTreeMap κ β} {v : β}

theorem mem_iff_exists : k ∈ t ↔ ∃ v, t[k]? = some v := by
  rw [Std.ExtTreeMap.mem_iff_isSome_getElem?, Option.isSome_iff_exists]

/-- Replacing the value of a key that is there keeps the size. -/
theorem size_insert_of_getElem? (h : t[k]? = some v) (w : β) : (t.insert k w).size = t.size := by
  rw [Std.ExtTreeMap.size_insert, if_pos]
  exact Std.ExtTreeMap.contains_iff_mem.mpr
    (mem_iff_exists.mpr ⟨_, h⟩)

variable [DecidableEq κ]

/-- The keys of an ordered map as a finite set. -/
def keySet (t : BTreeMap κ β) : Finset κ := t.keys.toFinset

theorem card_keySet (t : BTreeMap κ β) : (keySet t).card = t.size := by
  rw [keySet, toFinset_card_of_nodup Std.ExtTreeMap.nodup_keys, Std.ExtTreeMap.length_keys]

variable [Std.LawfulEqOrd κ]

theorem getElem?_insert_eq (t : BTreeMap κ β) (k a : κ) (v : β) :
    (t.insert k v)[a]? = if k = a then some v else t[a]? := by
  rw [Std.ExtTreeMap.getElem?_insert]
  simp only [Std.LawfulEqCmp.compare_eq_iff_eq]

theorem getElem?_insert_cases {a : κ} {w : β} (h : (t.insert k v)[a]? = some w) :
    k = a ∧ w = v ∨ k ≠ a ∧ t[a]? = some w := by
  rw [getElem?_insert_eq] at h
  by_cases hk : k = a
  · rw [if_pos hk, Option.some.injEq] at h
    exact Or.inl ⟨hk, h.symm⟩
  · rw [if_neg hk] at h
    exact Or.inr ⟨hk, h⟩

theorem getElem?_erase_eq (t : BTreeMap κ β) (k a : κ) :
    (t.erase k)[a]? = if k = a then none else t[a]? := by
  rw [Std.ExtTreeMap.getElem?_erase]
  simp only [Std.LawfulEqCmp.compare_eq_iff_eq]

theorem getElem?_modify_eq (t : BTreeMap κ β) (k a : κ) (f : β → β) :
    (t.modify k f)[a]? = if k = a then t[a]?.map f else t[a]? := by
  rw [Std.ExtTreeMap.getElem?_modify]
  simp only [Std.LawfulEqCmp.compare_eq_iff_eq]
  split
  · next h => rw [h]
  · rfl

/-- Updating each key of a list in turn updates exactly the keys that occur in
    it. A key may occur twice, so the update has to be idempotent. -/
theorem getElem?_foldl_modify (f : β → β) (hf : ∀ b, f (f b) = f b) (l : List κ)
    (t : BTreeMap κ β) (a : κ) :
    (l.foldl (fun t k => t.modify k f) t)[a]? = if a ∈ l then t[a]?.map f else t[a]? := by
  induction l generalizing t with
  | nil => simp only [foldl_nil, not_mem_nil, if_false]
  | cons k l ih =>
    rw [foldl_cons, ih, getElem?_modify_eq]
    by_cases hk : k = a
    · subst hk
      by_cases hl : k ∈ l
      · simp only [hl, if_true, mem_cons, or_true, Option.map_map]
        congr 1
        exact funext hf
      · simp only [hl, if_false, if_true, mem_cons, or_false]
    · simp only [hk, Ne.symm hk, if_false, mem_cons, false_or]

omit [DecidableEq κ] in
/-- The values of a map are those of its keys. -/
theorem mem_values_iff : v ∈ t.toList.map Prod.snd ↔ ∃ k : κ, t[k]? = some v := by
  rw [mem_map]
  constructor
  · rintro ⟨⟨k, w⟩, hmem, rfl⟩
    exact ⟨k, Std.ExtTreeMap.mem_toList_iff_getElem?_eq_some.mp hmem⟩
  · rintro ⟨k, hk⟩
    exact ⟨(k, v), Std.ExtTreeMap.mem_toList_iff_getElem?_eq_some.mpr hk, rfl⟩

theorem mem_keySet (t : BTreeMap κ β) (k : κ) : k ∈ keySet t ↔ k ∈ t := by
  rw [keySet, mem_toFinset, Std.ExtTreeMap.mem_keys]

/-- The elements of an ordered set as a finite set. -/
def elemSet (s : BTreeSet κ) : Finset κ := s.toList.toFinset

theorem mem_elemSet (s : BTreeSet κ) (k : κ) : k ∈ elemSet s ↔ k ∈ s := by
  rw [elemSet, mem_toFinset, Std.ExtTreeSet.mem_toList]

theorem card_elemSet (s : BTreeSet κ) : (elemSet s).card = s.size := by
  have hnd : s.toList.Nodup := by
    refine Std.ExtTreeSet.distinct_toList.imp ?_
    intro a b hab heq
    exact hab (Std.LawfulEqCmp.compare_eq_iff_eq.mpr heq)
  rw [elemSet, toFinset_card_of_nodup hnd, Std.ExtTreeSet.length_toList]

/-- Two sets of keys that are each a majority of the map share a key. -/
theorem exists_common_of_majorities (t : BTreeMap κ β) (p q : Finset κ)
    (hp : ∀ k ∈ p, k ∈ t) (hq : ∀ k ∈ q, k ∈ t)
    (hpc : t.size / 2 + 1 ≤ p.card) (hqc : t.size / 2 + 1 ≤ q.card) :
    ∃ k, k ∈ p ∧ k ∈ q := by
  have hcard : (keySet t).card < p.card + q.card := by
    rw [card_keySet]
    omega
  rcases Finset.inter_nonempty_of_card_lt_card_add_card
    (fun k hk => (mem_keySet t k).mpr (hp k hk))
    (fun k hk => (mem_keySet t k).mpr (hq k hk)) hcard with ⟨k, hk⟩
  exact ⟨k, Finset.mem_inter.mp hk⟩

/-- A count over the values of a map is the size of a set of its keys. -/
theorem exists_keys_of_countP (t : BTreeMap κ β) (p : β → Bool) :
    ∃ q : Finset κ, q.card = t.toList.countP (fun e => p e.2) ∧
      ∀ k ∈ q, ∃ v, t[k]? = some v ∧ p v = true := by
  refine ⟨((t.toList.filter (fun e => p e.2)).map Prod.fst).toFinset, ?_, ?_⟩
  · have hnd : (t.toList.map Prod.fst).Nodup := by
      rw [Std.ExtTreeMap.map_fst_toList_eq_keys]
      exact Std.ExtTreeMap.nodup_keys
    rw [toFinset_card_of_nodup (hnd.sublist (filter_sublist.map _)), length_map,
      ← countP_eq_length_filter]
  · intro k hk
    simp only [mem_toFinset, mem_map, mem_filter, Prod.exists, exists_and_right,
      exists_eq_right] at hk
    rcases hk with ⟨v, hv, hpv⟩
    exact ⟨v, Std.ExtTreeMap.mem_toList_iff_getElem?_eq_some.mp hv, hpv⟩

/-- A map whose keys are the numbers below `n` lists them in order. -/
theorem keys_eq_range (t : BTreeMap Nat β) (n : Nat) (h : ∀ k, k ∈ t ↔ k < n) :
    t.keys = List.range n := by
  have hperm : t.keys.Perm (List.range n) := by
    rw [perm_ext_iff_of_nodup Std.ExtTreeMap.nodup_keys nodup_range]
    intro k
    rw [Std.ExtTreeMap.mem_keys, mem_range, h]
  have hsorted : t.keys.Pairwise (· < ·) :=
    Std.ExtTreeMap.ordered_keys.imp fun hab => Nat.compare_eq_lt.mp hab
  refine hperm.eq_of_pairwise ?_ hsorted pairwise_lt_range
  intro a b _ _ hab hba
  omega

end Maps

section Selection

variable {α κ : Type} [LinearOrder κ]

/-- The iterator maximum: of several elements with the greatest key, the last
    one wins. -/
def maxByKey (key : α → κ) : List α → Option α
  | [] => none
  | a :: l => some (l.foldl (fun best x => if key x < key best then best else x) a)

theorem foldl_max_spec (key : α → κ) (l : List α) (a : α) :
    let r := l.foldl (fun best x => if key x < key best then best else x) a
    (r = a ∨ r ∈ l) ∧ key a ≤ key r ∧ ∀ x ∈ l, key x ≤ key r := by
  induction l generalizing a with
  | nil => simp
  | cons b l ih =>
    simp only [foldl_cons, mem_cons, forall_eq_or_imp]
    by_cases hb : key b < key a
    · simp only [hb, if_true]
      rcases ih a with ⟨hmem, ha, hl⟩
      exact ⟨hmem.imp_right Or.inr, ha, le_trans hb.le ha, hl⟩
    · simp only [hb, if_false]
      rcases ih b with ⟨hmem, hb', hl⟩
      exact ⟨Or.inr hmem, le_trans (not_lt.mp hb) hb', hb', hl⟩

variable {key : α → κ} {l : List α} {m : α}

/-- What the iterator maximum selects. -/
theorem maxByKey_spec (h : maxByKey key l = some m) : m ∈ l ∧ ∀ x ∈ l, key x ≤ key m := by
  cases l with
  | nil => exact absurd h (by simp only [maxByKey, reduceCtorEq, not_false_eq_true])
  | cons a l =>
    simp only [maxByKey, Option.some.injEq] at h
    rw [← h]
    rcases foldl_max_spec key l a with ⟨hmem, ha, hl⟩
    exact ⟨mem_cons.mpr hmem, forall_mem_cons.mpr ⟨ha, hl⟩⟩

/-- The iterator minimum: of several elements with the least key, the first one
    wins. -/
def minByKey (key : α → κ) : List α → Option α
  | [] => none
  | a :: l => some (l.foldl (fun best x => if key x < key best then x else best) a)

theorem foldl_min_spec (key : α → κ) (l : List α) (a : α) :
    let r := l.foldl (fun best x => if key x < key best then x else best) a
    (r = a ∨ r ∈ l) ∧ key r ≤ key a ∧ ∀ x ∈ l, key r ≤ key x := by
  induction l generalizing a with
  | nil => simp
  | cons b l ih =>
    simp only [foldl_cons, mem_cons, forall_eq_or_imp]
    by_cases hb : key b < key a
    · simp only [hb, if_true]
      rcases ih b with ⟨hmem, hb', hl⟩
      exact ⟨Or.inr hmem, le_trans hb' hb.le, hb', hl⟩
    · simp only [hb, if_false]
      rcases ih a with ⟨hmem, ha, hl⟩
      exact ⟨hmem.imp_right Or.inr, ha, le_trans ha (not_lt.mp hb), hl⟩

/-- What the iterator minimum selects. -/
theorem minByKey_spec (h : minByKey key l = some m) : m ∈ l ∧ ∀ x ∈ l, key m ≤ key x := by
  cases l with
  | nil => exact absurd h (by simp only [minByKey, reduceCtorEq, not_false_eq_true])
  | cons a l =>
    simp only [minByKey, Option.some.injEq] at h
    rw [← h]
    rcases foldl_min_spec key l a with ⟨hmem, ha, hl⟩
    exact ⟨mem_cons.mpr hmem, forall_mem_cons.mpr ⟨ha, hl⟩⟩

theorem minByKey_eq_none : minByKey key l = none ↔ l = [] := by
  cases l <;> simp [minByKey]

theorem maxByKey_eq_none : maxByKey key l = none ↔ l = [] := by
  cases l <;> simp [maxByKey]

end Selection

section Checks

variable {ε α β : Type} {a : α}

/-- A call goes through exactly when both of its parts do. -/
theorem bind_eq_ok {x : Except ε β} {f : β → Except ε α} :
    x >>= f = .ok a ↔ ∃ b, x = .ok b ∧ f b = .ok a := by
  cases x with
  | error e =>
    constructor
    · exact nofun
    · rintro ⟨_, h, _⟩
      cases h
  | ok b =>
    constructor
    · exact fun h => ⟨b, rfl, h⟩
    · rintro ⟨_, hb, h⟩
      cases hb
      exact h

theorem mapError_eq_ok {ε' : Type} {wrap : ε → ε'} {x : Except ε α} :
    x.mapError wrap = .ok a ↔ x = .ok a := by
  cases x <;> simp [Except.mapError]

/-- A call behind a check goes through exactly when the check does and the call
    does. -/
theorem throw_unless_eq_ok {c : Prop} [Decidable c] {e : ε} {x : Except ε α} :
    (do if c then throw e
        x) = .ok a ↔ ¬ c ∧ x = .ok a := by
  by_cases h : c
  · rw [if_pos h]
    exact ⟨nofun, fun h' => absurd h h'.1⟩
  · rw [if_neg h]
    exact ⟨fun h' => ⟨h, h'⟩, fun h' => h'.2⟩

/-- A sequence of checks succeeds exactly when every one of them does. -/
theorem forM_eq_ok (f : α → Except ε Unit) (l : List α) :
    forM l f = .ok () ↔ ∀ x ∈ l, f x = .ok () := by
  induction l with
  | nil => simp [pure, Except.pure]
  | cons a l ih =>
    rw [forM_cons, forall_mem_cons, ← ih]
    cases f a with
    | error e => simp [bind, Except.bind]
    | ok u => simp [bind, Except.bind]

end Checks

section Members

variable {α : Type} {p : α → Prop} {l r : List α} {a : α}

theorem forall_mem_concat (h : ∀ x ∈ l, p x) (ha : p a) : ∀ x ∈ l ++ [a], p x :=
  forall_mem_append.mpr ⟨h, forall_mem_singleton.mpr ha⟩

/-- What holds of all members but one and of that one. -/
theorem forall_mem_middle (h : ∀ x ∈ l ++ r, p x) (ha : p a) : ∀ x ∈ l ++ a :: r, p x := by
  rw [forall_mem_append] at h ⊢
  exact ⟨h.1, forall_mem_cons.mpr ⟨ha, h.2⟩⟩

theorem forall_mem_remove (h : ∀ x ∈ l ++ a :: r, p x) : ∀ x ∈ l ++ r, p x := by
  rw [forall_mem_append, forall_mem_cons] at h
  exact forall_mem_append.mpr ⟨h.1, h.2.2⟩

/-- Two lists whose members are all answered for by others. -/
theorem forall_mem_append_exists {β : Type} {R : α → β → Prop} {s t : List β}
    (hl : ∀ x ∈ l, ∃ y ∈ s, R x y) (hr : ∀ x ∈ r, ∃ y ∈ t, R x y) :
    ∀ x ∈ l ++ r, ∃ y ∈ s ++ t, R x y := by
  refine forall_mem_append.mpr ⟨fun x hx => ?_, fun x hx => ?_⟩
  · exact (hl x hx).imp fun _ hy => ⟨mem_append_left _ hy.1, hy.2⟩
  · exact (hr x hx).imp fun _ hy => ⟨mem_append_right _ hy.1, hy.2⟩

end Members

/-! ## Related lists -/

theorem exists_right_of_forall₂ {α β : Type} {R : α → β → Prop} {l : List α} {l' : List β}
    (h : List.Forall₂ R l l') {a : α} (ha : a ∈ l) : ∃ b ∈ l', R a b := by
  induction h with
  | nil => cases ha
  | cons hab _ ih =>
    rcases mem_cons.mp ha with rfl | ha
    · exact ⟨_, mem_cons_self, hab⟩
    · rcases ih ha with ⟨b, hb, hrel⟩
      exact ⟨b, mem_cons_of_mem _ hb, hrel⟩

theorem exists_left_of_forall₂ {α β : Type} {R : α → β → Prop} {l : List α} {l' : List β}
    (h : List.Forall₂ R l l') {b : β} (hb : b ∈ l') : ∃ a ∈ l, R a b :=
  exists_right_of_forall₂ h.flip hb

/-- The elements of a list, counted by key, for several keys. -/
theorem sum_length_filter_le {α β : Type} [DecidableEq β] (f : α → β) {keys : List β}
    (hnodup : keys.Nodup) (l : List α) :
    (keys.map fun key => (l.filter fun a => f a = key).length).sum ≤ l.length := by
  induction keys generalizing l with
  | nil => exact Nat.zero_le _
  | cons key rest ih =>
    rw [nodup_cons] at hnodup
    have hsplit := length_eq_length_filter_add (l := l) fun a => f a = key
    -- The other keys are those of the elements without this one.
    have hothers : (rest.map fun k => (l.filter fun a => f a = k).length) =
        rest.map fun k => ((l.filter fun a => !decide (f a = key)).filter fun a =>
          f a = k).length := by
      refine map_congr_left fun k hk => ?_
      rw [filter_filter]
      congr 1
      refine filter_congr fun a _ => ?_
      by_cases hak : f a = k
      · have hne : f a ≠ key := by
          rw [hak]
          intro heq
          exact hnodup.1 (heq ▸ hk)
        rw [decide_eq_true hak, decide_eq_false hne]
        rfl
      · rw [decide_eq_false hak, Bool.false_and]
    have hrest := ih hnodup.2 (l.filter fun a => !decide (f a = key))
    rw [map_cons, sum_cons, hothers]
    omega

end Pepper
