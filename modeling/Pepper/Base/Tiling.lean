import Mathlib

/-!
# Tilings

Lists of intervals that cover a range of numbers without a gap or an overlap.

An element covers the numbers from its `base` to its `last`, both included.
The end of the range is one past the last number covered, so an empty list
tiles the empty range at any place.

A tiling from which elements have been taken away is still in order. `Spaced` is
what is left of the notion then, and searching for a place needs no more.

Boxes that hold such elements are chained when each starts where the previous one
stops. A box may be empty, so it is given by its start and its stop.

## Main definitions

* `Tiles`: A list tiles the range from one number up to another.
* `Spaced`: The elements of a list come one after the other.
* `Chained`: Each element of a list starts where the previous one stops.

## Theorems

* `spaced_append`: A joined list is spaced when its parts are, in their order.
* `Spaced.takeWhile_eq_filter`, `Spaced.dropWhile_eq_filter`: A search finds what
  a filter finds.
* `tiles_append`: A tiling of a joined list is a tiling of each part.
* `Tiles.bounds`: Every element lies in the range.
* `Tiles.cut`: An offset that no element straddles cuts a tiling in two.
* `Tiles.eq_of_covers`: A number is covered by one element only.
-/

namespace Pepper

open List

variable {α : Type} (base last : α → Nat)

/-- The list covers the numbers from `lo` up to `hi`, which is not included. -/
def Tiles : Nat → List α → Nat → Prop
  | lo, [], hi => lo = hi
  | lo, x :: xs, hi => base x = lo ∧ lo ≤ last x ∧ Tiles (last x + 1) xs hi

/-- The elements come one after the other, with gaps allowed. -/
structure Spaced (l : List α) : Prop where
  ordered : l.Pairwise fun x y => last x < base y
  spans : ∀ x ∈ l, base x ≤ last x

variable {base last}

/-! ## Spaced lists -/

theorem Spaced.nil : Spaced base last ([] : List α) :=
  ⟨List.Pairwise.nil, forall_mem_nil _⟩

variable {l a b : List α} {x y : α} {hi lo : Nat}

theorem Spaced.sublist {l' : List α} (h : Spaced base last l) (hsub : l'.Sublist l) :
    Spaced base last l' :=
  ⟨h.ordered.sublist hsub, fun x hx => h.spans x (hsub.subset hx)⟩

theorem spaced_append : Spaced base last (a ++ b) ↔ Spaced base last a ∧ Spaced base last b ∧
      ∀ x ∈ a, ∀ y ∈ b, last x < base y := by
  constructor
  · intro h
    exact ⟨h.sublist (sublist_append_left a b), h.sublist (sublist_append_right a b),
      (pairwise_append.mp h.ordered).2.2⟩
  · rintro ⟨ha, hb, hab⟩
    exact ⟨pairwise_append.mpr ⟨ha.ordered, hb.ordered, hab⟩,
      forall_mem_append.mpr ⟨ha.spans, hb.spans⟩⟩

section

variable (h : Spaced base last l)

include h

theorem Spaced.cons (hle : base x ≤ last x) (hbef : ∀ y ∈ l, last x < base y) :
    Spaced base last (x :: l) :=
  ⟨List.Pairwise.cons hbef h.ordered, forall_mem_cons.mpr ⟨hle, h.spans⟩⟩

/-- Of two different elements one comes before the other. -/
theorem Spaced.apart (hx : x ∈ l) (hy : y ∈ l) : x = y ∨ last x < base y ∨ last y < base x := by
  rcases append_of_mem hx with ⟨a, b, rfl⟩
  have hparts := pairwise_append.mp h.ordered
  rcases mem_append.mp hy with hy | hy
  · exact Or.inr (Or.inr (hparts.2.2 y hy x mem_cons_self))
  · rcases mem_cons.mp hy with rfl | hy
    · exact Or.inl rfl
    · exact Or.inr (Or.inl ((pairwise_cons.mp hparts.2.1).1 y hy))

/-- The last element ends last. -/
theorem Spaced.le_getLast (hx : x ∈ l) (hy : l.getLast? = some y) : last x ≤ last y := by
  rw [← dropLast_append_getLast? y hy] at h hx
  have hspan := h.spans y mem_concat_self
  rcases mem_append.mp hx with hx | hx
  · have := (spaced_append.mp h).2.2 x hx y mem_cons_self
    omega
  · rw [mem_singleton.mp hx]

/-- The elements before an offset are those that end before it. -/
theorem Spaced.takeWhile_eq_filter (offset : Nat) : l.takeWhile (fun x => last x < offset) =
      l.filter fun x => last x < offset := by
  induction l with
  | nil => rfl
  | cons x l ih =>
    have hrest := h.sublist (sublist_cons_self x l)
    by_cases hx : last x < offset
    · rw [takeWhile_cons_of_pos (by simpa using hx),
        filter_cons_of_pos (by simpa using hx), ih hrest]
    · rw [takeWhile_cons_of_neg (by simpa using hx),
        filter_cons_of_neg (by simpa using hx), eq_comm, filter_eq_nil_iff]
      intro y hy
      have := (pairwise_cons.mp h.ordered).1 y hy
      have := hrest.spans y hy
      simp only [decide_eq_true_eq]
      omega

/-- Skipping the elements that end before an offset leaves those that reach
    it. -/
theorem Spaced.dropWhile_eq_filter (offset : Nat) : l.dropWhile (fun x => last x < offset) =
      l.filter (fun x => offset ≤ last x) := by
  induction l with
  | nil => rfl
  | cons x l ih =>
    have hrest := h.sublist (sublist_cons_self x l)
    by_cases hx : last x < offset
    · rw [dropWhile_cons_of_pos (by simpa using hx),
        filter_cons_of_neg (by simpa using hx), ih hrest]
    · rw [dropWhile_cons_of_neg (by simpa using hx),
        filter_cons_of_pos (by simpa using hx), filter_eq_self.mpr]
      intro y hy
      have := (pairwise_cons.mp h.ordered).1 y hy
      have := hrest.spans y hy
      simp only [decide_eq_true_eq]
      omega

end

/-! ## Tilings -/

theorem tiles_append : Tiles base last lo (a ++ b) hi ↔
      ∃ mid, Tiles base last lo a mid ∧ Tiles base last mid b hi := by
  induction a generalizing lo with
  | nil =>
    constructor
    · intro h
      exact ⟨lo, rfl, h⟩
    · rintro ⟨mid, hmid, h⟩
      rw [show lo = mid from hmid]
      exact h
  | cons x a ih =>
    simp only [cons_append, Tiles, ih]
    constructor
    · rintro ⟨hbase, hle, mid, ha, hb⟩
      exact ⟨mid, ⟨hbase, hle, ha⟩, hb⟩
    · rintro ⟨mid, ⟨hbase, hle, ha⟩, hb⟩
      exact ⟨hbase, hle, mid, ha, hb⟩

theorem tiles_concat (h : Tiles base last lo a hi) (hbase : base x = hi) (hle : hi ≤ last x) :
    Tiles base last lo (a ++ [x]) (last x + 1) :=
  tiles_append.mpr ⟨hi, h, hbase, hle, rfl⟩

theorem tiles_map {β : Type} (f : β → α) {l : List β} :
    Tiles base last lo (l.map f) hi ↔ Tiles (base ∘ f) (last ∘ f) lo l hi := by
  induction l generalizing lo with
  | nil => rfl
  | cons x l ih => simp only [map_cons, Tiles, Function.comp_apply, ih]

section

variable (h : Tiles base last lo l hi)

include h

theorem Tiles.le : lo ≤ hi := by
  induction l generalizing lo with
  | nil => exact le_of_eq h
  | cons x l ih =>
    have := ih h.2.2
    have := h.2.1
    omega

theorem Tiles.bounds (hx : x ∈ l) : lo ≤ base x ∧ base x ≤ last x ∧ last x < hi := by
  induction l generalizing lo with
  | nil => cases hx
  | cons y l ih =>
    rcases h with ⟨hbase, hle, hrest⟩
    rcases mem_cons.mp hx with rfl | hx
    · have := hrest.le
      omega
    · have := ih hrest hx
      omega

/-- Two elements that cover the same number are the same. -/
theorem Tiles.eq_of_covers (hx : x ∈ l) (hy : y ∈ l) {n : Nat} (hxn : base x ≤ n ∧ n ≤ last x)
    (hyn : base y ≤ n ∧ n ≤ last y) : x = y := by
  induction l generalizing lo with
  | nil => cases hx
  | cons z l ih =>
    rcases h with ⟨hbase, hle, hrest⟩
    rcases mem_cons.mp hx with hxz | hxl
    · rcases mem_cons.mp hy with hyz | hyl
      · rw [hxz, hyz]
      · have := hrest.bounds hyl
        subst hxz
        omega
    · rcases mem_cons.mp hy with hyz | hyl
      · have := hrest.bounds hxl
        subst hyz
        omega
      · exact ih hrest hxl hyl

theorem Tiles.base_head (hx : l.head? = some x) : base x = lo := by
  cases l with
  | nil => exact absurd hx (by simp)
  | cons y l =>
    rw [head?_cons, Option.some.injEq] at hx
    rw [← hx]
    exact h.1

theorem Tiles.last_getLast (hx : l.getLast? = some x) : last x + 1 = hi := by
  rcases tiles_append.mp ((dropLast_append_getLast? x hx).symm ▸ h) with ⟨_, _, _, _, hend⟩
  exact hend

/-- A tiling is in order. -/
theorem Tiles.spaced : Spaced base last l := by
  induction l generalizing lo with
  | nil => exact Spaced.nil
  | cons x l ih =>
    rcases h with ⟨hbase, hle, hrest⟩
    refine Spaced.cons (ih hrest) (by omega) fun y hy => ?_
    have := hrest.bounds hy
    omega

/-- The elements before an offset are those that end before it. -/
theorem Tiles.takeWhile_eq_filter (offset : Nat) : l.takeWhile (fun x => last x < offset) =
      l.filter fun x => last x < offset :=
  h.spaced.takeWhile_eq_filter offset

/-- An offset in the range that no element straddles cuts the tiling in two. -/
theorem Tiles.cut {offset : Nat} (hlo : lo ≤ offset) (hhi : offset ≤ hi)
    (hclean : ∀ x ∈ l, last x < offset ∨ offset ≤ base x) :
    Tiles base last lo (l.takeWhile fun x => last x < offset) offset ∧
      (l[(l.takeWhile fun x => last x < offset).length]?).elim hi base = offset := by
  induction l generalizing lo with
  | nil =>
    have hend : lo = hi := h
    exact ⟨show lo = offset by omega, show hi = offset by omega⟩
  | cons x l ih =>
    rcases h with ⟨hbase, hle, hrest⟩
    by_cases hx : last x < offset
    · rw [takeWhile_cons_of_pos (by simpa using hx)]
      rcases ih hrest hx fun y hy => hclean y (mem_cons_of_mem x hy) with ⟨hkept, hnext⟩
      exact ⟨⟨hbase, hle, hkept⟩, hnext⟩
    · rw [takeWhile_cons_of_neg (by simpa using hx)]
      have hstart : base x = offset := by
        have := hclean x mem_cons_self
        omega
      exact ⟨show lo = offset by omega, hstart⟩

end

/-! ## Chained lists -/

/-- Each element starts where the previous one stops, the first one at `lo`, and
    the last one stops at `hi`. -/
def Chained (start stop : α → Nat) : Nat → List α → Nat → Prop
  | lo, [], hi => lo = hi
  | lo, x :: xs, hi => start x = lo ∧ lo ≤ stop x ∧ Chained start stop (stop x) xs hi

variable {start stop : α → Nat}

theorem chained_append : Chained start stop lo (a ++ b) hi ↔
      ∃ mid, Chained start stop lo a mid ∧ Chained start stop mid b hi := by
  induction a generalizing lo with
  | nil =>
    constructor
    · intro h
      exact ⟨lo, rfl, h⟩
    · rintro ⟨mid, hmid, h⟩
      rw [show lo = mid from hmid]
      exact h
  | cons x a ih =>
    simp only [cons_append, Chained, ih]
    constructor
    · rintro ⟨hstart, hle, mid, ha, hb⟩
      exact ⟨mid, ⟨hstart, hle, ha⟩, hb⟩
    · rintro ⟨mid, ⟨hstart, hle, ha⟩, hb⟩
      exact ⟨hstart, hle, mid, ha, hb⟩

theorem Chained.le (h : Chained start stop lo l hi) : lo ≤ hi := by
  induction l generalizing lo with
  | nil => exact le_of_eq h
  | cons x l ih =>
    have := ih h.2.2
    have := h.2.1
    omega

theorem Chained.bounds (h : Chained start stop lo l hi) (hx : x ∈ l) :
    lo ≤ start x ∧ start x ≤ stop x ∧ stop x ≤ hi := by
  rcases append_of_mem hx with ⟨a, b, rfl⟩
  rcases chained_append.mp h with ⟨mid, ha, hstart, hle, hb⟩
  have := ha.le
  have := hb.le
  omega

/-- An element may be exchanged for one with the same ends. -/
theorem Chained.exchange (h : Chained start stop lo (a ++ x :: b) hi) (hstart : start y = start x)
    (hstop : stop y = stop x) : Chained start stop lo (a ++ y :: b) hi := by
  rcases chained_append.mp h with ⟨mid, ha, hx, hle, hb⟩
  refine chained_append.mpr ⟨mid, ha, hstart.trans hx, ?_, ?_⟩
  · rw [hstop]
    exact hle
  · rw [hstop]
    exact hb

/-- All elements may be exchanged for ones with the same ends. -/
theorem Chained.map {f : α → α} (h : Chained start stop lo l hi)
    (hf : ∀ x ∈ l, start (f x) = start x ∧ stop (f x) = stop x) :
    Chained start stop lo (l.map f) hi := by
  induction l generalizing lo with
  | nil => exact h
  | cons x l ih =>
    have hx := hf x mem_cons_self
    refine ⟨hx.1.trans h.1, le_of_le_of_eq h.2.1 hx.2.symm, ?_⟩
    rw [hx.2]
    exact ih h.2.2 fun y hy => hf y (mem_cons_of_mem x hy)

theorem Chained.pairwise (h : Chained start stop lo l hi) :
    l.Pairwise fun x y => stop x ≤ start y := by
  induction l generalizing lo with
  | nil => exact Pairwise.nil
  | cons x l ih => exact pairwise_cons.mpr ⟨fun y hy => (h.2.2.bounds hy).1, ih h.2.2⟩

/-- What is put into chained boxes in order is in order throughout. -/
theorem Chained.spaced {β : Type} {base last : β → Nat} {items : α → List β}
    (h : Chained start stop lo l hi) (hspaced : ∀ x ∈ l, Spaced base last (items x))
    (hin : ∀ x ∈ l, ∀ b ∈ items x, start x ≤ base b ∧ last b < stop x) :
    Spaced base last (l.flatMap items) := by
  induction l generalizing lo with
  | nil => exact Spaced.nil
  | cons x l ih =>
    rw [flatMap_cons]
    refine spaced_append.mpr ⟨hspaced x mem_cons_self,
      ih h.2.2 (fun y hy => hspaced y (mem_cons_of_mem x hy))
        (fun y hy => hin y (mem_cons_of_mem x hy)), ?_⟩
    intro b hb c hc
    rcases mem_flatMap.mp hc with ⟨y, hy, hcy⟩
    have hbef := (hin x mem_cons_self b hb).2
    have haft := (hin y (mem_cons_of_mem x hy) c hcy).1
    have := (h.2.2.bounds hy).1
    omega

end Pepper
