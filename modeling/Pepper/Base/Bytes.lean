import Mathlib

/-!
# Byte Strings

The vocabulary of binary formats: fixed-width little-endian numbers, reading
and overwriting a range, and what an interrupted write leaves behind.

A write that was cut off has replaced some of the zeros it was made over and
not others. `Torn` says that of two byte strings: each byte is the one that was
written, or still zero. Cutting a string off at a position and filling up with
zeros is the special case `zeroFrom`.

## Main definitions

* `Bytes`: A byte string.
* `le`, `ofLe`: Little-endian numbers.
* `slice`, `patch`, `readAt`: Reading and overwriting a range.
* `patchAll`, `Laid`: A layout of fields.
* `Torn`, `zeroFrom`: A byte string of which some bytes are still zero.

## Theorems

* `ofLe_le_mod`, `ofLe_le`: A number is read back modulo its width.
* `slice_patch_self`, `slice_patch_left`, `slice_patch_right`: Reading after an
  overwrite.
* `slice_patchAll`, `slice_patchAll_gap`: Reading the fields of a layout, and
  what is between them.
* `patch_zeros`: Overwriting the zeros after a string appends to it.
* `Torn.append`, `torn_append`: Tearing is part by part.
* `zeroFrom_torn`: Cutting off is a case of tearing.
-/

namespace Pepper

open List

/-- The order of bytes by their numbers. -/
instance instLinearOrderUInt8 : LinearOrder UInt8 where
  le_refl := UInt8.le_refl
  le_trans := fun _ _ _ => UInt8.le_trans
  le_antisymm := fun _ _ => UInt8.le_antisymm
  lt_iff_le_not_ge := fun _ _ => @lt_iff_le_not_ge ℕ _ _ _
  le_total := UInt8.le_total
  toDecidableLE := inferInstance
  toDecidableEq := inferInstance
  toDecidableLT := inferInstance

/-- A byte string. -/
abbrev Bytes := List UInt8

namespace Bytes

def zeros (n : Nat) : Bytes :=
  List.replicate n 0

/-- The low bytes of a number, the lowest first. -/
def le : Nat → Nat → Bytes
  | 0, _ => []
  | width + 1, n => UInt8.ofNat n :: le width (n / 256)

def ofLe : Bytes → Nat
  | [] => 0
  | b :: rest => b.toNat + 256 * ofLe rest

def slice (bytes : Bytes) (offset length : Nat) : Bytes :=
  (bytes.drop offset).take length

/-- Overwrite the bytes from an offset on. -/
def patch (bytes : Bytes) (offset : Nat) (data : Bytes) : Bytes :=
  bytes.take offset ++ data ++ bytes.drop (offset + data.length)

/-- Fill in fields, each with the offset where it starts. -/
def patchAll (bytes : Bytes) (fields : List (Nat × Bytes)) : Bytes :=
  fields.foldl (fun bytes field => patch bytes field.1 field.2) bytes

/-- The fields lie one after the other within a length. -/
def Laid (fields : List (Nat × Bytes)) (length : Nat) : Prop :=
  fields.Pairwise (fun f g => f.1 + f.2.length ≤ g.1) ∧ ∀ f ∈ fields, f.1 + f.2.length ≤ length

/-- The bytes of a range that lies within the string. -/
def readAt (bytes : Bytes) (offset length : Nat) : Option Bytes :=
  if offset + length ≤ bytes.length then some (slice bytes offset length) else none

/-- Each byte is the one that was written, or zero. -/
def Torn (written found : Bytes) : Prop :=
  List.Forall₂ (fun t b => t = b ∨ t = 0) found written

/-- The bytes from a position on are replaced by zeros. -/
def zeroFrom (position : Nat) (bytes : Bytes) : Bytes :=
  bytes.take position ++ zeros (bytes.length - position)

/-! ## Numbers -/

@[simp] theorem length_zeros (n : Nat) : (zeros n).length = n :=
  length_replicate

theorem zeros_append (m n : Nat) : zeros m ++ zeros n = zeros (m + n) :=
  replicate_append_replicate

theorem drop_zeros (m n : Nat) : (zeros n).drop m = zeros (n - m) :=
  drop_replicate

theorem take_zeros (m n : Nat) : (zeros n).take m = zeros (min m n) :=
  take_replicate

theorem getD_zeros (n i : Nat) : (zeros n).getD i 0 = 0 := by
  rw [zeros, getD_eq_getElem?_getD, getElem?_replicate]
  by_cases h : i < n
  · rw [if_pos h]
    rfl
  · rw [if_neg h]
    rfl

@[simp] theorem length_le (width n : Nat) : (le width n).length = width := by
  induction width generalizing n with
  | zero => rfl
  | succ width ih => rw [le, length_cons, ih]

/-- A number is read back modulo its width. -/
theorem ofLe_le_mod (width n : Nat) : ofLe (le width n) = n % 256 ^ width := by
  induction width generalizing n with
  | zero => rw [le, ofLe, pow_zero, Nat.mod_one]
  | succ width ih =>
    have hpow : 256 ^ (width + 1) = 256 * 256 ^ width := pow_succ' 256 width
    rw [le, ofLe, ih, UInt8.toNat_ofNat', hpow, Nat.mod_mul]

variable {n offset o : Nat} {bytes data a b t : Bytes} {fields : List (Nat × Bytes)}

theorem ofLe_le {width : Nat} (h : n < 256 ^ width) : ofLe (le width n) = n := by
  rw [ofLe_le_mod, Nat.mod_eq_of_lt h]

/-! ## Ranges -/

theorem length_patch (h : offset + data.length ≤ bytes.length) :
    (patch bytes offset data).length = bytes.length := by
  simp only [patch, length_append, length_take, length_drop]
  omega

theorem slice_patch_self (h : offset ≤ bytes.length) :
    slice (patch bytes offset data) offset data.length = data := by
  have hlen : (bytes.take offset).length = offset := length_take_of_le h
  rw [slice, patch, append_assoc, drop_left' hlen, take_left]

/-- A range before the overwritten one. -/
theorem slice_patch_left (h : o + n ≤ offset) (hoff : offset ≤ bytes.length) :
    slice (patch bytes offset data) o n = slice bytes o n := by
  have hlen : (bytes.take offset).length = offset := length_take_of_le hoff
  rw [slice, slice, patch, append_assoc, drop_append_of_le_length (by omega),
    take_append_of_le_length (by rw [length_drop]; omega), drop_take,
    take_take]
  congr 1
  omega

/-- A range after the overwritten one. -/
theorem slice_patch_right (h : offset + data.length ≤ o) (hoff : offset ≤ bytes.length) :
    slice (patch bytes offset data) o n = slice bytes o n := by
  have hlen : (bytes.take offset ++ data).length = offset + data.length := by
    rw [length_append, length_take_of_le hoff]
  rw [slice, slice, patch, drop_append, drop_of_length_le (by omega), nil_append, drop_drop, hlen]
  congr 2
  omega

/-- Of two writes to one range the second counts. -/
theorem patch_patch {data' : Bytes} (h : offset ≤ bytes.length)
    (hlen : data'.length = data.length) :
    patch (patch bytes offset data) offset data' = patch bytes offset data' := by
  have htake : (bytes.take offset).length = offset := length_take_of_le h
  have hboth : (bytes.take offset ++ data).length = offset + data'.length := by
    rw [length_append, htake, hlen]
  unfold patch
  rw [drop_left' hboth, append_assoc (bytes.take offset), take_left' htake, hlen]

/-- Writing what is there changes nothing. -/
theorem patch_slice (h : slice bytes offset data.length = data) :
    patch bytes offset data = bytes := by
  have hdrop : data ++ bytes.drop (offset + data.length) = bytes.drop offset := by
    have hsplit := take_append_drop data.length (bytes.drop offset)
    rw [← slice, h, drop_drop] at hsplit
    exact hsplit
  rw [patch, append_assoc, hdrop, take_append_drop]

theorem getD_of_slice {b : UInt8} (h : slice bytes o 1 = [b]) : bytes.getD o 0 = b := by
  rw [slice] at h
  rcases hdrop : bytes.drop o with _ | ⟨c, rest⟩
  · rw [hdrop] at h
    exact absurd h (by simp only [take_nil, nil_eq, reduceCtorEq, not_false_eq_true])
  · rw [hdrop, take_succ_cons, take_zero, List.cons.injEq] at h
    have hget : bytes[o]? = some c := by
      rw [← head?_drop, hdrop, head?_cons]
    rw [getD_eq_getElem?_getD, hget, Option.getD_some]
    exact h.1

theorem length_patchAll (h : ∀ f ∈ fields, f.1 + f.2.length ≤ bytes.length) :
    (patchAll bytes fields).length = bytes.length := by
  induction fields generalizing bytes with
  | nil => rfl
  | cons f fields ih =>
    have hf := length_patch (h f mem_cons_self)
    rw [patchAll, foldl_cons, ← patchAll, ih, hf]
    intro g hg
    rw [hf]
    exact h g (mem_cons_of_mem f hg)

/-- A range that no field touches is as before. -/
theorem slice_patchAll_gap (hfit : ∀ f ∈ fields, f.1 + f.2.length ≤ bytes.length)
    (hgap : ∀ f ∈ fields, o + n ≤ f.1 ∨ f.1 + f.2.length ≤ o) :
    slice (patchAll bytes fields) o n = slice bytes o n := by
  induction fields generalizing bytes with
  | nil => rfl
  | cons f fields ih =>
    have hf := hfit f mem_cons_self
    rw [patchAll, foldl_cons, ← patchAll, ih]
    · rcases hgap f mem_cons_self with h | h
      · exact slice_patch_left h (by omega)
      · exact slice_patch_right h (by omega)
    · intro g hg
      rw [length_patch hf]
      exact hfit g (mem_cons_of_mem f hg)
    · intro g hg
      exact hgap g (mem_cons_of_mem f hg)

/-- A field is read back. -/
theorem slice_patchAll (h : Laid fields bytes.length) {f : Nat × Bytes} (hf : f ∈ fields) :
    slice (patchAll bytes fields) f.1 f.2.length = f.2 := by
  induction fields generalizing bytes with
  | nil => cases hf
  | cons g fields ih =>
    rcases h with ⟨hdisjoint, hfit⟩
    rw [pairwise_cons] at hdisjoint
    have hg := hfit g mem_cons_self
    have hrest : ∀ f ∈ fields, f.1 + f.2.length ≤ (patch bytes g.1 g.2).length := by
      intro f hf
      rw [length_patch hg]
      exact hfit f (mem_cons_of_mem g hf)
    rw [patchAll, foldl_cons, ← patchAll]
    rcases mem_cons.mp hf with rfl | hf
    · -- The later fields start after this one.
      rw [slice_patchAll_gap hrest fun k hk => Or.inl (hdisjoint.1 k hk)]
      exact slice_patch_self (by omega)
    · exact ih ⟨hdisjoint.2, hrest⟩ hf

theorem slice_append_right (a b : Bytes) (o n : Nat) :
    slice (a ++ b) (a.length + o) n = slice b o n := by
  rw [slice, slice, drop_append, drop_of_length_le (Nat.le_add_right _ _),
    nil_append, Nat.add_sub_cancel_left]

/-- The part in the middle of three. -/
theorem slice_middle {c : Bytes} (ho : o = a.length) (hn : n = b.length) :
    slice (a ++ (b ++ c)) o n = b := by
  subst ho
  subst hn
  rw [slice, drop_left, take_left]

theorem length_slice (h : o + n ≤ bytes.length) : (slice bytes o n).length = n := by
  rw [slice, length_take_of_le]
  rw [length_drop]
  omega

theorem readAt_eq (h : o + n ≤ bytes.length) : readAt bytes o n = some (slice bytes o n) :=
  if_pos h

/-- Overwriting the zeros after a string appends to the string. -/
theorem patch_zeros :
    patch (a ++ zeros n) a.length data = a ++ data ++ zeros (n - data.length) := by
  rw [patch, take_left, drop_append, drop_of_length_le (Nat.le_add_right _ _),
    nil_append, Nat.add_sub_cancel_left, drop_zeros]

theorem patch_append (a b data : Bytes) (o : Nat) :
    patch (a ++ b) (a.length + o) data = a ++ patch b o data := by
  simp only [patch, take_length_add_append, append_assoc, Nat.add_assoc, drop_length_add_append]

/-! ## Torn writes -/

theorem Torn.refl (bytes : Bytes) : Torn bytes bytes :=
  List.forall₂_same.mpr fun _ _ => Or.inl rfl

theorem Torn.length_eq (h : Torn a t) : t.length = a.length :=
  List.Forall₂.length_eq h

theorem Torn.append {s : Bytes} (h : Torn a s) (h' : Torn b t) : Torn (a ++ b) (s ++ t) :=
  rel_append h h'

theorem torn_append (h : Torn (a ++ b) t) : Torn a (t.take a.length) ∧ Torn b (t.drop a.length) :=
  ⟨List.forall₂_take_append t a b h, List.forall₂_drop_append t a b h⟩

theorem Torn.zeros_eq (h : Torn (zeros n) t) : t = zeros n := by
  have hlen : t.length = n := by
    rw [h.length_eq, length_zeros]
  refine eq_replicate_iff.mpr ⟨hlen, ?_⟩
  intro b hb
  rcases mem_iff_getElem.mp hb with ⟨i, hi, rfl⟩
  have hget := List.Forall₂.get h hi (by rw [length_zeros]; omega)
  simp only [zeros, get_eq_getElem, getElem_replicate, or_self] at hget
  exact hget

theorem torn_zeros (bytes : Bytes) : Torn bytes (zeros bytes.length) := by
  refine List.forall₂_iff_get.mpr ⟨length_zeros _, ?_⟩
  intro i _ _
  simp only [zeros, get_eq_getElem, getElem_replicate, or_true]

variable (position : Nat)

theorem length_zeroFrom (bytes : Bytes) :
    (zeroFrom position bytes).length = bytes.length := by
  rw [zeroFrom, length_append, length_take, length_zeros]
  omega

theorem zeroFrom_append (a b : Bytes) :
    zeroFrom position (a ++ b) = zeroFrom position a ++ zeroFrom (position - a.length) b := by
  unfold zeroFrom
  rw [take_append, length_append]
  by_cases h : position ≤ a.length
  · rw [Nat.sub_eq_zero_of_le h, take_zero, append_nil, nil_append, Nat.sub_zero,
      append_assoc, zeros_append]
    congr 2
    omega
  · have hzero : zeros (a.length - position) = [] := by
      rw [Nat.sub_eq_zero_of_le (by omega)]
      rfl
    have hrest : a.length + b.length - position = b.length - (position - a.length) := by
      omega
    rw [take_of_length_le (by omega), hzero, hrest, append_nil, append_assoc]

/-- Nothing is left but zeros. -/
theorem zeroFrom_zero (bytes : Bytes) : zeroFrom 0 bytes = zeros bytes.length := by
  rw [zeroFrom, take_zero, nil_append, Nat.sub_zero]

theorem zeroFrom_of_le {position : Nat} (h : bytes.length ≤ position) :
    zeroFrom position bytes = bytes := by
  rw [zeroFrom, take_of_length_le h, Nat.sub_eq_zero_of_le h, zeros, replicate_zero, append_nil]

theorem take_zeroFrom (a b : Bytes) :
    (zeroFrom position (a ++ b)).take a.length = zeroFrom position a := by
  rw [zeroFrom_append, take_left' (length_zeroFrom position a)]

theorem drop_zeroFrom (a b : Bytes) :
    (zeroFrom position (a ++ b)).drop a.length = zeroFrom (position - a.length) b := by
  rw [zeroFrom_append, drop_left' (length_zeroFrom position a)]

theorem zeroFrom_torn (bytes : Bytes) : Torn bytes (zeroFrom position bytes) := by
  have hsplit := (Torn.refl (bytes.take position)).append (torn_zeros (bytes.drop position))
  rw [take_append_drop, length_drop] at hsplit
  exact hsplit

theorem torn_slice (h : Torn a t) (o n : Nat) : Torn (slice a o n) (slice t o n) :=
  List.forall₂_take n (List.forall₂_drop o h)

theorem torn_patch (h : Torn a t) (o : Nat) (data : Bytes) :
    Torn (patch a o data) (patch t o data) :=
  (Torn.append (List.forall₂_take o h) (Torn.refl data)).append (List.forall₂_drop _ h)

/-- A torn copy without zeros is complete. -/
theorem Torn.eq_of_filled (h : Torn a t) (hfil : ∀ b ∈ t, b ≠ 0) : t = a := by
  unfold Torn at h
  induction h with
  | nil => rfl
  | cons hbyte _ ih =>
    rw [ih fun b hb => hfil b (mem_cons_of_mem _ hb), hbyte.resolve_right (hfil _ mem_cons_self)]

/-- Overwriting with zeros tears further. -/
theorem Torn.patch_zeros (h : Torn a t) (hn : o + n ≤ a.length) : Torn a (patch t o (zeros n)) := by
  have hlen := h.length_eq
  have hpatch : (patch t o (zeros n)).length = t.length :=
    length_patch (by rw [length_zeros, hlen]; exact hn)
  refine List.forall₂_iff_get.mpr ⟨by rw [hpatch, hlen], ?_⟩
  intro i hi' hi
  have hkept := List.Forall₂.get h (by omega) hi
  simp only [get_eq_getElem] at hkept ⊢
  -- Left of the range and right of it nothing changes; within it there are zeros.
  have hcases : (patch t o (zeros n))[i] = t[i] ∨ (patch t o (zeros n))[i] = 0 := by
    simp only [patch, zeros, length_replicate, append_assoc, getElem_append,
      length_take, getElem_take, getElem_replicate, getElem_drop]
    split
    · exact Or.inl rfl
    · split
      · exact Or.inr rfl
      · left
        congr 1
        omega
  rcases hcases with heq | heq
  · rw [heq]
    exact hkept
  · exact Or.inr heq

end Bytes

end Pepper
