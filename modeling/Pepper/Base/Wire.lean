import Pepper.Base.Bytes
import Pepper.Base.Collections

/-!
# Serialized Values

A serialization writes a value as bytes and reads bytes back. `Serde` is any
such pair of functions for which what was written is read back. Reading may
accept more than what is ever written, and a reader that wants one byte string
for a value has to compare.

`Wire` is a way to get one: a code that says where it ends, so that codes can be
put one behind the other. It is here to have serializations of structured
values at hand that evaluate, and whose law holds by construction.

## Main definitions

* `Serde`: A serialization.
* `Wire`: A self-delimiting code, with `Wire.nat`, `Wire.byte`, `Wire.pair`,
  `Wire.sum`, `Wire.list`, `Wire.option`, `Wire.map` to build them.
* `Wire.serde`: The serialization of a code.

## Theorems

* `Serde.toVec_injective`: Different values have different bytes.
-/

namespace Pepper

open List

/-- Writing a value as bytes and reading it back. -/
structure Serde (α : Type) where
  toVec : α → Bytes
  fromSlice : Bytes → Except String α
  fromSlice_toVec : ∀ a, fromSlice (toVec a) = .ok a

theorem Serde.toVec_injective {α : Type} (serde : Serde α) : Function.Injective serde.toVec := by
  intro a b h
  have hread := serde.fromSlice_toVec a
  rw [h, serde.fromSlice_toVec b] at hread
  exact (Except.ok.inj hread).symm

/-- A code that says where it ends. -/
structure Wire (α : Type) where
  write : α → Bytes
  read : Bytes → Option (α × Bytes)
  read_write : ∀ a rest, read (write a ++ rest) = some (a, rest)

namespace Wire

variable {α β : Type}

def byte : Wire UInt8 where
  write b := [b]
  read
    | b :: rest => some (b, rest)
    | [] => none
  read_write _ _ := rfl

/-- Seven bits of a number in a byte, low ones first. The eighth bit says that
    there are more. The first argument bounds the number of bytes. -/
def writeNat : Nat → Nat → Bytes
  | 0, n => [UInt8.ofNat n]
  | fuel + 1, n =>
    if n < 128 then [UInt8.ofNat n] else UInt8.ofNat (128 + n % 128) :: writeNat fuel (n / 128)

def readNat : Bytes → Option (Nat × Bytes)
  | [] => none
  | b :: rest =>
    if b.toNat < 128 then some (b.toNat, rest)
    else (readNat rest).map fun r => (b.toNat - 128 + 128 * r.1, r.2)

theorem readNat_writeNat (fuel n : Nat) (rest : Bytes) (h : n ≤ fuel) :
    readNat (writeNat fuel n ++ rest) = some (n, rest) := by
  induction fuel generalizing n with
  | zero =>
    rw [Nat.le_zero.mp h]
    rfl
  | succ fuel ih =>
    rw [writeNat]
    by_cases hn : n < 128
    · have hbyte : (UInt8.ofNat n).toNat = n := UInt8.toNat_ofNat_of_lt (by change n < 256; omega)
      rw [if_pos hn, singleton_append, readNat, hbyte, if_pos hn]
    · have hbyte : (UInt8.ofNat (128 + n % 128)).toNat = 128 + n % 128 :=
        UInt8.toNat_ofNat_of_lt (by change 128 + n % 128 < 256; omega)
      rw [if_neg hn, cons_append, readNat, hbyte, if_neg (by omega), ih (n / 128) (by omega)]
      simp only [Option.map_some, Option.some.injEq, Prod.mk.injEq, and_true]
      omega

def nat : Wire Nat where
  write n := writeNat n n
  read := readNat
  read_write n rest := readNat_writeNat n n rest le_rfl

def pair (first : Wire α) (second : Wire β) : Wire (α × β) where
  write ab := first.write ab.1 ++ second.write ab.2
  read bytes := do
    let (a, bytes) ← first.read bytes
    let (b, bytes) ← second.read bytes
    return ((a, b), bytes)
  read_write ab rest := by
    rw [append_assoc, first.read_write]
    show (second.read (second.write ab.2 ++ rest)).bind _ = _
    rw [second.read_write]
    rfl

/-- Code a value by another one from which it can be recovered. -/
def map (code : Wire α) (into : β → α) (back : α → β) (h : ∀ b, back (into b) = b) : Wire β where
  write b := code.write (into b)
  read bytes := (code.read bytes).map fun r => (back r.1, r.2)
  read_write b rest := by
    rw [code.read_write, Option.map_some, h]

def readList (code : Wire α) : Nat → Bytes → Option (List α × Bytes)
  | 0, bytes => some ([], bytes)
  | n + 1, bytes => do
      let (a, bytes) ← code.read bytes
      let (rest, bytes) ← readList code n bytes
      return (a :: rest, bytes)

theorem readList_flatMap (code : Wire α) (items : List α) (rest : Bytes) :
    readList code items.length (items.flatMap code.write ++ rest) = some (items, rest) := by
  induction items with
  | nil => rfl
  | cons a items ih =>
    rw [flatMap_cons, append_assoc, length_cons, readList, code.read_write]
    show (readList code items.length (items.flatMap code.write ++ rest)).bind _ = _
    rw [ih]
    rfl

/-- The length of a list and its items. -/
def list (code : Wire α) : Wire (List α) where
  write items := nat.write items.length ++ items.flatMap code.write
  read bytes := (nat.read bytes).bind fun r => readList code r.1 r.2
  read_write items rest := by
    rw [append_assoc, nat.read_write]
    exact readList_flatMap code items rest

/-- An optional value as a list of at most one. -/
def option (code : Wire α) : Wire (Option α) :=
  (list code).map Option.toList List.head? fun o => by cases o <;> rfl

def string : Wire String :=
  (list nat).map (fun text => text.toList.map Char.toNat)
    (fun codes => String.ofList (codes.map Char.ofNat)) fun text => by
      rw [map_map, show Char.ofNat ∘ Char.toNat = id from funext Char.ofNat_toNat, map_id,
        String.ofList_toList]

/-- A byte says which of the two codes follows. -/
def sum (left : Wire α) (right : Wire β) : Wire (α ⊕ β) where
  write
    | .inl a => 0 :: left.write a
    | .inr b => 1 :: right.write b
  read
    | [] => none
    | tag :: bytes =>
      if tag = 0 then (left.read bytes).map fun r => (.inl r.1, r.2)
      else (right.read bytes).map fun r => (.inr r.1, r.2)
  read_write ab rest := by
    cases ab with
    | inl a => simp [left.read_write]
    | inr b => simp [right.read_write]

/-- An integer as what it is above zero and below. -/
def int : Wire Int :=
  (nat.pair nat).map (fun i => (i.toNat, (-i).toNat)) (fun parts => (parts.1 : Int) - parts.2)
    fun i => by omega

/-- An ordered map as the list of its entries. -/
def btreeMap [DecidableEq α] [Ord α] [Std.TransOrd α] [Std.LawfulEqOrd α] (key : Wire α)
    (value : Wire β) : Wire (BTreeMap α β) :=
  (list (key.pair value)).map Std.ExtTreeMap.toList (fun entries => Std.ExtTreeMap.ofList entries)
    fun t => by
      apply Std.ExtTreeMap.ext_getElem?
      intro k
      cases h : t[k]? with
      | some v =>
        have hmem : (k, v) ∈ t.toList := Std.ExtTreeMap.mem_toList_iff_getElem?_eq_some.mpr h
        exact Std.ExtTreeMap.getElem?_ofList_of_mem Std.ReflCmp.compare_self
          t.distinct_keys_toList hmem
      | none =>
        apply Std.ExtTreeMap.getElem?_ofList_of_contains_eq_false
        rw [Std.ExtTreeMap.map_fst_toList_eq_keys, ← Bool.not_eq_true, contains_iff_mem,
          Std.ExtTreeMap.mem_keys, Std.ExtTreeMap.mem_iff_isSome_getElem?, h]
        exact Bool.false_ne_true

/-- The serialization of a code: nothing may follow the value. -/
def serde (code : Wire α) : Serde α where
  toVec := code.write
  fromSlice bytes :=
    match code.read bytes with
    | some (a, []) => .ok a
    | some (_, _ :: _) => .error "trailing characters"
    | none => .error "EOF while parsing a value"
  fromSlice_toVec a := by
    have hread := code.read_write a []
    rw [append_nil] at hread
    rw [hread]

end Wire

end Pepper
