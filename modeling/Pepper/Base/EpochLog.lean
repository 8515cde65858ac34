import Mathlib

/-!
# Logs with Epochs

What a family of replicated logs has to keep so that an election by the
greatest last entry never loses a committed prefix.

Entries are arbitrary; only an `epoch` of each is read. The two relations
carry the whole argument. `Coherent` says that an entry of one log and an
entry of the same epoch at or after it in another log force the logs to share
everything up to the first: within an epoch, logs only ever copy one leader.
`Owns` says that a log contains every entry of a given epoch that exists
anywhere, which is what lets its owner add another one.

## Main definitions

* `EpochSorted`: Epochs never decrease along a log.
* `Coherent`: Entries of one epoch fix the log before them.
* `Owns`: A log has every entry of an epoch that another log has.
* `lastKey`: The epoch and position an election compares.

## Theorems

* `coherent_prefix_mono`: Cutting logs keeps coherence.
* `coherent_concat_left`, `coherent_concat_right`: The owner of an epoch can
  extend its log within that epoch.
* `prefix_of_lastKey_le`: A log whose last key is at least that of a log with
  the committed prefix has the committed prefix.
-/

namespace Pepper

namespace EpochLog

open List

variable {α : Type} (epoch : α → Nat)

/-- Epochs never decrease along the log. -/
def EpochSorted (log : List α) : Prop :=
  ∀ (i j : Nat) (x y : α), i ≤ j → log[i]? = some x → log[j]? = some y → epoch x ≤ epoch y

/-- An entry of `a` and an entry of the same epoch at or after it in `b` force
    the two logs to share everything up to the entry of `a`. -/
def Coherent (a b : List α) : Prop :=
  ∀ (i j : Nat) (x y : α), i ≤ j → a[i]? = some x → b[j]? = some y → epoch x = epoch y →
    b.take (i + 1) = a.take (i + 1)

/-- Every entry of epoch `e` in `a` stands at the same place in `owner`. -/
def Owns (e : Nat) (owner a : List α) : Prop :=
  ∀ (i : Nat) (x : α), a[i]? = some x → epoch x = e → owner[i]? = some x

/-- The epoch and position of the last entry, and zeros for an empty log. -/
def lastKey (log : List α) : Nat ×ₗ Nat :=
  match log.getLast? with
  | none => toLex (0, 0)
  | some x => toLex (epoch x, log.length - 1)

variable {a b p : List α} {i n : Nat} {x y : α}

theorem lt_length_of_getElem? (h : a[i]? = some x) : i < a.length :=
  (List.getElem?_eq_some_iff.mp h).1

theorem prefix_getElem? (h : a <+: b) (hx : a[i]? = some x) : b[i]? = some x := by
  rcases h with ⟨t, rfl⟩
  rw [getElem?_append_left (lt_length_of_getElem? hx), hx]

theorem prefix_take_eq (h : a <+: b) (hn : n ≤ a.length) : b.take n = a.take n := by
  rw [prefix_iff_eq_take.mp h, take_take, min_eq_left hn]

/-- What a log shares with `b` survives when the log is replaced by a cut of `b`
    that it did not have. -/
theorem prefix_take_of_not_prefix (hpb : p <+: b) (hpa : p <+: a) (hnot : ¬ b.take n <+: a) :
    p <+: b.take n := by
  rw [prefix_take_iff]
  refine ⟨hpb, ?_⟩
  by_contra hlen
  refine hnot (List.IsPrefix.trans ?_ hpa)
  rw [prefix_take_eq hpb (by omega)]
  exact take_prefix _ _

/-- The entry just past a log that was extended by one is the new one, and
    every earlier entry is the old one. -/
theorem getElem?_concat_cases (h : (a ++ [y])[i]? = some x) :
    a[i]? = some x ∨ i = a.length ∧ x = y := by
  rcases Nat.lt_or_ge i a.length with hi | hi
  · rw [getElem?_append_left hi] at h
    exact Or.inl h
  · have hlen := lt_length_of_getElem? h
    rw [length_append, length_singleton] at hlen
    have hi' : i = a.length := by omega
    subst hi'
    rw [getElem?_concat_length, Option.some.injEq] at h
    exact Or.inr ⟨rfl, h.symm⟩

variable {epoch}

theorem epochSorted_prefix_mono (hb : EpochSorted epoch b) (h : a <+: b) : EpochSorted epoch a :=
  fun i j x y hij hx hy =>
    hb i j x y hij (prefix_getElem? h hx) (prefix_getElem? h hy)

theorem epochSorted_concat (ha : EpochSorted epoch a) (hy : ∀ x ∈ a, epoch x ≤ epoch y) :
    EpochSorted epoch (a ++ [y]) := by
  intro i j x z hij hx hz
  rcases getElem?_concat_cases hx with hxa | ⟨hi, rfl⟩
  · rcases getElem?_concat_cases hz with hza | ⟨hj, rfl⟩
    · exact ha i j x z hij hxa hza
    · exact hy x (mem_of_getElem? hxa)
  · rcases getElem?_concat_cases hz with hz | ⟨hj, rfl⟩
    · have := lt_length_of_getElem? hz
      omega
    · exact le_rfl

/-- Later entries than a prefix ends with lie behind it, so a cut that contains
    one contains the prefix. -/
theorem prefix_take_of_later (hpb : p <+: b) (hb : EpochSorted epoch b) {c : α}
    (hc : p.getLast? = some c) (hy : y ∈ b.take n) (hlt : epoch c < epoch y) : p <+: b.take n := by
  rw [prefix_take_iff]
  refine ⟨hpb, ?_⟩
  by_contra hlen
  rcases mem_iff_getElem?.mp hy with ⟨j, hj⟩
  have hjn := lt_length_of_getElem? hj
  rw [length_take] at hjn
  rw [getLast?_eq_getElem?] at hc
  have hle := hb j (p.length - 1) y c (by omega) (prefix_getElem? ( take_prefix n b) hj)
    (prefix_getElem? hpb hc)
  omega

theorem coherent_refl (a : List α) : Coherent epoch a a :=
  fun _ _ _ _ _ _ _ _ => rfl

/-- Cutting both logs keeps coherence: an entry that survives the cut has all
    of its log before it. -/
theorem coherent_prefix_mono {a' b' : List α} (h : Coherent epoch a b) (ha : a' <+: a)
    (hb : b' <+: b) : Coherent epoch a' b' := by
  intro i j x y hij hx hy he
  have hi := lt_length_of_getElem? hx
  have hj := lt_length_of_getElem? hy
  have heq := h i j x y hij (prefix_getElem? ha hx) (prefix_getElem? hb hy) he
  rw [prefix_take_eq ha (by omega), prefix_take_eq hb (by omega)] at heq
  exact heq

/-- The owner of an epoch extends its log within the epoch; seen from another
    log as the shorter one. -/
theorem coherent_concat_right {owner : List α} (h : Coherent epoch a owner)
    (hown : Owns epoch (epoch y) owner a) : Coherent epoch a (owner ++ [y]) := by
  intro i j x z hij hx hz he
  rcases getElem?_concat_cases hz with hz | ⟨_, rfl⟩
  · have hj := lt_length_of_getElem? hz
    rw [take_append_of_le_length (by omega)]
    exact h i j x z hij hx hz he
  · have hox := hown i x hx he
    have hi := lt_length_of_getElem? hox
    rw [take_append_of_le_length (by omega)]
    exact h i i x x le_rfl hx hox rfl

/-- The owner of an epoch extends its log within the epoch; seen from another
    log as the longer one. -/
theorem coherent_concat_left {owner : List α} (h : Coherent epoch owner b)
    (hown : Owns epoch (epoch y) owner b) : Coherent epoch (owner ++ [y]) b := by
  intro i j x z hij hx hz he
  rcases getElem?_concat_cases hx with hx | ⟨hi, rfl⟩
  · have hi := lt_length_of_getElem? hx
    rw [take_append_of_le_length (by omega)]
    exact h i j x z hij hx hz he
  · -- The owner would already hold `z` at `j`, past its own end.
    have hj := lt_length_of_getElem? (hown j z hz he.symm)
    omega

theorem lastKey_of_getLast? {log : List α} (h : log.getLast? = some x) :
    lastKey epoch log = toLex (epoch x, log.length - 1) := by
  simp only [lastKey, h]

/-- A log whose last key is at least that of a log `v` with the prefix `p` has
    the prefix too. Either its last entry is of a later epoch than `p`, and
    `hlater` applies, or it is of the epoch `p` ends in and stands no earlier,
    and coherence with `v` applies. -/
theorem prefix_of_lastKey_le {v d : List α} (hpv : p <+: v) (hsorted : EpochSorted epoch v)
    (hpos : ∀ x ∈ v, 0 < epoch x) (hco : Coherent epoch v d)
    (hlast : ∀ c ∈ p.getLast?, ∀ y ∈ d, epoch c < epoch y → p <+: d)
    (hle : lastKey epoch v ≤ lastKey epoch d) : p <+: d := by
  rcases hp : p.getLast? with _ | c
  · rw [getLast?_eq_none_iff.mp hp]
    exact nil_prefix
  have hplen : 0 < p.length := by
    rcases p with _ | ⟨a, l⟩
    · exact absurd hp (by simp)
    · exact Nat.succ_pos _
  have hcv : v[p.length - 1]? = some c :=
    prefix_getElem? hpv (by rw [← getLast?_eq_getElem?, hp])
  have hvlen := lt_length_of_getElem? hcv
  rcases hv : v.getLast? with _ | x
  · rw [getLast?_eq_none_iff.mp hv, length_nil] at hvlen
    omega
  have hxv : v[v.length - 1]? = some x := by rw [← getLast?_eq_getElem?, hv]
  -- The last entry of `p` is no later than that of `v`, and so than that of `d`.
  have hcx : epoch c ≤ epoch x := hsorted _ _ c x (by omega) hcv hxv
  have hxpos := hpos x (mem_of_getElem? hxv)
  rw [lastKey_of_getLast? hv] at hle
  rcases hd : d.getLast? with _ | y
  · simp only [lastKey, hd, Prod.Lex.toLex_le_toLex] at hle
    omega
  have hyd : d[d.length - 1]? = some y := by rw [← getLast?_eq_getElem?, hd]
  rw [lastKey_of_getLast? hd, Prod.Lex.toLex_le_toLex] at hle
  by_cases hcy : epoch c < epoch y
  · exact hlast c hp y (mem_of_getElem? hyd) hcy
  · have htake := hco (p.length - 1) (d.length - 1) c y (by omega) hcv hyd (by omega)
    rw [Nat.sub_add_cancel hplen, prefix_take_eq hpv le_rfl, take_length] at htake
    rw [← htake]
    exact take_prefix _ _

end EpochLog

end Pepper
