import Mathlib.Data.List.Basic

/-!
# Ranks in a List

The element of a list at a rank that may lie outside it, on either side. It is
what a walk through an ordered structure by rank differences computes: the
difference may be negative, and a rank below zero or past the end has no
element.

## Main definitions

* `atRank`: The element at a rank.

## Theorems

* `atRank_left`, `atRank_mid`, `atRank_right`: A list split at an element.
* `atRank_eq_none`: The ranks outside the list.
* `drop_eq_cons_of_atRank`: The element and what follows it.
-/

namespace Lib

variable {α β : Type}

/-- The element of a list at a rank, if it is a rank of the list. -/
def atRank (l : List α) (i : Int) : Option α := if i < 0 then none else l[i.toNat]?

theorem atRank_of_nonneg (l : List α) {i : Int} (h : 0 ≤ i) : atRank l i = l[i.toNat]? :=
  if_neg (Int.not_lt.mpr h)

theorem atRank_eq_none {l : List α} {i : Int} (h : i < 0 ∨ (l.length : Int) ≤ i) :
    atRank l i = none := by
  rw [atRank]
  by_cases hneg : i < 0
  · rw [if_pos hneg]
  · rw [if_neg hneg, List.getElem?_eq_none]
    omega

/-! ## A list split at an element -/

variable {xs ys : List α} {a : α} {i : Int}

theorem atRank_left (h : i < xs.length) : atRank (xs ++ a :: ys) i = atRank xs i := by
  rw [atRank, atRank]
  by_cases hneg : i < 0
  · rw [if_pos hneg, if_pos hneg]
  · rw [if_neg hneg, if_neg hneg, List.getElem?_append_left (by omega)]

theorem atRank_mid (h : i = xs.length) : atRank (xs ++ a :: ys) i = some a := by
  rw [h, atRank_of_nonneg _ (Int.natCast_nonneg _), Int.toNat_natCast,
    List.getElem?_append_right (Nat.le_refl _), Nat.sub_self, List.getElem?_cons_zero]

theorem atRank_right (h : xs.length < i) :
    atRank (xs ++ a :: ys) i = atRank ys (i - (xs.length + 1)) := by
  rw [atRank_of_nonneg _ (by omega), atRank_of_nonneg _ (by omega),
    List.getElem?_append_right (by omega)]
  have hsub : i.toNat - xs.length = (i - (xs.length + 1)).toNat + 1 := by omega
  rw [hsub, List.getElem?_cons_succ]

/-- The ranks of a middle part. -/
theorem atRank_append {zs : List α} (h0 : 0 ≤ i) (h : i < ys.length) :
    atRank (xs ++ ys ++ zs) (xs.length + i) = atRank ys i := by
  rw [atRank_of_nonneg _ (by omega), atRank_of_nonneg _ h0, List.append_assoc,
    List.getElem?_append_right (by omega), List.getElem?_append_left (by omega)]
  have hsub : (xs.length + i).toNat - xs.length = i.toNat := by omega
  rw [hsub]

/-- The element at a rank, and what follows it. -/
theorem drop_eq_cons_of_atRank {l : List α} (h : atRank l i = some a) :
    0 ≤ i ∧ l.drop i.toNat = a :: l.drop (i.toNat + 1) := by
  rw [atRank] at h
  by_cases hneg : i < 0
  · rw [if_pos hneg] at h
    cases h
  · rw [if_neg hneg] at h
    rcases List.getElem?_eq_some_iff.mp h with ⟨hlt, rfl⟩
    exact ⟨Int.not_lt.mp hneg, List.drop_eq_getElem_cons hlt⟩

end Lib
