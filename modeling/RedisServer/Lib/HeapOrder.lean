import Mathlib.Order.Defs.LinearOrder
import Mathlib.Order.Basic
import Mathlib.Order.Lattice

/-!
# Heap Order

The order of a binary heap in an array, for keys of any linear order. An array
is a function from positions to keys with a number of positions in use, so
that the facts below speak of the order alone.

A change of one key breaks the order around one position only.
`OrderedExcept` is what remains: every pair away from that position, and the
bridge over it, from its parent to its children. The bridge is what lets the
repair go either way. A sift exchanges the position with its parent or with
its smallest child, and the damage moves along.

## Main definitions

* `parent`: The parent of a position.
* `Ordered`: No key is below its parent's.
* `OrderedExcept`: The order around one position suspended.
* `exchange`: Two keys exchanged.

## Theorems

* `Ordered.root_le`: The root is a minimum.
* `Ordered.change`: A change of one key leaves the order away from it.
* `OrderedExcept.up_step`, `OrderedExcept.up_done`: Sifting up.
* `OrderedExcept.down_step`, `OrderedExcept.down_done`: Sifting down.
-/

namespace Lib

namespace HeapOrder

/-- The parent of a position other than the root. -/
def parent (i : Nat) : Nat := (i - 1) / 2

theorem parent_lt {i : Nat} (hi : 0 < i) : parent i < i := by
  unfold parent
  omega

/-- The children of a position are the two positions after its double. -/
theorem parent_eq_iff {i p : Nat} (hi : 0 < i) : parent i = p ↔ i = p * 2 + 1 ∨ i = p * 2 + 2 := by
  unfold parent
  omega

section

variable {α : Type}

/-- The keys with two of them exchanged. -/
def exchange (f : Nat → α) (i j : Nat) : Nat → α :=
  fun k => if k = i then f j else if k = j then f i else f k

@[simp] theorem exchange_left (f : Nat → α) (i j : Nat) : exchange f i j i = f j := if_pos rfl

@[simp] theorem exchange_right (f : Nat → α) (i j : Nat) : exchange f i j j = f i := by
  unfold exchange
  by_cases h : j = i
  · rw [if_pos h, h]
  · rw [if_neg h, if_pos rfl]

theorem exchange_other (f : Nat → α) {i j k : Nat} (hi : k ≠ i) (hj : k ≠ j) :
    exchange f i j k = f k := by
  rw [exchange, if_neg hi, if_neg hj]

variable [LinearOrder α]

/-- No key in use is below its parent's. -/
def Ordered (f : Nat → α) (n : Nat) : Prop := ∀ i, 0 < i → i < n → f (parent i) ≤ f i

/-- The order holds between every parent and child away from `pos`, and
    across it. -/
structure OrderedExcept (f : Nat → α) (n pos : Nat) : Prop where
  away : ∀ i, 0 < i → i < n → i ≠ pos → parent i ≠ pos → f (parent i) ≤ f i
  across : 0 < pos → ∀ c, 0 < c → c < n → parent c = pos → f (parent pos) ≤ f c

/-- The root is a minimum. -/
theorem Ordered.root_le {f : Nat → α} {n : Nat} (h : Ordered f n) : ∀ i, i < n → f 0 ≤ f i := by
  intro i
  induction i using Nat.strongRecOn with
  | ind i ih =>
      intro hi
      rcases Nat.eq_zero_or_pos i with rfl | hpos
      · exact le_refl _
      · have hlt := parent_lt hpos
        exact (ih (parent i) hlt (by omega)).trans (h i hpos hi)

/-- Keys that agree on the positions in use have the same order. -/
theorem Ordered.congr {f g : Nat → α} {n : Nat} (h : Ordered f n) (hfg : ∀ i < n, g i = f i) :
    Ordered g n := by
  intro i hi hn
  have hlt := parent_lt hi
  rw [hfg i hn, hfg (parent i) (by omega)]
  exact h i hi hn

/-- Giving up positions at the end keeps the order. -/
theorem Ordered.mono {f : Nat → α} {m n : Nat} (h : Ordered f n) (hmn : m ≤ n) : Ordered f m :=
  fun i hi hm => h i hi (Nat.lt_of_lt_of_le hm hmn)

/-- A change of one key leaves the order away from it, and across it. -/
theorem Ordered.change {f g : Nat → α} {n pos : Nat} (h : Ordered f n)
    (hfg : ∀ i < n, i ≠ pos → g i = f i) : OrderedExcept g n pos where
  away := by
    intro i hi hn hne hpne
    have hlt := parent_lt hi
    rw [hfg i hn hne, hfg (parent i) (by omega) hpne]
    exact h i hi hn
  across := by
    intro hpos c hc hn hpc
    have hlt := parent_lt hc
    have hlt' := parent_lt hpos
    rw [hfg c hn (by omega), hfg (parent pos) (by omega) (by omega)]
    have h1 := h c hc hn
    rw [hpc] at h1
    exact (h pos hpos (by omega)).trans h1

/-- A new last position has no child, so only its own pair is suspended. -/
theorem Ordered.append {f g : Nat → α} {n : Nat} (h : Ordered f n) (hfg : ∀ i < n, g i = f i) :
    OrderedExcept g (n + 1) n where
  away := by
    intro i hi hn hne _
    have hlt := parent_lt hi
    rw [hfg i (by omega), hfg (parent i) (by omega)]
    exact h i hi (by omega)
  across := by
    intro _ c hc hn hpc
    have hlt := parent_lt hc
    omega

/-! ## Sifting up -/

/-- The position's parent is larger: exchange them. Its children keep a parent
    that is at most as large as before, and the parent's other child gets a
    smaller one. -/
theorem OrderedExcept.up_step {f : Nat → α} {n pos : Nat} (h : OrderedExcept f n pos)
    (hpos : 0 < pos) (hn : pos < n) (hlt : f pos < f (parent pos)) :
    OrderedExcept (exchange f pos (parent pos)) n (parent pos) ∧
      ∀ c, 0 < c → c < n → parent c = parent pos →
        exchange f pos (parent pos) (parent pos) ≤ exchange f pos (parent pos) c := by
  have hpp := parent_lt hpos
  refine ⟨⟨?_, ?_⟩, ?_⟩
  · intro i hi hin hne hpne
    -- below the exchanged pair the grandparent is in order with what came up
    by_cases hip : i = pos
    · rw [hip] at hpne
      exact absurd rfl hpne
    · rw [exchange_other f hip hne]
      by_cases hpi : parent i = pos
      · rw [hpi, exchange_left]
        exact h.across hpos i hi hin hpi
      · rw [exchange_other f hpi hpne]
        exact h.away i hi hin hip hpi
  · intro hq c hc hcn hpc
    have hqq := parent_lt hq
    rw [exchange_other f (by omega) (by omega)]
    -- the new hole's parent was in order with what was in the hole
    have hgrand := h.away (parent pos) hq (by omega) (by omega) (by omega)
    by_cases hcp : c = pos
    · rw [hcp, exchange_left]
      exact hgrand
    · have hclt := parent_lt hc
      rw [exchange_other f hcp (by omega)]
      have hsib := h.away c hc hcn hcp (by omega)
      rw [hpc] at hsib
      exact hgrand.trans hsib
  · intro c hc hcn hpc
    rw [exchange_right]
    by_cases hcp : c = pos
    · rw [hcp, exchange_left]
      exact le_of_lt hlt
    · have hclt := parent_lt hc
      rw [exchange_other f hcp (by omega)]
      have hsib := h.away c hc hcn hcp (by omega)
      rw [hpc] at hsib
      exact le_of_lt (hlt.trans_le hsib)

/-- The position is below its children and its parent is not larger. -/
theorem OrderedExcept.up_done {f : Nat → α} {n pos : Nat} (h : OrderedExcept f n pos)
    (hbelow : ∀ c, 0 < c → c < n → parent c = pos → f pos ≤ f c)
    (hstop : 0 < pos → f (parent pos) ≤ f pos) : Ordered f n := by
  intro i hi hn
  by_cases hip : i = pos
  · rw [hip] at hi ⊢
    exact hstop hi
  · by_cases hpi : parent i = pos
    · rw [hpi]
      exact hbelow i hi hn hpi
    · exact h.away i hi hn hip hpi

/-! ## Sifting down -/

/-- The smallest child is smaller: exchange it with the position, whose parent
    was not larger than the position. -/
theorem OrderedExcept.down_step {f : Nat → α} {n pos c : Nat} (h : OrderedExcept f n pos)
    (hc : 0 < c) (hcn : c < n) (hpc : parent c = pos) (hlt : f c < f pos)
    (hmin : ∀ d, 0 < d → d < n → parent d = pos → f c ≤ f d) :
    OrderedExcept (exchange f pos c) n c ∧
      (0 < c → exchange f pos c (parent c) ≤ exchange f pos c c) := by
  have hclt := parent_lt hc
  refine ⟨⟨?_, ?_⟩, ?_⟩
  · intro i hi hin hne hpne
    -- the least child came up, so it is in order with its siblings and with the parent
    by_cases hip : i = pos
    · rw [hip] at hi ⊢
      have hpp := parent_lt hi
      rw [exchange_left, exchange_other f (by omega) (by omega)]
      exact h.across hi c hc hcn hpc
    · rw [exchange_other f hip hne]
      by_cases hpi : parent i = pos
      · rw [hpi, exchange_left]
        exact hmin i hi hin hpi
      · rw [exchange_other f hpi hpne]
        exact h.away i hi hin hip hpi
  · intro _ d hd hdn hpd
    have hdlt := parent_lt hd
    rw [hpc, exchange_left, exchange_other f (by omega) (by omega)]
    have := h.away d hd hdn (by omega) (by omega)
    rw [hpd] at this
    exact this
  · intro _
    rw [hpc, exchange_left, exchange_right]
    exact le_of_lt hlt

/-- The position is above its parent and no child is smaller. -/
theorem OrderedExcept.down_done {f : Nat → α} {n pos : Nat} (h : OrderedExcept f n pos)
    (habove : 0 < pos → f (parent pos) ≤ f pos)
    (hstop : ∀ c, 0 < c → c < n → parent c = pos → f pos ≤ f c) : Ordered f n :=
  h.up_done hstop habove

end

end HeapOrder

end Lib
