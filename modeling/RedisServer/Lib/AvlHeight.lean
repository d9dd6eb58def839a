import RedisServer.Lib.AvlTree
import Mathlib.Data.Nat.Log
import Mathlib.Tactic.Ring

/-!
# The Height of an AVL Tree

A tree in which the heights of siblings differ by one at most is not high: two
levels more are at least twice as many nodes. A place in a tree is no deeper
than the tree is high.

## Theorems

* `length_add_height_le`: The depth of a place.
* `two_mul_height_le`, `two_pow_height_le`, `height_le_log`: The height of a
  balanced tree.
-/

namespace Lib

open BinaryTree

variable {α β : Type}

/-- The depth of a place, and the height of what is there. -/
theorem length_add_height_le (k : List (Frame β)) (t : BinaryTree β) :
    k.length + t.height ≤ (plug k t).height := by
  induction k generalizing t with
  | nil => exact Nat.le_of_eq (Nat.zero_add _)
  | cons f k ih =>
      have hrest := ih (f.fill t)
      rw [f.height_fill] at hrest
      rw [List.length_cons, plug_cons]
      omega

/-- A balanced tree has two nodes for each level but two of them. -/
theorem two_mul_height_le {t : BinaryTree (Note α)} (h : Balanced t) :
    2 * t.height ≤ t.numNodes + 2 := by
  induction t with
  | nil => exact Nat.zero_le _
  | node x l r ihl ihr =>
      rcases h with ⟨hle, hge, hl, hr⟩
      have hlow := l.height_le_numNodes
      have hlow' := r.height_le_numNodes
      have hl := ihl hl
      have hr := ihr hr
      rw [height, numNodes]
      omega

/-- Two siblings, of which the second is as high as the first or one level
    less: together they have the nodes for one level more. -/
theorem two_pow_siblings {a b h h' : Nat} (ha : 2 ^ h ≤ a ^ 2) (hb : 2 ^ h' ≤ b ^ 2)
    (hpos : 0 < a) (hpos' : 0 < b) (hle : h ≤ h' + 1) : 2 ^ (h + 1) ≤ (a + b) ^ 2 := by
  cases h with
  | zero =>
      calc 2 ^ (0 + 1) ≤ 2 ^ 2 := by decide
        _ ≤ (a + b) ^ 2 := Nat.pow_le_pow_left (by omega) 2
  | succ n =>
      have hb' : 2 ^ n ≤ b ^ 2 := Nat.le_trans (Nat.pow_le_pow_right (by decide) (by omega)) hb
      -- twice the product of the two is above the geometric mean of their bounds
      have hprod : 2 ^ (n + 1) ≤ 2 * (a * b) := by
        have hsq : (2 ^ (n + 1)) ^ 2 ≤ (2 * (a * b)) ^ 2 := by
          calc (2 ^ (n + 1)) ^ 2 = 2 * (2 ^ (n + 1) * 2 ^ n) := by ring
            _ ≤ 2 * (a ^ 2 * b ^ 2) := Nat.mul_le_mul_left 2 (Nat.mul_le_mul ha hb')
            _ ≤ 4 * (a ^ 2 * b ^ 2) := Nat.mul_le_mul_right _ (by decide)
            _ = (2 * (a * b)) ^ 2 := by ring
        exact (Nat.pow_le_pow_iff_left (by decide)).mp hsq
      calc 2 ^ (n + 1 + 1) = 2 ^ (n + 1) + 2 ^ (n + 1) := by ring
        _ ≤ a ^ 2 + 2 * (a * b) := Nat.add_le_add ha hprod
        _ ≤ a ^ 2 + 2 * (a * b) + b ^ 2 := Nat.le_add_right _ _
        _ = (a + b) ^ 2 := by ring

/-- A tree of height `h` has so many nodes that their number, squared, is above
    `2 ^ h`. -/
theorem two_pow_height_le {t : BinaryTree (Note α)} (h : Balanced t) :
    2 ^ t.height ≤ (t.numNodes + 1) ^ 2 := by
  induction t with
  | nil => exact Nat.le_refl 1
  | node x l r ihl ihr =>
      rcases h with ⟨hle, hge, hl, hr⟩
      have hnodes : (node x l r).numNodes + 1 = (l.numNodes + 1) + (r.numNodes + 1) := by
        rw [numNodes]
        omega
      rw [height, hnodes]
      -- the higher sibling first
      rcases Nat.le_total r.height l.height with hrl | hlr
      · rw [Nat.max_eq_left hrl]
        exact two_pow_siblings (ihl hl) (ihr hr) (Nat.succ_pos _) (Nat.succ_pos _) hle
      · rw [Nat.max_eq_right hlr, Nat.add_comm (l.numNodes + 1)]
        exact two_pow_siblings (ihr hr) (ihl hl) (Nat.succ_pos _) (Nat.succ_pos _) hge

/-- The height is logarithmic in the number of nodes. -/
theorem height_le_log {t : BinaryTree (Note α)} (h : Balanced t) :
    t.height ≤ 2 * Nat.log 2 (t.numNodes + 1) + 1 := by
  have hlt := Nat.lt_pow_succ_log_self (b := 2) (by decide) (t.numNodes + 1)
  have hsq : 2 ^ t.height < 2 ^ (2 * (Nat.log 2 (t.numNodes + 1) + 1)) := by
    calc 2 ^ t.height ≤ (t.numNodes + 1) ^ 2 := two_pow_height_le h
      _ < (2 ^ (Nat.log 2 (t.numNodes + 1) + 1)) ^ 2 := Nat.pow_lt_pow_left hlt (by decide)
      _ = 2 ^ (2 * (Nat.log 2 (t.numNodes + 1) + 1)) := by ring
  have hexp := (Nat.pow_lt_pow_iff_right (by decide)).mp hsq
  omega

end Lib
