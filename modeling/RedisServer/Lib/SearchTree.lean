import RedisServer.Lib.Zipper
import Mathlib.Data.List.Pairwise

/-!
# Searching a Binary Tree

Two walks from the root of a tree that turn left or right on a test of each
node they meet.

The walk of an insertion goes left where the test holds, until it runs out of
nodes, and ends at an empty place. The walk of a search remembers the last
node that failed the test, goes left there, and goes right otherwise. Neither
needs the tree to be in order. If it is in order for the test, the empty place
splits the listing by the test, and the search finds the first value that
fails it.

## Main definitions

* `Frame.isLeft`: The hole of a frame is its left child.
* `descend`: The empty place an insertion ends at.
* `seek`: The search for the first value that fails a test.

## Theorems

* `plug_descend`: The walk ends at a place of the tree it started in.
* `descend_splits`: The place splits the listing.
* `seek_eq`: The search finds the first value that fails the test.
-/

namespace Lib

open BinaryTree

variable {α : Type}

/-- The hole of a frame is its left child. -/
def Frame.isLeft : Frame α → Bool
  | .left _ _ => true
  | .right _ _ => false

/-! ## The walk of an insertion -/

/-- The empty place an insertion ends at, going left where `goLeft` holds. -/
def descend (goLeft : α → Bool) : BinaryTree α → List (Frame α) → List (Frame α)
  | nil, k => k
  | node y l r, k =>
    if goLeft y then descend goLeft l (.left y r :: k) else descend goLeft r (.right l y :: k)

/-- The walk ends at a place of the tree it started in. -/
theorem plug_descend (goLeft : α → Bool) (t : BinaryTree α) (k : List (Frame α)) :
    plug (descend goLeft t k) nil = plug k t := by
  induction t generalizing k with
  | nil => rfl
  | node y l r ihl ihr =>
      rw [descend]
      by_cases h : goLeft y = true
      · rw [if_pos h, ihl]
        rfl
      · rw [if_neg h, ihr]
        rfl

/-- The walk depends on the test at the nodes of the tree. -/
theorem descend_congr {goLeft goLeft' : α → Bool} {t : BinaryTree α} {k : List (Frame α)}
    (h : ∀ y ∈ inorder t, goLeft y = goLeft' y) : descend goLeft t k = descend goLeft' t k := by
  induction t generalizing k with
  | nil => rfl
  | node y l r ihl ihr =>
      simp only [inorder_node, List.mem_append, List.mem_cons] at h
      rw [descend, descend, h y (Or.inr (Or.inl rfl)), ihl fun x hx => h x (Or.inl hx),
        ihr fun x hx => h x (Or.inr (Or.inr hx))]

/-- A test is in order on a list: once it holds, it holds to the end. -/
def InOrder (p : α → Bool) (l : List α) : Prop := l.Pairwise fun a b => p a = true → p b = true

/-- In a tree that is in order for the test, the place the walk ends at splits
    the listing by the test. -/
theorem descend_splits {goLeft : α → Bool} {t : BinaryTree α} {k : List (Frame α)}
    (ht : InOrder goLeft (inorder t)) (hbefore : ∀ a ∈ before k, goLeft a = false)
    (hafter : ∀ a ∈ after k, goLeft a = true) :
    (∀ a ∈ before (descend goLeft t k), goLeft a = false) ∧
      ∀ a ∈ after (descend goLeft t k), goLeft a = true := by
  induction t generalizing k with
  | nil => exact ⟨hbefore, hafter⟩
  | node y l r ihl ihr =>
      rw [InOrder, inorder_node, List.pairwise_append, List.pairwise_cons] at ht
      rcases ht with ⟨hl, ⟨hy, hr⟩, hcross⟩
      rw [descend]
      -- going left puts `y` and what is right of it after the place, going right before it
      by_cases h : goLeft y = true
      · rw [if_pos h]
        refine ihl hl ?_ fun a ha => ?_
        · rw [before, Frame.before, List.append_nil]
          exact hbefore
        · rw [after, Frame.after, List.mem_append, List.mem_cons] at ha
          rcases ha with (rfl | ha) | ha
          · exact h
          · exact hy a ha h
          · exact hafter a ha
      · rw [if_neg h]
        refine ihr hr (fun a ha => ?_) ?_
        · rw [before, Frame.before, List.mem_append, List.mem_append, List.mem_singleton] at ha
          rcases ha with ha | ha | rfl
          · exact hbefore a ha
          · -- What stands before `y` cannot pass a test that `y` fails.
            exact Bool.eq_false_iff.mpr fun hp => h (hcross a ha y List.mem_cons_self hp)
          · exact Bool.eq_false_iff.mpr h
        · rw [after, Frame.after, List.nil_append]
          exact hafter

/-! ## The search -/

/-- The search for the first value that fails the test `less`. -/
def seek (less : α → Bool) : BinaryTree α → Option α → Option α
  | nil, found => found
  | node x l r, found => if less x then seek less r found else seek less l (some x)

theorem seek_mem {less : α → Bool} {t : BinaryTree α} {found : Option α} {a : α}
    (h : seek less t found = some a) : a ∈ inorder t ∨ found = some a := by
  induction t generalizing found with
  | nil => exact Or.inr h
  | node x l r ihl ihr =>
      rw [seek] at h
      rw [inorder_node, List.mem_append, List.mem_cons]
      by_cases hx : less x = true
      · rw [if_pos hx] at h
        rcases ihr h with h | h
        · exact Or.inl (Or.inr (Or.inr h))
        · exact Or.inr h
      · rw [if_neg hx] at h
        rcases ihl h with h | h
        · exact Or.inl (Or.inl h)
        · exact Or.inl (Or.inr (Or.inl (Option.some.inj h).symm))

/-- In a tree that is in order for the test, the search finds the first value
    that fails it. -/
theorem seek_eq {less : α → Bool} {t : BinaryTree α}
    (ht : InOrder (fun a => !less a) (inorder t)) (found : Option α) :
    seek less t found = ((inorder t).find? fun a => !less a).or found := by
  induction t generalizing found with
  | nil => rfl
  | node x l r ihl ihr =>
      rw [InOrder, inorder_node, List.pairwise_append, List.pairwise_cons] at ht
      rcases ht with ⟨hl, ⟨_, hr⟩, hcross⟩
      rw [seek, inorder_node, List.find?_append]
      -- nothing left of `x` can be the answer when `x` is too small
      by_cases hx : less x = true
      · have hnone : (inorder l).find? (fun a => !less a) = none := by
          rw [List.find?_eq_none]
          intro a ha hp
          have := hcross a ha x List.mem_cons_self hp
          rw [hx] at this
          exact absurd this (by decide)
        rw [if_pos hx, ihr hr, hnone, Option.none_or, List.find?_cons_of_neg (by rw [hx]; decide)]
      · rw [if_neg hx, ihl hl, List.find?_cons_of_pos (by rw [Bool.eq_false_iff.mpr hx]; decide)]
        cases (inorder l).find? fun a => !less a with
        | none => rfl
        | some a => rfl

end Lib
