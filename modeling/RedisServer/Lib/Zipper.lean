import Mathlib.Data.List.Basic
import Mathlib.Data.Tree.Basic

/-!
# A Place in a Binary Tree

A tree with a hole, as the list of the nodes on the way from the hole up to
the root. Each of them is a frame: the node's value, which side the hole is
on, and the subtree on the other side. An algorithm that walks up through
parent pointers is a recursion over this list.

The hole splits the in-order listing into what stands before it and what
stands after it, so whatever fills the hole only replaces the middle.

## Main definitions

* `inorder`: The values of a tree from left to right.
* `Frame`, `plug`: A step up, and a tree put back together.
* `before`, `after`: The listing around the hole.

## Theorems

* `inorder_plug`: The listing of a tree put back together.
* `exists_plug_of_mem`: Every value has a place.
* `before_of_lefts`: Nothing stands before a hole at the left end.
-/

namespace Lib

open BinaryTree

variable {α : Type}

/-- The values of a tree from left to right. -/
def inorder : BinaryTree α → List α
  | nil => []
  | node x l r => inorder l ++ x :: inorder r

@[simp] theorem inorder_nil : inorder (nil : BinaryTree α) = [] := rfl

@[simp] theorem inorder_node (x : α) (l r : BinaryTree α) :
    inorder (node x l r) = inorder l ++ x :: inorder r := rfl

theorem length_inorder (t : BinaryTree α) : (inorder t).length = t.numNodes := by
  induction t with
  | nil => rfl
  | node x l r ihl ihr =>
      rw [inorder_node, List.length_append, List.length_cons, ihl, ihr, numNodes]
      omega

theorem inorder_eq_nil {t : BinaryTree α} : inorder t = [] ↔ t = nil := by
  cases t with
  | nil => exact ⟨fun _ => rfl, fun _ => rfl⟩
  | node x l r =>
      constructor
      · intro h
        exact absurd h (List.append_ne_nil_of_right_ne_nil _ (List.cons_ne_nil x _))
      · intro h
        cases h

/-! ## Frames -/

/-- A node one of whose subtrees is a hole. -/
inductive Frame (α : Type)
  | left (x : α) (r : BinaryTree α)
  | right (l : BinaryTree α) (x : α)
  deriving DecidableEq, Repr

namespace Frame

/-- The value of the node. -/
def val : Frame α → α
  | left x _ => x
  | right _ x => x

/-- The subtree that is not the hole. -/
def sibling : Frame α → BinaryTree α
  | left _ r => r
  | right l _ => l

/-- The node with its hole filled. -/
def fill : Frame α → BinaryTree α → BinaryTree α
  | left x r, t => node x t r
  | right l x, t => node x l t

/-- What stands before the hole. -/
def before : Frame α → List α
  | left _ _ => []
  | right l x => inorder l ++ [x]

/-- What stands after the hole. -/
def after : Frame α → List α
  | left x r => x :: inorder r
  | right _ _ => []

theorem fill_ne_nil (f : Frame α) (t : BinaryTree α) : f.fill t ≠ nil := by
  cases f with
  | left x r => simp only [fill, ne_eq, reduceCtorEq, not_false_eq_true]
  | right l x => simp only [fill, ne_eq, reduceCtorEq, not_false_eq_true]

theorem inorder_fill (f : Frame α) (t : BinaryTree α) :
    inorder (f.fill t) = f.before ++ inorder t ++ f.after := by
  cases f with
  | left x r => simp only [fill, before, after, inorder_node, List.nil_append]
  | right l x =>
      simp only [fill, before, after, inorder_node, List.append_assoc, List.singleton_append,
        List.append_nil]

theorem height_fill (f : Frame α) (t : BinaryTree α) :
    (f.fill t).height = max t.height f.sibling.height + 1 := by
  cases f with
  | left x r => rfl
  | right l x => exact congrArg (· + 1) (Nat.max_comm _ _)

theorem numNodes_fill (f : Frame α) (t : BinaryTree α) :
    (f.fill t).numNodes = t.numNodes + f.sibling.numNodes + 1 := by
  cases f with
  | left x r => rfl
  | right l x => exact congrArg (· + 1) (Nat.add_comm _ _)

end Frame

/-! ## Places -/

/-- Fill the hole and put the tree back together. -/
def plug : List (Frame α) → BinaryTree α → BinaryTree α
  | [], t => t
  | f :: k, t => plug k (f.fill t)

/-- What stands before the hole. -/
def before : List (Frame α) → List α
  | [] => []
  | f :: k => before k ++ f.before

/-- What stands after the hole. -/
def after : List (Frame α) → List α
  | [] => []
  | f :: k => f.after ++ after k

@[simp] theorem plug_nil (t : BinaryTree α) : plug [] t = t := rfl

@[simp] theorem plug_cons (f : Frame α) (k : List (Frame α)) (t : BinaryTree α) :
    plug (f :: k) t = plug k (f.fill t) := rfl

theorem plug_append (k k' : List (Frame α)) (t : BinaryTree α) :
    plug (k ++ k') t = plug k' (plug k t) := by
  induction k generalizing t with
  | nil => rfl
  | cons f k ih => exact ih (f.fill t)

/-- The listing of a tree put back together. -/
theorem inorder_plug (k : List (Frame α)) (t : BinaryTree α) :
    inorder (plug k t) = before k ++ inorder t ++ after k := by
  induction k generalizing t with
  | nil => simp only [plug_nil, before, after, List.nil_append, List.append_nil]
  | cons f k ih =>
      rw [plug_cons, ih, f.inorder_fill, before, after]
      simp only [List.append_assoc]

theorem plug_ne_nil (k : List (Frame α)) {t : BinaryTree α} (h : t ≠ nil) : plug k t ≠ nil := by
  induction k generalizing t with
  | nil => exact h
  | cons f k ih => exact ih (f.fill_ne_nil t)

theorem length_add_numNodes_le (k : List (Frame α)) (t : BinaryTree α) :
    k.length + t.numNodes ≤ (plug k t).numNodes := by
  induction k generalizing t with
  | nil => exact Nat.le_of_eq (Nat.zero_add _)
  | cons f k ih =>
      have := ih (f.fill t)
      rw [f.numNodes_fill] at this
      rw [List.length_cons, plug_cons]
      omega

/-- Every value of a tree has a place. -/
theorem exists_plug_of_mem {x : α} {t : BinaryTree α} (h : x ∈ inorder t) :
    ∃ k l r, t = plug k (node x l r) := by
  induction t with
  | nil => exact absurd h List.not_mem_nil
  | node y l r ihl ihr =>
      rw [inorder_node, List.mem_append, List.mem_cons] at h
      rcases h with h | rfl | h
      · rcases ihl h with ⟨k, l', r', heq⟩
        exact ⟨k ++ [.left y r], l', r', by rw [plug_append, ← heq]; rfl⟩
      · exact ⟨[], l, r, rfl⟩
      · rcases ihr h with ⟨k, l', r', heq⟩
        exact ⟨k ++ [.right l y], l', r', by rw [plug_append, ← heq]; rfl⟩

theorem before_of_lefts {k : List (Frame α)} (h : ∀ f ∈ k, ∃ y u, f = .left y u) :
    before k = [] := by
  induction k with
  | nil => rfl
  | cons f k ih =>
      rcases h f List.mem_cons_self with ⟨y, u, rfl⟩
      rw [before, ih fun f hf => h f (List.mem_cons_of_mem _ hf)]
      rfl

end Lib
