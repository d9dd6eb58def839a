import RedisServer.Theory.Avl.Balance
import RedisServer.Theory.Avl.Offset

/-!
# Rank Navigation in Machine Arithmetic

`avl_offset` with its sums in the types of the source: `pos` is an `int64_t`
and a stored size is a `uint32_t`. On a tree of fewer than `2 ^ 32` nodes with
exact sizes no sum overflows, since `pos` is always the difference of two
ranks of the tree.

## Main definitions

* `AtPlace`: Where the walk is.

## Theorems

* `avlOffsetLoop64_eq`: The walk in machine arithmetic is the walk.
* `rank_navigation`: It ends at the node of the rank asked for.
-/

namespace RedisServer

open Lib BinaryTree

/-- The walk is at a node of the tree, and `pos` is the difference between the
    node's rank and the rank it started from. -/
structure AtPlace (σ : Store) (whole : AvlTree) (start : Nat) (k : List (Frame (Note Nat)))
    (t : AvlTree) (pos : Int) : Prop where
  whole : plug k t = whole
  tree : TreeAt σ (parentOf k) t
  path : PathAt σ k (ptr t)
  ne : t ≠ nil
  pos : pos + start = (before k).length + t.left.numNodes

variable {σ : Store} {whole : AvlTree} {start : Nat} {k : List (Frame (Note Nat))} {t : AvlTree}
  {pos offset : Int}

theorem i64_eq {v : Int} (h : -(2 ^ 63) ≤ v ∧ v < 2 ^ 63) : i64 v = .ok v := if_pos h

/-! ## The tests of a turn -/

theorem inRight64_eq {n : AVLNode} {parent : Option Nat} {r : AvlTree} (hright : n.right = ptr r)
    (hr : TreeAt σ parent r) (hcounted : Counted r)
    (hbound : -(2 ^ 63) ≤ pos + r.numNodes ∧ pos + r.numNodes < 2 ^ 63) (offset : Int) :
    inRight64 σ n pos offset = inRight σ n pos offset := by
  rw [inRight64, inRight, hright, avlCnt_counted hr hcounted]
  simp only [ok_bind, i64_eq hbound]

theorem inLeft64_eq {n : AVLNode} {parent : Option Nat} {l : AvlTree} (hleft : n.left = ptr l)
    (hl : TreeAt σ parent l) (hcounted : Counted l)
    (hbound : -(2 ^ 63) ≤ pos - l.numNodes ∧ pos - l.numNodes < 2 ^ 63) (offset : Int) :
    inLeft64 σ n pos offset = inLeft σ n pos offset := by
  rw [inLeft64, inLeft, hleft, avlCnt_counted hl hcounted]
  simp only [ok_bind, i64_eq hbound]

/-! ## The places of a turn -/

namespace AtPlace

variable {x : Note Nat} {l r : AvlTree}

-- The three moves of the walk, each with the size of the subtree it skips.
theorem goRight {y : Note Nat} {a b : AvlTree}
    (h : AtPlace σ whole start k (node x l (node y a b)) pos) :
    AtPlace σ whole start (.right l x :: k) (node y a b) (pos + (a.numNodes + 1)) where
  whole := h.whole
  tree := h.tree.2.2
  path := ⟨h.tree.1, h.tree.2.1, h.path⟩
  ne := by simp only [ne_eq, reduceCtorEq, not_false_eq_true]
  pos := by
    have hpos := h.pos
    simp only [BinaryTree.left, before, Frame.before, List.length_append, length_inorder,
      List.length_singleton] at hpos ⊢
    omega

theorem goLeft {y : Note Nat} {a b : AvlTree}
    (h : AtPlace σ whole start k (node x (node y a b) r) pos) :
    AtPlace σ whole start (.left x r :: k) (node y a b) (pos - (b.numNodes + 1)) where
  whole := h.whole
  tree := h.tree.2.1
  path := ⟨h.tree.1, h.tree.2.2, h.path⟩
  ne := by simp only [ne_eq, reduceCtorEq, not_false_eq_true]
  pos := by
    have hpos := h.pos
    simp only [BinaryTree.left, before, Frame.before, List.append_nil, numNodes] at hpos ⊢
    omega

theorem goUp_left {s : AvlTree} {y : Note Nat}
    (h : AtPlace σ whole start (.left y s :: k) (node x l r) pos) :
    AtPlace σ whole start k (node y (node x l r) s) (pos + (r.numNodes + 1)) where
  whole := h.whole
  tree := ⟨h.path.1, h.tree, h.path.2.1⟩
  path := h.path.2.2
  ne := by simp only [ne_eq, reduceCtorEq, not_false_eq_true]
  pos := by
    have hpos := h.pos
    simp only [BinaryTree.left, before, Frame.before, List.append_nil, numNodes] at hpos ⊢
    omega

theorem goUp_right {s : AvlTree} {y : Note Nat}
    (h : AtPlace σ whole start (.right s y :: k) (node x l r) pos) :
    AtPlace σ whole start k (node y s (node x l r)) (pos - (l.numNodes + 1)) where
  whole := h.whole
  tree := ⟨h.path.1, h.path.2.1, h.tree⟩
  path := h.path.2.2
  ne := by simp only [ne_eq, reduceCtorEq, not_false_eq_true]
  pos := by
    have hpos := h.pos
    simp only [BinaryTree.left, before, Frame.before, List.length_append, length_inorder,
      List.length_singleton] at hpos ⊢
    omega

/-- Every number of the walk is small: the node, its subtrees and what is
    before it are parts of the tree. -/
theorem small (h : AtPlace σ whole start k (node x l r) pos) :
    (before k).length + (l.numNodes + r.numNodes + 1) ≤ whole.numNodes := by
  have hlen := congrArg List.length (inorder_plug k (node x l r))
  rw [h.whole, length_inorder, List.length_append, List.length_append, length_inorder,
    numNodes] at hlen
  omega

end AtPlace

/-- On a tree with fewer than `2 ^ 32` nodes and exact sizes, the walk in
    machine arithmetic is the walk. -/
theorem avlOffsetLoop64_eq (hcounted : Counted whole) (hnd : (vals whole).Nodup)
    (hsize : whole.numNodes < 2 ^ 32) (hstart : start < whole.numNodes) (fuel : Nat)
    (h : AtPlace σ whole start k t pos) :
    avlOffsetLoop64 fuel σ (ptr t) pos offset = avlOffsetLoop fuel σ (ptr t) pos offset := by
  -- both walks take the same step, since no intermediate number leaves its type
  induction fuel generalizing k t pos with
  | zero => rfl
  | succ fuel ih =>
      cases t with
      | nil => exact absurd rfl h.ne
      | node x l r =>
          have ht : Counted (node x l r) := by
            have hwhole := h.whole
            rw [← hwhole] at hcounted
            exact hcounted.place
          have hpos := h.pos
          have hsmall := h.small
          simp only [BinaryTree.left] at hpos
          rw [ptr_node, avlOffsetLoop64, avlOffsetLoop]
          by_cases hhere : offset = pos
          · rw [if_pos hhere, if_pos hhere]
          · rw [if_neg hhere, if_neg hhere, load_eq h.tree.1, ok_bind, ok_bind,
              inRight64_eq rfl h.tree.2.2 ht.right ⟨by omega, by omega⟩,
              inLeft64_eq rfl h.tree.2.1 ht.left ⟨by omega, by omega⟩,
              inRight_eq rfl h.tree.2.2 ht.right, inLeft_eq rfl h.tree.2.1 ht.left, ok_bind, ok_bind,
              ok_bind, ok_bind]
            by_cases hup : pos < offset ∧ offset ≤ pos + r.numNodes
            · -- The target is in the right subtree, which is therefore not empty.
              rw [decide_eq_true hup, if_pos rfl, if_pos rfl]
              cases r with
              | nil => exact absurd hup (by rw [numNodes]; omega)
              | node y a b =>
                  have hn : (node y a b).numNodes = a.numNodes + b.numNodes + 1 := rfl
                  have hmove := h.goRight
                  simp only [ptr_node, load_eq h.tree.2.2.1,
                    avlCnt_counted h.tree.2.2.2.1 ht.right.left, ok_bind]
                  rw [cntSucc_eq (by omega), i64_eq (by omega), ok_bind]
                  exact ih hmove
            · rw [decide_eq_false hup, if_neg Bool.false_ne_true, if_neg Bool.false_ne_true]
              by_cases hdown : offset < pos ∧ pos - l.numNodes ≤ offset
              · rw [decide_eq_true hdown, if_pos rfl, if_pos rfl]
                cases l with
                | nil => exact absurd hdown (by rw [numNodes]; omega)
                | node y a b =>
                    have hn : (node y a b).numNodes = a.numNodes + b.numNodes + 1 := rfl
                    have hmove := h.goLeft
                    simp only [ptr_node, load_eq h.tree.2.1.1,
                      avlCnt_counted h.tree.2.1.2.2 ht.left.right, ok_bind]
                    rw [cntSucc_eq (by omega), i64_eq (by omega), ok_bind]
                    exact ih hmove
              · -- The target is outside the subtree, and the walk goes to the parent.
                rw [decide_eq_false hdown, if_neg Bool.false_ne_true, if_neg Bool.false_ne_true]
                cases k with
                | nil => rfl
                | cons f k =>
                    have hcl := avlCnt_counted h.tree.2.1 ht.left
                    have hcr := avlCnt_counted h.tree.2.2 ht.right
                    rw [parentOf, load_eq h.path.1, ok_bind, ok_bind, hcl, hcr]
                    simp only [reduceCtorEq, if_false, ok_bind]
                    rw [cntSucc_eq (by omega), cntSucc_eq (by omega), i64_eq (by omega),
                      i64_eq (by omega), ok_bind, ok_bind]
                    have hne : ptr f.sibling ≠ some x.val := by
                      refine ptr_sibling_ne (k := k) (l := l) (r := r) ?_
                      rw [← (vals_plug_perm (f :: k) (node x l r)).nodup_iff, h.whole]
                      exact hnd
                    cases f with
                    | left y s =>
                        have hside : (frameNode (parentOf k) (ptr (node x l r)) (.left y s)).right ≠
                            some x.val := hne
                        rw [if_neg hside, if_neg hside]
                        exact ih h.goUp_left
                    | right s y =>
                        have hside : (frameNode (parentOf k) (ptr (node x l r)) (.right s y)).right =
                            some x.val := rfl
                        rw [if_pos hside, if_pos hside]
                        exact ih h.goUp_right

/-- On a tree with consistent links and exact sizes, of fewer than `2 ^ 32`
    nodes and of any shape, `avl_offset` ends without an overflow, at the node
    `offset` ranks away, and at `NULL` when there is no such rank. -/
theorem rank_navigation (σ : Store) (t : AvlTree) (h : Rooted σ t) (hcounted : Counted t)
    (hsize : t.numNodes < 2 ^ 32) (a i : Nat) (ha : (vals t)[i]? = some a) (offset : Int) :
    ∃ r, avlOffset64 σ (some a) offset = .ok r ∧
      (r = none ↔ i + offset < 0 ∨ (vals t).length ≤ i + offset) ∧
      ∀ b, r = some b → (vals t)[((i : Int) + offset).toNat]? = some b := by
  have hi : i < (vals t).length := (List.getElem?_eq_some_iff.mp ha).1
  have hrank : avlOffset64 σ (some a) offset = .ok (atRank (vals t) (i + offset)) := by
    rw [← avlOffset_spec h hcounted ha]
    rcases List.mem_map.mp (List.mem_of_getElem? ha) with ⟨x, hx, rfl⟩
    rcases exists_plug_of_mem hx with ⟨k, l, r, rfl⟩
    rcases h.place with ⟨htree, hpath⟩
    -- the walk starts at position 0 on the node itself
    have hplace : AtPlace σ (plug k (node x l r)) ((before k).length + l.numNodes) k (node x l r) 0 :=
      { whole := rfl
        tree := htree
        path := hpath
        ne := by simp only [ne_eq, reduceCtorEq, not_false_eq_true]
        pos := by
          simp only [BinaryTree.left]
          omega }
    have hsmall := hplace.small
    exact avlOffsetLoop64_eq hcounted h.nodup hsize (by omega) (σ.next + 1) hplace
  refine ⟨_, hrank, ?_, fun b hb => ?_⟩
  · constructor
    · intro hnone
      by_contra hin
      rw [not_or, Int.not_lt, Int.not_le] at hin
      rw [atRank_of_nonneg _ hin.1, List.getElem?_eq_none_iff] at hnone
      omega
    · exact fun hout => atRank_eq_none hout
  · rw [atRank] at hb
    by_cases hneg : (i : Int) + offset < 0
    · rw [if_pos hneg] at hb
      cases hb
    · rw [if_neg hneg] at hb
      exact hb

theorem rank_navigation_three :
    ∃ r, avlOffset64 threeNodes (some 1) 2 = .ok r ∧
      (r = none ↔ ((0 : Nat) : Int) + 2 < 0 ∨ ((vals threeTree).length : Int) ≤ (0 : Nat) + 2) ∧
      ∀ b, r = some b → (vals threeTree)[(((0 : Nat) : Int) + 2).toNat]? = some b :=
  rank_navigation threeNodes threeTree threeNodes_rooted (threeTree_isAvl.exact.counted (by decide))
    (by decide) 1 0 rfl 2

end RedisServer
