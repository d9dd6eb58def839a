import RedisServer.Lib.AvlHeight
import RedisServer.Lib.Ranks
import RedisServer.Theory.Avl.Fix

/-!
# Moving by Rank

`avl_offset` on a tree whose stored sizes are exact, balanced or not. The walk
keeps the rank difference between where it started and where it is, so what
matters at each node is how far the target still is: inside one of the subtrees,
and then the walk stays in that subtree to the end, or outside, and then it goes
up. Once it turns down it never goes up again.

That the walk ends does not take exact sizes. It is enough that no size is
larger than those below it, and one for the node, add up to, which is so for
sizes modulo `2 ^ 32` in a tree of any size.

The turns are bounded by the nodes. Going down, a turn leaves a node and one
of its subtrees behind; going up, each turn adds at least the parent to what
was left behind.

## Main definitions

* `Sized`: No stored size is too large.

## Theorems

* `avlOffset_ends`: The walk ends on such a tree.
* `avlOffset_down`: The target is in the subtree of the current node.
* `avlOffset_up`: The target is outside it.
* `avlOffset_spec`: The node at the rank, or `NULL` when there is none.
-/

namespace RedisServer

open Lib BinaryTree

variable {σ : Store} {parent : Option Nat}

/-! ## The tests of a turn -/

theorem inRight_stored {n : AVLNode} {r : AvlTree} (hright : n.right = ptr r)
    (hr : TreeAt σ parent r) (pos offset : Int) :
    inRight σ n pos offset = .ok (decide (pos < offset ∧ offset ≤ pos + storedSize r)) := by
  rw [inRight, hright, avlCnt_eq hr]
  by_cases h : pos < offset
  · rw [if_pos h, ok_bind]
    simp only [h, true_and]
  · rw [if_neg h]
    simp only [h, false_and, decide_false]

theorem inLeft_stored {n : AVLNode} {l : AvlTree} (hleft : n.left = ptr l)
    (hl : TreeAt σ parent l) (pos offset : Int) :
    inLeft σ n pos offset = .ok (decide (offset < pos ∧ pos - storedSize l ≤ offset)) := by
  rw [inLeft, hleft, avlCnt_eq hl]
  by_cases h : offset < pos
  · rw [if_pos h, ok_bind]
    simp only [h, true_and]
  · rw [if_neg h]
    simp only [h, false_and, decide_false]

/-- The stored size of an exact tree. -/
theorem avlCnt_counted {t : AvlTree} (h : TreeAt σ parent t) (hcounted : Counted t) :
    avlCnt σ (ptr t) = .ok t.numNodes := by
  rw [avlCnt_eq h, hcounted.storedSize]

theorem inRight_eq {n : AVLNode} {r : AvlTree} (hright : n.right = ptr r)
    (hr : TreeAt σ parent r) (hcounted : Counted r) (pos offset : Int) :
    inRight σ n pos offset = .ok (decide (pos < offset ∧ offset ≤ pos + r.numNodes)) := by
  rw [inRight_stored hright hr, hcounted.storedSize]

theorem inLeft_eq {n : AVLNode} {l : AvlTree} (hleft : n.left = ptr l)
    (hl : TreeAt σ parent l) (hcounted : Counted l) (pos offset : Int) :
    inLeft σ n pos offset = .ok (decide (offset < pos ∧ pos - l.numNodes ≤ offset)) := by
  rw [inLeft_stored hleft hl, hcounted.storedSize]

theorem cntSucc_eq {c : Nat} (h : c + 1 < 2 ^ 32) : (cntSucc c : Int) = c + 1 :=
  congrArg Nat.cast (Nat.mod_eq_of_lt h)

theorem cntSucc_le (c : Nat) : cntSucc c ≤ c + 1 := Nat.mod_le _ _

/-! ## To the parent -/

-- The sibling of a node is another node, so the test of the parent's right
-- pointer tells the two sides apart.
theorem ptr_sibling_ne {f : Frame (Note Nat)} {k : List (Frame (Note Nat))} {x : Note Nat}
    {l r : AvlTree} (hnd : (vals (node x l r) ++ pathVals (f :: k)).Nodup) :
    ptr f.sibling ≠ some x.val :=
  fun heq => not_mem_sibling hnd (mem_vals_of_ptr heq)

/-- The change of the rank difference on the way to the parent. -/
def upBy : Frame (Note Nat) → AvlTree → Int
  | .left _ _, t => cntSucc (storedSize t.right)
  | .right _ _, t => -cntSucc (storedSize t.left)

/-- A node whose subtrees do not hold the target, by their stored sizes, is
    left for its parent. -/
theorem avlOffset_parent {f : Frame (Note Nat)} {k : List (Frame (Note Nat))} {t : AvlTree}
    {pos offset : Int} (fuel : Nat) (hne : t ≠ nil) (htree : TreeAt σ (parentOf (f :: k)) t)
    (hpath : PathAt σ (f :: k) (ptr t)) (hnd : (vals t ++ pathVals (f :: k)).Nodup)
    (hout : offset < pos - storedSize t.left ∨ pos + storedSize t.right < offset) :
    avlOffsetLoop (fuel + 1) σ (ptr t) pos offset =
      avlOffsetLoop fuel σ (ptr (f.fill t)) (pos + upBy f t) offset := by
  cases t with
  | nil => exact absurd rfl hne
  | node x l r =>
      simp only [BinaryTree.left, BinaryTree.right] at hout
      rcases htree with ⟨hx, hl, hr⟩
      have hturn : avlOffsetLoop (fuel + 1) σ (some x.val) pos offset = (do
          let p ← σ.load (some f.val.val)
          if p.right = some x.val then do
            let c ← avlCnt σ (ptr l)
            avlOffsetLoop fuel σ (some f.val.val) (pos - cntSucc c) offset
          else do
            let c ← avlCnt σ (ptr r)
            avlOffsetLoop fuel σ (some f.val.val) (pos + cntSucc c) offset) := by
        rw [avlOffsetLoop, if_neg (by omega), load_eq hx, ok_bind, inRight_stored rfl hr, ok_bind,
          decide_eq_false (by omega), if_neg Bool.false_ne_true, inLeft_stored rfl hl, ok_bind,
          decide_eq_false (by omega), if_neg Bool.false_ne_true]
        rfl
      rw [ptr_node, hturn, load_eq hpath.1, ok_bind, ptr_fill]
      cases f with
      | left y s =>
          have hside : ptr s ≠ some x.val := ptr_sibling_ne hnd
          simp only [frameNode, if_neg hside, avlCnt_eq hr, ok_bind, upBy, BinaryTree.right]
      | right s y =>
          simp only [frameNode, ptr_node, if_true, avlCnt_eq hl, ok_bind, upBy, BinaryTree.left,
            Int.sub_eq_add_neg]

/-- There is nowhere to go from the root. -/
theorem avlOffset_root {t : AvlTree} {pos offset : Int} (fuel : Nat) (hne : t ≠ nil)
    (htree : TreeAt σ none t)
    (hout : offset < pos - storedSize t.left ∨ pos + storedSize t.right < offset) :
    avlOffsetLoop (fuel + 1) σ (ptr t) pos offset = .ok none := by
  cases t with
  | nil => exact absurd rfl hne
  | node x l r =>
      simp only [BinaryTree.left, BinaryTree.right] at hout
      rw [ptr_node, avlOffsetLoop, if_neg (by omega), load_eq htree.1, ok_bind,
        inRight_stored rfl htree.2.2, ok_bind, decide_eq_false (by omega),
        if_neg Bool.false_ne_true, inLeft_stored rfl htree.2.1, ok_bind,
        decide_eq_false (by omega), if_neg Bool.false_ne_true]
      rfl

/-! ## Walks that end -/

/-- A stored size is no larger than the stored sizes of the subtrees and one
    more, where the addition may wrap around. -/
def Sized : AvlTree → Prop
  | nil => True
  | node x l r =>
    (x.size ≤ cntSucc (storedSize l) + storedSize r ∧
      x.size ≤ storedSize l + cntSucc (storedSize r)) ∧ Sized l ∧ Sized r

/-- Sizes modulo `2 ^ 32` are like that. -/
theorem sized_of_exact {t : AvlTree} (h : Exact t) : Sized t := by
  induction t with
  | nil => exact True.intro
  | node x l r ihl ihr =>
      have hx := h.2.1
      rw [Sized, h.2.2.1.storedSize, h.2.2.2.storedSize, cntSucc, cntSucc]
      exact ⟨⟨by omega, by omega⟩, ihl h.2.2.1, ihr h.2.2.2⟩

namespace Sized

theorem left {t : AvlTree} (h : Sized t) : Sized t.left := by
  cases t with
  | nil => exact True.intro
  | node x l r => exact h.2.1

theorem right {t : AvlTree} (h : Sized t) : Sized t.right := by
  cases t with
  | nil => exact True.intro
  | node x l r => exact h.2.2

theorem place {k : List (Frame (Note Nat))} {t : AvlTree} (h : Sized (plug k t)) : Sized t := by
  induction k generalizing t with
  | nil => exact h
  | cons f k ih =>
      have hfill := ih h
      cases f with
      | left x r => exact hfill.left
      | right l x => exact hfill.right

end Sized

/-- Once the walk turns down it does not go up again, since the subtree it
    enters accounts for the size that sent it there. It turns once for each
    level. -/
theorem avlOffset_down_ends {t : AvlTree} {pos offset : Int} {fuel : Nat} (hne : t ≠ nil)
    (htree : TreeAt σ parent t) (hsized : Sized t) (hlow : pos - storedSize t.left ≤ offset)
    (hhigh : offset ≤ pos + storedSize t.right) (hfuel : t.height ≤ fuel) :
    ∃ r, avlOffsetLoop fuel σ (ptr t) pos offset = .ok r := by
  induction t generalizing parent pos fuel with
  | nil => exact absurd rfl hne
  | node x l r ihl ihr =>
      simp only [BinaryTree.left, BinaryTree.right] at hlow hhigh
      rcases htree with ⟨hx, hl, hr⟩
      rw [height] at hfuel
      obtain ⟨fuel, rfl⟩ := Nat.exists_eq_succ_of_ne_zero (by omega : fuel ≠ 0)
      rw [ptr_node, avlOffsetLoop]
      by_cases hhere : offset = pos
      · rw [if_pos hhere]
        exact ⟨_, rfl⟩
      · rw [if_neg hhere, load_eq hx, ok_bind, inRight_stored rfl hr, ok_bind]
        by_cases hup : pos < offset
        · rw [decide_eq_true ⟨hup, hhigh⟩, if_pos rfl]
          cases r with
          | nil => exact absurd hhigh (by rw [storedSize]; omega)
          | node y a b =>
              have hsize := hsized.right.1.1
              have hle := cntSucc_le (storedSize a)
              rw [storedSize] at hhigh
              simp only [ptr_node, load_eq hr.1, avlCnt_eq hr.2.1, ok_bind]
              exact ihr (by simp only [ne_eq, reduceCtorEq, not_false_eq_true]) hr hsized.right
                (by simp only [BinaryTree.left]; omega) (by simp only [BinaryTree.right]; omega)
                (by omega)
        · have hdown : offset < pos := by omega
          rw [decide_eq_false (fun h => hup h.1), if_neg Bool.false_ne_true,
            inLeft_stored rfl hl, ok_bind, decide_eq_true ⟨hdown, hlow⟩, if_pos rfl]
          cases l with
          | nil => exact absurd hlow (by rw [storedSize]; omega)
          | node y a b =>
              have hsize := hsized.left.1.2
              have hle := cntSucc_le (storedSize b)
              rw [storedSize] at hlow
              simp only [ptr_node, load_eq hl.1, avlCnt_eq hl.2.2, ok_bind]
              exact ihl (by simp only [ne_eq, reduceCtorEq, not_false_eq_true]) hl hsized.left
                (by simp only [BinaryTree.left]; omega) (by simp only [BinaryTree.right]; omega)
                (by omega)

/-- From any node the walk turns once for each level above the node, and once
    for each level of the tree it goes down in. -/
theorem avlOffset_ends {k : List (Frame (Note Nat))} {t : AvlTree} {fuel : Nat} (pos offset : Int)
    (hne : t ≠ nil) (htree : TreeAt σ (parentOf k) t) (hpath : PathAt σ k (ptr t))
    (hsized : Sized (plug k t)) (hnd : (vals (plug k t)).Nodup)
    (hfuel : k.length + (plug k t).height ≤ fuel) :
    ∃ r, avlOffsetLoop fuel σ (ptr t) pos offset = .ok r := by
  have hlevels := length_add_height_le k t
  have hpos : 0 < t.height := by
    cases t with
    | nil => exact absurd rfl hne
    | node x l r => exact Nat.succ_pos _
  by_cases hin : pos - storedSize t.left ≤ offset ∧ offset ≤ pos + storedSize t.right
  · exact avlOffset_down_ends hne htree hsized.place hin.1 hin.2 (by omega)
  · obtain ⟨fuel, rfl⟩ := Nat.exists_eq_succ_of_ne_zero (by omega : fuel ≠ 0)
    -- up the path until the target is below, or the root is passed
    induction k generalizing t pos fuel with
    | nil => exact ⟨none, avlOffset_root fuel hne htree (by omega)⟩
    | cons f k ih =>
        have hnd' := (vals_plug_perm (f :: k) t).nodup_iff.mp hnd
        have hfill : TreeAt σ (parentOf k) (f.fill t) := treeAt_fill.mpr ⟨hpath.1, htree, hpath.2.1⟩
        have hpath' : PathAt σ k (ptr (f.fill t)) := by
          rw [ptr_fill]
          exact hpath.2.2
        have hlevels' := length_add_height_le k (f.fill t)
        have hpos' : 0 < (f.fill t).height := by
          rw [f.height_fill]
          exact Nat.succ_pos _
        rw [List.length_cons] at hfuel
        rw [avlOffset_parent fuel hne htree hpath hnd' (by omega)]
        by_cases hin' : pos + upBy f t - storedSize (f.fill t).left ≤ offset ∧
            offset ≤ pos + upBy f t + storedSize (f.fill t).right
        · exact avlOffset_down_ends (f.fill_ne_nil t) hfill (Sized.place (k := k) hsized) hin'.1
            hin'.2 (by rw [plug_cons] at hfuel; omega)
        · obtain ⟨fuel, rfl⟩ := Nat.exists_eq_succ_of_ne_zero
            (by rw [plug_cons] at hfuel; omega : fuel ≠ 0)
          exact ih _ (f.fill_ne_nil t) hfill hpath' hsized hnd hlevels' hpos' hin' fuel
            (by rw [plug_cons] at hfuel; omega)

theorem numNodes_vals (t : AvlTree) : ((vals t).length : Int) = t.numNodes := by
  rw [length_vals]

/-! ## Down -/

/-- The target is in the subtree of the current node: the walk ends there. -/
theorem avlOffset_down {t : AvlTree} {pos offset : Int} {fuel : Nat} (hne : t ≠ nil)
    (htree : TreeAt σ parent t) (hcounted : Counted t) (hlow : pos - t.left.numNodes ≤ offset)
    (hhigh : offset ≤ pos + t.right.numNodes) (hfuel : 0 < fuel)
    (hright : pos < offset → t.right.numNodes < fuel)
    (hleft : offset < pos → t.left.numNodes < fuel) :
    avlOffsetLoop fuel σ (ptr t) pos offset =
      .ok (atRank (vals t) (t.left.numNodes + (offset - pos))) := by
  induction t generalizing parent pos fuel with
  | nil => exact absurd rfl hne
  | node x l r ihl ihr =>
      obtain ⟨fuel, rfl⟩ := Nat.exists_eq_succ_of_ne_zero (Nat.ne_of_gt hfuel)
      simp only [BinaryTree.left, BinaryTree.right] at hlow hhigh hright hleft ⊢
      rcases htree with ⟨hx, hl, hr⟩
      have hlen := numNodes_vals l
      rw [ptr_node, avlOffsetLoop, vals_node]
      by_cases hhere : offset = pos
      · rw [if_pos hhere, atRank_mid (by omega)]
      · rw [if_neg hhere, load_eq hx, ok_bind, inRight_eq rfl hr hcounted.right, ok_bind]
        by_cases hup : pos < offset
        · -- The target is in the right subtree, which is therefore not empty.
          rw [decide_eq_true ⟨hup, hhigh⟩, if_pos rfl]
          cases r with
          | nil => exact absurd hhigh (by rw [numNodes]; omega)
          | node y a b =>
              have hcnt : avlCnt σ (ptr a) = .ok a.numNodes :=
                avlCnt_counted hr.2.1 hcounted.right.left
              have hn := hright hup
              have hsmall := Counted.lt (t := node y a b) hcounted.right
              rw [numNodes] at hn hhigh hsmall
              have hload := load_eq hr.1
              rw [← ptr_node y a b] at hload
              dsimp only
              rw [hload, ok_bind, hcnt, ok_bind, cntSucc_eq (by omega), atRank_right (by omega),
                ihr (by simp only [ne_eq, reduceCtorEq, not_false_eq_true]) hr hcounted.right
                (by simp only [BinaryTree.left]; omega) (by simp only [BinaryTree.right]; omega)
                (by omega) (fun _ => by simp only [BinaryTree.right]; omega)
                (fun _ => by simp only [BinaryTree.left]; omega)]
              congr 2
              simp only [BinaryTree.left]
              omega
        · have hdown : offset < pos := by omega
          rw [decide_eq_false (fun h => hup h.1), if_neg Bool.false_ne_true,
            inLeft_eq rfl hl hcounted.left, ok_bind, decide_eq_true ⟨hdown, hlow⟩, if_pos rfl]
          cases l with
          | nil => exact absurd hlow (by rw [numNodes]; omega)
          | node y a b =>
              have hcnt : avlCnt σ (ptr b) = .ok b.numNodes :=
                avlCnt_counted hl.2.2 hcounted.left.right
              have hn := hleft hdown
              have hsmall := Counted.lt (t := node y a b) hcounted.left
              rw [numNodes] at hn hlow hsmall
              have hlen' := hlen
              rw [numNodes] at hlen'
              have hload := load_eq hl.1
              rw [← ptr_node y a b] at hload
              dsimp only
              rw [hload, ok_bind, hcnt, ok_bind, cntSucc_eq (by omega),
                atRank_left (by rw [hlen]; omega),
                ihl (by simp only [ne_eq, reduceCtorEq, not_false_eq_true]) hl hcounted.left
                (by simp only [BinaryTree.left]; omega) (by simp only [BinaryTree.right]; omega)
                (by omega) (fun _ => by simp only [BinaryTree.right]; omega)
                (fun _ => by simp only [BinaryTree.left]; omega)]
              congr 2
              simp only [BinaryTree.left, numNodes]
              omega

/-! ## Up -/

/-- A turn at a node whose subtree does not hold the target goes to the
    parent, and the rank difference follows. -/
theorem avlOffset_turn {f : Frame (Note Nat)} {k : List (Frame (Note Nat))} {t : AvlTree}
    {pos offset : Int} (fuel : Nat) (hne : t ≠ nil) (htree : TreeAt σ (parentOf (f :: k)) t)
    (hpath : PathAt σ (f :: k) (ptr t)) (hcounted : Counted t)
    (hnd : (vals t ++ pathVals (f :: k)).Nodup)
    (hout : offset < pos - t.left.numNodes ∨ pos + t.right.numNodes < offset) :
    ∃ pos', avlOffsetLoop (fuel + 1) σ (ptr t) pos offset =
        avlOffsetLoop fuel σ (ptr (f.fill t)) pos' offset ∧
      f.before.length + t.left.numNodes - pos = (f.fill t).left.numNodes - pos' ∧
      (offset < pos' → pos' - (f.fill t).left.numNodes ≤ offset →
        (f.fill t).left = f.sibling) ∧
      (pos' < offset → offset ≤ pos' + (f.fill t).right.numNodes →
        (f.fill t).right = f.sibling) := by
  refine ⟨pos + upBy f t, avlOffset_parent fuel hne htree hpath hnd
    (by rw [hcounted.left.storedSize, hcounted.right.storedSize]; exact hout), ?_⟩
  cases t with
  | nil => exact absurd rfl hne
  | node x l r =>
      have hlt := hcounted.lt
      have hl := hcounted.left.storedSize
      have hr := hcounted.right.storedSize
      simp only [BinaryTree.left, BinaryTree.right, numNodes] at hout hlt hl hr ⊢
      cases f with
      | left y s =>
          have hby : upBy (.left y s) (node x l r) = r.numNodes + 1 := by
            rw [upBy, BinaryTree.right, hr, cntSucc_eq (by omega)]
          rw [hby]
          refine ⟨?_, fun hlt hge => ?_, fun _ _ => rfl⟩
          · simp only [Frame.before, Frame.fill, List.length_nil, numNodes]
            omega
          · -- The left subtree is the one the walk came from.
            simp only [Frame.fill, numNodes] at hge
            omega
      | right s y =>
          have hby : upBy (.right s y) (node x l r) = -(l.numNodes + 1) := by
            rw [upBy, BinaryTree.left, hl, cntSucc_eq (by omega)]
          rw [hby]
          refine ⟨?_, fun _ _ => rfl, fun hgt hle => ?_⟩
          · simp only [Frame.before, Frame.fill, List.length_append, length_inorder,
              List.length_singleton]
            omega
          · simp only [Frame.fill, numNodes] at hle
            omega

/-- The target is outside the subtree of the current node: the walk goes up
    until it is inside, or there is no parent left. -/
theorem avlOffset_up {k : List (Frame (Note Nat))} {t : AvlTree} {pos offset : Int} {fuel : Nat}
    (hne : t ≠ nil) (htree : TreeAt σ (parentOf k) t) (hpath : PathAt σ k (ptr t))
    (hcounted : Counted (plug k t)) (hnd : (vals (plug k t)).Nodup)
    (hout : offset < pos - t.left.numNodes ∨ pos + t.right.numNodes < offset)
    (hfuel : (plug k t).numNodes < fuel + t.numNodes) :
    avlOffsetLoop fuel σ (ptr t) pos offset =
      .ok (atRank (vals (plug k t)) ((before k).length + t.left.numNodes + (offset - pos))) := by
  obtain ⟨fuel, rfl⟩ : ∃ n, fuel = n + 1 := by
    have hle := length_add_numNodes_le k t
    exact Nat.exists_eq_succ_of_ne_zero (by omega)
  -- up the path until the target is in the subtree, or the root is passed
  induction k generalizing t pos fuel with
  | nil =>
      cases t with
      | nil => exact absurd rfl hne
      | node x l r =>
          simp only [BinaryTree.left, BinaryTree.right] at hout ⊢
          have hlen := numNodes_vals (node x l r)
          rw [numNodes] at hlen
          rw [plug_nil, before, atRank_eq_none (by rw [List.length_nil]; omega)]
          have hc : Counted (node x l r) := hcounted
          refine avlOffset_root fuel hne htree ?_
          rw [hc.left.storedSize, hc.right.storedSize]
          exact hout
  | cons f k ih =>
      have ht := hcounted.place
      have hnd' := (vals_plug_perm (f :: k) t).nodup_iff.mp hnd
      rcases avlOffset_turn fuel hne htree hpath ht hnd' hout with
        ⟨pos', hturn, hpos, hleft, hright⟩
      have hfill : TreeAt σ (parentOf k) (f.fill t) := treeAt_fill.mpr ⟨hpath.1, htree, hpath.2.1⟩
      have hfe : Counted (f.fill t) := Counted.place (k := k) hcounted
      have hfne := f.fill_ne_nil t
      have hnodes := f.numNodes_fill t
      have hle := length_add_numNodes_le k (f.fill t)
      have hsplit : (f.fill t).numNodes =
          (f.fill t).left.numNodes + (f.fill t).right.numNodes + 1 := by
        cases f with
        | left x r => rfl
        | right l x => rfl
      have hrank : ((before (f :: k)).length : Int) + t.left.numNodes + (offset - pos) =
          ((before k).map Note.val).length + ((f.fill t).left.numNodes + (offset - pos')) := by
        rw [before, List.length_append, List.length_map]
        omega
      rw [plug_cons] at hfuel hcounted hnd ⊢
      rw [hturn, hrank]
      by_cases hin : pos' - (f.fill t).left.numNodes ≤ offset ∧
          offset ≤ pos' + (f.fill t).right.numNodes
      · have hlen := numNodes_vals (f.fill t)
        rw [avlOffset_down hfne hfill hfe hin.1 hin.2 (by omega)
          (fun h => by rw [hright h hin.2]; omega) (fun h => by rw [hleft h hin.1]; omega),
          vals_plug, atRank_append (by omega) (by omega)]
      · obtain ⟨fuel, rfl⟩ : ∃ n, fuel = n + 1 :=
          Nat.exists_eq_succ_of_ne_zero (by omega)
        have hpath' : PathAt σ k (ptr (f.fill t)) := by
          rw [ptr_fill]
          exact hpath.2.2
        rw [ih hfne hfill hpath' hcounted hnd (by omega) fuel (by omega), List.length_map,
          Int.add_assoc]

/-- `avl_offset`: the node at the rank, or `NULL` when there is none. -/
theorem avlOffset_spec {t : AvlTree} {a i : Nat} (h : Rooted σ t) (hcounted : Counted t)
    (ha : (vals t)[i]? = some a) (offset : Int) :
    avlOffset σ (some a) offset = .ok (atRank (vals t) (i + offset)) := by
  rcases List.mem_map.mp (List.mem_of_getElem? ha) with ⟨x, hx, rfl⟩
  rcases exists_plug_of_mem hx with ⟨k, l, r, rfl⟩
  rcases h.place with ⟨htree, hpath⟩
  -- The rank of the node's place.
  have hi : i = ((before k).map Note.val).length + l.numNodes := by
    have hat : (vals (plug k (node x l r)))[((before k).map Note.val).length + l.numNodes]? =
        some x.val := by
      rw [vals_plug, vals_node, List.append_assoc, List.getElem?_append_right (by omega),
        Nat.add_sub_cancel_left, List.append_assoc, List.getElem?_append_right
        (by rw [length_vals]), length_vals, Nat.sub_self]
      rfl
    exact (List.getElem?_inj (List.getElem?_eq_some_iff.mp ha).1 h.nodup).mp (ha.trans hat.symm)
  have hne : node x l r ≠ nil := by
    simp only [ne_eq, reduceCtorEq, not_false_eq_true]
  have hle := h.numNodes_le
  have hsub := length_add_numNodes_le k (node x l r)
  have hnodes : (node x l r).numNodes = l.numNodes + r.numNodes + 1 := rfl
  rw [avlOffset, ← ptr_node x l r]
  -- the target is below the start, or the walk goes up first
  by_cases hin : 0 - (l.numNodes : Int) ≤ offset ∧ offset ≤ 0 + (r.numNodes : Int)
  · have hlen := numNodes_vals (node x l r)
    rw [avlOffset_down hne htree hcounted.place hin.1 hin.2 (by omega)
      (fun _ => by simp only [BinaryTree.right]; omega)
      (fun _ => by simp only [BinaryTree.left]; omega), hi, vals_plug, Int.natCast_add, Int.add_assoc,
      atRank_append (by omega) (by omega)]
    congr 2
    simp only [BinaryTree.left]
    omega
  · rw [avlOffset_up hne htree hpath hcounted h.nodup
      (by simp only [BinaryTree.left, BinaryTree.right]; omega) (by omega), hi, List.length_map]
    congr 2
    simp only [BinaryTree.left]
    omega

end RedisServer
