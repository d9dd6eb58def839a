import RedisServer.Theory.Avl.Memory
import Mathlib.Data.List.Perm.Subperm

/-!
# The Repair in Memory

`rot_left`, `rot_right` and `avl_fix` do to the tree in memory what `rotL`,
`rotR` and `fixUp` do to the tree itself. They read the stored heights, so
this holds on any tree, also on one whose stored heights are wrong: a rotation
only happens where the taller side has a node to rotate, because a missing
node has height zero.

## Theorems

* `rotLeft_spec`, `rotRight_spec`: A rotation.
* `avlFixLeft_spec`, `avlFixRight_spec`: The repair of one node.
* `avlFix_spec`: The repair up to the root.
-/

namespace RedisServer

open Lib BinaryTree

variable {σ σ' : Store} {parent : Option Nat}

/-! ## Rotations -/

/-- The addresses around a left rotation are distinct. -/
theorem distinct_of_left {x y : Note Nat} {a b c : AvlTree}
    (h : (vals (node x a (node y b c))).Nodup) :
    x.val ≠ y.val ∧ (∀ v ∈ vals a, v ∉ [x.val, y.val] ∧ v ∉ vals b) ∧
      (∀ v ∈ vals b, v ∉ [x.val, y.val]) ∧
      (∀ v ∈ vals c, v ∉ [x.val, y.val] ∧ v ∉ vals b) ∧ (vals b).Nodup := by
  simp only [vals_node, List.nodup_append, List.nodup_cons, List.mem_append, List.mem_cons] at h
  grind

/-- The addresses around a right rotation are distinct. -/
theorem distinct_of_right {x y : Note Nat} {a b c : AvlTree}
    (h : (vals (node x (node y a b) c)).Nodup) :
    x.val ≠ y.val ∧ (∀ v ∈ vals a, v ∉ [x.val, y.val] ∧ v ∉ vals b) ∧
      (∀ v ∈ vals b, v ∉ [x.val, y.val]) ∧
      (∀ v ∈ vals c, v ∉ [x.val, y.val] ∧ v ∉ vals b) ∧ (vals b).Nodup := by
  simp only [vals_node, List.nodup_append, List.nodup_cons, List.mem_append, List.mem_cons] at h
  grind

/-- The end of a rotation: with the links of both nodes in place, the lower
    node and then the upper one are recomputed. -/
theorem updateBoth_spec {x y : Nat} {a b c l r : AvlTree} {n m : AVLNode}
    (hxy : x ≠ y) (hx : σ.cell x = some n) (hy : σ.cell y = some m)
    (hn : n.parent = some y ∧ n.left = ptr a ∧ n.right = ptr b)
    (hm : m.parent = parent ∧ m.left = ptr l ∧ m.right = ptr r)
    (hlr : l = build x a b ∧ r = c ∨ l = c ∧ r = build x a b)
    (ha : TreeAt σ (some x) a) (hb : TreeAt σ (some x) b) (hc : TreeAt σ (some y) c)
    (hna : ∀ v ∈ vals a, v ∉ [x, y]) (hnb : ∀ v ∈ vals b, v ∉ [x, y])
    (hnc : ∀ v ∈ vals c, v ∉ [x, y]) :
    ∃ σ', (do
        let σ ← avlUpdate σ (some x)
        let σ ← avlUpdate σ (some y)
        .ok (σ, some y) : Result (Store × Option Nat)) = .ok (σ', some y) ∧
      TreeAt σ' parent (build y l r) ∧ Changes σ σ' [x, y] := by
  -- `x` is below `y`, so its numbers are written first
  have hch₁ := Changes.put (l := [x, y]) σ (builtNode (some y) a b) List.mem_cons_self
  have hx₁ : TreeAt (σ.put x (builtNode (some y) a b)) (some y) (build x a b) :=
    ⟨put_cell_self _ _ _, ha.changes hch₁ hna, hb.changes hch₁ hnb⟩
  have hy₁ : (σ.put x (builtNode (some y) a b)).cell y = some m := by
    rw [put_cell_other σ hxy.symm, hy]
  have hc₁ := hc.changes hch₁ hnc
  have hl₁ : TreeAt (σ.put x (builtNode (some y) a b)) (some y) l := by
    rcases hlr with ⟨rfl, rfl⟩ | ⟨rfl, rfl⟩
    · exact hx₁
    · exact hc₁
  have hr₁ : TreeAt (σ.put x (builtNode (some y) a b)) (some y) r := by
    rcases hlr with ⟨rfl, rfl⟩ | ⟨rfl, rfl⟩
    · exact hc₁
    · exact hx₁
  -- writing `y` changes nothing below it
  have hny : ∀ t : AvlTree, (t = l ∨ t = r) → ∀ v ∈ vals t, v ∉ [y] := by
    intro t ht v hv hmem
    rw [List.mem_singleton.mp hmem] at hv
    have hsub : v ∈ vals (build x a b) ∨ v ∈ vals c := by
      rw [List.mem_singleton.mp hmem]
      rcases hlr with ⟨rfl, rfl⟩ | ⟨rfl, rfl⟩ <;> rcases ht with rfl | rfl
      · exact Or.inl hv
      · exact Or.inr hv
      · exact Or.inr hv
      · exact Or.inl hv
    rw [List.mem_singleton.mp hmem, vals_build, List.mem_append, List.mem_cons] at hsub
    have hself : y ∈ [x, y] := List.mem_cons_of_mem _ List.mem_cons_self
    rcases hsub with (h | h | h) | h
    · exact hna y h hself
    · exact hxy h.symm
    · exact hnb y h hself
    · exact hnc y h hself
  have hch₂ := Changes.put (l := [y]) (σ.put x (builtNode (some y) a b)) (builtNode parent l r)
    List.mem_cons_self
  refine ⟨_, ?_, ⟨put_cell_self _ _ _, hl₁.changes hch₂ (hny l (Or.inl rfl)),
    hr₁.changes hch₂ (hny r (Or.inr rfl))⟩, hch₁.trans (hch₂.mono ?_)⟩
  · rw [avlUpdate_spec hx hn.1 hn.2.1 hn.2.2 ha hb, ok_bind,
      avlUpdate_spec hy₁ hm.1 hm.2.1 hm.2.2 hl₁ hr₁, ok_bind]
    rfl
  · exact List.subset_cons_self _ _

/-- The first half of a rotation: the inner subtree `b` moves from `y` to `x`,
    whose fields become `n`. -/
theorem moveInner_spec {x y : Nat} {b : AvlTree} {n : AVLNode} (hxy : x ≠ y)
    (hb : TreeAt σ (some y) b) (hnb : ∀ v ∈ vals b, v ∉ [x, y]) (hndb : (vals b).Nodup) :
    ∃ σ', setParent (σ.put x n) (ptr b) (some x) = .ok σ' ∧ σ'.cell x = some n ∧
      σ'.cell y = σ.cell y ∧ TreeAt σ' (some x) b ∧ Changes σ σ' (x :: vals b) := by
  have hch₁ := Changes.put (l := [x, y]) σ n List.mem_cons_self
  rcases setParent_spec (hb.changes hch₁ hnb) hndb (some x) with ⟨σ', hset, hb', hch⟩
  refine ⟨σ', hset, ?_, ?_, hb', ?_⟩
  · rw [hch.cell _ fun hmem => hnb _ hmem List.mem_cons_self, put_cell_self]
  · rw [hch.cell _ fun hmem => hnb _ hmem (List.mem_cons_of_mem _ List.mem_cons_self),
      put_cell_other σ hxy.symm]
  · exact (Changes.put σ n List.mem_cons_self).trans (hch.mono (List.subset_cons_self _ _))

/-- The second half of a rotation: `y` takes the place of `x`, which goes
    below it by the assignment `f`. -/
theorem swap_spec {x y : Nat} {a b c l r : AvlTree} {n m : AVLNode} {f : AVLNode → AVLNode}
    (hxy : x ≠ y) (hx : σ.cell x = some n) (hy : σ.cell y = some m)
    (hn : n.left = ptr a ∧ n.right = ptr b)
    (hm : (f { m with parent := parent }).parent = parent ∧
      (f { m with parent := parent }).left = ptr l ∧ (f { m with parent := parent }).right = ptr r)
    (hlr : l = build x a b ∧ r = c ∨ l = c ∧ r = build x a b)
    (ha : TreeAt σ (some x) a) (hb : TreeAt σ (some x) b) (hc : TreeAt σ (some y) c)
    (hna : ∀ v ∈ vals a, v ∉ [x, y]) (hnb : ∀ v ∈ vals b, v ∉ [x, y])
    (hnc : ∀ v ∈ vals c, v ∉ [x, y]) :
    ∃ σ', (do
        let σ ← σ.modify (some y) fun n => { n with parent := parent }
        let σ ← σ.modify (some y) f
        let σ ← σ.modify (some x) fun n => { n with parent := some y }
        let σ ← avlUpdate σ (some x)
        let σ ← avlUpdate σ (some y)
        .ok (σ, some y) : Result (Store × Option Nat)) = .ok (σ', some y) ∧
      TreeAt σ' parent (build y l r) ∧ Changes σ σ' [x, y] := by
  have hmem : y ∈ [x, y] := List.mem_cons_of_mem _ List.mem_cons_self
  have hy₁ : (σ.put y { m with parent := parent }).cell y = some { m with parent := parent } :=
    put_cell_self _ _ _
  have hx₂ : ((σ.put y { m with parent := parent }).put y (f { m with parent := parent })).cell x =
      some n := by
    rw [put_cell_other _ hxy, put_cell_other _ hxy, hx]
  -- three writes, to the two nodes only
  have hch := ((Changes.put σ { m with parent := parent } hmem).trans
    (Changes.put _ (f { m with parent := parent }) hmem)).trans
    (Changes.put _ { n with parent := some y } List.mem_cons_self)
  rcases updateBoth_spec hxy (put_cell_self _ x { n with parent := some y })
    (by rw [put_cell_other _ hxy.symm, put_cell_self]) ⟨rfl, hn⟩ hm hlr (ha.changes hch hna)
    (hb.changes hch hnb) (hc.changes hch hnc) hna hnb hnc with ⟨σ', hrun, htree, hch'⟩
  refine ⟨σ', ?_, htree, hch.trans hch'⟩
  rw [modify_eq_put hy, ok_bind, modify_eq_put hy₁, ok_bind, modify_eq_put hx₂, ok_bind]
  exact hrun

/-- `rot_left`. -/
theorem rotLeft_spec {x y : Note Nat} {a b c : AvlTree}
    (h : TreeAt σ parent (node x a (node y b c))) (hnd : (vals (node x a (node y b c))).Nodup) :
    ∃ σ', rotLeft σ (some x.val) = .ok (σ', some y.val) ∧
      TreeAt σ' parent (rotL (node x a (node y b c))) ∧
      Changes σ σ' (vals (node x a (node y b c))) := by
  rcases distinct_of_left hnd with ⟨hxy, hna, hnb, hnc, hndb⟩
  rcases h with ⟨hx, ha, hy, hb, hc⟩
  -- the inner subtree changes its parent first
  rcases moveInner_spec (n := ⟨parent, ptr a, ptr b, x.height, x.size⟩) hxy hb hnb hndb with
    ⟨σ₂, hset, hx₂, hy₂, hb₂, hch⟩
  rw [hy] at hy₂
  -- the outer subtrees are not touched
  have ha₂ := ha.changes hch fun v hv hmem => (List.mem_cons.mp hmem).elim
    (fun h => (hna v hv).1 (by rw [h]; exact List.mem_cons_self)) (hna v hv).2
  have hc₂ := hc.changes hch fun v hv hmem => (List.mem_cons.mp hmem).elim
    (fun h => (hnc v hv).1 (by rw [h]; exact List.mem_cons_self)) (hnc v hv).2
  rcases swap_spec (l := build x.val a b) (r := c)
    (f := fun n => { n with left := some x.val }) hxy hx₂ hy₂ ⟨rfl, rfl⟩ ⟨rfl, rfl, rfl⟩
    (Or.inl ⟨rfl, rfl⟩) ha₂ hb₂ hc₂ (fun v hv => (hna v hv).1) hnb (fun v hv => (hnc v hv).1) with
    ⟨σ', hrun, htree, hch'⟩
  refine ⟨σ', ?_, htree, (hch.mono ?_).trans (hch'.mono ?_)⟩
  · simp only [rotLeft, load_eq hx, ok_bind, ptr_node, load_eq hy, modify_eq_put hx, hset]
    exact hrun
  · intro v hv
    simp only [vals_node, List.mem_append, List.mem_cons] at hv ⊢
    tauto
  · intro v hv
    simp only [vals_node, List.mem_append, List.mem_cons, List.not_mem_nil, or_false] at hv ⊢
    tauto

/-- `rot_right`. -/
theorem rotRight_spec {x y : Note Nat} {a b c : AvlTree}
    (h : TreeAt σ parent (node x (node y a b) c)) (hnd : (vals (node x (node y a b) c)).Nodup) :
    ∃ σ', rotRight σ (some x.val) = .ok (σ', some y.val) ∧
      TreeAt σ' parent (rotR (node x (node y a b) c)) ∧
      Changes σ σ' (vals (node x (node y a b) c)) := by
  rcases distinct_of_right hnd with ⟨hxy, hna, hnb, hnc, hndb⟩
  rcases h with ⟨hx, ⟨hy, ha, hb⟩, hc⟩
  -- the inner subtree changes its parent first
  rcases moveInner_spec (n := ⟨parent, ptr b, ptr c, x.height, x.size⟩) hxy hb hnb hndb with
    ⟨σ₂, hset, hx₂, hy₂, hb₂, hch⟩
  rw [hy] at hy₂
  -- the outer subtrees are not touched
  have ha₂ := ha.changes hch fun v hv hmem => (List.mem_cons.mp hmem).elim
    (fun h => (hna v hv).1 (by rw [h]; exact List.mem_cons_self)) (hna v hv).2
  have hc₂ := hc.changes hch fun v hv hmem => (List.mem_cons.mp hmem).elim
    (fun h => (hnc v hv).1 (by rw [h]; exact List.mem_cons_self)) (hnc v hv).2
  rcases swap_spec (l := a) (r := build x.val b c)
    (f := fun n => { n with right := some x.val }) hxy hx₂ hy₂ ⟨rfl, rfl⟩ ⟨rfl, rfl, rfl⟩
    (Or.inr ⟨rfl, rfl⟩) hb₂ hc₂ ha₂ hnb (fun v hv => (hnc v hv).1) (fun v hv => (hna v hv).1) with
    ⟨σ', hrun, htree, hch'⟩
  refine ⟨σ', ?_, htree, (hch.mono ?_).trans (hch'.mono ?_)⟩
  · simp only [rotRight, load_eq hx, ok_bind, ptr_node, load_eq hy, modify_eq_put hx, hset]
    exact hrun
  · intro v hv
    simp only [vals_node, List.mem_append, List.mem_cons] at hv ⊢
    tauto
  · intro v hv
    simp only [vals_node, List.mem_append, List.mem_cons, List.not_mem_nil, or_false] at hv ⊢
    tauto

/-! ## The repair of one node -/

/-- `rot_left` of a node that has a right child. -/
theorem rotLeft_eq {x : Note Nat} {l r : AvlTree} (h : TreeAt σ parent (node x l r))
    (hnd : (vals (node x l r)).Nodup) (hne : r ≠ nil) :
    ∃ σ', rotLeft σ (some x.val) = .ok (σ', ptr (rotL (node x l r))) ∧
      TreeAt σ' parent (rotL (node x l r)) ∧ Changes σ σ' (vals (node x l r)) := by
  cases r with
  | nil => exact absurd rfl hne
  | node y b c => exact rotLeft_spec h hnd

/-- `rot_right` of a node that has a left child. -/
theorem rotRight_eq {x : Note Nat} {l r : AvlTree} (h : TreeAt σ parent (node x l r))
    (hnd : (vals (node x l r)).Nodup) (hne : l ≠ nil) :
    ∃ σ', rotRight σ (some x.val) = .ok (σ', ptr (rotR (node x l r))) ∧
      TreeAt σ' parent (rotR (node x l r)) ∧ Changes σ σ' (vals (node x l r)) := by
  cases l with
  | nil => exact absurd rfl hne
  | node y a b => exact rotRight_spec h hnd

theorem vals_fill_perm (f : Frame (Note Nat)) (t : AvlTree) :
    (vals (f.fill t)).Perm (f.val.val :: vals f.sibling ++ vals t) := by
  cases f with
  | left x r =>
      rw [Frame.fill, vals_node]
      exact List.perm_append_comm
  | right l x =>
      rw [Frame.fill, vals_node]
      exact List.perm_middle

/-- A subtree that was changed in place is written back to its parent's
    link. -/
theorem replaceChild_spec {f : Frame (Note Nat)} {t u : AvlTree} {σ₁ : Store}
    (h : TreeAt σ parent (f.fill t)) (hnd : (vals (f.fill t)).Nodup)
    (hu : TreeAt σ₁ (some f.val.val) u) (hch : Changes σ σ₁ (vals t)) (hvals : vals u ⊆ vals t) :
    ∃ σ₂, setChild σ₁ (some f.val.val) (onLeft f) (ptr u) = .ok σ₂ ∧
      TreeAt σ₂ parent (f.fill u) ∧ Changes σ σ₂ (vals (f.fill t)) := by
  rcases treeAt_fill.mp h with ⟨hf, _, hsib⟩
  have hp := vals_fill_perm f t
  rw [hp.nodup_iff, List.cons_append, List.nodup_cons, List.mem_append, not_or,
    List.nodup_append] at hnd
  rcases hnd with ⟨⟨hfs, hft⟩, _, _, hst⟩
  have hf₁ : σ₁.cell f.val.val = some (frameNode parent (ptr t) f) := by
    rw [hch.cell _ hft, hf]
  have hsib₁ : TreeAt σ₁ (some f.val.val) f.sibling :=
    hsib.changes hch fun a ha hmem => hst a ha a hmem rfl
  -- either side is one write to the frame's node
  have hput : setChild σ₁ (some f.val.val) (onLeft f) (ptr u) =
      .ok (σ₁.put f.val.val (frameNode parent (ptr u) f)) := by
    cases f with
    | left x r => exact modify_eq_put hf₁ _
    | right l x => exact modify_eq_put hf₁ _
  have hch₂ := Changes.put (l := [f.val.val]) σ₁ (frameNode parent (ptr u) f)
    (List.mem_singleton.mpr rfl)
  refine ⟨_, hput, treeAt_fill.mpr ⟨put_cell_self _ _ _, hu.changes hch₂ fun a ha hmem => ?_,
    hsib₁.changes hch₂ fun a ha hmem => ?_⟩, (hch.mono ?_).trans (hch₂.mono ?_)⟩
  · rw [List.mem_singleton.mp hmem] at ha
    exact hft (hvals ha)
  · rw [List.mem_singleton.mp hmem] at ha
    exact hfs ha
  · intro a ha
    exact hp.mem_iff.mpr (List.mem_append_right _ ha)
  · intro a ha
    rw [List.mem_singleton.mp ha]
    exact hp.mem_iff.mpr List.mem_cons_self

/-- `avl_fix_left`. -/
theorem avlFixLeft_spec {x : Note Nat} {l r : AvlTree} (h : TreeAt σ parent (node x l r))
    (hnd : (vals (node x l r)).Nodup) (hne : l ≠ nil) :
    ∃ σ', avlFixLeft σ (some x.val) = .ok (σ', ptr (fixL (node x l r))) ∧
      TreeAt σ' parent (fixL (node x l r)) ∧ Changes σ σ' (vals (node x l r)) := by
  cases l with
  | nil => exact absurd rfl hne
  | node y a b =>
      have htree := h
      rcases h with ⟨hx, hl, hr⟩
      -- the inner grandchild is the taller one: two rotations
      by_cases hlt : storedHeight a < storedHeight b
      -- it is not missing, since a missing one has height zero
      · have hinner : b ≠ nil := by
          rintro rfl
          exact absurd hlt (Nat.not_lt_zero _)
        have hfix : fixL (node x (node y a b) r) = rotR (node x (rotL (node y a b)) r) := by
          rw [fixL, BinaryTree.left, BinaryTree.right, if_pos hlt]
        have hv : vals (node x (rotL (node y a b)) r) = vals (node x (node y a b) r) := by
          rw [vals_node, vals_rotL, ← vals_node]
        have hd := hnd
        rw [vals_node, List.nodup_append, List.nodup_cons] at hd
        rcases rotLeft_eq hl hd.1 hinner with ⟨σ₁, hrot, hu, hch⟩
        rcases replaceChild_spec (f := .left x r) htree hnd hu hch
          (by rw [vals_rotL]; exact List.Subset.refl _) with ⟨σ₂, hset, htree₂, hch₂⟩
        have hne₂ : rotL (node y a b) ≠ nil := by
          rw [ne_eq, ← vals_eq_nil, vals_rotL, vals_eq_nil]
          exact hne
        rcases rotRight_eq htree₂ (by rw [hv]; exact hnd) hne₂ with ⟨σ', hrun, htree', hch'⟩
        rw [hv] at hch'
        refine ⟨σ', ?_, by rw [hfix]; exact htree', hch₂.trans hch'⟩
        simp only [avlFixLeft, load_eq hx, ok_bind, ptr_node, load_eq hl.1, avlHeight_eq hl.2.1,
          avlHeight_eq hl.2.2, if_pos hlt, hrot, hfix]
        -- the child pointer is written between the two rotations
        have hwrite : σ₁.modify (some x.val) (fun n => { n with left := ptr (rotL (node y a b)) }) =
            .ok σ₂ := hset
        rw [hwrite, ok_bind]
        exact hrun
      · have hfix : fixL (node x (node y a b) r) = rotR (node x (node y a b) r) := by
          rw [fixL, BinaryTree.left, BinaryTree.right, if_neg hlt]
        rcases rotRight_eq htree hnd hne with ⟨σ', hrun, htree', hch⟩
        refine ⟨σ', ?_, by rw [hfix]; exact htree', hch⟩
        simp only [avlFixLeft, load_eq hx, ok_bind, ptr_node, load_eq hl.1, avlHeight_eq hl.2.1,
          avlHeight_eq hl.2.2, if_neg hlt, hfix]
        exact hrun

/-- `avl_fix_right`. -/
theorem avlFixRight_spec {x : Note Nat} {l r : AvlTree} (h : TreeAt σ parent (node x l r))
    (hnd : (vals (node x l r)).Nodup) (hne : r ≠ nil) :
    ∃ σ', avlFixRight σ (some x.val) = .ok (σ', ptr (fixR (node x l r))) ∧
      TreeAt σ' parent (fixR (node x l r)) ∧ Changes σ σ' (vals (node x l r)) := by
  cases r with
  | nil => exact absurd rfl hne
  | node y a b =>
      have htree := h
      rcases h with ⟨hx, hl, hr⟩
      -- the mirror image of `avlFixLeft_spec`
      by_cases hlt : storedHeight b < storedHeight a
      · have hinner : a ≠ nil := by
          rintro rfl
          exact absurd hlt (Nat.not_lt_zero _)
        have hfix : fixR (node x l (node y a b)) = rotL (node x l (rotR (node y a b))) := by
          rw [fixR, BinaryTree.left, BinaryTree.right, if_pos hlt]
        have hv : vals (node x l (rotR (node y a b))) = vals (node x l (node y a b)) := by
          rw [vals_node, vals_rotR, ← vals_node]
        have hd := hnd
        rw [vals_node, List.nodup_append, List.nodup_cons] at hd
        rcases rotRight_eq hr hd.2.1.2 hinner with ⟨σ₁, hrot, hu, hch⟩
        rcases replaceChild_spec (f := .right l x) htree hnd hu hch
          (by rw [vals_rotR]; exact List.Subset.refl _) with ⟨σ₂, hset, htree₂, hch₂⟩
        have hne₂ : rotR (node y a b) ≠ nil := by
          rw [ne_eq, ← vals_eq_nil, vals_rotR, vals_eq_nil]
          exact hne
        rcases rotLeft_eq htree₂ (by rw [hv]; exact hnd) hne₂ with ⟨σ', hrun, htree', hch'⟩
        rw [hv] at hch'
        refine ⟨σ', ?_, by rw [hfix]; exact htree', hch₂.trans hch'⟩
        simp only [avlFixRight, load_eq hx, ok_bind, ptr_node, load_eq hr.1, avlHeight_eq hr.2.1,
          avlHeight_eq hr.2.2, if_pos hlt, hrot, hfix]
        -- the child pointer is written between the two rotations
        have hwrite : σ₁.modify (some x.val) (fun n => { n with right := ptr (rotR (node y a b)) }) =
            .ok σ₂ := hset
        rw [hwrite, ok_bind]
        exact hrun
      · have hfix : fixR (node x l (node y a b)) = rotL (node x l (node y a b)) := by
          rw [fixR, BinaryTree.left, BinaryTree.right, if_neg hlt]
        rcases rotLeft_eq htree hnd hne with ⟨σ', hrun, htree', hch⟩
        refine ⟨σ', ?_, by rw [hfix]; exact htree', hch⟩
        simp only [avlFixRight, load_eq hx, ok_bind, ptr_node, load_eq hr.1, avlHeight_eq hr.2.1,
          avlHeight_eq hr.2.2, if_neg hlt, hfix]
        exact hrun

/-- A node whose stored numbers were recomputed. -/
theorem treeAt_put_build {x : Note Nat} {l r : AvlTree} (h : TreeAt σ parent (node x l r))
    (hnd : (vals (node x l r)).Nodup) :
    TreeAt (σ.put x.val (builtNode parent l r)) parent (build x.val l r) := by
  rw [vals_node, List.nodup_middle, List.nodup_cons, List.mem_append, not_or] at hnd
  refine ⟨put_cell_self _ _ _, h.2.1.congr fun a ha => put_cell_other σ ?_ _,
    h.2.2.congr fun a ha => put_cell_other σ ?_ _⟩
  · rintro rfl
    exact hnd.1.1 ha
  · rintro rfl
    exact hnd.1.2 ha

/-- The repair of one node, after its stored numbers were recomputed. -/
theorem fixNode_spec {x : Note Nat} {l r : AvlTree} (h : TreeAt σ parent (node x l r))
    (hnd : (vals (node x l r)).Nodup) :
    ∃ σ', (if storedHeight l = storedHeight r + 2 then
          avlFixLeft (σ.put x.val (builtNode parent l r)) (some x.val)
        else if storedHeight l + 2 = storedHeight r then
          avlFixRight (σ.put x.val (builtNode parent l r)) (some x.val)
        else .ok (σ.put x.val (builtNode parent l r), some x.val)) =
          .ok (σ', ptr (fixNode (node x l r))) ∧
      TreeAt σ' parent (fixNode (node x l r)) ∧ Changes σ σ' (vals (node x l r)) := by
  have hch := Changes.put (l := vals (node x l r)) σ (builtNode parent l r)
    (show x.val ∈ _ from mem_vals_of_ptr (t := node x l r) rfl)
  have hnd' : (vals (build x.val l r)).Nodup := by
    rw [vals_build, ← vals_node]
    exact hnd
  have hbuild := treeAt_put_build h hnd
  have hvals : vals (build x.val l r) = vals (node x l r) := by
    rw [vals_build, vals_node]
  -- at most one of the two branches rotates
  rw [fixNode_node]
  by_cases hL : storedHeight l = storedHeight r + 2
  · -- A missing left subtree would have height zero.
    have hne : l ≠ nil := by
      rintro rfl
      exact absurd hL (by rw [storedHeight]; omega)
    rcases avlFixLeft_spec hbuild hnd' hne with ⟨σ', hrun, htree, hch'⟩
    rw [← build, hvals] at hch'
    rw [if_pos hL, if_pos hL]
    exact ⟨σ', hrun, htree, hch.trans hch'⟩
  · rw [if_neg hL, if_neg hL]
    by_cases hR : storedHeight l + 2 = storedHeight r
    · have hne : r ≠ nil := by
        rintro rfl
        exact absurd hR (by rw [storedHeight.eq_1]; omega)
      rcases avlFixRight_spec hbuild hnd' hne with ⟨σ', hrun, htree, hch'⟩
      rw [← build, hvals] at hch'
      rw [if_pos hR, if_pos hR]
      exact ⟨σ', hrun, htree, hch.trans hch'⟩
    · rw [if_neg hR, if_neg hR]
      exact ⟨_, rfl, hbuild, hch⟩

/-! ## The repair up to the root -/

/-- What a repair leaves at a hole is written back, or was there already. -/
theorem writeBack_spec {f : Frame (Note Nat)} {k : List (Frame (Note Nat))} {t u : AvlTree}
    {p : Prop} [Decidable p] (hpath : PathAt σ (f :: k) (ptr t)) (hu : TreeAt σ (some f.val.val) u)
    (hnd : (vals u ++ pathVals (f :: k)).Nodup) (hsame : ¬ p → ptr u = ptr t) :
    ∃ σ', (if p then setChild σ (parentOf (f :: k)) (onLeft f) (ptr u) else .ok σ) = .ok σ' ∧
      TreeAt σ' (parentOf k) (f.fill u) ∧ PathAt σ' k (some f.val.val) ∧
      Changes σ σ' (pathVals (f :: k)) := by
  have hmem := parent_mem_pathVals f k
  rw [List.nodup_append] at hnd
  split
  · rcases setChild_spec hpath hnd.2.1 (ptr u) with ⟨σ', hset, hpath', hch⟩
    refine ⟨σ', hset, treeAt_fill.mpr ⟨hpath'.1, hu.changes hch fun a ha ha' => ?_, hpath'.2.1⟩,
      hpath'.2.2, hch.mono fun a ha => ?_⟩
    · rw [List.mem_singleton.mp ha'] at ha
      exact hnd.2.2 _ ha _ hmem rfl
    · rw [List.mem_singleton.mp ha]
      exact hmem
  · rename_i hp
    rw [← hsame hp] at hpath
    exact ⟨σ, rfl, treeAt_fill.mpr ⟨hpath.1, hu, hpath.2.1⟩, hpath.2.2, Changes.refl σ _⟩

/-- The start of a turn: the node is recomputed, and the heights of its
    subtrees are read. -/
theorem avlFixLoop_turn {x : Note Nat} {l r : AvlTree} (h : TreeAt σ parent (node x l r))
    (hnd : (vals (node x l r)).Nodup) {b : Bool}
    (hside : sideOf σ parent (some x.val) = .ok b) (fuel : Nat) :
    avlFixLoop (fuel + 1) σ (some x.val) = (do
      let (σ, top) ←
        (if storedHeight l = storedHeight r + 2 then
          avlFixLeft (σ.put x.val (builtNode parent l r)) (some x.val)
        else if storedHeight l + 2 = storedHeight r then
          avlFixRight (σ.put x.val (builtNode parent l r)) (some x.val)
        else .ok (σ.put x.val (builtNode parent l r), some x.val))
      if parent = none then .ok (σ, top)
      else do
        let σ ←
          (if storedHeight l = storedHeight r + 2 ∨ storedHeight l + 2 = storedHeight r then
            setChild σ parent b top
          else .ok σ)
        avlFixLoop fuel σ parent) := by
  have hbuild := treeAt_put_build h hnd
  rw [avlFixLoop]
  have hl : (builtNode parent l r).left = ptr l := rfl
  have hr : (builtNode parent l r).right = ptr r := rfl
  simp only [load_eq h.1, ok_bind, hside, avlUpdate_spec h.1 rfl rfl rfl h.2.1 h.2.2,
    load_eq (put_cell_self σ x.val _), hl, hr, avlHeight_eq hbuild.2.1, avlHeight_eq hbuild.2.2]

/-- The loop of `avl_fix`. -/
theorem avlFixLoop_spec (k : List (Frame (Note Nat))) : ∀ {t : AvlTree} {fuel : Nat} {σ : Store},
    k.length < fuel → t ≠ nil → TreeAt σ (parentOf k) t → PathAt σ k (ptr t) →
    (vals (plug k t)).Nodup →
    ∃ σ', avlFixLoop fuel σ (ptr t) = .ok (σ', ptr (fixUp k t)) ∧
      TreeAt σ' none (fixUp k t) ∧ Changes σ σ' (vals (plug k t)) := by
  -- induction on the path to the root; the subtree grows by one frame each turn
  induction k with
  | nil =>
      intro t fuel σ hfuel hne htree hpath hnd
      cases t with
      | nil => exact absurd rfl hne
      | node x l r =>
          rcases fixNode_spec htree hnd with ⟨σ₂, hrun, htree₂, hch⟩
          obtain ⟨fuel, rfl⟩ := Nat.exists_eq_succ_of_ne_zero (Nat.ne_of_gt hfuel)
          refine ⟨σ₂, ?_, htree₂, hch⟩
          rw [ptr_node, avlFixLoop_turn htree hnd (b := false) rfl]
          rw [hrun]
          rfl
  | cons f k ih =>
      intro t fuel σ hfuel hne htree hpath hnd
      cases t with
      | nil => exact absurd rfl hne
      | node x l r =>
          have hp := vals_plug_perm (f :: k) (node x l r)
          rw [hp.nodup_iff] at hnd
          have hd := List.nodup_append.mp hnd
          have hsib := not_mem_sibling hnd
          rcases fixNode_spec htree hd.1 with ⟨σ₂, hrun, htree₂, hch⟩
          have hpath₂ := hpath.changes hch fun a ha hmem => hd.2.2 a hmem a ha rfl
          -- Without a rotation the node stays where it is.
          have hsame : ¬ (storedHeight l = storedHeight r + 2 ∨ storedHeight l + 2 = storedHeight r) →
              ptr (fixNode (node x l r)) = ptr (node x l r) := by
            intro hno
            rw [not_or] at hno
            rw [fixNode_node, if_neg hno.1, if_neg hno.2]
            rfl
          rcases writeBack_spec hpath₂ htree₂ (by rw [vals_fixNode]; exact hnd) hsame with
            ⟨σ₃, hset, htree₃, hpath₃, hch₃⟩
          obtain ⟨fuel, rfl⟩ := Nat.exists_eq_succ_of_ne_zero (Nat.ne_of_gt (Nat.zero_lt_of_lt hfuel))
          have hvals : vals (plug k (f.fill (fixNode (node x l r)))) =
              vals (plug (f :: k) (node x l r)) := by
            rw [← plug_cons]
            exact vals_plug_congr _ (vals_fixNode _)
          -- the next turn starts at the parent
          have hpath₃' : PathAt σ₃ k (ptr (f.fill (fixNode (node x l r)))) := by
            rw [ptr_fill]
            exact hpath₃
          rcases ih (Nat.lt_of_succ_lt_succ hfuel) (f.fill_ne_nil _) htree₃ hpath₃'
            (by rw [hvals, hp.nodup_iff]; exact hnd) with ⟨σ', hloop, htree', hch'⟩
          rw [hvals] at hch'
          refine ⟨σ', ?_, htree', ((hch.mono ?_).trans (hch₃.mono ?_)).trans hch'⟩
          · rw [ptr_node, avlFixLoop_turn htree hd.1 (sideOf_eq hpath hsib), hrun, ok_bind]
            dsimp only
            rw [if_neg (by simp only [parentOf, reduceCtorEq, not_false_eq_true]), hset, ok_bind]
            rw [ptr_fill] at hloop
            exact hloop
          · intro a ha
            exact hp.mem_iff.mpr (List.mem_append_left _ ha)
          · intro a ha
            exact hp.mem_iff.mpr (List.mem_append_right _ ha)

/-- A whole tree in memory: laid out from its root, each node once, at
    addresses that were handed out. -/
structure Rooted (σ : Store) (t : AvlTree) : Prop where
  tree : TreeAt σ none t
  nodup : (vals t).Nodup
  lt : ∀ a ∈ vals t, a < σ.next

namespace Rooted

theorem numNodes_le {t : AvlTree} (h : Rooted σ t) : t.numNodes ≤ σ.next := by
  have hsub : (vals t).Subperm (List.range σ.next) :=
    h.nodup.subperm fun a ha => List.mem_range.mpr (h.lt a ha)
  have hlen := hsub.length_le
  rw [length_vals, List.length_range] at hlen
  exact hlen

/-- A place in a whole tree. -/
theorem place {k : List (Frame (Note Nat))} {t : AvlTree} (h : Rooted σ (plug k t)) :
    TreeAt σ (parentOf k) t ∧ PathAt σ k (ptr t) := treeAt_plug.mp h.tree

theorem nodup_place {k : List (Frame (Note Nat))} {t : AvlTree} (h : Rooted σ (plug k t)) :
    (vals t ++ pathVals k).Nodup := (vals_plug_perm k t).nodup_iff.mp h.nodup

end Rooted

/-- `avl_fix`. -/
theorem avlFix_spec {k : List (Frame (Note Nat))} {t : AvlTree} (hne : t ≠ nil)
    (h : Rooted σ (plug k t)) :
    ∃ σ', avlFix σ (ptr t) = .ok (σ', ptr (fixUp k t)) ∧ Rooted σ' (fixUp k t) ∧
      Changes σ σ' (vals (plug k t)) := by
  have hlen := length_add_numNodes_le k t
  have hle := h.numNodes_le
  rcases avlFixLoop_spec k (by omega : k.length < σ.next + 1) hne h.place.1 h.place.2 h.nodup with
    ⟨σ', hrun, htree, hch⟩
  refine ⟨σ', hrun, ⟨htree, ?_, fun a ha => ?_⟩, hch⟩
  · rw [vals_fixUp]
    exact h.nodup
  · rw [vals_fixUp] at ha
    rw [hch.next]
    exact h.lt a ha

end RedisServer
