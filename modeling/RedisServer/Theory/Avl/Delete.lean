import RedisServer.Theory.Avl.Fix

/-!
# Deletion in Memory

`avl_del` takes a node out of the tree. A node with at most one child is
replaced by that child. A node with two children is replaced by its successor,
which is taken out first: the repair that follows may rotate the node itself,
so the successor goes wherever the node is by then.

The successor moves into the node's links and keeps the numbers it stored in
its old place. The tree that results has the right listing, whatever those
numbers are.

## Theorems

* `avlDelEasy_spec`: The removal of a node with at most one child.
* `leftmost_spec`: The walk to the successor.
* `avlDel_easy`, `avlDel_hard`: The two cases of `avl_del`.
* `avlDel_spec`: In both, the listing loses the node and nothing else.
-/

namespace RedisServer

open Lib BinaryTree

variable {σ σ' : Store}

/-- The node has at most one child, and `c` is what hangs there. -/
def OnlyChild (l r c : AvlTree) : Prop := l = nil ∧ c = r ∨ r = nil ∧ c = l

theorem exists_onlyChild {l r : AvlTree} (h : l = nil ∨ r = nil) : ∃ c, OnlyChild l r c := by
  rcases h with hl | hr
  · exact ⟨r, Or.inl ⟨hl, rfl⟩⟩
  · exact ⟨l, Or.inr ⟨hr, rfl⟩⟩

/-- Removing the node at a place removes its address from the listing. -/
theorem vals_plug_removed {k : List (Frame (Note Nat))} {x : Note Nat} {l r c : AvlTree}
    (hc : OnlyChild l r c) :
    ∃ xs ys, vals (plug k (node x l r)) = xs ++ x.val :: ys ∧ vals (plug k c) = xs ++ ys := by
  refine ⟨(before k).map Note.val ++ vals l, vals r ++ (after k).map Note.val, ?_, ?_⟩
  · rw [vals_plug, vals_node]
    simp only [List.append_assoc, List.cons_append]
  · rw [vals_plug]
    rcases hc with ⟨rfl, rfl⟩ | ⟨rfl, rfl⟩
    · simp only [vals_nil, List.append_nil, List.append_assoc]
    · simp only [vals_nil, List.nil_append, List.append_assoc]

/-- `avl_del_easy`. -/
theorem avlDelEasy_spec {k : List (Frame (Note Nat))} {x : Note Nat} {l r c : AvlTree}
    (h : Rooted σ (plug k (node x l r))) (hc : OnlyChild l r c) :
    ∃ σ', avlDelEasy σ (some x.val) = .ok (σ', ptr (detach k c)) ∧ Rooted σ' (detach k c) ∧
      Changes σ σ' (vals (plug k c)) := by
  rcases h.place with ⟨⟨hx, hl, hr⟩, hpath⟩
  have hd := h.nodup_place
  rcases vals_plug_removed (k := k) (x := x) hc with ⟨xs, ys, hbefore, hafter⟩
  have hnd : (vals (plug k c)).Nodup := by
    have hnd := h.nodup
    rw [hbefore, List.nodup_middle, List.nodup_cons] at hnd
    rw [hafter]
    exact hnd.2
  have hlt : ∀ a ∈ vals (plug k c), a < σ.next := by
    intro a ha
    refine h.lt a ?_
    rw [hbefore, List.mem_append, List.mem_cons]
    rw [hafter, List.mem_append] at ha
    exact ha.imp id Or.inr
  have hp := vals_plug_perm k c
  have hdc := List.nodup_append.mp (hp.nodup_iff.mp hnd)
  -- The child the code picks is the one there is.
  have hpick : (if ptr l ≠ none then ptr l else ptr r) = ptr c := by
    rcases hc with ⟨rfl, rfl⟩ | ⟨rfl, rfl⟩
    · rfl
    · split
      · rfl
      · rename_i hnone
        rw [ne_eq, not_not] at hnone
        rw [hnone]
        rfl
  have hone : ¬ (ptr l ≠ none ∧ ptr r ≠ none) := by
    rcases hc with ⟨rfl, rfl⟩ | ⟨rfl, rfl⟩
    · exact fun h => h.1 rfl
    · exact fun h => h.2 rfl
  have hchild : TreeAt σ (some x.val) c := by
    rcases hc with ⟨rfl, rfl⟩ | ⟨rfl, rfl⟩
    · exact hr
    · exact hl
  rcases setParent_spec hchild hdc.1 (parentOf k) with ⟨σ₁, hset, hchild₁, hch₁⟩
  have hpath₁ : PathAt σ₁ k (some x.val) :=
    hpath.changes hch₁ fun a ha hmem => hdc.2.2 a hmem a ha rfl
  cases k with
  | nil =>
      refine ⟨σ₁, ?_, ⟨hchild₁, hdc.1, fun a ha => ?_⟩, hch₁⟩
      · simp only [avlDelEasy, load_eq hx, ok_bind, if_neg hone, hpick, hset]
        rfl
      · rw [hch₁.next]
        exact hlt a ha
  | cons f k =>
      have hsib := not_mem_sibling hd
      rcases setChild_spec hpath₁ hdc.2.1 (ptr c) with ⟨σ₂, hlink, hpath₂, hch₂⟩
      have hmem := parent_mem_pathVals f k
      have hchild₂ : TreeAt σ₂ (some f.val.val) c := by
        refine hchild₁.changes hch₂ fun a ha ha' => ?_
        rw [List.mem_singleton.mp ha'] at ha
        exact hdc.2.2 _ ha _ hmem rfl
      have hroot₂ : Rooted σ₂ (plug k (f.fill c)) := by
        refine ⟨treeAt_plug.mpr ⟨treeAt_fill.mpr ⟨hpath₂.1, hchild₂, hpath₂.2.1⟩, ?_⟩, hnd, ?_⟩
        · rw [ptr_fill]
          exact hpath₂.2.2
        · intro a ha
          rw [hch₂.next, hch₁.next]
          exact hlt a ha
      rcases avlFix_spec (f.fill_ne_nil c) hroot₂ with ⟨σ', hfix, hroot, hch⟩
      refine ⟨σ', ?_, hroot, ((hch₁.mono ?_).trans (hch₂.mono ?_)).trans hch⟩
      · rw [ptr_fill] at hfix
        simp only [avlDelEasy, load_eq hx, ok_bind, if_neg hone, hpick, hset,
          sideOf_eq hpath₁ hsib, hlink]
        exact hfix
      · intro a ha
        exact hp.mem_iff.mpr (List.mem_append_left _ ha)
      · intro a ha
        rw [List.mem_singleton.mp ha]
        exact hp.mem_iff.mpr (List.mem_append_right _ hmem)

/-- The walk to the successor ends at the first node of the listing. -/
theorem leftmost_spec {l : AvlTree} : ∀ {x : Note Nat} {r : AvlTree} {parent : Option Nat}
    {fuel : Nat}, TreeAt σ parent (node x l r) → l.numNodes < fuel →
    ∃ k v s, node x l r = plug k (node v nil s) ∧ (∀ f ∈ k, ∃ y u, f = .left y u) ∧
      leftmost fuel σ (some x.val) = .ok (some v.val) := by
  -- the walk follows the left children, and leaves a path of left frames
  induction l with
  | nil =>
      intro x r parent fuel h hfuel
      obtain ⟨fuel, rfl⟩ := Nat.exists_eq_succ_of_ne_zero (Nat.ne_of_gt hfuel)
      refine ⟨[], x, r, rfl, fun f hf => absurd hf List.not_mem_nil, ?_⟩
      simp only [leftmost, load_eq h.1, ok_bind, ptr_nil, ne_eq, not_true_eq_false, if_false]
  | node y l' r' ih _ =>
      intro x r parent fuel h hfuel
      obtain ⟨fuel, rfl⟩ := Nat.exists_eq_succ_of_ne_zero (Nat.ne_of_gt (Nat.zero_lt_of_lt hfuel))
      rw [numNodes] at hfuel
      rcases ih h.2.1 (by omega : l'.numNodes < fuel) with ⟨k, v, s, heq, hk, hrun⟩
      refine ⟨k ++ [.left x r], v, s, ?_, ?_, ?_⟩
      · rw [plug_append, ← heq]
        rfl
      · intro f hf
        rcases List.mem_append.mp hf with hf | hf
        · exact hk f hf
        · exact ⟨x, r, List.mem_singleton.mp hf⟩
      · simp only [leftmost, load_eq h.1, ok_bind, ptr_node, ne_eq, reduceCtorEq,
          not_false_eq_true, if_true, hrun]

/-- The easy case of `avl_del`. -/
theorem avlDel_easy {k : List (Frame (Note Nat))} {x : Note Nat} {l r c : AvlTree}
    (h : Rooted σ (plug k (node x l r))) (hc : OnlyChild l r c) :
    ∃ σ', avlDel σ (some x.val) = .ok (σ', ptr (detach k c)) ∧ Rooted σ' (detach k c) ∧
      Changes σ σ' (vals (plug k c)) := by
  have hx := h.place.1.1
  have hone : ptr l = none ∨ ptr r = none := by
    rw [ptr_eq_none, ptr_eq_none]
    exact hc.imp And.left And.left
  rcases avlDelEasy_spec h hc with ⟨σ', hrun, hroot, hch⟩
  refine ⟨σ', ?_, hroot, hch⟩
  simp only [avlDel, load_eq hx, ok_bind, if_pos hone, hrun]

theorem ptr_plug_cons (f : Frame (Note Nat)) (k : List (Frame (Note Nat))) (t u : AvlTree) :
    ptr (plug (f :: k) t) = ptr (plug (f :: k) u) := by
  induction k generalizing f t u with
  | nil => rw [plug_cons, plug_cons, plug_nil, plug_nil, ptr_fill, ptr_fill]
  | cons f' k ih => exact ih f' (f.fill t) (f.fill u)

/-- A new node in another's place: it takes that place in the listing. -/
theorem vals_replace {k : List (Frame (Note Nat))} {x v : Note Nat} {l r : AvlTree}
    (hnd : (vals (plug k (node x l r))).Nodup) (hnew : v.val ∉ vals (plug k (node x l r))) :
    (vals (plug k (node v l r))).Nodup ∧
      ∀ a ∈ vals (plug k (node v l r)), a = v.val ∨ a ∈ vals (plug k (node x l r)) := by
  have hx := vals_plug_perm k (node x l r)
  have hv := vals_plug_perm k (node v l r)
  rw [hx.mem_iff, vals_node, List.append_assoc, List.cons_append, List.mem_append,
    List.mem_cons] at hnew
  rw [hx.nodup_iff, vals_node, List.append_assoc, List.cons_append, List.nodup_middle,
    List.nodup_cons] at hnd
  constructor
  · rw [hv.nodup_iff, vals_node, List.append_assoc, List.cons_append, List.nodup_middle,
      List.nodup_cons, List.mem_append]
    exact ⟨fun hmem => hnew (hmem.imp_right Or.inr), hnd.2⟩
  · intro a ha
    rw [hv.mem_iff, vals_node, List.append_assoc, List.cons_append, List.mem_append,
      List.mem_cons] at ha
    rw [hx.mem_iff, vals_node, List.append_assoc, List.cons_append, List.mem_append, List.mem_cons]
    tauto

/-- The successor takes over the links of the node and keeps its own numbers;
    the node itself, and its place, are as before. -/
theorem takeLinks_spec {k : List (Frame (Note Nat))} {x v : Note Nat} {l r : AvlTree}
    {w : AVLNode} (h : Rooted σ (plug k (node x l r))) (hv : σ.cell v.val = some w)
    (hheight : w.height = v.height) (hcnt : w.cnt = v.size)
    (hnew : v.val ∉ vals (plug k (node x l r))) :
    ∃ σ₁ σ₂ σ₃,
      σ.modify (some v.val) (fun w =>
        { w with left := ptr l, right := ptr r, parent := parentOf k }) = .ok σ₁ ∧
      setParent σ₁ (ptr l) (some v.val) = .ok σ₂ ∧ setParent σ₂ (ptr r) (some v.val) = .ok σ₃ ∧
      TreeAt σ₃ (parentOf k) (node v l r) ∧ PathAt σ₃ k (some x.val) ∧
      σ₃.cell x.val = σ.cell x.val ∧ Changes σ σ₃ (v.val :: vals (plug k (node x l r))) := by
  rcases h.place with ⟨⟨_, hl, hr⟩, hpath⟩
  have hp := vals_plug_perm k (node x l r)
  have hd := List.nodup_append.mp h.nodup_place
  rw [hp.mem_iff, List.mem_append, vals_node, List.mem_append, List.mem_cons] at hnew
  rw [vals_node] at hd
  have hin : ∀ a, a ∈ vals l ∨ a ∈ vals r → a ∈ vals (plug k (node x l r)) := by
    intro a ha
    rw [hp.mem_iff, List.mem_append, vals_node, List.mem_append, List.mem_cons]
    tauto
  -- The successor's own node.
  let n : AVLNode := ⟨parentOf k, ptr l, ptr r, v.height, v.size⟩
  have hput : σ.modify (some v.val) (fun w =>
      { w with left := ptr l, right := ptr r, parent := parentOf k }) = .ok (σ.put v.val n) := by
    rw [modify_eq_put hv, hheight, hcnt]
  have hch₁ := Changes.put (l := [v.val]) σ n (List.mem_singleton.mpr rfl)
  have hout : ∀ a, a ∈ vals l ∨ a ∈ vals r ∨ a ∈ pathVals k → a ∉ [v.val] := by
    intro a ha hmem
    rw [List.mem_singleton.mp hmem] at ha
    tauto
  -- Its new children, whose addresses are apart from each other and the path.
  have hdl : (vals l).Nodup := (List.nodup_append.mp hd.1).1
  have hdr : (vals r).Nodup := (List.nodup_cons.mp (List.nodup_append.mp hd.1).2.1).2
  have hlr : ∀ a ∈ vals l, a ∉ vals r := fun a ha hmem =>
    (List.nodup_append.mp hd.1).2.2 a ha a (List.mem_cons_of_mem _ hmem) rfl
  have hpl : ∀ a ∈ pathVals k, a ∉ vals l ∧ a ∉ vals r := fun a ha =>
    ⟨fun hmem => hd.2.2 a (List.mem_append_left _ hmem) a ha rfl, fun hmem =>
      hd.2.2 a (List.mem_append_right _ (List.mem_cons_of_mem _ hmem)) a ha rfl⟩
  -- the two subtrees get their new parent one after the other
  rcases setParent_spec (hl.changes hch₁ fun a ha => hout a (Or.inl ha)) hdl (some v.val) with
    ⟨σ₂, hset₂, hl₂, hch₂⟩
  have hr₂ := (hr.changes hch₁ fun a ha => hout a (Or.inr (Or.inl ha))).changes hch₂
    fun a ha hmem => hlr a hmem ha
  rcases setParent_spec hr₂ hdr (some v.val) with ⟨σ₃, hset₃, hr₃, hch₃⟩
  have hl₃ := hl₂.changes hch₃ fun a ha hmem => hlr a ha hmem
  refine ⟨_, σ₂, σ₃, hput, hset₂, hset₃, ⟨?_, hl₃, hr₃⟩, ?_, ?_, ?_⟩
  · rw [hch₃.cell _ (by tauto), hch₂.cell _ (by tauto), put_cell_self]
  · exact ((hpath.changes hch₁ fun a ha => hout a (Or.inr (Or.inr ha))).changes hch₂
      fun a ha => (hpl a ha).1).changes hch₃ fun a ha => (hpl a ha).2
  · have hxl := (List.nodup_append.mp hd.1).2.2 x.val
    have hxr := (List.nodup_cons.mp (List.nodup_append.mp hd.1).2.1).1
    rw [hch₃.cell _ hxr, hch₂.cell _ fun hmem => hxl hmem _ List.mem_cons_self rfl,
      put_cell_other σ fun heq => hnew (Or.inl (Or.inr (Or.inl heq.symm)))]
  · refine ((hch₁.mono ?_).trans (hch₂.mono ?_)).trans (hch₃.mono ?_)
    · exact List.cons_subset_cons _ (List.nil_subset _)
    · exact fun a ha => List.mem_cons_of_mem _ (hin a (Or.inl ha))
    · exact fun a ha => List.mem_cons_of_mem _ (hin a (Or.inr ha))

/-- The second half of the hard case: the successor takes over the links of the
    node, wherever it is, and keeps its own numbers. -/
theorem replaceNode_spec {k : List (Frame (Note Nat))} {x v : Note Nat} {l r : AvlTree}
    {w : AVLNode} (h : Rooted σ (plug k (node x l r))) (hv : σ.cell v.val = some w)
    (hheight : w.height = v.height) (hcnt : w.cnt = v.size)
    (hnew : v.val ∉ vals (plug k (node x l r))) (hlt : v.val < σ.next) :
    ∃ σ', (do
        let n ← σ.load (some x.val)
        let σ ← σ.modify (some v.val) fun w =>
          { w with left := n.left, right := n.right, parent := n.parent }
        let σ ← setParent σ n.left (some v.val)
        let σ ← setParent σ n.right (some v.val)
        if n.parent = none then .ok (σ, some v.val)
        else do
          let isLeft ← sideOf σ n.parent (some x.val)
          let σ ← setChild σ n.parent isLeft (some v.val)
          .ok (σ, ptr (plug k (node x l r)))) = .ok (σ', ptr (plug k (node v l r))) ∧
      Rooted σ' (plug k (node v l r)) ∧ σ'.cell x.val = σ.cell x.val ∧
      Changes σ σ' (v.val :: vals (plug k (node x l r))) := by
  have hx := h.place.1.1
  have hd := List.nodup_append.mp h.nodup_place
  rcases takeLinks_spec h hv hheight hcnt hnew with
    ⟨σ₁, σ₂, σ₃, hput, hset₂, hset₃, hnode₃, hpath₃, hx₃, hch⟩
  rcases vals_replace h.nodup hnew with ⟨hnd, hvals⟩
  have hbound : ∀ a ∈ vals (plug k (node v l r)), a < σ.next := by
    intro a ha
    rcases hvals a ha with rfl | ha
    · exact hlt
    · exact h.lt a ha
  -- at the root there is no parent whose link has to change
  cases k with
  | nil =>
      refine ⟨σ₃, ?_, ⟨hnode₃, hnd, fun a ha => ?_⟩, hx₃, hch⟩
      · simp only [load_eq hx, ok_bind, hput, hset₂, hset₃]
        rfl
      · rw [hch.next]
        exact hbound a ha
  | cons f k =>
      have hsib := not_mem_sibling h.nodup_place
      rcases setChild_spec hpath₃ hd.2.1 (some v.val) with ⟨σ₄, hlink, hpath₄, hch₄⟩
      have hmem := parent_mem_pathVals f k
      -- Only the parent changes, which is neither the successor nor below it.
      have hnode : TreeAt σ₄ (parentOf (f :: k)) (node v l r) := by
        refine hnode₃.changes hch₄ fun a ha ha' => ?_
        rw [List.mem_singleton.mp ha'] at ha
        have hapart := List.nodup_append.mp ((vals_plug_perm (f :: k) (node v l r)).nodup_iff.mp hnd)
        exact hapart.2.2 _ ha _ hmem rfl
      refine ⟨σ₄, ?_, ⟨treeAt_plug.mpr ⟨hnode, hpath₄⟩, hnd, fun a ha => ?_⟩,
        ?_, hch.trans (hch₄.mono ?_)⟩
      · have hparent : parentOf (f :: k) ≠ none := by
          simp only [parentOf, ne_eq, reduceCtorEq, not_false_eq_true]
        simp only [load_eq hx, ok_bind, hput, hset₂, hset₃, if_neg hparent, sideOf_eq hpath₃ hsib,
          hlink, ptr_plug_cons f k (node x l r) (node v l r)]
      · rw [hch₄.next, hch.next]
        exact hbound a ha
      · rw [hch₄.cell _ fun ha => ?_, hx₃]
        rw [← List.mem_singleton.mp ha] at hmem
        exact hd.2.2 x.val (mem_vals_of_ptr rfl) x.val hmem rfl
      · intro a ha
        rw [List.mem_singleton.mp ha]
        exact List.mem_cons_of_mem _ ((vals_plug_perm _ _).mem_iff.mpr
          (List.mem_append_right _ hmem))

/-- The hard case of `avl_del`: the successor `v` is detached, and then put in
    the place where the repair left the node. -/
theorem avlDel_hard {k : List (Frame (Note Nat))} {x : Note Nat} {l r : AvlTree}
    (h : Rooted σ (plug k (node x l r))) (hl : l ≠ nil) (hr : r ≠ nil) :
    ∃ kv v s, r = plug kv (node v nil s) ∧ (∀ f ∈ kv, ∃ y u, f = .left y u) ∧
      ∀ k' x' l' r', detach (kv ++ .right l x :: k) s = plug k' (node x' l' r') →
        x'.val = x.val →
        ∃ σ', avlDel σ (some x.val) = .ok (σ', ptr (plug k' (node v l' r'))) ∧
          Rooted σ' (plug k' (node v l' r')) ∧ (∃ n, σ'.cell x.val = some n) ∧
          Changes σ σ' (vals (plug k (node x l r))) := by
  rcases h.place with ⟨⟨hx, hlt, hrt⟩, _⟩
  cases r with
  | nil => exact absurd rfl hr
  | node y rl rr =>
      have hsize := h.numNodes_le
      have hlen := length_add_numNodes_le k (node x l (node y rl rr))
      rw [numNodes, numNodes] at hlen
      rcases leftmost_spec hrt (by omega : rl.numNodes < σ.next + 1) with
        ⟨kv, v, s, heq, hkv, hleft⟩
      refine ⟨kv, v, s, heq, hkv, fun k' x' l' r' hplace hxval => ?_⟩
      -- The place of the successor in the whole tree.
      have hplug : plug k (node x l (node y rl rr)) =
          plug (kv ++ .right l x :: k) (node v nil s) := by
        rw [plug_append, ← heq]
        rfl
      have h₀ := h
      rw [hplug] at h₀
      have hc : OnlyChild nil s s := Or.inl ⟨rfl, rfl⟩
      rcases vals_plug_removed (k := kv ++ .right l x :: k) (x := v) hc with
        ⟨xs, ys, hbefore, hafter⟩
      rcases avlDelEasy_spec h₀ hc with ⟨σ₁, heasy, hroot₁, hch₁⟩
      have hdet := vals_detach (kv ++ .right l x :: k) s
      have hnd₀ := h₀.nodup
      rw [hbefore, List.nodup_middle, List.nodup_cons, ← hafter] at hnd₀
      have hv₁ : σ₁.cell v.val = σ.cell v.val := hch₁.cell v.val hnd₀.1
      have hvcell := h₀.place.1.1
      rw [← hv₁] at hvcell
      rw [hplace] at hroot₁ hdet
      have hvlt : v.val < σ₁.next := by
        rw [hch₁.next]
        exact h₀.lt v.val (by rw [hbefore]; exact List.mem_append_right _ List.mem_cons_self)
      -- after the repair the successor takes the links of the node, wherever that is now
      rcases replaceNode_spec hroot₁ hvcell rfl rfl (by rw [hdet]; exact hnd₀.1) hvlt with
        ⟨σ', hrun, hroot', hxcell, hch'⟩
      refine ⟨σ', ?_, hroot', ?_, ?_⟩
      · have hboth : ¬ (ptr l = none ∨ ptr (node y rl rr) = none) := by
          rw [ptr_eq_none, ptr_eq_none, not_or]
          exact ⟨hl, hr⟩
        rw [hxval] at hrun
        simp only [avlDel, load_eq hx, ok_bind, if_neg hboth]
        rw [ptr_node, hleft, ok_bind, heasy, hplace, ok_bind]
        exact hrun
      · rw [hxval] at hxcell
        have hx₁ := hroot₁.place.1.1
        rw [hxval] at hx₁
        exact ⟨_, hxcell.trans hx₁⟩
      · rw [hplug, hbefore]
        rw [hdet, hafter] at hch'
        rw [hafter] at hch₁
        refine (hch₁.mono fun a ha => ?_).trans (hch'.mono fun a ha => ?_)
        · rw [List.mem_append] at ha
          rw [List.mem_append, List.mem_cons]
          tauto
        · rw [List.mem_cons, List.mem_append] at ha
          rw [List.mem_append, List.mem_cons]
          tauto

/-- The successor `v` comes first in the right subtree. Put in the place of the
    node, after it left its own, it splits the listing where the node did. -/
theorem vals_successor {k k' kv : List (Frame (Note Nat))} {x x' v : Note Nat}
    {l r l' r' s : AvlTree} (hnd : (vals (plug k (node x l r))).Nodup)
    (hr : r = plug kv (node v nil s)) (hkv : ∀ f ∈ kv, ∃ y u, f = .left y u)
    (hplace : detach (kv ++ .right l x :: k) s = plug k' (node x' l' r'))
    (hxval : x'.val = x.val) :
    vals (plug k' (node v l' r')) =
      (before k).map Note.val ++ vals l ++ (vals r ++ (after k).map Note.val) := by
  have hfront := before_of_lefts hkv
  have hlist : vals r = v.val :: (vals s ++ (after kv).map Note.val) := by
    rw [hr, vals_plug, hfront, vals_node]
    rfl
  have hdet := vals_detach (kv ++ .right l x :: k) s
  rw [hplace, plug_append, plug_cons, vals_plug, vals_plug, vals_node, Frame.fill.eq_2,
    vals_node, vals_plug, hfront, hxval] at hdet
  rw [vals_plug, vals_node, hlist] at hnd
  -- The listing without the successor, split at the node on both sides.
  have hsplit : ((before k).map Note.val ++ vals l) ++ x.val ::
      (vals s ++ (after kv).map Note.val ++ (after k).map Note.val) =
      ((before k').map Note.val ++ vals l') ++ x.val ::
        (vals r' ++ (after k').map Note.val) := by
    simpa only [List.append_assoc, List.cons_append, List.map_nil, List.nil_append]
      using hdet.symm
  have hout : x.val ∉ (before k).map Note.val ++ vals l ∧
      x.val ∉ vals s ++ (after kv).map Note.val ++ (after k).map Note.val := by
    simp only [List.append_assoc, List.cons_append] at hnd
    rw [← List.append_assoc, List.nodup_middle, List.nodup_cons] at hnd
    simp only [List.mem_append, List.mem_cons] at hnd ⊢
    tauto
  rcases (List.append_cons_inj_of_notMem hout.1 hout.2).mp hsplit with ⟨hxs, _, hys⟩
  rw [vals_plug, vals_node, hlist, hxs]
  simp only [List.append_assoc, List.cons_append]
  rw [← hys]
  simp only [List.append_assoc]

/-- `avl_del`: the listing loses the node, and nothing else. -/
theorem avlDel_spec {t : AvlTree} {a : Nat} (h : Rooted σ t) (ha : a ∈ vals t) :
    ∃ σ' t', avlDel σ (some a) = .ok (σ', ptr t') ∧ Rooted σ' t' ∧ Changes σ σ' (vals t) ∧
      (∃ n, σ'.cell a = some n) ∧ ∃ xs ys, vals t = xs ++ a :: ys ∧ vals t' = xs ++ ys := by
  rcases List.mem_map.mp ha with ⟨x, hx, rfl⟩
  rcases exists_plug_of_mem hx with ⟨k, l, r, rfl⟩
  by_cases hone : l = nil ∨ r = nil
  · rcases exists_onlyChild hone with ⟨c, hc⟩
    rcases vals_plug_removed (k := k) (x := x) hc with ⟨xs, ys, hbefore, hafter⟩
    rcases avlDel_easy h hc with ⟨σ', hrun, hroot, hch⟩
    refine ⟨σ', _, hrun, hroot, hch.mono fun a ha => ?_, ?_, xs, ys, hbefore, ?_⟩
    · rw [hafter, List.mem_append] at ha
      rw [hbefore, List.mem_append, List.mem_cons]
      tauto
    · have hnd := h.nodup
      rw [hbefore, List.nodup_middle, List.nodup_cons, ← hafter] at hnd
      exact ⟨_, (hch.cell x.val hnd.1).trans h.place.1.1⟩
    · rw [vals_detach, hafter]
  · rw [not_or] at hone
    rcases avlDel_hard h hone.1 hone.2 with ⟨kv, v, s, hr, hkv, hdel⟩
    -- The place of the node after the repair.
    have hxmem : x.val ∈ vals (detach (kv ++ .right l x :: k) s) := by
      rw [vals_detach, plug_append, plug_cons, vals_plug, Frame.fill.eq_2, vals_node]
      simp only [List.mem_append, List.mem_cons, true_or, or_true]
    rcases List.mem_map.mp hxmem with ⟨x', hx', hxval⟩
    rcases exists_plug_of_mem hx' with ⟨k', l', r', hplace⟩
    rcases hdel k' x' l' r' hplace hxval with ⟨σ', hrun, hroot, hcell, hch⟩
    refine ⟨σ', _, hrun, hroot, hch, hcell, (before k).map Note.val ++ vals l,
      vals r ++ (after k).map Note.val, ?_, ?_⟩
    · rw [vals_plug, vals_node]
      simp only [List.append_assoc, List.cons_append]
    · exact vals_successor h.nodup hr hkv hplace hxval

end RedisServer
