import RedisServer.Theory.Avl.Delete

/-!
# Rebalancing

What the repair does to a valid tree, one with exact heights and sizes whose
subtrees differ in height by at most one at every node.

Attaching a leaf and detaching a node with at most one child keep the tree
valid, as long as its size can be stored in 32 bits. A deletion with two children does not, as a rule: the successor arrives
with the numbers of its old place, which are those of a smaller subtree.
They are right only where the repair has rotated the node down, to a place
whose subtree has the size of the successor's old one. Which trees these are
can be read off the two subtrees of the node.

## Main definitions

* `attachLeaf`: The end of `tree_insert`.
* `StaleFits`: The subtrees for which the successor's numbers are right.
* `DelKeepsAvl`: What `avl_del` is to do.

## Theorems

* `attachLeaf_spec`: A leaf is attached, and the tree repaired.
* `avl_fix_restores`: One attachment or one easy removal keeps a tree valid.
* `avl_fix_count_wraps`: A tree whose size does not fit after an attachment.
* `avl_del_valid_iff`: A deletion keeps it valid in exactly these cases.
-/

namespace RedisServer

open Lib BinaryTree

variable {σ σ' : Store}

/-! ## Attaching a leaf -/

/-- The end of `tree_insert`: attach a node at an empty child position, or as
    the root, and repair. -/
def attachLeaf (σ : Store) (parent : Option Nat) (isLeft : Bool) (node : Nat) :
    Result (Store × Option Nat) := do
  let σ ← (if parent = none then .ok σ else setChild σ parent isLeft (some node))
  let σ ← σ.modify (some node) fun n => { n with parent := parent }
  avlFix σ (some node)

/-- A fresh node. -/
def leaf (a : Nat) : AvlTree := node ⟨a, 1, 1⟩ nil nil

/-- A leaf is attached, and the tree repaired. -/
theorem attachLeaf_spec {k : List (Frame (Note Nat))} {a : Nat} {isLeft : Bool}
    (h : Rooted σ (plug k nil)) (ha : σ.cell a = some avlInit) (hnew : a ∉ vals (plug k nil))
    (hlt : a < σ.next) (hside : ∀ f ∈ k.head?, onLeft f = isLeft) :
    ∃ σ', attachLeaf σ (parentOf k) isLeft a = .ok (σ', ptr (fixUp k (leaf a))) ∧
      Rooted σ' (fixUp k (leaf a)) ∧ Changes σ σ' (a :: vals (plug k nil)) := by
  have hpath := h.place.2
  have hp := vals_plug_perm k nil
  have hpl := vals_plug_perm k (leaf a)
  have hvals : vals (leaf a) = [a] := rfl
  rw [vals_nil, List.nil_append] at hp
  have hnew' : a ∉ pathVals k := fun hmem => hnew (hp.mem_iff.mpr hmem)
  have hnd : (vals (plug k (leaf a))).Nodup := by
    rw [hpl.nodup_iff, hvals, List.singleton_append, List.nodup_cons]
    exact ⟨hnew', hp.nodup_iff.mp h.nodup⟩
  -- The link above the new node.
  obtain ⟨σ₁, hlink, hpath₁, hch₁⟩ : ∃ σ₁,
      (if parentOf k = none then .ok σ else setChild σ (parentOf k) isLeft (some a)) = .ok σ₁ ∧
      PathAt σ₁ k (some a) ∧ Changes σ σ₁ (pathVals k) := by
    cases k with
    | nil => exact ⟨σ, rfl, True.intro, Changes.refl σ _⟩
    | cons f k =>
        rcases setChild_spec hpath (hp.nodup_iff.mp h.nodup) (some a) with ⟨σ₁, hset, hpath₁, hch⟩
        rw [hside f rfl] at hset
        refine ⟨σ₁, ?_, hpath₁, hch.mono fun b hb => ?_⟩
        · rw [if_neg (by simp only [parentOf, reduceCtorEq, not_false_eq_true])]
          exact hset
        · rw [List.mem_singleton.mp hb]
          exact parent_mem_pathVals f k
  have ha₁ : σ₁.cell a = some avlInit := by
    rw [hch₁.cell a hnew', ha]
  have hch₂ := Changes.put (l := [a]) σ₁ { avlInit with parent := parentOf k }
    (List.mem_singleton.mpr rfl)
  -- with its parent set the new node is a leaf of the tree, and the repair starts there
  have hroot : Rooted (σ₁.put a { avlInit with parent := parentOf k }) (plug k (leaf a)) := by
    refine ⟨treeAt_plug.mpr ⟨⟨put_cell_self _ _ _, True.intro, True.intro⟩,
      hpath₁.changes hch₂ fun b hb hmem => ?_⟩, hnd, fun b hb => ?_⟩
    · rw [List.mem_singleton.mp hmem] at hb
      exact hnew' hb
    · rw [hch₂.next, hch₁.next]
      rw [hpl.mem_iff, hvals, List.singleton_append, List.mem_cons] at hb
      rcases hb with rfl | hb
      · exact hlt
      · exact h.lt b (hp.mem_iff.mpr hb)
  have hne : leaf a ≠ nil := by
    simp only [leaf, ne_eq, reduceCtorEq, not_false_eq_true]
  rcases avlFix_spec hne hroot with ⟨σ', hfix, hroot', hch⟩
  refine ⟨σ', ?_, hroot', ((hch₁.mono ?_).trans (hch₂.mono ?_)).trans (hch.mono ?_)⟩
  · simp only [attachLeaf, hlink, ok_bind, modify_eq_put ha₁]
    exact hfix
  · exact fun b hb => List.mem_cons_of_mem _ (hp.mem_iff.mpr hb)
  · exact List.cons_subset_cons _ (List.nil_subset _)
  · intro b hb
    rw [hpl.mem_iff, hvals, List.singleton_append] at hb
    exact List.cons_subset_cons a (fun c hc => hp.mem_iff.mpr hc) hb

/-! ## One change -/

theorem numNodes_attached (k : List (Frame (Note Nat))) (a : Nat) :
    (fixUp k (leaf a)).numNodes = (plug k nil).numNodes + 1 := by
  rw [← length_vals, ← length_vals, vals_fixUp, vals_plug, vals_plug]
  simp only [leaf, vals_node, vals_nil, List.length_append, List.length_cons, List.length_nil]
  omega

/-- Detaching a node with at most one child keeps a tree valid. -/
theorem detach_child_isAvl {k : List (Frame (Note Nat))} {x : Note Nat} {l r c : AvlTree}
    (havl : IsAvl (plug k (node x l r))) (hc : OnlyChild l r c) : IsAvl (detach k c) := by
  rcases fitsAt_of_isAvl havl with ⟨⟨hexact, hbal⟩, hfits⟩
  rcases hc with ⟨rfl, rfl⟩ | ⟨rfl, rfl⟩
  · refine detach_isAvl hfits ⟨hexact.right, hbal.2.2.2⟩ ?_ ?_ <;> simp only [height] <;> omega
  · refine detach_isAvl hfits ⟨hexact.left, hbal.2.2.1⟩ ?_ ?_ <;> simp only [height] <;> omega

/-- Attaching a fresh node at any empty child position of a valid tree of fewer
    than `2 ^ 32 - 1` nodes, and detaching any node with at most one child,
    lead to a valid tree whose listing has just that node more, or less. -/
theorem avl_fix_restores (σ : Store) :
    (∀ (k : List (Frame (Note Nat))) (a : Nat) (isLeft : Bool), Rooted σ (plug k nil) →
      IsAvl (plug k nil) → (plug k nil).numNodes + 1 < 2 ^ 32 → σ.cell a = some avlInit →
      a ∉ vals (plug k nil) → a < σ.next → (∀ f ∈ k.head?, onLeft f = isLeft) →
      ∃ σ' t', attachLeaf σ (parentOf k) isLeft a = .ok (σ', ptr t') ∧ Rooted σ' t' ∧ IsAvl t' ∧
        Counted t' ∧ ∃ xs ys, vals (plug k nil) = xs ++ ys ∧ xs = (before k).map Note.val ∧
          vals t' = xs ++ a :: ys) ∧
    ∀ (k : List (Frame (Note Nat))) (x : Note Nat) (l r : AvlTree),
      Rooted σ (plug k (node x l r)) → IsAvl (plug k (node x l r)) →
      Counted (plug k (node x l r)) → l = nil ∨ r = nil →
      ∃ σ' t', avlDelEasy σ (some x.val) = .ok (σ', ptr t') ∧ Rooted σ' t' ∧ IsAvl t' ∧
        Counted t' ∧ ∃ xs ys, vals (plug k (node x l r)) = xs ++ x.val :: ys ∧
          vals t' = xs ++ ys := by
  constructor
  · intro k a isLeft hroot havl hsize ha hnew hlt hside
    -- an insertion is the repair at the place of a new leaf
    rcases attachLeaf_spec hroot ha hnew hlt hside with ⟨σ', hrun, hroot', _⟩
    have havl' := fixUp_leaf_isAvl havl ⟨a, 1, 1⟩
    have hnodes : (fixUp k (leaf a)).numNodes = (plug k nil).numNodes + 1 := numNodes_attached k a
    refine ⟨σ', _, hrun, hroot', havl', havl'.exact.counted ?_, (before k).map Note.val,
      (after k).map Note.val, ?_, rfl, ?_⟩
    · exact hnodes ▸ hsize
    · rw [vals_plug, vals_nil, List.append_nil]
    · rw [vals_fixUp, vals_plug]
      simp only [leaf, vals_node, vals_nil, List.nil_append, List.append_assoc,
        List.singleton_append]
  · intro k x l r hroot havl hcounted hone
    rcases exists_onlyChild hone with ⟨c, hc⟩
    -- a deletion of a node with one child is the repair where the child goes
    rcases avlDelEasy_spec hroot hc with ⟨σ', hrun, hroot', _⟩
    rcases vals_plug_removed (k := k) (x := x) hc with ⟨xs, ys, hbefore, hafter⟩
    have havl' := detach_child_isAvl havl hc
    have hless : (detach k c).numNodes + 1 = (plug k (node x l r)).numNodes := by
      rw [← length_vals, ← length_vals, vals_detach, hafter, hbefore]
      simp only [List.length_append, List.length_cons]
      omega
    have hlt := hcounted.lt
    exact ⟨σ', _, hrun, hroot', havl', havl'.exact.counted (by omega), xs, ys, hbefore,
      by rw [vals_detach, hafter]⟩

/-- A root with two children, and a fresh node that is not attached yet. -/
def threeNodes : Store where
  cell
    | 0 => some ⟨none, some 1, some 2, 2, 3⟩
    | 1 => some ⟨some 0, none, none, 1, 1⟩
    | 2 => some ⟨some 0, none, none, 1, 1⟩
    | 3 => some avlInit
    | _ => none
  next := 4

/-- The tree of `threeNodes`. -/
def threeTree : AvlTree := node ⟨0, 2, 3⟩ (leaf 1) (leaf 2)

theorem threeNodes_rooted : Rooted threeNodes threeTree where
  tree := ⟨rfl, ⟨rfl, True.intro, True.intro⟩, rfl, True.intro, True.intro⟩
  nodup := by decide
  lt := by decide

theorem leaf_isAvl (a : Nat) : IsAvl (leaf a) :=
  ⟨⟨rfl, rfl, True.intro, True.intro⟩, Nat.zero_le _, Nat.zero_le _, True.intro, True.intro⟩

theorem threeTree_isAvl : IsAvl threeTree where
  exact := ⟨rfl, rfl, (leaf_isAvl 1).exact, (leaf_isAvl 2).exact⟩
  balanced := ⟨by decide, by decide, (leaf_isAvl 1).balanced, (leaf_isAvl 2).balanced⟩

theorem avl_fix_restores_three :
    (∃ σ' t', attachLeaf threeNodes (some 2) false 3 = .ok (σ', ptr t') ∧ Rooted σ' t' ∧ IsAvl t' ∧
      Counted t' ∧ ∃ xs ys, vals threeTree = xs ++ ys ∧ xs = [1, 0, 2] ∧ vals t' = xs ++ 3 :: ys) ∧
    ∃ σ' t', avlDelEasy threeNodes (some 1) = .ok (σ', ptr t') ∧ Rooted σ' t' ∧ IsAvl t' ∧
      Counted t' ∧ ∃ xs ys, vals threeTree = xs ++ 1 :: ys ∧ vals t' = xs ++ ys :=
  ⟨(avl_fix_restores threeNodes).1 [.right nil ⟨2, 1, 1⟩, .right (leaf 1) ⟨0, 2, 3⟩] 3 false
      threeNodes_rooted threeTree_isAvl (by decide) rfl (by decide) (by decide)
      (fun f hf => by rw [← Option.some.inj hf]; rfl),
    (avl_fix_restores threeNodes).2 [.left ⟨0, 2, 3⟩ (leaf 2)] ⟨1, 1, 1⟩ nil nil
      threeNodes_rooted threeTree_isAvl (threeTree_isAvl.exact.counted (by decide)) (Or.inl rfl)⟩

/-! ## A size that does not fit -/

/-- The memory of a tree. -/
def cellsOf : Option Nat → AvlTree → Nat → Option AVLNode
  | _, nil, _ => none
  | parent, node x l r, a =>
    if a = x.val then some ⟨parent, ptr l, ptr r, x.height, x.size⟩
    else (cellsOf (some x.val) l a).or (cellsOf (some x.val) r a)

theorem cellsOf_other {parent : Option Nat} {t : AvlTree} {a : Nat} (ha : a ∉ vals t) :
    cellsOf parent t a = none := by
  induction t generalizing parent with
  | nil => rfl
  | node x l r ihl ihr =>
      rw [vals_node, List.mem_append, List.mem_cons, not_or, not_or] at ha
      rw [cellsOf, if_neg ha.2.1, ihl ha.1, ihr ha.2.2, Option.or_none]

/-- A tree of distinct addresses is laid out in its memory. -/
theorem treeAt_cellsOf {parent : Option Nat} {t : AvlTree} (hnd : (vals t).Nodup)
    (hcell : ∀ a ∈ vals t, σ.cell a = cellsOf parent t a) : TreeAt σ parent t := by
  induction t generalizing parent with
  | nil => exact True.intro
  | node x l r ihl ihr =>
      rw [vals_node, List.nodup_append, List.nodup_cons] at hnd
      rcases hnd with ⟨hl, ⟨hxr, hr⟩, hdis⟩
      have hxl : x.val ∉ vals l := fun hmem => hdis _ hmem _ List.mem_cons_self rfl
      rw [vals_node] at hcell
      refine ⟨?_, ihl hl fun a ha => ?_, ihr hr fun a ha => ?_⟩
      · rw [hcell x.val (List.mem_append_right _ List.mem_cons_self), cellsOf, if_pos rfl]
      · have har : a ∉ vals r := fun hmem => hdis _ ha _ (List.mem_cons_of_mem _ hmem) rfl
        have hne : a ≠ x.val := fun heq => hxl (heq ▸ ha)
        rw [hcell a (List.mem_append_left _ ha), cellsOf, if_neg hne, cellsOf_other har,
          Option.or_none]
      · have hal : a ∉ vals l := fun hmem => hdis _ hmem _ (List.mem_cons_of_mem _ ha) rfl
        have hne : a ≠ x.val := fun heq => hxr (heq ▸ ha)
        rw [hcell a (List.mem_append_right _ (List.mem_cons_of_mem _ ha)), cellsOf, if_neg hne,
          cellsOf_other hal, Option.none_or]

/-- The tree of height `h` with all nodes it may have, at the addresses from
    `a` on. -/
def perfect : Nat → Nat → AvlTree
  | _, 0 => nil
  | a, h + 1 => node ⟨a + (2 ^ h - 1), h + 1, 2 ^ (h + 1) - 1⟩ (perfect a h) (perfect (a + 2 ^ h) h)

theorem vals_perfect (a h : Nat) : vals (perfect a h) = List.range' a (2 ^ h - 1) := by
  induction h generalizing a with
  | zero => rfl
  | succ h ih =>
      have hpos := Nat.two_pow_pos h
      have hsplit : 2 ^ (h + 1) - 1 = (2 ^ h - 1) + (1 + (2 ^ h - 1)) := by
        rw [Nat.pow_succ]
        omega
      have hright : a + (2 ^ h - 1) + 1 = a + 2 ^ h := by omega
      rw [perfect, vals_node, ih, ih, hsplit, ← List.range'_append_1, Nat.add_comm 1,
        List.range'_succ, hright]

theorem numNodes_perfect (a h : Nat) : (perfect a h).numNodes = 2 ^ h - 1 := by
  rw [← length_vals, vals_perfect, List.length_range']

theorem height_perfect (a h : Nat) : (perfect a h).height = h := by
  induction h generalizing a with
  | zero => rfl
  | succ h ih => rw [perfect, height, ih, ih, Nat.max_self]

theorem perfect_isAvl (a : Nat) {h : Nat} (hh : h ≤ 32) : IsAvl (perfect a h) := by
  induction h generalizing a with
  | zero => exact ⟨True.intro, True.intro⟩
  | succ h ih =>
      have hl := ih a (by omega)
      have hr := ih (a + 2 ^ h) (by omega)
      have hpos := Nat.two_pow_pos h
      have hle : 2 ^ (h + 1) ≤ 2 ^ 32 := Nat.pow_le_pow_right (by decide) hh
      refine ⟨⟨?_, ?_, hl.exact, hr.exact⟩, ?_, ?_, hl.balanced, hr.balanced⟩
      · rw [height_perfect, height_perfect, Nat.max_self]
        exact Nat.add_comm h 1
      · rw [numNodes_perfect, numNodes_perfect, Nat.pow_succ, Nat.mod_eq_of_lt]
        · show 2 ^ (h + 1) - 1 = _
          rw [Nat.pow_succ]
          omega
        · rw [Nat.pow_succ] at hle
          omega
      · rw [height_perfect, height_perfect]
        omega
      · rw [height_perfect, height_perfect]
        omega

/-- The way to the first empty child position. -/
def leftSpine : AvlTree → List (Frame (Note Nat))
  | nil => []
  | node x l r => leftSpine l ++ [.left x r]

theorem plug_leftSpine (t : AvlTree) : plug (leftSpine t) nil = t := by
  induction t with
  | nil => rfl
  | node x l r ihl _ =>
      rw [leftSpine, plug_append, ihl]
      rfl

theorem onLeft_leftSpine {t : AvlTree} {f : Frame (Note Nat)} (hf : f ∈ leftSpine t) :
    onLeft f = true := by
  induction t with
  | nil => exact absurd hf List.not_mem_nil
  | node x l r ihl _ =>
      rw [leftSpine, List.mem_append, List.mem_singleton] at hf
      rcases hf with hf | rfl
      · exact ihl hf
      · rfl

/-- A perfect tree in memory, and a fresh node. -/
def perfectNodes (h : Nat) : Store where
  cell a := if a = 2 ^ h - 1 then some avlInit else cellsOf none (perfect 0 h) a
  next := 2 ^ h

theorem perfectNodes_rooted (h : Nat) : Rooted (perfectNodes h) (perfect 0 h) where
  tree := by
    refine treeAt_cellsOf ?_ fun a ha => ?_
    · rw [vals_perfect]
      exact List.nodup_range'
    · rw [vals_perfect, List.mem_range'_1] at ha
      exact if_neg (by omega)
  nodup := by
    rw [vals_perfect]
    exact List.nodup_range'
  lt := by
    intro a ha
    rw [vals_perfect, List.mem_range'_1] at ha
    show a < 2 ^ h
    omega

theorem fresh_not_mem_perfect (h : Nat) : 2 ^ h - 1 ∉ vals (perfect 0 h) := by
  rw [vals_perfect, List.mem_range'_1]
  omega

/-- The fresh node is attached to a perfect tree. -/
theorem perfect_attach {h : Nat} (hh : h ≤ 32) :
    (Rooted (perfectNodes h) (plug (leftSpine (perfect 0 h)) nil) ∧
      IsAvl (plug (leftSpine (perfect 0 h)) nil) ∧
      (perfectNodes h).cell (2 ^ h - 1) = some avlInit ∧
      2 ^ h - 1 ∉ vals (plug (leftSpine (perfect 0 h)) nil)) ∧
    ∃ σ' t', attachLeaf (perfectNodes h) (parentOf (leftSpine (perfect 0 h))) true (2 ^ h - 1) =
        .ok (σ', ptr t') ∧ Rooted σ' t' ∧ IsAvl t' ∧ t'.numNodes = 2 ^ h := by
  have hroot := perfectNodes_rooted h
  have havl := perfect_isAvl 0 hh
  have hnew := fresh_not_mem_perfect h
  have hfresh : (perfectNodes h).cell (2 ^ h - 1) = some avlInit := if_pos rfl
  have hlt : 2 ^ h - 1 < (perfectNodes h).next := Nat.sub_lt (Nat.two_pow_pos h) Nat.one_pos
  rw [← plug_leftSpine (perfect 0 h)] at hroot havl hnew
  refine ⟨⟨hroot, havl, hfresh, hnew⟩, ?_⟩
  rcases attachLeaf_spec hroot hfresh hnew hlt fun f hf =>
    onLeft_leftSpine (List.mem_of_mem_head? hf) with ⟨σ', hrun, hroot', _⟩
  refine ⟨σ', _, hrun, hroot', fixUp_leaf_isAvl havl _, ?_⟩
  rw [numNodes_attached, plug_leftSpine, numNodes_perfect]
  exact Nat.sub_add_cancel (Nat.two_pow_pos h)

/-- Attaching a node to a valid tree of `2 ^ 32 - 1` nodes leaves a root that
    stores the size zero. -/
theorem avl_fix_count_wraps :
    (Rooted (perfectNodes 32) (plug (leftSpine (perfect 0 32)) nil) ∧
      IsAvl (plug (leftSpine (perfect 0 32)) nil) ∧ Counted (plug (leftSpine (perfect 0 32)) nil) ∧
      (perfectNodes 32).cell (2 ^ 32 - 1) = some avlInit ∧
      2 ^ 32 - 1 ∉ vals (plug (leftSpine (perfect 0 32)) nil)) ∧
    ∃ σ' t', attachLeaf (perfectNodes 32) (parentOf (leftSpine (perfect 0 32))) true (2 ^ 32 - 1) =
        .ok (σ', ptr t') ∧
      Rooted σ' t' ∧ t'.numNodes = 2 ^ 32 ∧ storedSize t' = 0 ∧ ¬ Counted t' := by
  rcases perfect_attach (Nat.le_refl 32) with
    ⟨⟨hroot, havl, hfresh, hnew⟩, σ', t', hrun, hroot', havl', hfull⟩
  have hnodes : (plug (leftSpine (perfect 0 32)) nil).numNodes = 2 ^ 32 - 1 := by
    rw [plug_leftSpine, numNodes_perfect]
  have hcounted := havl.exact.counted (hnodes ▸ Nat.sub_lt (Nat.two_pow_pos 32) Nat.one_pos)
  refine ⟨⟨hroot, havl, hcounted, hfresh, hnew⟩, σ', t', hrun, hroot', hfull, ?_,
    fun h => Nat.ne_of_lt h.lt hfull⟩
  rw [havl'.exact.storedSize, hfull, Nat.mod_self]

/-! ## The successor's numbers -/

/-- The subtrees of a node for which the numbers the successor brings along
    are those of the place it goes to. The right subtree holds nothing but the
    successor and its right child, and the node is rotated down to where its
    left subtree is empty. -/
def StaleFits (l r : AvlTree) : Prop :=
  (l.numNodes = 2 ∧ r.numNodes = 1) ∨
    (l.left.numNodes = 1 ∧ l.right.left.numNodes = 1 ∧ l.right.right = nil ∧
      r.left = nil ∧ r.right.numNodes = 1)

instance (l r : AvlTree) : Decidable (StaleFits l r) := by
  unfold StaleFits
  infer_instance

theorem numNodes_eq_zero {t : AvlTree} : t.numNodes = 0 ↔ t = nil := by
  rw [← length_vals, List.length_eq_zero_iff, vals_eq_nil]

theorem height_eq_zero {t : AvlTree} : t.height = 0 ↔ t = nil := by
  cases t with
  | nil => exact ⟨fun _ => rfl, fun _ => rfl⟩
  | node x l r => simp only [height, Nat.add_one_ne_zero, reduceCtorEq]

theorem numNodes_eq_one {t : AvlTree} : t.numNodes = 1 ↔ t.height = 1 := by
  cases t with
  | nil => exact ⟨fun h => h, fun h => h⟩
  | node x l r =>
      simp only [numNodes, height]
      have hl := numNodes_eq_zero (t := l)
      have hr := numNodes_eq_zero (t := r)
      rw [← height_eq_zero] at hl hr
      omega

theorem numNodes_le_one {t : AvlTree} (h : t.height ≤ 1) : t.numNodes ≤ 1 := by
  have hzero := numNodes_eq_zero (t := t)
  rw [← height_eq_zero] at hzero
  have hone := numNodes_eq_one (t := t)
  omega

/-- The successor is the right child exactly when that has no left child. -/
theorem lefts_eq_nil {k : List (Frame (Note Nat))} {t u : AvlTree}
    (hk : ∀ f ∈ k, ∃ y w, f = .left y w) (ht : t ≠ nil) (h : u = plug k t) (hu : u.left = nil) :
    k = [] := by
  induction k generalizing t with
  | nil => rfl
  | cons f k ih =>
      rcases hk f List.mem_cons_self with ⟨y, w, rfl⟩
      have hnil := ih (t := node y t w) (fun f hf => hk f (List.mem_cons_of_mem _ hf))
        (by simp only [ne_eq, reduceCtorEq, not_false_eq_true]) h
      rw [hnil] at h
      rw [h] at hu
      exact absurd hu ht

/-- The left subtree the node ends up with, after a repair that turned the
    tall left subtree `l` to the side, or did not. -/
def EndsWith (l u l' : AvlTree) : Prop :=
  (l.height ≠ u.height + 2 ∧ l' = l) ∨
    (l.height = u.height + 2 ∧ l'.height ≤ l.left.height ∧ l' = l.right) ∨
    (l.height = u.height + 2 ∧ l.left.height < l.right.height ∧ l' = l.right.right)

/-- The place of the node after its successor was detached from its right
    subtree, which became `u`. -/
theorem fixNode_place {x : Note Nat} {l u : AvlTree} (hl : Exact l) (hu : Exact u)
    (hheight : u.height ≤ l.height + 1) :
    ∃ k x' l', fixNode (node x l u) = plug k (node x' l' u) ∧ x'.val = x.val ∧
      EndsWith l u l' := by
  rw [fixNode_node, hl.storedHeight, hu.storedHeight]
  by_cases hL : l.height = u.height + 2
  · rw [if_pos hL]
    rcases fixL_cases (v := x.val) (r := u) hl with ⟨rfl, _⟩ | ⟨y, a, b, rfl, hle, heq⟩ |
      ⟨y, a, z, b, c, rfl, hlt, heq⟩
    · exact absurd hL (by rw [height]; omega)
    · exact ⟨[.right a _], ⟨x.val, _, _⟩, b, heq, rfl, Or.inr (Or.inl ⟨hL, hle, rfl⟩)⟩
    · exact ⟨[.right (build y.val a b) _], ⟨x.val, _, _⟩, c, heq, rfl,
        Or.inr (Or.inr ⟨hL, hlt, rfl⟩)⟩
  · rw [if_neg hL, if_neg (by omega)]
    exact ⟨[], ⟨x.val, _, _⟩, l, rfl, rfl, Or.inl ⟨hL, rfl⟩⟩

theorem eq_nil_of_height {t : AvlTree} (h : t.height = 0) : t = nil := height_eq_zero.mp h

/-- The successor's numbers are right for a node that has an empty left subtree
    and the successor's own right subtree, which is when the subtrees fit. -/
theorem staleFits_of_nil {l s l' : AvlTree} {v : Note Nat} (hne : l ≠ nil)
    (hbal : Balanced l) (hl' : EndsWith l s l') (hnil : l' = nil) :
    StaleFits l (node v nil s) := by
  cases l with
  | nil => exact absurd rfl hne
  | node y a b =>
      rcases hl' with ⟨_, hright⟩ | ⟨hL, hle, hright⟩ | ⟨hL, hlt, hright⟩
      · exact absurd (hright.symm.trans hnil) hne
      · -- A single rotation.
        obtain rfl : b = nil := hright.symm.trans hnil
        have hab := hbal.1
        simp only [height] at hL hab
        have hs : s = nil := eq_nil_of_height (by omega)
        have ha := numNodes_eq_one.mpr (by omega : a.height = 1)
        subst hs
        exact Or.inl ⟨by simp only [numNodes, ha], rfl⟩
      · -- A double rotation.
        cases b with
        | nil => exact absurd hlt (Nat.not_lt_zero _)
        | node z b c =>
            obtain rfl : c = nil := hright.symm.trans hnil
            simp only [BinaryTree.right, BinaryTree.left] at hlt
            rcases hbal with ⟨hab, hba, _, hbc, _⟩
            simp only [height] at hL hab hba hbc hlt
            by_cases hb : b.height = 0
            · have hs : s = nil := eq_nil_of_height (by omega)
              have ha : a = nil := eq_nil_of_height (by omega)
              have hb := eq_nil_of_height hb
              subst hs ha hb
              exact Or.inl ⟨rfl, rfl⟩
            · exact Or.inr ⟨numNodes_eq_one.mpr (by simp only [BinaryTree.left]; omega),
                numNodes_eq_one.mpr (by simp only [BinaryTree.left, BinaryTree.right]; omega), rfl, rfl,
                numNodes_eq_one.mpr (by simp only [BinaryTree.right]; omega)⟩

theorem nil_of_staleFits {l s l' : AvlTree} {v : Note Nat} (hl' : EndsWith l s l')
    (h : StaleFits l (node v nil s)) : l' = nil ∧ (s.numNodes = 0 ∨ s.numNodes = 1) := by
  cases l with
  | nil =>
      rcases h with ⟨h, _⟩ | ⟨h, _⟩
      · exact absurd h (by rw [numNodes]; omega)
      · exact absurd h (by simp only [BinaryTree.left, numNodes]; omega)
  | node y a b =>
      simp only [StaleFits, BinaryTree.left, BinaryTree.right, numNodes] at h
      simp only [EndsWith, BinaryTree.left, BinaryTree.right] at hl'
      have ha0 := numNodes_eq_zero (t := a)
      have hb0 := numNodes_eq_zero (t := b)
      have hs0 := numNodes_eq_zero (t := s)
      rw [← height_eq_zero] at ha0 hb0 hs0
      have ha1 := numNodes_eq_one (t := a)
      have hb1 := numNodes_eq_one (t := b)
      have hs1 := numNodes_eq_one (t := s)
      -- a left subtree of one node, or one of the shape that a double rotation takes apart
      rcases h with ⟨hl, hs⟩ | ⟨ha, hbl, hbr, _, hs⟩
      · refine ⟨?_, Or.inl (by omega)⟩
        simp only [height] at hl'
        rcases hl' with ⟨hL, _⟩ | ⟨hL, hle, rfl⟩ | ⟨hL, hlt, rfl⟩
        · exact absurd hL (by omega)
        · exact eq_nil_of_height (by omega)
        · cases b with
          | nil => rfl
          | node z b c =>
              rw [numNodes] at hl
              exact numNodes_eq_zero.mp (by dsimp only; omega)
      · refine ⟨?_, Or.inr hs⟩
        cases b with
        | nil => exact absurd hbl (by simp only [numNodes]; omega)
        | node z b c =>
            dsimp only at hbl hbr
            subst hbr
            have hb := numNodes_eq_one.mp hbl
            simp only [height] at hl'
            rcases hl' with ⟨hL, _⟩ | ⟨hL, hle, rfl⟩ | ⟨hL, hlt, rfl⟩
            · exact absurd hL (by omega)
            · simp only [height] at hle
              exact absurd hle (by omega)
            · rfl

/-! ## Deletion -/

/-- What `avl_del` is to do: return the root of a valid tree whose listing is
    the one before without the node. -/
def DelKeepsAvl (σ : Store) (t : AvlTree) (a : Nat) : Prop :=
  ∃ σ' t', avlDel σ (some a) = .ok (σ', ptr t') ∧ Rooted σ' t' ∧ IsAvl t' ∧
    vals t' = (vals t).erase a ∧ (ptr t' = none ↔ vals t = [a])

/-- The pointers in memory make up one tree. -/
theorem treeAt_unique {t t' : AvlTree} {p q : Option Nat} (h : TreeAt σ p t) (h' : TreeAt σ q t')
    (hptr : ptr t = ptr t') : t = t' := by
  induction t generalizing t' p q with
  | nil => exact (ptr_eq_none.mp hptr.symm).symm
  | node x l r ihl ihr =>
      cases t' with
      | nil => exact absurd hptr (by simp only [ptr, reduceCtorEq, not_false_eq_true])
      | node x' l' r' =>
          rw [ptr_node, ptr_node, Option.some.injEq] at hptr
          have hcell := h.1
          rw [hptr, h'.1, Option.some.injEq, AVLNode.mk.injEq] at hcell
          rcases hcell with ⟨_, hl, hr, hheight, hcnt⟩
          have hx : x = x' := by
            cases x
            cases x'
            simp only at hptr hheight hcnt
            rw [hptr, hheight, hcnt]
          rw [hx, ihl h.2.1 h'.2.1 hl.symm, ihr h.2.2 h'.2.2 hr.symm]

/-- The result of the hard case is valid exactly when the subtrees fit. -/
theorem avlDel_hard_isAvl {k : List (Frame (Note Nat))} {x : Note Nat} {l r : AvlTree}
    (h : Rooted σ (plug k (node x l r))) (havl : IsAvl (plug k (node x l r))) (hl : l ≠ nil)
    (hr : r ≠ nil) :
    ∃ σ' t', avlDel σ (some x.val) = .ok (σ', ptr t') ∧ Rooted σ' t' ∧ t' ≠ nil ∧
      (IsAvl t' ↔ StaleFits l r) := by
  rcases avlDel_hard h hl hr with ⟨kv, v, s, hrv, hkv, hdel⟩
  rcases fitsAt_of_isAvl havl with ⟨⟨hexact, hbal⟩, hfits⟩
  have hlavl : IsAvl l := ⟨hexact.left, hbal.2.2.1⟩
  have hravl : IsAvl r := ⟨hexact.right, hbal.2.2.2⟩
  have hrv' := hravl
  rw [hrv] at hrv'
  rcases fitsAt_of_isAvl hrv' with ⟨⟨hvexact, hvbal⟩, hvfits⟩
  have hs : IsAvl s := ⟨hvexact.right, hvbal.2.2.2⟩
  have hsh : (node v nil s).height = s.height + 1 := by
    rw [height, height, Nat.max_eq_right (Nat.zero_le _)]
  -- The right subtree without the successor.
  have hu : IsAvl (detach kv s) := detach_isAvl hvfits hs (by omega) (by omega)
  have huh := detach_height (u := node v nil s) hvfits hs (by omega) (by omega)
  rw [← hrv] at huh
  have hun : (detach kv s).numNodes + 1 = r.numNodes := by
    rcases vals_plug_removed (k := kv) (x := v) (Or.inl ⟨rfl, rfl⟩ : OnlyChild nil s s) with
      ⟨xs, ys, hbefore, hafter⟩
    rw [← length_vals, ← length_vals, vals_detach, hafter, hrv, hbefore]
    simp only [List.length_append, List.length_cons]
    omega
  have hsn := length_add_numNodes_le kv (node v nil s)
  rw [← hrv, numNodes, numNodes, ← hun] at hsn
  have hlr := hbal.1
  have hrl := hbal.2.1
  -- The place of the node after the repair.
  rcases fixNode_place (x := x) hlavl.exact hu.exact (by omega) with ⟨k₁, x', l', hplace, hxval, hends⟩
  rcases fixNode_balanced (x := x) hlavl hu (by omega) (by omega) with ⟨hfbal, hfup, hfdown, hfeq⟩
  have hfavl : IsAvl (fixNode (node x l (detach kv s))) :=
    ⟨fixNode_exact hlavl.exact hu.exact, hfbal⟩
  have hge : (node x l r).height ≤ (fixNode (node x l (detach kv s))).height + 1 := by
    rw [height]
    by_cases hshort : l.height < r.height
    · have := hfeq (by omega) (by omega)
      omega
    · omega
  have hle : (fixNode (node x l (detach kv s))).height ≤ (node x l r).height := by
    rw [height]
    omega
  rcases fixUp_keeps hfits hfavl hle hge with ⟨⟨k₂, hkeep⟩, _⟩
  have hwhole : detach (kv ++ .right l x :: k) s = plug (k₁ ++ k₂) (node x' l' (detach kv s)) := by
    rw [detach_append, plug_append, ← hplace]
    exact hkeep
  have hwavl : IsAvl (plug (k₁ ++ k₂) (node x' l' (detach kv s))) := by
    have hkvx : FitsAt (kv ++ .right l x :: k) (node v nil s).height := by
      have hplug : plug k (node x l r) = plug (kv ++ .right l x :: k) (node v nil s) := by
        rw [plug_append, ← hrv]
        rfl
      rw [hplug] at havl
      exact (fitsAt_of_isAvl havl).2
    rw [← hwhole]
    exact detach_isAvl hkvx hs (by omega) (by omega)
  rcases hdel _ _ _ _ hwhole hxval with ⟨σ', hrun, hroot, _, _⟩
  refine ⟨σ', _, hrun, hroot,
    plug_ne_nil _ (by simp only [ne_eq, reduceCtorEq, not_false_eq_true]), fun hres => ?_,
    fun hfit => ?_⟩
  · -- The successor's numbers are those of its new place. It had no left child,
    -- so its subtree was not high, and the sizes are small.
    rcases (fitsAt_of_isAvl hres).1.exact with ⟨hhigh, hsize, _, _⟩
    have hvhigh := hvexact.1
    have hvsize := hvexact.2.1
    have hvlow := hvbal.2.1
    rw [hvhigh, height] at hhigh
    rw [height] at hvlow
    rw [hvsize, numNodes] at hsize
    have hsone := numNodes_le_one (t := s) hvlow
    have hlone := numNodes_le_one (t := l') (by omega)
    have huone := numNodes_le_one (t := detach kv s) (by omega)
    have hl' : l' = nil := numNodes_eq_zero.mp (by omega)
    have hkvnil : kv = [] := List.length_eq_zero_iff.mp (by omega)
    subst hkvnil
    rw [hrv]
    exact staleFits_of_nil hl hlavl.balanced hends hl'
  · have hkvnil : kv = [] := by
      rcases hfit with ⟨_, hone⟩ | ⟨_, _, _, hleft, _⟩
      · exact List.length_eq_zero_iff.mp (by omega)
      · exact lefts_eq_nil hkv (by simp only [ne_eq, reduceCtorEq, not_false_eq_true]) hrv hleft
    subst hkvnil
    rw [hrv] at hfit
    rcases nil_of_staleFits hends hfit with ⟨rfl, _⟩
    exact isAvl_plug_congr hwavl ⟨hvexact, hvbal⟩ rfl rfl

-- Whatever tree a deletion in a valid tree returns, whether it is valid can be
-- read off the subtrees of the node.
theorem avlDel_isAvl_iff {k : List (Frame (Note Nat))} {x : Note Nat} {l r t' : AvlTree}
    (h : Rooted σ (plug k (node x l r))) (havl : IsAvl (plug k (node x l r)))
    (hrun : avlDel σ (some x.val) = .ok (σ', ptr t')) (hroot : Rooted σ' t') :
    IsAvl t' ↔ l = nil ∨ r = nil ∨ StaleFits l r := by
  by_cases hone : l = nil ∨ r = nil
  · rcases exists_onlyChild hone with ⟨c, hc⟩
    rcases avlDel_easy h hc with ⟨σ₂, hrun₂, hroot₂, _⟩
    rw [hrun, Except.ok.injEq, Prod.mk.injEq] at hrun₂
    rw [← hrun₂.1] at hroot₂
    refine ⟨fun _ => hone.elim Or.inl fun hr => Or.inr (Or.inl hr), fun _ => ?_⟩
    rw [treeAt_unique hroot.tree hroot₂.tree hrun₂.2]
    exact detach_child_isAvl havl hc
  · rw [not_or] at hone
    rcases avlDel_hard_isAvl h havl hone.1 hone.2 with ⟨σ₂, t₂, hrun₂, hroot₂, _, hiff⟩
    rw [hrun, Except.ok.injEq, Prod.mk.injEq] at hrun₂
    rw [← hrun₂.1] at hroot₂
    rw [treeAt_unique hroot.tree hroot₂.tree hrun₂.2, hiff]
    exact ⟨fun hfit => Or.inr (Or.inr hfit), fun h => (h.resolve_left hone.1).resolve_left hone.2⟩

/-- A list of distinct addresses without one of them. -/
theorem erase_of_split {l xs ys : List Nat} {a : Nat} (hl : l = xs ++ a :: ys) (hnd : l.Nodup) :
    xs ++ ys = l.erase a ∧ (xs ++ ys = [] ↔ l = [a]) := by
  subst hl
  rw [List.nodup_middle, List.nodup_cons, List.mem_append, not_or] at hnd
  constructor
  · rw [List.erase_append_right _ hnd.1.1, List.erase_cons_head]
  · constructor
    · intro h
      rw [List.append_eq_nil_iff] at h
      rw [h.1, h.2, List.nil_append]
    · intro h
      have hlen := congrArg List.length h
      simp only [List.length_append, List.length_cons, List.length_nil] at hlen
      exact List.length_eq_zero_iff.mp (by rw [List.length_append]; omega)

/-- On a valid tree, `avl_del` always returns the root of a tree whose listing
    lost just the node. That tree is valid exactly when the node has at most
    one child, or the numbers the successor keeps happen to be right. -/
theorem avl_del_valid_iff (σ : Store) (k : List (Frame (Note Nat))) (x : Note Nat)
    (l r : AvlTree) (h : Rooted σ (plug k (node x l r))) (havl : IsAvl (plug k (node x l r))) :
    (∃ σ' t', avlDel σ (some x.val) = .ok (σ', ptr t') ∧ Rooted σ' t' ∧
      vals t' = (vals (plug k (node x l r))).erase x.val ∧
      (ptr t' = none ↔ vals (plug k (node x l r)) = [x.val])) ∧
    (DelKeepsAvl σ (plug k (node x l r)) x.val ↔ l = nil ∨ r = nil ∨ StaleFits l r) := by
  have hmem : x.val ∈ vals (plug k (node x l r)) := by
    rw [(vals_plug_perm k _).mem_iff, List.mem_append]
    exact Or.inl (mem_vals_of_ptr rfl)
  rcases avlDel_spec h hmem with ⟨σ', t', hrun, hroot, _, _, xs, ys, hbefore, hafter⟩
  rcases erase_of_split hbefore h.nodup with ⟨herase, hempty⟩
  have hptr : ptr t' = none ↔ vals (plug k (node x l r)) = [x.val] := by
    rw [ptr_eq_none, ← vals_eq_nil, hafter, hempty]
  refine ⟨⟨σ', t', hrun, hroot, hafter.trans herase, hptr⟩, ?_⟩
  -- Whatever tree is returned, it is this one.
  have hkeeps : DelKeepsAvl σ (plug k (node x l r)) x.val ↔ IsAvl t' := by
    constructor
    · rintro ⟨σ₂, t₂, hrun₂, hroot₂, havl₂, _⟩
      rw [hrun, Except.ok.injEq, Prod.mk.injEq] at hrun₂
      rw [← hrun₂.1] at hroot₂
      rw [treeAt_unique hroot.tree hroot₂.tree hrun₂.2]
      exact havl₂
    · intro havl'
      exact ⟨σ', t', hrun, hroot, havl', hafter.trans herase, hptr⟩
  -- the heights and the sizes are right in it exactly when the successor's old ones fit
  rw [hkeeps]
  exact avlDel_isAvl_iff h havl hrun hroot

/-- A root with two children, where the left one has a child too. -/
def fourNodes : Store where
  cell
    | 0 => some ⟨none, some 1, some 2, 3, 4⟩
    | 1 => some ⟨some 0, some 3, none, 2, 2⟩
    | 2 => some ⟨some 0, none, none, 1, 1⟩
    | 3 => some ⟨some 1, none, none, 1, 1⟩
    | _ => none
  next := 4

/-- The left child of the root of `fourNodes`. -/
def fourLeft : AvlTree := node ⟨1, 2, 2⟩ (leaf 3) nil

/-- The tree of `fourNodes`. -/
def fourTree : AvlTree := node ⟨0, 3, 4⟩ fourLeft (leaf 2)

theorem fourNodes_rooted : Rooted fourNodes fourTree where
  tree := ⟨rfl, ⟨rfl, ⟨rfl, True.intro, True.intro⟩, True.intro⟩, rfl, True.intro, True.intro⟩
  nodup := by decide
  lt := by decide

theorem fourTree_isAvl : IsAvl fourTree where
  exact := ⟨rfl, rfl, ⟨rfl, rfl, (leaf_isAvl 3).exact, True.intro⟩, (leaf_isAvl 2).exact⟩
  balanced := ⟨by decide, by decide, ⟨by decide, by decide, (leaf_isAvl 3).balanced, True.intro⟩,
    (leaf_isAvl 2).balanced⟩

/-- The root has two children. Its successor is the right one, the tree is
    repaired by a rotation, and the old numbers of the successor fit. -/
theorem avl_del_valid_iff_four :
    ((∃ σ' t', avlDel fourNodes (some 0) = .ok (σ', ptr t') ∧ Rooted σ' t' ∧
      vals t' = (vals fourTree).erase 0 ∧ (ptr t' = none ↔ vals fourTree = [0])) ∧
    (DelKeepsAvl fourNodes fourTree 0 ↔
      fourLeft = nil ∨ leaf 2 = nil ∨ StaleFits fourLeft (leaf 2))) ∧
    DelKeepsAvl fourNodes fourTree 0 := by
  have hdel := avl_del_valid_iff fourNodes [] ⟨0, 3, 4⟩ fourLeft (leaf 2) fourNodes_rooted
    fourTree_isAvl
  exact ⟨hdel, hdel.2.mpr (Or.inr (Or.inr (by decide)))⟩

/-- Deleting the root of a tree of three nodes makes its right child the root,
    with the height and the size of a leaf. -/
theorem avl_del_stale :
    Rooted threeNodes threeTree ∧ IsAvl threeTree ∧ 0 ∈ vals threeTree ∧
      ¬ DelKeepsAvl threeNodes threeTree 0 := by
  refine ⟨threeNodes_rooted, threeTree_isAvl, by decide, ?_⟩
  rintro ⟨σ', t', hrun, hroot, havl, _⟩
  have hroot' : (avlDel threeNodes (some 0)).map (fun y => (y.1.cell 2, y.2)) =
      .ok (some ⟨none, some 1, none, 1, 1⟩, some 2) := rfl
  rw [hrun, Except.map, Except.ok.injEq, Prod.mk.injEq] at hroot'
  rcases hroot' with ⟨hcell, hptr⟩
  cases t' with
  | nil => exact absurd hptr (by simp only [ptr, reduceCtorEq, not_false_eq_true])
  | node x l r =>
      rw [ptr_node, Option.some.injEq] at hptr
      have hx := hroot.tree.1
      rw [hptr, hcell, Option.some.injEq, AVLNode.mk.injEq] at hx
      -- The root stores the height one, and has a left child.
      have hheight := havl.exact.1
      have hl : l ≠ nil := fun h => absurd hx.2.1 (by rw [h]; exact Option.some_ne_none 1)
      rw [ne_eq, ← height_eq_zero] at hl
      omega

end RedisServer
