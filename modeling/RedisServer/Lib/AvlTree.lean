import RedisServer.Lib.Zipper
import Mathlib.Algebra.Order.Ring.Nat

/-!
# Height-Balanced Trees

AVL trees whose nodes store the height and the size of their subtree, the size
modulo `2 ^ 32`. The repair after a change walks from the changed place to the
root, and at each node recomputes the stored numbers and rotates when the
heights of the two subtrees differ by two.

The repair reads the stored numbers, so it makes sense on any tree, and
whatever they are it keeps the listing. On a tree whose stored numbers are
exact and whose heights are balanced it restores both, provided the change
moved the height of its place by at most one. That bound is what every level
of the walk hands to the next one, for an insertion and a deletion alike. A
stored size is exact when it is the size modulo `2 ^ 32`, and it is the size
itself in a tree of fewer nodes.

## Main definitions

* `Note`, `storedHeight`, `storedSize`: A node and what it stores.
* `build`, `rotL`, `rotR`, `fixL`, `fixR`, `fixNode`: The local repairs.
* `fixUp`, `detach`: The repair up to the root, also after a removal.
* `Exact`, `Balanced`, `IsAvl`: The invariant.
* `Counted`: The stored sizes are the sizes.

## Theorems

* `vals_fixUp`: A repair keeps the listing.
* `fixNode_exact`, `fixNode_balanced`: A local repair.
* `fixUp_isAvl`: A repair restores the invariant.
-/

namespace Lib

open BinaryTree

variable {α : Type}

/-- A node's value, with the height and the size it stores. -/
structure Note (α : Type) where
  val : α
  height : Nat
  size : Nat
  deriving DecidableEq, Repr

/-- The height a tree stores at its root. -/
def storedHeight : BinaryTree (Note α) → Nat
  | nil => 0
  | node x _ _ => x.height

/-- The size a tree stores at its root. -/
def storedSize : BinaryTree (Note α) → Nat
  | nil => 0
  | node x _ _ => x.size

/-- The values of a tree from left to right. -/
def vals (t : BinaryTree (Note α)) : List α := (inorder t).map Note.val

@[simp] theorem vals_nil : vals (nil : BinaryTree (Note α)) = [] := rfl

@[simp] theorem vals_node (x : Note α) (l r : BinaryTree (Note α)) :
    vals (node x l r) = vals l ++ x.val :: vals r := by
  rw [vals, inorder_node, List.map_append, List.map_cons]
  rfl

theorem length_vals (t : BinaryTree (Note α)) : (vals t).length = t.numNodes := by
  rw [vals, List.length_map, length_inorder]

theorem vals_eq_nil {t : BinaryTree (Note α)} : vals t = [] ↔ t = nil := by
  rw [vals, List.map_eq_nil_iff, inorder_eq_nil]

theorem vals_plug (k : List (Frame (Note α))) (t : BinaryTree (Note α)) :
    vals (plug k t) = (before k).map Note.val ++ vals t ++ (after k).map Note.val := by
  rw [vals, inorder_plug, List.map_append, List.map_append]
  rfl

theorem vals_plug_congr (k : List (Frame (Note α))) {t u : BinaryTree (Note α)}
    (h : vals t = vals u) : vals (plug k t) = vals (plug k u) := by
  rw [vals_plug, vals_plug, h]

/-! ## Repairs -/

/-- A node with its stored numbers recomputed from its subtrees. -/
def build (v : α) (l r : BinaryTree (Note α)) : BinaryTree (Note α) :=
  node ⟨v, 1 + max (storedHeight l) (storedHeight r), (1 + storedSize l + storedSize r) % 2 ^ 32⟩ l r

/-- A left rotation. -/
def rotL : BinaryTree (Note α) → BinaryTree (Note α)
  | node x a (node y b c) => build y.val (build x.val a b) c
  | t => t

/-- A right rotation. -/
def rotR : BinaryTree (Note α) → BinaryTree (Note α)
  | node x (node y a b) c => build y.val a (build x.val b c)
  | t => t

/-- The repair of a node whose left subtree is too tall. -/
def fixL : BinaryTree (Note α) → BinaryTree (Note α)
  | node x l r =>
    rotR (node x (if storedHeight l.left < storedHeight l.right then rotL l else l) r)
  | nil => nil

/-- The repair of a node whose right subtree is too tall. -/
def fixR : BinaryTree (Note α) → BinaryTree (Note α)
  | node x l r =>
    rotL (node x l (if storedHeight r.right < storedHeight r.left then rotR r else r))
  | nil => nil

/-- The repair of one node: its numbers, and a rotation if the heights of its
    subtrees differ by two. -/
def fixNode : BinaryTree (Note α) → BinaryTree (Note α)
  | node x l r =>
    if storedHeight l = storedHeight r + 2 then fixL (build x.val l r)
    else if storedHeight l + 2 = storedHeight r then fixR (build x.val l r)
    else build x.val l r
  | nil => nil

/-- The repair of every node from a place up to the root. -/
def fixUp : List (Frame (Note α)) → BinaryTree (Note α) → BinaryTree (Note α)
  | [], t => fixNode t
  | f :: k, t => fixUp k (f.fill (fixNode t))

/-- A place is filled by the subtree that a node taken out there leaves
    behind, and the nodes above it are repaired. -/
def detach : List (Frame (Note α)) → BinaryTree (Note α) → BinaryTree (Note α)
  | [], t => t
  | f :: k, t => fixUp k (f.fill t)

theorem fixUp_append (k k' : List (Frame (Note α))) (f : Frame (Note α))
    (t : BinaryTree (Note α)) :
    fixUp (k ++ f :: k') t = fixUp k' (f.fill (fixUp k t)) := by
  induction k generalizing t with
  | nil => rfl
  | cons f' k ih => exact ih _

/-! ## The listing -/

@[simp] theorem vals_build (v : α) (l r : BinaryTree (Note α)) :
    vals (build v l r) = vals l ++ v :: vals r := by
  rw [build, vals_node]

theorem vals_rotL (t : BinaryTree (Note α)) : vals (rotL t) = vals t := by
  unfold rotL
  split
  · simp only [vals_build, vals_node, List.append_assoc, List.cons_append]
  · rfl

theorem vals_rotR (t : BinaryTree (Note α)) : vals (rotR t) = vals t := by
  unfold rotR
  split
  · simp only [vals_build, vals_node, List.append_assoc, List.cons_append]
  · rfl

theorem vals_fixL (t : BinaryTree (Note α)) : vals (fixL t) = vals t := by
  cases t with
  | nil => rfl
  | node x l r =>
      rw [fixL, vals_rotR, vals_node, vals_node]
      split
      · rw [vals_rotL]
      · rfl

theorem vals_fixR (t : BinaryTree (Note α)) : vals (fixR t) = vals t := by
  cases t with
  | nil => rfl
  | node x l r =>
      rw [fixR, vals_rotL, vals_node, vals_node]
      split
      · rw [vals_rotR]
      · rfl

theorem fixNode_node (x : Note α) (l r : BinaryTree (Note α)) :
    fixNode (node x l r) =
      if storedHeight l = storedHeight r + 2 then fixL (build x.val l r)
      else if storedHeight l + 2 = storedHeight r then fixR (build x.val l r)
      else build x.val l r := rfl

theorem vals_fixNode (t : BinaryTree (Note α)) : vals (fixNode t) = vals t := by
  cases t with
  | nil => rfl
  | node x l r =>
      have hbuild : vals (build x.val l r) = vals (node x l r) := by
        rw [vals_build, vals_node]
      rw [fixNode_node]
      split
      · rw [vals_fixL, hbuild]
      · split
        · rw [vals_fixR, hbuild]
        · exact hbuild

/-- A repair keeps the listing. -/
theorem vals_fixUp (k : List (Frame (Note α))) (t : BinaryTree (Note α)) :
    vals (fixUp k t) = vals (plug k t) := by
  induction k generalizing t with
  | nil => exact vals_fixNode t
  | cons f k ih =>
      rw [fixUp, ih, plug_cons]
      refine vals_plug_congr k ?_
      have h : ∀ u : BinaryTree (Note α),
          vals (f.fill u) = f.before.map Note.val ++ vals u ++ f.after.map Note.val := by
        intro u
        rw [vals, f.inorder_fill, List.map_append, List.map_append]
        rfl
      rw [h, h, vals_fixNode]

theorem vals_detach (k : List (Frame (Note α))) (t : BinaryTree (Note α)) :
    vals (detach k t) = vals (plug k t) := by
  cases k with
  | nil => rfl
  | cons f k => exact vals_fixUp k (f.fill t)

/-! ## The invariant -/

/-- The stored numbers are the heights, and the sizes modulo `2 ^ 32`. -/
def Exact : BinaryTree (Note α) → Prop
  | nil => True
  | node x l r => x.height = 1 + max l.height r.height ∧
      x.size = (1 + l.numNodes + r.numNodes) % 2 ^ 32 ∧ Exact l ∧ Exact r

/-- The heights of the two subtrees of a node differ by at most one. -/
def Balanced : BinaryTree (Note α) → Prop
  | nil => True
  | node _ l r => l.height ≤ r.height + 1 ∧ r.height ≤ l.height + 1 ∧ Balanced l ∧ Balanced r

/-- An AVL tree with exact heights and sizes. -/
structure IsAvl (t : BinaryTree (Note α)) : Prop where
  exact : Exact t
  balanced : Balanced t

namespace Exact

theorem storedHeight {t : BinaryTree (Note α)} (h : Exact t) : storedHeight t = t.height := by
  cases t with
  | nil => rfl
  | node x l r =>
      have := h.1
      rw [Lib.storedHeight, height, this, Nat.add_comm]

theorem storedSize {t : BinaryTree (Note α)} (h : Exact t) :
    storedSize t = t.numNodes % 2 ^ 32 := by
  cases t with
  | nil => rfl
  | node x l r =>
      have := h.2.1
      rw [Lib.storedSize, numNodes, this]
      congr 1
      omega

theorem build {l r : BinaryTree (Note α)} (hl : Exact l) (hr : Exact r) (v : α) :
    Exact (build v l r) := by
  refine ⟨?_, ?_, hl, hr⟩
  · rw [hl.storedHeight, hr.storedHeight]
  · rw [hl.storedSize, hr.storedSize]
    show (1 + l.numNodes % 2 ^ 32 + r.numNodes % 2 ^ 32) % 2 ^ 32 = _
    omega

theorem left {t : BinaryTree (Note α)} (h : Exact t) : Exact t.left := by
  cases t with
  | nil => exact True.intro
  | node x l r => exact h.2.2.1

theorem right {t : BinaryTree (Note α)} (h : Exact t) : Exact t.right := by
  cases t with
  | nil => exact True.intro
  | node x l r => exact h.2.2.2

end Exact

/-- The stored sizes are those of the subtrees, which therefore fit into 32
    bits. The stored heights do not matter. -/
def Counted : BinaryTree (Note α) → Prop
  | nil => True
  | node x l r => (x.size = 1 + l.numNodes + r.numNodes ∧ x.size < 2 ^ 32) ∧ Counted l ∧ Counted r

/-- In a tree of fewer than `2 ^ 32` nodes nothing is lost of a size. -/
theorem Exact.counted {t : BinaryTree (Note α)} (h : Exact t) (hsize : t.numNodes < 2 ^ 32) :
    Counted t := by
  induction t with
  | nil => exact True.intro
  | node x l r ihl ihr =>
      rw [numNodes] at hsize
      have hx := h.2.1
      rw [Nat.mod_eq_of_lt (by omega)] at hx
      exact ⟨⟨hx, by omega⟩, ihl h.2.2.1 (by omega), ihr h.2.2.2 (by omega)⟩

namespace Counted

theorem storedSize {t : BinaryTree (Note α)} (h : Counted t) : storedSize t = t.numNodes := by
  cases t with
  | nil => rfl
  | node x l r =>
      have := h.1.1
      rw [Lib.storedSize, numNodes, this]
      omega

theorem lt {t : BinaryTree (Note α)} (h : Counted t) : t.numNodes < 2 ^ 32 := by
  cases t with
  | nil => exact Nat.two_pow_pos 32
  | node x l r =>
      have := h.1
      rw [numNodes]
      omega

theorem left {t : BinaryTree (Note α)} (h : Counted t) : Counted t.left := by
  cases t with
  | nil => exact True.intro
  | node x l r => exact h.2.1

theorem right {t : BinaryTree (Note α)} (h : Counted t) : Counted t.right := by
  cases t with
  | nil => exact True.intro
  | node x l r => exact h.2.2

-- The part of a tree at a place of it.
theorem place {k : List (Frame (Note α))} {t : BinaryTree (Note α)} (h : Counted (plug k t)) :
    Counted t := by
  induction k generalizing t with
  | nil => exact h
  | cons f k ih =>
      have hfill := ih h
      cases f with
      | left x r => exact hfill.left
      | right l x => exact hfill.right

end Counted

@[simp] theorem height_build (v : α) (l r : BinaryTree (Note α)) :
    (build v l r).height = max l.height r.height + 1 := rfl

@[simp] theorem numNodes_build (v : α) (l r : BinaryTree (Note α)) :
    (build v l r).numNodes = l.numNodes + r.numNodes + 1 := rfl

theorem balanced_build {v : α} {l r : BinaryTree (Note α)} :
    Balanced (build v l r) ↔
      l.height ≤ r.height + 1 ∧ r.height ≤ l.height + 1 ∧ Balanced l ∧ Balanced r := Iff.rfl

/-! ## One repair

A rotation rebuilds both nodes it turns, so what they stored does not matter. -/

/-- What a single or a double right rotation leads to. -/
theorem fixL_cases {v : α} {l r : BinaryTree (Note α)} (hl : Exact l) :
    (l = nil ∧ fixL (build v l r) = build v l r) ∨
    (∃ y a b, l = node y a b ∧ b.height ≤ a.height ∧
      fixL (build v l r) = build y.val a (build v b r)) ∨
    ∃ y a z b c, l = node y a (node z b c) ∧ a.height < (node z b c).height ∧
      fixL (build v l r) = build z.val (build y.val a b) (build v c r) := by
  cases l with
  | nil => exact Or.inl ⟨rfl, rfl⟩
  | node y a b =>
      right
      have ha : storedHeight a = a.height := hl.left.storedHeight
      have hb : storedHeight b = b.height := hl.right.storedHeight
      -- the heights that are stored are the real ones, so they decide the rotation
      by_cases hlt : a.height < b.height
      · have hstored : storedHeight a < storedHeight b := by
          rw [ha, hb]
          exact hlt
        cases b with
        | nil => exact absurd hlt (Nat.not_lt_zero _)
        | node z b c =>
            refine Or.inr ⟨y, a, z, b, c, rfl, hlt, ?_⟩
            rw [build, fixL, BinaryTree.left, BinaryTree.right, if_pos hstored]
            rfl
      · have hstored : ¬ storedHeight a < storedHeight b := by
          rw [ha, hb]
          exact hlt
        refine Or.inl ⟨y, a, b, rfl, Nat.le_of_not_lt hlt, ?_⟩
        rw [build, fixL, BinaryTree.left, BinaryTree.right, if_neg hstored]
        rfl

/-- What a single or a double left rotation leads to. -/
theorem fixR_cases {v : α} {l r : BinaryTree (Note α)} (hr : Exact r) :
    (r = nil ∧ fixR (build v l r) = build v l r) ∨
    (∃ y a b, r = node y a b ∧ a.height ≤ b.height ∧
      fixR (build v l r) = build y.val (build v l a) b) ∨
    ∃ y z a b c, r = node y (node z a b) c ∧ c.height < (node z a b).height ∧
      fixR (build v l r) = build z.val (build v l a) (build y.val b c) := by
  cases r with
  | nil => exact Or.inl ⟨rfl, rfl⟩
  | node y a b =>
      right
      have ha : storedHeight a = a.height := hr.left.storedHeight
      have hb : storedHeight b = b.height := hr.right.storedHeight
      -- the mirror image
      by_cases hlt : b.height < a.height
      · have hstored : storedHeight b < storedHeight a := by
          rw [ha, hb]
          exact hlt
        cases a with
        | nil => exact absurd hlt (Nat.not_lt_zero _)
        | node z a c =>
            refine Or.inr ⟨y, z, a, c, b, rfl, hlt, ?_⟩
            rw [build, fixR, BinaryTree.left, BinaryTree.right, if_pos hstored]
            rfl
      · have hstored : ¬ storedHeight b < storedHeight a := by
          rw [ha, hb]
          exact hlt
        refine Or.inl ⟨y, a, b, rfl, Nat.le_of_not_lt hlt, ?_⟩
        rw [build, fixR, BinaryTree.left, BinaryTree.right, if_neg hstored]
        rfl

/-- Repairing a node with exact subtrees makes it exact. -/
theorem fixNode_exact {x : Note α} {l r : BinaryTree (Note α)} (hl : Exact l) (hr : Exact r) :
    Exact (fixNode (node x l r)) := by
  -- every node a rotation touches is built anew from exact subtrees
  rw [fixNode_node]
  split
  · rcases fixL_cases (v := x.val) (r := r) hl with ⟨_, heq⟩ | ⟨y, a, b, rfl, _, heq⟩ |
      ⟨y, a, z, b, c, rfl, _, heq⟩
    · rw [heq]
      exact hl.build hr _
    · rw [heq]
      exact hl.left.build (hl.right.build hr _) _
    · rw [heq]
      exact (hl.left.build hl.right.left _).build (hl.right.right.build hr _) _
  · split
    · rcases fixR_cases (v := x.val) (l := l) hr with ⟨_, heq⟩ | ⟨y, a, b, rfl, _, heq⟩ |
        ⟨y, z, a, b, c, rfl, _, heq⟩
      · rw [heq]
        exact hl.build hr _
      · rw [heq]
        exact (hl.build hr.left _).build hr.right _
      · rw [heq]
        exact (hl.build hr.left.left _).build (hr.left.right.build hr.right _) _
    · exact hl.build hr _

/-- Repairing a node whose balanced subtrees differ in height by at most two
    makes it balanced. Its height is the one it had, or one less after a
    rotation. -/
theorem fixNode_balanced {x : Note α} {l r : BinaryTree (Note α)} (hl : IsAvl l) (hr : IsAvl r)
    (hlr : l.height ≤ r.height + 2) (hrl : r.height ≤ l.height + 2) :
    Balanced (fixNode (node x l r)) ∧
      (fixNode (node x l r)).height ≤ max l.height r.height + 1 ∧
      max l.height r.height ≤ (fixNode (node x l r)).height ∧
      (l.height ≤ r.height + 1 → r.height ≤ l.height + 1 →
        (fixNode (node x l r)).height = max l.height r.height + 1) := by
  rw [fixNode_node, hl.exact.storedHeight, hr.exact.storedHeight]
  -- the left side is too high, the right side is, or neither
  by_cases hL : l.height = r.height + 2
  · rw [if_pos hL]
    rcases fixL_cases (v := x.val) (r := r) hl.exact with ⟨rfl, _⟩ | ⟨y, a, b, rfl, hle, heq⟩ |
      ⟨y, a, z, b, c, rfl, hlt, heq⟩
    · exact absurd hL (by simp only [height]; omega)
    · rcases hl.balanced with ⟨hab, hba, hbala, hbalb⟩
      simp only [height] at hL hlr hrl
      simp only [heq, balanced_build, height_build, height]
      exact ⟨⟨by omega, by omega, hbala, by omega, by omega, hbalb, hr.balanced⟩, by omega,
        by omega, by omega⟩
    · rcases hl.balanced with ⟨hab, hba, hbala, hbc, hcb, hbalb, hbalc⟩
      simp only [height] at hL hlr hrl hab hba hlt
      simp only [heq, balanced_build, height_build, height]
      exact ⟨⟨by omega, by omega, ⟨by omega, by omega, hbala, hbalb⟩, by omega, by omega, hbalc,
        hr.balanced⟩, by omega, by omega, by omega⟩
  · rw [if_neg hL]
    by_cases hR : l.height + 2 = r.height
    · rw [if_pos hR]
      rcases fixR_cases (v := x.val) (l := l) hr.exact with ⟨rfl, _⟩ | ⟨y, a, b, rfl, hle, heq⟩ |
        ⟨y, z, a, b, c, rfl, hlt, heq⟩
      · exact absurd hR (by simp only [height]; omega)
      · rcases hr.balanced with ⟨hab, hba, hbala, hbalb⟩
        simp only [height] at hR hlr hrl
        simp only [heq, balanced_build, height_build, height]
        exact ⟨⟨by omega, by omega, ⟨by omega, by omega, hl.balanced, hbala⟩, hbalb⟩, by omega,
          by omega, by omega⟩
      · rcases hr.balanced with ⟨hab, hba, ⟨hbc, hcb, hbala, hbalb⟩, hbalc⟩
        simp only [height] at hR hlr hrl hab hba hlt
        simp only [heq, balanced_build, height_build, height]
        exact ⟨⟨by omega, by omega, ⟨by omega, by omega, hl.balanced, hbala⟩, by omega, by omega,
          hbalb, hbalc⟩, by omega, by omega, by omega⟩
    · rw [if_neg hR]
      rw [balanced_build, height_build]
      exact ⟨⟨by omega, by omega, hl.balanced, hr.balanced⟩, Nat.le_refl _, by omega,
        fun _ _ => rfl⟩

/-! ## The repair up to the root -/

/-- A tree of height `h` at the place makes every node above it balanced, over
    balanced and exact subtrees. -/
def FitsAt : List (Frame (Note α)) → Nat → Prop
  | [], _ => True
  | f :: k, h => IsAvl f.sibling ∧ h ≤ f.sibling.height + 1 ∧ f.sibling.height ≤ h + 1 ∧
      FitsAt k (max h f.sibling.height + 1)

theorem fill_exact {f : Frame (Note α)} {t : BinaryTree (Note α)} (hf : Exact f.sibling)
    (ht : Exact t) : Exact (fixNode (f.fill t)) := by
  cases f with
  | left x r => exact fixNode_exact ht hf
  | right l x => exact fixNode_exact hf ht

/-- One level of the repair: a subtree whose height moved by at most one makes
    the height of the node above it move by at most one. -/
theorem fill_isAvl {f : Frame (Note α)} {t : BinaryTree (Note α)} {h : Nat} (ht : IsAvl t)
    (hf : IsAvl f.sibling) (hle : t.height ≤ h + 1) (hge : h ≤ t.height + 1)
    (hhf : h ≤ f.sibling.height + 1) (hfh : f.sibling.height ≤ h + 1) :
    IsAvl (fixNode (f.fill t)) ∧
      (fixNode (f.fill t)).height ≤ max h f.sibling.height + 1 + 1 ∧
      max h f.sibling.height + 1 ≤ (fixNode (f.fill t)).height + 1 := by
  have hexact := fill_exact hf.exact ht.exact
  cases f with
  | left x r =>
      simp only [Frame.sibling, Frame.fill] at *
      rcases fixNode_balanced (x := x) ht hf (by omega) (by omega) with ⟨hbal, hup, hdown, heq⟩
      exact ⟨⟨hexact, hbal⟩, by omega, by omega⟩
  | right l x =>
      simp only [Frame.sibling, Frame.fill] at *
      rcases fixNode_balanced (x := x) hf ht (by omega) (by omega) with ⟨hbal, hup, hdown, heq⟩
      exact ⟨⟨hexact, hbal⟩, by omega, by omega⟩

/-- A repair restores the invariant after a change that moved the height of
    the place by at most one. -/
theorem fixUp_isAvl {k : List (Frame (Note α))} {x : Note α} {l r : BinaryTree (Note α)} {h : Nat}
    (hk : FitsAt k h) (ht : IsAvl (fixNode (node x l r)))
    (hle : (fixNode (node x l r)).height ≤ h + 1) (hge : h ≤ (fixNode (node x l r)).height + 1) :
    IsAvl (fixUp k (node x l r)) := by
  induction k generalizing x l r h with
  | nil => exact ht
  | cons f k ih =>
      rcases hk with ⟨hf, hhf, hfh, hk⟩
      have hnext := fill_isAvl ht hf hle hge hhf hfh
      cases f with
      | left y u => exact ih hk hnext.1 hnext.2.1 hnext.2.2
      | right u y => exact ih hk hnext.1 hnext.2.1 hnext.2.2

/-- A place in an AVL tree fits the height of the subtree that is there. -/
theorem fitsAt_of_isAvl {k : List (Frame (Note α))} {t : BinaryTree (Note α)}
    (h : IsAvl (plug k t)) : IsAvl t ∧ FitsAt k t.height := by
  induction k generalizing t with
  | nil => exact ⟨h, True.intro⟩
  | cons f k ih =>
      rcases ih h with ⟨⟨hexact, hbal⟩, hfits⟩
      rw [f.height_fill] at hfits
      cases f with
      | left x r =>
          exact ⟨⟨hexact.left, hbal.2.2.1⟩, ⟨hexact.right, hbal.2.2.2⟩, hbal.1, hbal.2.1, hfits⟩
      | right l x =>
          exact ⟨⟨hexact.right, hbal.2.2.2⟩, ⟨hexact.left, hbal.2.2.1⟩, hbal.2.1, hbal.1, hfits⟩

/-- A removal restores the invariant. -/
theorem detach_isAvl {k : List (Frame (Note α))} {t : BinaryTree (Note α)} {h : Nat}
    (hk : FitsAt k h) (ht : IsAvl t) (hle : t.height ≤ h + 1) (hge : h ≤ t.height + 1) :
    IsAvl (detach k t) := by
  cases k with
  | nil => exact ht
  | cons f k =>
      rcases hk with ⟨hf, hhf, hfh, hk⟩
      have hnext := fill_isAvl ht hf hle hge hhf hfh
      cases f with
      | left y u => exact fixUp_isAvl hk hnext.1 hnext.2.1 hnext.2.2
      | right u y => exact fixUp_isAvl hk hnext.1 hnext.2.1 hnext.2.2

/-- Attaching a leaf and repairing restores the invariant. -/
theorem fixUp_leaf_isAvl {k : List (Frame (Note α))} (h : IsAvl (plug k nil)) (x : Note α) :
    IsAvl (fixUp k (node x nil nil)) := by
  have hleaf : fixNode (node x nil nil) = build x.val nil nil := rfl
  have havl : IsAvl (build x.val nil nil) :=
    ⟨⟨rfl, rfl, True.intro, True.intro⟩, Nat.zero_le _, Nat.zero_le _, True.intro, True.intro⟩
  have hfits := (fitsAt_of_isAvl h).2
  refine fixUp_isAvl hfits ?_ ?_ ?_
  · rw [hleaf]
    exact havl
  · rw [hleaf]
    exact Nat.le_refl _
  · exact Nat.zero_le _

/-! ## Where the repair leaves a subtree -/

/-- A rotation turns away from a subtree that is not the taller one, and keeps
    it whole. -/
theorem fixNode_fill_keeps {f : Frame (Note α)} {t : BinaryTree (Note α)} (ht : Exact t)
    (hf : Exact f.sibling) (hle : t.height ≤ f.sibling.height + 1) :
    ∃ k, fixNode (f.fill t) = plug k t := by
  -- a subtree that is not the higher one stays whole, below one frame or two
  cases f with
  | left x r =>
      simp only [Frame.sibling] at hf hle
      rw [Frame.fill, fixNode_node, ht.storedHeight, hf.storedHeight, if_neg (by omega)]
      split
      · rcases fixR_cases (v := x.val) (l := t) hf with ⟨_, heq⟩ | ⟨y, a, b, _, _, heq⟩ |
          ⟨y, z, a, b, c, _, _, heq⟩
        · exact ⟨[.left _ r], heq⟩
        · exact ⟨[.left _ a, .left _ b], heq⟩
        · exact ⟨[.left _ a, .left _ (build y.val b c)], heq⟩
      · exact ⟨[.left _ r], rfl⟩
  | right l x =>
      simp only [Frame.sibling] at hf hle
      rw [Frame.fill, fixNode_node, ht.storedHeight, hf.storedHeight]
      split
      · rcases fixL_cases (v := x.val) (r := t) hf with ⟨_, heq⟩ | ⟨y, a, b, _, _, heq⟩ |
          ⟨y, a, z, b, c, _, _, heq⟩
        · exact ⟨[.right l _], heq⟩
        · exact ⟨[.right b _, .right a _], heq⟩
        · exact ⟨[.right c _, .right (build y.val a b) _], heq⟩
      · rw [if_neg (by omega)]
        exact ⟨[.right l _], rfl⟩

/-- A node does not get taller when its subtree does not. -/
theorem fill_height_le {f : Frame (Note α)} {t t₀ : BinaryTree (Note α)} (ht : IsAvl t)
    (hf : IsAvl f.sibling) (hle : t.height ≤ t₀.height) (hge : t₀.height ≤ t.height + 1)
    (hhf : t₀.height ≤ f.sibling.height + 1) (hfh : f.sibling.height ≤ t₀.height + 1) :
    (fixNode (f.fill t)).height ≤ (f.fill t₀).height := by
  rw [f.height_fill]
  cases f with
  | left x r =>
      simp only [Frame.sibling] at *
      have := (fixNode_balanced (x := x) ht hf (by omega) (by omega)).2.1
      rw [Frame.fill]
      omega
  | right l x =>
      simp only [Frame.sibling] at *
      have := (fixNode_balanced (x := x) hf ht (by omega) (by omega)).2.1
      rw [Frame.fill]
      omega

/-- After a change that made its place, where `t₀` was, at most one shorter,
    the repair of the nodes above keeps the repaired place whole, and makes
    the tree at most one shorter. -/
theorem fixUp_keeps {k : List (Frame (Note α))} {t t₀ : BinaryTree (Note α)}
    (hk : FitsAt k t₀.height) (ht : IsAvl (fixNode t)) (hle : (fixNode t).height ≤ t₀.height)
    (hge : t₀.height ≤ (fixNode t).height + 1) :
    (∃ k', fixUp k t = plug k' (fixNode t)) ∧ (fixUp k t).height ≤ (plug k t₀).height ∧
      (plug k t₀).height ≤ (fixUp k t).height + 1 := by
  induction k generalizing t t₀ with
  | nil => exact ⟨⟨[], rfl⟩, hle, hge⟩
  | cons f k ih =>
      rcases hk with ⟨hf, hhf, hfh, hk⟩
      have hnext := fill_isAvl ht hf (by omega) hge hhf hfh
      have hup := fill_height_le ht hf hle hge hhf hfh
      rw [← f.height_fill] at hk hnext
      rcases ih hk hnext.1 hup hnext.2.2 with ⟨⟨k', heq⟩, hheight⟩
      rcases fixNode_fill_keeps ht.exact hf.exact (by omega) with ⟨k₂, heq₂⟩
      exact ⟨⟨k₂ ++ k', by rw [fixUp, heq, heq₂, plug_append]⟩, hheight⟩

/-- A removal makes the tree at most one shorter. -/
theorem detach_height {k : List (Frame (Note α))} {t u : BinaryTree (Note α)}
    (hk : FitsAt k u.height) (ht : IsAvl t) (hle : t.height ≤ u.height)
    (hge : u.height ≤ t.height + 1) :
    (detach k t).height ≤ (plug k u).height ∧ (plug k u).height ≤ (detach k t).height + 1 := by
  cases k with
  | nil => exact ⟨hle, hge⟩
  | cons f k =>
      rcases hk with ⟨hf, hhf, hfh, hk⟩
      have hnext := fill_isAvl ht hf (by omega) hge hhf hfh
      have hup := fill_height_le ht hf hle hge hhf hfh
      rw [← f.height_fill] at hk hnext
      exact (fixUp_keeps hk hnext.1 hup hnext.2.2).2

theorem detach_append (k k' : List (Frame (Note α))) (f : Frame (Note α))
    (t : BinaryTree (Note α)) :
    detach (k ++ f :: k') t = fixUp k' (f.fill (detach k t)) := by
  cases k with
  | nil => rfl
  | cons f' k => exact fixUp_append k k' f (f'.fill t)

/-- A subtree may be replaced by another one of its height and size. -/
theorem isAvl_plug_congr {k : List (Frame (Note α))} {t u : BinaryTree (Note α)}
    (h : IsAvl (plug k t)) (hu : IsAvl u) (hheight : u.height = t.height)
    (hsize : u.numNodes = t.numNodes) : IsAvl (plug k u) := by
  -- the notes above see the subtree only through its height and its size
  induction k generalizing t u with
  | nil => exact hu
  | cons f k ih =>
      refine ih h ?_ ?_ ?_
      · rcases (fitsAt_of_isAvl (k := k) (t := f.fill t) h).1 with ⟨hexact, hbal⟩
        cases f with
        | left x r =>
            refine ⟨⟨?_, ?_, hu.exact, hexact.right⟩, ?_, ?_, hu.balanced, hbal.2.2.2⟩
            · rw [hheight]; exact hexact.1
            · rw [hsize]; exact hexact.2.1
            · rw [hheight]; exact hbal.1
            · rw [hheight]; exact hbal.2.1
        | right l x =>
            refine ⟨⟨?_, ?_, hexact.left, hu.exact⟩, ?_, ?_, hbal.2.2.1, hu.balanced⟩
            · rw [hheight]; exact hexact.1
            · rw [hsize]; exact hexact.2.1
            · rw [hheight]; exact hbal.1
            · rw [hheight]; exact hbal.2.1
      · rw [f.height_fill, f.height_fill, hheight]
      · rw [f.numNodes_fill, f.numNodes_fill, hsize]

end Lib
