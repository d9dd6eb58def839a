import RedisServer.Core.Avl
import RedisServer.Lib.AvlTree
import Mathlib.Data.List.Nodup

/-!
# Trees in Memory

Which tree the pointers in a store make up. `TreeAt` says that the nodes of a
tree are laid out in the store, with every link and every stored number as in
the tree, below a given parent. `PathAt` says the same of the nodes above a
hole. No node is laid out twice, which the nodes' addresses say by being
distinct, so a write to one node leaves all others as they are.

## Main definitions

* `AvlTree`: A tree of addresses, with the stored heights and sizes.
* `ptr`, `parentOf`: The pointer to a tree, and the parent pointer of a hole.
* `TreeAt`, `PathAt`: The layout of a tree, and of the nodes above a hole.
* `Changes`: What a computation may have written to.

## Theorems

* `treeAt_plug`: A tree put back together.
* `avlUpdate_spec`: The stored numbers of one node are recomputed.
* `setParent_spec`, `setChild_spec`: The writes to a link.
-/

namespace RedisServer

open Lib BinaryTree

/-- A tree of addresses, with the stored heights and sizes. -/
abbrev AvlTree := BinaryTree (Note Nat)

/-- The pointer to a tree. -/
def ptr : AvlTree → Option Nat
  | nil => none
  | node x _ _ => some x.val

@[simp] theorem ptr_nil : ptr nil = none := rfl

@[simp] theorem ptr_node (x : Note Nat) (l r : AvlTree) : ptr (node x l r) = some x.val := rfl

/-- The parent pointer of what is at a hole. -/
def parentOf : List (Frame (Note Nat)) → Option Nat
  | [] => none
  | f :: _ => some f.val.val

/-- The node above a hole as it is in memory, where `hole` points to what is
    at the hole. -/
def frameNode (parent hole : Option Nat) : Frame (Note Nat) → AVLNode
  | .left x r => ⟨parent, hole, ptr r, x.height, x.size⟩
  | .right l x => ⟨parent, ptr l, hole, x.height, x.size⟩

/-- A tree is laid out in memory below `parent`. -/
def TreeAt (σ : Store) : Option Nat → AvlTree → Prop
  | _, nil => True
  | parent, node x l r =>
    σ.cell x.val = some ⟨parent, ptr l, ptr r, x.height, x.size⟩ ∧
      TreeAt σ (some x.val) l ∧ TreeAt σ (some x.val) r

/-- The nodes above a hole are laid out in memory, and the hole's pointer is
    `hole`. -/
def PathAt (σ : Store) : List (Frame (Note Nat)) → Option Nat → Prop
  | [], _ => True
  | f :: k, hole =>
    σ.cell f.val.val = some (frameNode (parentOf k) hole f) ∧
      TreeAt σ (some f.val.val) f.sibling ∧ PathAt σ k (some f.val.val)

/-- A computation wrote to no node but those at the given addresses. -/
structure Changes (σ σ' : Store) (l : List Nat) : Prop where
  cell : ∀ a, a ∉ l → σ'.cell a = σ.cell a
  next : σ'.next = σ.next

variable {σ σ' σ'' : Store} {l l' : List Nat}

namespace Changes

theorem refl (σ : Store) (l : List Nat) : Changes σ σ l := ⟨fun _ _ => rfl, rfl⟩

theorem mono (h : Changes σ σ' l) (hsub : l ⊆ l') : Changes σ σ' l' :=
  ⟨fun a ha => h.cell a fun hmem => ha (hsub hmem), h.next⟩

theorem trans (h : Changes σ σ' l) (h' : Changes σ' σ'' l) : Changes σ σ'' l :=
  ⟨fun a ha => (h'.cell a ha).trans (h.cell a ha), h'.next.trans h.next⟩

theorem put (σ : Store) {a : Nat} (n : AVLNode) (ha : a ∈ l) : Changes σ (σ.put a n) l where
  cell := by
    intro b hb
    exact Function.update_of_ne (fun h => hb (by rw [h]; exact ha)) _ _
  next := rfl

end Changes

/-! ## Single accesses -/

@[simp] theorem put_cell_self (σ : Store) (a : Nat) (n : AVLNode) :
    (σ.put a n).cell a = some n := Function.update_self _ _ _

theorem put_cell_other (σ : Store) {a b : Nat} (h : b ≠ a) (n : AVLNode) :
    (σ.put a n).cell b = σ.cell b := Function.update_of_ne h _ _

@[simp] theorem put_next (σ : Store) (a : Nat) (n : AVLNode) : (σ.put a n).next = σ.next := rfl

theorem load_eq {a : Nat} {n : AVLNode} (h : σ.cell a = some n) : σ.load (some a) = .ok n := by
  simp only [Store.load, h]

theorem modify_eq_put {a : Nat} {n : AVLNode} (h : σ.cell a = some n) (f : AVLNode → AVLNode) :
    σ.modify (some a) f = .ok (σ.put a (f n)) := by
  simp only [Store.modify, h]

/-! ## Layouts -/

theorem mem_vals_of_ptr {t : AvlTree} {a : Nat} (h : ptr t = some a) : a ∈ vals t := by
  cases t with
  | nil => exact absurd h (by simp only [ptr, reduceCtorEq, not_false_eq_true])
  | node x l r =>
      rw [ptr, Option.some.injEq] at h
      rw [vals_node, List.mem_append, List.mem_cons]
      exact Or.inr (Or.inl h.symm)

theorem ptr_eq_none {t : AvlTree} : ptr t = none ↔ t = nil := by
  cases t with
  | nil => exact ⟨fun _ => rfl, fun _ => rfl⟩
  | node x l r => simp only [ptr, reduceCtorEq]

/-- A layout does not depend on other nodes. -/
theorem TreeAt.congr {parent : Option Nat} {t : AvlTree} (h : TreeAt σ parent t)
    (hcell : ∀ a ∈ vals t, σ'.cell a = σ.cell a) : TreeAt σ' parent t := by
  induction t generalizing parent with
  | nil => exact True.intro
  | node x l r ihl ihr =>
      rcases h with ⟨hx, hl, hr⟩
      rw [vals_node] at hcell
      refine ⟨?_, ihl hl fun a ha => ?_, ihr hr fun a ha => ?_⟩
      · rw [hcell x.val (List.mem_append_right _ List.mem_cons_self), hx]
      · exact hcell a (List.mem_append_left _ ha)
      · exact hcell a (List.mem_append_right _ (List.mem_cons_of_mem _ ha))

theorem TreeAt.changes {parent : Option Nat} {t : AvlTree} (h : TreeAt σ parent t)
    (hch : Changes σ σ' l) (hdis : ∀ a ∈ vals t, a ∉ l) : TreeAt σ' parent t :=
  h.congr fun a ha => hch.cell a (hdis a ha)

/-- Every address of a tree holds a node. -/
theorem TreeAt.allocated {parent : Option Nat} {t : AvlTree} (h : TreeAt σ parent t) {a : Nat}
    (ha : a ∈ vals t) : ∃ n, σ.cell a = some n := by
  induction t generalizing parent with
  | nil => exact absurd ha List.not_mem_nil
  | node x l r ihl ihr =>
      rw [vals_node, List.mem_append, List.mem_cons] at ha
      rcases ha with ha | rfl | ha
      · exact ihl h.2.1 ha
      · exact ⟨_, h.1⟩
      · exact ihr h.2.2 ha

/-- The addresses of the nodes above a hole and beside it. -/
def pathVals (k : List (Frame (Note Nat))) : List Nat :=
  (before k).map Note.val ++ (after k).map Note.val

theorem vals_plug_perm (k : List (Frame (Note Nat))) (t : AvlTree) :
    (vals (plug k t)).Perm (vals t ++ pathVals k) := by
  rw [vals_plug, pathVals, ← List.append_assoc]
  exact List.perm_append_comm.append_right _

theorem pathVals_cons_perm (f : Frame (Note Nat)) (k : List (Frame (Note Nat))) :
    (pathVals (f :: k)).Perm (f.val.val :: vals f.sibling ++ pathVals k) := by
  rw [pathVals, pathVals, before, after, List.map_append, List.map_append]
  have hf : (f.before.map Note.val ++ f.after.map Note.val).Perm (f.val.val :: vals f.sibling) := by
    cases f with
    | left x r => exact List.Perm.refl _
    | right l x =>
        simp only [Frame.before, Frame.after, Frame.val, Frame.sibling, List.map_append,
          List.map_cons, List.map_nil, List.append_nil]
        exact List.perm_append_singleton _ _
  have hmid : ((before k).map Note.val ++ f.before.map Note.val ++
      (f.after.map Note.val ++ (after k).map Note.val)).Perm
      (f.before.map Note.val ++ f.after.map Note.val ++
        ((before k).map Note.val ++ (after k).map Note.val)) := by
    simp only [← List.append_assoc]
    refine List.Perm.append_right _ ?_
    rw [List.append_assoc]
    exact List.perm_append_comm
  exact hmid.trans (hf.append_right _)

theorem parent_mem_pathVals (f : Frame (Note Nat)) (k : List (Frame (Note Nat))) :
    f.val.val ∈ pathVals (f :: k) := (pathVals_cons_perm f k).mem_iff.mpr List.mem_cons_self

/-- The sibling of a node holds other nodes. -/
theorem not_mem_sibling {f : Frame (Note Nat)} {k : List (Frame (Note Nat))} {x : Note Nat}
    {l r : AvlTree} (hnd : (vals (node x l r) ++ pathVals (f :: k)).Nodup) :
    x.val ∉ vals f.sibling := by
  intro hmem
  refine (List.nodup_append.mp hnd).2.2 x.val (mem_vals_of_ptr rfl) x.val ?_ rfl
  exact (pathVals_cons_perm f k).mem_iff.mpr
    (List.mem_append_left _ (List.mem_cons_of_mem _ hmem))

theorem PathAt.congr {k : List (Frame (Note Nat))} {hole : Option Nat}
    (h : PathAt σ k hole) (hcell : ∀ a ∈ pathVals k, σ'.cell a = σ.cell a) :
    PathAt σ' k hole := by
  induction k generalizing hole with
  | nil => exact True.intro
  | cons f k ih =>
      rcases h with ⟨hf, hsib, hk⟩
      have hcell' : ∀ a ∈ f.val.val :: vals f.sibling ++ pathVals k, σ'.cell a = σ.cell a :=
        fun a ha => hcell a ((pathVals_cons_perm f k).mem_iff.mpr ha)
      refine ⟨?_, hsib.congr fun a ha => ?_, ih hk fun a ha => ?_⟩
      · rw [hcell' f.val.val List.mem_cons_self, hf]
      · exact hcell' a (List.mem_append_left _ (List.mem_cons_of_mem _ ha))
      · exact hcell' a (List.mem_append_right _ ha)

theorem PathAt.changes {k : List (Frame (Note Nat))} {hole : Option Nat}
    (h : PathAt σ k hole) (hch : Changes σ σ' l) (hdis : ∀ a ∈ pathVals k, a ∉ l) :
    PathAt σ' k hole :=
  h.congr fun a ha => hch.cell a (hdis a ha)

theorem ptr_fill (f : Frame (Note Nat)) (t : AvlTree) : ptr (f.fill t) = some f.val.val := by
  cases f with
  | left x r => rfl
  | right l x => rfl

theorem treeAt_fill {parent : Option Nat} {f : Frame (Note Nat)} {t : AvlTree} :
    TreeAt σ parent (f.fill t) ↔ σ.cell f.val.val = some (frameNode parent (ptr t) f) ∧
      TreeAt σ (some f.val.val) t ∧ TreeAt σ (some f.val.val) f.sibling := by
  cases f with
  | left x r => exact Iff.rfl
  | right l x => exact and_congr_right fun _ => and_comm

/-- A tree put back together is laid out when its parts are. -/
theorem treeAt_plug {k : List (Frame (Note Nat))} {t : AvlTree} :
    TreeAt σ none (plug k t) ↔ TreeAt σ (parentOf k) t ∧ PathAt σ k (ptr t) := by
  induction k generalizing t with
  | nil => exact ⟨fun h => ⟨h, True.intro⟩, fun h => h.1⟩
  | cons f k ih =>
      rw [plug_cons, ih, treeAt_fill, ptr_fill]
      constructor
      · rintro ⟨⟨hf, ht, hsib⟩, hk⟩
        exact ⟨ht, hf, hsib, hk⟩
      · rintro ⟨ht, hf, hsib, hk⟩
        exact ⟨⟨hf, ht, hsib⟩, hk⟩

/-! ## The stored numbers -/

theorem avlHeight_eq {parent : Option Nat} {t : AvlTree} (h : TreeAt σ parent t) :
    avlHeight σ (ptr t) = .ok (storedHeight t) := by
  cases t with
  | nil => rfl
  | node x l r => simp only [ptr, avlHeight, load_eq h.1, ok_bind, storedHeight]

theorem avlCnt_eq {parent : Option Nat} {t : AvlTree} (h : TreeAt σ parent t) :
    avlCnt σ (ptr t) = .ok (storedSize t) := by
  cases t with
  | nil => rfl
  | node x l r => simp only [ptr, avlCnt, load_eq h.1, ok_bind, storedSize]

/-- The node that stores the numbers recomputed from its subtrees. -/
def builtNode (parent : Option Nat) (l r : AvlTree) : AVLNode :=
  ⟨parent, ptr l, ptr r, 1 + max (storedHeight l) (storedHeight r),
    (1 + storedSize l + storedSize r) % 2 ^ 32⟩

/-- The stored numbers of one node are recomputed. -/
theorem avlUpdate_spec {a : Nat} {parent q q' : Option Nat} {l r : AvlTree} {n : AVLNode}
    (hn : σ.cell a = some n) (hparent : n.parent = parent) (hleft : n.left = ptr l)
    (hright : n.right = ptr r) (hl : TreeAt σ q l) (hr : TreeAt σ q' r) :
    avlUpdate σ (some a) = .ok (σ.put a (builtNode parent l r)) := by
  simp only [avlUpdate, load_eq hn, ok_bind, hleft, hright, avlHeight_eq hl, avlHeight_eq hr,
    avlCnt_eq hl, avlCnt_eq hr, modify_eq_put hn]
  rw [builtNode, ← hparent]

/-! ## Writes to a link -/

/-- `if (p) p->parent = parent` moves the tree below another parent. -/
theorem setParent_spec {t : AvlTree} {q : Option Nat} (ht : TreeAt σ q t) (hnd : (vals t).Nodup)
    (parent : Option Nat) :
    ∃ σ', setParent σ (ptr t) parent = .ok σ' ∧ TreeAt σ' parent t ∧ Changes σ σ' (vals t) := by
  cases t with
  | nil => exact ⟨σ, rfl, True.intro, Changes.refl σ _⟩
  | node x l r =>
      rcases ht with ⟨hx, hl, hr⟩
      have hch := Changes.put (l := vals (node x l r)) σ
        ⟨parent, ptr l, ptr r, x.height, x.size⟩
        (show x.val ∈ _ from mem_vals_of_ptr (t := node x l r) rfl)
      rw [vals_node, List.nodup_middle, List.nodup_cons, List.mem_append, not_or] at hnd
      refine ⟨_, modify_eq_put hx _, ⟨put_cell_self _ _ _, ?_, ?_⟩, hch⟩
      · refine hl.congr fun a ha => put_cell_other σ ?_ _
        rintro rfl
        exact hnd.1.1 ha
      · refine hr.congr fun a ha => put_cell_other σ ?_ _
        rintro rfl
        exact hnd.1.2 ha

/-- The hole of a frame is its left child. -/
def onLeft : Frame (Note Nat) → Bool
  | .left _ _ => true
  | .right _ _ => false

theorem sideOf_eq {f : Frame (Note Nat)} {k : List (Frame (Note Nat))} {a : Nat}
    (hk : PathAt σ (f :: k) (some a)) (ha : a ∉ vals f.sibling) :
    sideOf σ (parentOf (f :: k)) (some a) = .ok (onLeft f) := by
  simp only [parentOf, sideOf, load_eq hk.1, ok_bind]
  cases f with
  | left x r => simp only [frameNode, decide_true, onLeft]
  | right l x =>
      have hne : ptr l ≠ some a := fun h => ha (mem_vals_of_ptr h)
      simp only [frameNode, hne, decide_false, onLeft]

/-- The write through `from` puts another tree at the hole. -/
theorem setChild_spec {f : Frame (Note Nat)} {k : List (Frame (Note Nat))} {hole : Option Nat}
    (hk : PathAt σ (f :: k) hole) (hnd : (pathVals (f :: k)).Nodup) (child : Option Nat) :
    ∃ σ', setChild σ (parentOf (f :: k)) (onLeft f) child = .ok σ' ∧ PathAt σ' (f :: k) child ∧
      Changes σ σ' [f.val.val] := by
  rcases hk with ⟨hf, hsib, hk⟩
  have hput : setChild σ (parentOf (f :: k)) (onLeft f) child =
      .ok (σ.put f.val.val (frameNode (parentOf k) child f)) := by
    cases f with
    | left x r => exact modify_eq_put hf _
    | right l x => exact modify_eq_put hf _
  rw [(pathVals_cons_perm f k).nodup_iff, List.cons_append, List.nodup_cons, List.mem_append,
    not_or] at hnd
  have hch := Changes.put (l := [f.val.val]) σ (frameNode (parentOf k) child f)
    (List.mem_singleton.mpr rfl)
  refine ⟨_, hput, ⟨put_cell_self _ _ _, hsib.changes hch fun a ha hmem => ?_,
    hk.changes hch fun a ha hmem => ?_⟩, hch⟩
  · rw [List.mem_singleton.mp hmem] at ha
    exact hnd.1.1 ha
  · rw [List.mem_singleton.mp hmem] at ha
    exact hnd.1.2 ha

end RedisServer
