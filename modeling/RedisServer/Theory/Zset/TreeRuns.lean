import RedisServer.Core.Events
import RedisServer.Lib.Run
import RedisServer.Theory.Avl.Offset
import RedisServer.Theory.Zset.TwoIndexes

/-!
# Runs on a Tree

Insertions into the tree of a sorted set and removals from it, in any order,
and whether a walk by ranks ends in the trees they leave.

It ends as long as every removal leaves the stored sizes right. A removal of a
node with two children does not, as a rule. A size that is too small then
stands below one that was computed before, so the walk is sent down by the
one and back up by the other, forever.

## Main definitions

* `TreeEvent`, `treeStep`: Insertions of new and of detached nodes, and
  removals.
* `Present`: The nodes are where the event needs them.
* `KeepsNumbers`: The removal leaves the stored numbers right.
* `OffsetEnds`: A walk ends.

## Theorems

* `treeStep_inv`: One event.
* `offset_ends_of_run`: Every run whose removals keep the numbers right.
* `offset_endless`: A run with one removal, after which a walk does not end.
-/

namespace RedisServer

open Lib BinaryTree ZSet

/-- A change of the tree: a new node is inserted, a node that was detached is
    inserted again with another score, or a node is detached. -/
inductive TreeEvent
  | create (name : Bytes) (score : Double)
  | insert (a : Nat) (score : Double)
  | del (a : Nat)
  deriving DecidableEq, Repr

/-- One change. The root becomes what the call returned. -/
def treeStep (R : Runtime) (z : ZSet) : TreeEvent → Result (ZSet × Unit)
  | .create name score => do
    let (z, a) := znodeNew R z name score
    let z ← treeInsert z a
    .ok (z, ())
  | .insert a score => do
    let n ← z.znode a
    let z := z.setZnode a { n with score := score }
    let store ← z.store.modify (some a) fun _ => avlInit
    let z ← treeInsert { z with store := store } a
    .ok (z, ())
  | .del a => do
    let (store, root) ← avlDel z.store (some a)
    .ok ({ z with store := store, root := root }, ())

/-- A node that is inserted again exists and is not in the tree, and a node
    that is detached is. -/
def Present (z : ZSet) : TreeEvent → Prop
  | .create _ _ => True
  | .insert a _ => (∃ d, z.data a = some d) ∧ ¬ Reaches z.store a z.root
  | .del a => Reaches z.store a z.root

/-- The node that is detached has at most one child, or the numbers its
    successor brings along are right in its place. -/
def KeepsNumbers (z : ZSet) : TreeEvent → Prop
  | .del a => ∀ k x l r, z.root = ptr (plug k (node x l r)) →
      Rooted z.store (plug k (node x l r)) → x.val = a →
      l = nil ∨ r = nil ∨ StaleFits l r
  | _ => True

/-- The loop of `avl_offset` ends. -/
def OffsetEnds (σ : Store) (node : Nat) (offset : Int) : Prop :=
  ∃ fuel r, avlOffsetLoop fuel σ (some node) 0 offset = .ok r

/-- The tree is valid, and every node that exists, in the tree or not, is
    allocated. -/
structure TreeInv (z : ZSet) (t : AvlTree) : Prop where
  tree : z.TreeOf t
  avl : IsAvl t
  alloc : ∀ a d, z.data a = some d → (∃ n, z.store.cell a = some n) ∧ a < z.store.next

variable {R : Runtime} {z z' : ZSet} {t t' : AvlTree}

theorem treeInv_init : TreeInv {} nil where
  tree := (sound_empty noDoubles).treeOf
  avl := ⟨True.intro, True.intro⟩
  alloc := nofun

/-! ## Insertions -/

-- An insertion attaches a leaf where the walk ends, and a leaf anywhere keeps
-- a tree valid.
theorem treeInsert_inv (h : TreeInv z t) {a : Nat} {d : ZNode} (hd : z.data a = some d)
    (hcell : z.store.cell a = some avlInit) (hout : a ∉ vals t) :
    ∃ z' t', treeInsert z a = .ok z' ∧ TreeInv z' t' := by
  rcases treeInsert_spec h.tree hd hcell hout (h.alloc a d hd).2 with ⟨store, hrun, hroot, hch⟩
  have hperm := vals_treeInsert_perm (goesLeft z d) a t
  have hplace : IsAvl (plug (descend (goesLeft z d) t []) nil) := by
    rw [plug_descend]
    exact h.avl
  refine ⟨_, _, hrun, ⟨rfl, hroot, fun b hb => ?_⟩, fixUp_leaf_isAvl hplace ⟨a, 1, 1⟩,
    fun b e hb => ?_⟩
  · rw [hperm.mem_iff, List.mem_cons] at hb
    rcases hb with rfl | hb
    · exact ⟨d, hd⟩
    · exact h.tree.data b hb
  · rcases h.alloc b e hb with ⟨hcell', hlt⟩
    refine ⟨?_, by rw [hch.next]; exact hlt⟩
    by_cases hin : b ∈ a :: vals t
    · exact hroot.tree.allocated (hperm.mem_iff.mpr hin)
    · rw [hch.cell b hin]
      exact hcell'

/-- The tree stays valid when a node outside it is allocated or written. -/
theorem TreeInv.outside (h : TreeInv z t) {a : Nat} {d : ZNode} (hout : a ∉ vals t)
    (hroot : z'.root = z.root) (hstore : ∀ b, b ≠ a → z'.store.cell b = z.store.cell b)
    (hcell : ∃ n, z'.store.cell a = some n) (hlt : a < z'.store.next)
    (hnext : z.store.next ≤ z'.store.next)
    (hdata : z'.data = Function.update z.data a (some d)) : TreeInv z' t := by
  have hne : ∀ b ∈ vals t, b ≠ a := by
    intro b hb hba
    exact hout (hba ▸ hb)
  refine ⟨⟨hroot.trans h.tree.root, ⟨h.tree.tree.tree.congr fun b hb => hstore b (hne b hb),
    h.tree.tree.nodup, fun b hb => Nat.lt_of_lt_of_le (h.tree.tree.lt b hb) hnext⟩,
    fun b hb => ?_⟩, h.avl, fun b e hb => ?_⟩
  · rw [hdata, Function.update_of_ne (hne b hb)]
    exact h.tree.data b hb
  · by_cases hba : b = a
    · rw [hba]
      exact ⟨hcell, hlt⟩
    · rw [hdata, Function.update_of_ne hba] at hb
      rcases h.alloc b e hb with ⟨hcell', hlt'⟩
      rw [hstore b hba]
      exact ⟨hcell', Nat.lt_of_lt_of_le hlt' hnext⟩

theorem create_inv (h : TreeInv z t) (name : Bytes) (score : Double) :
    ∃ z' t', treeStep R z (.create name score) = .ok (z', ()) ∧ TreeInv z' t' := by
  have hout : z.store.next ∉ vals t := fun hmem => Nat.lt_irrefl _ (h.tree.tree.lt _ hmem)
  have hnew : TreeInv (znodeNew R z name score).1 t :=
    h.outside (a := z.store.next) (d := ⟨R.strHash name, score, name⟩) hout rfl
      (fun b hb => Function.update_of_ne hb _ _) ⟨avlInit, Function.update_self _ _ _⟩
      (Nat.lt_succ_self _) (Nat.le_succ _) rfl
  have hd : (znodeNew R z name score).1.data z.store.next =
      some ⟨R.strHash name, score, name⟩ := Function.update_self _ _ _
  have hcell : (znodeNew R z name score).1.store.cell z.store.next = some avlInit :=
    Function.update_self _ _ _
  rcases treeInsert_inv hnew hd hcell hout with ⟨z', t', hrun, hinv⟩
  refine ⟨z', t', ?_, hinv⟩
  have hnode : (znodeNew R z name score).2 = z.store.next := rfl
  simp only [treeStep, hnode, hrun, ok_bind]

theorem insert_inv (h : TreeInv z t) {a : Nat} (score : Double)
    (hp : Present z (.insert a score)) :
    ∃ z' t', treeStep R z (.insert a score) = .ok (z', ()) ∧ TreeInv z' t' := by
  rcases hp with ⟨⟨d, hd⟩, hreach⟩
  rcases h.alloc a d hd with ⟨⟨n, hn⟩, hlt⟩
  have hout : a ∉ vals t := by
    rw [h.tree.root, reaches_iff h.tree.tree.tree] at hreach
    exact hreach
  have hnew : TreeInv
      { z.setZnode a { d with score := score } with store := z.store.put a avlInit } t :=
    h.outside (a := a) (d := { d with score := score }) hout rfl
      (fun b hb => put_cell_other z.store hb _) ⟨avlInit, put_cell_self z.store a avlInit⟩ hlt
      (Nat.le_refl _) rfl
  rcases treeInsert_inv hnew (Function.update_self a _ _) (put_cell_self z.store a avlInit)
    hout with ⟨z', t', hrun, hinv⟩
  refine ⟨z', t', ?_, hinv⟩
  have hmod : (z.setZnode a { d with score := score }).store.modify (some a)
      (fun _ => avlInit) = .ok (z.store.put a avlInit) := modify_eq_put hn _
  simp only [treeStep, znode_eq hd, ok_bind, hmod, hrun]

/-! ## Removals -/

/-- A removal that keeps the numbers leaves a valid tree. -/
theorem avlDel_keeps (h : z.TreeOf t) (havl : IsAvl t) {a : Nat} (ha : a ∈ vals t)
    (hkeeps : KeepsNumbers z (.del a)) {store : Store}
    (hrun : avlDel z.store (some a) = .ok (store, ptr t')) (hroot : Rooted store t') : IsAvl t' := by
  rcases List.mem_map.mp ha with ⟨x, hx, hxval⟩
  rcases exists_plug_of_mem hx with ⟨k, l, r, hplug⟩
  have htree := h.tree
  have hptr := h.root
  rw [hplug] at htree havl hptr
  rw [← hxval] at hrun
  exact (avlDel_isAvl_iff htree havl hrun hroot).mpr (hkeeps k x l r hptr htree hxval)

theorem del_inv (h : TreeInv z t) {a : Nat} (hp : Present z (.del a))
    (hkeeps : KeepsNumbers z (.del a)) :
    ∃ z' t', treeStep R z (.del a) = .ok (z', ()) ∧ TreeInv z' t' := by
  have hmem : a ∈ vals t := by
    have hreach : Reaches z.store a z.root := hp
    rw [h.tree.root, reaches_iff h.tree.tree.tree] at hreach
    exact hreach
  rcases avlDel_spec h.tree.tree hmem with
    ⟨store, t', hrun, hroot, hch, hnode, xs, ys, hsplit, hrest⟩
  -- the tree that is left has no node that was not there
  have hsub : ∀ b ∈ vals t', b ∈ vals t := by
    intro b hb
    rw [hrest, List.mem_append] at hb
    rw [hsplit, List.mem_append, List.mem_cons]
    exact hb.imp_right Or.inr
  have havl : IsAvl t' := avlDel_keeps h.tree h.avl hmem hkeeps hrun hroot
  refine ⟨{ z with store := store, root := ptr t' }, t', ?_, ⟨rfl, hroot,
    fun b hb => h.tree.data b (hsub b hb)⟩, havl, fun b e hb => ?_⟩
  · simp only [treeStep, hrun, ok_bind]
  rcases h.alloc b e hb with ⟨hcell, hlt⟩
  refine ⟨?_, by rw [hch.next]; exact hlt⟩
  by_cases hin : b ∈ vals t
  · -- The node that was detached is not freed.
    by_cases hba : b = a
    · rw [hba]
      exact hnode
    · refine hroot.tree.allocated ?_
      rw [hsplit, List.mem_append, List.mem_cons] at hin
      rw [hrest, List.mem_append]
      exact hin.imp_right fun h => h.resolve_left hba
  · rw [hch.cell b hin]
    exact hcell

/-! ## Runs -/

/-- One event. -/
theorem treeStep_inv (h : TreeInv z t) {e : TreeEvent} (hp : Present z e) (hkeeps : KeepsNumbers z e) :
    ∃ z' t', treeStep R z e = .ok (z', ()) ∧ TreeInv z' t' := by
  cases e with
  | create name score => exact create_inv h name score
  | insert a score => exact insert_inv h score hp
  | del a => exact del_inv h hp hkeeps

/-- A node that is reached has a place in the tree. -/
theorem TreeInv.place (h : TreeInv z t) {a : Nat} (ha : Reaches z.store a z.root) :
    ∃ k x l r, t = plug k (node x l r) ∧ x.val = a := by
  rw [h.tree.root, reaches_iff h.tree.tree.tree] at ha
  rcases List.mem_map.mp ha with ⟨x, hx, rfl⟩
  rcases exists_plug_of_mem hx with ⟨k, l, r, rfl⟩
  exact ⟨k, x, l, r, rfl, rfl⟩

/-- The sizes of the tree may have wrapped around, and the walk still ends. -/
theorem TreeInv.offset_ends (h : TreeInv z t) {a : Nat} (ha : Reaches z.store a z.root)
    (offset : Int) : OffsetEnds z.store a offset := by
  rcases h.place ha with ⟨k, x, l, r, rfl, rfl⟩
  rcases h.tree.tree.place with ⟨htree, hpath⟩
  rcases avlOffset_ends 0 offset
    (by simp only [ne_eq, reduceCtorEq, not_false_eq_true]) htree hpath
    (sized_of_exact h.avl.exact) h.tree.tree.nodup (Nat.le_refl _) with ⟨found, hrun⟩
  exact ⟨_, found, hrun⟩

/-- Every run of insertions and removals from the empty tree in which the
    removals keep the stored numbers right leaves a tree in which every walk
    by ranks ends. -/
theorem offset_ends_of_run (R : Runtime) (es : List TreeEvent)
    (hes : Guarded (treeStep R) (fun z e => Present z e ∧ KeepsNumbers z e) {} es) :
    ∃ z us, run (treeStep R) {} es = .ok (z, us) ∧
      ∀ a, Reaches z.store a z.root → ∀ offset, OffsetEnds z.store a offset := by
  have hstep : ∀ z e, (∃ t, TreeInv z t) → Present z e ∧ KeepsNumbers z e →
      ∃ z' r, treeStep R z e = .ok (z', r) ∧ ∃ t, TreeInv z' t := by
    intro z e h he
    rcases h with ⟨t, h⟩
    rcases treeStep_inv (R := R) h he.1 he.2 with ⟨z', t', hrun, h'⟩
    exact ⟨z', (), hrun, t', h'⟩
  rcases run_total hstep ⟨nil, treeInv_init⟩ hes with ⟨z, us, hrun, t, h⟩
  exact ⟨z, us, hrun, fun a ha offset => h.offset_ends ha offset⟩

/-- A test for runs: a removal finds a root without children. -/
def delLeaf (z : ZSet) : TreeEvent → Bool
  | .create _ _ => true
  | .insert _ _ => false
  | .del a => decide (z.root = some a) &&
      decide ((z.store.cell a).map (fun n => n.left) = some none)

theorem fits_of_delLeaf {e : TreeEvent} (h : delLeaf z e = true) : Present z e ∧ KeepsNumbers z e := by
  cases e with
  | create name score => exact ⟨True.intro, True.intro⟩
  | insert a score => exact absurd h Bool.false_ne_true
  | del a =>
      rw [delLeaf, Bool.and_eq_true, decide_eq_true_eq, decide_eq_true_eq,
        Option.map_eq_some_iff] at h
      rcases h with ⟨hroot, n, hn, hleft⟩
      refine ⟨?_, fun k x l r _ htree hx => ?_⟩
      · rw [Present, hroot]
        exact Reaches.here
      · have hcell := htree.place.1.1
        rw [hx, hn, Option.some.injEq] at hcell
        rw [hcell] at hleft
        exact Or.inl (ptr_eq_none.mp hleft)

theorem offset_ends_of_run_two :
    Guarded (treeStep noDoubles) (fun z e => Present z e ∧ KeepsNumbers z e) {}
        [.create [1] ⟨0⟩, .create [2] ⟨0⟩, .del 0] ∧
      ∃ z us, run (treeStep noDoubles) {} [.create [1] ⟨0⟩, .create [2] ⟨0⟩, .del 0] = .ok (z, us) ∧
        ∀ a, Reaches z.store a z.root → ∀ offset, OffsetEnds z.store a offset := by
  have hes : Guarded (treeStep noDoubles) (fun z e => Present z e ∧ KeepsNumbers z e) {}
      [.create [1] ⟨0⟩, .create [2] ⟨0⟩, .del 0] :=
    guarded_of_checkRun (fun _ _ => fits_of_delLeaf) rfl
  exact ⟨hes, offset_ends_of_run noDoubles _ hes⟩

/-! ## A walk that does not end -/

/-- Two turns that lead back to where they began repeat forever. -/
theorem avlOffsetLoop_endless {σ : Store} {node node' : Option Nat} {pos pos' offset : Int}
    (h : ∀ fuel, avlOffsetLoop (fuel + 1) σ node pos offset =
      avlOffsetLoop fuel σ node' pos' offset)
    (h' : ∀ fuel, avlOffsetLoop (fuel + 1) σ node' pos' offset =
      avlOffsetLoop fuel σ node pos offset) (fuel : Nat) :
    avlOffsetLoop fuel σ node pos offset = .error .noProgress ∧
      avlOffsetLoop fuel σ node' pos' offset = .error .noProgress := by
  induction fuel with
  | zero => exact ⟨rfl, rfl⟩
  | succ fuel ih =>
      rw [h, h']
      exact ⟨ih.2, ih.1⟩

/-- Eight nodes with distinct names, and the removal of one that has two
    children. -/
def eightAndRemoval : List TreeEvent :=
  [.create [2] ⟨0⟩, .create [3] ⟨0⟩, .create [8] ⟨0⟩, .create [5] ⟨0⟩, .create [1] ⟨0⟩,
    .create [7] ⟨0⟩, .create [6] ⟨0⟩, .create [4] ⟨0⟩, .del 5]

/-- A test for runs: the node removed is on the path that leads right. -/
def delOnRight (z : ZSet) : TreeEvent → Bool
  | .create _ _ => true
  | .insert _ _ => false
  | .del a => decide ((z.root.bind fun b => (z.store.cell b).bind fun n => n.right) = some a)

theorem present_of_delOnRight {e : TreeEvent} (h : delOnRight z e = true) : Present z e := by
  cases e with
  | create name score => exact True.intro
  | insert a score => exact absurd h Bool.false_ne_true
  | del a =>
      rw [delOnRight, decide_eq_true_eq, Option.bind_eq_some_iff] at h
      rcases h with ⟨b, hroot, h⟩
      rw [Option.bind_eq_some_iff] at h
      rcases h with ⟨n, hn, hright⟩
      rw [Present, hroot]
      refine Reaches.right hn ?_
      rw [hright]
      exact Reaches.here

/-- The tree after these events: the root, its right child, its left child, the
    left child of that one, and the children of the right child. -/
theorem eightAndRemoval_cells :
    (run (treeStep noDoubles) {} eightAndRemoval).map (fun x =>
      (x.1.root, [1, 3, 0, 4, 7, 2].map x.1.store.cell)) =
      .ok (some 1, [some ⟨none, some 0, some 3, 4, 7⟩, some ⟨some 1, some 7, some 2, 3, 4⟩,
        some ⟨some 1, some 4, none, 2, 2⟩, some ⟨some 0, none, none, 1, 1⟩,
        some ⟨some 3, none, none, 1, 1⟩, some ⟨some 3, some 6, none, 1, 1⟩]) := by
  decide +kernel

/-- Six ranks from the first of the seven nodes left, the walk goes back and
    forth between the root and its right child. -/
theorem offset_endless :
    Guarded (treeStep noDoubles) Present {} eightAndRemoval ∧
      ∃ z us, run (treeStep noDoubles) {} eightAndRemoval = .ok (z, us) ∧
        Reaches z.store 4 z.root ∧
        (∀ fuel, avlOffsetLoop fuel z.store (some 4) 0 6 = .error .noProgress) ∧
        ¬ OffsetEnds z.store 4 6 := by
  refine ⟨guarded_of_checkRun (fun _ _ => present_of_delOnRight) (by decide +kernel), ?_⟩
  have hcells := eightAndRemoval_cells
  rcases hrun : run (treeStep noDoubles) {} eightAndRemoval with _ | ⟨z, us⟩
  · rw [hrun] at hcells
    exact absurd hcells (by simp only [Except.map, reduceCtorEq, not_false_eq_true])
  · rw [hrun, Except.map, Except.ok.injEq] at hcells
    simp only [Prod.mk.injEq, List.map_cons, List.map_nil, List.cons.injEq] at hcells
    rcases hcells with ⟨hroot, h1, h3, h0, h4, h7, h2, -⟩
    have hendless : ∀ fuel, avlOffsetLoop fuel z.store (some 4) 0 6 = .error .noProgress := by
      -- Two turns lead to the root, where the right subtree has four nodes.
      have h40 : ∀ fuel, avlOffsetLoop (fuel + 1) z.store (some 4) 0 6 =
          avlOffsetLoop fuel z.store (some 0) 1 6 := by
        intro fuel
        simp [avlOffsetLoop, inRight, inLeft, Store.load, avlCnt, cntSucc, h4, h0]
      have h01 : ∀ fuel, avlOffsetLoop (fuel + 1) z.store (some 0) 1 6 =
          avlOffsetLoop fuel z.store (some 1) 2 6 := by
        intro fuel
        simp [avlOffsetLoop, inRight, inLeft, Store.load, avlCnt, cntSucc, h0, h1]
      -- From there the walk goes right, where the subtree has one node, and back.
      have h13 : ∀ fuel, avlOffsetLoop (fuel + 1) z.store (some 1) 2 6 =
          avlOffsetLoop fuel z.store (some 3) 4 6 := by
        intro fuel
        simp [avlOffsetLoop, inRight, inLeft, Store.load, avlCnt, cntSucc, h1, h3, h7]
      have h31 : ∀ fuel, avlOffsetLoop (fuel + 1) z.store (some 3) 4 6 =
          avlOffsetLoop fuel z.store (some 1) 2 6 := by
        intro fuel
        simp [avlOffsetLoop, inRight, inLeft, Store.load, avlCnt, cntSucc, h1, h3, h7, h2]
      intro fuel
      rcases fuel with _ | _ | fuel
      · rfl
      · rw [h40]
        rfl
      · rw [h40, h01]
        exact (avlOffsetLoop_endless h13 h31 fuel).1
    refine ⟨z, us, rfl, ?_, hendless, ?_⟩
    · rw [hroot]
      exact Reaches.left h1 (Reaches.left h0 Reaches.here)
    · intro hends
      rcases hends with ⟨fuel, r, hr⟩
      rw [hendless fuel] at hr
      cases hr

end RedisServer
