import RedisServer.Theory.Zset.Kept
import RedisServer.Theory.Zset.Order
import Mathlib.Data.List.Find

/-!
# Sorted Trees

A tree whose tuples, read from left to right, are at increasing places. The
repairs keep the listing of a tree whatever heights and sizes are stored in
it, so a sorted tree stays sorted even where those numbers are wrong: only
the links and the comparisons decide where a node goes and what a search
finds.

Scores are numbers here. A `NaN` is refused before it reaches a set.

## Main definitions

* `ZSet.Sorted`: The tuples of a tree are in order.
* `FirstFrom`: The first member of a tree that is not before a tuple.

## Theorems

* `treeInsert_sorted`: An insertion of a new tuple.
* `avlDel_sorted`: A removal.
* `zsetSeekge_sorted`, `firstFrom_find`: A search.
* `order_survives`: All three, whatever numbers are stored.
-/

namespace RedisServer

open Lib BinaryTree ZSet

/-- The scores of the members are numbers, and their tuples are in order. -/
structure ZSet.Sorted (z : ZSet) (t : AvlTree) : Prop where
  number : ∀ a ∈ vals t, (tupleOf z a).1.isNan = false
  order : (vals t).Pairwise fun a b => place (tupleOf z a) < place (tupleOf z b)

/-- The member is the first of the tree that is not before the tuple, or the
    tree has none. -/
def FirstFrom (z : ZSet) (t : AvlTree) (x : Double × Bytes) : Option Nat → Prop
  | none => ∀ b ∈ vals t, place (tupleOf z b) < place x
  | some a => a ∈ vals t ∧ place x ≤ place (tupleOf z a) ∧
    ∀ b ∈ vals t, place x ≤ place (tupleOf z b) → place (tupleOf z a) ≤ place (tupleOf z b)

variable {z z' : ZSet} {t t' : AvlTree}

theorem tupleOf_eq {a : Nat} {d : ZNode} (h : z.data a = some d) :
    tupleOf z a = (d.score, d.name) := by
  rw [tupleOf, h]

theorem tupleOf_congr {a : Nat} (h : z'.data a = z.data a) : tupleOf z' a = tupleOf z a := by
  rw [tupleOf, tupleOf, h]

theorem sorted_nil (z : ZSet) : z.Sorted nil :=
  ⟨fun _ h => absurd h List.not_mem_nil, List.Pairwise.nil⟩

/-- A sorted tree stays sorted when other nodes' data change. -/
theorem ZSet.Sorted.congr (h : z.Sorted t) (hvals : vals t' = vals t)
    (hdata : ∀ a ∈ vals t, z'.data a = z.data a) : z'.Sorted t' where
  number := by
    intro a ha
    rw [hvals] at ha
    rw [tupleOf_congr (hdata a ha)]
    exact h.number a ha
  order := by
    rw [hvals]
    refine h.order.imp_of_mem fun ha hb hab => ?_
    rw [tupleOf_congr (hdata _ ha), tupleOf_congr (hdata _ hb)]
    exact hab

/-- A part of a sorted tree is sorted. -/
theorem ZSet.Sorted.sublist (h : z.Sorted t) (hsub : (vals t').Sublist (vals t)) : z.Sorted t' :=
  ⟨fun a ha => h.number a (hsub.subset ha), h.order.sublist hsub⟩

/-! ## The comparisons -/

-- On the members of a sorted tree both comparisons are comparisons of places.
theorem goesLeft_iff (hdata : ∀ b ∈ vals t, ∃ n, z.data b = some n) (hs : z.Sorted t) {d : ZNode}
    (hnum : d.score.isNan = false) {y : Note Nat} (hy : y ∈ inorder t) :
    goesLeft z d y = true ↔ place (d.score, d.name) < place (tupleOf z y.val) := by
  have hmem : y.val ∈ vals t := List.mem_map_of_mem hy
  rcases hdata y.val hmem with ⟨n, hn⟩
  have hynum := hs.number y.val hmem
  rw [tupleOf_eq hn] at hynum ⊢
  rw [goesLeft, hn]
  exact tupleLess_iff hnum hynum d.name n.name

theorem below_iff (hdata : ∀ b ∈ vals t, ∃ n, z.data b = some n) (hs : z.Sorted t) {score : Double}
    (hnum : score.isNan = false) (name : Bytes) {y : Note Nat} (hy : y ∈ inorder t) :
    below z score name y = true ↔ place (tupleOf z y.val) < place (score, name) := by
  have hmem : y.val ∈ vals t := List.mem_map_of_mem hy
  rcases hdata y.val hmem with ⟨n, hn⟩
  have hynum := hs.number y.val hmem
  rw [tupleOf_eq hn] at hynum ⊢
  rw [below, hn]
  exact tupleLess_iff hynum hnum n.name name

theorem ZSet.Sorted.inorder (hs : z.Sorted t) :
    (inorder t).Pairwise fun x y => place (tupleOf z x.val) < place (tupleOf z y.val) := by
  have horder := hs.order
  rw [vals, List.pairwise_map] at horder
  exact horder

/-! ## Insertion -/

-- The place the walk ends at has the smaller tuples before it and the greater
-- ones after it. A tuple at the same place would be after none and before
-- none, so it is excluded.
theorem treeInsert_order (hdata : ∀ b ∈ vals t, ∃ n, z.data b = some n) (hs : z.Sorted t) {d : ZNode}
    (hnum : d.score.isNan = false)
    (hnew : ∀ b ∈ vals t, place (tupleOf z b) ≠ place (d.score, d.name)) :
    (∀ b ∈ (before (descend (goesLeft z d) t [])).map Note.val,
        place (tupleOf z b) < place (d.score, d.name)) ∧
      ∀ b ∈ (after (descend (goesLeft z d) t [])).map Note.val,
        place (d.score, d.name) < place (tupleOf z b) := by
  have hplug : inorder (plug (descend (goesLeft z d) t []) nil) = inorder t :=
    congrArg inorder (plug_descend _ t [])
  rw [inorder_plug, inorder_nil, List.append_nil] at hplug
  have horder : InOrder (goesLeft z d) (inorder t) := by
    refine hs.inorder.imp_of_mem fun hx hy hxy hleft => ?_
    rw [goesLeft_iff hdata hs hnum hx] at hleft
    rw [goesLeft_iff hdata hs hnum hy]
    exact hleft.trans hxy
  rcases descend_splits (k := []) horder (fun a ha => absurd ha List.not_mem_nil)
    (fun a ha => absurd ha List.not_mem_nil) with ⟨hbefore, hafter⟩
  constructor
  · intro b hb
    rcases List.mem_map.mp hb with ⟨y, hy, rfl⟩
    have hyt : y ∈ inorder t := by
      rw [← hplug]
      exact List.mem_append_left _ hy
    have hnot : ¬ place (d.score, d.name) < place (tupleOf z y.val) := by
      rw [← goesLeft_iff hdata hs hnum hyt, hbefore y hy]
      exact Bool.false_ne_true
    exact lt_of_le_of_ne (not_lt.mp hnot) (hnew y.val (List.mem_map_of_mem hyt))
  · intro b hb
    rcases List.mem_map.mp hb with ⟨y, hy, rfl⟩
    have hyt : y ∈ inorder t := by
      rw [← hplug]
      exact List.mem_append_right _ hy
    exact (goesLeft_iff hdata hs hnum hyt).mp (hafter y hy)

/-- A sorted tree with a new tuple where the walk ends is sorted. -/
theorem sorted_fixUp (hdata : ∀ b ∈ vals t, ∃ n, z.data b = some n) (hs : z.Sorted t) {a : Nat}
    {d : ZNode} (hd : z'.data a = some d) (hsame : ∀ b ∈ vals t, z'.data b = z.data b)
    (hnum : d.score.isNan = false)
    (hnew : ∀ b ∈ vals t, place (tupleOf z b) ≠ place (d.score, d.name)) :
    z'.Sorted (fixUp (descend (goesLeft z d) t []) (leaf a)) := by
  rcases treeInsert_order hdata hs hnum hnew with ⟨hbefore, hafter⟩
  have ht : vals t = (before (descend (goesLeft z d) t [])).map Note.val ++
      (after (descend (goesLeft z d) t [])).map Note.val := by
    conv_lhs => rw [← plug_nil t, ← plug_descend (goesLeft z d) t []]
    rw [vals_plug, vals_nil, List.append_nil]
  have horder := hs.order
  have hmem : ∀ b ∈ vals t, tupleOf z' b = tupleOf z b := fun b hb => tupleOf_congr (hsame b hb)
  rw [ht] at horder hmem
  rw [List.pairwise_append] at horder
  constructor
  · intro b hb
    rw [(vals_treeInsert_perm (goesLeft z d) a t).mem_iff, List.mem_cons] at hb
    rcases hb with rfl | hb
    · rw [tupleOf_eq hd]
      exact hnum
    · rw [tupleOf_congr (hsame b hb)]
      exact hs.number b hb
  · rw [vals_treeInsert, List.pairwise_append, List.pairwise_cons]
    refine ⟨horder.1.imp_of_mem fun hx hy hxy => ?_, ⟨fun b hb => ?_,
      horder.2.1.imp_of_mem fun hx hy hxy => ?_⟩, fun x hx y hy => ?_⟩
    · rw [hmem _ (List.mem_append_left _ hx), hmem _ (List.mem_append_left _ hy)]
      exact hxy
    · rw [tupleOf_eq hd, hmem b (List.mem_append_right _ hb)]
      exact hafter b hb
    · rw [hmem _ (List.mem_append_right _ hx), hmem _ (List.mem_append_right _ hy)]
      exact hxy
    · rw [hmem x (List.mem_append_left _ hx)]
      rcases List.mem_cons.mp hy with rfl | hy
      · rw [tupleOf_eq hd]
        exact hbefore x hx
      · rw [hmem y (List.mem_append_right _ hy)]
        exact horder.2.2 x hx y hy

/-- `tree_insert` of a node with a new tuple. -/
theorem treeInsert_sorted (h : z.TreeOf t) (hs : z.Sorted t) {a : Nat} {d : ZNode}
    (hd : z.data a = some d) (hcell : z.store.cell a = some avlInit) (hlt : a < z.store.next)
    (hout : a ∉ vals t) (hnum : d.score.isNan = false)
    (hnew : ∀ b ∈ vals t, place (tupleOf z b) ≠ place (d.score, d.name)) :
    ∃ z' t', treeInsert z a = .ok z' ∧ z'.TreeOf t' ∧ z'.Sorted t' ∧ z'.data = z.data ∧
      (vals t').Perm (a :: vals t) := by
  rcases treeInsert_spec h hd hcell hout hlt with ⟨store, hrun, hroot, _⟩
  have hperm := vals_treeInsert_perm (goesLeft z d) a t
  refine ⟨_, _, hrun, ⟨rfl, hroot, fun b hb => ?_⟩,
    sorted_fixUp h.data hs hd (fun _ _ => rfl) hnum hnew, rfl, hperm⟩
  rw [hperm.mem_iff, List.mem_cons] at hb
  rcases hb with rfl | hb
  · exact ⟨d, hd⟩
  · exact h.data b hb

/-! ## Removal -/

/-- `avl_del` of a member. -/
theorem avlDel_sorted (h : z.TreeOf t) (hs : z.Sorted t) {a : Nat} (ha : a ∈ vals t) :
    ∃ store root t', avlDel z.store (some a) = .ok (store, root) ∧
      ({ z with store := store, root := root } : ZSet).TreeOf t' ∧
      ({ z with store := store, root := root } : ZSet).Sorted t' ∧ vals t' = (vals t).erase a := by
  rcases avlDel_spec h.tree ha with ⟨store, t', hrun, hroot, _, _, xs, ys, hsplit, hrest⟩
  have herase : vals t' = (vals t).erase a :=
    hrest.trans (erase_of_split hsplit h.tree.nodup).1
  have hsub : (vals t').Sublist (vals t) := by
    rw [herase]
    exact List.erase_sublist
  have hsorted := hs.sublist hsub
  exact ⟨store, ptr t', t', hrun, ⟨rfl, hroot, fun b hb => h.data b (hsub.subset hb)⟩,
    hsorted.congr rfl (fun _ _ => rfl), herase⟩

/-! ## Search -/

/-- `zset_seekge` finds the first member that is not before the tuple. -/
theorem zsetSeekge_sorted (h : z.TreeOf t) (hs : z.Sorted t) {score : Double}
    (hnum : score.isNan = false) (name : Bytes) :
    zsetSeekge z score name =
      .ok ((vals t).find? fun a => decide (place (score, name) ≤ place (tupleOf z a))) := by
  have horder : InOrder (fun y => !below z score name y) (inorder t) := by
    refine hs.inorder.imp_of_mem fun hx hy hxy hbelow => ?_
    rw [Bool.not_eq_true', Bool.eq_false_iff, Ne, below_iff h.data hs hnum name hx] at hbelow
    rw [Bool.not_eq_true', Bool.eq_false_iff, Ne, below_iff h.data hs hnum name hy]
    exact fun hy => hbelow (hxy.trans hy)
  rw [zsetSeekge_eq h, seek_eq horder none, Option.or_none, vals, List.find?_map]
  congr 2
  refine List.find?_congr fun y hy => ?_
  rw [Function.comp_apply, Bool.eq_iff_iff, Bool.not_eq_true', Bool.eq_false_iff, Ne,
    below_iff h.data hs hnum name hy, decide_eq_true_eq, not_lt]

/-- In a sorted tree the first member found is the least. -/
theorem firstFrom_find (hs : z.Sorted t) (x : Double × Bytes) :
    FirstFrom z t x ((vals t).find? fun a => decide (place x ≤ place (tupleOf z a))) := by
  cases hfind : (vals t).find? fun a => decide (place x ≤ place (tupleOf z a)) with
  | none =>
      intro b hb
      rw [List.find?_eq_none] at hfind
      have hnot := hfind b hb
      rw [decide_eq_true_eq, not_le] at hnot
      exact hnot
  | some a =>
      rcases List.find?_eq_some_iff_append.mp hfind with ⟨hle, xs, ys, hsplit, hbefore⟩
      rw [decide_eq_true_eq] at hle
      have horder := hs.order
      rw [hsplit, List.pairwise_append, List.pairwise_cons] at horder
      refine ⟨by rw [hsplit]; exact List.mem_append_right _ List.mem_cons_self, hle,
        fun b hb hxb => ?_⟩
      rw [hsplit, List.mem_append, List.mem_cons] at hb
      rcases hb with hb | rfl | hb
      · have hnot := hbefore b hb
        rw [Bool.not_eq_true', decide_eq_false_iff_not] at hnot
        exact absurd hxb hnot
      · exact le_refl _
      · exact le_of_lt (horder.2.1.1 b hb)

/-- Whatever heights and sizes a sorted tree stores, an insertion of a new
    tuple and a removal return the root of a tree with consistent links that
    is sorted and has just that node more, or less, and a search finds the
    first member that is not before a tuple. -/
theorem order_survives (z : ZSet) (t : AvlTree) (h : z.TreeOf t) (hs : z.Sorted t) :
    (∀ a d, z.data a = some d → z.store.cell a = some avlInit → a < z.store.next → a ∉ vals t →
      d.score.isNan = false → (∀ b ∈ vals t, place (tupleOf z b) ≠ place (d.score, d.name)) →
      ∃ z' t', treeInsert z a = .ok z' ∧ z'.TreeOf t' ∧ z'.Sorted t' ∧ z'.data = z.data ∧
        (vals t').Perm (a :: vals t)) ∧
    (∀ a ∈ vals t, ∃ store root t', avlDel z.store (some a) = .ok (store, root) ∧
      ({ z with store := store, root := root } : ZSet).TreeOf t' ∧
      ({ z with store := store, root := root } : ZSet).Sorted t' ∧
      vals t' = (vals t).erase a) ∧
    ∀ score name, score.isNan = false →
      ∃ r, zsetSeekge z score name = .ok r ∧ FirstFrom z t (score, name) r :=
  ⟨fun _ _ hd hcell hlt hout hnum hnew => treeInsert_sorted h hs hd hcell hlt hout hnum hnew,
    fun _ ha => avlDel_sorted h hs ha,
    fun _ name hnum => ⟨_, zsetSeekge_sorted h hs hnum name, firstFrom_find hs _⟩⟩

/-- Two members and a node to insert, with heights and sizes that are wrong. -/
def staleSet : ZSet where
  root := some 0
  store :=
    { cell := fun
        | 0 => some ⟨none, some 1, none, 7, 0⟩
        | 1 => some ⟨some 0, none, none, 5, 9⟩
        | 2 => some avlInit
        | _ => none
      next := 3 }
  data
    | 0 => some ⟨0, ⟨0⟩, [2]⟩
    | 1 => some ⟨0, ⟨0⟩, [1]⟩
    | 2 => some ⟨0, ⟨0⟩, [3]⟩
    | _ => none

/-- The tree of `staleSet`. -/
def staleTree : AvlTree := node ⟨0, 7, 0⟩ (node ⟨1, 5, 9⟩ nil nil) nil

theorem staleSet_treeOf : staleSet.TreeOf staleTree where
  root := rfl
  tree := ⟨⟨rfl, ⟨rfl, True.intro, True.intro⟩, True.intro⟩, by decide, by decide⟩
  data := by
    intro a ha
    have hmem : a = 1 ∨ a = 0 := by
      simpa only [vals, staleTree, inorder, List.nil_append, List.cons_append, List.map_cons,
        List.map_nil, List.mem_cons, List.not_mem_nil, or_false] using ha
    rcases hmem with rfl | rfl
    · exact ⟨_, rfl⟩
    · exact ⟨_, rfl⟩

theorem staleSet_sorted : staleSet.Sorted staleTree := ⟨by decide, by decide⟩

theorem order_survives_stale :
    (∃ z' t', treeInsert staleSet 2 = .ok z' ∧ z'.TreeOf t' ∧ z'.Sorted t' ∧
      z'.data = staleSet.data ∧ (vals t').Perm [2, 1, 0]) ∧
    (∃ store root t', avlDel staleSet.store (some 0) = .ok (store, root) ∧
      ({ staleSet with store := store, root := root } : ZSet).TreeOf t' ∧
      ({ staleSet with store := store, root := root } : ZSet).Sorted t' ∧ vals t' = [1]) ∧
    ∃ r, zsetSeekge staleSet ⟨0⟩ [1, 7] = .ok r ∧ FirstFrom staleSet staleTree (⟨0⟩, [1, 7]) r := by
  rcases order_survives staleSet staleTree staleSet_treeOf staleSet_sorted with ⟨hins, hdel, hseek⟩
  exact ⟨hins 2 _ rfl rfl (by decide) (by decide) rfl (by decide), hdel 0 (by decide),
    hseek ⟨0⟩ [1, 7] rfl⟩

end RedisServer
