import RedisServer.Theory.Zset.TwoIndexes

/-!
# Sorted Sets in Any Run

What becomes of a set under calls that return, whatever they are. It is sound,
or its only member was deleted and the root still points to the freed node.
Such a set is stale: lookups find nothing in it, and an insertion faults, so
it stays stale.

The members of a set are read off its tree in order. A lookup may move nodes
of the hashtable, and the members are the same.

## Main definitions

* `ZSet.Stale`, `ZSet.Kept`: The sets of a run.
* `ZSet.WellFormed`: The two indexes hold the same nodes, with exact counts.
* `ZSet.members`: The members in sorted order.

## Theorems

* `Kept.lookup`, `Kept.insert`, `Kept.delete`: Calls that return.
* `Kept.sound`: A set that is well-formed is sound.
* `treeMembers_eq`: The members are the tuples of the nodes of the tree.
-/

namespace RedisServer

open Lib BinaryTree

/-- In-order, the tuples of the nodes below a pointer. -/
def treeMembers (z : ZSet) : Nat → Option Nat → Result (List (Double × Bytes))
  | _, none => .ok []
  | 0, some _ => .error .noProgress
  | fuel + 1, some a => do
    let n ← z.store.load (some a)
    let d ← z.znode a
    let before ← treeMembers z fuel n.left
    let after ← treeMembers z fuel n.right
    .ok (before ++ (d.score, d.name) :: after)

namespace ZSet

/-- The members of the set in the order of its tree. -/
def members (z : ZSet) : Result (List (Double × Bytes)) := treeMembers z (z.store.next + 1) z.root

/-- The root is valid, the hashtable and the tree hold the same nodes, and the
    counts are exact. -/
def WellFormed (z : ZSet) : Prop :=
  ∃ t, z.root = ptr t ∧ Rooted z.store t ∧ (z.hmap.nodes.map HNode.payload).Perm (vals t) ∧
    Counted t

/-- The hashtable is empty and the root points to a node that was freed. -/
structure Stale (z : ZSet) : Prop where
  hmap : z.hmap.Wf
  empty : z.hmap.nodes = []
  root : ∃ a, z.root = some a ∧ z.store.cell a = none ∧ z.data a = none ∧ a < z.store.next

/-- The sets of a run. -/
def Kept (R : Runtime) (z : ZSet) : Prop := (∃ t, z.Sound R t) ∨ z.Stale

theorem kept_empty (R : Runtime) : ({} : ZSet).Kept R := Or.inl ⟨nil, sound_empty R⟩

end ZSet

open ZSet

variable {R : Runtime} {z z' : ZSet} {t : AvlTree}

/-! ## Calls that return -/

/-- Nothing is found in a stale set. -/
theorem zsetLookup_stale (h : z.Stale) (name : Bytes) :
    ∃ m, zsetLookup R z name = .ok ({ z with hmap := m }, none) ∧
      ({ z with hmap := m } : ZSet).Stale := by
  rcases h.root with ⟨a, hroot, hcell, hdata, hlt⟩
  have hans : Answers (hcmp z name) (named z name) (R.strHash name) z.hmap.nodes := by
    rw [h.empty]
    exact fun n hn => absurd hn List.not_mem_nil
  rcases hmLookup_spec h.hmap hans with ⟨m, r, hrun, hm, hp, hfound⟩
  have hnone : r = none := by
    cases r with
    | none => rfl
    | some n =>
        have hn := hfound.1
        rw [h.empty] at hn
        exact absurd hn List.not_mem_nil
  rw [h.empty, List.perm_nil] at hp
  refine ⟨m, ?_, hm, hp, a, hroot, hcell, hdata, hlt⟩
  rw [zsetLookup, if_neg (by rw [hroot]; exact Option.some_ne_none a), hrun, ok_bind, hnone]
  rfl

/-- A lookup changes the layout of the hashtable only. -/
theorem ZSet.Kept.lookup (h : z.Kept R) (name : Bytes) :
    ∃ m r, zsetLookup R z name = .ok ({ z with hmap := m }, r) ∧
      ({ z with hmap := m } : ZSet).Kept R ∧
      ∀ a, r = some a → ∃ t d, ({ z with hmap := m } : ZSet).Sound R t ∧ z.data a = some d := by
  rcases h with ⟨t, h⟩ | h
  · rcases zsetLookup_spec h name with ⟨m, r, hrun, h', hr⟩
    refine ⟨m, r, hrun, Or.inl ⟨t, h'⟩, fun a ha => ?_⟩
    rcases (hr a).mp ha with ⟨d, hd, _⟩
    exact ⟨t, d, h', hd⟩
  · rcases zsetLookup_stale (R := R) h name with ⟨m, hrun, h'⟩
    exact ⟨m, none, hrun, Or.inr h', nofun⟩

/-- Inserting into a stale set follows its root. -/
theorem zsetInsert_stale (h : z.Stale) (name : Bytes) (score : Double) :
    ∃ f, zsetInsert R z name score = .error f := by
  rcases zsetLookup_stale (R := R) h name with ⟨m, hlook, h'⟩
  rcases h.root with ⟨a, hroot, _, hdata, hlt⟩
  rcases hmInsert_spec h'.hmap { hcode := R.strHash name, payload := z.store.next } with
    ⟨m', hins, _, _⟩
  simp only [zsetInsert, hlook, ok_bind, znodeNew, Store.alloc, hins]
  -- The descent compares the new node with the one the root points to.
  have hself : Function.update z.data z.store.next (some ⟨R.strHash name, score, name⟩) z.store.next =
      some ⟨R.strHash name, score, name⟩ := Function.update_self _ _ _
  have hgone : Function.update z.data z.store.next (some ⟨R.strHash name, score, name⟩) a = none := by
    rw [Function.update_of_ne (Nat.ne_of_lt hlt), hdata]
  refine ⟨.freedNode, ?_⟩
  simp only [treeInsert, hroot, treeDescend, zlessNode, ZSet.znode, hgone, error_bind]

theorem ZSet.Kept.insert (h : z.Kept R) {name : Bytes} {score : Double} {r : Bool}
    (hrun : zsetInsert R z name score = .ok (z', r)) : z'.Kept R := by
  rcases h with ⟨t, h⟩ | h
  · rcases zsetInsert_sound h name score with ⟨z₁, r₁, t', hrun', h'⟩
    rw [hrun, Except.ok.injEq, Prod.mk.injEq] at hrun'
    rw [hrun'.1]
    exact Or.inl ⟨t', h'⟩
  · rcases zsetInsert_stale (R := R) h name score with ⟨f, herr⟩
    rw [herr] at hrun
    cases hrun

/-- Deleting a member leaves a sound set, or a stale one if it was the only
    member. -/
theorem ZSet.Sound.delete (h : z.Sound R t) {a : Nat} {d : ZNode} (hd : z.data a = some d) :
    ∃ z', zsetDelete z a = .ok z' ∧ z'.Kept R := by
  by_cases hone : vals t = [a]
  · rcases zsetDelete_run h hd with
      ⟨m, n, store, t', xs, ys, hrun, hm, hp, hn, _, hsplit, hrest, hfree, hnext, _⟩
    have hnil : t' = nil := by
      rw [← vals_eq_nil, hrest, (erase_of_split hsplit h.tree.nodup).2]
      exact hone
    -- the only member is the root, and after it goes the root still points to it
    have hroot : z.root = some a := by
      have hmem : a ∈ vals t := by
        rw [hone]
        exact List.mem_singleton_self a
      cases t with
      | nil => exact absurd hmem List.not_mem_nil
      | node x l r =>
          have hx : x.val ∈ vals (node x l r) := mem_vals_of_ptr rfl
          rw [hone, List.mem_singleton] at hx
          rw [h.root, ptr_node, hx]
    have hempty : m.nodes = [] := by
      have hlen := hp.length_eq
      rw [← List.length_map (f := HNode.payload), h.both.length_eq, hone, List.length_cons,
        List.length_cons, List.length_nil, Nat.add_right_cancel_iff] at hlen
      exact List.length_eq_zero_iff.mp hlen.symm
    have hlt : a < z.store.next := h.tree.lt a ((h.data a).mp ⟨d, hd⟩)
    refine ⟨_, hrun, Or.inr ⟨hm, hempty, a, ?_, hfree, Function.update_self _ _ _, ?_⟩⟩
    · simp only [if_pos hnil, hroot]
    · rw [hnext]
      exact hlt
  · rcases zsetDelete_spec h hd hone with ⟨z', t', hrun, h', _, _⟩
    exact ⟨z', hrun, Or.inl ⟨t', h'⟩⟩

/-! ## Sets that are well-formed -/

/-- A set of a run whose root is valid is sound. -/
theorem ZSet.Kept.sound_of_root (h : z.Kept R) (hroot : z.root = ptr t) (htree : Rooted z.store t) :
    z.Sound R t := by
  rcases h with ⟨t', h⟩ | h
  · have hsame := treeAt_unique htree.tree h.tree.tree (hroot.symm.trans h.root)
    exact hsame ▸ h
  · rcases h.root with ⟨a, hptr, hcell, _, _⟩
    have hmem := mem_vals_of_ptr (hroot.symm.trans hptr)
    rcases htree.tree.allocated hmem with ⟨n, hn⟩
    rw [hcell] at hn
    cases hn

/-- A well-formed set of a run is sound, and its counts are exact. -/
theorem ZSet.Kept.sound (h : z.Kept R) (hwf : z.WellFormed) : ∃ t, z.Sound R t ∧ Counted t := by
  rcases hwf with ⟨t, hroot, htree, _, hcounted⟩
  exact ⟨t, h.sound_of_root hroot htree, hcounted⟩

/-- Another layout of the hashtable leaves a set of a run well-formed. -/
theorem ZSet.WellFormed.relaid (hwf : z.WellFormed) {m : HMap Nat}
    (h : ({ z with hmap := m } : ZSet).Kept R) : ({ z with hmap := m } : ZSet).WellFormed := by
  rcases hwf with ⟨t, hroot, htree, _, hcounted⟩
  exact ⟨t, hroot, htree, (h.sound_of_root hroot htree).both, hcounted⟩

/-! ## The members -/

/-- The tuple of a node. -/
def tupleOf (z : ZSet) (a : Nat) : Double × Bytes :=
  match z.data a with
  | some d => (d.score, d.name)
  | none => (⟨0⟩, [])

theorem treeMembers_eq {parent : Option Nat} {m : Nat} (htree : TreeAt z.store parent t)
    (hdata : ∀ a ∈ vals t, ∃ d, z.data a = some d) (hfuel : t.numNodes < m) :
    treeMembers z m (ptr t) = .ok ((vals t).map (tupleOf z)) := by
  induction t generalizing parent m with
  | nil =>
      rw [ptr_nil, treeMembers, vals_nil, List.map_nil]
  | node x l r ihl ihr =>
      obtain ⟨m, rfl⟩ := Nat.exists_eq_succ_of_ne_zero (Nat.ne_of_gt (Nat.zero_lt_of_lt hfuel))
      rw [numNodes] at hfuel
      rcases htree with ⟨hx, hl, hr⟩
      rcases hdata x.val (mem_vals_of_ptr rfl) with ⟨d, hd⟩
      rw [vals_node] at hdata
      have hbefore := ihl (m := m) hl
        (fun a ha => hdata a (List.mem_append_left _ ha)) (by omega)
      have hafter := ihr (m := m) hr
        (fun a ha => hdata a (List.mem_append_right _ (List.mem_cons_of_mem _ ha))) (by omega)
      have htuple : tupleOf z x.val = (d.score, d.name) := by
        rw [tupleOf, hd]
      rw [ptr_node, treeMembers, load_eq hx, ok_bind, znode_eq hd, ok_bind]
      simp only [hbefore, hafter, ok_bind, vals_node, List.map_append, List.map_cons, htuple]

theorem treeMembers_congr (z z' : ZSet) (hstore : z'.store = z.store) (hdata : z'.data = z.data)
    (fuel : Nat) (p : Option Nat) : treeMembers z' fuel p = treeMembers z fuel p := by
  induction fuel generalizing p with
  | zero =>
      cases p with
      | none => rfl
      | some a => rfl
  | succ fuel ih =>
      cases p with
      | none => rfl
      | some a => simp only [treeMembers, hstore, ZSet.znode, hdata, ih]

/-- The members do not depend on the hashtable. -/
theorem members_withHmap (z : ZSet) (m : HMap Nat) :
    ({ z with hmap := m } : ZSet).members = z.members :=
  treeMembers_congr z { z with hmap := m } rfl rfl (z.store.next + 1) z.root

end RedisServer
