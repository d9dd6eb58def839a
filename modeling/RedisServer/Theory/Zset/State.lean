import RedisServer.Core.Zset
import RedisServer.Lib.SearchTree
import RedisServer.Theory.Avl.Balance
import RedisServer.Theory.Hashtable.Map

/-!
# The Sorted Set in Memory

A sorted set whose two indexes hold the same nodes. `ZSet.Sound` names the
tree the root points to, says that the hashtable holds its addresses, that
nothing else is allocated, and that the hash codes and names are those a lookup
relies on. It does not say how the tree is ordered or what it stores in
`height` and `cnt`: no link depends on either.

Each operation has one specification, which says what became of the tree as
well as that the set is sound again.

## Main definitions

* `ZSet.TreeOf`: The set's tree, with data in every node.
* `ZSet.Sound`: Both indexes hold the same allocated nodes.
* `goesLeft`, `below`: The comparisons of an insertion and of a search.

## Theorems

* `zsetLookup_spec`: A lookup by name answers from the members.
* `treeInsert_spec`: A node is inserted where the comparisons lead.
* `zsetInsert_new`, `zsetUpdate_spec`: A new member, and a new score.
* `zsetDelete_spec`: A member leaves both indexes, unless it was the only one.
* `zsetSeekge_eq`: A search follows the comparisons.
* `zsetClear_spec`: Every member is freed, once, and nothing else.
-/

namespace RedisServer

open Lib BinaryTree

/-! ## Names -/

/-- Names of the same length with no difference are equal. -/
theorem memcmp_eq_iff {xs ys : Bytes} (h : xs.length = ys.length) :
    memcmp xs ys = .eq ↔ xs = ys := by
  induction xs generalizing ys with
  | nil =>
      rw [List.length_nil, eq_comm, List.length_eq_zero_iff] at h
      subst h
      exact ⟨fun _ => rfl, fun _ => rfl⟩
  | cons x xs ih =>
      cases ys with
      | nil => exact absurd h (by simp only [List.length_cons, List.length_nil,
          Nat.add_one_ne_zero, not_false_eq_true])
      | cons y ys =>
          simp only [List.length_cons, Nat.add_right_cancel_iff] at h
          rw [memcmp, List.cons.injEq]
          -- the first bytes that differ decide, and the names are not equal
          by_cases hlt : x < y
          · rw [if_pos hlt]
            exact ⟨fun h => absurd h (by decide), fun h => absurd (h.1 ▸ hlt) (UInt8.lt_irrefl _)⟩
          · rw [if_neg hlt]
            by_cases hgt : y < x
            · rw [if_pos hgt]
              exact ⟨fun h => absurd h (by decide),
                fun h => absurd (h.1 ▸ hgt) (UInt8.lt_irrefl _)⟩
            · rw [if_neg hgt, ih h]
              -- neither byte is less, so they are the same
              have hxy : x = y := UInt8.le_antisymm (UInt8.not_lt.mp hgt) (UInt8.not_lt.mp hlt)
              exact ⟨fun h => ⟨hxy, h⟩, fun h => h.2⟩

namespace ZSet

/-- The set's tree in memory, with data in every node. -/
structure TreeOf (z : ZSet) (t : AvlTree) : Prop where
  root : z.root = ptr t
  tree : Rooted z.store t
  data : ∀ a ∈ vals t, ∃ n, z.data a = some n

/-- The set's hashtable and its tree `t` hold the same nodes, no other node is
    allocated, the hash codes are those of the names, and no two members have
    the same name. -/
structure Sound (R : Runtime) (z : ZSet) (t : AvlTree) : Prop where
  root : z.root = ptr t
  tree : Rooted z.store t
  hmap : z.hmap.Wf
  both : (z.hmap.nodes.map HNode.payload).Perm (vals t)
  cell : ∀ a, z.store.cell a ≠ none → a ∈ vals t
  data : ∀ a, (∃ n, z.data a = some n) ↔ a ∈ vals t
  hcode : ∀ n ∈ z.hmap.nodes, ∀ d, z.data n.payload = some d →
    n.hcode = R.strHash d.name ∧ d.hcode = R.strHash d.name
  name : ∀ a b d d', z.data a = some d → z.data b = some d' → d.name = d'.name → a = b

theorem Sound.treeOf {R : Runtime} {z : ZSet} {t : AvlTree} (h : z.Sound R t) : z.TreeOf t :=
  ⟨h.root, h.tree, fun a ha => (h.data a).mpr ha⟩

theorem sound_empty (R : Runtime) : ({} : ZSet).Sound R nil where
  root := rfl
  tree := ⟨True.intro, List.nodup_nil, fun a ha => absurd ha List.not_mem_nil⟩
  hmap := HMap.wf_empty
  both := List.Perm.refl _
  cell := fun a ha => absurd rfl ha
  data := by
    intro a
    refine ⟨?_, fun ha => absurd ha List.not_mem_nil⟩
    rintro ⟨n, hn⟩
    cases hn
  hcode := fun n hn => absurd hn List.not_mem_nil
  name := by
    intro a b d d' hd
    cases hd

/-- A node of the hashtable is a member. -/
theorem Sound.payload_mem {R : Runtime} {z : ZSet} {t : AvlTree} (h : z.Sound R t)
    {n : HNode Nat} (hn : n ∈ z.hmap.nodes) : n.payload ∈ vals t :=
  h.both.mem_iff.mp (List.mem_map_of_mem hn)

/-- The size of the hashtable is that of the tree. -/
theorem Sound.hmSize_eq {R : Runtime} {z : ZSet} {t : AvlTree} (h : z.Sound R t) :
    hmSize z.hmap = (vals t).length := by
  rw [RedisServer.hmSize_eq h.hmap, ← h.both.length_eq, List.length_map]

end ZSet

open ZSet

variable {R : Runtime} {z : ZSet} {t : AvlTree}

theorem znode_eq {a : Nat} {n : ZNode} (h : z.data a = some n) : z.znode a = .ok n := by
  rw [ZSet.znode, h]

/-! ## Lookup -/

/-- The callback of the lookup by name, on a member. -/
theorem hcmp_eq {a : Nat} {d : ZNode} (h : z.data a = some d) (name : Bytes) :
    hcmp z name a = .ok (d.name == name) := by
  rw [hcmp, znode_eq h, ok_bind]
  by_cases hlen : d.name.length = name.length
  · rw [if_neg (not_not.mpr hlen), Except.ok.injEq, Bool.eq_iff_iff, beq_iff_eq, beq_iff_eq]
    exact memcmp_eq_iff hlen
  · rw [if_pos hlen, Except.ok.injEq, eq_comm, beq_eq_false_iff_ne]
    exact fun h => hlen (congrArg List.length h)

/-- Whether a member has a name. -/
def named (z : ZSet) (name : Bytes) (a : Nat) : Bool :=
  match z.data a with
  | none => false
  | some d => d.name == name

theorem named_iff {name : Bytes} {a : Nat} :
    named z name a = true ↔ ∃ d, z.data a = some d ∧ d.name = name := by
  rw [named]
  cases h : z.data a with
  | none => simp only [Bool.false_eq_true, reduceCtorEq, false_and, exists_false]
  | some d => simp only [beq_iff_eq, Option.some.injEq, exists_eq_left']

theorem hcmp_answers (h : z.Sound R t) (name : Bytes) (hcode : Nat) :
    Answers (hcmp z name) (named z name) hcode z.hmap.nodes := by
  intro n hn _
  rcases (h.data n.payload).mpr (h.payload_mem hn) with ⟨d, hd⟩
  rw [hcmp_eq hd, named, hd]

/-- What a lookup finds is the member with the name. -/
theorem found_iff (h : z.Sound R t) {name : Bytes} {r : Option (HNode Nat)}
    (hr : Found z.hmap.nodes (R.strHash name) (named z name) r) (a : Nat) :
    r.map HNode.payload = some a ↔ ∃ d, z.data a = some d ∧ d.name = name := by
  cases r with
  | none =>
      refine ⟨fun h => absurd h (by simp only [Option.map_none, reduceCtorEq, not_false_eq_true]), ?_⟩
      rintro ⟨d, hd, hname⟩
      have hmem := (h.data a).mp ⟨d, hd⟩
      rw [← h.both.mem_iff, List.mem_map] at hmem
      rcases hmem with ⟨n, hn, rfl⟩
      refine absurd ?_ (hr n hn)
      exact ⟨by rw [(h.hcode n hn d hd).1, hname], named_iff.mpr ⟨d, hd, hname⟩⟩
  | some n =>
      rcases hr with ⟨hn, _, hname⟩
      rcases named_iff.mp hname with ⟨d, hd, hdn⟩
      rw [Option.map_some, Option.some.injEq]
      constructor
      · rintro rfl
        exact ⟨d, hd, hdn⟩
      · rintro ⟨d', hd', hdn'⟩
        exact h.name _ _ d d' hd hd' (hdn.trans hdn'.symm)

/-- A set with another table that holds the same nodes. -/
theorem ZSet.Sound.withHmap (h : z.Sound R t) {m : HMap Nat} (hm : m.Wf)
    (hp : m.nodes.Perm z.hmap.nodes) : ({ z with hmap := m } : ZSet).Sound R t where
  root := h.root
  tree := h.tree
  hmap := hm
  both := (hp.map _).trans h.both
  cell := h.cell
  data := h.data
  hcode := fun n hn => h.hcode n (hp.mem_iff.mp hn)
  name := h.name

/-- `zset_lookup`: the member with the name, if there is one. -/
theorem zsetLookup_spec (h : z.Sound R t) (name : Bytes) :
    ∃ m r, zsetLookup R z name = .ok ({ z with hmap := m }, r) ∧
      ({ z with hmap := m } : ZSet).Sound R t ∧
      ∀ a, r = some a ↔ ∃ d, z.data a = some d ∧ d.name = name := by
  rw [zsetLookup]
  by_cases hroot : z.root = none
  · rw [if_pos hroot]
    refine ⟨z.hmap, none, rfl, h, fun a => ?_⟩
    refine ⟨nofun, ?_⟩
    rintro ⟨d, hd, _⟩
    have hmem := (h.data a).mp ⟨d, hd⟩
    rw [h.root, ptr_eq_none] at hroot
    rw [hroot] at hmem
    exact absurd hmem List.not_mem_nil
  · rw [if_neg hroot]
    rcases hmLookup_spec h.hmap (hcmp_answers h name (R.strHash name)) with
      ⟨m, r, hrun, hm, hp, hfound⟩
    rw [hrun, ok_bind]
    exact ⟨m, r.map HNode.payload, rfl, h.withHmap hm hp, found_iff h hfound⟩

/-! ## Insertion into the tree -/

/-- The comparison of `tree_insert`: the tuple of `d` against a node. -/
def goesLeft (z : ZSet) (d : ZNode) (y : Note Nat) : Bool :=
  match z.data y.val with
  | none => false
  | some n => tupleLess d.score d.name n.score n.name

theorem onLeft_eq (f : Frame (Note Nat)) : onLeft f = f.isLeft := by
  cases f with
  | left x r => rfl
  | right l x => rfl

/-- The descent ends at the place the comparisons lead to. -/
theorem treeDescend_eq {a : Nat} {d : ZNode} (ha : z.data a = some d) {k : List (Frame (Note Nat))}
    {s : Bool} {m : Nat} (htree : TreeAt z.store (parentOf k) t)
    (hdata : ∀ b ∈ vals t, ∃ n, z.data b = some n) (hfuel : t.numNodes < m)
    (hside : ∀ f ∈ k.head?, f.isLeft = s) :
    ∃ s₂, treeDescend z a m (parentOf k) s (ptr t) =
        .ok (parentOf (descend (goesLeft z d) t k), s₂) ∧
      ∀ f ∈ (descend (goesLeft z d) t k).head?, f.isLeft = s₂ := by
  -- the context grows by the frame the walk steps into
  induction t generalizing k s m with
  | nil =>
      obtain ⟨m, rfl⟩ := Nat.exists_eq_succ_of_ne_zero (Nat.ne_of_gt hfuel)
      exact ⟨s, rfl, hside⟩
  | node y l r ihl ihr =>
      obtain ⟨m, rfl⟩ := Nat.exists_eq_succ_of_ne_zero (Nat.ne_of_gt (Nat.zero_lt_of_lt hfuel))
      rw [numNodes] at hfuel
      rcases htree with ⟨hy, hl, hr⟩
      rcases hdata y.val (mem_vals_of_ptr rfl) with ⟨n, hn⟩
      have hless : zlessNode z a y.val = .ok (tupleLess d.score d.name n.score n.name) := by
        rw [zlessNode, znode_eq hn, ok_bind, zless, znode_eq ha, ok_bind]
      -- the code compares through memory, the tree walk through `goesLeft`
      have hgo : goesLeft z d y = tupleLess d.score d.name n.score n.name := by
        rw [goesLeft, hn]
      rw [vals_node] at hdata
      rw [ptr_node, treeDescend, hless, ok_bind, load_eq hy, ok_bind, descend, ← hgo]
      by_cases h : goesLeft z d y = true
      · rw [h, if_pos rfl, if_pos rfl]
        exact ihl (k := .left y r :: k) hl (fun b hb => hdata b (List.mem_append_left _ hb))
          (by omega) (fun f hf => by rw [← Option.some.inj hf]; rfl)
      · rw [Bool.not_eq_true] at h
        rw [h, if_neg Bool.false_ne_true, if_neg Bool.false_ne_true]
        exact ihr (k := .right l y :: k) hr
          (fun b hb => hdata b (List.mem_append_right _ (List.mem_cons_of_mem _ hb)))
          (by omega) (fun f hf => by rw [← Option.some.inj hf]; rfl)

/-- A node is inserted where the comparisons lead, and the tree is repaired. -/
theorem treeInsert_spec {a : Nat} {d : ZNode} (h : z.TreeOf t) (hd : z.data a = some d)
    (hcell : z.store.cell a = some avlInit) (hnew : a ∉ vals t) (hlt : a < z.store.next) :
    ∃ store, treeInsert z a = .ok { z with
        store := store, root := ptr (fixUp (descend (goesLeft z d) t []) (leaf a)) } ∧
      Rooted store (fixUp (descend (goesLeft z d) t []) (leaf a)) ∧
      Changes z.store store (a :: vals t) := by
  have hplug : plug (descend (goesLeft z d) t []) nil = t := plug_descend _ t []
  rcases treeDescend_eq hd (k := []) (s := false) (m := z.store.next + 1) h.tree.tree h.data
    (Nat.lt_succ_of_le h.tree.numNodes_le)
    (fun f hf => absurd hf (by simp only [List.head?_nil, Option.mem_def, reduceCtorEq,
      not_false_eq_true])) with ⟨isLeft, hdesc, hside⟩
  have hroot := h.tree
  rw [← hplug] at hroot hnew
  -- the descent ends at an empty place, where the node becomes a leaf
  rcases attachLeaf_spec hroot hcell hnew hlt (fun f hf => (onLeft_eq f).trans (hside f hf)) with
    ⟨store, hrun, hroot', hch⟩
  rw [hplug] at hch
  refine ⟨store, ?_, hroot', hch⟩
  rw [attachLeaf] at hrun
  rw [treeInsert, h.root]
  rw [parentOf] at hdesc
  rw [hdesc, ok_bind]
  rcases bind_eq_ok.mp hrun with ⟨σ₁, hlink, hrun⟩
  rcases bind_eq_ok.mp hrun with ⟨σ₂, hparent, hfix⟩
  simp only [hlink, ok_bind, hparent, hfix]

theorem vals_treeInsert (a : Nat) (k : List (Frame (Note Nat))) :
    vals (fixUp k (leaf a)) = (before k).map Note.val ++ a :: (after k).map Note.val := by
  rw [vals_fixUp, vals_plug, leaf, vals_node, vals_nil, List.nil_append, List.append_assoc]
  rfl

/-- The members after an insertion. -/
theorem vals_treeInsert_perm (goLeft : Note Nat → Bool) (a : Nat) (t : AvlTree) :
    (vals (fixUp (descend goLeft t []) (leaf a))).Perm (a :: vals t) := by
  have ht : vals t = (before (descend goLeft t [])).map Note.val ++
      (after (descend goLeft t [])).map Note.val := by
    conv_lhs => rw [← plug_nil t, ← plug_descend goLeft t []]
    rw [vals_plug, vals_nil, List.append_nil]
  rw [vals_treeInsert, ht]
  exact List.perm_middle

/-! ## A new member -/

/-- A sound set with one more node in both indexes. -/
theorem ZSet.Sound.attach {z' : ZSet} {t' : AvlTree} {a : Nat} {d : ZNode} (h : z.Sound R t)
    (hroot : z'.root = ptr t') (htree : Rooted z'.store t') (hvals : (vals t').Perm (a :: vals t))
    (hm : z'.hmap.Wf)
    (hnodes : z'.hmap.nodes.Perm ({ hcode := R.strHash d.name, payload := a } :: z.hmap.nodes))
    (hcell : ∀ b, b ∉ a :: vals t → z'.store.cell b = z.store.cell b)
    (hdata : z'.data = Function.update z.data a (some d)) (hcode : d.hcode = R.strHash d.name)
    (hnew : a ∉ vals t) (hname : ∀ b e, z.data b = some e → e.name ≠ d.name) : z'.Sound R t' where
  root := hroot
  tree := htree
  hmap := hm
  both := by
    refine ((hnodes.map HNode.payload).trans ?_).trans hvals.symm
    rw [List.map_cons]
    exact h.both.cons a
  cell := by
    intro b hb
    rw [hvals.mem_iff]
    by_contra hnot
    rw [hcell b hnot] at hb
    exact hnot (List.mem_cons_of_mem a (h.cell b hb))
  data := by
    intro b
    rw [hvals.mem_iff, List.mem_cons, ← h.data b, hdata, Function.update_apply]
    by_cases hba : b = a
    · rw [if_pos hba]
      exact ⟨fun _ => Or.inl hba, fun _ => ⟨d, rfl⟩⟩
    · rw [if_neg hba, or_iff_right hba]
  hcode := by
    intro n hn e he
    rw [hdata] at he
    rw [hnodes.mem_iff, List.mem_cons] at hn
    -- the node is the new one, or was there
    rcases hn with rfl | hn
    · rw [Function.update_self, Option.some.injEq] at he
      rw [← he]
      exact ⟨rfl, hcode⟩
    · have hne : n.payload ≠ a := fun heq => hnew (heq ▸ h.payload_mem hn)
      rw [Function.update_of_ne hne] at he
      exact h.hcode n hn e he
  name := by
    intro b c e e' hb hc heq
    rw [hdata, Function.update_apply] at hb hc
    -- no node had the new name, so two nodes of one name are both old or both new
    by_cases hba : b = a
    · by_cases hca : c = a
      · exact hba.trans hca.symm
      · rw [if_pos hba, Option.some.injEq] at hb
        rw [if_neg hca] at hc
        rw [← hb] at heq
        exact absurd heq.symm (hname c e' hc)
    · rw [if_neg hba] at hb
      by_cases hca : c = a
      · rw [if_pos hca, Option.some.injEq] at hc
        rw [← hc] at heq
        exact absurd heq (hname b e hb)
      · rw [if_neg hca] at hc
        exact h.name b c e e' hb hc heq

/-- `zset_insert` of a name that is not a member. -/
theorem zsetInsert_new (h : z.Sound R t) {name : Bytes} (score : Double)
    (hname : ∀ a d, z.data a = some d → d.name ≠ name) :
    ∃ z' k, zsetInsert R z name score = .ok (z', true) ∧
      z'.Sound R (fixUp k (leaf z.store.next)) ∧
      z'.data = Function.update z.data z.store.next (some ⟨R.strHash name, score, name⟩) ∧
      k = descend (goesLeft z ⟨R.strHash name, score, name⟩) t [] := by
  rcases zsetLookup_spec h name with ⟨m, r, hlook, h₁, hr⟩
  have hnone : r = none := by
    cases r with
    | none => rfl
    | some a =>
        rcases (hr a).mp rfl with ⟨d, hd, hdn⟩
        exact absurd hdn (hname a d hd)
  subst hnone
  -- the address the allocator hands out is above those in use
  have hfresh : z.store.next ∉ vals t := fun hmem => Nat.lt_irrefl _ (h.tree.lt _ hmem)
  have hne : ∀ a ∈ vals t, a ≠ z.store.next := by
    rintro a ha rfl
    exact hfresh ha
  rcases hmInsert_spec h₁.hmap { hcode := R.strHash name, payload := z.store.next } with
    ⟨m', hins, hm', hpm⟩
  -- The set with the new node, which the tree does not hold yet.
  obtain ⟨z₂, hz₂⟩ : ∃ z₂, z₂ = ({ (znodeNew R z name score).1 with hmap := m' } : ZSet) := ⟨_, rfl⟩
  have hdata₂ : z₂.data =
      Function.update z.data z.store.next (some ⟨R.strHash name, score, name⟩) := by
    rw [hz₂]
    rfl
  have hch₂ : ∀ a, a ≠ z.store.next → z₂.store.cell a = z.store.cell a := by
    intro a ha
    rw [hz₂]
    exact Function.update_of_ne ha _ _
  have hnext₂ : z₂.store.next = z.store.next + 1 := by
    rw [hz₂]
    rfl
  have htree₂ : z₂.TreeOf t := by
    refine ⟨by rw [hz₂]; exact h.root, ⟨h.tree.tree.congr fun a ha => hch₂ a (hne a ha),
      h.tree.nodup, fun a ha => ?_⟩, fun a ha => ?_⟩
    · rw [hnext₂]
      exact Nat.lt_succ_of_lt (h.tree.lt a ha)
    · rw [hdata₂, Function.update_of_ne (hne a ha)]
      exact (h.data a).mpr ha
  have hself : z₂.data z.store.next = some ⟨R.strHash name, score, name⟩ := by
    rw [hdata₂, Function.update_self]
  have hcell : z₂.store.cell z.store.next = some avlInit := by
    rw [hz₂]
    exact Function.update_self _ _ _
  rcases treeInsert_spec htree₂ hself hcell hfresh (by rw [hnext₂]; exact Nat.lt_succ_self _) with
    ⟨store, hrun, hroot, hch⟩
  -- the descent looks at old nodes only, whose data is unchanged
  have hgo : descend (goesLeft z₂ ⟨R.strHash name, score, name⟩) t [] =
      descend (goesLeft z ⟨R.strHash name, score, name⟩) t [] := by
    refine descend_congr fun y hy => ?_
    rw [goesLeft, goesLeft, hdata₂, Function.update_of_ne (hne _ (List.mem_map_of_mem hy))]
  rw [hgo] at hrun hroot
  have hsound : ({ z₂ with
      store := store
      root := ptr (fixUp (descend (goesLeft z ⟨R.strHash name, score, name⟩) t [])
        (leaf z.store.next)) } : ZSet).Sound R
      (fixUp (descend (goesLeft z ⟨R.strHash name, score, name⟩) t []) (leaf z.store.next)) := by
    refine h₁.attach rfl hroot (vals_treeInsert_perm _ _ t) ?_ ?_ (fun b hb => ?_) hdata₂ rfl hfresh
      hname
    · rw [hz₂]
      exact hm'
    · rw [hz₂]
      exact hpm
    · rw [hch.cell b hb, hch₂ b fun heq => hb (by rw [heq]; exact List.mem_cons_self)]
  refine ⟨_, _, ?_, hsound, hdata₂, rfl⟩
  simp only [zsetInsert, hlook, ok_bind, znodeNew, Store.alloc] at hz₂ ⊢
  rw [hins, ok_bind, ← hz₂, hrun, ok_bind]

/-! ## A new score -/

/-- A sound set whose members were linked anew, one of them with a new
    score. -/
theorem ZSet.Sound.rescore {z' : ZSet} {t' : AvlTree} {a : Nat} {d : ZNode} {score : Double}
    (h : z.Sound R t) (hd : z.data a = some d) (hroot : z'.root = ptr t')
    (htree : Rooted z'.store t') (hvals : (vals t').Perm (vals t)) (hhmap : z'.hmap = z.hmap)
    (hcell : ∀ b, b ∉ vals t → z'.store.cell b = z.store.cell b)
    (hdata : z'.data = Function.update z.data a (some { d with score := score })) :
    z'.Sound R t' := by
  -- Hash codes and names are as before.
  have hsame : ∀ b e, z'.data b = some e →
      ∃ e', z.data b = some e' ∧ e'.name = e.name ∧ e'.hcode = e.hcode := by
    intro b e he
    rw [hdata, Function.update_apply] at he
    by_cases hba : b = a
    · rw [if_pos hba, Option.some.injEq] at he
      rw [hba, ← he]
      exact ⟨d, hd, rfl, rfl⟩
    · rw [if_neg hba] at he
      exact ⟨e, he, rfl, rfl⟩
  refine ⟨hroot, htree, by rw [hhmap]; exact h.hmap, by rw [hhmap]; exact h.both.trans hvals.symm,
    fun b hb => ?_, fun b => ?_, fun n hn e he => ?_, fun b c e e' hb hc heq => ?_⟩
  · rw [hvals.mem_iff]
    by_contra hnot
    rw [hcell b hnot] at hb
    exact hnot (h.cell b hb)
  · rw [hvals.mem_iff, ← h.data b, hdata, Function.update_apply]
    by_cases hba : b = a
    · rw [if_pos hba, hba]
      exact ⟨fun _ => ⟨d, hd⟩, fun _ => ⟨_, rfl⟩⟩
    · rw [if_neg hba]
  · rw [hhmap] at hn
    rcases hsame _ e he with ⟨e', he', hname, hcode⟩
    rw [← hname, ← hcode]
    exact h.hcode n hn e' he'
  · rcases hsame b e hb with ⟨e₁, he₁, hname₁, _⟩
    rcases hsame c e' hc with ⟨e₂, he₂, hname₂, _⟩
    exact h.name b c e₁ e₂ he₁ he₂ (by rw [hname₁, hname₂, heq])

/-- `zset_update` to an equal score does nothing. -/
theorem zsetUpdate_eq {a : Nat} {d : ZNode} {score : Double} (hd : z.data a = some d)
    (heq : d.score.eq score = true) : zsetUpdate z a score = .ok z := by
  rw [zsetUpdate, znode_eq hd, ok_bind, if_pos heq]

/-- `zset_update` to another score: the node is detached, and inserted where
    the comparisons with the rest lead. -/
theorem zsetUpdate_spec (h : z.Sound R t) {a : Nat} {d : ZNode} {score : Double}
    (hd : z.data a = some d) (hne : d.score.eq score = false) :
    ∃ store t₁ xs ys z', avlDel z.store (some a) = .ok (store, ptr t₁) ∧ Rooted store t₁ ∧
      vals t = xs ++ a :: ys ∧ vals t₁ = xs ++ ys ∧ zsetUpdate z a score = .ok z' ∧
      z'.data = Function.update z.data a (some { d with score := score }) ∧
      z'.Sound R (fixUp (descend (goesLeft z { d with score := score }) t₁ []) (leaf a)) := by
  have hmem : a ∈ vals t := (h.data a).mp ⟨d, hd⟩
  rcases avlDel_spec h.tree hmem with
    ⟨store, t₁, hdel, hroot₁, hch₁, ⟨n, hn⟩, xs, ys, hsplit, hrest⟩
  -- the remaining listing does not hold the node
  have hnd := h.tree.nodup
  rw [hsplit, List.nodup_middle, List.nodup_cons, ← hrest] at hnd
  have hsub : ∀ b ∈ vals t₁, b ∈ vals t := by
    intro b hb
    rw [hrest, List.mem_append] at hb
    rw [hsplit, List.mem_append, List.mem_cons]
    exact hb.imp_right Or.inr
  have hne' : ∀ b ∈ vals t₁, b ≠ a := by
    rintro b hb rfl
    exact hnd.1 hb
  -- The set with the node detached and reset.
  obtain ⟨z₂, hz₂⟩ : ∃ z₂, z₂ = ({ z with
      root := ptr t₁
      store := store.put a avlInit
      data := Function.update z.data a (some { d with score := score }) } : ZSet) := ⟨_, rfl⟩
  have hdata₂ : z₂.data = Function.update z.data a (some { d with score := score }) := by
    rw [hz₂]
  have hstore₂ : z₂.store = store.put a avlInit := by
    rw [hz₂]
  have htree₂ : z₂.TreeOf t₁ := by
    refine ⟨by rw [hz₂], ⟨?_, hroot₁.nodup, fun b hb => ?_⟩, fun b hb => ?_⟩
    · rw [hstore₂]
      exact hroot₁.tree.congr fun b hb => put_cell_other store (hne' b hb) _
    · rw [hstore₂]
      exact hroot₁.lt b hb
    · rw [hdata₂, Function.update_of_ne (hne' b hb)]
      exact (h.data b).mpr (hsub b hb)
  have hself : z₂.data a = some { d with score := score } := by
    rw [hdata₂, Function.update_self]
  have hcell : z₂.store.cell a = some avlInit := by
    rw [hstore₂, put_cell_self]
  have hlt : a < z₂.store.next := by
    rw [hstore₂, put_next, hch₁.next]
    exact h.tree.lt a hmem
  rcases treeInsert_spec htree₂ hself hcell hnd.1 hlt with ⟨store', hrun, hroot, hch⟩
  have hgo : descend (goesLeft z₂ { d with score := score }) t₁ [] =
      descend (goesLeft z { d with score := score }) t₁ [] := by
    refine descend_congr fun y hy => ?_
    rw [goesLeft, goesLeft, hdata₂, Function.update_of_ne (hne' _ (List.mem_map_of_mem hy))]
  rw [hgo] at hrun hroot
  -- the node is back in the listing, at whatever place
  have hvals : (vals (fixUp (descend (goesLeft z { d with score := score }) t₁ []) (leaf a))).Perm
      (vals t) := by
    refine (vals_treeInsert_perm _ _ t₁).trans ?_
    rw [hrest, hsplit]
    exact List.perm_middle.symm
  have hsound : ({ z₂ with
      store := store'
      root := ptr (fixUp (descend (goesLeft z { d with score := score }) t₁ []) (leaf a)) } :
        ZSet).Sound R (fixUp (descend (goesLeft z { d with score := score }) t₁ []) (leaf a)) := by
    refine h.rescore hd rfl hroot hvals (by rw [hz₂]) (fun b hb => ?_) hdata₂
    have hba : b ≠ a := fun heq => hb (heq ▸ hmem)
    have hout : b ∉ a :: vals t₁ := by
      rw [List.mem_cons, not_or]
      exact ⟨hba, fun hin => hb (hsub b hin)⟩
    simp only [hch.cell b hout, hstore₂, put_cell_other store hba, hch₁.cell b hb]
  refine ⟨store, t₁, xs, ys, _, hdel, hroot₁, hsplit, hrest, ?_, ?_, hsound⟩
  · rw [zsetUpdate, znode_eq hd, ok_bind, if_neg (by rw [hne]; exact Bool.false_ne_true), hdel,
      ok_bind]
    simp only [ZSet.setZnode, modify_eq_put hn, ok_bind]
    rw [← hz₂, hrun]
  · exact hdata₂

/-! ## Deletion -/

/-- A sound set without one of its members. -/
theorem ZSet.Sound.detach {z' : ZSet} {t' : AvlTree} {a : Nat} {n : HNode Nat} (h : z.Sound R t)
    (hroot : z'.root = ptr t') (htree : Rooted z'.store t') (hvals : (vals t).Perm (a :: vals t'))
    (hm : z'.hmap.Wf) (hnodes : z.hmap.nodes.Perm (n :: z'.hmap.nodes)) (hn : n.payload = a)
    (hcell : ∀ b, b ∉ vals t → z'.store.cell b = z.store.cell b) (hfree : z'.store.cell a = none)
    (hdata : z'.data = Function.update z.data a none) : z'.Sound R t' := by
  have hnew : a ∉ vals t' := by
    have hnd := h.tree.nodup
    rw [hvals.nodup_iff, List.nodup_cons] at hnd
    exact hnd.1
  -- the data that is left is that of the other nodes
  have hsame : ∀ b e, z'.data b = some e → z.data b = some e ∧ b ≠ a := by
    intro b e he
    rw [hdata, Function.update_apply] at he
    by_cases hba : b = a
    · rw [if_pos hba] at he
      cases he
    · rw [if_neg hba] at he
      exact ⟨he, hba⟩
  refine ⟨hroot, htree, hm, ?_, fun b hb => ?_, fun b => ?_, fun m hmem e he => ?_,
    fun b c e e' hb hc heq => ?_⟩
  -- table and tree lose the same address
  · have hp := (hnodes.map HNode.payload).symm.trans (h.both.trans hvals)
    rw [List.map_cons, hn] at hp
    exact hp.cons_inv
  · have hba : b ≠ a := fun heq => hb (by rw [heq]; exact hfree)
    by_contra hnot
    have hout : b ∉ vals t := by
      rw [hvals.mem_iff, List.mem_cons, not_or]
      exact ⟨hba, hnot⟩
    rw [hcell b hout] at hb
    exact hout (h.cell b hb)
  · constructor
    · rintro ⟨e, he⟩
      rcases hsame b e he with ⟨he, hba⟩
      have hin := (h.data b).mp ⟨e, he⟩
      rw [hvals.mem_iff, List.mem_cons] at hin
      exact hin.resolve_left hba
    · intro hb
      have hba : b ≠ a := fun heq => hnew (heq ▸ hb)
      rw [hdata, Function.update_of_ne hba]
      exact (h.data b).mpr (hvals.mem_iff.mpr (List.mem_cons_of_mem a hb))
  · exact h.hcode m (hnodes.mem_iff.mpr (List.mem_cons_of_mem n hmem)) e (hsame _ e he).1
  · exact h.name b c e e' (hsame b e hb).1 (hsame c e' hc).1 heq

/-- What `zset_delete` does to the two indexes and the node. The root pointer
    is written only if the tree is not empty afterwards. -/
theorem zsetDelete_run (h : z.Sound R t) {a : Nat} {d : ZNode} (hd : z.data a = some d) :
    ∃ m n store t' xs ys, zsetDelete z a = .ok { z with
        root := if t' = nil then z.root else ptr t'
        hmap := m
        store := store
        data := Function.update z.data a none } ∧
      m.Wf ∧ z.hmap.nodes.Perm (n :: m.nodes) ∧ n.payload = a ∧ Rooted store t' ∧
      vals t = xs ++ a :: ys ∧ vals t' = xs ++ ys ∧ store.cell a = none ∧
      store.next = z.store.next ∧ ∀ b, b ∉ vals t → store.cell b = z.store.cell b := by
  have hmem : a ∈ vals t := (h.data a).mp ⟨d, hd⟩
  -- the stored hash code is that of the name, so the lookup hits
  have hhash : d.hcode = R.strHash d.name := by
    rw [← h.both.mem_iff, List.mem_map] at hmem
    rcases hmem with ⟨n, hn, rfl⟩
    exact (h.hcode n hn d hd).2
  rcases hmDelete_spec h.hmap (hcmp_answers h d.name d.hcode) with ⟨m, r, hrun, hm, hp, hfound⟩
  rw [hhash] at hfound
  have hsome := (found_iff h hfound a).mpr ⟨d, hd, rfl⟩
  cases r with
  | none => exact absurd hsome (by simp only [Option.map_none, reduceCtorEq, not_false_eq_true])
  | some n =>
      rw [Option.map_some, Option.some.injEq] at hsome
      rcases avlDel_spec h.tree hmem with
        ⟨store, t', hdel, hroot, hch, ⟨c, hc⟩, xs, ys, hsplit, hrest⟩
      have hnd := h.tree.nodup
      rw [hsplit, List.nodup_middle, List.nodup_cons, ← hrest] at hnd
      have hfree : store.free a = .ok { store with cell := Function.update store.cell a none } := by
        simp only [Store.free, hc]
      refine ⟨m, n, { store with cell := Function.update store.cell a none }, t', xs, ys, ?_, hm, hp,
        hsome, ⟨hroot.tree.congr fun b hb => ?_, hroot.nodup, hroot.lt⟩, hsplit, hrest,
        Function.update_self _ _ _, hch.next, fun b hb => ?_⟩
      · rw [zsetDelete, znode_eq hd, ok_bind, hrun, ok_bind]
        simp only [hdel, ok_bind]
        -- the root is written unless the tree became empty
        by_cases hnil : t' = nil
        · rw [if_neg (by rw [hnil]; exact not_not.mpr rfl), if_pos hnil]
          simp only [znodeDel, hfree, ok_bind]
        · rw [if_pos (by rw [ne_eq, ptr_eq_none]; exact hnil), if_neg hnil]
          simp only [znodeDel, hfree, ok_bind]
      · have hba : b ≠ a := by
          rintro rfl
          exact hnd.1 hb
        exact Function.update_of_ne hba _ _
      · have hba : b ≠ a := by
          rintro rfl
          exact hb hmem
        exact (Function.update_of_ne hba _ _).trans (hch.cell b hb)

/-- `zset_delete` of a member that is not the only one. -/
theorem zsetDelete_spec (h : z.Sound R t) {a : Nat} {d : ZNode} (hd : z.data a = some d)
    (hmore : vals t ≠ [a]) :
    ∃ z' t', zsetDelete z a = .ok z' ∧ z'.Sound R t' ∧ (vals t).Perm (a :: vals t') ∧
      z'.data = Function.update z.data a none := by
  rcases zsetDelete_run h hd with
    ⟨m, n, store, t', xs, ys, hrun, hm, hp, hn, hroot, hsplit, hrest, hfree, _, hcell⟩
  have hne : t' ≠ nil := by
    rw [ne_eq, ← vals_eq_nil, hrest, (erase_of_split hsplit h.tree.nodup).2]
    exact hmore
  have hvals : (vals t).Perm (a :: vals t') := by
    rw [hsplit, hrest]
    exact List.perm_middle
  exact ⟨_, t', hrun, h.detach (if_neg hne) hroot hvals hm hp hn hcell hfree rfl, hvals, rfl⟩

/-! ## Search -/

/-- The comparison of `zset_seekge`: a node against a tuple. -/
def below (z : ZSet) (score : Double) (name : Bytes) (y : Note Nat) : Bool :=
  match z.data y.val with
  | none => false
  | some n => tupleLess n.score n.name score name

theorem seekgeLoop_eq (score : Double) (name : Bytes) {parent : Option Nat} {fuel : Nat}
    {f : Option (Note Nat)} (htree : TreeAt z.store parent t)
    (hdata : ∀ b ∈ vals t, ∃ n, z.data b = some n) (hfuel : t.numNodes < fuel) :
    seekgeLoop z score name fuel (ptr t) (f.map Note.val) =
      .ok ((seek (below z score name) t f).map Note.val) := by
  -- `f` is the last node that was not below the tuple
  induction t generalizing parent fuel f with
  | nil =>
      obtain ⟨fuel, rfl⟩ := Nat.exists_eq_succ_of_ne_zero (Nat.ne_of_gt hfuel)
      rfl
  | node y l r ihl ihr =>
      obtain ⟨fuel, rfl⟩ := Nat.exists_eq_succ_of_ne_zero (Nat.ne_of_gt (Nat.zero_lt_of_lt hfuel))
      rw [numNodes] at hfuel
      rcases htree with ⟨hy, hl, hr⟩
      rcases hdata y.val (mem_vals_of_ptr rfl) with ⟨n, hn⟩
      have hless : zless z y.val score name = .ok (below z score name y) := by
        rw [zless, znode_eq hn, ok_bind, below, hn]
      rw [vals_node] at hdata
      rw [ptr_node, seekgeLoop, hless, ok_bind, load_eq hy, ok_bind, seek]
      -- below the tuple: nothing to the left is a candidate
      by_cases h : below z score name y = true
      · rw [h, if_neg (by decide), if_pos rfl]
        exact ihr hr (fun b hb => hdata b (List.mem_append_right _ (List.mem_cons_of_mem _ hb)))
          (by omega)
      · rw [Bool.not_eq_true] at h
        rw [h, if_pos (by decide), if_neg Bool.false_ne_true]
        exact ihl (f := some y) hl (fun b hb => hdata b (List.mem_append_left _ hb)) (by omega)

/-- `zset_seekge` follows the comparisons. -/
theorem zsetSeekge_eq (h : z.TreeOf t) (score : Double) (name : Bytes) :
    zsetSeekge z score name = .ok ((seek (below z score name) t none).map Note.val) := by
  rw [zsetSeekge, h.root]
  exact seekgeLoop_eq (f := none) score name h.tree.tree h.data
    (Nat.lt_succ_of_le h.tree.numNodes_le)

/-! ## Disposal -/

/-- `tree_dispose` frees the nodes of a tree, and nothing else. -/
theorem treeDispose_spec {parent : Option Nat} {m : Nat} (htree : TreeAt z.store parent t)
    (hnd : (vals t).Nodup) (hfuel : t.numNodes < m) :
    ∃ z', treeDispose m z (ptr t) = .ok z' ∧ z'.root = z.root ∧ z'.hmap = z.hmap ∧
      z'.store.next = z.store.next ∧
      (∀ a, z'.store.cell a = if a ∈ vals t then none else z.store.cell a) ∧
      ∀ a, z'.data a = if a ∈ vals t then none else z.data a := by
  induction t generalizing z parent m with
  | nil =>
      refine ⟨z, ?_, rfl, rfl, rfl, fun a => rfl, fun a => rfl⟩
      rw [ptr_nil, treeDispose]
  | node y l r ihl ihr =>
      obtain ⟨m, rfl⟩ := Nat.exists_eq_succ_of_ne_zero (Nat.ne_of_gt (Nat.zero_lt_of_lt hfuel))
      rw [numNodes] at hfuel
      rcases htree with ⟨hy, hl, hr⟩
      rw [vals_node, List.nodup_append, List.nodup_cons] at hnd
      rcases hnd with ⟨hndl, ⟨hyr, hndr⟩, hcross⟩
      have hyl : y.val ∉ vals l := fun hmem => hcross _ hmem _ List.mem_cons_self rfl
      rcases ihl (m := m) hl hndl (by omega) with ⟨z₁, hrun₁, hroot₁, hhmap₁, hnext₁, hcell₁, hdata₁⟩
      -- the left subtree is freed, and the node is not in it
      have hy₁ : z₁.store.cell y.val = z.store.cell y.val := by
        rw [hcell₁, if_neg hyl]
      have hr₁ : TreeAt z₁.store (some y.val) r := hr.congr fun a ha => by
        rw [hcell₁, if_neg fun hmem => hcross a hmem a (List.mem_cons_of_mem _ ha) rfl]
      rcases ihr (m := m) hr₁ hndr (by omega) with ⟨z₂, hrun₂, hroot₂, hhmap₂, hnext₂, hcell₂, hdata₂⟩
      have hy₂ : z₂.store.cell y.val = z.store.cell y.val := by
        rw [hcell₂, if_neg hyr, hy₁]
      refine ⟨{ z₂ with
          store := { z₂.store with cell := Function.update z₂.store.cell y.val none }
          data := Function.update z₂.data y.val none }, ?_, hroot₂.trans hroot₁,
        hhmap₂.trans hhmap₁, hnext₂.trans hnext₁, fun a => ?_, fun a => ?_⟩
      · rw [ptr_node, treeDispose, load_eq hy, ok_bind, hrun₁, ok_bind, load_eq (hy₁.trans hy), ok_bind,
          hrun₂, ok_bind]
        simp only [znodeDel, Store.free, hy₂.trans hy, ok_bind]
      · simp only [vals_node, Function.update_apply, hcell₂, hcell₁, List.mem_append, List.mem_cons]
        -- an address is freed when it is in one of the three parts
        split_ifs <;> tauto
      · simp only [vals_node, Function.update_apply, hdata₂, hdata₁, List.mem_append, List.mem_cons]
        split_ifs <;> tauto

/-- `zset_clear`: every member is freed, once, and nothing else is. -/
theorem zsetClear_spec (h : z.TreeOf t) :
    ∃ z', zsetClear z = .ok z' ∧ z'.root = none ∧
      ∀ a, z'.store.cell a = if a ∈ vals t then none else z.store.cell a := by
  rcases treeDispose_spec (z := { z with hmap := hmClear z.hmap }) (m := z.store.next + 1)
    h.tree.tree h.tree.nodup (Nat.lt_succ_of_le h.tree.numNodes_le) with
    ⟨z', hrun, _, _, _, hcell, _⟩
  refine ⟨{ z' with root := none }, ?_, rfl, hcell⟩
  rw [← h.root] at hrun
  simp only [zsetClear, hrun, ok_bind]

end RedisServer
