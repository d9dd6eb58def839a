import RedisServer.Lib.AvlHeight
import RedisServer.Theory.Zset.Kept
import RedisServer.Theory.Zset.TreeRuns

/-!
# The Turns of a Walk

How often the loops over a tree's links turn. A walk down, and a walk up, turns
once for each level it passes, and `avl_offset` walks up and then down. A
balanced tree of `n` nodes has about `2 log n` levels, so this is what keeping
the tree balanced is for: after any run of insertions and removals that keeps
the stored numbers right, no loop turns more often than that.

A loop of the model is told how many turns it may take, one more than there are
addresses. That fewer are enough is said by giving it fewer: it does the same.

## Main definitions

* `TurnsAtMost`: The walks that start at a set's nodes, with a number of turns.

## Theorems

* `seekgeLoop_turns`, `treeDescend_turns`, `leftmost_turns`: Down from a node.
* `avlFixLoop_more`: Up from a node.
* `avlOffsetLoop_more`: Up, and then down.
* `turns_of_run`: The bound after a run.
-/

namespace RedisServer

open Lib BinaryTree ZSet

/-! ## Down -/

section

variable {z : ZSet} {t : AvlTree} {parent : Option Nat} {m n : Nat}

/-- `zset_seekge` turns once for each level, and once to stop. -/
theorem seekgeLoop_turns (score : Double) (name : Bytes) {found : Option Nat}
    (htree : TreeAt z.store parent t) (hm : t.height < m) (hn : t.height < n) :
    seekgeLoop z score name m (ptr t) found = seekgeLoop z score name n (ptr t) found := by
  obtain ⟨m, rfl⟩ := Nat.exists_eq_succ_of_ne_zero (Nat.ne_of_gt (Nat.zero_lt_of_lt hm))
  obtain ⟨n, rfl⟩ := Nat.exists_eq_succ_of_ne_zero (Nat.ne_of_gt (Nat.zero_lt_of_lt hn))
  induction t generalizing parent found m n with
  | nil => rfl
  | node y l r ihl ihr =>
      rcases htree with ⟨hy, hl, hr⟩
      rw [height] at hm hn
      obtain ⟨m, rfl⟩ := Nat.exists_eq_succ_of_ne_zero (by omega : m ≠ 0)
      obtain ⟨n, rfl⟩ := Nat.exists_eq_succ_of_ne_zero (by omega : n ≠ 0)
      rw [ptr_node, seekgeLoop, seekgeLoop, load_eq hy]
      cases zless z y.val score name with
      | error e => rfl
      | ok less =>
          simp only [ok_bind]
          cases less with
          | false => exact ihl hl m (by omega) n (by omega)
          | true => exact ihr hr m (by omega) n (by omega)

/-- So does the descent of `tree_insert`. -/
theorem treeDescend_turns (a : Nat) {above : Option Nat} {side : Bool}
    (htree : TreeAt z.store parent t) (hm : t.height < m) (hn : t.height < n) :
    treeDescend z a m above side (ptr t) = treeDescend z a n above side (ptr t) := by
  obtain ⟨m, rfl⟩ := Nat.exists_eq_succ_of_ne_zero (Nat.ne_of_gt (Nat.zero_lt_of_lt hm))
  obtain ⟨n, rfl⟩ := Nat.exists_eq_succ_of_ne_zero (Nat.ne_of_gt (Nat.zero_lt_of_lt hn))
  induction t generalizing parent above side m n with
  | nil => rfl
  | node y l r ihl ihr =>
      rcases htree with ⟨hy, hl, hr⟩
      rw [height] at hm hn
      obtain ⟨m, rfl⟩ := Nat.exists_eq_succ_of_ne_zero (by omega : m ≠ 0)
      obtain ⟨n, rfl⟩ := Nat.exists_eq_succ_of_ne_zero (by omega : n ≠ 0)
      rw [ptr_node, treeDescend, treeDescend, load_eq hy]
      cases zlessNode z a y.val with
      | error e => rfl
      | ok less =>
          simp only [ok_bind]
          cases less with
          | false => exact ihr hr m (by omega) n (by omega)
          | true => exact ihl hl m (by omega) n (by omega)

end

section

variable {σ : Store} {t : AvlTree} {parent : Option Nat} {m n : Nat}

/-- The walk to the successor turns once for each level. -/
theorem leftmost_turns (hne : t ≠ nil) (htree : TreeAt σ parent t) (hm : t.height ≤ m)
    (hn : t.height ≤ n) : leftmost m σ (ptr t) = leftmost n σ (ptr t) := by
  induction t generalizing parent m n with
  | nil => exact absurd rfl hne
  | node y l r ihl _ =>
      rcases htree with ⟨hy, hl, _⟩
      rw [height] at hm hn
      obtain ⟨m, rfl⟩ := Nat.exists_eq_succ_of_ne_zero (by omega : m ≠ 0)
      obtain ⟨n, rfl⟩ := Nat.exists_eq_succ_of_ne_zero (by omega : n ≠ 0)
      rw [ptr_node, leftmost, leftmost, load_eq hy, ok_bind, ok_bind]
      by_cases hstop : l = nil
      · rw [hstop, ptr_nil, if_neg (fun h => h rfl), if_neg (fun h => h rfl)]
      · have hleft : ptr l ≠ none := fun h => hstop (ptr_eq_none.mp h)
        rw [if_pos hleft, if_pos hleft]
        exact ihl hstop hl (by omega) (by omega)

/-! ## Up -/

/-- A repair that is done is done with more turns, too. -/
theorem avlFixLoop_more {node : Option Nat} {r : Store × Option Nat}
    (h : avlFixLoop m σ node = .ok r) (hle : m ≤ n) : avlFixLoop n σ node = .ok r := by
  induction m generalizing σ node n with
  | zero =>
      rw [avlFixLoop] at h
      cases h
  | succ m ih =>
      obtain ⟨n, rfl⟩ := Nat.exists_eq_succ_of_ne_zero (by omega : n ≠ 0)
      rw [avlFixLoop] at h ⊢
      -- the turn is the same up to the walk it goes on with
      obtain ⟨c, hc, h⟩ := bind_eq_ok.mp h
      obtain ⟨isLeft, hside, h⟩ := bind_eq_ok.mp h
      obtain ⟨σ₁, hupdate, h⟩ := bind_eq_ok.mp h
      obtain ⟨c₁, hc₁, h⟩ := bind_eq_ok.mp h
      obtain ⟨hl, hleft, h⟩ := bind_eq_ok.mp h
      obtain ⟨hr, hright, h⟩ := bind_eq_ok.mp h
      obtain ⟨⟨σ₂, top⟩, hfix, h⟩ := bind_eq_ok.mp h
      simp only [hc, hside, hupdate, hc₁, hleft, hright, hfix, ok_bind] at h ⊢
      by_cases hroot : c.parent = none
      · rw [if_pos hroot] at h ⊢
        exact h
      · rw [if_neg hroot] at h ⊢
        obtain ⟨σ₃, hset, h⟩ := bind_eq_ok.mp h
        rw [hset, ok_bind]
        exact ih h (by omega)

/-! ## Up, and then down -/

/-- A walk by ranks that is done is done with more turns, too. -/
theorem avlOffsetLoop_more {node r : Option Nat} {pos offset : Int}
    (h : avlOffsetLoop m σ node pos offset = .ok r) (hle : m ≤ n) :
    avlOffsetLoop n σ node pos offset = .ok r := by
  induction m generalizing node pos n with
  | zero =>
      rw [avlOffsetLoop] at h
      cases h
  | succ m ih =>
      obtain ⟨n, rfl⟩ := Nat.exists_eq_succ_of_ne_zero (by omega : n ≠ 0)
      have hle' : m ≤ n := by omega
      rw [avlOffsetLoop] at h ⊢
      by_cases hhere : offset = pos
      · rw [if_pos hhere] at h ⊢
        exact h
      · rw [if_neg hhere] at h ⊢
        obtain ⟨c, hc, h⟩ := bind_eq_ok.mp h
        obtain ⟨right, hright, h⟩ := bind_eq_ok.mp h
        simp only [hc, hright, ok_bind]
        cases right with
        | true =>
            obtain ⟨d, hd, h⟩ := bind_eq_ok.mp h
            obtain ⟨size, hsize, h⟩ := bind_eq_ok.mp h
            simp only [hd, hsize, ok_bind]
            exact ih h hle'
        | false =>
            obtain ⟨left, hleft, h⟩ := bind_eq_ok.mp h
            simp only [hleft, ok_bind]
            cases left with
            | true =>
                obtain ⟨d, hd, h⟩ := bind_eq_ok.mp h
                obtain ⟨size, hsize, h⟩ := bind_eq_ok.mp h
                simp only [hd, hsize, ok_bind]
                exact ih h hle'
            | false =>
                simp only [Bool.false_eq_true, if_false] at h ⊢
                by_cases hroot : c.parent = none
                · rw [if_pos hroot] at h ⊢
                  exact h
                · rw [if_neg hroot] at h ⊢
                  obtain ⟨p, hp, h⟩ := bind_eq_ok.mp h
                  simp only [hp, ok_bind]
                  -- the parent is gone to from either side
                  by_cases hside : p.right = node
                  · rw [if_pos hside] at h ⊢
                    obtain ⟨size, hsize, h⟩ := bind_eq_ok.mp h
                    rw [hsize, ok_bind]
                    exact ih h hle'
                  · rw [if_neg hside] at h ⊢
                    obtain ⟨size, hsize, h⟩ := bind_eq_ok.mp h
                    rw [hsize, ok_bind]
                    exact ih h hle'

end

/-! ## After a run -/

/-- Each walk over the links of a set, told to turn at most so often, does what
    it does when it is not: the search, the descent of an insertion, the repair
    from any node up, the walk to the successor, and the walk by ranks, which
    has the double. The node that is inserted is any one that was given its
    data, in a set `z'` that has the tree of `z`. -/
structure TurnsAtMost (z : ZSet) (turns : Nat) : Prop where
  seekge : ∀ score name, ∃ r, seekgeLoop z score name turns z.root none = .ok r ∧
    zsetSeekge z score name = .ok r
  descend : ∀ (z' : ZSet) a d, z'.root = z.root → z.store.next ≤ z'.store.next →
    (∀ b, Reaches z.store b z.root →
      z'.store.cell b = z.store.cell b ∧ ∃ e, z'.data b = some e) → z'.data a = some d →
    ∃ r, treeDescend z' a turns none false z'.root = .ok r ∧
      treeDescend z' a (z'.store.next + 1) none false z'.root = .ok r
  fix : ∀ a, Reaches z.store a z.root → ∃ r, avlFixLoop turns z.store (some a) = .ok r ∧
    avlFix z.store (some a) = .ok r
  successor : ∀ a, Reaches z.store a z.root → ∃ r, leftmost turns z.store (some a) = .ok r ∧
    leftmost (z.store.next + 1) z.store (some a) = .ok r
  offset : ∀ a, Reaches z.store a z.root → ∀ offset, ∃ r,
    avlOffsetLoop (2 * turns) z.store (some a) 0 offset = .ok r ∧
      avlOffset z.store (some a) offset = .ok r

section

variable {z : ZSet} {t : AvlTree} {turns : Nat}

theorem TreeInv.fix_turns (h : TreeInv z t) (hturns : t.height < turns) {a : Nat}
    (ha : Reaches z.store a z.root) : ∃ r, avlFixLoop turns z.store (some a) = .ok r ∧
      avlFix z.store (some a) = .ok r := by
  rcases h.place ha with ⟨k, x, l, r, rfl, rfl⟩
  have hdepth := length_add_height_le k (node x l r)
  have hnodes := length_add_numNodes_le k (node x l r)
  have hnext := h.tree.tree.numNodes_le
  rcases h.tree.tree.place with ⟨htree, hpath⟩
  -- as many turns as there are nodes above, and one for the node itself
  rcases avlFixLoop_spec k (Nat.lt_succ_self k.length)
      (by simp only [ne_eq, reduceCtorEq, not_false_eq_true]) htree hpath h.tree.tree.nodup with
    ⟨σ', hrun, _⟩
  exact ⟨_, avlFixLoop_more hrun (by omega), avlFixLoop_more hrun (by omega)⟩

theorem TreeInv.successor_turns (h : TreeInv z t) (hturns : t.height < turns) {a : Nat}
    (ha : Reaches z.store a z.root) : ∃ r, leftmost turns z.store (some a) = .ok r ∧
      leftmost (z.store.next + 1) z.store (some a) = .ok r := by
  rcases h.place ha with ⟨k, x, l, r, rfl, rfl⟩
  have hdepth := length_add_height_le k (node x l r)
  have hnodes := length_add_numNodes_le k (node x l r)
  have hnext := h.tree.tree.numNodes_le
  have hsub := (node x l r).height_le_numNodes
  rcases h.tree.tree.place with ⟨htree, _⟩
  have hleft : l.numNodes < z.store.next + 1 := by
    rw [numNodes] at hnodes
    omega
  rcases leftmost_spec htree hleft with ⟨_, v, _, _, _, hrun⟩
  refine ⟨some v.val, ?_, hrun⟩
  rw [← hrun]
  exact leftmost_turns (by simp only [ne_eq, reduceCtorEq, not_false_eq_true]) htree (by omega)
    (by omega)

theorem TreeInv.offset_turns (h : TreeInv z t) (hturns : t.height < turns) {a : Nat}
    (ha : Reaches z.store a z.root) (offset : Int) :
    ∃ r, avlOffsetLoop (2 * turns) z.store (some a) 0 offset = .ok r ∧
      avlOffset z.store (some a) offset = .ok r := by
  rcases h.place ha with ⟨k, x, l, r, rfl, rfl⟩
  have hdepth := length_add_height_le k (node x l r)
  have hlevels := two_mul_height_le h.avl.balanced
  have hnodes := h.tree.tree.numNodes_le
  have hpos : 0 < (node x l r).height := Nat.succ_pos _
  rcases h.tree.tree.place with ⟨htree, hpath⟩
  rcases avlOffset_ends 0 offset
    (by simp only [ne_eq, reduceCtorEq, not_false_eq_true]) htree hpath
    (sized_of_exact h.avl.exact) h.tree.tree.nodup (Nat.le_refl _) with ⟨found, hrun⟩
  exact ⟨found, avlOffsetLoop_more hrun (by omega), avlOffsetLoop_more hrun (by omega)⟩

/-- One turn more than the tree has levels. -/
theorem TreeInv.turnsAtMost (h : TreeInv z t) (hturns : t.height < turns) : TurnsAtMost z turns where
  seekge := by
    intro score name
    have hown := zsetSeekge_eq h.tree score name
    refine ⟨_, ?_, hown⟩
    rw [← hown, zsetSeekge, h.tree.root]
    exact seekgeLoop_turns score name h.tree.tree.tree hturns
      (Nat.lt_succ_of_le (Nat.le_trans t.height_le_numNodes h.tree.tree.numNodes_le))
  descend := by
    intro z' a d hroot hnext hkept hd
    have hkept' : ∀ b ∈ vals t, z'.store.cell b = z.store.cell b ∧ ∃ e, z'.data b = some e := by
      intro b hb
      refine hkept b ?_
      rw [h.tree.root, reaches_iff h.tree.tree.tree]
      exact hb
    have htree : TreeAt z'.store none t := h.tree.tree.tree.congr fun b hb => (hkept' b hb).1
    have hnodes := Nat.le_trans h.tree.tree.numNodes_le hnext
    rcases treeDescend_eq (k := []) (s := false) hd htree (fun b hb => (hkept' b hb).2)
      (Nat.lt_succ_of_le hnodes) (fun f hf => by cases hf) with ⟨s, hrun, _⟩
    rw [hroot, h.tree.root]
    refine ⟨_, ?_, hrun⟩
    rw [← hrun]
    exact treeDescend_turns a htree hturns
      (Nat.lt_succ_of_le (Nat.le_trans t.height_le_numNodes hnodes))
  fix := fun _ ha => h.fix_turns hturns ha
  successor := fun _ ha => h.successor_turns hturns ha
  offset := fun _ ha offset => h.offset_turns hturns ha offset

/-- A set has a member for each node of its tree. -/
theorem TreeInv.members (h : TreeInv z t) : ∃ L, z.members = .ok L ∧ L.length = t.numNodes := by
  refine ⟨(vals t).map (tupleOf z), ?_, by rw [List.length_map, length_vals]⟩
  rw [ZSet.members, h.tree.root]
  exact treeMembers_eq h.tree.tree.tree h.tree.data (Nat.lt_succ_of_le h.tree.tree.numNodes_le)

end

/-- Every run of insertions and removals from the empty tree in which the
    removals keep the stored numbers right leaves a set of which every walk
    turns no more often than logarithmically in its members. -/
theorem turns_of_run (R : Runtime) (es : List TreeEvent)
    (hes : Guarded (treeStep R) (fun z e => Present z e ∧ KeepsNumbers z e) {} es) :
    ∃ z us L, run (treeStep R) {} es = .ok (z, us) ∧ z.members = .ok L ∧
      TurnsAtMost z (2 * Nat.log 2 (L.length + 1) + 2) := by
  have hstep : ∀ z e, (∃ t, TreeInv z t) → Present z e ∧ KeepsNumbers z e →
      ∃ z' r, treeStep R z e = .ok (z', r) ∧ ∃ t, TreeInv z' t := by
    intro z e h he
    rcases h with ⟨t, h⟩
    rcases treeStep_inv (R := R) h he.1 he.2 with ⟨z', t', hrun, h'⟩
    exact ⟨z', (), hrun, t', h'⟩
  rcases run_total hstep ⟨nil, treeInv_init⟩ hes with ⟨z, us, hrun, t, h⟩
  rcases h.members with ⟨L, hmembers, hlen⟩
  refine ⟨z, us, L, hrun, hmembers, h.turnsAtMost ?_⟩
  rw [hlen]
  exact Nat.lt_succ_of_le (height_le_log h.avl.balanced)

theorem turns_of_run_two :
    Guarded (treeStep noDoubles) (fun z e => Present z e ∧ KeepsNumbers z e) {}
        [.create [1] ⟨0⟩, .create [2] ⟨0⟩, .del 0] ∧
      ∃ z us L, run (treeStep noDoubles) {} [.create [1] ⟨0⟩, .create [2] ⟨0⟩, .del 0] = .ok (z, us) ∧
        z.members = .ok L ∧ TurnsAtMost z (2 * Nat.log 2 (L.length + 1) + 2) := by
  have hes : Guarded (treeStep noDoubles) (fun z e => Present z e ∧ KeepsNumbers z e) {}
      [.create [1] ⟨0⟩, .create [2] ⟨0⟩, .del 0] :=
    guarded_of_checkRun (fun _ _ => fits_of_delLeaf) rfl
  exact ⟨hes, turns_of_run noDoubles _ hes⟩

end RedisServer
