import RedisServer.Core.Events
import RedisServer.Lib.Run
import RedisServer.Theory.Zset.State

/-!
# The Two Indexes

Runs of insertions and deletions on one sorted set. What a user of the set
relies on is stated on the memory itself: the nodes that can be reached from
the root through the links, the nodes the hashtable stores, and the nodes that
are allocated are the same.

It holds as long as no deletion hits the only member. That deletion leaves the
root pointing to the freed node, and the next access follows it.

## Main definitions

* `ZEvent`, `zsetStep`: Insertions, and deletions of what a lookup finds.
* `Reaches`: Reachability through the links.
* `TwoIndexes`: Both indexes hold the allocated nodes.
* `NeverFaults`: What the calls on a set may be relied on for.
* `KeepsOne`: The event does not delete the only member.

## Theorems

* `zsetStep_sound`: One event.
* `zset_indexes_of_run`: Every run whose events keep one member.
-/

namespace RedisServer

open Lib ZSet

/-- A call on a sorted set. -/
inductive ZEvent
  | insert (name : Bytes) (score : Double)
  | delete (name : Bytes)
  deriving DecidableEq, Repr

/-- One call. A deletion is of the member a lookup finds, as in `do_zrem`. -/
def zsetStep (R : Runtime) (z : ZSet) : ZEvent → Result (ZSet × Bool)
  | .insert name score => zsetInsert R z name score
  | .delete name => do
    let (z, found) ← zsetLookup R z name
    match found with
    | none => .ok (z, false)
    | some node => do
      let z ← zsetDelete z node
      .ok (z, true)

/-- The node at `a` can be reached from a pointer through `left` and
    `right`. -/
inductive Reaches (σ : Store) (a : Nat) : Option Nat → Prop
  | here : Reaches σ a (some a)
  | left {b : Nat} {n : AVLNode} (hb : σ.cell b = some n) (h : Reaches σ a n.left) :
      Reaches σ a (some b)
  | right {b : Nat} {n : AVLNode} (hb : σ.cell b = some n) (h : Reaches σ a n.right) :
      Reaches σ a (some b)

/-- The nodes below the root are those the hashtable stores, all of them are
    allocated, and the root is `NULL` exactly when there are none. -/
structure TwoIndexes (z : ZSet) : Prop where
  same : ∀ a, Reaches z.store a z.root ↔ ∃ n ∈ z.hmap.nodes, n.payload = a
  allocated : ∀ n ∈ z.hmap.nodes, ∃ cell, z.store.cell n.payload = some cell
  root : z.root = none ↔ z.hmap.nodes = []

/-- No access of a lookup, an insertion or a search leaves the allocated
    nodes, and clearing the set frees every member once and nothing else. -/
structure NeverFaults (R : Runtime) (z : ZSet) : Prop where
  lookup : ∀ name, ∃ x, zsetLookup R z name = .ok x
  insert : ∀ name score, ∃ x, zsetInsert R z name score = .ok x
  seekge : ∀ score name, ∃ x, zsetSeekge z score name = .ok x
  clear : ∃ z', zsetClear z = .ok z' ∧ z'.root = none ∧
    ∀ a, z'.store.cell a = if a ∈ z.hmap.nodes.map HNode.payload then none else z.store.cell a

/-- The event does not delete the only member. -/
def KeepsOne (z : ZSet) : ZEvent → Prop
  | .insert _ _ => True
  | .delete name => hmSize z.hmap = 1 → ∀ a d, z.data a = some d → d.name ≠ name

variable {R : Runtime} {z : ZSet} {t : AvlTree}

/-! ## What soundness means in memory -/

/-- The nodes reached from the root of a tree are the nodes of the tree. -/
theorem reaches_iff {σ : Store} {parent : Option Nat} {t : AvlTree} (h : TreeAt σ parent t)
    (a : Nat) : Reaches σ a (ptr t) ↔ a ∈ vals t := by
  induction t generalizing parent with
  | nil =>
      refine ⟨fun hr => ?_, fun ha => absurd ha List.not_mem_nil⟩
      rw [ptr_nil] at hr
      cases hr
  | node x l r ihl ihr =>
      rcases h with ⟨hx, hl, hr⟩
      rw [vals_node, List.mem_append, List.mem_cons, ← ihl hl, ← ihr hr, ptr_node]
      constructor
      · intro hreach
        -- a path from the node starts there or goes on in one of the subtrees
        cases hreach with
        | here => exact Or.inr (Or.inl rfl)
        | left hb h =>
            rw [hx, Option.some.injEq] at hb
            rw [← hb] at h
            exact Or.inl h
        | right hb h =>
            rw [hx, Option.some.injEq] at hb
            rw [← hb] at h
            exact Or.inr (Or.inr h)
      · rintro (h | rfl | h)
        · exact Reaches.left hx h
        · exact Reaches.here
        · exact Reaches.right hx h

theorem twoIndexes_of_sound (h : z.Sound R t) : TwoIndexes z where
  same := by
    intro a
    rw [h.root, reaches_iff h.tree.tree, ← h.both.mem_iff, List.mem_map]
  allocated := fun n hn => h.tree.tree.allocated (h.payload_mem hn)
  root := by
    rw [h.root, ptr_eq_none, ← vals_eq_nil, ← List.length_eq_zero_iff, ← h.both.length_eq,
      List.length_map, List.length_eq_zero_iff]

/-- A name that is not a member, or the member with it. -/
theorem name_cases (z : ZSet) (name : Bytes) :
    (∀ a d, z.data a = some d → d.name ≠ name) ∨ ∃ a d, z.data a = some d ∧ d.name = name := by
  by_cases h : ∃ a d, z.data a = some d ∧ d.name = name
  · exact Or.inr h
  · refine Or.inl fun a d hd hname => h ⟨a, d, hd, hname⟩

/-- `zset_insert` of a member's name is an update of the member. -/
theorem zsetInsert_member (h : z.Sound R t) {a : Nat} {d : ZNode} (hd : z.data a = some d)
    (score : Double) :
    ∃ m, ({ z with hmap := m } : ZSet).Sound R t ∧ zsetInsert R z d.name score = (do
      let z' ← zsetUpdate { z with hmap := m } a score
      .ok (z', false)) := by
  rcases zsetLookup_spec h d.name with ⟨m, r, hlook, h₁, hr⟩
  have hsome := (hr a).mpr ⟨d, hd, rfl⟩
  refine ⟨m, h₁, ?_⟩
  rw [zsetInsert, hlook, ok_bind]
  simp only [hsome]

theorem zsetInsert_sound (h : z.Sound R t) (name : Bytes) (score : Double) :
    ∃ z' r t', zsetInsert R z name score = .ok (z', r) ∧ z'.Sound R t' := by
  rcases name_cases z name with hnew | ⟨a, d, hd, rfl⟩
  · rcases zsetInsert_new h score hnew with ⟨z', k, hrun, h', _, _⟩
    exact ⟨z', true, _, hrun, h'⟩
  · rcases zsetInsert_member h hd score with ⟨m, h₁, hrun⟩
    by_cases hne : d.score.eq score = true
    · rw [zsetUpdate_eq (z := { z with hmap := m }) hd hne, ok_bind] at hrun
      exact ⟨_, false, t, hrun, h₁⟩
    · rw [Bool.not_eq_true] at hne
      rcases zsetUpdate_spec h₁ hd hne with ⟨_, _, _, _, z', _, _, _, _, hup, _, h'⟩
      rw [hup, ok_bind] at hrun
      exact ⟨z', false, _, hrun, h'⟩

theorem neverFaults_of_sound (h : z.Sound R t) : NeverFaults R z where
  lookup := by
    intro name
    rcases zsetLookup_spec h name with ⟨m, r, hrun, _⟩
    exact ⟨_, hrun⟩
  insert := by
    intro name score
    rcases zsetInsert_sound h name score with ⟨z', r, _, hrun, _⟩
    exact ⟨_, hrun⟩
  seekge := fun score name => ⟨_, zsetSeekge_eq h.treeOf score name⟩
  clear := by
    rcases zsetClear_spec h.treeOf with ⟨z', hrun, hroot, hcell⟩
    refine ⟨z', hrun, hroot, fun a => ?_⟩
    simp only [hcell, h.both.mem_iff]

/-! ## Runs -/

/-- One event that keeps a member. -/
theorem zsetStep_sound (h : z.Sound R t) {e : ZEvent} (he : KeepsOne z e) :
    ∃ z' r t', zsetStep R z e = .ok (z', r) ∧ z'.Sound R t' := by
  cases e with
  | insert name score => exact zsetInsert_sound h name score
  | delete name =>
      rcases zsetLookup_spec h name with ⟨m, r, hlook, h₁, hr⟩
      cases r with
      | none =>
          refine ⟨_, false, t, ?_, h₁⟩
          rw [zsetStep, hlook]
          rfl
      | some a =>
          rcases (hr a).mp rfl with ⟨d, hd, hname⟩
          have hmore : vals t ≠ [a] := by
            intro hone
            refine he ?_ a d hd hname
            rw [h.hmSize_eq, hone]
            rfl
          rcases zsetDelete_spec h₁ hd hmore with ⟨z', t', hdel, h', _, _⟩
          refine ⟨z', true, t', ?_, h'⟩
          rw [zsetStep, hlook, ok_bind]
          simp only [hdel, ok_bind]

/-- Every run of insertions and deletions from the empty set in which no
    deletion hits the only member leaves the two indexes with the same
    allocated nodes, and no later call faults. -/
theorem zset_indexes_of_run (R : Runtime) (es : List ZEvent)
    (hkept : Guarded (zsetStep R) KeepsOne {} es) :
    ∃ z rs, run (zsetStep R) {} es = .ok (z, rs) ∧ TwoIndexes z ∧ NeverFaults R z := by
  have hstep : ∀ z e, (∃ t, ZSet.Sound R z t) → KeepsOne z e →
      ∃ z' r, zsetStep R z e = .ok (z', r) ∧ ∃ t, ZSet.Sound R z' t := by
    rintro z e ⟨t, h⟩ he
    rcases zsetStep_sound h he with ⟨z', r, t', hrun, h'⟩
    exact ⟨z', r, hrun, t', h'⟩
  rcases run_total hstep ⟨.nil, sound_empty R⟩ hkept with ⟨z, rs, hrun, t, h⟩
  exact ⟨z, rs, hrun, twoIndexes_of_sound h, neverFaults_of_sound h⟩

/-- A test for runs: a deletion finds several members, or none. -/
def manyMembers (z : ZSet) : ZEvent → Bool
  | .insert _ _ => true
  | .delete _ => decide (hmSize z.hmap ≠ 1)

theorem keepsOne_of_many {e : ZEvent} (h : manyMembers z e = true) : KeepsOne z e := by
  cases e with
  | insert name score => exact True.intro
  | delete name => exact fun hone => absurd hone (of_decide_eq_true h)

/-- Two members, one of which is deleted. -/
theorem zset_indexes_of_run_two :
    Guarded (zsetStep noDoubles) KeepsOne {}
        [.insert [97] ⟨0⟩, .insert [98] ⟨0⟩, .delete [97]] ∧
      ∃ z rs, run (zsetStep noDoubles) {}
          [.insert [97] ⟨0⟩, .insert [98] ⟨0⟩, .delete [97]] = .ok (z, rs) ∧
        TwoIndexes z ∧ NeverFaults noDoubles z := by
  have hkept : Guarded (zsetStep noDoubles) KeepsOne {}
      [.insert [97] ⟨0⟩, .insert [98] ⟨0⟩, .delete [97]] :=
    guarded_of_checkRun (fun _ _ => keepsOne_of_many) rfl
  exact ⟨hkept, zset_indexes_of_run noDoubles _ hkept⟩

/-- Deleting the only member leaves the root pointing to the freed node, and
    the next insertion follows it. -/
theorem zset_root_stale :
    ∃ z rs, run (zsetStep noDoubles) {} [.insert [97] ⟨0⟩, .delete [97]] = .ok (z, rs) ∧
      ¬ TwoIndexes z ∧ zsetInsert noDoubles z [98] ⟨0⟩ = .error .freedNode := by
  have hok : (run (zsetStep noDoubles) {} [.insert [97] ⟨0⟩, .delete [97]]).isOk = true := rfl
  rcases exists_of_isOk hok with ⟨z, rs, hrun⟩
  have hroot : (run (zsetStep noDoubles) {} [.insert [97] ⟨0⟩, .delete [97]]).map
      (fun x => (x.1.root, x.1.hmap.nodes)) = .ok (some 0, []) := rfl
  have hfault : (run (zsetStep noDoubles) {} [.insert [97] ⟨0⟩, .delete [97]] >>=
      fun x => zsetInsert noDoubles x.1 [98] ⟨0⟩) = .error .freedNode := rfl
  rw [hrun] at hroot hfault
  rw [Except.map, Except.ok.injEq, Prod.mk.injEq] at hroot
  refine ⟨z, rs, hrun, fun h => ?_, hfault⟩
  have hnone := h.root.mpr hroot.2
  rw [hroot.1] at hnone
  cases hnone

end RedisServer
