import RedisServer.Theory.Zset.Sorted
import RedisServer.Theory.Zset.TreeRuns

/-!
# A Sorted Set as a Map

A sorted set stands for a map from names to scores when both of its indexes
hold the members of the map, its tree is in order, and the numbers stored in
the tree are right. Its listing is then the one of the map.

An insertion keeps this, with one exception. A new score detaches the node of
the member and inserts it elsewhere, and detaching a node with two children
leaves wrong numbers, as a rule. A score that is equal to the old one is not
written, so where the two have different bits, as the two zeros do, the map
and the set differ.

## Main definitions

* `Scores`: A map from names to scores.
* `ScoresOf`, `ZSet.Ranks`: The set that stands for a map.
* `SafeRescore`: The condition of a new score.

## Theorems

* `Ranks.lists`: The listing of the set is the one of the map.
* `zsetInsert_ranks`: An insertion of a new or an old name.
* `Ranks.lookup`: The score of a name.
-/

namespace RedisServer

open Lib BinaryTree ZSet

/-- A map from names to scores. -/
abbrev Scores := Bytes → Option Double

/-- The nodes of the set hold the names and scores of the map. -/
def ScoresOf (z : ZSet) (m : Scores) : Prop :=
  ∀ name s, m name = some s ↔ ∃ a d, z.data a = some d ∧ d.name = name ∧ d.score = s

/-- The set stands for the map. -/
structure ZSet.Ranks (R : Runtime) (z : ZSet) (t : AvlTree) (m : Scores) : Prop where
  sound : z.Sound R t
  avl : IsAvl t
  sorted : z.Sorted t
  scores : ScoresOf z m

/-- The new score is the old one, or another number. In that case the member's
    node can be detached without leaving wrong numbers. -/
def SafeRescore (z : ZSet) (a : Nat) (d : ZNode) (score : Double) : Prop :=
  if d.score.eq score then d.score = score else KeepsNumbers z (.del a)

variable {R : Runtime} {z z' : ZSet} {t t' : AvlTree} {m : Scores}

theorem ranks_empty (R : Runtime) : ({} : ZSet).Ranks R nil fun _ => none where
  sound := sound_empty R
  avl := ⟨True.intro, True.intro⟩
  sorted := sorted_nil {}
  scores := by
    intro name s
    constructor
    · intro h
      cases h
    · intro h
      rcases h with ⟨a, d, hd, _⟩
      cases hd

/-- The listing of the set is the one of the map. -/
theorem ZSet.Ranks.lists (h : z.Ranks R t m) : Lists ((vals t).map (tupleOf z)) m where
  sorted := by
    rw [List.pairwise_map]
    exact h.sorted.order
  mem := by
    intro s name
    rw [h.scores name s, List.mem_map]
    constructor
    · intro hx
      rcases hx with ⟨a, ha, htuple⟩
      rcases (h.sound.data a).mpr ha with ⟨d, hd⟩
      rw [tupleOf_eq hd, Prod.mk.injEq] at htuple
      exact ⟨a, d, hd, htuple.2, htuple.1⟩
    · intro hx
      rcases hx with ⟨a, d, hd, hname, hscore⟩
      refine ⟨a, (h.sound.data a).mp ⟨d, hd⟩, ?_⟩
      rw [tupleOf_eq hd, hname, hscore]

/-- Another layout of the hashtable stands for the same map. -/
theorem ZSet.Ranks.relaid (h : z.Ranks R t m) {hmap : HMap Nat}
    (hs : ({ z with hmap := hmap } : ZSet).Sound R t) :
    ({ z with hmap := hmap } : ZSet).Ranks R t m :=
  ⟨hs, h.avl, h.sorted.congr rfl fun _ _ => rfl, h.scores⟩

/-- The score of a name. -/
theorem ZSet.Ranks.lookup (h : z.Ranks R t m) {name : Bytes} {r : Option Nat}
    (hr : ∀ a, r = some a ↔ ∃ d, z.data a = some d ∧ d.name = name) :
    m name = r.map fun a => (tupleOf z a).1 := by
  cases r with
  | none =>
      cases hm : m name with
      | none => rfl
      | some s =>
          rcases (h.scores name s).mp hm with ⟨a, d, hd, hname, _⟩
          have hsome := (hr a).mpr ⟨d, hd, hname⟩
          cases hsome
  | some a =>
      rcases (hr a).mp rfl with ⟨d, hd, hname⟩
      rw [Option.map_some, tupleOf_eq hd]
      exact (h.scores name d.score).mpr ⟨a, d, hd, hname, rfl⟩

/-! ## Insertion -/

-- One node is written. No other node has its name.
theorem scoresOf_update (h : ScoresOf z m) {a : Nat} {d : ZNode}
    (hdata : z'.data = Function.update z.data a (some d))
    (hname : ∀ b e, z.data b = some e → e.name = d.name → b = a)
    (hold : ∀ e, z.data a = some e → e.name = d.name) :
    ScoresOf z' (Function.update m d.name (some d.score)) := by
  intro name s
  rw [hdata]
  -- no other node has the name, so the scores of other names are as before
  by_cases hn : name = d.name
  · rw [hn, Function.update_self, Option.some.injEq]
    constructor
    · intro hs
      exact ⟨a, d, Function.update_self _ _ _, rfl, hs⟩
    · intro hx
      rcases hx with ⟨b, e, he, hne, hs⟩
      by_cases hba : b = a
      · rw [hba, Function.update_self, Option.some.injEq] at he
        rw [he]
        exact hs
      · rw [Function.update_of_ne hba] at he
        exact absurd (hname b e he hne) hba
  · rw [Function.update_of_ne hn, h name s]
    constructor
    · intro hx
      rcases hx with ⟨b, e, he, hne, hs⟩
      have hba : b ≠ a := by
        intro hba
        rw [hba] at he
        exact hn (hne.symm.trans (hold e he))
      exact ⟨b, e, (Function.update_of_ne hba _ _).trans he, hne, hs⟩
    · intro hx
      rcases hx with ⟨b, e, he, hne, hs⟩
      by_cases hba : b = a
      · rw [hba, Function.update_self, Option.some.injEq] at he
        rw [← he] at hne
        exact absurd hne.symm hn
      · rw [Function.update_of_ne hba] at he
        exact ⟨b, e, he, hne, hs⟩

/-- `zset_insert` of a new name. -/
theorem zsetInsert_new_ranks (h : z.Ranks R t m) {name : Bytes} {score : Double}
    (hnum : score.isNan = false) (hnew : ∀ a d, z.data a = some d → d.name ≠ name) :
    ∃ z' t', zsetInsert R z name score = .ok (z', true) ∧
      z'.Ranks R t' (Function.update m name (some score)) := by
  rcases zsetInsert_new h.sound score hnew with ⟨z', k, hrun, hsound, hdata, rfl⟩
  have hfresh : z.store.next ∉ vals t := fun hmem => Nat.lt_irrefl _ (h.sound.tree.lt _ hmem)
  have hnone : z.data z.store.next = none := by
    cases hd : z.data z.store.next with
    | none => rfl
    | some d => exact absurd ((h.sound.data _).mp ⟨d, hd⟩) hfresh
  have hall : ∀ b ∈ vals t, ∃ n, z.data b = some n := fun b hb => (h.sound.data b).mpr hb
  have hplace : IsAvl (plug (descend (goesLeft z ⟨R.strHash name, score, name⟩) t []) nil) := by
    rw [plug_descend]
    exact h.avl
  refine ⟨z', _, hrun, hsound, fixUp_leaf_isAvl hplace ⟨z.store.next, 1, 1⟩, ?_, ?_⟩
  · have hself : z'.data z.store.next = some ⟨R.strHash name, score, name⟩ := by
      rw [hdata, Function.update_self]
    refine sorted_fixUp hall h.sorted hself (fun b hb => ?_) hnum fun b hb hplace => ?_
    · rw [hdata, Function.update_of_ne]
      intro hba
      exact hfresh (hba ▸ hb)
    · rcases hall b hb with ⟨n, hn⟩
      rw [tupleOf_eq hn] at hplace
      exact hnew b n hn (place_name hplace)
  · refine scoresOf_update h.scores hdata (fun b e he hne => absurd hne (hnew b e he))
      fun e he => ?_
    rw [hnone] at he
    cases he

/-- `zset_insert` of a member's name. -/
theorem zsetInsert_member_ranks (h : z.Ranks R t m) {a : Nat} {d : ZNode} (hd : z.data a = some d)
    {score : Double} (hnum : score.isNan = false) (hsafe : SafeRescore z a d score) :
    ∃ z' t', zsetInsert R z d.name score = .ok (z', false) ∧
      z'.Ranks R t' (Function.update m d.name (some score)) := by
  rcases zsetInsert_member h.sound hd score with ⟨hmap, hsound, hrun⟩
  have h₁ := h.relaid hsound
  unfold SafeRescore at hsafe
  by_cases heq : d.score.eq score = true
  · -- The score is not written.
    rw [if_pos heq] at hsafe
    rw [zsetUpdate_eq (z := { z with hmap := hmap }) hd heq, ok_bind] at hrun
    have hsame : Function.update m d.name (some score) = m := by
      rw [← hsafe, ← (h.scores d.name d.score).mpr ⟨a, d, hd, rfl, rfl⟩, Function.update_eq_self]
    rw [hsame]
    exact ⟨_, t, hrun, h₁⟩
  · rw [if_neg heq] at hsafe
    rw [Bool.not_eq_true] at heq
    rcases zsetUpdate_spec hsound hd heq with
      ⟨store, t₁, xs, ys, z', hdel, hroot, hsplit, hrest, hup, hdata, hsound'⟩
    rw [hup, ok_bind] at hrun
    have hmem : a ∈ vals t := (h.sound.data a).mp ⟨d, hd⟩
    have hnd := h.sound.tree.nodup
    rw [hsplit, List.nodup_middle, List.nodup_cons, ← hrest] at hnd
    have hsub : (vals t₁).Sublist (vals t) := by
      rw [hrest, hsplit]
      exact List.Sublist.append_left (List.sublist_cons_self a ys) xs
    have hne : ∀ b ∈ vals t₁, b ≠ a := by
      intro b hb hba
      exact hnd.1 (hba ▸ hb)
    have hall : ∀ b ∈ vals t₁, ∃ n, z.data b = some n :=
      fun b hb => (h.sound.data b).mpr (hsub.subset hb)
    have havl : IsAvl t₁ := avlDel_keeps hsound.treeOf h.avl hmem hsafe hdel hroot
    have hplace : IsAvl (plug (descend (goesLeft z { d with score := score }) t₁ []) nil) := by
      rw [plug_descend]
      exact havl
    refine ⟨z', _, hrun, hsound', fixUp_leaf_isAvl hplace ⟨a, 1, 1⟩, ?_, ?_⟩
    · have hself : z'.data a = some { d with score := score } := by
        rw [hdata, Function.update_self]
      refine sorted_fixUp hall (h.sorted.sublist hsub) hself (fun b hb => ?_) hnum fun b hb hp => ?_
      · rw [hdata]
        exact Function.update_of_ne (hne b hb) _ _
      · rcases hall b hb with ⟨n, hn⟩
        rw [tupleOf_eq hn] at hp
        exact hne b hb (h.sound.name b a n d hn hd (place_name hp))
    · refine scoresOf_update (d := { d with score := score }) h.scores hdata
        (fun b e he hname => h.sound.name b a e d he hd hname) fun e he => ?_
      rw [hd, Option.some.injEq] at he
      rw [← he]

/-- `zset_insert`: the map with the name and its score. The result tells
    whether the name is new. -/
theorem zsetInsert_ranks (h : z.Ranks R t m) {name : Bytes} {score : Double}
    (hnum : score.isNan = false)
    (hsafe : ∀ a d, z.data a = some d → d.name = name → SafeRescore z a d score) :
    ∃ z' t', zsetInsert R z name score = .ok (z', decide (m name = none)) ∧
      z'.Ranks R t' (Function.update m name (some score)) := by
  rcases name_cases z name with hnew | ⟨a, d, hd, hname⟩
  · have hnone : m name = none := by
      cases hm : m name with
      | none => rfl
      | some s =>
          rcases (h.scores name s).mp hm with ⟨b, e, he, hne, _⟩
          exact absurd hne (hnew b e he)
    rw [hnone]
    exact zsetInsert_new_ranks h hnum hnew
  · have hsome : m name = some d.score := (h.scores name d.score).mpr ⟨a, d, hd, hname, rfl⟩
    rw [hsome, ← hname]
    exact zsetInsert_member_ranks h hd hnum (hsafe a d hd hname)

end RedisServer
