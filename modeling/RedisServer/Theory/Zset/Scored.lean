import RedisServer.Theory.Zset.Ranked

/-!
# A Sorted Set With Any Counts

What is left of `ZSet.Ranks` when the numbers in the tree are not looked at:
both indexes hold the members of a map, and the tree is in order. Every
insertion keeps this, and so does every deletion that leaves a member. A set
with wrong numbers still answers for its names, and only a query needs more.

A score that is equal to the old one is not written, so of two scores that are
equal the map keeps the first.

## Main definitions

* `Scores.put`: The map after an insertion.
* `ZSet.Scored`: The set that stands for a map, with any counts.

## Theorems

* `Scored.lists`, `Scored.lookup`: The listing, and the score of a name.
* `zsetInsert_scored`, `zsetDelete_scored`: The operations.
* `zrem_scored`: What `do_zrem` calls.
-/

namespace RedisServer

open Lib BinaryTree ZSet

/-- The map after an insertion. -/
def Scores.put (m : Scores) (name : Bytes) (s : Double) : Scores :=
  if (m name).any fun old => old.eq s then m else Function.update m name (some s)

/-- The set stands for the map, and the numbers in its tree may be any. -/
structure ZSet.Scored (R : Runtime) (z : ZSet) (t : AvlTree) (m : Scores) : Prop where
  sound : z.Sound R t
  sorted : z.Sorted t
  scores : ScoresOf z m

variable {R : Runtime} {z z' : ZSet} {t t' : AvlTree} {m : Scores}

theorem ZSet.Ranks.scored (h : z.Ranks R t m) : z.Scored R t m := ⟨h.sound, h.sorted, h.scores⟩

theorem scored_empty (R : Runtime) : ({} : ZSet).Scored R nil fun _ => none :=
  (ranks_empty R).scored

namespace ZSet.Scored

/-- The listing of the set is the one of the map. -/
theorem lists (h : z.Scored R t m) : Lists ((vals t).map (tupleOf z)) m where
  sorted := by
    rw [List.pairwise_map]
    exact h.sorted.order
  mem := by
    intro s name
    rw [h.scores name s, List.mem_map]
    constructor
    · rintro ⟨a, ha, htuple⟩
      rcases (h.sound.data a).mpr ha with ⟨d, hd⟩
      rw [tupleOf_eq hd, Prod.mk.injEq] at htuple
      exact ⟨a, d, hd, htuple.2, htuple.1⟩
    · rintro ⟨a, d, hd, hname, hscore⟩
      refine ⟨a, (h.sound.data a).mp ⟨d, hd⟩, ?_⟩
      rw [tupleOf_eq hd, hname, hscore]

/-- Another layout of the hashtable stands for the same map. -/
theorem relaid (h : z.Scored R t m) {hmap : HMap Nat}
    (hs : ({ z with hmap := hmap } : ZSet).Sound R t) :
    ({ z with hmap := hmap } : ZSet).Scored R t m :=
  ⟨hs, h.sorted.congr rfl fun _ _ => rfl, h.scores⟩

/-- The score of a member. -/
theorem member (h : z.Scored R t m) {a : Nat} {d : ZNode} (hd : z.data a = some d) :
    m d.name = some d.score := (h.scores d.name d.score).mpr ⟨a, d, hd, rfl, rfl⟩

/-- A name that no member has. -/
theorem absent (h : z.Scored R t m) {name : Bytes}
    (hnew : ∀ a d, z.data a = some d → d.name ≠ name) : m name = none := by
  cases hm : m name with
  | none => rfl
  | some s =>
      rcases (h.scores name s).mp hm with ⟨a, d, hd, hname, _⟩
      exact absurd hname (hnew a d hd)

/-- The score a lookup of a name leads to. -/
theorem lookup (h : z.Scored R t m) {name : Bytes} {r : Option Nat}
    (hr : ∀ a, r = some a ↔ ∃ d, z.data a = some d ∧ d.name = name) :
    m name = r.map fun a => (tupleOf z a).1 := by
  cases r with
  | none =>
      refine h.absent fun a d hd hname => ?_
      have hsome := (hr a).mpr ⟨d, hd, hname⟩
      cases hsome
  | some a =>
      rcases (hr a).mp rfl with ⟨d, hd, rfl⟩
      rw [Option.map_some, tupleOf_eq hd]
      exact h.member hd

end ZSet.Scored

/-! ## Insertion -/

theorem zsetInsert_new_scored (h : z.Scored R t m) {name : Bytes} {score : Double}
    (hnum : score.isNan = false) (hnew : ∀ a d, z.data a = some d → d.name ≠ name) :
    ∃ z' t', zsetInsert R z name score = .ok (z', true) ∧ z'.Scored R t' (m.put name score) := by
  rcases zsetInsert_new h.sound score hnew with ⟨z', k, hrun, hsound, hdata, rfl⟩
  have hfresh : z.store.next ∉ vals t := fun hmem => Nat.lt_irrefl _ (h.sound.tree.lt _ hmem)
  have hall : ∀ b ∈ vals t, ∃ n, z.data b = some n := fun b hb => (h.sound.data b).mpr hb
  have hput : m.put name score = Function.update m name (some score) := by
    rw [Scores.put, h.absent hnew]
    rfl
  rw [hput]
  refine ⟨z', _, hrun, hsound, ?_, ?_⟩
  · have hself : z'.data z.store.next = some ⟨R.strHash name, score, name⟩ := by
      rw [hdata, Function.update_self]
    refine sorted_fixUp hall h.sorted hself (fun b hb => ?_) hnum fun b hb hplace => ?_
    · rw [hdata, Function.update_of_ne]
      intro hba
      exact hfresh (hba ▸ hb)
    · rcases hall b hb with ⟨n, hn⟩
      rw [tupleOf_eq hn] at hplace
      exact hnew b n hn (place_name hplace)
  · refine scoresOf_update h.scores hdata (fun b e he hne => absurd hne (hnew b e he))
      fun e he => ?_
    exact absurd ((h.sound.data _).mp ⟨e, he⟩) hfresh

theorem zsetInsert_member_scored (h : z.Scored R t m) {a : Nat} {d : ZNode}
    (hd : z.data a = some d) {score : Double} (hnum : score.isNan = false) :
    ∃ z' t', zsetInsert R z d.name score = .ok (z', false) ∧
      z'.Scored R t' (m.put d.name score) := by
  rcases zsetInsert_member h.sound hd score with ⟨hmap, hsound, hrun⟩
  have h₁ := h.relaid hsound
  rw [Scores.put, h.member hd, Option.any_some]
  by_cases heq : d.score.eq score = true
  -- the score is not written
  · rw [zsetUpdate_eq (z := { z with hmap := hmap }) hd heq, ok_bind] at hrun
    rw [if_pos heq]
    exact ⟨_, t, hrun, h₁⟩
  · rw [if_neg heq]
    rw [Bool.not_eq_true] at heq
    rcases zsetUpdate_spec hsound hd heq with
      ⟨store, t₁, xs, ys, z', _, _, hsplit, hrest, hup, hdata, hsound'⟩
    rw [hup, ok_bind] at hrun
    have hnd := h.sound.tree.nodup
    rw [hsplit, List.nodup_middle, List.nodup_cons, ← hrest] at hnd
    have hsub : (vals t₁).Sublist (vals t) := by
      rw [hrest, hsplit]
      exact List.Sublist.append_left (List.sublist_cons_self a ys) xs
    have hne : ∀ b ∈ vals t₁, b ≠ a := by
      intro b hb hba
      exact hnd.1 (hba ▸ hb)
    have hall : ∀ b ∈ vals t₁, ∃ n, z.data b = some n :=
      fun b hb => (h.sound.data b).mpr (hsub.subset hb)
    refine ⟨z', _, hrun, hsound', ?_, ?_⟩
    · have hself : z'.data a = some { d with score := score } := by
        rw [hdata, Function.update_self]
      refine sorted_fixUp hall (h.sorted.sublist hsub) hself (fun b hb => ?_) hnum fun b hb hp => ?_
      · rw [hdata]
        exact Function.update_of_ne (hne b hb) _ _
      · rcases hall b hb with ⟨n, hn⟩
        rw [tupleOf_eq hn] at hp
        exact hne b hb (h.sound.name b a n d hn hd (place_name hp))
    · refine scoresOf_update (d := { d with score := score }) h.scores hdata
        (fun b e he hname => h.sound.name b a e d he hd hname) fun e he => ?_
      rw [hd, Option.some.injEq] at he
      rw [← he]

/-- `zset_insert`, whatever the numbers in the tree are. -/
theorem zsetInsert_scored (h : z.Scored R t m) (name : Bytes) {score : Double}
    (hnum : score.isNan = false) :
    ∃ z' t', zsetInsert R z name score = .ok (z', decide (m name = none)) ∧
      z'.Scored R t' (m.put name score) := by
  rcases name_cases z name with hnew | ⟨a, d, hd, rfl⟩
  · rw [h.absent hnew]
    exact zsetInsert_new_scored h hnum hnew
  · rw [h.member hd]
    exact zsetInsert_member_scored h hd hnum

/-! ## Deletion -/

-- One node is erased. No other node has its name.
theorem scoresOf_erase (h : z.Scored R t m) {a : Nat} {d : ZNode} (hd : z.data a = some d)
    (hdata : z'.data = Function.update z.data a none) :
    ScoresOf z' (Function.update m d.name none) := by
  intro name s
  rw [hdata]
  by_cases hn : name = d.name
  · rw [hn, Function.update_self]
    refine ⟨fun hs => (by cases hs), ?_⟩
    rintro ⟨b, e, he, hne, _⟩
    by_cases hba : b = a
    · rw [hba, Function.update_self] at he
      cases he
    · rw [Function.update_of_ne hba] at he
      exact absurd (h.sound.name b a e d he hd hne) hba
  · rw [Function.update_of_ne hn, h.scores name s]
    constructor
    · rintro ⟨b, e, he, hne, hs⟩
      have hba : b ≠ a := by
        intro hba
        rw [hba, hd, Option.some.injEq] at he
        exact hn (hne.symm.trans (congrArg ZNode.name he.symm))
      exact ⟨b, e, (Function.update_of_ne hba _ _).trans he, hne, hs⟩
    · rintro ⟨b, e, he, hne, hs⟩
      by_cases hba : b = a
      · rw [hba, Function.update_self] at he
        cases he
      · rw [Function.update_of_ne hba] at he
        exact ⟨b, e, he, hne, hs⟩

/-- `zset_delete` of a member that is not the only one. -/
theorem zsetDelete_scored (h : z.Scored R t m) {a : Nat} {d : ZNode} (hd : z.data a = some d)
    (hmore : ∃ name, name ≠ d.name ∧ m name ≠ none) :
    ∃ z' t', zsetDelete z a = .ok z' ∧ z'.Scored R t' (Function.update m d.name none) := by
  -- another name has a node, and it is another one
  have hone : vals t ≠ [a] := by
    intro hone
    rcases hmore with ⟨name, hne, hsome⟩
    rcases Option.ne_none_iff_exists'.mp hsome with ⟨s, hs⟩
    rcases (h.scores name s).mp hs with ⟨b, e, he, hname, _⟩
    have hb := (h.sound.data b).mp ⟨e, he⟩
    rw [hone, List.mem_singleton] at hb
    rw [hb, hd, Option.some.injEq] at he
    exact hne (hname.symm.trans (congrArg ZNode.name he.symm))
  rcases zsetDelete_run h.sound hd with
    ⟨hmap, n, store, t₁, xs, ys, hrun, _, _, _, hroot, hsplit, hrest, _⟩
  rcases zsetDelete_spec h.sound hd hone with ⟨z', t', hrun', hsound, _, hdata⟩
  have hz := hrun.symm.trans hrun'
  rw [Except.ok.injEq] at hz
  have hnil : t₁ ≠ nil := by
    rw [ne_eq, ← vals_eq_nil, hrest, (erase_of_split hsplit h.sound.tree.nodup).2]
    exact hone
  -- the tree the set is left with is the one the removal leaves
  have hsame : t' = t₁ := by
    have hptr : ptr t₁ = ptr t' := by
      rw [← hsound.root, ← hz, if_neg hnil]
    have htree := hsound.tree
    rw [← hz] at htree
    exact treeAt_unique htree.tree hroot.tree hptr.symm
  rw [hsame] at hsound
  have hsub : (vals t₁).Sublist (vals t) := by
    rw [hrest, hsplit]
    exact List.Sublist.append_left (List.sublist_cons_self a ys) xs
  have hnd := h.sound.tree.nodup
  rw [hsplit, List.nodup_middle, List.nodup_cons, ← hrest] at hnd
  refine ⟨z', t₁, hrun', hsound, ?_, scoresOf_erase h hd hdata⟩
  refine (h.sorted.sublist hsub).congr rfl fun b hb => ?_
  rw [hdata]
  refine Function.update_of_ne (fun hba => ?_) _ _
  exact hnd.1 (hba ▸ hb)

/-- What `do_zrem` calls: a lookup, and a deletion of what it finds. -/
theorem zrem_scored (h : z.Scored R t m) (name : Bytes)
    (hmore : m name ≠ none → ∃ name', name' ≠ name ∧ m name' ≠ none) :
    ∃ z' t', zsetStep R z (.delete name) = .ok (z', (m name).isSome) ∧
      z'.Scored R t' (Function.update m name none) := by
  rcases zsetLookup_spec h.sound name with ⟨hmap, r, hlook, hsound, hr⟩
  have h₁ := h.relaid hsound
  simp only [zsetStep, hlook, ok_bind]
  cases r with
  | none =>
      have hnone : m name = none := h.lookup hr
      rw [hnone, ← hnone, Function.update_eq_self, hnone]
      exact ⟨_, t, rfl, h₁⟩
  | some a =>
      rcases (hr a).mp rfl with ⟨d, hd, rfl⟩
      have hsome := h.member hd
      rw [hsome] at hmore ⊢
      rcases zsetDelete_scored h₁ hd (hmore (Option.some_ne_none _)) with ⟨z', t', hrun, h'⟩
      refine ⟨z', t', ?_, h'⟩
      simp only [hrun, ok_bind, Option.isSome_some]

end RedisServer
