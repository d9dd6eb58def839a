import RedisServer.Theory.Protocol.Request
import RedisServer.Theory.Server.Sets
import RedisServer.Theory.Zset.Query

/-!
# The Sorted-Set Commands

What `zadd`, `zrem`, `zscore` and `zquery` do when the set of their key is
sound: they return, they change the set of their key and no other, and their
replies are read off its members. A key that is absent has the shared empty
set, which is sound as well.

## Main definitions

* `setAt`: The set of a key.
* `Keyspace.putSet`: The keyspace with another set at a key.

## Theorems

* `expectZset_total`: What `expect_zset` returns, and writing it back.
* `doZrem_total`, `doZscore_total`, `doZquery_total`: The commands.
-/

namespace RedisServer

open Lib BinaryTree ZSet

/-- The set of a key: the shared empty set when the key is absent, and none
    when it holds a string. -/
def setAt : Option (Entry × Option Nat) → Option ZSet
  | none => some {}
  | some (x, _) => if x.type = .zset then some x.zset else none

/-- The keyspace with another set at a key, if the key is there. -/
def Keyspace.putSet (K : Keyspace) (c : Nat) (k : Bytes) (z : ZSet) : Keyspace :=
  K.set c k ((K c k).map fun v => ({ v.1 with zset := z }, v.2))

section

variable {R : Runtime} {Q : Bytes → Prop} {g g' : GData} {K : Keyspace} {P : Nat → Prop}

/-- What `expect_zset` returns, and what writing a set back does. The shared
    set is written back only as it is. -/
theorem expectZset_total (hinv : Inv R g P) (hK : Views g K) (hs : StoresOk R Q g) {c : Nat}
    {conn : Conn} (hc : g.conns c = some conn) (key : Bytes) :
    (setAt (K c key) = none ∧ ∃ g₁, expectZset R g c key = .ok (g₁, none) ∧
      Moved R g g₁ K K P) ∨
    ∃ z ref g₁, setAt (K c key) = some z ∧ expectZset R g c key = .ok (g₁, some ref) ∧
      getZset g₁ ref = .ok z ∧ Moved R g g₁ K K P ∧
      ∀ z', (z = {} → z' = {}) → ∃ g₂, setZset g₁ z' ref = .ok g₂ ∧
        Moved R g g₂ K (K.putSet c key z') P := by
  rcases expectZset_spec hinv hK hc key with ⟨g₁, hm, hempty, hcases⟩
  rcases hcases with ⟨hnone, hexp⟩ | ⟨x, d, hx, ht, hexp⟩ | ⟨x, e, hx, ht, hexp, hhold⟩
  · refine Or.inr ⟨{}, .empty, g₁, by rw [hnone, setAt], hexp, ?_, hm, fun z' hz' => ?_⟩
    · rw [getZset, hempty, hs.emptyZset]
    · have hself : K.putSet c key z' = K := by
        rw [Keyspace.putSet, hnone, Option.map_none, ← hnone, Keyspace.set_eq_self]
      rw [hself]
      exact ⟨_, rfl, hm.trans (setEmpty_moved hm.inv hm.views z')⟩
  · refine Or.inl ⟨by rw [hx, setAt, if_neg ht], g₁, hexp, hm⟩
  · refine Or.inr ⟨x.zset, .entry e, g₁, by rw [hx, setAt, if_pos ht], hexp, ?_, hm, fun z' _ => ?_⟩
    · rw [getZset, entry_eq hhold.entry, ok_bind]
    · refine ⟨g₁.setEntry e { x with zset := z' }, ?_, ?_⟩
      · rw [setZset, entry_eq hhold.entry, ok_bind]
      have hset := hm.trans (setZset_moved hm.inv hm.views hhold z')
      rw [Keyspace.putSet, hx, Option.map_some]
      exact hset

/-- The reply of `zscore`, when the lookup found `r`. -/
def scoreReply (z : ZSet) (out : Bytes) : Option Nat → Bytes
  | none => outNil out
  | some a => outDbl out (tupleOf z a).1

/-- `zscore` on a sound set. -/
theorem doZscore_total (hinv : Inv R g P) (hK : Views g K) (hs : StoresOk R Q g) {c : Nat}
    {conn : Conn} (hc : g.conns c = some conn) (cmd : List Bytes) (out : Bytes)
    (hsound : ∀ z, setAt (K c (arg cmd 1)) = some z → ∃ t, z.Sound R t) :
    (setAt (K c (arg cmd 1)) = none ∧ ∃ g', doZscore R g c cmd out =
        .ok (g', outErr out errBadTyp (ascii "expect zset")) ∧ Moved R g g' K K P) ∨
    ∃ z m r g', setAt (K c (arg cmd 1)) = some z ∧
      (∀ a, r = some a ↔ ∃ d, z.data a = some d ∧ d.name = arg cmd 2) ∧
      doZscore R g c cmd out = .ok (g', scoreReply z out r) ∧
      Moved R g g' K (K.putSet c (arg cmd 1) { z with hmap := m }) P := by
  rcases expectZset_total hinv hK hs hc (arg cmd 1) with
    ⟨hnone, g₁, hexp, hm⟩ | ⟨z, ref, g₁, hz, hexp, hget, hm, hput⟩
  · refine Or.inl ⟨hnone, g₁, ?_, hm⟩
    rw [doZscore, hexp, ok_bind]
  · rcases hsound z hz with ⟨t, ht⟩
    rcases zsetLookup_spec ht (arg cmd 2) with ⟨m, r, hlook, _, hr⟩
    have hsame : z = {} → ({ z with hmap := m } : ZSet) = {} := fun h =>
      ((zsetLookup_kept (Or.inl ⟨t, ht⟩) hlook).2.1 h).1
    rcases hput { z with hmap := m } hsame with ⟨g₂, hset, hmoved⟩
    refine Or.inr ⟨z, m, r, g₂, hz, hr, ?_, hmoved⟩
    simp only [doZscore, hexp, ok_bind, hget, hlook, hset]
    cases r with
    | none => rfl
    | some a =>
        rcases (hr a).mp rfl with ⟨d, hd, _⟩
        have hnode : ({ z with hmap := m } : ZSet).znode a = .ok d := znode_eq hd
        simp only [hnode, ok_bind, scoreReply, tupleOf, hd]

/-- `zrem` on a sound set. -/
theorem doZrem_total (hinv : Inv R g P) (hK : Views g K) (hs : StoresOk R Q g) {c : Nat}
    {conn : Conn} (hc : g.conns c = some conn) (cmd : List Bytes) (out : Bytes)
    (hsound : ∀ z, setAt (K c (arg cmd 1)) = some z → ∃ t, z.Sound R t) :
    (setAt (K c (arg cmd 1)) = none ∧ ∃ g', doZrem R g c cmd out =
        .ok (g', outErr out errBadTyp (ascii "expect zset")) ∧ Moved R g g' K K P) ∨
    ∃ z z' removed g', setAt (K c (arg cmd 1)) = some z ∧
      doZrem R g c cmd out = .ok (g', outInt out (if removed then 1 else 0)) ∧
      zsetStep R z (.delete (arg cmd 2)) = .ok (z', removed) ∧
      Moved R g g' K (K.putSet c (arg cmd 1) z') P := by
  rcases expectZset_total hinv hK hs hc (arg cmd 1) with
    ⟨hnone, g₁, hexp, hm⟩ | ⟨z, ref, g₁, hz, hexp, hget, hm, hput⟩
  · refine Or.inl ⟨hnone, g₁, ?_, hm⟩
    rw [doZrem, hexp, ok_bind]
  · rcases hsound z hz with ⟨t, ht⟩
    rcases zsetLookup_spec ht (arg cmd 2) with ⟨m, r, hlook, ht', hr⟩
    have hsame := (zsetLookup_kept (Or.inl ⟨t, ht⟩) hlook).2.1
    cases r with
    | none =>
        rcases hput { z with hmap := m } (fun h => (hsame h).1) with ⟨g₂, hset, hmoved⟩
        refine Or.inr ⟨z, { z with hmap := m }, false, g₂, hz, ?_, ?_, hmoved⟩
        · simp only [doZrem, hexp, ok_bind, hget, hlook, hset]
          rfl
        · simp only [zsetStep, hlook, ok_bind]
    | some a =>
        rcases (hr a).mp rfl with ⟨d, hd, _⟩
        rcases ht'.delete (a := a) hd with ⟨z', hdel, _⟩
        -- A member was found, so the set is not the shared one.
        have hmember : z = {} → z' = {} := fun h =>
          absurd (hsame h).2 (by simp only [reduceCtorEq, not_false_eq_true])
        rcases hput z' hmember with ⟨g₂, hset, hmoved⟩
        refine Or.inr ⟨z, z', true, g₂, hz, ?_, ?_, hmoved⟩
        · simp only [doZrem, hexp, ok_bind, hget, hlook, hdel, hset]
          rfl
        · simp only [zsetStep, hlook, ok_bind, hdel]

/-- The reply of `zquery` on a set: an array of tuples. -/
def queryReply (out : Bytes) (l : List (Double × Bytes)) : Bytes :=
  outTuples (outArr out (2 * l.length)) l

/-- The array that is written with a placeholder for its size, and patched. -/
theorem outEndArr_eq (out body : Bytes) (n : Nat) :
    outEndArr ((outBeginArr out).1 ++ body) (outBeginArr out).2 n = .ok (outArr out n ++ body) := by
  have hctx : (outBeginArr out).2 = (out ++ [tagArr]).length := by
    simp only [outBeginArr, List.length_append, List.length_cons, List.length_nil, length_le32]
    omega
  have hbuf : (outBeginArr out).1 ++ body = out ++ [tagArr] ++ (le32 0 ++ body) := by
    rw [outBeginArr, List.append_assoc]
  have htag : (out ++ [tagArr] ++ (le32 0 ++ body))[(out ++ [tagArr]).length - 1]? = some tagArr := by
    rw [List.length_append, List.length_singleton, Nat.add_sub_cancel, List.append_assoc,
      List.getElem?_append_right (Nat.le_refl _), Nat.sub_self]
    rfl
  rw [outEndArr, hctx, hbuf, htag]
  simp only [if_true]
  rw [memcpyAt_append (by rw [List.length_append, length_le32, length_le32]; omega), length_le32,
    List.drop_left' (length_le32 0), outArr]

/-- `zquery` on a sound set with exact counts. -/
theorem doZquery_total (hinv : Inv R g P) (hK : Views g K) (hs : StoresOk R Q g) {c : Nat}
    {conn : Conn} (hc : g.conns c = some conn) (cmd : List Bytes) (out : Bytes)
    {score : Double} {offset limit : Int} (hscore : str2dbl R (arg cmd 2) = some score)
    (hoff : str2int (arg cmd 4) = some offset) (hlim : str2int (arg cmd 5) = some limit)
    (hsound : ∀ z, setAt (K c (arg cmd 1)) = some z → ∃ t, z.Sound R t ∧ Counted t) :
    ∃ g', Moved R g g' K K P ∧
      ((setAt (K c (arg cmd 1)) = none ∧
        doZquery R g c cmd out = .ok (g', outErr out errBadTyp (ascii "expect zset"))) ∨
      ∃ z t, setAt (K c (arg cmd 1)) = some z ∧ z.Sound R t ∧
        ((limit ≤ 0 ∧ doZquery R g c cmd out = .ok (g', outArr out 0)) ∨
        (0 < limit ∧ ∃ start : Option Nat,
          (seek (below z score (arg cmd 3)) t none).map Note.val =
            start.bind (fun i => (vals t)[i]?) ∧ (∀ i ∈ start, i < (vals t).length) ∧
          doZquery R g c cmd out = .ok (g', queryReply out
            ((pageFrom (vals t) start offset limit).map (tupleOf z)))))) := by
  rcases expectZset_total hinv hK hs hc (arg cmd 1) with
    ⟨hnone, g₁, hexp, hm⟩ | ⟨z, ref, g₁, hz, hexp, hget, hm, _⟩
  · refine ⟨g₁, hm, Or.inl ⟨hnone, ?_⟩⟩
    simp only [doZquery, hscore, hoff, hlim, hexp, ok_bind]
  · rcases hsound z hz with ⟨t, ht, hcounted⟩
    refine ⟨g₁, hm, Or.inr ⟨z, t, hz, ht, ?_⟩⟩
    by_cases hl : limit ≤ 0
    · refine Or.inl ⟨hl, ?_⟩
      simp only [doZquery, hscore, hoff, hlim, hexp, ok_bind, if_pos hl]
    · have hpos : 0 < limit := Int.not_le.mp hl
      rcases query_spec ht.treeOf hcounted score (arg cmd 3) offset hpos (outBeginArr out).1 with
        ⟨start, hseek, hlt, node, hge, hmove, hloop⟩
      refine Or.inr ⟨hpos, start, hseek, hlt, ?_⟩
      have hcount : ((2 * ((pageFrom (vals t) start offset limit).length : Int)).toNat) =
          2 * ((pageFrom (vals t) start offset limit).map (tupleOf z)).length := by
        rw [List.length_map]
        omega
      simp only [doZquery, hscore, hoff, hlim, hexp, ok_bind, if_neg hl, hget, hge, hmove, hloop]
      rw [hcount, outTuples_eq, outEndArr_eq, ok_bind, queryReply,
        outTuples_eq (outArr out _)]

end

end RedisServer
