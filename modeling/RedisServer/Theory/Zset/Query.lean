import RedisServer.Core.Commands
import RedisServer.Lib.Ranks
import RedisServer.Theory.Avl.Offset
import RedisServer.Theory.Zset.Kept

/-!
# Queries

What `do_zquery` does with a set: it seeks a node, moves by an offset, and
walks from there one node at a time. With exact counts the walk is a walk over
the ranks of the tree's listing, whatever order the listing has.

## Main definitions

* `pageFrom`: A part of a list, from an offset to a start.
* `outTuples`: The output of tuples.

## Theorems

* `zqueryLoop_eq`: The output loop from a rank.
* `query_spec`: Seek, move and output.
-/

namespace RedisServer

open Lib BinaryTree ZSet

/-- The elements from `offset` ranks after `start`, one for every two values up
    to `limit`. -/
def pageFrom {α : Type} (l : List α) (start : Option Nat) (offset limit : Int) : List α :=
  match start with
  | none => []
  | some i =>
    if (i : Int) + offset < 0 then []
    else (l.drop ((i : Int) + offset).toNat).take ((limit.toNat + 1) / 2)

/-- The output of a list of tuples. -/
def outTuples (out : Bytes) (l : List (Double × Bytes)) : Bytes :=
  l.foldl (fun out x => outDbl (outStr out x.2) x.1) out

variable {z : ZSet} {t : AvlTree}

theorem outTuples_eq (out : Bytes) (l : List (Double × Bytes)) :
    outTuples out l = out ++ outTuples [] l := by
  induction l generalizing out with
  | nil => exact (List.append_nil out).symm
  | cons x l ih =>
      simp only [outTuples, List.foldl_cons] at ih ⊢
      rw [ih, ih (outDbl (outStr [] x.2) x.1)]
      simp only [outDbl, outStr, List.append_assoc, List.nil_append]

theorem pageFrom_map {α β : Type} (f : α → β) (l : List α) (start : Option Nat)
    (offset limit : Int) :
    pageFrom (l.map f) start offset limit = (pageFrom l start offset limit).map f := by
  cases start with
  | none => rfl
  | some i =>
      rw [pageFrom, pageFrom]
      by_cases h : (i : Int) + offset < 0
      · rw [if_pos h, if_pos h, List.map_nil]
      · rw [if_neg h, if_neg h, List.map_take, List.map_drop]

/-- A node of the tree moves by ranks. -/
theorem znodeOffset_eq (h : Rooted z.store t) (hcounted : Counted t) {i : Int} {a : Nat}
    (ha : atRank (vals t) i = some a) (offset : Int) :
    znodeOffset z (some a) offset = .ok (atRank (vals t) (i + offset)) := by
  have hpos : 0 ≤ i := (drop_eq_cons_of_atRank ha).1
  rw [atRank_of_nonneg _ hpos] at ha
  rw [znodeOffset, avlOffset_spec h hcounted ha, Int.toNat_of_nonneg hpos]

/-- The output loop from a rank: the next tuples, one for every two values that
    are still to be written. -/
theorem zqueryLoop_eq (h : Rooted z.store t) (hdata : ∀ a ∈ vals t, ∃ d, z.data a = some d)
    (hcounted : Counted t) (limit : Int) (fuel : Nat) (i n : Int) (out : Bytes)
    (hfuel : (limit - n).toNat < fuel) :
    zqueryLoop z limit fuel (atRank (vals t) i) n out =
      .ok (n + 2 * (if i < 0 then ([] : List Nat) else ((vals t).drop i.toNat).take
          (((limit - n).toNat + 1) / 2)).length,
        outTuples out ((if i < 0 then [] else ((vals t).drop i.toNat).take
          (((limit - n).toNat + 1) / 2)).map (tupleOf z))) := by
  -- each turn writes one member and counts it as two
  induction fuel generalizing i n out with
  | zero => exact absurd hfuel (Nat.not_lt_zero _)
  | succ fuel ih =>
      cases ha : atRank (vals t) i with
      | none =>
          have hnil : (if i < 0 then ([] : List Nat) else ((vals t).drop i.toNat).take
              (((limit - n).toNat + 1) / 2)) = [] := by
            by_cases hneg : i < 0
            · exact if_pos hneg
            · rw [if_neg hneg, List.drop_eq_nil_of_le, List.take_nil]
              rw [atRank, if_neg hneg, List.getElem?_eq_none_iff] at ha
              exact ha
          rw [hnil, zqueryLoop]
          simp only [List.length_nil, List.map_nil, outTuples, List.foldl_nil, Int.natCast_zero,
            Int.mul_zero, Int.add_zero]
      | some a =>
          rcases drop_eq_cons_of_atRank ha with ⟨hpos, hdrop⟩
          rw [if_neg (Int.not_lt.mpr hpos), hdrop, zqueryLoop]
          by_cases hlt : n < limit
          · rcases hdata a (by
              rw [atRank_of_nonneg _ hpos] at ha
              exact List.mem_of_getElem? ha) with ⟨d, hd⟩
            have htuple : tupleOf z a = (d.score, d.name) := by
              rw [tupleOf, hd]
            have hnext : ((limit - n).toNat + 1) / 2 = ((limit - (n + 2)).toNat + 1) / 2 + 1 := by
              omega
            have hrank : (i + 1).toNat = i.toNat + 1 := by omega
            have hstep := ih (i + 1) (n + 2) (outDbl (outStr out d.name) d.score) (by omega)
            rw [if_neg (by omega), hrank] at hstep
            rw [if_pos hlt, znode_eq hd, ok_bind, znodeOffset_eq h hcounted ha, ok_bind, hstep, hnext,
              List.take_succ_cons, List.map_cons, htuple, List.length_cons]
            simp only [outTuples, List.foldl_cons]
            congr 2
            omega
          · have hzero : ((limit - n).toNat + 1) / 2 = 0 := by omega
            rw [if_neg hlt, hzero, List.take_zero]
            simp only [List.length_nil, List.map_nil, outTuples, List.foldl_nil, Int.natCast_zero,
              Int.mul_zero, Int.add_zero]

/-- The three steps of a query with a positive limit: seek, move and output.
    The output is a page of the tree's listing, from the node the search
    found. -/
theorem query_spec (h : z.TreeOf t) (hcounted : Counted t) (score : Double) (name : Bytes)
    (offset : Int) {limit : Int} (hlimit : 0 < limit) (out : Bytes) :
    ∃ start : Option Nat, (seek (below z score name) t none).map Note.val =
        start.bind (fun i => (vals t)[i]?) ∧ (∀ i ∈ start, i < (vals t).length) ∧
      ∃ node, zsetSeekge z score name = .ok (start.bind fun i => (vals t)[i]?) ∧
        znodeOffset z (start.bind fun i => (vals t)[i]?) offset = .ok node ∧
        zqueryLoop z limit (limit.toNat + 1) node 0 out =
          .ok (2 * (pageFrom (vals t) start offset limit).length,
            outTuples out ((pageFrom (vals t) start offset limit).map (tupleOf z))) := by
  have hdata := h.data
  -- no member is at or after the pair, or the walk starts at one that is
  cases hseek : seek (below z score name) t none with
  | none =>
      refine ⟨none, rfl, fun i hi => absurd hi (by simp only [Option.mem_def, reduceCtorEq,
        not_false_eq_true]), none, ?_, rfl, ?_⟩
      · rw [zsetSeekge_eq h, hseek]
        rfl
      · rw [zqueryLoop, pageFrom]
        rfl
  | some y =>
      have hmem : y.val ∈ vals t := by
        rcases seek_mem hseek with hin | hin
        · exact List.mem_map_of_mem hin
        · cases hin
      rcases List.getElem?_of_mem hmem with ⟨i, hi⟩
      have hbind : (some i).bind (fun i => (vals t)[i]?) = some y.val := hi
      refine ⟨some i, by rw [hbind]; rfl, fun j hj => ?_, atRank (vals t) (i + offset), ?_, ?_, ?_⟩
      · rw [Option.mem_def, Option.some.injEq] at hj
        rw [← hj]
        exact (List.getElem?_eq_some_iff.mp hi).1
      · rw [zsetSeekge_eq h, hseek, hbind]
        rfl
      · rw [hbind, znodeOffset, avlOffset_spec h.tree hcounted hi]
      · rw [zqueryLoop_eq h.tree hdata hcounted limit (limit.toNat + 1) (i + offset) 0 out (by omega),
          pageFrom, Int.sub_zero, Int.zero_add]

end RedisServer
