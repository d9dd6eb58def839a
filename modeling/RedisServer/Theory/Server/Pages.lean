import RedisServer.Theory.Server.SetCommands
import RedisServer.Theory.Zset.Sorted

/-!
# Pages of a Sorted Set

The reply of `zquery` on any set whose tree is sorted, has consistent links
and stores the sizes of its subtrees: one array with a part of the listing.

The header of the array has 32 bits. It counts the values modulo `2 ^ 32`,
which is their number as long as fewer than `2 ^ 31` members are listed.

## Main definitions

* `FirstAt`: The rank of the first tuple that is not before a tuple.
* `IsPage`: The part of a listing that a query asks for.
* `arrCount`: The count in the header of an array.
* `chainSet`: A set of any size, each node the right child of the one before.

## Theorems

* `page_isPage`: A page in numbers.
* `doZquery_reply`: What `do_zquery` appends.
* `zquery_page`: The reply is a page and its header.
* `zquery_header_wraps`: A page of `2 ^ 31` members.
-/

namespace RedisServer

open Lib BinaryTree ZSet

/-- The rank of the first tuple of a listing that is not before a tuple. -/
def FirstAt (L : List (Double × Bytes)) (x : Double × Bytes) (i : Nat) : Prop :=
  (∃ y, L[i]? = some y ∧ place x ≤ place y) ∧
    ∀ j < i, ∀ y, L[j]? = some y → place y < place x

/-- The part of a listing that a query asks for: consecutive tuples from
    `offset` ranks after the first one that is not before `x`, one for every
    two values up to `limit`, fewer at the end of the listing, and none from a
    rank that is not in it. -/
structure IsPage (L : List (Double × Bytes)) (x : Double × Bytes) (offset limit : Int)
    (P : List (Double × Bytes)) : Prop where
  no_limit : limit ≤ 0 → P = []
  no_tuple : (∀ y ∈ L, place y < place x) → P = []
  no_rank : ∀ i : Nat, FirstAt L x i → i + offset < 0 ∨ L.length ≤ i + offset → P = []
  length : ∀ i start : Nat, FirstAt L x i → (start : Int) = i + offset → start < L.length →
    0 < limit → P.length = min ((limit.toNat + 1) / 2) (L.length - start)
  consecutive : ∀ i start : Nat, FirstAt L x i → (start : Int) = i + offset →
    ∀ j < P.length, P[j]? = L[start + j]?

/-- The count in the header of an array that was appended to `out`. -/
def arrCount (out reply : Bytes) : Nat := leNat ((reply.drop (out.length + 1)).take 4)

variable {R : Runtime} {z : ZSet} {t : AvlTree} {L : List (Double × Bytes)} {x : Double × Bytes}

theorem firstAt_iff {i : Nat} :
    FirstAt L x i ↔ L.findIdx? (fun y => decide (place x ≤ place y)) = some i := by
  rw [List.findIdx?_eq_some_iff_getElem, FirstAt]
  constructor
  · intro h
    rcases h with ⟨⟨y, hy, hle⟩, hbefore⟩
    rcases List.getElem?_eq_some_iff.mp hy with ⟨hi, rfl⟩
    refine ⟨hi, decide_eq_true hle, fun j hj => ?_⟩
    have hlt := hbefore j hj _ (List.getElem?_eq_getElem (hj.trans hi))
    rw [Bool.not_eq_true, decide_eq_false_iff_not, not_le]
    exact hlt
  · intro h
    rcases h with ⟨hi, hle, hbefore⟩
    refine ⟨⟨L[i], List.getElem?_eq_getElem hi, of_decide_eq_true hle⟩, fun j hj y hy => ?_⟩
    rcases List.getElem?_eq_some_iff.mp hy with ⟨hlt, rfl⟩
    have hnot := hbefore j hj
    rw [Bool.not_eq_true, decide_eq_false_iff_not, not_le] at hnot
    exact hnot

/-- A page in numbers. -/
theorem page_isPage (L : List (Double × Bytes)) (x : Double × Bytes) (offset limit : Int) :
    IsPage L x offset limit (page L x offset limit) where
  no_limit := fun h => if_pos h
  no_tuple := by
    intro h
    have hnone : L.findIdx? (fun y => decide (place x ≤ place y)) = none := by
      rw [List.findIdx?_eq_none_iff]
      intro y hy
      rw [decide_eq_false_iff_not, not_le]
      exact h y hy
    rw [page, hnone, ite_self]
  no_rank := by
    intro i hi hout
    rw [page, firstAt_iff.mp hi]
    by_cases hlimit : limit ≤ 0
    · rw [if_pos hlimit]
    · rw [if_neg hlimit]
      by_cases hneg : (i : Int) + offset < 0
      · exact if_pos hneg
      · have hge : L.length ≤ ((i : Int) + offset).toNat := by omega
        simp only [if_neg hneg, List.drop_eq_nil_of_le hge, List.take_nil]
  length := by
    intro i start hi hstart hlt hlimit
    rw [page, firstAt_iff.mp hi, if_neg (Int.not_le.mpr hlimit)]
    simp only [← hstart, Int.toNat_natCast, if_neg (Int.not_lt.mpr (Int.natCast_nonneg start)),
      List.length_take, List.length_drop]
  consecutive := by
    intro i start hi hstart j hj
    rw [page, firstAt_iff.mp hi] at hj ⊢
    by_cases hlimit : limit ≤ 0
    · rw [if_pos hlimit] at hj
      exact absurd hj (Nat.not_lt_zero j)
    · rw [if_neg hlimit] at hj ⊢
      simp only [← hstart, Int.toNat_natCast, if_neg (Int.not_lt.mpr (Int.natCast_nonneg start)),
        List.length_take, List.length_drop, Nat.lt_min] at hj ⊢
      rw [List.getElem?_take_of_lt hj.1, List.getElem?_drop]

/-- A page of a listing in order is in order. -/
theorem page_sorted (hL : L.Pairwise fun x y => place x < place y) (x : Double × Bytes)
    (offset limit : Int) : (page L x offset limit).Pairwise fun x y => place x < place y := by
  unfold page
  by_cases hlimit : limit ≤ 0
  · rw [if_pos hlimit]
    exact List.Pairwise.nil
  · rw [if_neg hlimit]
    cases L.findIdx? fun y => decide (place x ≤ place y) with
    | none => exact List.Pairwise.nil
    | some i =>
        by_cases hneg : (i : Int) + offset < 0
        · simp only [if_pos hneg]
          exact List.Pairwise.nil
        · simp only [if_neg hneg]
          exact hL.sublist ((List.take_sublist _ _).trans (List.drop_sublist _ _))

/-! ## The reply -/

-- An argument that reads as a `NaN` is refused.
theorem str2dbl_number {s : Bytes} {v : Double} (h : str2dbl R s = some v) : v.isNan = false := by
  unfold str2dbl at h
  by_cases hnum : (R.strtod s).2 = s.length ∧ ¬ (R.strtod s).1.isNan
  · simp only [if_pos hnum, Option.some.injEq] at h
    rw [← h]
    exact Bool.eq_false_of_not_eq_true hnum.2
  · simp only [if_neg hnum, reduceCtorEq] at h

-- The rank of the node that the search finds.
theorem findIdx_tuples (z : ZSet) (l : List Nat) (x : Double × Bytes) :
    (l.map (tupleOf z)).findIdx? (fun y => decide (place x ≤ place y)) =
      l.findIdx? fun a => decide (place x ≤ place (tupleOf z a)) := by
  rw [List.findIdx?_map]
  rfl

theorem page_tuples (z : ZSet) (l : List Nat) (x : Double × Bytes) (offset : Int) {limit : Int}
    (hlimit : 0 < limit) :
    page (l.map (tupleOf z)) x offset limit =
      (pageFrom l (l.findIdx? fun a => decide (place x ≤ place (tupleOf z a))) offset limit).map
        (tupleOf z) := by
  rw [page, if_neg (Int.not_le.mpr hlimit), findIdx_tuples, ← pageFrom_map]
  cases l.findIdx? fun a => decide (place x ≤ place (tupleOf z a)) with
  | none => rfl
  | some i => rfl

-- No node is listed twice, so a node has one rank.
theorem rank_unique {l : List Nat} (hnodup : l.Nodup) {s s' : Option Nat}
    (hs : ∀ i ∈ s, i < l.length) (hs' : ∀ i ∈ s', i < l.length)
    (h : (s.bind fun i => l[i]?) = s'.bind fun i => l[i]?) : s = s' := by
  cases s with
  | none =>
      cases s' with
      | none => rfl
      | some j =>
          rw [Option.bind_none, Option.bind_some, eq_comm, List.getElem?_eq_none_iff] at h
          exact absurd (hs' j rfl) (Nat.not_lt.mpr h)
  | some i =>
      have hi := hs i rfl
      cases s' with
      | none =>
          rw [Option.bind_none, Option.bind_some, List.getElem?_eq_none_iff] at h
          exact absurd hi (Nat.not_lt.mpr h)
      | some j =>
          rw [Option.bind_some, Option.bind_some] at h
          rw [(List.getElem?_inj hi hnodup).mp h]

/-- What `do_zquery` appends: a page of the tree's listing. -/
theorem doZquery_reply {g g' : GData} {c : Nat} {cmd : List Bytes} {ref : ZRef} (out : Bytes)
    {score : Double} {offset limit : Int} (hscore : str2dbl R (arg cmd 2) = some score)
    (hoff : str2int (arg cmd 4) = some offset) (hlim : str2int (arg cmd 5) = some limit)
    (hexp : expectZset R g c (arg cmd 1) = .ok (g', some ref)) (hget : getZset g' ref = .ok z)
    (h : z.TreeOf t) (hs : z.Sorted t) (hcounted : Counted t) :
    doZquery R g c cmd out = .ok (g', queryReply out
      (page ((vals t).map (tupleOf z)) (score, arg cmd 3) offset limit)) := by
  by_cases hl : limit ≤ 0
  · simp only [doZquery, hscore, hoff, hlim, hexp, ok_bind, if_pos hl]
    rw [page, if_pos hl]
    rfl
  · have hpos : 0 < limit := Int.not_le.mp hl
    rcases query_spec h hcounted score (arg cmd 3) offset hpos (outBeginArr out).1 with
      ⟨start, -, hlt, a, hge, hmove, hloop⟩
    -- the seek answers the first member whose place is not before the one sought
    have hfirst := zsetSeekge_sorted h hs (str2dbl_number hscore) (arg cmd 3)
    -- so the rank it starts from is the index of the first such tuple in the list
    have hstart : start = (vals t).findIdx? fun a =>
        decide (place (score, arg cmd 3) ≤ place (tupleOf z a)) := by
      refine rank_unique h.tree.nodup hlt (fun i hi => ?_) ?_
      · exact (List.findIdx?_eq_some_iff_getElem.mp hi).1
      · rw [hge, Except.ok.injEq, List.find?_eq_bind_findIdx?_getElem?] at hfirst
        exact hfirst
    have hcount : ((2 * ((pageFrom (vals t) start offset limit).length : Int)).toNat) =
        2 * ((pageFrom (vals t) start offset limit).map (tupleOf z)).length := by
      rw [List.length_map]
      omega
    rw [page_tuples z _ _ offset hpos, ← hstart]
    simp only [doZquery, hscore, hoff, hlim, hexp, ok_bind, if_neg hl, hget, hge, hmove, hloop]
    rw [hcount, outTuples_eq, outEndArr_eq, ok_bind, queryReply, outTuples_eq (outArr out _)]

theorem arrCount_queryReply (out : Bytes) (P : List (Double × Bytes)) :
    arrCount out (queryReply out P) = 2 * P.length % 2 ^ 32 := by
  have hhead : (out ++ [tagArr]).length = out.length + 1 := List.length_append
  rw [arrCount, queryReply, outTuples_eq, outArr, List.append_assoc, ← hhead,
    List.drop_left, List.take_left' (length_le32 _), le32, leNat_leBytes]
  rfl

/-! ## Sets of any size -/

/-- A set of `n` members, each the right child of the one before. Their scores
    are the `n` least floating-point numbers that are not negative, and their
    names have four bytes. -/
def chainSet (n : Nat) : ZSet where
  root := if n = 0 then none else some 0
  store :=
    { cell := fun a =>
        if a < n then
          some ⟨if a = 0 then none else some (a - 1), none,
            if n - (a + 1) = 0 then none else some (a + 1), n - a, n - a⟩
        else none
      next := n }
  data := fun a => if a < n then some ⟨0, ⟨UInt64.ofNat a⟩, le32 a⟩ else none

/-- The last `m` nodes of the tree of `chainSet`, the first of them at `a`. -/
def chainTree : Nat → Nat → AvlTree
  | _, 0 => nil
  | a, m + 1 => node ⟨a, m + 1, m + 1⟩ nil (chainTree (a + 1) m)

theorem vals_chainTree (a m : Nat) : vals (chainTree a m) = List.range' a m := by
  induction m generalizing a with
  | zero => rfl
  | succ m ih =>
      have hrest := ih (a + 1)
      unfold vals at hrest ⊢
      rw [chainTree, inorder, List.map_append, List.map_cons, hrest]
      rfl

theorem numNodes_chainTree (a m : Nat) : (chainTree a m).numNodes = m := by
  rw [← length_vals, vals_chainTree, List.length_range']

theorem ptr_chainTree (a m : Nat) : ptr (chainTree a m) = if m = 0 then none else some a := by
  cases m with
  | zero => rfl
  | succ m => rfl

theorem counted_chainTree (a : Nat) {m : Nat} (hm : m < 2 ^ 32) : Counted (chainTree a m) := by
  induction m generalizing a with
  | zero => exact True.intro
  | succ m ih =>
      refine ⟨⟨?_, hm⟩, True.intro, ih (a + 1) (by omega)⟩
      rw [numNodes_chainTree]
      simp only [numNodes]
      omega

theorem treeAt_chainTree {n : Nat} (a m : Nat) (h : a + m = n) :
    TreeAt (chainSet n).store (if a = 0 then none else some (a - 1)) (chainTree a m) := by
  induction m generalizing a with
  | zero => exact True.intro
  | succ m ih =>
      have hrest := ih (a + 1) (by omega)
      rw [if_neg (Nat.succ_ne_zero a), Nat.add_sub_cancel] at hrest
      refine ⟨?_, True.intro, hrest⟩
      have hlt : a < n := by omega
      have hleft : n - (a + 1) = m := by omega
      have hsize : n - a = m + 1 := by omega
      simp only [chainSet, if_pos hlt, hleft, hsize, ptr_nil, ptr_chainTree]

theorem chainSet_treeOf (n : Nat) : (chainSet n).TreeOf (chainTree 0 n) where
  root := (ptr_chainTree 0 n).symm
  tree :=
    { tree := treeAt_chainTree 0 n (Nat.zero_add n)
      nodup := by
        rw [vals_chainTree]
        exact List.nodup_range'
      lt := by
        intro a ha
        rw [vals_chainTree, List.mem_range'_1] at ha
        exact Nat.zero_add n ▸ ha.2 }
  data := by
    intro a ha
    rw [vals_chainTree, List.mem_range'_1] at ha
    exact ⟨_, if_pos (Nat.zero_add n ▸ ha.2)⟩

theorem chainSet_tuple {n a : Nat} (h : a < n) :
    tupleOf (chainSet n) a = (⟨UInt64.ofNat a⟩, le32 a) := by
  have hd : (chainSet n).data a = some ⟨0, ⟨UInt64.ofNat a⟩, le32 a⟩ := if_pos h
  exact tupleOf_eq hd

-- A small bit pattern is the number itself.
theorem key_ofNat {a : Nat} (h : a < 2 ^ 62) :
    (⟨UInt64.ofNat a⟩ : Double).key = a ∧ (⟨UInt64.ofNat a⟩ : Double).isNan = false := by
  have hnat : (UInt64.ofNat a).toNat = a :=
    UInt64.toNat_ofNat_of_lt' (Nat.lt_trans h (by decide))
  have hmag : (⟨UInt64.ofNat a⟩ : Double).magnitude = a := by
    rw [Double.magnitude, hnat]
    exact Nat.mod_eq_of_lt (Nat.lt_trans h (by decide))
  refine ⟨?_, ?_⟩
  · have hpos : (⟨UInt64.ofNat a⟩ : Double).negative = false := by
      rw [Double.negative, hnat]
      exact decide_eq_false (by omega)
    rw [Double.key, hpos, hmag]
    rfl
  · rw [Double.isNan, hmag]
    exact decide_eq_false (by omega)

theorem chainSet_sorted {n : Nat} (hn : n ≤ 2 ^ 62) : (chainSet n).Sorted (chainTree 0 n) where
  number := by
    intro a ha
    rw [vals_chainTree, List.mem_range'_1] at ha
    have hlt : a < n := Nat.zero_add n ▸ ha.2
    rw [chainSet_tuple hlt]
    exact (key_ofNat (hlt.trans_le hn)).2
  order := by
    rw [vals_chainTree]
    refine (List.pairwise_lt_range' 1 Nat.one_pos).imp_of_mem fun ha hb hab => ?_
    rw [List.mem_range'_1, Nat.zero_add] at ha hb
    rw [chainSet_tuple ha.2, chainSet_tuple hb.2, place, place, Prod.Lex.toLex_lt_toLex,
      (key_ofNat (ha.2.trans_le hn)).1, (key_ofNat (hb.2.trans_le hn)).1]
    exact Or.inl (Int.ofNat_lt.mpr hab)

/-- The hash of the server, and a `strtod` that reads one number. -/
def readsZero : Runtime := ⟨strHash, fun s => if s = ascii "0" then (⟨0⟩, 1) else (⟨0⟩, 0)⟩

/-- A connection with one key, which holds a set. -/
def oneSet (z : ZSet) : GData where
  conns
    | 0 => some
        { fd := 0
          db := { newer := { tab := [[], [], [⟨strHash (ascii "k"), 0⟩], []], mask := 3, size := 1 } } }
    | _ => none
  entries
    | 0 => some
        { hcode := strHash (ascii "k"), key := ascii "k", type := .zset, str := [], zset := z
          ownerConn := some 0 }
    | _ => none
  nextConn := 1
  nextEntry := 1

theorem oneSet_lookup (z : ZSet) :
    ∃ g', expectZset readsZero (oneSet z) 0 (ascii "k") = .ok (g', some (.entry 0)) ∧
      getZset g' (.entry 0) = .ok z := ⟨_, rfl, rfl⟩

-- The least tuple comes before all members of the chain.
theorem firstAt_chain {n : Nat} (hpos : 0 < n) :
    FirstAt ((vals (chainTree 0 n)).map (tupleOf (chainSet n))) (⟨0⟩, []) 0 := by
  refine ⟨⟨(⟨0⟩, le32 0), ?_, by decide⟩, fun j hj => absurd hj (Nat.not_lt_zero j)⟩
  rw [List.getElem?_map, vals_chainTree, List.getElem?_range' hpos, Option.map_some,
    chainSet_tuple (by omega)]
  rfl

-- So a page of the chain with a high enough limit has all of it.
theorem length_chain_page {n : Nat} (hpos : 0 < n) {limit : Int} (hlimit : 2 * (n : Int) ≤ limit) :
    (page ((vals (chainTree 0 n)).map (tupleOf (chainSet n))) (⟨0⟩, []) 0 limit).length = n := by
  have hlen : ((vals (chainTree 0 n)).map (tupleOf (chainSet n))).length = n := by
    rw [List.length_map, vals_chainTree, List.length_range']
  have hpage := (page_isPage _ _ 0 limit).length 0 0 (firstAt_chain hpos) rfl
    (by rw [hlen]; exact hpos) (by omega)
  rw [hpage, hlen]
  omega

/-- A query for `2 ^ 32` values, from the first member on. -/
def queryAll : List Bytes :=
  [ascii "zquery", ascii "k", ascii "0", [], ascii "0", ascii "4294967296"]

theorem queryAll_args : str2dbl readsZero (arg queryAll 2) = some ⟨0⟩ ∧
    str2int (arg queryAll 4) = some 0 ∧ str2int (arg queryAll 5) = some (2 ^ 32) :=
  ⟨rfl, rfl, rfl⟩

/-- The reply of `zquery` on a sorted set with consistent links and exact
    sizes. -/
theorem zquery_page (R : Runtime) {g g' : GData} {c : Nat} {cmd : List Bytes} {ref : ZRef}
    (out : Bytes) {z : ZSet} {t : AvlTree} {score : Double} {offset limit : Int}
    (hscore : str2dbl R (arg cmd 2) = some score)
    (hoff : str2int (arg cmd 4) = some offset) (hlim : str2int (arg cmd 5) = some limit)
    (hexp : expectZset R g c (arg cmd 1) = .ok (g', some ref)) (hget : getZset g' ref = .ok z)
    (h : z.TreeOf t) (hs : z.Sorted t) (hcounted : Counted t) :
    ∃ P reply, IsPage ((vals t).map (tupleOf z)) (score, arg cmd 3) offset limit P ∧
      (P.Pairwise fun x y => place x < place y) ∧
      doZquery R g c cmd out = .ok (g', reply) ∧
      reply = out ++ [tagArr] ++ le32 (2 * P.length) ++ outTuples [] P ∧
      arrCount out reply = 2 * P.length % 2 ^ 32 := by
  have horder : ((vals t).map (tupleOf z)).Pairwise fun x y => place x < place y :=
    List.pairwise_map.mpr hs.order
  refine ⟨_, _, page_isPage _ _ offset limit, page_sorted horder _ offset limit,
    doZquery_reply out hscore hoff hlim hexp hget h hs hcounted, ?_, arrCount_queryReply out _⟩
  rw [queryReply, outTuples_eq, outArr]

theorem zquery_page_two :
    ∃ g' P reply, IsPage [(⟨0⟩, [0, 0, 0, 0]), (⟨1⟩, [1, 0, 0, 0])] (⟨0⟩, []) 0 (2 ^ 32) P ∧
      (P.Pairwise fun x y => place x < place y) ∧
      doZquery readsZero (oneSet (chainSet 2)) 0 queryAll [] = .ok (g', reply) ∧
      reply = [] ++ [tagArr] ++ le32 (2 * P.length) ++ outTuples [] P ∧
      arrCount [] reply = 2 * P.length % 2 ^ 32 := by
  rcases oneSet_lookup (chainSet 2) with ⟨g', hexp, hget⟩
  rcases queryAll_args with ⟨hscore, hoff, hlim⟩
  exact ⟨g', zquery_page readsZero [] hscore hoff hlim hexp hget (chainSet_treeOf 2)
    (chainSet_sorted (by decide)) (counted_chainTree 0 (by decide))⟩

/-- A set with `2 ^ 31` members is listed in full, with a count of zero in the
    header. -/
theorem zquery_header_wraps :
    (chainSet (2 ^ 31)).TreeOf (chainTree 0 (2 ^ 31)) ∧
      (chainSet (2 ^ 31)).Sorted (chainTree 0 (2 ^ 31)) ∧ Counted (chainTree 0 (2 ^ 31)) ∧
      ∃ g' reply P, doZquery readsZero (oneSet (chainSet (2 ^ 31))) 0 queryAll [] =
          .ok (g', reply) ∧
        IsPage ((vals (chainTree 0 (2 ^ 31))).map (tupleOf (chainSet (2 ^ 31)))) (⟨0⟩, []) 0
          (2 ^ 32) P ∧ P.length = 2 ^ 31 ∧
        reply = [tagArr] ++ le32 (2 * P.length) ++ outTuples [] P ∧
        arrCount [] reply = 0 ∧ arrCount [] reply ≠ 2 * P.length := by
  have hn : 2 ^ 31 ≤ 2 ^ 62 := by decide
  have hn' : 2 ^ 31 < 2 ^ 32 := by decide
  -- The number is named, so that nothing unfolds the chain.
  generalize hsize : 2 ^ 31 = n at hn hn'
  have hpos : 0 < n := by omega
  rcases queryAll_args with ⟨hscore, hoff, hlim⟩
  rcases oneSet_lookup (chainSet n) with ⟨g', hexp, hget⟩
  have hreply := doZquery_reply [] hscore hoff hlim hexp hget (chainSet_treeOf n)
    (chainSet_sorted hn) (counted_chainTree 0 hn')
  have hlen : (page ((vals (chainTree 0 n)).map (tupleOf (chainSet n))) (⟨0⟩, []) 0
      (2 ^ 32)).length = n := length_chain_page hpos (by omega)
  have hcount : arrCount [] (queryReply [] (page ((vals (chainTree 0 n)).map
      (tupleOf (chainSet n))) (⟨0⟩, []) 0 (2 ^ 32))) = 0 := by
    rw [arrCount_queryReply, hlen]
    omega
  refine ⟨chainSet_treeOf n, chainSet_sorted hn, counted_chainTree 0 hn', g', _, _, hreply,
    page_isPage _ _ _ _, hlen, ?_, hcount, ?_⟩
  · rw [queryReply, outTuples_eq, outArr]
    rfl
  · rw [hlen]
    exact ne_of_eq_of_ne hcount (by omega)

end RedisServer
