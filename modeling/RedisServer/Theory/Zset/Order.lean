import RedisServer.Core.Zset
import Mathlib.Data.List.Lex
import Mathlib.Data.List.Sort
import Mathlib.Data.Prod.Lex

/-!
# The Order of the Tuples

What the comparison of two tuples decides, apart from memory. Scores that are
numbers have a place on the real line, names are ordered byte by byte with the
shorter one first, and a tuple is placed by its score and then its name. On
numbers the comparison of `zless` is the strict order of these places, which
is linear.

A sorted set is, to its users, a map from names to scores and the listing of
its tuples in this order.

## Main definitions

* `place`: The place of a tuple.
* `Lists`: A listing of a map from names to scores.
* `page`: The part of a listing that a query asks for.

## Theorems

* `memcmp_lt_iff`: The comparison of names is the lexicographic order.
* `tupleLess_iff`: The comparison of tuples is the order of their places.
* `Lists.unique`: A map has one listing.
-/

namespace RedisServer

/-- The place of a tuple of a score and a name: by score, then by the bytes of
    the name, a shorter name before its extensions. -/
def place (x : Double × Bytes) : Int ×ₗ List Nat := toLex (x.1.key, x.2.map UInt8.toNat)

/-- The comparison of two names is the lexicographic order. -/
theorem memcmp_lt_iff (xs ys : Bytes) :
    (match memcmp xs ys with
      | .lt => true
      | .gt => false
      | .eq => decide (xs.length < ys.length)) = true ↔
      xs.map UInt8.toNat < ys.map UInt8.toNat := by
  -- the first bytes that differ decide, and otherwise the lengths
  induction xs generalizing ys with
  | nil =>
      cases ys with
      | nil =>
          simp only [memcmp, List.length_nil, decide_false, Bool.false_eq_true,
            List.map_nil, lt_self_iff_false]
      | cons y ys =>
          simp only [memcmp, List.length_nil, List.length_cons, Nat.zero_lt_succ, decide_true,
            List.map_nil, List.map_cons, true_iff]
          exact List.nil_lt_cons _ _
  | cons x xs ih =>
      cases ys with
      | nil =>
          simp only [memcmp, List.length_nil, Nat.not_lt_zero, decide_false, Bool.false_eq_true,
            List.map_nil, false_iff]
          exact List.not_lt_nil _
      | cons y ys =>
          rw [memcmp, List.map_cons, List.map_cons, List.cons_lt_cons_iff]
          by_cases hlt : x < y
          · rw [if_pos hlt]
            exact ⟨fun _ => Or.inl (UInt8.lt_iff_toNat_lt.mp hlt), fun _ => rfl⟩
          · rw [if_neg hlt]
            have hlt' : ¬ x.toNat < y.toNat := fun h => hlt (UInt8.lt_iff_toNat_lt.mpr h)
            by_cases hgt : y < x
            · rw [if_pos hgt]
              have hgt' := UInt8.lt_iff_toNat_lt.mp hgt
              refine ⟨fun h => absurd h Bool.false_ne_true, ?_⟩
              rintro (h | ⟨h, _⟩)
              · exact absurd h hlt'
              · omega
            · rw [if_neg hgt]
              have hxy : x = y := UInt8.le_antisymm (UInt8.not_lt.mp hgt) (UInt8.not_lt.mp hlt)
              have hlen : (x :: xs).length < (y :: ys).length ↔ xs.length < ys.length := by
                rw [List.length_cons, List.length_cons, Nat.add_lt_add_iff_right]
              simp only [hlen]
              rw [ih ys, hxy]
              simp only [lt_self_iff_false, true_and, false_or]

/-- On numbers, the comparison of tuples is the order of their places. -/
theorem tupleLess_iff {s s' : Double} (hs : s.isNan = false) (hs' : s'.isNan = false)
    (n n' : Bytes) : tupleLess s n s' n' = true ↔ place (s, n) < place (s', n') := by
  rw [place, place, Prod.Lex.toLex_lt_toLex, tupleLess]
  have heq : s.eq s' = decide (s.key = s'.key) := by
    rw [Double.eq, hs, hs']
    exact Bool.true_and _
  have hlt : s.lt s' = decide (s.key < s'.key) := by
    rw [Double.lt, hs, hs']
    exact Bool.true_and _
  rw [heq, hlt]
  by_cases hkey : s.key = s'.key
  · rw [decide_eq_true hkey]
    refine (memcmp_lt_iff n n').trans ?_
    simp only [hkey, lt_self_iff_false, true_and, false_or]
  · rw [decide_eq_false hkey, if_pos (by decide), decide_eq_true_eq]
    simp only [hkey, false_and, or_false]

theorem place_name {x y : Double × Bytes} (h : place x = place y) : x.2 = y.2 := by
  have hname : x.2.map UInt8.toNat = y.2.map UInt8.toNat :=
    congrArg (fun p => (ofLex p).2) h
  exact List.map_injective_iff.mpr (fun a b hab => UInt8.toNat_inj.mp hab) hname

/-! ## The reference -/

/-- The listing of all tuples of a map from names to scores, in order. -/
structure Lists (L : List (Double × Bytes)) (m : Bytes → Option Double) : Prop where
  sorted : L.Pairwise fun x y => place x < place y
  mem : ∀ s n, (s, n) ∈ L ↔ m n = some s

/-- A map has one listing. -/
theorem Lists.unique {L L' : List (Double × Bytes)} {m : Bytes → Option Double} (h : Lists L m)
    (h' : Lists L' m) : L = L' := by
  have hanti : Std.Antisymm fun x y : Double × Bytes => place x < place y :=
    ⟨fun _ _ hxy hyx => absurd hyx hxy.asymm⟩
  have hirr : Std.Irrefl fun x y : Double × Bytes => place x < place y :=
    ⟨fun _ => lt_irrefl _⟩
  refine h.sorted.eq_of_mem_iff h'.sorted fun x => ?_
  rw [h.mem x.1 x.2, h'.mem x.1 x.2]

/-- What a query asks for: from `offset` ranks after the first tuple that is
    not before `x`, one tuple for every two values up to `limit`. -/
def page (L : List (Double × Bytes)) (x : Double × Bytes) (offset limit : Int) :
    List (Double × Bytes) :=
  if limit ≤ 0 then []
  else
    match L.findIdx? fun y => decide (place x ≤ place y) with
    | none => []
    | some i =>
      if (i : Int) + offset < 0 then []
      else (L.drop ((i : Int) + offset).toNat).take ((limit.toNat + 1) / 2)

end RedisServer
