import RedisServer.Theory.Heap.Sift

/-!
# The Heap as an Index

The heap with the memory its items point into, as a partial map from variables
to deadlines. `Indexed` is the invariant: heap order, and the two directions
of the back pointers. Every item points to a variable that holds the item's
position, and every variable that holds a position is pointed to from there.

The two changes the server makes are then an update of the map at one key.

## Main definitions

* `Indexed`: The invariant.
* `deadline`: The map from variables to deadlines.

## Theorems

* `Indexed.deadline_eq_some`: The map is what the items say.
* `Indexed.put`, `Indexed.cleared`: A sift of an array that differs from an
  index in one variable's item.
* `heapUpsert_spec`: An upsert sets one deadline.
* `heapDelete_spec`: A deletion, with its variable cleared, removes one.
* `Indexed.root_min`: The root carries the earliest deadline.
-/

namespace RedisServer

open Lib HeapOrder

variable {ρ : Type}

/-- The heap is in order, every item points to a variable that holds its
    position, and every variable with a position is pointed to from there. -/
structure Indexed (a : List (HeapItem ρ)) (refs : Refs ρ) : Prop where
  ordered : Ordered (keyAt a) a.length
  back : ∀ i x, a[i]? = some x → ∃ r, x.ref = some r ∧ refs r = some i
  forth : ∀ r i, refs r = some i → ∃ x, a[i]? = some x ∧ x.ref = some r

/-- The deadline a variable stands for: the value at the position it holds. -/
def deadline (a : List (HeapItem ρ)) (refs : Refs ρ) (r : ρ) : Option Nat :=
  (refs r).bind fun i => a[i]?.map HeapItem.val

theorem indexed_nil : Indexed ([] : List (HeapItem ρ)) fun _ => none where
  ordered := fun i _ hi => absurd hi (Nat.not_lt_zero i)
  back := by
    intro i x h
    simp only [List.getElem?_nil, reduceCtorEq] at h
  forth := by
    intro r i h
    simp only [reduceCtorEq] at h

namespace Indexed

variable {a : List (HeapItem ρ)} {refs : Refs ρ}

theorem ref_some (h : Indexed a refs) {x : HeapItem ρ} (hx : x ∈ a) : ∃ r, x.ref = some r := by
  rcases List.getElem?_of_mem hx with ⟨i, hi⟩
  rcases h.back i x hi with ⟨r, hr, _⟩
  exact ⟨r, hr⟩

/-- The variable an item points to holds the item's position. -/
theorem refs_eq (h : Indexed a refs) {i : Nat} {x : HeapItem ρ} {r : ρ} (hi : a[i]? = some x)
    (hr : x.ref = some r) : refs r = some i := by
  rcases h.back i x hi with ⟨s, hs, hsi⟩
  rw [hr, Option.some.injEq] at hs
  rw [hs]
  exact hsi

/-- A variable no item points to holds no position. -/
theorem refs_none (h : Indexed a refs) {r : ρ} (hr : ∀ x ∈ a, x.ref ≠ some r) :
    refs r = none := by
  cases hri : refs r with
  | none => rfl
  | some i =>
      rcases h.forth r i hri with ⟨x, hx, hxr⟩
      exact absurd hxr (hr x (List.mem_of_getElem? hx))

theorem distinct (h : Indexed a refs) : DistinctRefs a := by
  rw [distinctRefs_iff]
  intro i j x y r hi hj hx hy
  have hij := h.refs_eq hi hx
  rw [h.refs_eq hj hy, Option.some.injEq] at hij
  exact hij.symm

/-- The map is what the items say. -/
theorem deadline_eq_some (h : Indexed a refs) {r : ρ} {d : Nat} :
    deadline a refs r = some d ↔ ⟨d, some r⟩ ∈ a := by
  constructor
  · intro hd
    rcases Option.bind_eq_some_iff.mp hd with ⟨i, hi, hv⟩
    rcases h.forth r i hi with ⟨x, hx, hxr⟩
    rw [hx, Option.map_some, Option.some.injEq] at hv
    have : x = ⟨d, some r⟩ := by
      rw [← hv, ← hxr]
    rw [← this]
    exact List.mem_of_getElem? hx
  · intro hmem
    rcases List.getElem_of_mem hmem with ⟨i, hi, hx⟩
    have hget : a[i]? = some ⟨d, some r⟩ := by rw [List.getElem?_eq_getElem hi, hx]
    rw [deadline, h.refs_eq hget rfl, Option.bind_some, hget]
    rfl

theorem deadline_eq_none (h : Indexed a refs) {r : ρ} : deadline a refs r = none ↔ refs r = none := by
  constructor
  · intro hd
    cases hr : refs r with
    | none => rfl
    | some i =>
        rcases h.forth r i hr with ⟨x, hx, _⟩
        rw [deadline, hr, Option.bind_some, hx] at hd
        exact absurd hd (by simp only [Option.map_some, reduceCtorEq, not_false_eq_true])
  · intro hr
    rw [deadline, hr, Option.bind_none]

/-- The root carries the earliest deadline. -/
theorem root_min (h : Indexed a refs) {x : HeapItem ρ} (hx : a[0]? = some x) {r : ρ} {d : Nat}
    (hd : deadline a refs r = some d) : x.val ≤ d := by
  rcases List.getElem_of_mem (h.deadline_eq_some.mp hd) with ⟨i, hi, hxi⟩
  have hle := h.ordered.root_le i hi
  rw [keyAt_eq hx, keyAt_eq (by rw [List.getElem?_eq_getElem hi, hxi])] at hle
  exact hle

end Indexed

/-- Two indexes with the same items have the same map. -/
theorem deadline_congr {a a' : List (HeapItem ρ)} {refs refs' : Refs ρ} (h : Indexed a refs)
    (h' : Indexed a' refs') {r : ρ}
    (hmem : ∀ d : Nat, HeapItem.mk d (some r) ∈ a' ↔ HeapItem.mk d (some r) ∈ a) :
    deadline a' refs' r = deadline a refs r := by
  refine Option.ext fun d => ?_
  rw [h'.deadline_eq_some, h.deadline_eq_some, hmem]

/-- Taking a variable's item out leaves the items of the other variables. -/
theorem DistinctRefs.others {a l : List (HeapItem ρ)} {x : HeapItem ρ} {r : ρ}
    (hd : DistinctRefs a) (hp : a.Perm (x :: l)) (hr : x.ref = some r) :
    DistinctRefs l ∧ ∀ y, y ∈ l ↔ y ∈ a ∧ y.ref ≠ some r := by
  rcases (distinctRefs_cons hr).mp (hd.perm hp.symm) with ⟨hfree, hl⟩
  refine ⟨hl, fun y => ?_⟩
  rw [hp.mem_iff, List.mem_cons]
  constructor
  · intro hy
    exact ⟨Or.inr hy, hfree y hy⟩
  · intro hy
    rcases hy with ⟨rfl | hy, hne⟩
    · exact absurd hr hne
    · exact hy

variable [DecidableEq ρ]

/-- A sift of an array whose back pointers were right away from `pos` ends in
    an index, whatever memory `refs''` agrees with the result on the variables
    of the items and is empty elsewhere. -/
theorem Sifted.indexed {a a' : List (HeapItem ρ)} {refs refs' refs'' : Refs ρ} {pos : Nat}
    (hs : Sifted a refs pos a' refs')
    (hsome : ∀ x ∈ a, ∃ r, x.ref = some r)
    (hothers : ∀ i x r, i ≠ pos → a[i]? = some x → x.ref = some r → refs r = some i)
    (hin : ∀ x ∈ a, ∀ r, x.ref = some r → refs'' r = refs' r)
    (hout : ∀ r, (∀ x ∈ a, x.ref ≠ some r) → refs'' r = none) : Indexed a' refs'' := by
  -- an item that moved had its variable written, and one that stayed keeps its position
  have hback : ∀ i x r, a'[i]? = some x → x.ref = some r → refs'' r = some i := by
    intro i x r hx hr
    rw [hin x (hs.perm.mem_iff.mp (List.mem_of_getElem? hx)) r hr]
    rcases hs.placed i x r hx hr with h | ⟨hne, hx', heq⟩
    · exact h
    · rw [heq]
      exact hothers i x r hne hx' hr
  refine ⟨hs.ordered, ?_, ?_⟩
  · intro i x hx
    rcases hsome x (hs.perm.mem_iff.mp (List.mem_of_getElem? hx)) with ⟨r, hr⟩
    exact ⟨r, hr, hback i x r hx hr⟩
  · intro r i hri
    by_cases hown : ∃ x ∈ a, x.ref = some r
    · rcases hown with ⟨x, hx, hr⟩
      rcases List.getElem_of_mem (hs.perm.mem_iff.mpr hx) with ⟨j, hj, hxj⟩
      have hget : a'[j]? = some x := by rw [List.getElem?_eq_getElem hj, hxj]
      have hj' := hback j x r hget hr
      rw [hri, Option.some.injEq] at hj'
      rw [hj']
      exact ⟨x, hget, hr⟩
    · have := hout r fun x hx hr => hown ⟨x, hx, hr⟩
      rw [hri] at this
      cases this

section

variable {a b l a' : List (HeapItem ρ)} {refs refs' : Refs ρ} {pos : Nat} {r : ρ} {d : Nat}

/-- Sifting an array that has a new item for `r` at `pos`, and otherwise the
    items of the other variables where the index had them, sets the deadline
    of `r`. -/
theorem Indexed.put (h : Indexed a refs) (hb : b.Perm (⟨d, some r⟩ :: l))
    (hl : ∀ x, x ∈ l ↔ x ∈ a ∧ x.ref ≠ some r)
    (haway : ∀ i x, i ≠ pos → b[i]? = some x → a[i]? = some x)
    (hs : Sifted b refs pos a' refs') :
    Indexed a' refs' ∧ deadline a' refs' r = some d ∧
      ∀ s, s ≠ r → deadline a' refs' s = deadline a refs s := by
  -- the array before the sift has the new item and those of other variables
  have hmem : ∀ x, x ∈ b ↔ x = ⟨d, some r⟩ ∨ (x ∈ a ∧ x.ref ≠ some r) := by
    intro x
    rw [hb.mem_iff, List.mem_cons, hl]
  have hidx : Indexed a' refs' := by
    refine hs.indexed ?_ (fun i x s hi hx hxs => h.refs_eq (haway i x hi hx) hxs)
      (fun _ _ _ _ => rfl) ?_
    · intro x hx
      rcases (hmem x).mp hx with rfl | ⟨hxa, _⟩
      · exact ⟨r, rfl⟩
      · exact h.ref_some hxa
    · intro s hsn
      -- A variable of no item in the new array was one of no item in the old one.
      have hsr : s ≠ r := fun hsr => hsn _ ((hmem _).mpr (Or.inl rfl)) (by rw [hsr])
      rw [hs.frame s hsn]
      refine h.refs_none fun x hx hxs => hsn x ((hmem x).mpr (Or.inr ⟨hx, ?_⟩)) hxs
      rw [hxs]
      exact fun hc => hsr (Option.some.inj hc)
  refine ⟨hidx, ?_, ?_⟩
  · exact hidx.deadline_eq_some.mpr (hs.perm.mem_iff.mpr ((hmem _).mpr (Or.inl rfl)))
  · intro s hsr
    refine deadline_congr h hidx fun e => ?_
    have hne : some s ≠ some r := fun hc => hsr (Option.some.inj hc)
    rw [hs.perm.mem_iff, hmem, HeapItem.mk.injEq]
    constructor
    · intro hor
      rcases hor with ⟨_, heq⟩ | ⟨hx, _⟩
      · exact absurd heq hne
      · exact hx
    · intro hx
      exact Or.inr ⟨hx, hne⟩

/-- Sifting an array that has just the items of the other variables, away from
    `pos` where the index had them, and clearing `r` removes the deadline of
    `r`. -/
theorem Indexed.cleared (h : Indexed a refs) (hb : ∀ x, x ∈ b ↔ x ∈ a ∧ x.ref ≠ some r)
    (haway : ∀ i x, i ≠ pos → b[i]? = some x → a[i]? = some x)
    (hs : Sifted b refs pos a' refs') :
    Indexed a' (Function.update refs' r none) ∧
      deadline a' (Function.update refs' r none) r = none ∧
      ∀ s, s ≠ r → deadline a' (Function.update refs' r none) s = deadline a refs s := by
  have hidx : Indexed a' (Function.update refs' r none) := by
    refine hs.indexed (fun x hx => h.ref_some ((hb x).mp hx).1)
      (fun i x s hi hx hxs => h.refs_eq (haway i x hi hx) hxs) ?_ ?_
    · intro x hx s hxs
      refine Function.update_of_ne (fun hsr => ((hb x).mp hx).2 ?_) _ _
      rw [← hsr]
      exact hxs
    · intro s hsn
      -- only the variable that is cleared loses its item
      by_cases hsr : s = r
      · rw [hsr, Function.update_self]
      · rw [Function.update_of_ne hsr, hs.frame s hsn]
        refine h.refs_none fun x hx hxs => hsn x ((hb x).mpr ⟨hx, ?_⟩) hxs
        rw [hxs]
        exact fun hc => hsr (Option.some.inj hc)
  refine ⟨hidx, ?_, ?_⟩
  · rw [hidx.deadline_eq_none, Function.update_self]
  · intro s hsr
    refine deadline_congr h hidx fun e => ?_
    rw [hs.perm.mem_iff, hb]
    exact and_iff_left fun hc => hsr (Option.some.inj hc)

end

/-! ## Upsert -/

/-- An upsert through a variable sets that variable's deadline and no other:
    it replaces the item the variable belongs to, or appends one. -/
theorem heapUpsert_spec {a : List (HeapItem ρ)} {refs : Refs ρ} (h : Indexed a refs) (r : ρ)
    (d : Nat) :
    ∃ a' refs', heapUpsert a refs (refs r) ⟨d, some r⟩ = .ok (a', refs') ∧ Indexed a' refs' ∧
      deadline a' refs' r = some d ∧ ∀ s, s ≠ r → deadline a' refs' s = deadline a refs s := by
  cases hr : refs r with
  | some p =>
      rcases h.forth r p hr with ⟨old, hold, holdr⟩
      have hp := lt_length_of_getElem? hold
      -- the item is overwritten in its place
      have hset := List.set_perm_cons_eraseIdx hp ⟨d, some r⟩
      have hsplit := List.getElem_cons_eraseIdx_perm hp
      rw [(List.getElem?_eq_some_iff.mp hold).2] at hsplit
      rcases h.distinct.others hsplit.symm holdr with ⟨hdl, hl⟩
      have hdist : DistinctRefs (a.set p ⟨d, some r⟩) :=
        ((distinctRefs_cons rfl).mpr ⟨fun y hy => ((hl y).mp hy).2, hdl⟩).perm hset
      have hord : OrderedExcept (keyAt (a.set p ⟨d, some r⟩)) (a.set p ⟨d, some r⟩).length p := by
        rw [List.length_set]
        exact h.ordered.change fun i _ hi => keyAt_congr (List.getElem?_set_ne (Ne.symm hi))
      rcases heapUpdate_spec refs hdist (by rw [List.length_set]; exact hp) hord with
        ⟨a', refs', hrun, hs⟩
      rw [List.length_set] at hrun
      refine ⟨a', refs', by rw [heapUpsert, if_pos hp, hrun], h.put hset hl ?_ hs⟩
      intro i x hi hx
      rw [List.getElem?_set_ne (Ne.symm hi)] at hx
      exact hx
  | none =>
      have hfree : ∀ x ∈ a, x.ref ≠ some r := by
        intro x hx hxr
        rcases List.getElem?_of_mem hx with ⟨i, hi⟩
        rw [h.refs_eq hi hxr] at hr
        cases hr
      -- a variable without an item gets one at the end
      have hadd : (a ++ [HeapItem.mk d (some r)]).Perm (⟨d, some r⟩ :: a) :=
        List.perm_append_singleton _ a
      have hlen : (a ++ [HeapItem.mk d (some r)]).length = a.length + 1 := by
        rw [List.length_append, List.length_singleton]
      have hdist : DistinctRefs (a ++ [⟨d, some r⟩]) :=
        ((distinctRefs_cons rfl).mpr ⟨hfree, h.distinct⟩).perm hadd
      have hord : OrderedExcept (keyAt (a ++ [⟨d, some r⟩])) (a ++ [HeapItem.mk d (some r)]).length
          a.length := by
        rw [hlen]
        exact h.ordered.append fun i hi => keyAt_congr (List.getElem?_append_left hi)
      rcases heapUpdate_spec refs hdist (by omega) hord with ⟨a', refs', hrun, hs⟩
      rw [hlen] at hrun
      refine ⟨a', refs', by rw [heapUpsert, hrun],
        h.put hadd (fun x => (and_iff_left_of_imp (hfree x)).symm) ?_ hs⟩
      intro i x hi hx
      have hlt := lt_length_of_getElem? hx
      rw [List.getElem?_append_left (by omega)] at hx
      exact hx

/-! ## Deletion -/

omit [DecidableEq ρ] in
/-- Overwriting a position with the last item and dropping the last takes out
    the item at that position. -/
theorem perm_set_dropLast {a : List (HeapItem ρ)} {pos : Nat} {old last : HeapItem ρ}
    (hold : a[pos]? = some old) (hlast : a.getLast? = some last) :
    a.Perm (old :: (a.set pos last).dropLast) := by
  rcases List.getLast?_eq_some_iff.mp hlast with ⟨b, rfl⟩
  have hpos := lt_length_of_getElem? hold
  rw [List.length_append, List.length_singleton] at hpos
  by_cases hb : pos < b.length
  · rw [List.getElem?_append_left hb] at hold
    rw [List.set_append_left _ _ hb, List.dropLast_concat]
    have hset := List.set_perm_cons_eraseIdx hb last
    have hsplit := List.getElem_cons_eraseIdx_perm hb
    rw [(List.getElem?_eq_some_iff.mp hold).2] at hsplit
    refine (List.perm_append_singleton last b).trans ?_
    refine ((hsplit.symm).cons last).trans ?_
    exact (List.Perm.swap old last _).trans (hset.symm.cons old)
  · have hp : pos = b.length := by omega
    rw [hp, List.getElem?_concat_length, Option.some.injEq] at hold
    rw [hp, List.set_append_right _ _ (Nat.le_refl _), Nat.sub_self, List.set_cons_zero,
      List.dropLast_concat, hold]
    exact List.perm_append_singleton old b

/-- A deletion at a variable's position, with the variable cleared afterwards,
    removes that variable's item and no other. -/
theorem heapDelete_spec {a : List (HeapItem ρ)} {refs : Refs ρ} (h : Indexed a refs) {r : ρ}
    {pos : Nat} (hr : refs r = some pos) :
    ∃ a' refs' item, heapDelete a refs pos = .ok (a', refs') ∧
      a[pos]? = some item ∧ a.Perm (item :: a') ∧
      Indexed a' (Function.update refs' r none) ∧
      deadline a' (Function.update refs' r none) r = none ∧
      ∀ s, s ≠ r → deadline a' (Function.update refs' r none) s = deadline a refs s := by
  rcases h.forth r pos hr with ⟨old, hold, holdr⟩
  have hpos := lt_length_of_getElem? hold
  have hlast : a.getLast? = some (a.getLast (List.ne_nil_of_length_pos (by omega))) :=
    List.getLast?_eq_some_getLast _
  generalize a.getLast _ = last at hlast
  -- The array after the overwrite and the pop.
  have hsplit := perm_set_dropLast hold hlast
  rcases h.distinct.others hsplit holdr with ⟨hdist, hl⟩
  have hlen : (a.set pos last).dropLast.length = a.length - 1 := by
    rw [List.length_dropLast, List.length_set]
  have hget : ∀ i, i < a.length - 1 → i ≠ pos → (a.set pos last).dropLast[i]? = a[i]? := by
    intro i hi hip
    rw [List.getElem?_dropLast, List.length_set, if_pos hi, List.getElem?_set_ne (Ne.symm hip)]
  have haway : ∀ i x, i ≠ pos → (a.set pos last).dropLast[i]? = some x → a[i]? = some x := by
    intro i x hip hx
    have hi := lt_length_of_getElem? hx
    rw [hlen] at hi
    rw [← hget i hi hip]
    exact hx
  -- Whatever the sift did, clearing the variable makes the result an index.
  have hfinish : ∀ (a' : List (HeapItem ρ)) (refs' : Refs ρ),
      Sifted (a.set pos last).dropLast refs pos a' refs' →
      a[pos]? = some old ∧ a.Perm (old :: a') ∧ Indexed a' (Function.update refs' r none) ∧
      deadline a' (Function.update refs' r none) r = none ∧
      ∀ s, s ≠ r → deadline a' (Function.update refs' r none) s = deadline a refs s :=
    fun a' refs' hs => ⟨hold, hsplit.trans (hs.perm.symm.cons old), h.cleared hl haway hs⟩
  simp only [heapDelete, hlast, if_pos hpos]
  by_cases hp : pos < (a.set pos last).dropLast.length
  · rw [if_pos hp]
    have hord : OrderedExcept (keyAt (a.set pos last).dropLast) (a.set pos last).dropLast.length
        pos := by
      rw [hlen]
      exact (h.ordered.mono (Nat.sub_le _ 1)).change fun i hi hip => keyAt_congr (hget i hi hip)
    rcases heapUpdate_spec refs hdist hp hord with ⟨a', refs', hrun, hs⟩
    exact ⟨a', refs', old, hrun, hfinish a' refs' hs⟩
  · -- The last item itself is deleted, and nothing is sifted.
    rw [if_neg hp]
    refine ⟨_, _, old, rfl, hfinish _ _ ⟨List.Perm.refl _, ?_, ?_, fun _ _ => rfl⟩⟩
    · rw [hlen]
      exact (h.ordered.mono (Nat.sub_le _ 1)).congr fun i hi => keyAt_congr (hget i hi (by omega))
    · intro i x s hx hs
      have hi := lt_length_of_getElem? hx
      exact Or.inr ⟨by omega, hx, rfl⟩

end RedisServer
