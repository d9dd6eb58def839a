import RedisServer.Core.Heap
import RedisServer.Lib.HeapOrder
import RedisServer.Lib.Slots
import Mathlib.Data.List.Perm.Basic

/-!
# The Sifts and their Back Pointers

What `heap_update` does to an array whose order is broken around one position,
and to the memory its items point into.

A sift carries one item `t` in a local variable and moves a hole. The array it
works on is not a permutation of the original, since the hole still holds a
copy of what moved out of it. The array that matters is the one with `t`
written into the hole: there a step exchanges two items. `Sifting` speaks of
that array, and of the back pointers of everything outside the hole.

## Main definitions

* `keyAt`: The value at a position.
* `DistinctRefs`: No two items point to one variable.
* `Sifting`: The state of a sift with a hole.
* `Sifted`: The state a sift ends in.

## Theorems

* `heapUpLoop_spec`, `heapDownLoop_spec`: The loops.
* `heapUpdate_spec`: An array that is in order except around one position is
  put in order, and every item moved has its position written.
-/

namespace RedisServer

open Lib HeapOrder

variable {ρ : Type}

/-- The value at a position of the array. -/
def keyAt (a : List (HeapItem ρ)) (i : Nat) : Nat :=
  match a[i]? with
  | some x => x.val
  | none => 0

theorem keyAt_eq {a : List (HeapItem ρ)} {i : Nat} {x : HeapItem ρ} (h : a[i]? = some x) :
    keyAt a i = x.val := by
  rw [keyAt, h]

theorem keyAt_congr {a b : List (HeapItem ρ)} {i j : Nat} (h : a[i]? = b[j]?) :
    keyAt a i = keyAt b j := by
  rw [keyAt, keyAt, h]

theorem heapParent_eq {i : Nat} (hi : 0 < i) : heapParent i = parent i := by
  unfold heapParent parent
  omega

/-- No two items point to one variable. -/
def DistinctRefs (a : List (HeapItem ρ)) : Prop := (a.filterMap HeapItem.ref).Nodup

theorem DistinctRefs.perm {a b : List (HeapItem ρ)} (h : DistinctRefs a) (hp : b.Perm a) :
    DistinctRefs b := (hp.filterMap HeapItem.ref).nodup_iff.mpr h

/-- An item that points to `r` can be added where no other does. -/
theorem distinctRefs_cons {x : HeapItem ρ} {l : List (HeapItem ρ)} {r : ρ} (hr : x.ref = some r) :
    DistinctRefs (x :: l) ↔ (∀ y ∈ l, y.ref ≠ some r) ∧ DistinctRefs l := by
  unfold DistinctRefs
  rw [List.filterMap_cons_some hr, List.nodup_cons, List.mem_filterMap]
  simp only [not_exists, not_and, ne_eq]

/-- No two positions of the array point to one variable. -/
theorem distinctRefs_iff {a : List (HeapItem ρ)} : DistinctRefs a ↔
    ∀ (i j : Nat) (x y : HeapItem ρ) (r : ρ), a[i]? = some x → a[j]? = some y →
      x.ref = some r → y.ref = some r → i = j := by
  unfold DistinctRefs List.Nodup
  rw [List.pairwise_filterMap, List.pairwise_iff_getElem]
  constructor
  · intro h i j x y r hi hj hx hy
    rcases List.getElem?_eq_some_iff.mp hi with ⟨hil, rfl⟩
    rcases List.getElem?_eq_some_iff.mp hj with ⟨hjl, rfl⟩
    rcases Nat.lt_trichotomy i j with hij | hij | hij
    · exact absurd rfl (h i j hil hjl hij r hx r hy)
    · exact hij
    · exact absurd rfl (h j i hjl hil hij r hy r hx)
  · intro h i j hi hj hij r hr r' hr' heq
    rw [← heq] at hr'
    have := h i j _ _ r (List.getElem?_eq_getElem hi) (List.getElem?_eq_getElem hj) hr hr'
    omega

theorem DistinctRefs.eq_of_ref {a : List (HeapItem ρ)} (h : DistinctRefs a) {i j : Nat}
    {x y : HeapItem ρ} {r : ρ} (hi : a[i]? = some x) (hj : a[j]? = some y)
    (hx : x.ref = some r) (hy : y.ref = some r) : i = j :=
  distinctRefs_iff.mp h i j x y r hi hj hx hy

theorem getElem?_exchange {v : List (HeapItem ρ)} {pos q k : Nat} {t c : HeapItem ρ}
    (hpos : pos < v.length) (hq : q < v.length) :
    ((v.set pos c).set q t)[k]? = if k = q then some t else if k = pos then some c else v[k]? := by
  rw [List.getElem?_set, List.getElem?_set, List.length_set]
  by_cases hkq : k = q
  · rw [if_pos hkq.symm, if_pos hkq, if_pos hq]
  · rw [if_neg (Ne.symm hkq), if_neg hkq]
    by_cases hkp : k = pos
    · rw [if_pos hkp.symm, if_pos hkp, if_pos hpos]
    · rw [if_neg (Ne.symm hkp), if_neg hkp]

/-- A step exchanges two keys. -/
theorem keyAt_exchange {v : List (HeapItem ρ)} {pos q : Nat} {t c : HeapItem ρ}
    (ht : v[pos]? = some t) (hc : v[q]? = some c) :
    keyAt ((v.set pos c).set q t) = exchange (keyAt v) pos q := by
  funext k
  unfold exchange
  rw [keyAt_eq ht, keyAt_eq hc]
  unfold keyAt
  rw [getElem?_exchange (lt_length_of_getElem? ht) (lt_length_of_getElem? hc)]
  by_cases hkp : k = pos
  · by_cases hkq : k = q
    · rw [if_pos hkq, if_pos hkp]
      rw [← hkp, hkq, hc, Option.some.injEq] at ht
      rw [ht]
    · rw [if_neg hkq, if_pos hkp, if_pos hkp]
  · by_cases hkq : k = q
    · rw [if_pos hkq, if_neg hkp, if_pos hkq]
    · rw [if_neg hkq, if_neg hkp, if_neg hkp, if_neg hkq]

variable [DecidableEq ρ]

theorem writeRef_same (refs : Refs ρ) {r : ρ} {ref : Option ρ} (h : ref = some r) (pos : Nat) :
    writeRef refs ref pos r = some pos := by
  rw [h, writeRef, Function.update_self]

theorem writeRef_other (refs : Refs ρ) {r : ρ} {ref : Option ρ} (h : ref ≠ some r) (pos : Nat) :
    writeRef refs ref pos r = refs r := by
  cases ref with
  | none => rfl
  | some s =>
      rw [writeRef, Function.update_of_ne]
      intro hrs
      exact h (by rw [hrs])

/-! ## The state of a sift -/

/-- A sift that started on `a₀` at `pos₀`, with its hole at `pos`. The array
    `v` has the carried item in the hole. Outside the hole an item was moved
    and its position written, or it stands where it stood and its variable was
    left alone. -/
structure Sifting (a₀ : List (HeapItem ρ)) (refs₀ : Refs ρ) (pos₀ : Nat)
    (v : List (HeapItem ρ)) (refs : Refs ρ) (pos : Nat) : Prop where
  perm : v.Perm a₀
  placed : ∀ i x r, i ≠ pos → v[i]? = some x → x.ref = some r →
    refs r = some i ∨ (i ≠ pos₀ ∧ a₀[i]? = some x ∧ refs r = refs₀ r)
  frame : ∀ r, (∀ x ∈ a₀, x.ref ≠ some r) → refs r = refs₀ r

/-- A sift that is over: the same items, in order, and every item was moved and
    its position written, or stands where it stood and was left alone. -/
structure Sifted (a₀ : List (HeapItem ρ)) (refs₀ : Refs ρ) (pos₀ : Nat)
    (a : List (HeapItem ρ)) (refs : Refs ρ) : Prop where
  perm : a.Perm a₀
  ordered : Ordered (keyAt a) a.length
  placed : ∀ i x r, a[i]? = some x → x.ref = some r →
    refs r = some i ∨ (i ≠ pos₀ ∧ a₀[i]? = some x ∧ refs r = refs₀ r)
  frame : ∀ r, (∀ x ∈ a₀, x.ref ≠ some r) → refs r = refs₀ r

section

variable {a₀ v : List (HeapItem ρ)} {refs₀ refs : Refs ρ} {pos₀ pos : Nat}

omit [DecidableEq ρ] in
theorem Sifting.start (a₀ : List (HeapItem ρ)) (refs₀ : Refs ρ) (pos₀ : Nat) :
    Sifting a₀ refs₀ pos₀ a₀ refs₀ pos₀ where
  perm := List.Perm.refl _
  placed := fun _ _ _ hi hx _ => Or.inr ⟨hi, hx, rfl⟩
  frame := fun _ _ => rfl

/-- One step: the item at `q` moves into the hole, its position is written, and
    the hole is at `q`. -/
theorem Sifting.move (h : Sifting a₀ refs₀ pos₀ v refs pos) (hd : DistinctRefs a₀) {q : Nat}
    {t c : HeapItem ρ} (ht : v[pos]? = some t) (hc : v[q]? = some c) :
    Sifting a₀ refs₀ pos₀ ((v.set pos c).set q t) (writeRef refs c.ref pos) q where
  perm := by
    have hpl := lt_length_of_getElem? ht
    have hql := lt_length_of_getElem? hc
    have hswap := List.set_set_perm hpl hql
    rw [(List.getElem?_eq_some_iff.mp ht).2, (List.getElem?_eq_some_iff.mp hc).2] at hswap
    exact hswap.trans h.perm
  placed := by
    intro i x r hiq hx hr
    rw [getElem?_exchange (lt_length_of_getElem? ht) (lt_length_of_getElem? hc), if_neg hiq] at hx
    -- the hole was filled and its back pointer written; the rest is as before
    by_cases hip : i = pos
    · rw [if_pos hip, Option.some.injEq] at hx
      rw [← hx] at hr
      rw [hip, writeRef_same refs hr]
      exact Or.inl rfl
    · rw [if_neg hip] at hx
      -- another item points to another variable
      have hcr : c.ref ≠ some r := fun hcr =>
        hiq ((hd.perm h.perm).eq_of_ref hx hc hr hcr)
      rw [writeRef_other refs hcr]
      exact h.placed i x r hip hx hr
  frame := by
    intro r hr
    have hmem : c ∈ a₀ := h.perm.mem_iff.mp (List.mem_of_getElem? hc)
    rw [writeRef_other refs (hr c hmem)]
    exact h.frame r hr

/-- The end of a sift: the carried item is written into the hole. -/
theorem Sifting.finish (h : Sifting a₀ refs₀ pos₀ v refs pos) (hd : DistinctRefs a₀)
    {t : HeapItem ρ} (ht : v[pos]? = some t) (hord : Ordered (keyAt v) v.length) :
    Sifted a₀ refs₀ pos₀ v (writeRef refs t.ref pos) where
  perm := h.perm
  ordered := hord
  placed := by
    intro i x r hx hr
    by_cases hip : i = pos
    · rw [hip, ht, Option.some.injEq] at hx
      rw [← hx] at hr
      rw [hip, writeRef_same refs hr]
      exact Or.inl rfl
    · have htr : t.ref ≠ some r := fun htr => hip ((hd.perm h.perm).eq_of_ref hx ht hr htr)
      rw [writeRef_other refs htr]
      exact h.placed i x r hip hx hr
  frame := by
    intro r hr
    have hmem : t ∈ a₀ := h.perm.mem_iff.mp (List.mem_of_getElem? ht)
    rw [writeRef_other refs (hr t hmem)]
    exact h.frame r hr

end

/-! ## Sifting up -/

section

variable {a₀ : List (HeapItem ρ)} {refs₀ : Refs ρ} {pos₀ : Nat} {t : HeapItem ρ}

/-- The loop of `heap_up`: the hole rises until its parent is not larger. -/
theorem heapUpLoop_spec (hd : DistinctRefs a₀) : ∀ (fuel pos : Nat) (a : List (HeapItem ρ))
    (refs : Refs ρ), pos < fuel → pos < a.length →
    Sifting a₀ refs₀ pos₀ (a.set pos t) refs pos →
    OrderedExcept (keyAt (a.set pos t)) a.length pos →
    (∀ c, 0 < c → c < a.length → parent c = pos →
      keyAt (a.set pos t) pos ≤ keyAt (a.set pos t) c) →
    ∃ a' refs' pos', heapUpLoop t fuel a refs pos = .ok (a', refs', pos') ∧
      pos' < a'.length ∧ Sifting a₀ refs₀ pos₀ (a'.set pos' t) refs' pos' ∧
      Ordered (keyAt (a'.set pos' t)) a'.length := by
  intro fuel
  -- the position falls with every turn, so `pos < fuel` is kept
  induction fuel with
  | zero =>
      intro pos a refs hfuel
      exact absurd hfuel (Nat.not_lt_zero _)
  | succ fuel ih =>
      intro pos a refs hfuel hpos hsift hord hbelow
      have ht : (a.set pos t)[pos]? = some t := List.getElem?_set_self hpos
      unfold heapUpLoop
      by_cases h0 : 0 < pos
      · rw [if_pos h0, heapParent_eq h0]
        have hlt := parent_lt h0
        have hpl : parent pos < a.length := by omega
        have hget : a[parent pos]? = some a[parent pos] := List.getElem?_eq_getElem hpl
        generalize a[parent pos] = p at hget
        have hc : (a.set pos t)[parent pos]? = some p := by
          rw [List.getElem?_set_ne (by omega)]
          exact hget
        simp only [hget]
        -- the parent is larger: it moves down, and the hole goes up
        by_cases hval : t.val < p.val
        · rw [if_pos hval]
          have hkey : keyAt (a.set pos t) pos < keyAt (a.set pos t) (parent pos) := by
            rw [keyAt_eq ht, keyAt_eq hc]
            exact hval
          have hstep := hord.up_step h0 hpos hkey
          have hmove := hsift.move hd ht hc
          rw [← keyAt_exchange ht hc] at hstep
          rw [List.set_set] at hstep hmove
          have hlen : (a.set pos p).length = a.length := List.length_set
          rw [← hlen] at hstep
          refine ih (parent pos) (a.set pos p) _ (by omega) ?_ hmove hstep.1 ?_
          · rw [List.length_set]
            exact hpl
          · intro c hc0 hcn hpc
            exact hstep.2 c hc0 hcn hpc
        · rw [if_neg hval]
          refine ⟨a, refs, pos, rfl, hpos, hsift, hord.up_done hbelow fun _ => ?_⟩
          rw [keyAt_eq ht, keyAt_eq hc]
          omega
      · rw [if_neg h0]
        exact ⟨a, refs, pos, rfl, hpos, hsift, hord.up_done hbelow fun h => absurd h h0⟩

/-- `heap_up` puts the array in order. -/
theorem heapUp_spec {a : List (HeapItem ρ)} {refs : Refs ρ} {pos : Nat} (hd : DistinctRefs a)
    (hpos : pos < a.length) (hord : OrderedExcept (keyAt a) a.length pos)
    (hbelow : ∀ c, 0 < c → c < a.length → parent c = pos → keyAt a pos ≤ keyAt a c) :
    ∃ a' refs', heapUp a refs pos = .ok (a', refs') ∧ Sifted a refs pos a' refs' := by
  have hget : a[pos]? = some a[pos] := List.getElem?_eq_getElem hpos
  generalize a[pos] = t at hget
  have hset : a.set pos t = a := by
    rw [← (List.getElem?_eq_some_iff.mp hget).2]
    exact List.set_getElem_self hpos
  have hsift : Sifting a refs pos (a.set pos t) refs pos := by
    rw [hset]
    exact Sifting.start a refs pos
  rw [← hset] at hord hbelow
  rw [List.length_set] at hord hbelow
  rcases heapUpLoop_spec hd (pos + 1) pos a refs (Nat.lt_succ_self pos) hpos hsift hord hbelow with
    ⟨a', refs', pos', hloop, hpos', hs, ho⟩
  simp only [heapUp, hget, hloop, ok_bind]
  refine ⟨_, _, rfl, hs.finish hd (List.getElem?_set_self hpos') ?_⟩
  rw [List.length_set]
  exact ho

/-! ## Sifting down -/

omit [DecidableEq ρ] in
theorem heapVal_eq {a : List (HeapItem ρ)} {i : Nat} (hi : i < a.length) :
    heapVal a i = .ok (keyAt a i) := by
  rw [heapVal, keyAt, List.getElem?_eq_getElem hi]

omit [DecidableEq ρ] in
/-- The position picked is the hole when no child is smaller, and else the
    smallest child. -/
theorem heapMinPos_spec (a : List (HeapItem ρ)) (val pos : Nat) :
    ∃ m, heapMinPos a val pos a.length = .ok m ∧
      ((m = pos ∧ ∀ c, 0 < c → c < a.length → parent c = pos → val ≤ keyAt a c) ∨
      (0 < m ∧ m < a.length ∧ parent m = pos ∧ keyAt a m < val ∧
        ∀ c, 0 < c → c < a.length → parent c = pos → keyAt a m ≤ keyAt a c)) := by
  -- The two children are the two cases of every bound below.
  have hchild : ∀ c, 0 < c → parent c = pos → c = heapLeft pos ∨ c = heapRight pos :=
    fun c hc hp => (parent_eq_iff hc).mp hp
  have hl0 : 0 < heapLeft pos := Nat.succ_pos _
  have hr0 : 0 < heapRight pos := Nat.succ_pos _
  have hlp : parent (heapLeft pos) = pos := (parent_eq_iff hl0).mpr (Or.inl rfl)
  have hrp : parent (heapRight pos) = pos := (parent_eq_iff hr0).mpr (Or.inr rfl)
  have hlr : heapLeft pos < heapRight pos := Nat.lt_succ_self _
  unfold heapMinPos
  -- two children, one, or none
  by_cases hr : heapRight pos < a.length
  · have hl : heapLeft pos < a.length := hlr.trans hr
    simp only [if_pos hl, if_pos hr, heapVal_eq hl, heapVal_eq hr, ok_bind]
    by_cases hlv : keyAt a (heapLeft pos) < val
    · simp only [if_pos hlv, ok_bind]
      by_cases hrv : keyAt a (heapRight pos) < keyAt a (heapLeft pos)
      · rw [if_pos hrv]
        refine ⟨_, rfl, Or.inr ⟨hr0, hr, hrp, hrv.trans hlv, fun c hc _ hp => ?_⟩⟩
        rcases hchild c hc hp with rfl | rfl
        · exact le_of_lt hrv
        · exact le_refl _
      · rw [if_neg hrv]
        refine ⟨_, rfl, Or.inr ⟨hl0, hl, hlp, hlv, fun c hc _ hp => ?_⟩⟩
        rcases hchild c hc hp with rfl | rfl
        · exact le_refl _
        · exact not_lt.mp hrv
    · simp only [if_neg hlv, ok_bind]
      by_cases hrv : keyAt a (heapRight pos) < val
      · rw [if_pos hrv]
        refine ⟨_, rfl, Or.inr ⟨hr0, hr, hrp, hrv, fun c hc _ hp => ?_⟩⟩
        rcases hchild c hc hp with rfl | rfl
        · exact (le_of_lt hrv).trans (not_lt.mp hlv)
        · exact le_refl _
      · rw [if_neg hrv]
        refine ⟨_, rfl, Or.inl ⟨rfl, fun c hc _ hp => ?_⟩⟩
        rcases hchild c hc hp with rfl | rfl
        · exact not_lt.mp hlv
        · exact not_lt.mp hrv
  · by_cases hl : heapLeft pos < a.length
    · simp only [if_pos hl, if_neg hr, heapVal_eq hl, ok_bind]
      by_cases hlv : keyAt a (heapLeft pos) < val
      · simp only [if_pos hlv, ok_bind]
        refine ⟨_, rfl, Or.inr ⟨hl0, hl, hlp, hlv, fun c hc hcn hp => ?_⟩⟩
        rcases hchild c hc hp with rfl | rfl
        · exact le_refl _
        · exact absurd hcn hr
      · simp only [if_neg hlv, ok_bind]
        refine ⟨_, rfl, Or.inl ⟨rfl, fun c hc hcn hp => ?_⟩⟩
        rcases hchild c hc hp with rfl | rfl
        · exact not_lt.mp hlv
        · exact absurd hcn hr
    · simp only [if_neg hl, if_neg hr, ok_bind]
      refine ⟨_, rfl, Or.inl ⟨rfl, fun c hc hcn hp => ?_⟩⟩
      rcases hchild c hc hp with rfl | rfl
      · exact absurd hcn hl
      · exact absurd hcn hr

/-- The loop of `heap_down`: the hole sinks until no child is smaller. -/
theorem heapDownLoop_spec (hd : DistinctRefs a₀) : ∀ (fuel pos : Nat) (a : List (HeapItem ρ))
    (refs : Refs ρ), a.length - pos < fuel → pos < a.length →
    Sifting a₀ refs₀ pos₀ (a.set pos t) refs pos →
    OrderedExcept (keyAt (a.set pos t)) a.length pos →
    (0 < pos → keyAt (a.set pos t) (parent pos) ≤ keyAt (a.set pos t) pos) →
    ∃ a' refs' pos', heapDownLoop t a.length fuel a refs pos = .ok (a', refs', pos') ∧
      pos' < a'.length ∧ Sifting a₀ refs₀ pos₀ (a'.set pos' t) refs' pos' ∧
      Ordered (keyAt (a'.set pos' t)) a'.length := by
  intro fuel
  -- the distance to the end falls with every turn
  induction fuel with
  | zero =>
      intro pos a refs hfuel
      exact absurd hfuel (Nat.not_lt_zero _)
  | succ fuel ih =>
      intro pos a refs hfuel hpos hsift hord habove
      have ht : (a.set pos t)[pos]? = some t := List.getElem?_set_self hpos
      -- The hole's copy is not a child of the hole.
      have hkeys : ∀ c, 0 < c → parent c = pos → keyAt (a.set pos t) c = keyAt a c := by
        intro c hc hp
        have hlt := parent_lt hc
        exact keyAt_congr (List.getElem?_set_ne (by omega))
      unfold heapDownLoop
      rcases heapMinPos_spec a t.val pos with ⟨m, hm, ⟨hmp, hstop⟩ | ⟨hm0, hmn, hmp, hlt, hmin⟩⟩
      · rw [hm, ok_bind, if_pos hmp]
        refine ⟨a, refs, pos, rfl, hpos, hsift, hord.down_done habove fun c hc hcn hp => ?_⟩
        rw [keyAt_eq ht, hkeys c hc hp]
        exact hstop c hc hcn hp
      · have hlt' := parent_lt hm0
        have hget : a[m]? = some a[m] := List.getElem?_eq_getElem hmn
        generalize a[m] = c at hget
        have hc : (a.set pos t)[m]? = some c := by
          rw [List.getElem?_set_ne (by omega)]
          exact hget
        rw [hm, ok_bind, if_neg (by omega)]
        simp only [hget]
        have hstep := hord.down_step hm0 hmn hmp (by rw [keyAt_eq ht, hkeys m hm0 hmp]; exact hlt)
          (fun d hd0 hdn hdp => by
            rw [hkeys m hm0 hmp, hkeys d hd0 hdp]
            exact hmin d hd0 hdn hdp)
        have hmove := hsift.move hd ht hc
        rw [← keyAt_exchange ht hc] at hstep
        rw [List.set_set] at hstep hmove
        have hlen : (a.set pos c).length = a.length := List.length_set
        rw [← hlen] at hstep ⊢
        exact ih m (a.set pos c) _ (by omega) (by omega) hmove hstep.1 hstep.2

/-- `heap_down` puts the array in order. -/
theorem heapDown_spec {a : List (HeapItem ρ)} {refs : Refs ρ} {pos : Nat} (hd : DistinctRefs a)
    (hpos : pos < a.length) (hord : OrderedExcept (keyAt a) a.length pos)
    (habove : 0 < pos → keyAt a (parent pos) ≤ keyAt a pos) :
    ∃ a' refs', heapDown a refs pos a.length = .ok (a', refs') ∧ Sifted a refs pos a' refs' := by
  have hget : a[pos]? = some a[pos] := List.getElem?_eq_getElem hpos
  generalize a[pos] = t at hget
  have hset : a.set pos t = a := by
    rw [← (List.getElem?_eq_some_iff.mp hget).2]
    exact List.set_getElem_self hpos
  have hsift : Sifting a refs pos (a.set pos t) refs pos := by
    rw [hset]
    exact Sifting.start a refs pos
  rw [← hset] at hord habove
  rw [List.length_set] at hord
  rcases heapDownLoop_spec hd (a.length + 1) pos a refs (by omega) hpos hsift hord habove with
    ⟨a', refs', pos', hloop, hpos', hs, ho⟩
  simp only [heapDown, hget, hloop, ok_bind]
  refine ⟨_, _, rfl, hs.finish hd (List.getElem?_set_self hpos') ?_⟩
  rw [List.length_set]
  exact ho

/-- `heap_update`: an array in order except around one position is put in
    order. The way it goes is decided by the parent, and the bridge across the
    position makes either way sound. -/
theorem heapUpdate_spec {a : List (HeapItem ρ)} (refs : Refs ρ) {pos : Nat} (hd : DistinctRefs a)
    (hpos : pos < a.length) (hord : OrderedExcept (keyAt a) a.length pos) :
    ∃ a' refs', heapUpdate a refs pos a.length = .ok (a', refs') ∧ Sifted a refs pos a' refs' := by
  unfold heapUpdate
  by_cases h0 : 0 < pos
  · have hlt := parent_lt h0
    simp only [if_pos h0, heapParent_eq h0, heapVal_eq hpos,
      heapVal_eq (a := a) (i := parent pos) (by omega), ok_bind]
    by_cases hup : keyAt a pos < keyAt a (parent pos)
    · rw [if_pos (decide_eq_true hup)]
      exact heapUp_spec hd hpos hord fun c hc hcn hp =>
        (le_of_lt hup).trans (hord.across h0 c hc hcn hp)
    · rw [if_neg (by rw [decide_eq_true_eq]; exact hup)]
      exact heapDown_spec hd hpos hord fun _ => not_lt.mp hup
  · simp only [if_neg h0, ok_bind, Bool.false_eq_true, if_false]
    exact heapDown_spec hd hpos hord fun h => absurd h h0

end

end RedisServer
