import RedisServer.Theory.Heap.Sift
import Mathlib.Order.RelClasses

/-!
# What a Repair Writes

`heap_update` leaves every item it moved with its position written. It also
leaves the others alone. Whether a sift goes up or down, its hole moves on and
never comes back, so what it takes from ahead ends where the hole was before.
Each back pointer it writes thus belongs to an item that is then somewhere
else than it was, or to the one it carries.

## Main definitions

* `Slides`: The way of a hole through the array.
* `WrittenFor`: The variables a sift may have changed.
* `Repaired`: What `heap_update` makes of an array and its back pointers.

## Theorems

* `Slides.written`: What the hole leaves behind.
* `heapUpdate_writtenFor`: What `heap_update` writes.
* `heapUpdate_repairs`: A single change is repaired.
-/

namespace RedisServer

open Lib HeapOrder

variable {ρ : Type} [DecidableEq ρ]

/-- The way of a hole: what is at a position ahead of it moves into it, its
    back pointer is written, and the hole is there. -/
inductive Slides (ahead : Nat → Nat → Prop) (a' : List (HeapItem ρ)) (refs' : Refs ρ) (pos' : Nat) :
    List (HeapItem ρ) → Refs ρ → Nat → Prop
  | done : Slides ahead a' refs' pos' a' refs' pos'
  | slide {a : List (HeapItem ρ)} {refs : Refs ρ} {pos q : Nat} {c : HeapItem ρ} :
      ahead q pos → a[q]? = some c →
      Slides ahead a' refs' pos' (a.set pos c) (writeRef refs c.ref pos) q →
      Slides ahead a' refs' pos' a refs pos

/-- The loop of `heap_up` goes to lower positions. -/
theorem heapUpLoop_slides {t : HeapItem ρ} {fuel pos pos' : Nat} {a a' : List (HeapItem ρ)}
    {refs refs' : Refs ρ} (h : heapUpLoop t fuel a refs pos = .ok (a', refs', pos')) :
    Slides (· < ·) a' refs' pos' a refs pos := by
  induction fuel generalizing pos a refs with
  | zero => cases h
  | succ fuel ih =>
    have hstop : (Except.ok (a, refs, pos) : Result (List (HeapItem ρ) × Refs ρ × Nat)) =
        .ok (a', refs', pos') → Slides (· < ·) a' refs' pos' a refs pos := by
      intro heq
      cases heq
      exact .done
    rw [heapUpLoop] at h
    by_cases h0 : 0 < pos
    · rw [if_pos h0] at h
      cases hp : a[heapParent pos]? with
      | none =>
        simp only [hp] at h
        cases h
      | some p =>
        simp only [hp] at h
        by_cases hval : t.val < p.val
        · rw [if_pos hval] at h
          have hlt : heapParent pos < pos := by
            rw [heapParent_eq h0]
            exact parent_lt h0
          exact .slide hlt hp (ih h)
        · rw [if_neg hval] at h
          exact hstop h
    · rw [if_neg h0] at h
      exact hstop h

/-- The loop of `heap_down` goes to higher ones. -/
theorem heapDownLoop_slides {t : HeapItem ρ} {fuel pos pos' : Nat} {a a' : List (HeapItem ρ)}
    {refs refs' : Refs ρ} (h : heapDownLoop t a.length fuel a refs pos = .ok (a', refs', pos')) :
    Slides (· > ·) a' refs' pos' a refs pos := by
  induction fuel generalizing pos a refs with
  | zero => cases h
  | succ fuel ih =>
    rw [heapDownLoop] at h
    rcases heapMinPos_spec a t.val pos with ⟨m, hm, ⟨hmp, _⟩ | ⟨hm0, hmn, hmp, _⟩⟩
    · rw [hm, ok_bind, if_pos hmp] at h
      cases h
      exact .done
    · have hlt : m > pos := by
        rw [← hmp]
        exact parent_lt hm0
      rw [hm, ok_bind, if_neg (Nat.ne_of_gt hlt)] at h
      have hc := List.getElem?_eq_getElem hmn
      simp only [hc] at h
      refine .slide hlt hc (ih ?_)
      rw [List.length_set]
      exact h

/-- What the hole leaves behind: it does not come back, and an item whose back
    pointer was written was ahead of the place it is at now. -/
theorem Slides.written {ahead : Nat → Nat → Prop} [IsStrictOrder Nat ahead] {pos pos' : Nat}
    {a a' : List (HeapItem ρ)} {refs refs' : Refs ρ} (h : Slides ahead a' refs' pos' a refs pos)
    (hpos : pos < a.length) :
    (pos' = pos ∨ ahead pos' pos) ∧ (∀ k, ahead pos k → a'[k]? = a[k]?) ∧
      ∀ r, refs' r ≠ refs r → ∃ (x : HeapItem ρ) (i j : Nat), x.ref = some r ∧ ahead pos' i ∧
        (i = pos ∨ ahead i pos) ∧ ahead j i ∧ a[j]? = some x ∧ a'[i]? = some x := by
  induction h with
  | done => exact ⟨Or.inl rfl, fun _ _ => rfl, fun r hr => absurd rfl hr⟩
  | @slide a refs pos q c hq hc hrest ih =>
    have hne : ∀ k, ahead k pos → pos ≠ k := fun k hk heq => irrefl_of ahead pos (heq ▸ hk)
    have hql : q < (a.set pos c).length := by
      rw [List.length_set]
      exact lt_length_of_getElem? hc
    rcases ih hql with ⟨hend, hbehind, hwritten⟩
    have hahead : ahead pos' pos := by
      rcases hend with rfl | hend
      · exact hq
      · exact trans_of ahead hend hq
    refine ⟨Or.inr hahead, fun k hk => ?_, fun r hr => ?_⟩
    · rw [hbehind k (trans_of ahead hq hk), List.getElem?_set_ne]
      exact fun heq => irrefl_of ahead pos (heq ▸ hk)
    · by_cases hlater : refs' r = writeRef refs c.ref pos r
      · -- written at this turn, and not again
        have href : c.ref = some r := by
          by_contra hcr
          exact hr (hlater.trans (writeRef_other refs hcr pos))
        refine ⟨c, pos, q, href, hahead, Or.inl rfl, hq, hc, ?_⟩
        rw [hbehind pos hq, List.getElem?_set_self hpos]
      · rcases hwritten r hlater with ⟨x, i, j, hx, hi, hiq, hji, hj, hx'⟩
        have hip : ahead i pos := by
          rcases hiq with rfl | hiq
          · exact hq
          · exact trans_of ahead hiq hq
        rw [List.getElem?_set_ne (hne j (trans_of ahead hji hip))] at hj
        exact ⟨x, i, j, hx, hi, Or.inr hip, hji, hj, hx'⟩

/-- A variable that is not what it was belongs to the item carried, or to one
    that is no longer where it was. -/
def WrittenFor (a : List (HeapItem ρ)) (refs : Refs ρ) (pos : Nat) (a' : List (HeapItem ρ))
    (refs' : Refs ρ) : Prop :=
  ∀ r, refs' r ≠ refs r → ∃ x : HeapItem ρ, x.ref = some r ∧
    (a[pos]? = some x ∨ ∃ i j : Nat, i ≠ j ∧ a[j]? = some x ∧ a'[i]? = some x)

/-- The carried item is written where the hole ends. -/
theorem Slides.writtenFor {ahead : Nat → Nat → Prop} [IsStrictOrder Nat ahead] {pos pos' : Nat}
    {a a' : List (HeapItem ρ)} {refs refs' : Refs ρ} {t : HeapItem ρ}
    (h : Slides ahead a' refs' pos' a refs pos) (ht : a[pos]? = some t) :
    WrittenFor a refs pos (a'.set pos' t) (writeRef refs' t.ref pos') := by
  intro r hr
  by_cases htr : t.ref = some r
  · exact ⟨t, htr, Or.inl ht⟩
  · rw [writeRef_other refs' htr] at hr
    rcases (h.written (lt_length_of_getElem? ht)).2.2 r hr with ⟨x, i, j, hx, hi, _, hji, hj, hx'⟩
    refine ⟨x, hx, Or.inr ⟨i, j, ?_, hj, ?_⟩⟩
    · rintro rfl
      exact irrefl_of ahead i hji
    · rw [List.getElem?_set_ne]
      · exact hx'
      · rintro rfl
        exact irrefl_of ahead pos' hi

theorem heapUp_writtenFor {a a' : List (HeapItem ρ)} {refs refs' : Refs ρ} {pos : Nat}
    (h : heapUp a refs pos = .ok (a', refs')) : WrittenFor a refs pos a' refs' := by
  rw [heapUp] at h
  cases ht : a[pos]? with
  | none =>
    simp only [ht] at h
    cases h
  | some t =>
    simp only [ht] at h
    rcases bind_eq_ok.mp h with ⟨⟨a₁, refs₁, pos'⟩, hloop, h⟩
    cases h
    exact (heapUpLoop_slides hloop).writtenFor ht

theorem heapDown_writtenFor {a a' : List (HeapItem ρ)} {refs refs' : Refs ρ} {pos : Nat}
    (h : heapDown a refs pos a.length = .ok (a', refs')) : WrittenFor a refs pos a' refs' := by
  rw [heapDown] at h
  cases ht : a[pos]? with
  | none =>
    simp only [ht] at h
    cases h
  | some t =>
    simp only [ht] at h
    rcases bind_eq_ok.mp h with ⟨⟨a₁, refs₁, pos'⟩, hloop, h⟩
    cases h
    exact (heapDownLoop_slides hloop).writtenFor ht

/-- `heap_update` goes one of the two ways. -/
theorem heapUpdate_writtenFor {a a' : List (HeapItem ρ)} {refs refs' : Refs ρ} {pos : Nat}
    (h : heapUpdate a refs pos a.length = .ok (a', refs')) : WrittenFor a refs pos a' refs' := by
  rcases bind_eq_ok.mp h with ⟨up, _, h⟩
  cases up with
  | true => exact heapUp_writtenFor h
  | false => exact heapDown_writtenFor h

/-- What `heap_update` makes of an array after a change at `pos`. The items it
    moved, and the one it placed, have their positions written, and the back
    pointers of the others are what they were. -/
structure Repaired (a : List (HeapItem ρ)) (refs : Refs ρ) (pos : Nat) (a' : List (HeapItem ρ))
    (refs' : Refs ρ) : Prop where
  perm : a'.Perm a
  ordered : Ordered (keyAt a') a'.length
  written : ∀ (i : Nat) (x : HeapItem ρ) (r : ρ), a'[i]? = some x → x.ref = some r →
    a[pos]? = some x ∨ a[i]? ≠ some x → refs' r = some i
  kept : ∀ (i : Nat) (x : HeapItem ρ) (r : ρ), a'[i]? = some x → x.ref = some r →
    a[pos]? ≠ some x → a[i]? = some x → refs' r = refs r
  frame : ∀ r, (∀ x ∈ a, x.ref ≠ some r) → refs' r = refs r
  back : (∀ (i : Nat) (x : HeapItem ρ) (r : ρ), i ≠ pos → a[i]? = some x → x.ref = some r →
      refs r = some i) →
    ∀ (i : Nat) (x : HeapItem ρ) (r : ρ), a'[i]? = some x → x.ref = some r → refs' r = some i

/-- An array that is in order but for one position is repaired. -/
theorem heapUpdate_repairs (a : List (HeapItem ρ)) (refs : Refs ρ) (pos : Nat)
    (hpos : pos < a.length) (hd : DistinctRefs a) (hord : OrderedExcept (keyAt a) a.length pos) :
    ∃ a' refs', heapUpdate a refs pos a.length = .ok (a', refs') ∧ Repaired a refs pos a' refs' := by
  rcases heapUpdate_spec refs hd hpos hord with ⟨a', refs', hrun, hs⟩
  refine ⟨a', refs', hrun, hs.perm, hs.ordered, ?_, ?_, hs.frame, ?_⟩
  · intro i x r hx hr hmoved
    rcases hs.placed i x r hx hr with hi | ⟨hne, hsame, _⟩
    · exact hi
    · rcases hmoved with hcarried | hmoved
      · exact absurd (hd.eq_of_ref hsame hcarried hr hr) hne
      · exact absurd hsame hmoved
  · intro i x r hx hr hcarried hsame
    by_contra hne
    rcases heapUpdate_writtenFor hrun r hne with ⟨y, hy, hpos' | ⟨k, j, hkj, hj, hk⟩⟩
    · have heq := hd.eq_of_ref hsame hpos' hr hy
      exact hcarried (heq ▸ hsame)
    · have hji := hd.eq_of_ref hj hsame hy hr
      have hki := (hd.perm hs.perm).eq_of_ref hk hx hy hr
      exact hkj (hki.trans hji.symm)
  · intro hright i x r hx hr
    rcases hs.placed i x r hx hr with hi | ⟨hne, hsame, hkept⟩
    · exact hi
    · rw [hkept]
      exact hright i x r hne hsame hr

/-- The root of six items was raised: it goes down two levels. -/
theorem heapUpdate_repairs_root :
    ∃ a' refs', heapUpdate (ρ := Nat)
      [⟨9, some 0⟩, ⟨2, some 1⟩, ⟨5, none⟩, ⟨4, some 3⟩, ⟨3, some 4⟩, ⟨6, some 5⟩] some 0 6 =
        .ok (a', refs') ∧
      Repaired [⟨9, some 0⟩, ⟨2, some 1⟩, ⟨5, none⟩, ⟨4, some 3⟩, ⟨3, some 4⟩, ⟨6, some 5⟩] some 0
        a' refs' := by
  refine heapUpdate_repairs _ some 0 (by decide) ?_ ⟨?_, fun h => absurd h (by decide)⟩
  · rw [DistinctRefs]
    decide
  · have haway : ∀ i < 6, 0 < i → i ≠ 0 → parent i ≠ 0 →
        keyAt (ρ := Nat) [⟨9, some 0⟩, ⟨2, some 1⟩, ⟨5, none⟩, ⟨4, some 3⟩, ⟨3, some 4⟩, ⟨6, some 5⟩] (parent i) ≤
          keyAt (ρ := Nat) [⟨9, some 0⟩, ⟨2, some 1⟩, ⟨5, none⟩, ⟨4, some 3⟩, ⟨3, some 4⟩, ⟨6, some 5⟩] i := by
      decide
    exact fun i h0 hn => haway i hn h0

end RedisServer
