import RedisServer.Theory.Heap.Sift
import Mathlib.Data.Nat.Log

/-!
# The Turns of a Sift

How often the loops of `heap_up` and `heap_down` turn. Each turn moves the hole
to its parent or to a child, which halves or doubles the position, so there are
no more turns than the array has levels. This holds of any array, in order or
not.

A loop of the model is told how many turns it may take, and reports
`noProgress` when it is not done then. That it is done within a number of turns
is said by giving it that number.

## Main definitions

* `heapUpIn`, `heapDownIn`, `heapUpdateIn`: The sifts, told how many turns their
  loops may take.

## Theorems

* `heapUpLoop_turns`, `heapDownLoop_turns`: The two loops.
* `heap_update_turns`: `heap_update` is done within the number of levels.
-/

namespace RedisServer

open Lib HeapOrder

section

variable {ρ : Type} [DecidableEq ρ]

/-- `heap_up`, with a number of turns. -/
def heapUpIn (turns : Nat) (a : List (HeapItem ρ)) (refs : Refs ρ) (pos : Nat) :
    Result (List (HeapItem ρ) × Refs ρ) :=
  match a[pos]? with
  | none => .error .outOfBounds
  | some t => do
    let (a, refs, pos) ← heapUpLoop t turns a refs pos
    .ok (a.set pos t, writeRef refs t.ref pos)

/-- `heap_down`, with a number of turns. -/
def heapDownIn (turns : Nat) (a : List (HeapItem ρ)) (refs : Refs ρ) (pos len : Nat) :
    Result (List (HeapItem ρ) × Refs ρ) :=
  match a[pos]? with
  | none => .error .outOfBounds
  | some t => do
    let (a, refs, pos) ← heapDownLoop t len turns a refs pos
    .ok (a.set pos t, writeRef refs t.ref pos)

/-- `heap_update`, with a number of turns. -/
def heapUpdateIn (turns : Nat) (a : List (HeapItem ρ)) (refs : Refs ρ) (pos len : Nat) :
    Result (List (HeapItem ρ) × Refs ρ) := do
  let up ←
    (if 0 < pos then do
      let p ← heapVal a (heapParent pos)
      let v ← heapVal a pos
      .ok (decide (v < p))
    else .ok false)
  if up then heapUpIn turns a refs pos else heapDownIn turns a refs pos len

/-- Two numbers of turns that are both above the level of the position. -/
theorem heapUpLoop_turns (t : HeapItem ρ) {m n : Nat} {a : List (HeapItem ρ)} {refs : Refs ρ}
    {pos : Nat} (hpos : pos < a.length) (hm : pos + 1 < 2 ^ m) (hn : pos + 1 < 2 ^ n) :
    ∃ r, heapUpLoop t m a refs pos = .ok r ∧ heapUpLoop t n a refs pos = .ok r := by
  induction m generalizing n a refs pos with
  | zero => exact absurd hm (by simp only [Nat.pow_zero]; omega)
  | succ m ih =>
      cases n with
      | zero => exact absurd hn (by simp only [Nat.pow_zero]; omega)
      | succ n =>
          rw [heapUpLoop, heapUpLoop]
          by_cases htop : 0 < pos
          · have hparent : heapParent pos + 1 = (pos + 1) / 2 := by
              rw [heapParent]
              omega
            have hlt : heapParent pos < a.length := by omega
            rw [Nat.pow_succ] at hm hn
            rw [if_pos htop, if_pos htop, List.getElem?_eq_getElem hlt]
            simp only
            by_cases hless : t.val < a[heapParent pos].val
            · -- the parent is one level up
              rw [if_pos hless, if_pos hless]
              exact ih (by rw [List.length_set]; exact hlt) (by omega) (by omega)
            · rw [if_neg hless, if_neg hless]
              exact ⟨_, rfl, rfl⟩
          · rw [if_neg htop, if_neg htop]
            exact ⟨_, rfl, rfl⟩

/-- Two numbers of turns that both lead below the last level. -/
theorem heapDownLoop_turns (t : HeapItem ρ) {m n : Nat} {a : List (HeapItem ρ)} {refs : Refs ρ}
    {pos : Nat} (hpos : pos < a.length) (hm : a.length < (pos + 1) * 2 ^ m)
    (hn : a.length < (pos + 1) * 2 ^ n) :
    ∃ r, heapDownLoop t a.length m a refs pos = .ok r ∧
      heapDownLoop t a.length n a refs pos = .ok r := by
  induction m generalizing n a refs pos with
  | zero => exact absurd hm (by rw [Nat.pow_zero, Nat.mul_one]; omega)
  | succ m ih =>
      cases n with
      | zero => exact absurd hn (by rw [Nat.pow_zero, Nat.mul_one]; omega)
      | succ n =>
          rw [heapDownLoop, heapDownLoop]
          rcases heapMinPos_spec a t.val pos with ⟨q, hq, ⟨hstay, _⟩ | ⟨hq0, hlt, hp, _⟩⟩
          · rw [hq, ok_bind, ok_bind, if_pos hstay, if_pos hstay]
            exact ⟨_, rfl, rfl⟩
          · have hne : q ≠ pos := by
              intro heq
              have := parent_lt hq0
              omega
            rw [hq, ok_bind, ok_bind, if_neg hne, if_neg hne, List.getElem?_eq_getElem hlt]
            simp only
            -- a child is one level down
            have hdouble : (pos + 1) * 2 ≤ q + 1 := by
              rcases (parent_eq_iff hq0).mp hp with rfl | rfl <;> omega
            have hlevel : ∀ k, a.length < (pos + 1) * 2 ^ (k + 1) → a.length < (q + 1) * 2 ^ k := by
              intro k hk
              rw [Nat.pow_succ, Nat.mul_comm (2 ^ k), ← Nat.mul_assoc] at hk
              exact Nat.lt_of_lt_of_le hk (Nat.mul_le_mul_right _ hdouble)
            have hlen : (a.set pos a[q]).length = a.length := List.length_set
            rw [← hlen] at hlt hlevel hm hn ⊢
            exact ih hlt (hlevel m hm) (hlevel n hn)

end

/-- For every array, every item of it and whatever it holds: `heap_update` at
    that item returns, and its loop turns no more often than the array has
    levels. -/
theorem heap_update_turns {ρ : Type} [DecidableEq ρ] (a : List (HeapItem ρ)) (refs : Refs ρ)
    (pos : Nat) (hpos : pos < a.length) :
    ∃ r, heapUpdateIn (Nat.log 2 a.length + 1) a refs pos a.length = .ok r ∧
      heapUpdate a refs pos a.length = .ok r := by
  have hlog : a.length < 2 ^ (Nat.log 2 a.length + 1) :=
    Nat.lt_pow_succ_log_self (by decide) _
  have hpow : pos + 1 < 2 ^ (pos + 1) := Nat.lt_two_pow_self
  have hpow' : a.length + 1 < 2 ^ (a.length + 1) := Nat.lt_two_pow_self
  have hone : ∀ k, 2 ^ k ≤ (pos + 1) * 2 ^ k := fun k => Nat.le_mul_of_pos_left _ (Nat.succ_pos pos)
  have hup : ∀ t : HeapItem ρ, ∃ r, heapUpLoop t (Nat.log 2 a.length + 1) a refs pos = .ok r ∧
      heapUpLoop t (pos + 1) a refs pos = .ok r := fun t =>
    heapUpLoop_turns t hpos (by omega) hpow
  have hdown : ∀ t : HeapItem ρ, ∃ r,
      heapDownLoop t a.length (Nat.log 2 a.length + 1) a refs pos = .ok r ∧
      heapDownLoop t a.length (a.length + 1) a refs pos = .ok r := fun t =>
    heapDownLoop_turns t hpos (Nat.lt_of_lt_of_le hlog (hone _))
      (Nat.lt_of_lt_of_le (by omega) (hone _))
  have hat : a[pos]? = some a[pos] := List.getElem?_eq_getElem hpos
  have hsiftUp : ∃ r, heapUpIn (Nat.log 2 a.length + 1) a refs pos = .ok r ∧
      heapUp a refs pos = .ok r := by
    rcases hup a[pos] with ⟨r, hin, hown⟩
    rw [heapUpIn, heapUp, hat]
    simp only [hin, hown, ok_bind]
    exact ⟨_, rfl, rfl⟩
  have hsiftDown : ∃ r, heapDownIn (Nat.log 2 a.length + 1) a refs pos a.length = .ok r ∧
      heapDown a refs pos a.length = .ok r := by
    rcases hdown a[pos] with ⟨r, hin, hown⟩
    rw [heapDownIn, heapDown, hat]
    simp only [hin, hown, ok_bind]
    exact ⟨_, rfl, rfl⟩
  rw [heapUpdateIn, heapUpdate]
  by_cases htop : 0 < pos
  · have hparent : heapParent pos < a.length := by
      rw [heapParent]
      omega
    simp only [if_pos htop, heapVal_eq hparent, heapVal_eq hpos, ok_bind]
    by_cases hless : keyAt a pos < keyAt a (heapParent pos)
    · simp only [hless, decide_true, if_true]
      exact hsiftUp
    · simp only [hless, decide_false, Bool.false_eq_true, if_false]
      exact hsiftDown
  · simp only [if_neg htop, ok_bind, Bool.false_eq_true, if_false]
    exact hsiftDown

/-- An item of seven that became the smallest, below a full row: three turns
    are enough. -/
theorem heap_update_turns_seven : ∃ r : List (HeapItem Nat) × Refs Nat,
    heapUpdateIn 3 ([1, 2, 3, 4, 5, 6, 0].map fun v => ⟨v, some v⟩) (fun _ => none) 6 7 = .ok r ∧
      heapUpdate ([1, 2, 3, 4, 5, 6, 0].map fun v => ⟨v, some v⟩) (fun _ => none) 6 7 = .ok r :=
  heap_update_turns ([1, 2, 3, 4, 5, 6, 0].map fun v => ⟨v, some v⟩) (fun _ => none) 6 (by decide)

end RedisServer
