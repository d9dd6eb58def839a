import RedisServer.Lib.Run
import Mathlib.Algebra.GroupWithZero.Nat

/-!
# Potentials

A bound on the number of steps that matter. Some steps of a machine leave alone
what one looks at. If every other step takes one off a potential, and some
events add to it, then a run has no more steps that matter than its potential
at the start and what its events add.

## Main definitions

* `stepsMoved`: How many steps of a run are not still.

## Theorems

* `stepsMoved_le`: The bound.
* `sum_set`, `sum_le_of_get`: A potential that is a sum over the parts of a
  state.
-/

namespace Lib

variable {σ ε ρ φ : Type}

/-- How many steps of a run are not still. -/
def stepsMoved (step : σ → ε → Except φ (σ × ρ)) (still : σ → σ → Prop)
    [∀ s t, Decidable (still s t)] : σ → List ε → Nat
  | _, [] => 0
  | s, e :: es =>
    match step s e with
    | .error _ => 0
    | .ok x => (if still s x.1 then 0 else 1) + stepsMoved step still x.1 es

/-- Every step that is not still is paid for by the potential, and an event may
    add to it. -/
theorem stepsMoved_le {step : σ → ε → Except φ (σ × ρ)} {still : σ → σ → Prop}
    [∀ s t, Decidable (still s t)] {I : σ → Prop} {G : σ → ε → Prop} {potential : σ → Nat}
    {cost : ε → Nat}
    (hstep : ∀ s e s' r, I s → G s e → step s e = .ok (s', r) →
      I s' ∧ potential s' + (if still s s' then 0 else 1) ≤ potential s + cost e)
    {s : σ} (hI : I s) {es : List ε} (hG : Guarded step G s es) :
    stepsMoved step still s es ≤ potential s + (es.map cost).sum := by
  induction es generalizing s with
  | nil => exact Nat.zero_le _
  | cons e es ih =>
      rw [stepsMoved, List.map_cons, List.sum_cons]
      cases hrun : step s e with
      | error err => exact Nat.zero_le _
      | ok x =>
          rcases hstep s e x.1 x.2 hI hG.1 hrun with ⟨hI', hpay⟩
          have hrest := ih hI' (hG.2 x.1 x.2 hrun)
          simp only
          omega

/-! ## The sum over the parts of a state -/

variable {α : Type}

/-- A part of the state is replaced. -/
theorem sum_set (f : α → Nat) {l : List α} {i : Nat} {x : α} (h : l[i]? = some x) (y : α) :
    ((l.set i y).map f).sum + f x = (l.map f).sum + f y := by
  induction l generalizing i with
  | nil => cases h
  | cons z l ih =>
      cases i with
      | zero =>
          rw [List.getElem?_cons_zero, Option.some.injEq] at h
          rw [List.set_cons_zero, List.map_cons, List.map_cons, List.sum_cons, List.sum_cons, h]
          omega
      | succ i =>
          rw [List.getElem?_cons_succ] at h
          have hrest := ih h
          rw [List.set_cons_succ, List.map_cons, List.map_cons, List.sum_cons, List.sum_cons]
          omega

/-- Each part adds no more than `k`. -/
theorem sum_le_of_get (f : α → Nat) (k : Nat) {l l' : List α}
    (hlen : l'.length = l.length)
    (h : ∀ (i : Nat) x y, l[i]? = some x → l'[i]? = some y → f y ≤ f x + k) :
    (l'.map f).sum ≤ (l.map f).sum + k * l.length := by
  induction l generalizing l' with
  | nil =>
      rw [List.length_eq_zero_iff.mp hlen]
      exact Nat.zero_le _
  | cons x l ih =>
      cases l' with
      | nil => cases hlen
      | cons y l' =>
          have hhead := h 0 x y rfl rfl
          have hrest := ih (Nat.succ.inj hlen) fun i x y hx hy => h (i + 1) x y hx hy
          rw [List.map_cons, List.map_cons, List.sum_cons, List.sum_cons, List.length_cons,
            Nat.mul_succ]
          omega

end Lib
