import Mathlib.Data.List.Basic

/-!
# Lines

A text as its lines, each with a terminator after it. A text has one list of
lines, as long as the terminator is in none of them.

## Main definitions

* `unlines`: The text of a list of lines.

## Theorems

* `append_stop_inj`: The first terminator splits a text.
* `unlines_inj`: A text determines its lines.
-/

namespace Lib

variable {α : Type}

/-- The text of a list of lines. -/
def unlines (stop : α) (lines : List (List α)) : List α := lines.flatMap fun l => l ++ [stop]

@[simp] theorem unlines_nil (stop : α) : unlines stop [] = [] := rfl

@[simp] theorem unlines_cons (stop : α) (l : List α) (lines : List (List α)) :
    unlines stop (l :: lines) = l ++ stop :: unlines stop lines := by
  rw [unlines, List.flatMap_cons, List.append_assoc, List.singleton_append, unlines]

theorem unlines_append (stop : α) (lines lines' : List (List α)) :
    unlines stop (lines ++ lines') = unlines stop lines ++ unlines stop lines' :=
  List.flatMap_append

/-- The first terminator splits a text. -/
theorem append_stop_inj {stop : α} {l l' r r' : List α} (h : stop ∉ l) (h' : stop ∉ l') :
    l ++ stop :: r = l' ++ stop :: r' ↔ l = l' ∧ r = r' := by
  constructor
  · intro heq
    induction l generalizing l' with
    | nil =>
        cases l' with
        | nil => exact ⟨rfl, (List.cons_eq_cons.mp heq).2⟩
        | cons a l' => exact absurd (List.mem_cons.mpr (Or.inl (List.cons_eq_cons.mp heq).1)) h'
    | cons a l ih =>
        cases l' with
        | nil => exact absurd (List.mem_cons.mpr (Or.inl (List.cons_eq_cons.mp heq).1.symm)) h
        | cons a' l' =>
            rw [List.cons_append, List.cons_append, List.cons_eq_cons] at heq
            rcases ih (fun hl => h (List.mem_cons_of_mem a hl))
              (fun hl => h' (List.mem_cons_of_mem a' hl)) heq.2 with ⟨rfl, hr⟩
            exact ⟨by rw [heq.1], hr⟩
  · intro heq
    rw [heq.1, heq.2]

/-- A text determines its lines. -/
theorem unlines_inj {stop : α} {lines lines' : List (List α)} (h : ∀ l ∈ lines, stop ∉ l)
    (h' : ∀ l ∈ lines', stop ∉ l) (heq : unlines stop lines = unlines stop lines') :
    lines = lines' := by
  induction lines generalizing lines' with
  | nil =>
      cases lines' with
      | nil => rfl
      | cons l' lines' =>
          rw [unlines_nil, unlines_cons, eq_comm, List.append_eq_nil_iff] at heq
          cases heq.2
  | cons l lines ih =>
      cases lines' with
      | nil =>
          rw [unlines_nil, unlines_cons, List.append_eq_nil_iff] at heq
          cases heq.2
      | cons l' lines' =>
          rw [unlines_cons, unlines_cons, append_stop_inj (h l List.mem_cons_self)
            (h' l' List.mem_cons_self)] at heq
          rw [heq.1, ih (fun x hx => h x (List.mem_cons_of_mem _ hx))
            (fun x hx => h' x (List.mem_cons_of_mem _ hx)) heq.2]

end Lib
