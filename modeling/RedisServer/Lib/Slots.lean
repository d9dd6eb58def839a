import Mathlib.Data.List.Basic
import Mathlib.Data.List.Perm.Basic

/-!
# Arrays of Lists

Facts about a list of lists seen through its concatenation: a table of chains
seen as the sequence of everything it holds. Replacing one slot replaces one
segment of that sequence and leaves the segments on both sides alone, which
is the only fact an operation on a single chain needs.

## Theorems

* `flatten_eq_split`: The sequence split around one slot.
* `flatten_set_split`: The same split after the slot was replaced.
* `exists_slot_of_flatten_ne_nil`: A table that holds something has a slot
  that does.
* `perm_flatten_set_cons`, `flatten_set_eraseIdx_perm`: Pushing one element
  and removing one, up to order.
-/

namespace Lib

section

variable {β : Type}

theorem lt_length_of_getElem? {l : List β} {i : Nat} {x : β} (h : l[i]? = some x) :
    i < l.length := (List.getElem?_eq_some_iff.mp h).1

/-- The sequence around slot `i`: what is below, the slot, what is above. -/
theorem flatten_eq_split {l : List (List β)} {i : Nat} {x : List β} (h : l[i]? = some x) :
    l.flatten = (l.take i).flatten ++ x ++ (l.drop (i + 1)).flatten := by
  have hi := lt_length_of_getElem? h
  have hx : l[i] = x := (List.getElem?_eq_some_iff.mp h).2
  have hsplit : l = l.take i ++ x :: l.drop (i + 1) := by
    rw [← hx, List.getElem_cons_drop, List.take_append_drop]
  conv_lhs => rw [hsplit]
  rw [List.flatten_append, List.flatten_cons, List.append_assoc]

/-- Replacing a slot replaces its segment. -/
theorem flatten_set_split {l : List (List β)} {i : Nat} {x : List β} (h : l[i]? = some x)
    (y : List β) :
    (l.set i y).flatten = (l.take i).flatten ++ y ++ (l.drop (i + 1)).flatten := by
  have hi := lt_length_of_getElem? h
  rw [List.set_eq_take_append_cons_drop, if_pos hi, List.flatten_append, List.flatten_cons,
    List.append_assoc]

theorem exists_slot_of_flatten_ne_nil {l : List (List β)} (h : l.flatten ≠ []) :
    ∃ (i : Nat) (c : List β), l[i]? = some c ∧ c ≠ [] := by
  rcases List.exists_mem_of_ne_nil _ h with ⟨x, hx⟩
  rcases List.mem_flatten.mp hx with ⟨c, hc, hxc⟩
  rcases List.getElem_of_mem hc with ⟨i, hi, hic⟩
  exact ⟨i, c, by rw [List.getElem?_eq_getElem hi, hic], List.ne_nil_of_mem hxc⟩

/-- Pushing on one slot adds one element. -/
theorem perm_flatten_set_cons {l : List (List β)} {i : Nat} {x : List β} (h : l[i]? = some x)
    (b : β) : (l.set i (b :: x)).flatten.Perm (b :: l.flatten) := by
  rw [flatten_set_split h, flatten_eq_split h, List.append_assoc, List.append_assoc,
    List.cons_append]
  exact List.perm_middle

/-- Removing an element of one slot removes one element. -/
theorem flatten_set_eraseIdx_perm {l : List (List β)} {i d : Nat} {x : List β} {b : β}
    (h : l[i]? = some x) (hd : x[d]? = some b) :
    l.flatten.Perm (b :: (l.set i (x.eraseIdx d)).flatten) := by
  have hdl := lt_length_of_getElem? hd
  have hb : x[d] = b := (List.getElem?_eq_some_iff.mp hd).2
  have hx : x = x.take d ++ b :: x.drop (d + 1) := by
    rw [← hb, List.getElem_cons_drop, List.take_append_drop]
  rw [flatten_set_split h, flatten_eq_split h, List.eraseIdx_eq_take_drop_succ]
  conv_lhs => rw [hx]
  simp only [List.append_assoc, List.cons_append]
  rw [← List.append_assoc, ← List.append_assoc]
  exact List.perm_middle

end

end Lib
