import Mathlib.Data.List.Chain
import Mathlib.Data.List.Nodup
import Mathlib.Logic.Function.Basic

/-!
# Doubly Linked Rings

A circular doubly linked list with a head, over any type of nodes. The memory
is two partial functions, the successor and the predecessor of a node, and a
ring is a list of nodes: consecutive ones point at each other, from the head
through the list and back to the head.

A node occurs once as the source of a `next` pointer and once as its target.
So the two assignments of a removal, or the four of an insertion, change the
links they are meant to change and no others.

## Main definitions

* `Linked`: Two nodes point at each other.
* `Ring`: The nodes of a list, in order, closed through the head.

## Theorems

* `Ring.front`: What the head points at.
* `Ring.unique`: One memory holds one ring.
* `Ring.remove`: Taking a node out.
* `Ring.insertLast`: Putting a node before the head.
-/

namespace Lib

section

variable {N : Type}

/-- `b` comes after `a`, and both pointers say so. -/
def Linked (next prev : N → Option N) (a b : N) : Prop := next a = some b ∧ prev b = some a

/-- The nodes of a list in order, closed through the head. -/
structure Ring (next prev : N → Option N) (head : N) (l : List N) : Prop where
  nodup : (head :: l).Nodup
  chain : (head :: l ++ [head]).IsChain (Linked next prev)

/-- A chain keeps its links under a change that spares every source and every
    target. -/
theorem isChain_imp_of_mem {R S : N → N → Prop} {l : List N} (h : l.IsChain R)
    (H : ∀ a b, a ∈ l.dropLast → b ∈ l.tail → R a b → S a b) : l.IsChain S := by
  rw [List.isChain_iff_forall_rel_of_append_cons_cons] at h ⊢
  intro a b l₁ l₂ hl
  refine H a b ?_ ?_ (h hl)
  · rw [hl, List.dropLast_append_of_ne_nil (List.cons_ne_nil _ _), List.dropLast_cons_cons]
    exact List.mem_append_right _ List.mem_cons_self
  · rw [hl]
    cases l₁ with
    | nil => exact List.mem_cons_self
    | cons c l₁ =>
        exact List.mem_append_right _ (List.mem_cons_of_mem _ List.mem_cons_self)

/-- A list that is not empty, by its last element. -/
theorem exists_eq_concat (a : N) (l : List N) : ∃ A p, a :: l = A ++ [p] :=
  ⟨(a :: l).dropLast, (a :: l).getLast (List.cons_ne_nil a l),
    (List.dropLast_append_getLast (List.cons_ne_nil a l)).symm⟩

namespace Ring

variable {next prev : N → Option N} {head : N} {l : List N}

/-- The head points at the first node, or at itself. -/
theorem front (h : Ring next prev head l) : next head = some (l.headD head) := by
  cases l with
  | nil => exact (List.isChain_cons_cons.mp h.chain).1.1
  | cons a l => exact (List.isChain_cons_cons.mp h.chain).1.1

/-- A node before the head is followed to one list only. -/
theorem chain_unique {R : N → N → Prop} (hR : ∀ a b c, R a b → R a c → b = c) :
    ∀ (l l' : List N) (a : N), head ∉ l → head ∉ l' → (a :: (l ++ [head])).IsChain R →
      (a :: (l' ++ [head])).IsChain R → l = l' := by
  intro l
  induction l with
  | nil =>
      intro l' a _ hl' h h'
      cases l' with
      | nil => rfl
      | cons b l' =>
          have heq := hR _ _ _ (List.isChain_cons_cons.mp h).1 (List.isChain_cons_cons.mp h').1
          rw [heq] at hl'
          exact absurd List.mem_cons_self hl'
  | cons b l ih =>
      intro l' a hl hl' h h'
      cases l' with
      | nil =>
          have heq := hR _ _ _ (List.isChain_cons_cons.mp h').1 (List.isChain_cons_cons.mp h).1
          rw [heq] at hl
          exact absurd List.mem_cons_self hl
      | cons b' l' =>
          rw [List.cons_append, List.isChain_cons_cons] at h h'
          have heq := hR _ _ _ h.1 h'.1
          rw [← heq] at h' ⊢
          rw [ih l' b (fun hm => hl (List.mem_cons_of_mem _ hm))
            (fun hm => hl' (List.mem_cons_of_mem _ hm)) h.2 h'.2]

/-- The memory determines the nodes and their order. -/
theorem unique {l' : List N} (h : Ring next prev head l) (h' : Ring next prev head l') : l = l' := by
  refine chain_unique ?_ l l' head (List.nodup_cons.mp h.nodup).1 (List.nodup_cons.mp h'.nodup).1
    h.chain h'.chain
  intro a b c hb hc
  exact Option.some.inj (hb.1.symm.trans hc.1)

/-- A ring holds in any memory that agrees on its nodes. -/
theorem congr {next' prev' : N → Option N} (h : Ring next prev head l)
    (hnext : ∀ a ∈ head :: l, next' a = next a) (hprev : ∀ a ∈ head :: l, prev' a = prev a) :
    Ring next' prev' head l where
  nodup := h.nodup
  chain := by
    refine isChain_imp_of_mem h.chain fun a b ha hb hab => ⟨?_, ?_⟩
    · rw [List.dropLast_concat] at ha
      rw [hnext a ha]
      exact hab.1
    · rw [List.cons_append, List.tail_cons] at hb
      rw [hprev b ?_]
      · exact hab.2
      · rcases List.mem_append.mp hb with hb | hb
        · exact List.mem_cons_of_mem _ hb
        · rw [List.mem_singleton.mp hb]
          exact List.mem_cons_self

/-- The nodes are allocated: each has a successor and a predecessor, and these
    are nodes of the ring. -/
theorem links (h : Ring next prev head l) {a : N} (ha : a ∈ head :: l) :
    (∃ b ∈ head :: l, next a = some b) ∧ ∃ b ∈ head :: l, prev a = some b := by
  have hmem : ∀ b, b ∈ head :: l ++ [head] → b ∈ head :: l := by
    intro b hb
    rcases List.mem_append.mp hb with hb | hb
    · exact hb
    · rw [List.mem_singleton.mp hb]
      exact List.mem_cons_self
  have hchain := h.chain
  rw [List.isChain_iff_forall_rel_of_append_cons_cons] at hchain
  constructor
  · -- `a` is followed by something, at the latest by the head.
    rcases List.append_of_mem ha with ⟨s, t, hst⟩
    cases hnext : t ++ [head] with
    | nil => exact absurd hnext (List.append_ne_nil_of_right_ne_nil _ (List.cons_ne_nil _ _))
    | cons b t' =>
        have hsplit : head :: l ++ [head] = s ++ a :: b :: t' := by
          rw [hst, List.append_assoc, List.cons_append, hnext]
        refine ⟨b, hmem b ?_, (hchain hsplit).1⟩
        rw [hsplit]
        exact List.mem_append_right _ (List.mem_cons_of_mem _ List.mem_cons_self)
  · -- `a` is preceded by something; the head is where the list ends.
    have ha' : a ∈ l ++ [head] := by
      rcases List.mem_cons.mp ha with rfl | ha
      · exact List.mem_append_right _ (List.mem_singleton_self _)
      · exact List.mem_append_left _ ha
    rcases List.append_of_mem ha' with ⟨s, t, hst⟩
    rcases exists_eq_concat head s with ⟨A, p, hA⟩
    have hsplit : head :: l ++ [head] = A ++ p :: a :: t := by
      rw [List.cons_append, hst, ← List.cons_append, hA, List.append_assoc, List.singleton_append]
    refine ⟨p, hmem p ?_, (hchain hsplit).2⟩
    rw [hsplit]
    exact List.mem_append_right _ List.mem_cons_self

variable [DecidableEq N]

/-- Taking a node out: its neighbours are made to point at each other. -/
theorem remove {x : N} {l₁ l₂ : List N} (h : Ring next prev head (l₁ ++ x :: l₂)) :
    ∃ p n, prev x = some p ∧ next x = some n ∧ p ∈ head :: (l₁ ++ l₂) ∧ n ∈ head :: (l₁ ++ l₂) ∧
      Ring (Function.update next p (some n)) (Function.update prev n (some p)) head
        (l₁ ++ l₂) := by
  rcases exists_eq_concat head l₁ with ⟨A, p, hA⟩
  -- what follows `x`, at the latest the head
  have hB : ∃ n B, l₂ ++ [head] = n :: B := by
    cases l₂ with
    | nil => exact ⟨head, [], rfl⟩
    | cons a l₂ => exact ⟨a, l₂ ++ [head], rfl⟩
  rcases hB with ⟨n, B, hB⟩
  have hsplit : head :: (l₁ ++ x :: l₂) ++ [head] = A ++ p :: x :: n :: B := by
    rw [← List.cons_append, hA]
    simp only [List.append_assoc, List.cons_append, List.nil_append, hB]
  have hgoal : head :: (l₁ ++ l₂) ++ [head] = A ++ p :: n :: B := by
    rw [← List.cons_append, hA, List.append_assoc, List.append_assoc, hB]
    rfl
  have hnodup : (head :: (l₁ ++ l₂)).Nodup := by
    have := h.nodup
    rw [← List.cons_append, List.nodup_middle, List.nodup_cons] at this
    exact this.2
  have hchain := h.chain
  rw [hsplit, List.isChain_append_cons_cons, List.isChain_cons_cons] at hchain
  rcases hchain with ⟨hleft, hpx, hxn, hright⟩
  -- The sources left of `p` and those from `n` on are not `p`.
  have hsrc : (A ++ p :: (n :: B).dropLast).Nodup := by
    have hd := hnodup
    have hconcat : (head :: (l₁ ++ l₂) ++ [head]).dropLast = head :: (l₁ ++ l₂) :=
      List.dropLast_concat
    rw [← hconcat, hgoal, List.dropLast_append_of_ne_nil (List.cons_ne_nil _ _),
      List.dropLast_cons_cons] at hd
    exact hd
  -- The targets up to `p` and those after `n` are not `n`.
  have htgt : ((A ++ [p]).tail ++ n :: B).Nodup := by
    have hd : (l₁ ++ l₂ ++ [head]).Nodup := by
      rw [List.nodup_append_comm, List.singleton_append]
      exact hnodup
    have htail := congrArg List.tail hgoal
    rw [List.cons_append, List.tail_cons, List.append_cons A p (n :: B)] at htail
    rw [htail, List.tail_append_of_ne_nil
      (List.append_ne_nil_of_right_ne_nil _ (List.cons_ne_nil _ _))] at hd
    exact hd
  have hp : p ∈ head :: (l₁ ++ l₂) := by
    rw [← List.cons_append, hA]
    exact List.mem_append_left _ (List.mem_append_right _ (List.mem_singleton_self _))
  have hn : n ∈ head :: (l₁ ++ l₂) := by
    have : n ∈ l₂ ++ [head] := by
      rw [hB]
      exact List.mem_cons_self
    rcases List.mem_append.mp this with hn | hn
    · exact List.mem_cons_of_mem _ (List.mem_append_right _ hn)
    · rw [List.mem_singleton.mp hn]
      exact List.mem_cons_self
  refine ⟨p, n, hpx.2, hxn.1, hp, hn, hnodup, ?_⟩
  rw [hgoal, List.isChain_append_cons_cons]
  refine ⟨?_, ⟨Function.update_self _ _ _, Function.update_self _ _ _⟩, ?_⟩
  · refine isChain_imp_of_mem hleft fun a b ha hb hab => ⟨?_, ?_⟩
    · rw [List.dropLast_concat] at ha
      rw [Function.update_of_ne]
      · exact hab.1
      · rintro rfl
        rw [List.nodup_append] at hsrc
        exact hsrc.2.2 a ha a List.mem_cons_self rfl
    · rw [Function.update_of_ne]
      · exact hab.2
      · rintro rfl
        rw [List.nodup_append] at htgt
        exact htgt.2.2 b hb b List.mem_cons_self rfl
  · refine isChain_imp_of_mem hright fun a b ha hb hab => ⟨?_, ?_⟩
    · rw [Function.update_of_ne]
      · exact hab.1
      · rintro rfl
        rw [List.nodup_append, List.nodup_cons] at hsrc
        exact hsrc.2.1.1 ha
    · rw [List.tail_cons] at hb
      rw [Function.update_of_ne]
      · exact hab.2
      · rintro rfl
        rw [List.nodup_append, List.nodup_cons] at htgt
        exact htgt.2.1.1 hb

/-- Putting a node before the head: its neighbours are the last node and the
    head. -/
theorem insertLast {x : N} (h : Ring next prev head l) (hx : x ∉ head :: l) :
    ∃ p, prev head = some p ∧ p ∈ head :: l ∧
      Ring (Function.update (Function.update next p (some x)) x (some head))
        (Function.update (Function.update prev x (some p)) head (some x)) head (l ++ [x]) := by
  rcases exists_eq_concat head l with ⟨A, p, hA⟩
  have hchain := h.chain
  rw [hA, List.append_assoc, List.singleton_append, List.isChain_append_cons_cons] at hchain
  rcases hchain with ⟨hleft, hph, -⟩
  have hp : p ∈ head :: l := by
    rw [hA]
    exact List.mem_append_right _ (List.mem_singleton_self _)
  have hpx : p ≠ x := by
    rintro rfl
    exact hx hp
  have hhx : head ≠ x := by
    rintro rfl
    exact hx List.mem_cons_self
  refine ⟨p, hph.2, hp, ?_, ?_⟩
  · rw [← List.cons_append, List.nodup_append]
    refine ⟨h.nodup, List.nodup_singleton x, fun a ha b hb hab => hx ?_⟩
    rw [← List.mem_singleton.mp hb, ← hab]
    exact ha
  · have hgoal : head :: (l ++ [x]) ++ [head] = A ++ p :: x :: [head] := by
      rw [← List.cons_append, hA, List.append_assoc, List.append_assoc]
      rfl
    -- the links before `p` are as they were, the three after it are written
    rw [hgoal, List.isChain_append_cons_cons, List.isChain_cons_cons]
    refine ⟨?_, ⟨?_, ?_⟩, ⟨?_, ?_⟩, List.isChain_singleton _⟩
    · refine isChain_imp_of_mem hleft fun a b ha hb hab => ⟨?_, ?_⟩
      · rw [List.dropLast_concat] at ha
        have hax : a ≠ x := by
          rintro rfl
          refine hx ?_
          rw [hA]
          exact List.mem_append_left _ ha
        have hap : a ≠ p := by
          rintro rfl
          have hd := h.nodup
          rw [hA, List.nodup_append] at hd
          exact hd.2.2 a ha a (List.mem_singleton_self a) rfl
        rw [Function.update_of_ne hax, Function.update_of_ne hap]
        exact hab.1
      · rw [← hA, List.tail_cons] at hb
        have hbh : b ≠ head := by
          rintro rfl
          exact (List.nodup_cons.mp h.nodup).1 hb
        have hbx : b ≠ x := by
          rintro rfl
          exact hx (List.mem_cons_of_mem _ hb)
        rw [Function.update_of_ne hbh, Function.update_of_ne hbx]
        exact hab.2
    · rw [Function.update_of_ne hpx, Function.update_self]
    · rw [Function.update_of_ne (Ne.symm hhx), Function.update_self]
    · rw [Function.update_self]
    · rw [Function.update_self]

end Ring

end

end Lib
