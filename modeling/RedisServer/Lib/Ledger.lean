import Mathlib.Data.List.Nodup
import Mathlib.Logic.Relation

/-!
# A Ledger of Records

Where the records of a program are that allocates them for owners. An owner
keeps its records in a table. A record that leaves its table is freed at once,
or put in a queue for later. The records in the queue are freed in any order,
each once. An owner that goes leaves its table behind, and nobody frees what
was in it.

So a record that is in memory is in the table of its owner, or in the queue, or
it is lost: its owner went while it was in the table. A record that is lost
stays lost, since only records in tables and in the queue are freed.

## Main definitions

* `Ledger`: Owners, tables and the queue.
* `Ledger.Move`: A record is created, freed or queued, or an owner goes.
* `Ledger.more`: The ledger with a longer queue.
* `Ledger.Grows`: A record is created, or none.
* `Ledger.Lost`: The owner went.
* `Ledger.Sound`: Every record has one place.

## Theorems

* `Ledger.Sound.moves`, `Ledger.Lost.moves`: Any number of moves.
* `Ledger.Moves.more`: The moves beside a longer queue.
-/

namespace Lib

/-- The owner of each record in memory, what is in the table of each owner, the
    queue, and the owners that are gone. -/
@[ext]
structure Ledger (ω α : Type) where
  owner : α → Option ω
  held : ω → α → Prop
  queue : List α
  gone : ω → Prop

namespace Ledger

variable {ω α : Type} {L L' : Ledger ω α} {c : ω} {e s : α}

/-- A record leaves its table for the queue. -/
def retire (L : Ledger ω α) (e : α) : Ledger ω α :=
  { L with
    held := fun c s => L.held c s ∧ s ≠ e
    queue := L.queue ++ [e] }

/-- An owner goes, and its table with it. -/
def leave (L : Ledger ω α) (c : ω) : Ledger ω α :=
  { L with
    held := fun c' s => c' ≠ c ∧ L.held c' s
    gone := fun c' => L.gone c' ∨ c' = c }

/-- The ledger with more records at the end of the queue. -/
def more (L : Ledger ω α) (l : List α) : Ledger ω α := { L with queue := L.queue ++ l }

/-- The record is in memory and nobody will free it. -/
def Lost (L : Ledger ω α) (e : α) : Prop := e ∉ L.queue ∧ ∃ c, L.owner e = some c ∧ L.gone c

/-- Every record has one place. -/
structure Sound (L : Ledger ω α) : Prop where
  held : ∀ c e, L.held c e → L.owner e = some c ∧ ¬ L.gone c ∧ e ∉ L.queue
  queued : ∀ e ∈ L.queue, L.owner e ≠ none
  nodup : L.queue.Nodup
  placed : ∀ e, L.owner e ≠ none → (∃ c, L.held c e) ∨ e ∈ L.queue ∨ L.Lost e

theorem mem_queue_retire : s ∈ (L.retire e).queue ↔ s ∈ L.queue ∨ s = e := by
  rw [retire, List.mem_append, List.mem_singleton]

namespace Sound

/-- An owner has its table, and no one else has. -/
theorem unique {c' : ω} (h : L.Sound) (hc : L.held c e) (hc' : L.held c' e) : c' = c :=
  Option.some.inj ((h.held c' e hc').1.symm.trans (h.held c e hc).1)

/-- A record in a table is not lost. -/
theorem not_lost (h : L.Sound) (hc : L.held c e) : ¬ L.Lost e := by
  rintro ⟨_, c', hown, hgone⟩
  rcases h.held c e hc with ⟨hown', hlive, _⟩
  rw [hown', Option.some.injEq] at hown
  rw [hown] at hlive
  exact hlive hgone

theorem retire (h : L.Sound) (hc : L.held c e) : (L.retire e).Sound where
  held := by
    rintro c' s ⟨hs, hne⟩
    rcases h.held c' s hs with ⟨hown, hlive, hq⟩
    refine ⟨hown, hlive, ?_⟩
    rw [mem_queue_retire, not_or]
    exact ⟨hq, hne⟩
  queued := by
    intro s hs
    rcases mem_queue_retire.mp hs with hs | rfl
    · exact h.queued s hs
    · exact ne_of_eq_of_ne (h.held c s hc).1 (Option.some_ne_none c)
  nodup := by
    refine List.nodup_append.mpr ⟨h.nodup, List.nodup_singleton e, fun s hs t ht hst => ?_⟩
    rw [hst, List.mem_singleton.mp ht] at hs
    exact (h.held c e hc).2.2 hs
  placed := by
    intro s hs
    by_cases hne : s = e
    · exact Or.inr (Or.inl (mem_queue_retire.mpr (Or.inr hne)))
    · rcases h.placed s hs with ⟨c', hc'⟩ | hq | ⟨hq, hlost⟩
      · exact Or.inl ⟨c', hc', hne⟩
      · exact Or.inr (Or.inl (mem_queue_retire.mpr (Or.inl hq)))
      · refine Or.inr (Or.inr ⟨?_, hlost⟩)
        rw [mem_queue_retire, not_or]
        exact ⟨hq, hne⟩

theorem leave (h : L.Sound) (c : ω) : (L.leave c).Sound where
  held := by
    rintro c' s ⟨hne, hs⟩
    rcases h.held c' s hs with ⟨hown, hlive, hq⟩
    exact ⟨hown, fun hgone => hgone.elim hlive hne, hq⟩
  queued := h.queued
  nodup := h.nodup
  placed := by
    intro s hs
    rcases h.placed s hs with ⟨c', hc'⟩ | hq | ⟨hq, c', hown, hgone⟩
    · -- what was in the table of the owner that goes is lost now
      by_cases hcc : c' = c
      · rcases h.held c' s hc' with ⟨hown, _, hq⟩
        exact Or.inr (Or.inr ⟨hq, c', hown, Or.inr hcc⟩)
      · exact Or.inl ⟨c', hcc, hc'⟩
    · exact Or.inr (Or.inl hq)
    · exact Or.inr (Or.inr ⟨hq, c', hown, Or.inl hgone⟩)

/-- The order of the queue does not matter. -/
theorem reorder (h : L.Sound) {q : List α} (hq : q.Perm L.queue) :
    Sound { L with queue := q } where
  held := by
    intro c e hc
    rcases h.held c e hc with ⟨hown, hlive, hnot⟩
    exact ⟨hown, hlive, fun he => hnot (hq.mem_iff.mp he)⟩
  queued := fun e he => h.queued e (hq.mem_iff.mp he)
  nodup := hq.nodup_iff.mpr h.nodup
  placed := by
    intro e he
    rcases h.placed e he with hc | hmem | ⟨hnot, hlost⟩
    · exact Or.inl hc
    · exact Or.inr (Or.inl (hq.mem_iff.mpr hmem))
    · exact Or.inr (Or.inr ⟨fun hmem => hnot (hq.mem_iff.mp hmem), hlost⟩)

end Sound

variable [DecidableEq α]

/-- A new record in the table of `c`. -/
def alloc (L : Ledger ω α) (c : ω) (e : α) : Ledger ω α :=
  { L with
    owner := Function.update L.owner e (some c)
    held := fun c' s => L.held c' s ∨ (c' = c ∧ s = e) }

/-- A record leaves its table and is freed. -/
def free (L : Ledger ω α) (e : α) : Ledger ω α :=
  { L with
    owner := Function.update L.owner e none
    held := fun c s => L.held c s ∧ s ≠ e }

/-- A record in the queue is freed. -/
def finish (L : Ledger ω α) (e : α) : Ledger ω α :=
  { L with
    owner := Function.update L.owner e none
    queue := L.queue.erase e }

/-- One move. -/
inductive Move (L : Ledger ω α) : Ledger ω α → Prop
  | alloc (c : ω) (e : α) : L.owner e = none → ¬ L.gone c → L.Move (L.alloc c e)
  | free (c : ω) (e : α) : L.held c e → L.Move (L.free e)
  | retire (c : ω) (e : α) : L.held c e → L.Move (L.retire e)
  | leave (c : ω) : L.Move (L.leave c)
  | reorder (q : List α) : q.Perm L.queue → L.Move { L with queue := q }
  | finish (e : α) : e ∈ L.queue → L.Move (L.finish e)

/-- Any number of moves. -/
abbrev Moves : Ledger ω α → Ledger ω α → Prop := Relation.ReflTransGen Move

/-- At most one record is created, in the table of `c`. -/
def Grows (L : Ledger ω α) (c : ω) (L' : Ledger ω α) : Prop :=
  L' = L ∨ ∃ e, L.owner e = none ∧ ¬ L.gone c ∧ L' = L.alloc c e

theorem Grows.moves (h : L.Grows c L') : L.Moves L' := by
  rcases h with rfl | ⟨e, hnew, hlive, rfl⟩
  · exact Relation.ReflTransGen.refl
  · exact Relation.ReflTransGen.single (.alloc c e hnew hlive)

theorem Grows.queue (h : L.Grows c L') : L'.queue = L.queue := by
  rcases h with rfl | ⟨e, _, _, rfl⟩
  · rfl
  · rfl

theorem owner_alloc_of_ne (hne : s ≠ e) : (L.alloc c e).owner s = L.owner s :=
  Function.update_of_ne hne _ _

theorem owner_alloc_self : (L.alloc c e).owner e = some c := Function.update_self _ _ _

theorem owner_free_of_ne (hne : s ≠ e) : (L.free e).owner s = L.owner s :=
  Function.update_of_ne hne _ _

theorem owner_free_self : (L.free e).owner e = none := Function.update_self _ _ _

namespace Sound

theorem alloc (h : L.Sound) (hnew : L.owner e = none) (hlive : ¬ L.gone c) :
    (L.alloc c e).Sound where
  held := by
    rintro c' s (hs | ⟨rfl, rfl⟩)
    · have hne : s ≠ e := by
        rintro rfl
        rw [(h.held c' s hs).1] at hnew
        cases hnew
      rw [owner_alloc_of_ne hne]
      exact h.held c' s hs
    · exact ⟨owner_alloc_self, hlive, fun hq => h.queued s hq hnew⟩
  queued := by
    intro s hs
    by_cases hne : s = e
    · rw [hne, owner_alloc_self]
      exact Option.some_ne_none c
    · rw [owner_alloc_of_ne hne]
      exact h.queued s hs
  nodup := h.nodup
  placed := by
    intro s hs
    by_cases hne : s = e
    · exact Or.inl ⟨c, Or.inr ⟨rfl, hne⟩⟩
    · rw [owner_alloc_of_ne hne] at hs
      rcases h.placed s hs with ⟨c', hc'⟩ | hq | ⟨hq, c', hown, hgone⟩
      · exact Or.inl ⟨c', Or.inl hc'⟩
      · exact Or.inr (Or.inl hq)
      · exact Or.inr (Or.inr ⟨hq, c', (owner_alloc_of_ne hne).trans hown, hgone⟩)

theorem free (h : L.Sound) (hc : L.held c e) : (L.free e).Sound where
  held := by
    rintro c' s ⟨hs, hne⟩
    rw [owner_free_of_ne hne]
    exact h.held c' s hs
  queued := by
    intro s hs
    have hne : s ≠ e := by
      rintro rfl
      exact (h.held c s hc).2.2 hs
    rw [owner_free_of_ne hne]
    exact h.queued s hs
  nodup := h.nodup
  placed := by
    intro s hs
    have hne : s ≠ e := by
      rintro rfl
      exact hs owner_free_self
    rw [owner_free_of_ne hne] at hs
    rcases h.placed s hs with ⟨c', hc'⟩ | hq | ⟨hq, c', hown, hgone⟩
    · exact Or.inl ⟨c', hc', hne⟩
    · exact Or.inr (Or.inl hq)
    · exact Or.inr (Or.inr ⟨hq, c', (owner_free_of_ne hne).trans hown, hgone⟩)

/-- A record that is freed from the queue was nowhere else. -/
theorem finish (h : L.Sound) (he : e ∈ L.queue) : (L.finish e).Sound where
  held := by
    intro c s hs
    rcases h.held c s hs with ⟨hown, hlive, hq⟩
    have hne : s ≠ e := by
      rintro rfl
      exact hq he
    exact ⟨(Function.update_of_ne hne _ _).trans hown, hlive, fun hmem => hq (List.mem_of_mem_erase hmem)⟩
  queued := by
    intro s hs
    rcases (List.Nodup.mem_erase_iff h.nodup).mp hs with ⟨hne, hs⟩
    exact ne_of_eq_of_ne (Function.update_of_ne hne _ _) (h.queued s hs)
  nodup := h.nodup.erase e
  placed := by
    intro s hs
    have hne : s ≠ e := by
      rintro rfl
      exact hs (Function.update_self _ _ _)
    have hsame : (L.finish e).owner s = L.owner s := Function.update_of_ne hne _ _
    rw [hsame] at hs
    rcases h.placed s hs with hc | hq | ⟨hq, c, hown, hgone⟩
    · exact Or.inl hc
    · exact Or.inr (Or.inl ((List.mem_erase_of_ne hne).mpr hq))
    · exact Or.inr (Or.inr ⟨fun hmem => hq (List.mem_of_mem_erase hmem), c, hsame.trans hown, hgone⟩)

theorem move (h : L.Sound) (hm : L.Move L') : L'.Sound := by
  cases hm with
  | alloc c e hnew hlive => exact h.alloc hnew hlive
  | free c e hc => exact h.free hc
  | retire c e hc => exact h.retire hc
  | leave c => exact h.leave c
  | reorder q hq => exact h.reorder hq
  | finish e he => exact h.finish he

theorem moves (h : L.Sound) (hm : L.Moves L') : L'.Sound := by
  induction hm with
  | refl => exact h
  | tail _ hm ih => exact ih.move hm

end Sound

namespace Lost

/-- A record that is lost stays lost. -/
theorem move (hl : L.Lost e) (h : L.Sound) (hm : L.Move L') : L'.Lost e := by
  rcases hl with ⟨hq, o, hown, hgone⟩
  -- the moves that touch a record are of records in tables, or not in memory
  have hother : ∀ c s, L.held c s → e ≠ s := by
    rintro c s hs rfl
    exact h.not_lost hs ⟨hq, o, hown, hgone⟩
  cases hm with
  | alloc c s hnew =>
      have hne : e ≠ s := by
        rintro rfl
        rw [hnew] at hown
        cases hown
      exact ⟨hq, o, (owner_alloc_of_ne hne).trans hown, hgone⟩
  | free c s hs => exact ⟨hq, o, (owner_free_of_ne (hother c s hs)).trans hown, hgone⟩
  | retire c s hs =>
      refine ⟨?_, o, hown, hgone⟩
      rw [mem_queue_retire, not_or]
      exact ⟨hq, hother c s hs⟩
  | leave c => exact ⟨hq, o, hown, Or.inl hgone⟩
  | reorder q hperm => exact ⟨fun hmem => hq (hperm.mem_iff.mp hmem), o, hown, hgone⟩
  | finish s hs =>
      have hne : e ≠ s := by
        rintro rfl
        exact hq hs
      exact ⟨fun hmem => hq (List.mem_of_mem_erase hmem), o,
        (Function.update_of_ne hne _ _).trans hown, hgone⟩

theorem moves (hl : L.Lost e) (h : L.Sound) (hm : L.Moves L') : L'.Lost e := by
  induction hm with
  | refl => exact hl
  | tail hms hm ih => exact ih.move (h.moves hms) hm

end Lost

/-! ## Beside a longer queue -/

theorem Move.more (hm : L.Move L') (l : List α) : (L.more l).Moves (L'.more l) := by
  cases hm with
  | alloc c e hnew hlive => exact Relation.ReflTransGen.single (.alloc c e hnew hlive)
  | free c e hc => exact Relation.ReflTransGen.single (.free c e hc)
  | leave c => exact Relation.ReflTransGen.single (.leave c)
  | retire c e hc =>
      -- the record is put behind the others, and has its place before them
      refine (Relation.ReflTransGen.single (.retire c e hc)).tail ?_
      refine .reorder (L.queue ++ [e] ++ l) ?_
      show (L.queue ++ [e] ++ l).Perm (L.queue ++ l ++ [e])
      rw [List.append_assoc, List.append_assoc]
      exact List.perm_append_comm.append_left L.queue
  | reorder q hq => exact Relation.ReflTransGen.single (.reorder (q ++ l) (hq.append_right l))
  | finish e he =>
      have hfin : (L.finish e).more l = (L.more l).finish e := by
        simp only [Ledger.more, Ledger.finish, List.erase_append_left l he]
      rw [hfin]
      exact Relation.ReflTransGen.single (.finish e (List.mem_append_left l he))

theorem Moves.more (h : L.Moves L') (l : List α) : (L.more l).Moves (L'.more l) := by
  induction h with
  | refl => exact Relation.ReflTransGen.refl
  | tail _ hm ih => exact ih.trans (hm.more l)

end Ledger

end Lib
