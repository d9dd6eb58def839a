import Mathlib.Data.List.ReduceOption

/-!
# A Queue Drained by Workers

Jobs are put at the back of a queue, and any number of workers take them from
its front, one each at a time, and finish them in any order. The pool keeps
the history of what was put, taken and finished.

Whatever the order of steps, the jobs taken so far followed by those in the
queue are the jobs put, in the order they were put, and every job taken is
held by the worker who took it or finished. So when no job is put twice, none
is taken twice, lost or finished twice.

## Main definitions

* `WorkPool`: The queue, the workers and the history.
* `WorkPool.push`, `WorkPool.take`, `WorkPool.finish`: The steps.
* `WorkPool.Conserved`: No job is lost or doubled.

## Theorems

* `Conserved.push`, `Conserved.take`, `Conserved.finish`: The steps keep it.
* `Conserved.perm`: Where the jobs are.
* `waiting_take`, `waiting_finish`: The jobs that are not finished.
-/

namespace Lib

/-- A queue of jobs, the jobs the workers hold, and the history: the jobs put,
    the jobs taken with their workers, and the jobs finished. -/
structure WorkPool (α : Type) where
  queue : List α := []
  held : List (Option α)
  put : List α := []
  taken : List (Nat × α) := []
  finished : List α := []

namespace WorkPool

variable {α : Type} {p : WorkPool α}

/-- A pool of `n` idle workers. -/
def start (n : Nat) : WorkPool α := { held := List.replicate n none }

/-- A job is put at the back of the queue. -/
def push (p : WorkPool α) (a : α) : WorkPool α :=
  { p with queue := p.queue ++ [a], put := p.put ++ [a] }

/-- The worker takes the job at the front. A busy worker takes none, and an
    idle one waits while the queue is empty. -/
def take (p : WorkPool α) (w : Nat) : WorkPool α :=
  match p.held[w]?, p.queue with
  | some none, a :: rest =>
    { p with queue := rest, held := p.held.set w (some a), taken := p.taken ++ [(w, a)] }
  | _, _ => p

/-- The job the worker holds. -/
def job (p : WorkPool α) (w : Nat) : Option α := p.held[w]?.join

/-- The worker finishes the job it holds. -/
def finish (p : WorkPool α) (w : Nat) : WorkPool α :=
  match p.job w with
  | some a => { p with held := p.held.set w none, finished := p.finished ++ [a] }
  | none => p

/-- No job is lost or doubled: the jobs taken and those in the queue are the
    jobs put, in order, and the jobs taken are held by their workers or
    finished. -/
structure Conserved (p : WorkPool α) : Prop where
  fifo : p.put = p.taken.map Prod.snd ++ p.queue
  placed : (p.taken.map Prod.snd).Perm (p.held.reduceOption ++ p.finished)
  holder : ∀ w a, p.job w = some a → (w, a) ∈ p.taken

theorem job_eq_some {w : Nat} {a : α} : p.job w = some a ↔ p.held[w]? = some (some a) := by
  rw [job, Option.join_eq_some_iff]

theorem job_set {held : List (Option α)} {w v : Nat} {x : Option α} (hw : w < held.length)
    (q : WorkPool α) (hq : q.held = held.set w x) :
    q.job v = if v = w then x else held[v]?.join := by
  rw [job, hq]
  by_cases h : v = w
  · rw [if_pos h, h, List.getElem?_set_self hw]
    rfl
  · rw [if_neg h, List.getElem?_set_ne (Ne.symm h)]

/-- Assigning a worker's slot changes what the workers hold in one place. -/
theorem reduceOption_set {l : List (Option α)} {w : Nat} {y : Option α} (h : l[w]? = some y)
    (x : Option α) :
    (y.toList ++ (l.set w x).reduceOption).Perm (x.toList ++ l.reduceOption) := by
  -- the slot that is set is passed through, the others keep their place
  induction l generalizing w with
  | nil => exact absurd h (by simp only [List.getElem?_nil, reduceCtorEq, not_false_eq_true])
  | cons z l ih =>
      cases w with
      | zero =>
          rw [List.getElem?_cons_zero, Option.some.injEq] at h
          rw [List.set_cons_zero, h]
          cases x with
          | none =>
              cases y with
              | none => exact List.Perm.refl _
              | some b => exact List.Perm.refl _
          | some a =>
              cases y with
              | none => exact List.Perm.refl _
              | some b => exact List.Perm.swap a b _
      | succ w =>
          rw [List.getElem?_cons_succ] at h
          rw [List.set_cons_succ]
          cases z with
          | none => exact ih h
          | some b =>
              rw [List.reduceOption_cons_of_some, List.reduceOption_cons_of_some]
              refine List.perm_middle.trans ?_
              exact ((ih h).cons b).trans List.perm_middle.symm

/-- Taking a job keeps it among those that are not finished. -/
theorem waiting_take (p : WorkPool α) (w : Nat) :
    ((p.take w).queue ++ (p.take w).held.reduceOption).Perm (p.queue ++ p.held.reduceOption) := by
  unfold WorkPool.take
  split
  · rename_i a rest hheld hqueue
    have hset := reduceOption_set hheld (some a)
    rw [Option.toList_none, List.nil_append, Option.toList_some, List.singleton_append] at hset
    rw [hqueue, List.cons_append]
    exact (hset.append_left rest).trans List.perm_middle
  · exact List.Perm.refl _

/-- Finishing a job takes it from them. -/
theorem waiting_finish {w : Nat} {a : α} (hjob : p.job w = some a) :
    (a :: ((p.finish w).queue ++ (p.finish w).held.reduceOption)).Perm
      (p.queue ++ p.held.reduceOption) := by
  have hset := reduceOption_set (job_eq_some.mp hjob) none
  have hfinish : p.finish w =
      { p with held := p.held.set w none, finished := p.finished ++ [a] } := by
    rw [WorkPool.finish, hjob]
  rw [hfinish]
  exact List.perm_middle.symm.trans (hset.append_left p.queue)

theorem conserved_start (n : Nat) : (start n : WorkPool α).Conserved where
  fifo := rfl
  placed := by
    simp only [start, List.map_nil, List.append_nil, List.reduceOption_replicate_none]
    exact List.Perm.refl _
  holder := by
    intro w a h
    rw [job_eq_some, start, List.getElem?_replicate] at h
    split at h
    · exact absurd h (by simp only [Option.some.injEq, reduceCtorEq, not_false_eq_true])
    · cases h

namespace Conserved

theorem push (h : p.Conserved) (a : α) : (p.push a).Conserved where
  fifo := by
    rw [WorkPool.push, h.fifo, List.append_assoc]
  placed := h.placed
  holder := h.holder

theorem take (h : p.Conserved) (w : Nat) : (p.take w).Conserved := by
  unfold WorkPool.take
  split
  · rename_i a rest hheld hqueue
    have hw : w < p.held.length := (List.getElem?_eq_some_iff.mp hheld).1
    refine ⟨?_, ?_, fun v b hv => ?_⟩
    · rw [List.map_append, List.map_cons, List.map_nil, List.append_assoc, List.singleton_append,
        ← hqueue]
      exact h.fifo
    · rw [List.map_append, List.map_cons, List.map_nil]
      have hset := reduceOption_set hheld (some a)
      rw [Option.toList_none, List.nil_append, Option.toList_some, List.singleton_append] at hset
      refine List.perm_append_comm.trans ?_
      exact (h.placed.cons a).trans (hset.symm.append_right p.finished)
    · rw [job_set hw _ rfl] at hv
      by_cases hvw : v = w
      · rw [if_pos hvw, Option.some.injEq] at hv
        rw [hvw, hv]
        exact List.mem_append_right _ (List.mem_singleton_self _)
      · rw [if_neg hvw] at hv
        exact List.mem_append_left _ (h.holder v b hv)
  · exact h

theorem finish (h : p.Conserved) (w : Nat) : (p.finish w).Conserved := by
  unfold WorkPool.finish
  split
  · rename_i a hjob
    have hheld := job_eq_some.mp hjob
    have hw : w < p.held.length := (List.getElem?_eq_some_iff.mp hheld).1
    refine ⟨h.fifo, ?_, fun v b hv => ?_⟩
    · have hset := reduceOption_set hheld none
      rw [Option.toList_some, Option.toList_none, List.nil_append, List.singleton_append] at hset
      refine h.placed.trans ?_
      rw [← List.append_assoc]
      refine (hset.symm.append_right p.finished).trans ?_
      rw [List.cons_append]
      exact (List.perm_append_singleton a _).symm
    · rw [job_set hw _ rfl] at hv
      by_cases hvw : v = w
      · rw [if_pos hvw] at hv
        cases hv
      · rw [if_neg hvw] at hv
        exact h.holder v b hv
  · exact h

/-- Every job put is in the queue, held by a worker, or finished. -/
theorem perm (h : p.Conserved) : p.put.Perm (p.queue ++ (p.held.reduceOption ++ p.finished)) := by
  rw [h.fifo]
  exact List.perm_append_comm.trans (h.placed.append_left p.queue)

end Conserved

end WorkPool

end Lib
