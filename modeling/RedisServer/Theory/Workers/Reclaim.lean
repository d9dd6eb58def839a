import RedisServer.Theory.Loop.Accounts
import RedisServer.Theory.Server.Disposal

/-!
# No Deleted Entry Is Forgotten

What the main thread deletes and the workers dispose of, in every order of
their steps: an entry in memory is in the table of a connection, or it is on
its way to its disposal, with the main thread, in the queue or with a worker.
So no interleaving leaks an entry that was deleted, and once no deletion is
under way, the tables hold all that is in memory.

## Main definitions

* `Traceable`: Every entry in memory is stored, or on its way.

## Theorems

* `Serves.ledger`: What serves.
* `threadStep_traceable`: Every step of every thread.
* `entries_of_threads`: Every interleaving.
-/

namespace RedisServer

open Lib

/-- An entry in memory is in a table, or was deleted and waits. -/
def Traceable (s : Threads) : Prop :=
  ∀ e, s.g.entries e ≠ none → (∃ c, Stored s.g c e) ∨ e ∈ s.waiting

section

variable {R : Runtime} {g g' : GData} {s s' : Threads} {P : Nat → Prop}

/-- A command that deletes nothing. -/
theorem Traceable.grow (h : Traceable s) (hidle : s.main = .idle) {o : Option Nat}
    (hgrows : s.g.ledger.Grows o g'.ledger) : Traceable { s with g := g', main := .idle } := by
  intro e he
  have hqueue : g'.queue = s.g.queue := hgrows.queue
  have hwaiting : ({ s with g := g', main := .idle } : Threads).waiting = s.waiting := by
    rw [Threads.waiting, Threads.waiting, hidle, hqueue]
  rw [hwaiting]
  rw [← owner_iff] at he
  show (∃ c, Stored g' c e) ∨ _
  rw [← exists_held]
  rcases hgrows with heq | ⟨a, _, _, heq⟩
  · rw [heq] at he ⊢
    rw [exists_held]
    exact h e (owner_iff.mp he)
  · rw [heq] at he ⊢
    by_cases hea : e = a
    · exact Or.inl ⟨o, Or.inr ⟨rfl, hea⟩⟩
    · rw [Ledger.owner_alloc_of_ne hea, owner_iff] at he
      refine (h e he).imp_left fun hs => ?_
      rcases exists_held.mpr hs with ⟨o', ho'⟩
      exact ⟨o', Or.inl ho'⟩

/-- An entry leaves its table. -/
theorem Traceable.unlink (h : Traceable s) (hidle : s.main = .idle) {e : Nat}
    (hu : Unlinks R s.g g' e) : Traceable { s with g := g', main := .unlinked e } := by
  intro a ha
  have hwaiting : ({ s with g := g', main := .unlinked e } : Threads).waiting = e :: s.waiting := by
    rw [Threads.waiting, Threads.waiting, hidle, hu.queue]
    rfl
  rw [hwaiting, List.mem_cons]
  have hold : s.g.entries a ≠ none := by
    rw [← hu.entries]
    exact ha
  by_cases hae : a = e
  · exact Or.inr (Or.inl hae)
  · rcases h a hold with ⟨c, hs⟩ | hw
    · exact Or.inl ⟨c, (hu.unlinked.stored c a).mpr ⟨hs, hae⟩⟩
    · exact Or.inr (Or.inr hw)

/-- A step that leaves the tables alone, and after which all wait that waited
    and are in memory. -/
theorem Traceable.move (h : Traceable s) (hconns : s'.g.conns = s.g.conns)
    (hentries : ∀ e, s'.g.entries e ≠ none → s.g.entries e ≠ none ∧ (e ∈ s.waiting → e ∈ s'.waiting)) :
    Traceable s' := by
  intro e he
  rcases hentries e he with ⟨hold, hwait⟩
  refine (h e hold).imp (fun hs => hs.imp fun c hs => ?_) hwait
  rw [Stored, nodesOf, hconns]
  exact hs

/-- `do_del` finds no entry. -/
theorem delUnlink_none (hinv : Inv R g P) {c : Nat} {cmd : List Bytes}
    (hrun : delUnlink R g c cmd = .ok (g', none)) : g'.ledger = g.ledger := by
  rcases bind_eq_ok.mp hrun with ⟨conn, hconn, hrun⟩
  have hc := conns_of_conn hconn
  rcases bind_eq_ok.mp hrun with ⟨⟨db, node⟩, hdel, hrun⟩
  rw [Except.ok.injEq, Prod.mk.injEq, Option.map_eq_none_iff] at hrun
  rcases hmDelete_key hinv.db hc hdel with ⟨hwf, hp⟩
  rw [hrun.2] at hp
  rw [← hrun.1]
  exact (setDb_rehashed hinv.db hc hwf hp.symm).ledger

/-- What serves adds at most one entry, to the table of a connection. -/
theorem Serves.ledger (hinv : Inv R g P) (h : Serves R g g') : ∃ o, g.ledger.Grows o g'.ledger := by
  cases h with
  | accept connfd now hacc => exact ⟨none, Or.inl (handleAccept_ledger hinv hacc)⟩
  | touch c now htouch => exact ⟨none, Or.inl (connTouch_ledger hinv htouch)⟩
  | command hc hdel hdo => exact ⟨_, doRequest_ledger hinv hdel hdo⟩
  | absent hstep => exact ⟨none, Or.inl (delUnlink_none hinv hstep)⟩
  | early hg => exact ⟨none, Or.inl (congrArg GData.ledger hg)⟩

/-! ## The steps of the threads -/

/-- Freeing the entry that a thread holds. -/
theorem Traceable.dispose (h : Traceable s) {e : Nat} {l : List Nat}
    (hl : s.waiting ⊆ e :: l) (hconns : s'.g.conns = s.g.conns)
    (hentries : s'.g.entries = Function.update s.g.entries e none) (hwaiting : l ⊆ s'.waiting) :
    Traceable s' := by
  refine h.move hconns fun a ha => ?_
  rw [hentries] at ha
  have hae : a ≠ e := by
    rintro rfl
    exact ha (Function.update_self _ _ _)
  rw [Function.update_of_ne hae] at ha
  exact ⟨ha, fun hw => hwaiting ((List.mem_cons.mp (hl hw)).resolve_left hae)⟩

theorem entryDelSync_eq {e : Nat} (hrun : entryDelSync g e = .ok g') :
    g' = { g with entries := Function.update g.entries e none } := by
  rcases bind_eq_ok.mp hrun with ⟨x, _, hrun⟩
  rcases bind_eq_ok.mp hrun with ⟨_, _, hrun⟩
  rw [Except.ok.injEq] at hrun
  exact hrun.symm

/-- Every step of every thread. -/
theorem threadStep_traceable (h : Traceable s) (hinv : ThreadsInv R s) {act : ThreadAct} {u : Unit}
    (hrun : threadStep R s act = .ok (s', u)) : Traceable s' := by
  cases threadStep_moves hinv hrun with
  | wait => exact h
  | serve hidle hserves =>
      rcases hserves.ledger (hinv.inv hidle) with ⟨o, hgrows⟩
      exact h.grow hidle hgrows
  | unlink hidle hu => exact h.unlink hidle hu
  | untime hmain httl =>
      rcases entrySetTtl_eq httl with ⟨heap, refs, rfl⟩
      refine h.move rfl fun a ha => ⟨ha, fun hw => ?_⟩
      rw [Threads.waiting, hmain] at hw
      exact hw
  | @push e hmain =>
      refine h.move rfl fun a ha => ⟨ha, fun hw => ?_⟩
      rw [waiting_of_untimed hmain] at hw
      show a ∈ s.g.queue ++ [e] ++ s.held.reduceOption
      rw [List.append_assoc, List.singleton_append]
      exact List.perm_middle.mem_iff.mpr hw
  | free hmain hdel =>
      rw [entryDelSync_eq hdel]
      exact h.dispose (by rw [waiting_of_untimed hmain]; exact List.Subset.refl _) rfl rfl
        (List.Subset.refl _)
  | take w =>
      exact h.move rfl fun a ha => ⟨ha,
        ((s.pool.waiting_take w).append_left s.main.ent.toList).mem_iff.mpr⟩
  | run hjob hdel =>
      rw [entryDelSync_eq hdel]
      have hperm := List.perm_middle.symm.trans
        ((WorkPool.waiting_finish hjob).append_left s.main.ent.toList)
      exact h.dispose hperm.symm.subset rfl rfl (List.Subset.refl _)

end

/-- Whatever the order of the steps of the main thread and the workers: the
    entries in memory are those in the tables, and those that were deleted and
    are still with the main thread, in the queue, or with a worker. -/
theorem entries_of_threads (R : Runtime) (n : Nat) (acts : List ThreadAct) (s : Threads)
    (us : List Unit) (hrun : run (threadStep R) (Threads.init n) acts = .ok (s, us)) (e : Nat) :
    s.g.entries e ≠ none ↔ (∃ c, Stored s.g c e) ∨ e ∈ s.waiting := by
  have hboth : ThreadsInv R s ∧ Traceable s :=
    run_invariant (I := fun s => ThreadsInv R s ∧ Traceable s) (G := fun _ _ => True)
      (fun _ _ _ _ h _ hstep => ⟨threadStep_inv h.1 hstep, threadStep_traceable h.2 h.1 hstep⟩)
      ⟨threadsInv_init R n, fun _ he => absurd rfl he⟩ (guarded_of_forall (fun _ _ _ => True.intro) _)
      hrun
  refine ⟨hboth.2 e, ?_⟩
  rintro (⟨c, hs⟩ | hw)
  · rcases hboth.1.db.stored hs with ⟨x, hx, _⟩
    rw [hx.entry]
    exact Option.some_ne_none x
  · exact hboth.1.alive e hw

/-- The entry of the large set is with the worker who took it. -/
theorem entries_of_threads_large :
    ∃ s us e, run (threadStep readsDigits) (Threads.init 1) fillAndDelete = .ok (s, us) ∧
      (s.put = [e] ∧ s.taken = [(0, e)] ∧ s.held = [some e]) ∧
      ∀ e, s.g.entries e ≠ none ↔ (∃ c, Stored s.g c e) ∨ e ∈ s.waiting := by
  rcases fillAndDelete_run with ⟨s, us, e, hrun, hjob⟩
  exact ⟨s, us, e, hrun, hjob, entries_of_threads readsDigits 1 fillAndDelete s us hrun⟩

end RedisServer
