import RedisServer.Core.ThreadPool
import RedisServer.Theory.Server.SetReference

/-!
# Deferred Disposal

A deleted entry goes from the tables and the heap to the queue of the thread
pool, and from there to a worker. On the way it is taken out of its table
first and out of the heap next, and only then is it put in the queue, so no
step of any thread reaches an entry that another disposes of. Commands add no
entry to a table but new ones, so an entry that is out stays out. They free
none, so it is still in memory when a worker comes to dispose of it.

## Main definitions

* `Threads.waiting`: The entries on their way.
* `Threads.gone`: The entries on their way, or disposed of.
* `ThreadsInv`: They are distinct, and nothing refers to them.
* `Unlinks`: What the first step of a deletion does.
* `Serves`, `ThreadMove`: What the steps do.

## Theorems

* `delUnlink_spec`, `ttlUnlink_spec`: The two places that delete.
* `threadStep_moves`, `threadStep_inv`: Every step of every thread.
* `deletion_queued`: A large set goes to the queue.
* `deferred_disposal`: Every interleaving.
* `entryDel_acts`, `doDel_unlink`, `ttlLoop_unlink`: Without workers, the steps
  are `do_del` and the TTL loop.
-/

namespace RedisServer

open Lib

/-- The entries that were deleted, in whatever stage their disposal is, and
    the one the main thread is deleting. -/
def Threads.gone (s : Threads) : List Nat := s.main.ent.toList ++ (s.put ++ s.freed)

/-- The entries that were deleted and not disposed of: the one the main thread
    is deleting, those in the queue, and those the workers hold. -/
def Threads.waiting (s : Threads) : List Nat :=
  s.main.ent.toList ++ (s.g.queue ++ s.held.reduceOption)

/-- What holds between two steps of the threads. -/
structure ThreadsInv (R : Runtime) (s : Threads) : Prop where
  db : DbInv R s.g
  loop : LoopInv s.g
  indexed : Indexed s.g.heap s.g.heapIdx
  timed : ∀ e i, s.g.heapIdx e = some i → (∃ c, Stored s.g c e) ∨ s.main = .unlinked e
  pool : s.pool.Conserved
  nodup : s.gone.Nodup
  out : ∀ e ∈ s.gone, (∀ c, ¬ Stored s.g c e) ∧ e < s.g.nextEntry
  alive : ∀ e ∈ s.waiting, s.g.entries e ≠ none

/-- The entry `e` was stored and is out of its table. -/
structure Unlinks (R : Runtime) (g g' : GData) (e : Nat) : Prop where
  stored : ∃ c, Stored g c e
  unlinked : Unlinked g g' e
  db : DbInv R g'
  loop : SameLoop g g'
  heap : g'.heap = g.heap
  heapIdx : g'.heapIdx = g.heapIdx
  entries : g'.entries = g.entries
  nextEntry : g'.nextEntry = g.nextEntry
  queue : g'.queue = g.queue

section

variable {R : Runtime} {g g' : GData} {s s' : Threads}

theorem threadsInv_init (R : Runtime) (n : Nat) : ThreadsInv R (Threads.init n) where
  db := (inv_init R).db
  loop := (inv_init R).loop
  indexed := indexed_nil
  timed := fun e i h => absurd h (by simp only [Threads.init, reduceCtorEq, not_false_eq_true])
  pool := WorkPool.conserved_start n
  nodup := List.nodup_nil
  out := fun e he => absurd he List.not_mem_nil
  alive := by
    intro e he
    rw [Threads.waiting, Threads.init, List.reduceOption_replicate_none] at he
    exact absurd he List.not_mem_nil

/-- The deleted entries are those on their way, and those disposed of. -/
theorem ThreadsInv.gone_perm (h : ThreadsInv R s) :
    s.gone.Perm (s.waiting ++ s.disposed) := by
  have hput : (s.put ++ s.freed).Perm (s.g.queue ++ (s.held.reduceOption ++ s.finished) ++ s.freed) :=
    h.pool.perm.append_right s.freed
  rw [Threads.gone, Threads.waiting, Threads.disposed]
  simp only [List.append_assoc] at hput ⊢
  exact hput.append_left _

theorem ThreadsInv.waiting_nodup (h : ThreadsInv R s) : s.waiting.Nodup :=
  (h.gone_perm.nodup_iff.mp h.nodup).of_append_left

/-- Between two deletions the server's invariant holds in full. -/
theorem ThreadsInv.inv (h : ThreadsInv R s) (hidle : s.main = .idle) : Inv R s.g where
  db := h.db
  heap :=
    { indexed := h.indexed
      owned := fun e i hi => Or.inl ((h.timed e i hi).resolve_right fun hm => by
        rw [hidle] at hm
        exact absurd hm (by simp only [reduceCtorEq, not_false_eq_true]))
      orphan := fun _ he => he.elim }
  loop := h.loop

/-! ## The first step of a deletion -/

/-- The node that `hm_delete` took out of a table. -/
theorem unlinks_of_found (hinv : Inv R g) {c : Nat} {conn : Conn} (hc : g.conns c = some conn)
    {db : HMap Nat} {n : HNode Nat} (hwf : db.Wf) (hp : conn.db.nodes.Perm (n :: db.nodes)) :
    Unlinks R g (g.setConn c { conn with db := db }) n.payload := by
  have hstored : Stored g c n.payload :=
    ⟨n, by rw [nodesOf_eq hc, hp.mem_iff]; exact List.mem_cons_self, rfl⟩
  rcases hinv.db.stored hstored with ⟨x, hx, _⟩
  rcases unlink_spec hinv.db hc hwf hp hx with ⟨hunlinked, hwf', hnodup⟩
  refine ⟨⟨c, hstored⟩, hunlinked, hunlinked.dbInv hinv.db hwf' hnodup (fun _ _ => rfl) rfl ?_,
    setDb_sameLoop hc db, rfl, rfl, rfl, rfl, rfl⟩
  rw [hx.entry]
  exact Option.some_ne_none x

/-- `do_del` finds no entry, or takes it out of its table. -/
theorem delUnlink_spec (hinv : Inv R g) {c : Nat} {cmd : List Bytes} {r : Option Nat}
    (hrun : delUnlink R g c cmd = .ok (g', r)) :
    (r = none ∧ Inv R g' ∧ Grown g g') ∨ ∃ e, r = some e ∧ Unlinks R g g' e := by
  rcases bind_eq_ok.mp hrun with ⟨conn, hconn, hrun⟩
  have hc := conns_of_conn hconn
  rcases bind_eq_ok.mp hrun with ⟨⟨db, node⟩, hdel, hrun⟩
  rw [Except.ok.injEq, Prod.mk.injEq] at hrun
  have hans := entryEq_answers hinv.db c (arg cmd 1) (R.strHash (arg cmd 1))
  rw [nodesOf_eq hc] at hans
  rcases hmDelete_spec (hinv.db.wf c conn hc) hans with ⟨db', node', hdel', hwf, hp, _⟩
  rw [hdel, Except.ok.injEq, Prod.mk.injEq] at hdel'
  rw [← hdel'.1] at hwf hp
  rw [← hdel'.2] at hp
  rw [← hrun.1, ← hrun.2]
  cases node with
  | none =>
      have hre := setDb_rehashed hinv.db hc hwf hp.symm
      exact Or.inl ⟨rfl, hre.inv hinv, hre.grown⟩
  | some n => exact Or.inr ⟨n.payload, rfl, unlinks_of_found hinv hc hwf hp⟩

/-- A turn of the TTL loop finds nothing due, or takes the entry at the root
    out of its table. -/
theorem ttlUnlink_spec (hinv : Inv R g) {now : Nat} {r : Option Nat}
    (hrun : ttlUnlink g now = .ok (g', r)) :
    (r = none ∧ g' = g) ∨ ∃ e, r = some e ∧ Unlinks R g g' e := by
  unfold ttlUnlink at hrun
  cases hheap : g.heap with
  | nil =>
      simp only [hheap, Except.ok.injEq, Prod.mk.injEq] at hrun
      exact Or.inl ⟨hrun.2.symm, hrun.1.symm⟩
  | cons item rest =>
      simp only [hheap] at hrun
      by_cases hlate : item.val < now
      · rw [if_pos hlate] at hrun
        have hroot : g.heap[0]? = some item := by
          rw [hheap, List.getElem?_cons_zero]
        -- the root points to a stored entry, so the branch for stale items is not taken
        rcases hinv.heap.indexed.back 0 item hroot with ⟨e, href, hidx⟩
        rcases hinv.heap.stored hidx with ⟨c, hs⟩
        rcases hinv.db.stored hs with ⟨x, hx, hown⟩
        rcases conns_of_stored hs with ⟨conn, hc⟩
        simp only [href, entry_eq hx.entry, ok_bind, hidx, hown, conn_eq hc] at hrun
        rcases bind_eq_ok.mp hrun with ⟨⟨db, node⟩, hdel, hrun⟩
        rcases hmDelete_spec (hinv.db.wf c conn hc) (hnodeSame_answers e x.hcode conn.db.nodes) with
          ⟨db', node', hdel', hwf, hp, _⟩
        rw [hdel, Except.ok.injEq, Prod.mk.injEq] at hdel'
        rw [← hdel'.1] at hwf hp
        rw [← hdel'.2] at hp
        -- the assertion: the table gave up the node that was asked for
        by_cases hfound : node.map HNode.payload ≠ some e
        · rw [if_pos hfound] at hrun
          cases hrun
        · rw [if_neg hfound, Except.ok.injEq, Prod.mk.injEq] at hrun
          rw [not_not, Option.map_eq_some_iff] at hfound
          rcases hfound with ⟨n, rfl, rfl⟩
          rw [← hrun.1, ← hrun.2]
          exact Or.inr ⟨n.payload, rfl, unlinks_of_found hinv hc hwf hp⟩
      · rw [if_neg hlate, Except.ok.injEq, Prod.mk.injEq] at hrun
        exact Or.inl ⟨hrun.2.symm, hrun.1.symm⟩

/-! ## What a step is -/

/-- A step of the main thread that deletes nothing: a new connection, activity
    on one, a command other than `del`, and a `del` or an expiration that finds
    nothing. -/
inductive Serves (R : Runtime) (g g' : GData) : Prop
  | accept (connfd : Int) (now : Nat) : handleAccept g connfd now = .ok g' → Serves R g g'
  | touch (c now : Nat) : connTouch g c now = .ok g' → Serves R g g'
  | command {c : Nat} {conn : Conn} {cmd : List Bytes} {now : Nat} {out : Bytes} :
      g.conns c = some conn → ¬ isCmd cmd 2 "del" = true →
      doRequest R g c cmd now [] = .ok (g', out) → Serves R g g'
  | absent {c : Nat} {cmd : List Bytes} : delUnlink R g c cmd = .ok (g', none) → Serves R g g'
  | early : g' = g → Serves R g g'

/-- The moves that the steps of the threads make. -/
inductive ThreadMove (R : Runtime) (s : Threads) : Threads → Prop
  | wait : ThreadMove R s s
  | serve {g' : GData} : s.main = .idle → Serves R s.g g' →
      ThreadMove R s { s with g := g', main := .idle }
  | unlink {g' : GData} {e : Nat} : s.main = .idle → Unlinks R s.g g' e →
      ThreadMove R s { s with g := g', main := .unlinked e }
  | untime {g' : GData} {e : Nat} : s.main = .unlinked e → entrySetTtl s.g e (-1) 0 = .ok g' →
      ThreadMove R s { s with g := g', main := .untimed e }
  | push {e : Nat} : s.main = .untimed e →
      ThreadMove R s ({ s with main := .idle }.withPool (s.pool.push e))
  | free {g' : GData} {e : Nat} : s.main = .untimed e → entryDelSync s.g e = .ok g' →
      ThreadMove R s { s with g := g', main := .idle, freed := s.freed ++ [e] }
  | take (w : Nat) : ThreadMove R s (s.withPool (s.pool.take w))
  | run {g' : GData} {w e : Nat} : s.pool.job w = some e → entryDelSync s.g e = .ok g' →
      ThreadMove R s (({ s with g := g' } : Threads).withPool (s.pool.finish w))

/-- Between two deletions, a step serves or is the first of a deletion. -/
theorem mainIdle_moves (h : ThreadsInv R s) {step : GData → Result (GData × Option Nat)} {u : Unit}
    (hstep : ∀ g' r, Inv R s.g → step s.g = .ok (g', r) →
      (r = none ∧ Serves R s.g g') ∨ ∃ e, r = some e ∧ Unlinks R s.g g' e)
    (hrun : mainIdle s step = .ok (s', u)) : ThreadMove R s s' := by
  unfold mainIdle at hrun
  cases hmain : s.main with
  | idle =>
      simp only [hmain] at hrun
      rcases bind_eq_ok.mp hrun with ⟨⟨g₁, r⟩, hg, hrun⟩
      rw [Except.ok.injEq, Prod.mk.injEq] at hrun
      rw [← hrun.1]
      rcases hstep g₁ r (h.inv hmain) hg with ⟨rfl, hserves⟩ | ⟨e, rfl, hu⟩
      · exact .serve hmain hserves
      · exact .unlink hmain hu
  | unlinked e =>
      simp only [hmain, Except.ok.injEq, Prod.mk.injEq] at hrun
      rw [← hrun.1]
      exact .wait
  | untimed e =>
      simp only [hmain, Except.ok.injEq, Prod.mk.injEq] at hrun
      rw [← hrun.1]
      exact .wait

/-- The second step of a deletion. -/
theorem untime_moves {u : Unit} (hrun : threadStep R s .untime = .ok (s', u)) :
    ThreadMove R s s' := by
  unfold threadStep at hrun
  cases hmain : s.main with
  | idle =>
      simp only [hmain, Except.ok.injEq, Prod.mk.injEq] at hrun
      rw [← hrun.1]
      exact .wait
  | unlinked e =>
      simp only [hmain] at hrun
      rcases bind_eq_ok.mp hrun with ⟨g₁, httl, hrun⟩
      rw [Except.ok.injEq, Prod.mk.injEq] at hrun
      rw [← hrun.1]
      exact .untime hmain httl
  | untimed e =>
      simp only [hmain, Except.ok.injEq, Prod.mk.injEq] at hrun
      rw [← hrun.1]
      exact .wait

/-- The last step of a deletion: the large set is put in the queue, the rest is
    freed at once. -/
theorem dispose_moves {u : Unit} (hrun : threadStep R s .dispose = .ok (s', u)) :
    ThreadMove R s s' := by
  unfold threadStep at hrun
  cases hmain : s.main with
  | idle =>
      simp only [hmain, Except.ok.injEq, Prod.mk.injEq] at hrun
      rw [← hrun.1]
      exact .wait
  | unlinked e =>
      simp only [hmain, Except.ok.injEq, Prod.mk.injEq] at hrun
      rw [← hrun.1]
      exact .wait
  | untimed e =>
      simp only [hmain] at hrun
      rcases bind_eq_ok.mp hrun with ⟨x, _, hrun⟩
      by_cases hlarge : kLargeContainerSize < (if x.type = .zset then hmSize x.zset.hmap else 0)
      · rw [if_pos hlarge, Except.ok.injEq, Prod.mk.injEq] at hrun
        rw [← hrun.1]
        exact .push hmain
      · rw [if_neg hlarge] at hrun
        rcases bind_eq_ok.mp hrun with ⟨g₁, hdel, hrun⟩
        rw [Except.ok.injEq, Prod.mk.injEq] at hrun
        rw [← hrun.1]
        exact .free hmain hdel

/-- Every step is one of the moves. -/
theorem threadStep_moves (h : ThreadsInv R s) {act : ThreadAct} {u : Unit}
    (hrun : threadStep R s act = .ok (s', u)) : ThreadMove R s s' := by
  -- the first four steps need the main thread to be idle, the others look at one entry
  cases act with
  | accept connfd now =>
      rw [threadStep] at hrun
      refine mainIdle_moves h (fun g' r _ hstep => ?_) hrun
      rcases bind_eq_ok.mp hstep with ⟨g₁, hacc, hstep⟩
      rw [Except.ok.injEq, Prod.mk.injEq] at hstep
      rw [← hstep.1, ← hstep.2]
      exact Or.inl ⟨rfl, .accept connfd now hacc⟩
  | touch c now =>
      rw [threadStep] at hrun
      refine mainIdle_moves h (fun g' r _ hstep => ?_) hrun
      rcases bind_eq_ok.mp hstep with ⟨g₁, htouch, hstep⟩
      rw [Except.ok.injEq, Prod.mk.injEq] at hstep
      rw [← hstep.1, ← hstep.2]
      exact Or.inl ⟨rfl, .touch c now htouch⟩
  | command c cmd now =>
      rw [threadStep] at hrun
      refine mainIdle_moves h (fun g' r hinv hstep => ?_) hrun
      by_cases hdel : isCmd cmd 2 "del" = true
      · rw [if_pos hdel] at hstep
        rcases delUnlink_spec hinv hstep with ⟨rfl, _⟩ | hu
        · exact Or.inl ⟨rfl, .absent hstep⟩
        · exact Or.inr hu
      · rw [if_neg hdel] at hstep
        rcases bind_eq_ok.mp hstep with ⟨conn, hconn, hstep⟩
        rcases bind_eq_ok.mp hstep with ⟨⟨g₁, out⟩, hdo, hstep⟩
        rw [Except.ok.injEq, Prod.mk.injEq] at hstep
        rw [← hstep.1, ← hstep.2]
        exact Or.inl ⟨rfl, .command (conns_of_conn hconn) hdel hdo⟩
  | expire now =>
      rw [threadStep] at hrun
      refine mainIdle_moves h (fun g' r hinv hstep => ?_) hrun
      rcases ttlUnlink_spec hinv hstep with ⟨hr, hg⟩ | hu
      · exact Or.inl ⟨hr, .early hg⟩
      · exact Or.inr hu
  | untime => exact untime_moves hrun
  | dispose => exact dispose_moves hrun
  | take w =>
      rw [threadStep, Except.ok.injEq, Prod.mk.injEq] at hrun
      rw [← hrun.1]
      exact .take w
  | run w =>
      unfold threadStep at hrun
      cases hjob : s.pool.job w with
      | none =>
          simp only [hjob, Except.ok.injEq, Prod.mk.injEq] at hrun
          rw [← hrun.1]
          exact .wait
      | some e =>
          simp only [hjob] at hrun
          rcases bind_eq_ok.mp hrun with ⟨g₁, hdel, hrun⟩
          rw [Except.ok.injEq, Prod.mk.injEq] at hrun
          rw [← hrun.1]
          exact .run hjob hdel

/-! ## The steps of the main thread -/

/-- A command that deletes nothing. -/
theorem ThreadsInv.grow (h : ThreadsInv R s) (hidle : s.main = .idle) (hinv : Inv R g')
    (hgrown : Grown s.g g') : ThreadsInv R { s with g := g', main := .idle } where
  db := hinv.db
  loop := hinv.loop
  indexed := hinv.heap.indexed
  timed := fun e i hi => Or.inl (hinv.heap.stored hi)
  pool := by
    rw [Threads.pool, hgrown.queue]
    exact h.pool
  nodup := by
    have := h.nodup
    rw [Threads.gone, hidle] at this
    exact this
  out := by
    intro e he
    have hout := h.out e (by rw [Threads.gone, hidle]; exact he)
    refine ⟨fun c hs => ?_, Nat.lt_of_lt_of_le hout.2 hgrown.nextEntry⟩
    -- an entry that was taken out is below `nextEntry`, so it is none of the new ones
    rcases hgrown.stored c e hs with hold | hnew
    · exact hout.1 c hold
    · exact absurd hout.2 (Nat.not_lt.mpr hnew)
  alive := by
    intro e he
    refine hgrown.alive e (h.alive e ?_)
    rw [Threads.waiting, hgrown.queue] at he
    rw [Threads.waiting, hidle]
    exact he

/-- An entry leaves its table. -/
theorem ThreadsInv.unlink (h : ThreadsInv R s) (hidle : s.main = .idle) {e : Nat}
    (hu : Unlinks R s.g g' e) : ThreadsInv R { s with g := g', main := .unlinked e } where
  db := hu.db
  loop := hu.loop.loopInv h.loop
  indexed := by
    rw [hu.heap, hu.heapIdx]
    exact h.indexed
  timed := by
    intro a i hi
    rw [hu.heapIdx] at hi
    -- the entry itself keeps its deadline for now, and the main thread holds it
    by_cases hae : a = e
    · exact Or.inr (by rw [hae])
    · rcases (h.inv hidle).heap.stored hi with ⟨c, hs⟩
      exact Or.inl ⟨c, (hu.unlinked.stored c a).mpr ⟨hs, hae⟩⟩
  pool := by
    rw [Threads.pool, hu.queue]
    exact h.pool
  nodup := by
    have hnodup := h.nodup
    rw [Threads.gone, hidle] at hnodup
    -- it was in a table, so it was not among those taken out
    refine List.nodup_cons.mpr ⟨fun hmem => ?_, hnodup⟩
    rcases hu.stored with ⟨c, hs⟩
    exact (h.out e (by rw [Threads.gone, hidle]; exact hmem)).1 c hs
  out := by
    intro a ha
    rcases List.mem_cons.mp ha with rfl | ha
    · refine ⟨fun c hs => ((hu.unlinked.stored c a).mp hs).2 rfl, ?_⟩
      rcases hu.stored with ⟨c, hs⟩
      rcases h.db.stored hs with ⟨x, hx, _⟩
      rw [hu.nextEntry]
      refine Nat.lt_of_not_le fun hle => ?_
      have hnone := h.db.fresh a hle
      rw [hx.entry] at hnone
      cases hnone
    · have hout := h.out a (by rw [Threads.gone, hidle]; exact ha)
      rw [hu.nextEntry]
      exact ⟨fun c hs => hout.1 c ((hu.unlinked.stored c a).mp hs).1, hout.2⟩
  alive := by
    intro a ha
    rw [Threads.waiting, hu.queue] at ha
    rw [hu.entries]
    rcases List.mem_cons.mp ha with rfl | ha
    · rcases hu.stored with ⟨c, hs⟩
      rcases h.db.stored hs with ⟨x, hx, _⟩
      rw [hx.entry]
      exact Option.some_ne_none x
    · exact h.alive a (by rw [Threads.waiting, hidle]; exact ha)

/-- The heap may change under the tables. -/
theorem DbInv.withHeap (h : DbInv R g) (heap : List (HeapItem Nat)) (refs : Refs Nat)
    (queue : List Nat) : DbInv R { g with heap := heap, heapIdx := refs, queue := queue } where
  wf := h.wf
  distinct := h.distinct
  entry := h.entry
  keys := fun c k e x e' x' hx hx' =>
    h.keys c k e x e' x' ⟨hx.stored, hx.entry, hx.key⟩ ⟨hx'.stored, hx'.entry, hx'.key⟩
  fresh := h.fresh

/-- The entry leaves the heap. -/
theorem ThreadsInv.untime (h : ThreadsInv R s) {e : Nat} (hmain : s.main = .unlinked e)
    (hrun : entrySetTtl s.g e (-1) 0 = .ok g') :
    ThreadsInv R { s with g := g', main := .untimed e } := by
  rcases bind_eq_ok.mp hrun with ⟨x, hx, _⟩
  rcases entrySetTtl_spec h.indexed (entries_of_entry hx) (-1) 0 with
    ⟨heap, refs, hspec, hidx, hnone, hothers, _⟩
  rw [hrun, Except.ok.injEq] at hspec
  rw [hspec]
  -- only the main thread's place and the heap change
  have hgone : ({ s with g := { s.g with heap := heap, heapIdx := refs }, main := .untimed e } :
      Threads).gone = s.gone := by
    rw [Threads.gone, Threads.gone, hmain]
    rfl
  have hwaiting : ({ s with g := { s.g with heap := heap, heapIdx := refs }, main := .untimed e } :
      Threads).waiting = s.waiting := by
    rw [Threads.waiting, Threads.waiting, hmain]
    rfl
  refine ⟨h.db.withHeap heap refs s.g.queue, ⟨h.loop.ring, h.loop.fresh⟩, hidx, fun a i hi => ?_,
    h.pool, by rw [hgone]; exact h.nodup, by rw [hgone]; exact h.out,
    by rw [hwaiting]; exact h.alive⟩
  have hae : a ≠ e := by
    rintro rfl
    have hrefs : refs a = none := hidx.deadline_eq_none.mp hnone
    rw [show refs a = some i from hi] at hrefs
    cases hrefs
  -- whoever else is timed now was timed before
  have hdue : deadline s.g.heap s.g.heapIdx a ≠ none := by
    have hother : deadline heap refs a = deadline s.g.heap s.g.heapIdx a := hothers a hae
    rw [← hother, Ne, hidx.deadline_eq_none, show refs a = some i from hi]
    exact Option.some_ne_none i
  rw [Ne, h.indexed.deadline_eq_none] at hdue
  rcases Option.ne_none_iff_exists'.mp hdue with ⟨j, hj⟩
  rcases h.timed a j hj with hs | hm
  · exact Or.inl hs
  · rw [hmain, MainAt.unlinked.injEq] at hm
    exact absurd hm.symm hae

/-- Freeing an entry that is in no table. -/
theorem entryDelSync_spec (hdb : DbInv R g) {e : Nat} (hout : ∀ c, ¬ Stored g c e)
    (hrun : entryDelSync g e = .ok g') :
    g' = { g with entries := Function.update g.entries e none } ∧ DbInv R g' := by
  rcases bind_eq_ok.mp hrun with ⟨x, hx, hrun⟩
  rcases bind_eq_ok.mp hrun with ⟨z, _, hrun⟩
  rw [Except.ok.injEq] at hrun
  rw [← hrun]
  have hunlinked : Unlinked g { g with entries := Function.update g.entries e none } e := by
    intro c m
    refine ⟨fun hm => ⟨hm, ?_⟩, fun hm => hm.1⟩
    rintro rfl
    exact hout c ⟨m, hm, rfl⟩
  refine ⟨rfl, hunlinked.dbInv hdb hdb.wf hdb.distinct
    (fun a ha => Function.update_of_ne ha _ _) rfl ?_⟩
  rw [entries_of_entry hx]
  exact Option.some_ne_none x

/-- A step that frees an entry that is out, or moves a job, and leaves the
    tables and the heap alone. -/
theorem ThreadsInv.move (h : ThreadsInv R s) (hdb : DbInv R s'.g) (hconns : s'.g.conns = s.g.conns)
    (hidle : s'.g.idleList = s.g.idleList) (hnextConn : s'.g.nextConn = s.g.nextConn)
    (hheap : s'.g.heap = s.g.heap) (hidx : s'.g.heapIdx = s.g.heapIdx)
    (hnext : s'.g.nextEntry = s.g.nextEntry) (hmain : ∀ e, s.main = .unlinked e → s'.main = s.main)
    (hpool : s'.pool.Conserved) (hgone : s'.gone.Perm s.gone)
    (halive : ∀ e ∈ s'.waiting, s'.g.entries e ≠ none) : ThreadsInv R s' := by
  have hstored : ∀ c e, Stored s'.g c e ↔ Stored s.g c e := by
    intro c e
    rw [Stored, Stored, nodesOf, nodesOf, hconns]
  refine ⟨hdb, ⟨?_, ?_⟩, by rw [hheap, hidx]; exact h.indexed, fun e i hi => ?_, hpool,
    hgone.nodup_iff.mpr h.nodup, fun e he => ?_, halive⟩
  · rw [hidle, hconns]
    exact h.loop.ring
  · rw [hnextConn, hconns]
    exact h.loop.fresh
  · rw [hidx] at hi
    rcases h.timed e i hi with ⟨c, hs⟩ | hm
    · exact Or.inl ⟨c, (hstored c e).mpr hs⟩
    · exact Or.inr ((hmain e hm).trans hm)
  · have hout := h.out e (hgone.mem_iff.mp he)
    rw [hnext]
    exact ⟨fun c hs => hout.1 c ((hstored c e).mp hs), hout.2⟩

/-- Freeing an entry leaves those that still wait. -/
theorem ThreadsInv.alive_free (h : ThreadsInv R s) {e : Nat} {l : List Nat}
    (hl : (e :: l).Perm s.waiting) :
    ∀ a ∈ l, Function.update s.g.entries e none a ≠ none := by
  intro a ha
  have hnodup := hl.nodup_iff.mpr h.waiting_nodup
  have hae : a ≠ e := by
    rintro rfl
    exact (List.nodup_cons.mp hnodup).1 ha
  rw [Function.update_of_ne hae]
  exact h.alive a (hl.mem_iff.mp (List.mem_cons_of_mem e ha))

theorem gone_of_untimed {e : Nat} (hmain : s.main = .untimed e) :
    s.gone = e :: (s.put ++ s.freed) := by
  rw [Threads.gone, hmain]
  rfl

theorem waiting_of_untimed {e : Nat} (hmain : s.main = .untimed e) :
    s.waiting = e :: (s.g.queue ++ s.held.reduceOption) := by
  rw [Threads.waiting, hmain]
  rfl

theorem main_of_untimed {e : Nat} (hmain : s.main = .untimed e) :
    ∀ a, s.main = .unlinked a → MainAt.idle = s.main := by
  intro a ha
  rw [hmain] at ha
  cases ha

/-- The entry of a large set is put in the queue. -/
theorem ThreadsInv.push (h : ThreadsInv R s) {e : Nat} (hmain : s.main = .untimed e) :
    ThreadsInv R ({ s with main := .idle }.withPool (s.pool.push e)) := by
  refine h.move (h.db.withHeap _ _ _) rfl rfl rfl rfl rfl rfl (main_of_untimed hmain)
    (h.pool.push e) ?_ fun a ha => h.alive a ?_
  · have hgone : (({ s with main := .idle } : Threads).withPool (s.pool.push e)).gone =
        s.put ++ [e] ++ s.freed := rfl
    rw [gone_of_untimed hmain, hgone, List.append_assoc, List.singleton_append]
    exact List.perm_middle
  · have hmem : a ∈ s.g.queue ++ [e] ++ s.held.reduceOption := ha
    rw [List.append_assoc, List.singleton_append] at hmem
    rw [waiting_of_untimed hmain]
    exact List.perm_middle.mem_iff.mp hmem

/-- Another entry is freed at once. -/
theorem ThreadsInv.free (h : ThreadsInv R s) {e : Nat} (hmain : s.main = .untimed e)
    (hrun : entryDelSync s.g e = .ok g') :
    ThreadsInv R { s with g := g', main := .idle, freed := s.freed ++ [e] } := by
  -- freeing it breaks no table, since it is in none
  have hout := (h.out e (by rw [gone_of_untimed hmain]; exact List.mem_cons_self)).1
  rcases entryDelSync_spec h.db hout hrun with ⟨hg', hdb⟩
  rw [hg'] at hdb ⊢
  refine h.move hdb rfl rfl rfl rfl rfl rfl (main_of_untimed hmain) h.pool ?_ ?_
  · have hgone : ({ s with
        g := { s.g with entries := Function.update s.g.entries e none }
        main := .idle
        freed := s.freed ++ [e] } : Threads).gone = s.put ++ (s.freed ++ [e]) := rfl
    rw [gone_of_untimed hmain, hgone, ← List.append_assoc]
    exact List.perm_append_singleton e _
  · have hwaiting := waiting_of_untimed hmain
    exact h.alive_free (l := s.g.queue ++ s.held.reduceOption) (by rw [hwaiting])

/-! ## The steps of the workers -/

theorem put_take (p : WorkPool Nat) (w : Nat) : (p.take w).put = p.put := by
  unfold WorkPool.take
  split
  · rfl
  · rfl

theorem put_finish (p : WorkPool Nat) (w : Nat) : (p.finish w).put = p.put := by
  unfold WorkPool.finish
  split
  · rfl
  · rfl

/-- A worker takes a job. -/
theorem ThreadsInv.take (h : ThreadsInv R s) (w : Nat) :
    ThreadsInv R (s.withPool (s.pool.take w)) := by
  refine h.move (h.db.withHeap _ _ _) rfl rfl rfl rfl rfl rfl (fun _ _ => rfl) (h.pool.take w) ?_
    fun a ha => h.alive a ?_
  · have hgone : (s.withPool (s.pool.take w)).gone =
        s.main.ent.toList ++ ((s.pool.take w).put ++ s.freed) := rfl
    rw [hgone, put_take]
    exact List.Perm.refl _
  · exact ((s.pool.waiting_take w).append_left s.main.ent.toList).mem_iff.mp ha

/-- The job of a worker is one of those that were put. -/
theorem mem_put_of_job {p : WorkPool Nat} (h : p.Conserved) {w e : Nat} (hjob : p.job w = some e) :
    e ∈ p.put := by
  rw [h.perm.mem_iff]
  refine List.mem_append_right _ (List.mem_append_left _ ?_)
  rw [List.reduceOption_mem_iff]
  exact List.mem_of_getElem? (WorkPool.job_eq_some.mp hjob)

/-- A worker disposes of an entry. -/
theorem ThreadsInv.run (h : ThreadsInv R s) {w e : Nat} (hjob : s.pool.job w = some e)
    (hrun : entryDelSync s.g e = .ok g') :
    ThreadsInv R (({ s with g := g' } : Threads).withPool (s.pool.finish w)) := by
  have hmem : e ∈ s.gone :=
    List.mem_append_right _ (List.mem_append_left _ (mem_put_of_job h.pool hjob))
  rcases entryDelSync_spec h.db (h.out e hmem).1 hrun with ⟨hg', hdb⟩
  rw [hg'] at hdb ⊢
  refine h.move (hdb.withHeap _ _ _) rfl rfl rfl rfl rfl rfl (fun _ _ => rfl) (h.pool.finish w) ?_ ?_
  · have hgone : (({ s with g := { s.g with entries := Function.update s.g.entries e none } } :
        Threads).withPool (s.pool.finish w)).gone =
        s.main.ent.toList ++ ((s.pool.finish w).put ++ s.freed) := rfl
    rw [hgone, put_finish]
    exact List.Perm.refl _
  · refine h.alive_free (l := s.main.ent.toList ++ ((s.pool.finish w).queue ++
      (s.pool.finish w).held.reduceOption)) ?_
    exact List.perm_middle.symm.trans ((WorkPool.waiting_finish hjob).append_left _)

/-! ## Every interleaving -/

theorem handleAccept_queue {connfd : Int} {now : Nat} (hrun : handleAccept g connfd now = .ok g') :
    g'.queue = g.queue := by
  unfold handleAccept at hrun
  by_cases hfd : connfd < 0
  · rw [if_pos hfd, Except.ok.injEq] at hrun
    rw [hrun]
  · rw [if_neg hfd] at hrun
    rcases bind_eq_ok.mp hrun with ⟨idle, _, hrun⟩
    rw [Except.ok.injEq] at hrun
    rw [← hrun]

theorem connTouch_queue {c now : Nat} (hrun : connTouch g c now = .ok g') : g'.queue = g.queue := by
  rcases bind_eq_ok.mp hrun with ⟨conn, _, hrun⟩
  rcases bind_eq_ok.mp hrun with ⟨idle, _, hrun⟩
  rcases bind_eq_ok.mp hrun with ⟨idle', _, hrun⟩
  rw [Except.ok.injEq] at hrun
  rw [← hrun]
  rfl

/-- What serves keeps the invariant of the server and adds to its entries. -/
theorem Serves.grown (hinv : Inv R g) (h : Serves R g g') : Inv R g' ∧ Grown g g' := by
  cases h with
  | accept connfd now hacc =>
      rcases handleAccept_spec hinv connfd now with ⟨g₂, hacc', hdata, hinv', _⟩
      rw [hacc, Except.ok.injEq] at hacc'
      rw [← hacc'] at hdata hinv'
      exact ⟨hinv', Grown.of_nodes hdata.nodes hdata.entries hdata.nextEntry
        (handleAccept_queue hacc)⟩
  | touch c now htouch =>
      rcases bind_eq_ok.mp htouch with ⟨conn, hconn, _⟩
      rcases connTouch_spec hinv (conns_of_conn hconn) now with ⟨g₂, htouch', hdata, hinv', _⟩
      rw [htouch, Except.ok.injEq] at htouch'
      rw [← htouch'] at hdata hinv'
      exact ⟨hinv', Grown.of_nodes hdata.nodes hdata.entries hdata.nextEntry
        (connTouch_queue htouch)⟩
  | command hc hdel hdo =>
      rcases exists_views hinv.db with ⟨K, hK⟩
      rcases doRequest_moved hinv hK hc _ _ [] hdo with ⟨K', hm, _⟩
      exact ⟨hm.inv, doRequest_grown hinv hdel hdo⟩
  | absent hstep =>
      rcases delUnlink_spec hinv hstep with ⟨_, hinv', hgrown⟩ | ⟨e, hsome, _⟩
      · exact ⟨hinv', hgrown⟩
      · cases hsome
  | early hg =>
      rw [hg]
      exact ⟨hinv, Grown.refl g⟩

/-- Every step of every thread. -/
theorem threadStep_inv (h : ThreadsInv R s) {act : ThreadAct} {u : Unit}
    (hrun : threadStep R s act = .ok (s', u)) : ThreadsInv R s' := by
  cases threadStep_moves h hrun with
  | wait => exact h
  | serve hidle hserves =>
      rcases hserves.grown (h.inv hidle) with ⟨hinv, hgrown⟩
      exact h.grow hidle hinv hgrown
  | unlink hidle hu => exact h.unlink hidle hu
  | untime hmain httl => exact h.untime hmain httl
  | push hmain => exact h.push hmain
  | free hmain hdel => exact h.free hmain hdel
  | take w => exact h.take w
  | run hjob hdel => exact h.run hjob hdel

theorem threads_of_run {n : Nat} {acts : List ThreadAct} {us : List Unit}
    (hrun : run (threadStep R) (Threads.init n) acts = .ok (s, us)) : ThreadsInv R s :=
  run_invariant (I := ThreadsInv R) (G := fun _ _ => True)
    (fun _ _ _ _ h _ hstep => threadStep_inv h hstep) (threadsInv_init R n)
    (guarded_of_forall (fun _ _ _ => True.intro) _) hrun

/-- No item of the heap refers to an entry that left it. -/
theorem ThreadsInv.untimed (h : ThreadsInv R s) {e : Nat} (hout : ∀ c, ¬ Stored s.g c e)
    (hmain : s.main ≠ .unlinked e) : ∀ item ∈ s.g.heap, item.ref ≠ some e := by
  intro item hitem href
  rcases List.getElem?_of_mem hitem with ⟨i, hi⟩
  rcases h.indexed.back i item hi with ⟨a, hitemRef, hidx⟩
  rw [href, Option.some.injEq] at hitemRef
  rw [← hitemRef] at hidx
  rcases h.timed e i hidx with ⟨c, hs⟩ | hm
  · exact hout c hs
  · exact hmain hm

/-- A job that was taken is with the worker who took it, until it is
    finished. -/
theorem ThreadsInv.holder (h : ThreadsInv R s) {w e : Nat} (htaken : (w, e) ∈ s.taken) :
    e ∈ s.finished ∨ s.held[w]? = some (some e) := by
  have hplaced : e ∈ s.held.reduceOption ++ s.finished :=
    h.pool.placed.mem_iff.mp (List.mem_map_of_mem htaken)
  rcases List.mem_append.mp hplaced with hheld | hfinished
  · rw [List.reduceOption_mem_iff] at hheld
    rcases List.getElem?_of_mem hheld with ⟨v, hv⟩
    have hother : (v, e) ∈ s.taken := h.pool.holder v e (WorkPool.job_eq_some.mpr hv)
    -- No job is taken twice, so the two workers are one.
    have hputNodup : s.put.Nodup :=
      (List.nodup_append.mp (List.nodup_append.mp h.nodup).2.1).1
    have hfifo : s.put = s.taken.map Prod.snd ++ s.g.queue := h.pool.fifo
    rw [hfifo] at hputNodup
    have hsame := List.inj_on_of_nodup_map (List.nodup_append.mp hputNodup).1 hother htaken rfl
    rw [Prod.mk.injEq] at hsame
    rw [← hsame.1]
    exact Or.inr hv
  · exact Or.inl hfinished

/-! ## A large set -/

/-- A request that is no `del`, between two deletions. -/
theorem threadStep_command (s : Threads) (hidle : s.main = .idle) {c : Nat} {cmd : List Bytes}
    (hdel : isCmd cmd 2 "del" = false) {out : Bytes} (hrun : requestStep R c g cmd = .ok (g', out)) :
    threadStep R { s with g := g } (.command c cmd 0) = .ok ({ s with g := g' }, ()) := by
  rcases bind_eq_ok.mp hrun with ⟨conn, hconn, hdo⟩
  have hrequest : doRequest R g c cmd 0 [] = .ok (g', out) := hdo
  simp only [threadStep, mainIdle, hidle, hdel, Bool.false_eq_true, if_false, hconn, ok_bind,
    hrequest, Option.elim_none]

/-- `do_del` takes a stored entry out of its table. -/
theorem delUnlink_holds (hinv : Inv R g) {c : Nat} {k : Bytes} {e : Nat} {x : Entry}
    (hx : Holds g c k e x) :
    ∃ g', delUnlink R g c [ascii "del", k] = .ok (g', some e) ∧ Unlinks R g g' e := by
  rcases conns_of_stored hx.stored with ⟨conn, hc⟩
  have hans := entryEq_answers hinv.db c k (R.strHash k)
  rw [nodesOf_eq hc] at hans
  rcases hmDelete_spec (hinv.db.wf c conn hc) hans with ⟨db, node, hdel, hwf, hp, hfound⟩
  rw [← nodesOf_eq hc] at hfound
  have hkey := keyFound_of_found hinv.db hfound
  cases node with
  | none => exact absurd hx (hkey e x)
  | some n =>
      rcases hkey with ⟨x', hx'⟩
      have hsame := hinv.db.keys c k n.payload x' e x hx' hx
      have harg : arg [ascii "del", k] 1 = k := rfl
      refine ⟨g.setConn c { conn with db := db }, ?_, ?_⟩
      · simp only [delUnlink, harg, conn_eq hc, ok_bind, hdel, Option.map_some, hsame]
      · rw [← hsame]
        exact unlinks_of_found hinv hc hwf hp

/-- An entry that left its table leaves the heap. -/
theorem Unlinks.untime (hinv : Inv R g) {e : Nat} (hu : Unlinks R g g' e) {x : Entry}
    (hx : g.entries e = some x) :
    ∃ heap refs, entrySetTtl g' e (-1) 0 = .ok { g' with heap := heap, heapIdx := refs } ∧
      GData.entry { g' with heap := heap, heapIdx := refs } e = .ok x := by
  have hx' : g'.entries e = some x := by
    rw [hu.entries]
    exact hx
  have hidx : Indexed g'.heap g'.heapIdx := by
    rw [hu.heap, hu.heapIdx]
    exact hinv.heap.indexed
  rcases entrySetTtl_spec hidx hx' (-1) 0 with ⟨heap, refs, httl, _⟩
  exact ⟨heap, refs, httl, entry_eq hx'⟩

/-- The deletion of a large set puts its entry in the queue. -/
theorem deletion_queued (hinv : Inv R s.g) (hidle : s.main = .idle) {c : Nat} {k : Bytes} {e : Nat}
    {x : Entry} (hx : Holds s.g c k e x) (ht : x.type = .zset)
    (hlarge : kLargeContainerSize < hmSize x.zset.hmap) (now : Nat) :
    ∃ g', run (threadStep R) s [.command c [ascii "del", k] now, .untime, .dispose] =
        .ok ({ s with g := g' }.withPool (s.pool.push e), [(), (), ()]) := by
  rcases delUnlink_holds hinv hx with ⟨g₁, hdel, hu⟩
  rcases hu.untime hinv hx.entry with ⟨heap, refs, httl, hx₂⟩
  have hunlink : threadStep R s (.command c [ascii "del", k] now) =
      .ok ({ s with g := g₁, main := .unlinked e }, ()) := by
    have hcmd : isCmd [ascii "del", k] 2 "del" = true := rfl
    simp only [threadStep, mainIdle, hidle, hcmd, if_true, hdel, ok_bind, Option.elim_some]
  have huntime : threadStep R { s with g := g₁, main := .unlinked e } .untime =
      .ok ({ s with g := { g₁ with heap := heap, heapIdx := refs }, main := .untimed e }, ()) := by
    simp only [threadStep, httl, ok_bind]
  have hdispose : threadStep R
      { s with g := { g₁ with heap := heap, heapIdx := refs }, main := .untimed e } .dispose =
      .ok ({ s with g := { g₁ with heap := heap, heapIdx := refs } }.withPool (s.pool.push e), ()) := by
    have hpool : Threads.pool
        { s with g := { g₁ with heap := heap, heapIdx := refs }, main := .untimed e } = s.pool := by
      rw [Threads.pool, Threads.pool, hu.queue]
    simp only [threadStep, hx₂, ok_bind]
    rw [if_pos ht, if_pos hlarge, hpool]
    simp only [Threads.withPool, hidle]
  refine ⟨{ g₁ with heap := heap, heapIdx := refs }, ?_⟩
  rw [run_cons hunlink, run_cons huntime, run_cons hdispose]
  rfl

end

/-- Whatever the order of the steps of the main thread and the workers: no
    entry is disposed of twice, and one that is still to be disposed of is in
    memory. The jobs put in the queue are distinct, and are those taken, in
    order, followed by those in the queue. A job taken is with the one worker
    who took it, or finished. No table and no item of the heap refers to an
    entry that is queued, being disposed of, or disposed of. -/
theorem deferred_disposal (R : Runtime) (n : Nat) (acts : List ThreadAct) (s : Threads)
    (us : List Unit) (hrun : run (threadStep R) (Threads.init n) acts = .ok (s, us)) :
    s.disposed.Nodup ∧
      (∀ e ∈ s.waiting, s.g.entries e ≠ none ∧ e ∉ s.disposed) ∧
      s.put.Nodup ∧ s.put = s.taken.map Prod.snd ++ s.g.queue ∧
      (∀ w e, (w, e) ∈ s.taken → e ∈ s.finished ∨ s.held[w]? = some (some e)) ∧
      ∀ e, e ∈ s.g.queue ∨ some e ∈ s.held ∨ s.main = .untimed e ∨ e ∈ s.disposed →
        (∀ c, ¬ Stored s.g c e) ∧ ∀ item ∈ s.g.heap, item.ref ≠ some e := by
  have h := threads_of_run hrun
  have hnodup := List.nodup_append.mp (h.gone_perm.nodup_iff.mp h.nodup)
  refine ⟨hnodup.2.1, fun e he => ⟨h.alive e he, fun hd => hnodup.2.2 e he e hd rfl⟩,
    (List.nodup_append.mp (List.nodup_append.mp h.nodup).2.1).1, h.pool.fifo,
    fun w e => h.holder, fun e he => ?_⟩
  -- wherever the entry is of the four places, it is out of its table and of the heap
  have hmem : e ∈ s.gone ∧ s.main ≠ .unlinked e := by
    have hmain : e ∈ s.g.queue ++ s.held.reduceOption ++ s.disposed → s.main ≠ .unlinked e := by
      intro hrest hm
      have hgone := h.gone_perm.nodup_iff.mp h.nodup
      rw [Threads.waiting, hm, List.append_assoc] at hgone
      exact (List.nodup_cons.mp hgone).1 hrest
    have hrest : e ∈ s.g.queue ++ s.held.reduceOption ++ s.disposed →
        e ∈ s.gone ∧ s.main ≠ .unlinked e := by
      intro hrest
      refine ⟨h.gone_perm.mem_iff.mpr ?_, hmain hrest⟩
      rw [Threads.waiting, List.append_assoc]
      exact List.mem_append_right _ hrest
    rcases he with hq | hh | hm | hd
    · exact hrest (List.mem_append_left _ (List.mem_append_left _ hq))
    · exact hrest (List.mem_append_left _ (List.mem_append_right _
        (List.reduceOption_mem_iff.mpr hh)))
    · refine ⟨?_, by rw [hm]; exact fun h => MainAt.noConfusion h⟩
      rw [Threads.gone, hm]
      exact List.mem_cons_self
    · exact hrest (List.mem_append_right _ hd)
  have hout := (h.out e hmem.1).1
  exact ⟨hout, h.untimed hout hmem.2⟩

/-- A client fills a set with one member more than the limit and deletes it,
    while the worker waits for a job. -/
def fillAndDelete : List ThreadAct :=
  [.accept 5 0, .take 0] ++
    ((fill (ascii "z") (ascii "1") (numbered 1001)).map (.command 0 · 0) ++
      ([.command 0 [ascii "del", ascii "z"] 0, .untime, .dispose] ++ [.take 0]))

/-- The entry goes to the queue, and from there to the worker. -/
theorem fillAndDelete_run :
    ∃ s us e, run (threadStep readsDigits) (Threads.init 1) fillAndDelete = .ok (s, us) ∧
      s.put = [e] ∧ s.taken = [(0, e)] ∧ s.held = [some e] := by
  rcases oneClient_fill (by decide : 0 < 1001) (by decide) with
    ⟨g₁, rs, _, e, x, hserver, _, hqueue, hinv, hx, ht, hle⟩
  have hlarge : kLargeContainerSize < hmSize x.zset.hmap := Nat.lt_of_lt_of_le (by decide) hle
  have haccept : run (threadStep readsDigits) (Threads.init 1) [.accept 5 0, .take 0] =
      .ok ({ g := oneClient, held := [none] }, [(), ()]) := rfl
  have hfilled : ∃ us, run (threadStep readsDigits) { g := oneClient, held := [none] }
      ((fill (ascii "z") (ascii "1") (numbered 1001)).map (.command 0 · 0)) =
      .ok ({ g := g₁, held := [none] }, us) := by
    refine run_lift (fun g => ({ g := g, held := [none] } : Threads)) _ ?_ hserver
    intro cmd hcmd g g' r hstep
    rcases List.mem_map.mp hcmd with ⟨name, _, rfl⟩
    exact ⟨(), threadStep_command { held := [none] } rfl rfl hstep⟩
  rcases hfilled with ⟨us, hfill⟩
  have hinv₁ : Inv readsDigits ({ g := g₁, held := [none] } : Threads).g := hinv
  rcases deletion_queued hinv₁ rfl hx ht hlarge 0 with ⟨g₂, hdel⟩
  have htake : run (threadStep readsDigits)
      (({ g := g₂, held := [none] } : Threads).withPool
        (({ g := g₁, held := [none] } : Threads).pool.push e)) [.take 0] =
      .ok ({ g := { g₂ with queue := [] }, held := [some e], put := [e], taken := [(0, e)] },
        [()]) := by
    have hpush : ({ g := g₁, held := [none] } : Threads).pool.push e =
        { queue := [e], held := [none], put := [e] } := by
      rw [Threads.pool, WorkPool.push, hqueue]
      rfl
    rw [hpush]
    rfl
  refine ⟨{ g := { g₂ with queue := [] }, held := [some e], put := [e], taken := [(0, e)] },
    [(), ()] ++ (us ++ ([(), (), ()] ++ [()])), e, ?_, rfl, rfl, rfl⟩
  rw [fillAndDelete, run_append _ haccept, run_append _ hfill, run_append _ hdel, htake]
  rfl

theorem deferred_disposal_large :
    ∃ s us e, run (threadStep readsDigits) (Threads.init 1) fillAndDelete = .ok (s, us) ∧
      (s.put = [e] ∧ s.taken = [(0, e)] ∧ s.held = [some e]) ∧
      s.disposed.Nodup ∧
      (∀ e ∈ s.waiting, s.g.entries e ≠ none ∧ e ∉ s.disposed) ∧
      s.put.Nodup ∧ s.put = s.taken.map Prod.snd ++ s.g.queue ∧
      (∀ w e, (w, e) ∈ s.taken → e ∈ s.finished ∨ s.held[w]? = some (some e)) ∧
      ∀ e, e ∈ s.g.queue ∨ some e ∈ s.held ∨ s.main = .untimed e ∨ e ∈ s.disposed →
        (∀ c, ¬ Stored s.g c e) ∧ ∀ item ∈ s.g.heap, item.ref ≠ some e := by
  rcases fillAndDelete_run with ⟨s, us, e, hrun, hjob⟩
  exact ⟨s, us, e, hrun, hjob, deferred_disposal readsDigits 1 fillAndDelete s us hrun⟩

/-! ## The steps and the functions they come from -/

section

variable {R : Runtime} {s : Threads}

/-- `untime` and `dispose` are `entry_del`. -/
theorem entryDel_acts {e : Nat} (hmain : s.main = .unlinked e) :
    (run (threadStep R) s [.untime, .dispose]).map (fun r => r.1.g) = entryDel s.g e := by
  rw [entryDel]
  cases httl : entrySetTtl s.g e (-1) 0 with
  | error f =>
      simp only [run, threadStep, hmain, httl, error_bind]
      rfl
  | ok g =>
      simp only [run, threadStep, hmain, httl, ok_bind]
      cases hx : g.entry e with
      | error f =>
          simp only [error_bind]
          rfl
      | ok x =>
          simp only [ok_bind]
          by_cases hlarge : kLargeContainerSize < (if x.type = .zset then hmSize x.zset.hmap else 0)
          · rw [if_pos hlarge, if_pos hlarge]
            rfl
          · rw [if_neg hlarge, if_neg hlarge]
            cases entryDelSync g e with
            | error f => rfl
            | ok g' => rfl

/-- A turn of the TTL loop that finds an entry due is its first step and
    `entry_del`. -/
theorem ttlLoop_unlink {g g₁ : GData} {now e : Nat} (hrun : ttlUnlink g now = .ok (g₁, some e))
    (fuel nworks : Nat) :
    ttlLoop now (fuel + 1) nworks g = entryDel g₁ e >>= fun g₂ =>
      if kMaxWorks ≤ nworks then .ok g₂ else ttlLoop now fuel (nworks + 1) g₂ := by
  unfold ttlUnlink at hrun
  rw [ttlLoop]
  -- every branch that returns no entry contradicts the run of `ttlUnlink`
  cases hheap : g.heap with
  | nil => simp only [hheap, Except.ok.injEq, Prod.mk.injEq, reduceCtorEq, and_false] at hrun
  | cons item rest =>
      simp only [hheap] at hrun ⊢
      by_cases hlate : item.val < now
      · rw [if_pos hlate] at hrun ⊢
        cases href : item.ref with
        | none =>
            simp only [href] at hrun
            rcases bind_eq_ok.mp hrun with ⟨_, _, hrun⟩
            simp only [Except.ok.injEq, Prod.mk.injEq, reduceCtorEq, and_false] at hrun
        | some ent =>
            simp only [href] at hrun ⊢
            rcases bind_eq_ok.mp hrun with ⟨x, hx, hrun⟩
            simp only [hx, ok_bind]
            cases hidx : g.heapIdx ent with
            | none =>
                simp only [hidx] at hrun
                rcases bind_eq_ok.mp hrun with ⟨_, _, hrun⟩
                simp only [Except.ok.injEq, Prod.mk.injEq, reduceCtorEq, and_false] at hrun
            | some pos =>
                cases hown : x.ownerConn with
                | none =>
                    simp only [hidx, hown] at hrun
                    rcases bind_eq_ok.mp hrun with ⟨_, _, hrun⟩
                    simp only [Except.ok.injEq, Prod.mk.injEq, reduceCtorEq, and_false] at hrun
                | some owner =>
                    simp only [hidx, hown] at hrun ⊢
                    rcases bind_eq_ok.mp hrun with ⟨conn, hconn, hrun⟩
                    rcases bind_eq_ok.mp hrun with ⟨⟨db, node⟩, hdel, hrun⟩
                    simp only [hconn, hdel, ok_bind]
                    by_cases hfound : node.map HNode.payload ≠ some ent
                    · rw [if_pos hfound] at hrun
                      cases hrun
                    · rw [if_neg hfound, Except.ok.injEq, Prod.mk.injEq, Option.some.injEq] at hrun
                      rw [if_neg hfound, hrun.1, hrun.2]
      · rw [if_neg hlate] at hrun
        simp only [Except.ok.injEq, Prod.mk.injEq, reduceCtorEq, and_false] at hrun

end

end RedisServer
