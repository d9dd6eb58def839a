import RedisServer.Theory.Server.Ownership
import RedisServer.Theory.Server.Strings

/-!
# The Deadlines of Keys

Positions in the heap are stored in the entries and written through pointers
by the sifts. `HeapBijection` says that they are right in both directions, for
entries that exist at all, stored or not. It follows that the deadline `pttl`
reads is the one last set on that very key, whatever the other keys and the
other connections did to the heap in between.

## Main definitions

* `HeapBijection`: The heap and the positions in the entries agree.
* `lastSet`: The deadline last set on each key along a run.

## Theorems

* `lastSet_step`: One event.
* `heap_bijection_of_clean_run`: Every run.
-/

namespace RedisServer

open Lib HeapOrder

/-- The heap is ordered by `val`; every item refers to the `heap_idx` of an
    existing entry, which holds the item's position; items refer to distinct
    entries; and an entry whose `heap_idx` is a position is the one the item
    there refers to. -/
structure HeapBijection (g : GData) : Prop where
  ordered : ∀ i item, g.heap[i]? = some item → 0 < i →
    ∃ up, g.heap[heapParent i]? = some up ∧ up.val ≤ item.val
  back : ∀ i item, g.heap[i]? = some item →
    ∃ e x, item.ref = some e ∧ g.entries e = some x ∧ g.heapIdx e = some i
  distinct : ∀ (i j : Nat) (item item' : HeapItem Nat), g.heap[i]? = some item → g.heap[j]? = some item' →
    item.ref = item'.ref → i = j
  forth : ∀ e x i, g.entries e = some x → g.heapIdx e = some i →
    ∃ item, g.heap[i]? = some item ∧ item.ref = some e

/-- The deadline last set on each key along a run, when `D` are the ones at its
    start. A `pexpire` sets it, and a key that is absent after a step has
    none. -/
def lastSet (R : Runtime) :
    GData → List Event → (Nat → Bytes → Option Nat) → Nat → Bytes → Option Nat
  | _, [], D => D
  | g, e :: es, D =>
    match serverStep R g e with
    | .error _ => D
    | .ok (g', _) =>
      lastSet R g' es fun c k => if k ∈ keysOf g' c then setsDue e c k (D c k) else none

section

variable {R : Runtime} {g g' : GData}

theorem Inv.heapBijection (h : Inv R g) : HeapBijection g where
  ordered := by
    intro i item hi hpos
    have hlt : i < g.heap.length := (List.getElem?_eq_some_iff.mp hi).1
    have hpar : heapParent i = parent i := by
      unfold heapParent parent
      omega
    have hplt : parent i < g.heap.length := (parent_lt hpos).trans hlt
    have hle := h.heap.indexed.ordered i hpos hlt
    have hup : g.heap[parent i]? = some g.heap[parent i] := List.getElem?_eq_getElem hplt
    rw [keyAt_eq hi, keyAt_eq hup] at hle
    exact ⟨g.heap[parent i], by rw [hpar, hup], hle⟩
  back := by
    intro i item hi
    rcases h.heap.indexed.back i item hi with ⟨e, href, hidx⟩
    rcases h.heap.stored hidx with ⟨c, hs⟩
    rcases h.db.stored hs with ⟨x, hx, _⟩
    exact ⟨e, x, href, hx.entry, hidx⟩
  distinct := by
    intro i j item item' hi hj href
    rcases h.heap.indexed.back i item hi with ⟨e, he, hidx⟩
    rcases h.heap.indexed.back j item' hj with ⟨e', he', hidx'⟩
    rw [← href, he, Option.some.injEq] at he'
    rw [← he', hidx, Option.some.injEq] at hidx'
    exact hidx'
  forth := fun e _ i _ hidx => h.heap.indexed.forth e i hidx

/-- A step whose deadlines follow turns the deadlines last set before it into
    the ones last set after it. -/
theorem lastSet_step {K K' : Keyspace} {e : Event} (hdb : DbInv R g') (hK' : Views g' K')
    (hd : DuesFollow e K K') :
    (fun c k => if k ∈ keysOf g' c then setsDue e c k (dueIn K c k) else none) = dueIn K' := by
  funext c k
  cases hv : K' c k with
  | none =>
      rw [if_neg, dueIn, hv, Option.bind_none]
      rw [mem_keysOf_iff hdb hK', hv]
      exact Bool.false_ne_true
  | some v =>
      rw [if_pos, dueIn_eq hv]
      · exact (hd c k v.1 v.2 hv).symm
      · rw [mem_keysOf_iff hdb hK', hv]
        rfl

/-- The deadlines last set along a run are the deadlines of the keyspace it
    ends in. -/
theorem lastSet_run {K : Keyspace} {es : List Event} {rs : List Bytes} (hinv : Inv R g)
    (hK : Views g K) (hclean : Guarded (serverStep R) DestroysClean g es)
    (hrun : run (serverStep R) g es = .ok (g', rs)) :
    ∃ K', Inv R g' ∧ Views g' K' ∧ lastSet R g es (dueIn K) = dueIn K' := by
  induction es generalizing g K rs with
  | nil =>
      simp only [run, Except.ok.injEq, Prod.mk.injEq] at hrun
      rw [← hrun.1]
      exact ⟨K, hinv, hK, rfl⟩
  | cons e es ih =>
      rcases run_cons_eq_ok hrun with ⟨g₁, r, rs', hstep, hrest, -⟩
      rcases serverStep_moved hinv hK hclean.1 hstep with ⟨K₁, hinv₁, hK₁, hd⟩
      rcases ih hinv₁ hK₁ (hclean.2 g₁ r hstep) hrest with ⟨K', hinv', hK', hlast⟩
      refine ⟨K', hinv', hK', ?_⟩
      simp only [lastSet, hstep]
      rw [lastSet_step hinv₁.db hK₁ hd]
      exact hlast

end

/-- The reply of `pttl`, given whether the key is present and the deadline last
    set on it. -/
def lastTtl (present : Prop) [Decidable present] (last : Option Nat) (now : Nat) : Bytes :=
  if present then
    match last with
    | none => outInt [] (-1)
    | some d => outInt [] (max 0 ((d : Int) - now))
  else outInt [] (-2)

/-- In every state that is reached without destroying a connection that has a
    key with a deadline, the heap and the entries agree in both directions,
    and `pttl` replies from the deadline last set on its key. -/
theorem heap_bijection_of_clean_run (R : Runtime) (es : List Event) (g : GData) (rs : List Bytes)
    (hclean : Guarded (serverStep R) DestroysClean {} es)
    (hrun : run (serverStep R) {} es = .ok (g, rs)) :
    HeapBijection g ∧ ∀ c k now, Live g c →
      ∃ g', serverStep R g (.request c [ascii "pttl", k] now) =
        .ok (g', lastTtl (k ∈ keysOf g c) (lastSet R {} es (fun _ _ => none) c k) now) := by
  rcases lastSet_run (inv_init R) views_init hclean hrun with ⟨K, hinv, hK, hlast⟩
  refine ⟨hinv.heapBijection, fun c k now hlive => ?_⟩
  rcases hlive with ⟨conn, hc⟩
  rcases doTtl_spec hinv hK hc [ascii "pttl", k] now [] with ⟨g', httl, _⟩
  refine ⟨g', ?_⟩
  have hrequest : doRequest R g c [ascii "pttl", k] now [] =
      doTtl R g c [ascii "pttl", k] now [] := doRequest_argv R g c (.pttl k) now []
  have hdue : lastSet R {} es (fun _ _ => none) c k = dueIn K c k := congrFun (congrFun hlast c) k
  simp only [serverStep, conn_eq hc, ok_bind, hrequest, httl, hdue, lastTtl,
    mem_keysOf_iff hinv.db hK, Except.ok.injEq, Prod.mk.injEq, true_and]
  show ttlReply [] now (K c k) = _
  rcases hv : K c k with _ | ⟨x, d⟩
  · rfl
  · rw [dueIn_eq hv]
    cases d with
    | none => rfl
    | some d => exact ttlReply_eq [] now x d

/-- Two clients, each with a key and a deadline, one of which is changed. -/
def twoDeadlines : List Event :=
  [.accept 5 0, .accept 6 0, .request 0 [ascii "set", ascii "k", ascii "v"] 0,
    .request 1 [ascii "set", ascii "k", ascii "w"] 0,
    .request 0 [ascii "pexpire", ascii "k", ascii "100"] 0,
    .request 1 [ascii "pexpire", ascii "k", ascii "50"] 0,
    .request 0 [ascii "pexpire", ascii "k", ascii "90"] 10]

/-- A sweep then removes the key whose deadline has passed, and no connection
    is idle yet. -/
def twoDeadlinesSwept : List Event :=
  twoDeadlines ++ [.sweep 60, .request 1 [ascii "keys"] 60]

theorem heap_bijection_of_clean_run_two :
    ∃ g rs, run (serverStep noDoubles) {} twoDeadlinesSwept = .ok (g, rs) ∧ g.heap.length = 1 ∧
      HeapBijection g ∧ ∀ c k now, Live g c →
        ∃ g', serverStep noDoubles g (.request c [ascii "pttl", k] now) =
          .ok (g', lastTtl (k ∈ keysOf g c)
            (lastSet noDoubles {} twoDeadlinesSwept (fun _ _ => none) c k) now) := by
  have hok : endsIn (serverStep noDoubles) (fun g _ => g.heap.length == 1) {}
      twoDeadlinesSwept = true := by decide +kernel
  rcases exists_of_endsIn hok with ⟨g, rs, hrun, hlen⟩
  rw [beq_iff_eq] at hlen
  have hset : Guarded (serverStep noDoubles) DestroysClean {} twoDeadlines := by
    refine guarded_of_forall (fun e he s => ?_) _
    simp only [twoDeadlines, List.mem_cons, List.not_mem_nil, or_false] at he
    rcases he with rfl | rfl | rfl | rfl | rfl | rfl | rfl <;> exact True.intro
  refine ⟨g, rs, hrun, hlen,
    heap_bijection_of_clean_run noDoubles twoDeadlinesSwept g rs ?_ hrun⟩
  refine guarded_append hset fun t rs' ht => ⟨?_, fun _ _ _ => ⟨True.intro, fun _ _ _ => True.intro⟩⟩
  -- the two connections are the only ones, and neither is idle at 60
  have hyoung : endsIn (serverStep noDoubles) (fun t _ => t.nextConn == 2 &&
      (t.conns 0).all (fun conn => decide (60 ≤ (conn.lastActiveMs + kIdleTimeoutMs) % 2 ^ 64)) &&
      (t.conns 1).all (fun conn => decide (60 ≤ (conn.lastActiveMs + kIdleTimeoutMs) % 2 ^ 64)))
      {} twoDeadlines = true := by
    decide +kernel
  rcases exists_of_endsIn hyoung with ⟨t', _, ht', htest⟩
  rw [ht, Except.ok.injEq, Prod.mk.injEq] at ht'
  rw [← ht'.1, Bool.and_eq_true, Bool.and_eq_true, beq_iff_eq, Option.all_eq_true,
    Option.all_eq_true] at htest
  rcases htest with ⟨⟨hnext, h0⟩, h1⟩
  intro c conn hc hidle
  have hlt : c < 2 := by
    by_contra hge
    have hfresh := (inv_of_clean_run hset ht).loop.fresh c (by omega)
    rw [hc] at hfresh
    cases hfresh
  have hold : 60 ≤ (conn.lastActiveMs + kIdleTimeoutMs) % 2 ^ 64 := by
    rcases Nat.lt_succ_iff_lt_or_eq.mp hlt with hlt | rfl
    · rw [Nat.lt_one_iff.mp hlt] at hc
      exact of_decide_eq_true (h0 conn hc)
    · exact of_decide_eq_true (h1 conn hc)
  rw [Idle] at hidle
  omega

end RedisServer
