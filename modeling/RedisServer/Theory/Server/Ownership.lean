import RedisServer.Theory.Server.Step

/-!
# Who Owns the Deadlines

The heap is one for the whole server, and keyspaces die with their
connection. `conn_destroy` closes the descriptor, unlinks the idle node and
frees the connection, but it does not take the connection's entries out of the
heap. From then on the heap has an item whose entry points to a freed owner,
and the first sweep after the deadline follows that pointer.

As long as no connection is destroyed that has a key with a deadline, every
item of the heap belongs to a key of a live connection, and a sweep neither
reads a freed connection nor fails its assertion.

## Main definitions

* `HeapOwned`: Every item belongs to a key of a live connection.

## Theorems

* `heap_owned_of_clean_run`: Runs that destroy connections cleanly.
* `heap_orphan`: A run that does not.
-/

namespace RedisServer

open Lib

/-- Every item of the heap refers to the `heap_idx` of an entry that is stored
    in the table of a connection that has not been destroyed. -/
def HeapOwned (g : GData) : Prop :=
  ∀ item ∈ g.heap, ∃ e c conn, item.ref = some e ∧ g.conns c = some conn ∧
    ∃ n ∈ conn.db.nodes, n.payload = e

theorem HeapInv.heapOwned {g : GData} (h : HeapInv g) : HeapOwned g := by
  intro item hmem
  rcases List.getElem?_of_mem hmem with ⟨i, hi⟩
  rcases h.indexed.back i item hi with ⟨e, href, hidx⟩
  rcases h.stored hidx with ⟨c, hs⟩
  rcases conns_of_stored hs with ⟨conn, hc⟩
  rcases hs with ⟨n, hn, hne⟩
  rw [nodesOf_eq hc] at hn
  exact ⟨e, c, conn, href, hc, n, hn, hne⟩

/-! ## Freeing a sorted set touches no connection -/

/-- Disposing of a tree fails only on its own nodes. -/
theorem treeDispose_fault : ∀ (fuel : Nat) (z : ZSet) (a : Option Nat) (f : Fault),
    treeDispose fuel z a = .error f → f ≠ .freedConn ∧ f ≠ .assertFailed := by
  intro fuel
  induction fuel with
  | zero =>
      intro z a f h
      cases a with
      | none => simp only [treeDispose, reduceCtorEq] at h
      | some a =>
          simp only [treeDispose, Except.error.injEq] at h
          rw [← h]
          decide
  | succ fuel ih =>
      intro z a f h
      cases a with
      | none => simp only [treeDispose, reduceCtorEq] at h
      | some a =>
          have hload : ∀ (σ : Store) (f : Fault), σ.load (some a) = .error f →
              f ≠ .freedConn ∧ f ≠ .assertFailed := by
            intro σ f h
            unfold Store.load at h
            cases hcell : σ.cell a with
            | none =>
                simp only [hcell, Except.error.injEq] at h
                rw [← h]
                decide
            | some n => simp only [hcell, reduceCtorEq] at h
          unfold treeDispose at h
          cases h1 : z.store.load (some a) with
          | error f1 =>
              simp only [h1, error_bind, Except.error.injEq] at h
              rw [← h]
              exact hload _ _ h1
          | ok n =>
              simp only [h1, ok_bind] at h
              cases h2 : treeDispose fuel z n.left with
              | error f2 =>
                  simp only [h2, error_bind, Except.error.injEq] at h
                  rw [← h]
                  exact ih _ _ _ h2
              | ok z2 =>
                  simp only [h2, ok_bind] at h
                  cases h3 : z2.store.load (some a) with
                  | error f3 =>
                      simp only [h3, error_bind, Except.error.injEq] at h
                      rw [← h]
                      exact hload _ _ h3
                  | ok n3 =>
                      simp only [h3, ok_bind] at h
                      cases h4 : treeDispose fuel z2 n3.right with
                      | error f4 =>
                          simp only [h4, error_bind, Except.error.injEq] at h
                          rw [← h]
                          exact ih _ _ _ h4
                      | ok z4 =>
                          simp only [h4, ok_bind, znodeDel, Store.free] at h
                          cases hcell : z4.store.cell a with
                          | none =>
                              simp only [hcell, error_bind, Except.error.injEq] at h
                              rw [← h]
                              decide
                          | some m => simp only [hcell, ok_bind, reduceCtorEq] at h

theorem zsetClear_fault {z : ZSet} {f : Fault} (h : zsetClear z = .error f) :
    f ≠ .freedConn ∧ f ≠ .assertFailed := by
  simp only [zsetClear] at h
  cases hd : treeDispose (z.store.next + 1) { z with hmap := hmClear z.hmap } z.root with
  | error f' =>
      simp only [hd, error_bind, Except.error.injEq] at h
      rw [← h]
      exact treeDispose_fault _ _ _ _ hd
  | ok z' => simp only [hd, ok_bind, reduceCtorEq] at h

/-! ## Runs -/

section

variable {R : Runtime} {g : GData}

/-- A sweep that destroys connections cleanly reads no freed connection, and
    its assertion holds. -/
theorem sweep_safe (hinv : Inv R g) {now : Nat} (hclean : IdleNoDeadlines g now) :
    serverStep R g (.sweep now) ≠ .error .freedConn ∧
      serverStep R g (.sweep now) ≠ .error .assertFailed := by
  rcases hinv.loop.ring with ⟨l, hring, hmem⟩
  rcases idleLoop_spec now (g.nextConn + 1) hinv hring hmem
    (Nat.lt_succ_of_le (length_le_nextConn hinv.loop hring hmem)) hclean with
    ⟨g₁, hidle, hinv₁, _, _⟩
  simp only [serverStep, processTimers, hidle, ok_bind]
  rcases ttlLoop_spec now (g₁.heap.length + 1) 0 hinv₁ (Nat.lt_succ_self _) with
    ⟨g₂, _, hrun, _, _⟩ | ⟨f, x, hrun, _, hf, _⟩
  · simp only [hrun, ok_bind, ne_eq, reduceCtorEq, not_false_eq_true, and_self]
  · have hne := zsetClear_fault hf
    simp only [hrun, error_bind, ne_eq, Except.error.injEq]
    exact hne

/-- The invariant holds in every state a run reaches whose steps destroy
    connections cleanly. -/
theorem inv_of_clean_run {es : List Event} {rs : List Bytes}
    (hclean : Guarded (serverStep R) DestroysClean {} es)
    (hrun : run (serverStep R) {} es = .ok (g, rs)) : Inv R g := by
  refine run_invariant (I := Inv R) ?_ (inv_init R) hclean hrun
  intro g e g' r hinv hG hstep
  rcases exists_views hinv.db with ⟨K, hK⟩
  rcases serverStep_moved hinv hK hG hstep with ⟨_, hinv', _, _⟩
  exact hinv'

end

/-- In every run whose steps destroy no connection that has a key with a
    deadline, every state reached has only items of live connections in its
    heap, and a sweep from there under the same condition neither reads a
    freed connection nor fails its assertion. -/
theorem heap_owned_of_clean_run (R : Runtime) (es : List Event) (g : GData) (rs : List Bytes)
    (hclean : Guarded (serverStep R) DestroysClean {} es)
    (hrun : run (serverStep R) {} es = .ok (g, rs)) :
    HeapOwned g ∧ ∀ now, DestroysClean g (.sweep now) →
      serverStep R g (.sweep now) ≠ .error .freedConn ∧
      serverStep R g (.sweep now) ≠ .error .assertFailed := by
  have hinv := inv_of_clean_run hclean hrun
  exact ⟨hinv.heap.heapOwned, fun now hnow => sweep_safe hinv hnow⟩

/-- A client sets a key and gives it a deadline. -/
def setAndExpire : List Event :=
  [.accept 5 0, .request 0 [ascii "set", ascii "k", ascii "v"] 0,
    .request 0 [ascii "pexpire", ascii "k", ascii "100"] 0]

theorem heap_owned_of_clean_run_set :
    ∃ g rs, run (serverStep noDoubles) {} setAndExpire = .ok (g, rs) ∧ HeapOwned g ∧
      ∀ now, DestroysClean g (.sweep now) →
        serverStep noDoubles g (.sweep now) ≠ .error .freedConn ∧
        serverStep noDoubles g (.sweep now) ≠ .error .assertFailed := by
  have hok : ∃ g rs, run (serverStep noDoubles) {} setAndExpire = .ok (g, rs) :=
    exists_of_isOk (by decide +kernel)
  rcases hok with ⟨g, rs, hrun⟩
  refine ⟨g, rs, hrun, heap_owned_of_clean_run noDoubles setAndExpire g rs ?_ hrun⟩
  refine guarded_of_forall (fun e he s => ?_) _
  simp only [setAndExpire, List.mem_cons, List.not_mem_nil, or_false] at he
  rcases he with rfl | rfl | rfl <;> exact True.intro

/-- The client then leaves, and its key's item stays in the heap. The sweep
    after the deadline follows the owner pointer to the freed connection. -/
theorem heap_orphan :
    ∃ g rs, run (serverStep noDoubles) {} (setAndExpire ++ [.close 0]) = .ok (g, rs) ∧
      ¬ HeapOwned g ∧ serverStep noDoubles g (.sweep 200) = .error .freedConn := by
  have hok : ∃ g rs, run (serverStep noDoubles) {} (setAndExpire ++ [.close 0]) = .ok (g, rs) :=
    exists_of_isOk (by decide +kernel)
  rcases hok with ⟨g, rs, hrun⟩
  have hconns : ∀ c, (match run (serverStep noDoubles) {} (setAndExpire ++ [.close 0]) with
      | .ok (g, _) => g.conns c
      | .error _ => none) = none := by
    intro c
    cases c with
    | zero => rfl
    | succ c => rfl
  have hheap : (match run (serverStep noDoubles) {} (setAndExpire ++ [.close 0]) with
      | .ok (g, _) => g.heap
      | .error _ => []) = [{ val := 100, ref := some 0 }] := by decide +kernel
  have hsweep : (run (serverStep noDoubles) {} (setAndExpire ++ [.close 0]) >>= fun x =>
      serverStep noDoubles x.1 (.sweep 200)) = .error .freedConn := rfl
  rw [hrun] at hconns hheap hsweep
  simp only [] at hconns hheap
  refine ⟨g, rs, hrun, fun howned => ?_, hsweep⟩
  rcases howned { val := 100, ref := some 0 } (by rw [hheap]; exact List.mem_cons_self) with
    ⟨e, c, conn, _, hc, _⟩
  rw [hconns c] at hc
  cases hc

end RedisServer
