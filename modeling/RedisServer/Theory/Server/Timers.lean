import RedisServer.Theory.Server.Ownership
import RedisServer.Theory.Server.Pages
import RedisServer.Theory.Server.Sets
import Mathlib.Data.List.Dedup

/-!
# What a Sweep Removes

`process_timers` in a state with idle connections and any number of keys that
are due. Both of its loops stop at the first element that is not due. For the
idle list that is right because the list is in the order of the last activity,
for the heap because its root is the least item, after every deletion again.

The sweep frees the value of every key it removes. A sorted set whose last
member was deleted still has its root, which was freed, and `zset_clear`
follows it. So the sweep does what it is to do exactly when no key it comes to
has such a set.

## Main definitions

* `IdleOrdered`, `DeadlinesSurvive`: The condition of a sweep.
* `survivors`: The connections that a sweep is to leave.
* `Removes`, `SweptDue`: What it is to remove.
* `yields`: The entries it comes to, in the order of the heap.

## Theorems

* `idleLoop_exact`: The idle loop leaves exactly the survivors.
* `ttlLoop_ok_iff`: When the TTL loop returns.
* `Swept.removes`: What a run of its turns removes.
* `sweep_due_iff`: When a sweep does what it is to do.
* `sweep_stale`: A sweep that does not.
-/

namespace RedisServer

open Lib HeapOrder BinaryTree ZSet

/-- The idle list is in the order of the last activity. No connection was
    active in the last minute that the clock can show. -/
structure IdleOrdered (g : GData) (l : List Nat) : Prop where
  ring : IdleRing g.idleList l
  live : ∀ c, c ∈ l ↔ ∃ conn, g.conns c = some conn
  ordered : l.Pairwise fun a b => ∀ x y, g.conns a = some x → g.conns b = some y →
    x.lastActiveMs ≤ y.lastActiveMs
  clock : ∀ c conn, g.conns c = some conn → conn.lastActiveMs + kIdleTimeoutMs < 2 ^ 64

/-- The connections that a sweep at `now` is to leave. -/
def survivors (g : GData) (now c : Nat) : Option Conn :=
  (g.conns c).filter fun conn => decide (now ≤ conn.lastActiveMs + kIdleTimeoutMs)

/-- Every entry with a deadline is stored by one of them. -/
def DeadlinesSurvive (g : GData) (now : Nat) : Prop :=
  ∀ e i, g.heapIdx e = some i → ∃ c conn, survivors g now c = some conn ∧ Stored g c e

/-- Their keyspace. -/
def Keyspace.surviving (K : Keyspace) (g : GData) (now : Nat) : Keyspace :=
  fun c k => if (survivors g now c).isSome then K c k else none

/-- The keys with a deadline before `now`. -/
structure AllDue (K : Keyspace) (now : Nat) (ds : List (Nat × Bytes)) : Prop where
  nodup : ds.Nodup
  mem : ∀ c k, (c, k) ∈ ds ↔ ∃ x d, K c k = some (x, some d) ∧ d < now

/-- The keys `ks` are removed. All were due, and none had a later deadline
    than a key that stays. -/
structure Removes (K K' : Keyspace) (now : Nat) (ks : List (Nat × Bytes)) : Prop where
  nodup : ks.Nodup
  gone : ∀ c k, (c, k) ∈ ks → K' c k = none
  due : ∀ c k, (c, k) ∈ ks → ∃ x d, K c k = some (x, some d) ∧ d < now ∧
    ∀ c' k' x' d', K' c' k' = some (x', some d') → d ≤ d'
  kept : ∀ c k, (c, k) ∉ ks → K' c k = K c k

/-- What a sweep at `now` is to do where the keys `ds` are due: end the
    connections that do not survive, and remove all of `ds`, or at least
    `k_max_works` of them if there are more. Nothing else changes, and the
    state is again one with an indexed heap. -/
structure SweptDue (R : Runtime) (g g' : GData) (K : Keyspace) (now : Nat)
    (ds : List (Nat × Bytes)) : Prop where
  inv : Inv R g'
  conns : ∀ c, (g'.conns c).map Conn.io = (survivors g now c).map Conn.io
  keys : ∃ K' ks, Views g' K' ∧ Removes (K.surviving g now) K' now ks ∧
    if ds.length ≤ kMaxWorks then ∀ p ∈ ds, p ∈ ks else kMaxWorks ≤ ks.length

/-- The first entries, at most `n`, that a heap yields whose deadlines have
    passed. -/
def yields (now : Nat) : Nat → List (HeapItem Nat) → Refs Nat → List Nat
  | 0, _, _ => []
  | n + 1, heap, refs =>
    match heap with
    | [] => []
    | item :: _ =>
      match item.ref with
      | none => []
      | some e =>
        if item.val < now then
          match heapDelete heap refs 0 with
          | .error _ => [e]
          | .ok (heap', refs') => e :: yields now n heap' (Function.update refs' e none)
        else []

/-- The entry's value is a set whose root was freed. -/
def HoldsStale (g : GData) (e : Nat) : Prop :=
  ∃ x, g.entries e = some x ∧ x.type = .zset ∧ x.zset.Stale

section

variable {R : Runtime} {Q : Bytes → Prop} {g g' : GData} {K : Keyspace} {now : Nat} {l : List Nat}

/-! ## The idle loop -/

theorem IdleOrdered.idle_iff (h : IdleOrdered g l) {c : Nat} {conn : Conn}
    (hc : g.conns c = some conn) : Idle now conn ↔ conn.lastActiveMs + kIdleTimeoutMs < now := by
  unfold Idle
  rw [Nat.mod_eq_of_lt (h.clock c conn hc)]

theorem survivors_eq_some {c : Nat} {conn : Conn} : survivors g now c = some conn ↔
    g.conns c = some conn ∧ now ≤ conn.lastActiveMs + kIdleTimeoutMs := by
  rw [survivors, Option.filter_eq_some_iff, decide_eq_true_eq]

-- The rest of the list is still in order when the first connection is gone.
theorem IdleOrdered.tail {c : Nat} (h : IdleOrdered g (c :: l)) (hd : Destroyed g g' c)
    (hring : IdleRing g'.idleList l) (hlive : ∀ c', c' ∈ l ↔ ∃ conn, g'.conns c' = some conn) :
    IdleOrdered g' l := by
  have hold : ∀ c' conn, g'.conns c' = some conn → g.conns c' = some conn := by
    intro c' conn hc'
    by_cases hcc : c' = c
    · rw [hcc, hd.conns_self] at hc'
      cases hc'
    · rw [hd.conns_other hcc] at hc'
      exact hc'
  refine ⟨hring, hlive, ?_, fun c' conn hc' => h.clock c' conn (hold c' conn hc')⟩
  refine (List.pairwise_cons.mp h.ordered).2.imp ?_
  intro a b hab x y hx hy
  exact hab x y (hold a x hx) (hold b y hy)

/-- The idle loop leaves exactly the survivors. -/
theorem idleLoop_exact (now : Nat) : ∀ (fuel : Nat) {g : GData} {l : List Nat}, LoopInv g →
    IdleOrdered g l → l.length < fuel →
    ∃ g', idleLoop now fuel g = .ok g' ∧ IdleEnds now g g' ∧ ∀ c, g'.conns c = survivors g now c := by
  intro fuel
  induction fuel with
  | zero =>
      intro g l _ _ hfuel
      exact absurd hfuel (Nat.not_lt_zero _)
  | succ fuel ih =>
      intro g l hloop h hfuel
      -- Where all are active, all survive.
      have hstay : (∀ c conn, g.conns c = some conn → now ≤ conn.lastActiveMs + kIdleTimeoutMs) →
          ∀ c, g.conns c = survivors g now c := by
        intro hact c
        cases hc : g.conns c with
        | none => rw [survivors, hc, Option.filter_none]
        | some conn => exact (survivors_eq_some.mpr ⟨hc, hact c conn hc⟩).symm
      cases l with
      | nil =>
          refine ⟨g, idleLoop_nil h.ring now fuel, IdleEnds.refl g, hstay fun c conn hc => ?_⟩
          exact absurd ((h.live c).mpr ⟨conn, hc⟩) List.not_mem_nil
      | cons c l =>
          rcases (h.live c).mp List.mem_cons_self with ⟨conn, hc⟩
          rcases idleLoop_turn hloop h.ring h.live hc now fuel with
            ⟨hact, hrun⟩ | ⟨hidle, g₁, hd, hrun, hloop₁, hring₁, hlive₁⟩
          · rw [h.idle_iff hc, Nat.not_lt] at hact
            refine ⟨g, hrun, IdleEnds.refl g, hstay fun c' conn' hc' => ?_⟩
            -- Who comes later on the list was active later.
            rcases List.mem_cons.mp ((h.live c').mpr ⟨conn', hc'⟩) with rfl | hmem
            · rw [hc, Option.some.injEq] at hc'
              rw [← hc']
              exact hact
            · have hle := (List.pairwise_cons.mp h.ordered).1 c' hmem conn conn' hc hc'
              omega
          · rw [List.length_cons] at hfuel
            rcases ih hloop₁ (h.tail hd hring₁ hlive₁) (by omega) with ⟨g', hrun', hends, hconns⟩
            refine ⟨g', hrun.trans hrun', IdleEnds.step hc hidle hd hends, fun c' => ?_⟩
            rw [hconns c', survivors, survivors]
            by_cases hcc : c' = c
            · rw [h.idle_iff hc] at hidle
              rw [hcc, hd.conns_self, hc, Option.filter_none, Option.filter_some, if_neg]
              rw [decide_eq_true_eq]
              omega
            · rw [hd.conns_other hcc]

/-- The idle loop does not touch memory. -/
theorem IdleEnds.memory (h : IdleEnds now g g') :
    g'.entries = g.entries ∧ g'.heap = g.heap ∧ g'.heapIdx = g.heapIdx := by
  induction h with
  | refl g => exact ⟨rfl, rfl, rfl⟩
  | step _ _ hd _ ih =>
      rcases ih with ⟨hentries, hheap, hidx⟩
      exact ⟨hentries.trans hd.entries, hheap.trans hd.heap, hidx.trans hd.heapIdx⟩

/-- What the survivors store. -/
theorem stored_survivors (hconns : ∀ c, g'.conns c = survivors g now c) (c e : Nat) :
    Stored g' c e ↔ (∃ conn, survivors g now c = some conn) ∧ Stored g c e := by
  cases hs : survivors g now c with
  | none =>
    refine iff_of_false (fun hst => ?_) fun hst => nomatch hst.1
    rcases conns_of_stored hst with ⟨conn, hc⟩
    rw [hconns c, hs] at hc
    cases hc
  | some conn =>
    have hsame : nodesOf g' c = nodesOf g c := by
      rw [nodesOf, nodesOf, hconns c, hs, (survivors_eq_some.mp hs).1]
    rw [Stored, Stored, hsame]
    exact (and_iff_right ⟨conn, rfl⟩).symm

/-- The keyspace of the survivors. -/
theorem IdleEnds.surviving (h : IdleEnds now g g') (hconns : ∀ c, g'.conns c = survivors g now c)
    (hK : Views g K) : Views g' (K.surviving g now) := by
  intro c k x d
  rcases h.memory with ⟨hentries, hheap, hidx⟩
  -- entries and deadlines are not touched, only whole keyspaces go
  have hdue : ∀ e, due g' e = due g e := by
    intro e
    rw [due, due, hheap, hidx]
  cases hs : survivors g now c with
  | none =>
      rw [Keyspace.surviving, hs, Option.isSome_none, if_neg (by decide)]
      constructor
      · intro hn
        cases hn
      · rintro ⟨e, he, _⟩
        rcases ((stored_survivors hconns c e).mp he.stored).1 with ⟨conn, hsurv⟩
        rw [hs] at hsurv
        cases hsurv
  | some conn =>
      rw [Keyspace.surviving, hs, Option.isSome_some, if_pos rfl, hK c k x d]
      constructor
      · rintro ⟨e, he, hd⟩
        have hst := (stored_survivors hconns c e).mpr ⟨⟨conn, hs⟩, he.stored⟩
        exact ⟨e, ⟨hst, by rw [hentries]; exact he.entry, he.key⟩, (hdue e).trans hd⟩
      · rintro ⟨e, he, hd⟩
        have hst := ((stored_survivors hconns c e).mp he.stored).2
        exact ⟨e, ⟨hst, by rw [← hentries]; exact he.entry, he.key⟩, (hdue e).symm.trans hd⟩

/-- No connection that ends has a key with a deadline. -/
theorem DeadlinesSurvive.idleNoDeadlines (h : DeadlinesSurvive g now) (hinv : Inv R g)
    (ho : IdleOrdered g l) : IdleNoDeadlines g now := by
  intro c conn hc hidle e he
  cases hi : g.heapIdx e with
  | none => rfl
  | some i =>
      rcases h e i hi with ⟨c', conn', hs, he'⟩
      rcases survivors_eq_some.mp hs with ⟨hc', hle⟩
      rcases hinv.db.stored he with ⟨x, hx, _⟩
      rcases hinv.db.stored he' with ⟨x', hx', _⟩
      have hcc := (holds_unique hinv.db hx hx').1
      rw [← hcc, hc, Option.some.injEq] at hc'
      rw [ho.idle_iff hc, hc'] at hidle
      omega

/-! ## Freeing a value -/

theorem zsetClear_stale {z : ZSet} (h : z.Stale) : ∃ f, zsetClear z = .error f := by
  rcases h.root with ⟨a, hroot, hcell, _, _⟩
  refine ⟨.freedNode, ?_⟩
  simp only [zsetClear, hroot, treeDispose, Store.load, hcell, error_bind]

theorem zsetClear_kept {z : ZSet} (h : z.Kept R) (hns : ¬ z.Stale) : ∃ z', zsetClear z = .ok z' := by
  rcases h with ⟨t, hz⟩ | hz
  · rcases zsetClear_spec hz.treeOf with ⟨z', hrun, _⟩
    exact ⟨z', hrun⟩
  · exact absurd hz hns

/-- What the deletion of an entry leaves of the heap. -/
theorem entryDel_heap {e pos : Nat} (hrun : entryDel g e = .ok g') (hi : g.heapIdx e = some pos) :
    ∃ refs, heapDelete g.heap g.heapIdx pos = .ok (g'.heap, refs) ∧
      g'.heapIdx = Function.update refs e none := by
  rcases bind_eq_ok.mp hrun with ⟨g₁, httl, hrun⟩
  rcases bind_eq_ok.mp httl with ⟨_, _, httl⟩
  simp only [if_pos (show (-1 : Int) < 0 by decide), hi] at httl
  rcases bind_eq_ok.mp httl with ⟨⟨heap, refs⟩, hdel, httl⟩
  rw [Except.ok.injEq] at httl
  rcases bind_eq_ok.mp hrun with ⟨x, _, hrun⟩
  by_cases hlarge : kLargeContainerSize < (if x.type = .zset then hmSize x.zset.hmap else 0)
  · rw [if_pos hlarge, Except.ok.injEq] at hrun
    rw [← hrun, ← httl]
    exact ⟨refs, hdel, rfl⟩
  · rw [if_neg hlarge] at hrun
    rcases bind_eq_ok.mp hrun with ⟨_, _, hrun⟩
    rcases bind_eq_ok.mp hrun with ⟨_, _, hrun⟩
    rw [Except.ok.injEq] at hrun
    rw [← hrun, ← httl]
    exact ⟨refs, hdel, rfl⟩

-- A stale set is small, so it is freed at once.
theorem entryDel_stale (hidx : Indexed g.heap g.heapIdx) {e : Nat} (h : HoldsStale g e) :
    ∃ f, entryDel g e = .error f := by
  rcases h with ⟨x, hx, hz, hstale⟩
  rcases entrySetTtl_spec hidx hx (-1) 0 with ⟨heap, refs, hrun, _⟩
  rcases zsetClear_stale hstale with ⟨f, hf⟩
  have hsize : hmSize x.zset.hmap = 0 := by
    rw [hmSize_eq hstale.hmap, hstale.empty, List.length_nil]
  refine ⟨f, ?_⟩
  simp only [entryDel, hrun, ok_bind, GData.entry, hx, hz, if_pos, hsize, entryDelSync, hf,
    error_bind]
  rw [if_neg (by decide)]

theorem entryDel_kept (hidx : Indexed g.heap g.heapIdx) (hstores : StoresOk R Q g) {e : Nat}
    {x : Entry} (hx : g.entries e = some x) (hns : ¬ HoldsStale g e) :
    ∃ g', entryDel g e = .ok g' ∧ Deleted g g' e := by
  rcases entryDel_spec hidx hx with h | ⟨f, _, hz, hf⟩
  · exact h
  · rcases zsetClear_kept (hstores.entries e x hx).1 fun hs => hns ⟨x, hx, hz, hs⟩ with ⟨z', hok⟩
    rw [hok] at hf
    cases hf

/-- Deleting an entry whose value is sound makes no other stale. -/
theorem Deleted.holdsStale {e : Nat} (h : Deleted g g' e) (hns : ¬ HoldsStale g e) (s : Nat) :
    HoldsStale g' s ↔ HoldsStale g s := by
  by_cases hse : s = e
  · rw [hse]
    refine iff_of_false (fun hs => ?_) hns
    rcases hs with ⟨x, hx, hz, hstale⟩
    rcases h.gone with hgone | hgone
    · rw [hgone] at hx
      cases hx
    · rw [hgone] at hx
      exact hns ⟨x, hx, hz, hstale⟩
  · rw [HoldsStale, HoldsStale, h.entries s hse]

/-! ## The TTL loop -/

-- A due root is the first entry of the list.
theorem yields_due {item : HeapItem Nat} {rest : List (HeapItem Nat)} (hheap : g.heap = item :: rest)
    (hlate : item.val < now) {e : Nat} (href : item.ref = some e) (n : Nat) :
    ∃ es, yields now (n + 1) g.heap g.heapIdx = e :: es ∧
      ∀ heap refs, heapDelete g.heap g.heapIdx 0 = .ok (heap, refs) →
        es = yields now n heap (Function.update refs e none) := by
  rw [hheap]
  simp only [yields, href, if_pos hlate]
  cases hdel : heapDelete (item :: rest) g.heapIdx 0 with
  | error f =>
      refine ⟨[], rfl, fun heap refs h => ?_⟩
      cases h
  | ok r =>
      refine ⟨_, rfl, fun heap refs h => ?_⟩
      rw [Except.ok.injEq] at h
      rw [h]

-- The root has the earliest deadline, so nothing is due when it is not.
theorem yields_early {item : HeapItem Nat} {rest : List (HeapItem Nat)} {refs : Refs Nat}
    (hearly : ¬ item.val < now) (n : Nat) : yields now n (item :: rest) refs = [] := by
  cases n with
  | zero => rfl
  | succ n =>
      unfold yields
      cases href : item.ref with
      | none => simp only [href]
      | some e => simp only [href, if_neg hearly]

/-- An entry that a table holds was not left behind. -/
theorem Inv.not_left {P : Nat → Prop} (hinv : Inv R g P) {c e : Nat} (hs : Stored g c e) : ¬ P e := by
  intro hP
  rcases hinv.heap.orphan e hP with ⟨x, c', hx, hown, hdead, _⟩
  rcases hinv.db.stored hs with ⟨y, hy, hown'⟩
  rcases conns_of_stored hs with ⟨conn, hc⟩
  have hxy := hx.symm.trans hy.entry
  rw [Option.some.injEq] at hxy
  rw [hxy, hown', Option.some.injEq] at hown
  rw [hown, hdead] at hc
  cases hc

/-- The loop returns exactly when it comes to no entry of a connection that is
    gone and to no stale set. -/
theorem ttlLoop_ok_iff {P : Nat → Prop} (now : Nat) : ∀ (fuel nworks : Nat) {g : GData},
    Inv R g P → StoresOk R Q g → g.heap.length < fuel → nworks ≤ kMaxWorks →
    ((∃ g', ttlLoop now fuel nworks g = .ok g') ↔
      ∀ e ∈ yields now (kMaxWorks + 1 - nworks) g.heap g.heapIdx, ¬ P e ∧ ¬ HoldsStale g e) := by
  intro fuel
  induction fuel with
  | zero =>
      intro nworks g _ _ hfuel
      exact absurd hfuel (Nat.not_lt_zero _)
  | succ fuel ih =>
      intro nworks g hinv hstores hfuel hworks
      obtain ⟨n, hn⟩ : ∃ n, kMaxWorks + 1 - nworks = n + 1 := ⟨kMaxWorks - nworks, by omega⟩
      rw [hn]
      cases hheap : g.heap with
      | nil =>
          have hdone : ∀ item ∈ g.heap.head?, now ≤ item.val := by
            rw [hheap]
            rintro _ ⟨⟩
          refine iff_of_true ⟨g, ttlLoop_done hdone _ _⟩ fun e he => ?_
          exact absurd he List.not_mem_nil
      | cons item rest =>
          rw [← hheap]
          by_cases hlate : item.val < now
          · rcases ttlLoop_root hinv hheap hlate fuel nworks with ⟨e, href, hidx,
              ⟨c, conn, db, node, x, hc, hx, hdel, hne, hwf, hp, hrun⟩ | ⟨hP, hrun⟩⟩
            · rcases yields_due hheap hlate href n with ⟨es, hes, hrest⟩
              rw [hes, hrun]
              have hleft := hinv.not_left hx.stored
              have hstores₀ : StoresOk R Q (g.setConn c { conn with db := db }) :=
                hstores.congr ⟨rfl, rfl⟩
              -- deleting the entry at the root faults exactly when it is stale
              by_cases hstale : HoldsStale g e
              · rcases entryDel_stale (g := g.setConn c { conn with db := db })
                  hinv.heap.indexed hstale with ⟨f, hf⟩
                rw [hf, error_bind]
                refine iff_of_false (fun h => ?_) fun h => (h e List.mem_cons_self).2 hstale
                rcases h with ⟨g', h⟩
                cases h
              · rcases entryDel_kept (g := g.setConn c { conn with db := db })
                  hinv.heap.indexed hstores₀ hx.entry hstale with ⟨g₁, hrun₁, hd⟩
                rcases entryDel_heap hrun₁ hidx with ⟨refs, hdel₁, hrefs⟩
                rw [hrun₁, ok_bind, hrest _ _ hdel₁, ← hrefs]
                by_cases hcap : kMaxWorks ≤ nworks
                · have hzero : n = 0 := by omega
                  rw [if_pos hcap, hzero]
                  refine iff_of_true ⟨g₁, rfl⟩ fun s hs => ?_
                  rw [List.mem_singleton.mp hs]
                  exact ⟨hleft, hstale⟩
                · rw [if_neg hcap]
                  -- the limit is not reached, so the loop goes round once more
                  have hexp := expiry_of_root hinv hheap hlate href hidx hc hx hdel hne hwf hp hd
                  rcases exists_views hinv.db with ⟨K, hK⟩
                  rcases hexp.moved hinv hK with ⟨_, _, _, hm⟩
                  have hlen := hexp.length
                  have hnext := ih (nworks + 1) hm.inv (hstores₀.entryDel hrun₁) (by omega)
                    (by omega)
                  rw [show kMaxWorks + 1 - (nworks + 1) = n by omega] at hnext
                  -- What was stale is stale after the turn.
                  have hsame : ∀ s, HoldsStale g₁ s ↔ HoldsStale g s := hd.holdsStale hstale
                  simp only [hsame] at hnext
                  rw [hnext, List.forall_mem_cons]
                  exact (and_iff_right ⟨hleft, hstale⟩).symm
            · -- the connection of the root's entry is gone
              rcases yields_due hheap hlate href n with ⟨es, hes, _⟩
              rw [hes, hrun]
              refine iff_of_false (fun h => ?_) fun h => (h e List.mem_cons_self).1 hP
              rcases h with ⟨g', h⟩
              cases h
          · have hdone : ∀ item ∈ g.heap.head?, now ≤ item.val := by
              rw [hheap]
              rintro _ ⟨⟩
              exact Nat.le_of_not_lt hlate
            refine iff_of_true ⟨g, ttlLoop_done hdone _ _⟩ ?_
            rw [hheap, yields_early hlate]
            exact fun s hs => absurd hs List.not_mem_nil

/-! ## What is removed -/

-- What another key's removal leaves was there before.
theorem set_none_eq_some {c c' : Nat} {k k' : Bytes} {v : Entry × Option Nat}
    (h : K.set c k none c' k' = some v) : K c' k' = some v ∧ ¬ (c' = c ∧ k' = k) := by
  by_cases hck : c' = c ∧ k' = k
  · rw [hck.1, hck.2, Keyspace.set_same] at h
    cases h
  · rw [Keyspace.set_other K none hck] at h
    exact ⟨h, hck⟩

/-- A run of turns removes one key in each turn, always one with the earliest
    deadline of those that are left. -/
theorem Swept.removes {es : List (Nat × Nat × Nat)} (h : Swept now g es g') (hinv : Inv R g)
    (hK : Views g K) :
    ∃ K' ks, Moved R g g' K K' ∧ Removes K K' now ks ∧ ks.length = es.length := by
  induction h generalizing K with
  | refl g =>
      refine ⟨K, [], Moved.refl hinv hK, ⟨List.nodup_nil, fun c k h => ?_, fun c k h => ?_,
        fun _ _ _ => rfl⟩, rfl⟩
      · exact absurd h List.not_mem_nil
      · exact absurd h List.not_mem_nil
  | step hexp _ ih =>
      rename_i g₀ g₁ g₂ c₀ e d _ _
      rcases hexp.moved hinv hK with ⟨x, hx, _, hm⟩
      rcases ih hm.inv hm.views with ⟨K', ks, hm', hr, hlen⟩
      have hnone : K.set c₀ x.key none c₀ x.key = none := Keyspace.set_same K c₀ x.key none
      -- the key of the first entry is not swept again
      have hnew : (c₀, x.key) ∉ ks := by
        intro hmem
        rcases hr.due c₀ x.key hmem with ⟨y, d', hy, _⟩
        rw [hnone] at hy
        cases hy
      have hgone : K' c₀ x.key = none := (hr.kept c₀ x.key hnew).trans hnone
      -- A key that is left has a deadline that the root's is not later than.
      have hfirst : ∀ c' k' x' d', K' c' k' = some (x', some d') → d ≤ d' := by
        intro c' k' x' d' hk'
        have hkept : (c', k') ∉ ks := by
          intro hmem
          rw [hr.gone c' k' hmem] at hk'
          cases hk'
        rw [hr.kept c' k' hkept] at hk'
        rcases (hK c' k' x' (some d')).mp (set_none_eq_some hk').1 with ⟨s, _, hs⟩
        exact hexp.first s d' hs
      refine ⟨K', (c₀, x.key) :: ks, hm.trans hm', ⟨List.nodup_cons.mpr ⟨hnew, hr.nodup⟩,
        fun c k hmem => ?_, fun c k hmem => ?_, fun c k hmem => ?_⟩, ?_⟩
      · rcases List.mem_cons.mp hmem with heq | hmem
        · rw [Prod.mk.injEq] at heq
          rw [heq.1, heq.2]
          exact hgone
        · exact hr.gone c k hmem
      · rcases List.mem_cons.mp hmem with heq | hmem
        · rw [Prod.mk.injEq] at heq
          rw [heq.1, heq.2]
          exact ⟨x, d, hx, hexp.late, hfirst⟩
        · rcases hr.due c k hmem with ⟨y, d', hy, hlate, hmin⟩
          exact ⟨y, d', (set_none_eq_some hy).1, hlate, hmin⟩
      · rw [List.mem_cons, not_or, Prod.mk.injEq] at hmem
        rw [hr.kept c k hmem.2, Keyspace.set_other K none hmem.1]
      · rw [List.length_cons, List.length_cons, hlen]

/-- The connection and the key of an item's entry. -/
def ownerKey (g : GData) (item : HeapItem Nat) : Nat × Bytes :=
  match item.ref.bind g.entries with
  | some x => (x.ownerConn.getD 0, x.key)
  | none => (0, [])

/-- The keys that are due are finitely many: each has an item in the heap. -/
theorem exists_allDue (hinv : Inv R g) (hK : Views g K) (now : Nat) : ∃ ds, AllDue K now ds := by
  classical
  refine ⟨((g.heap.map (ownerKey g)).dedup).filter fun p =>
    decide (∃ x d, K p.1 p.2 = some (x, some d) ∧ d < now), (List.nodup_dedup _).filter _,
    fun c k => ?_⟩
  rw [List.mem_filter, List.mem_dedup, List.mem_map, decide_eq_true_eq]
  refine ⟨fun h => h.2, fun h => ⟨?_, h⟩⟩
  rcases h with ⟨x, d, hk, _⟩
  rcases (hK c k x (some d)).mp hk with ⟨e, he, hd⟩
  refine ⟨⟨d, some e⟩, hinv.heap.indexed.deadline_eq_some.mp hd, ?_⟩
  have hown : x.ownerConn = some c := by
    rcases hinv.db.stored he.stored with ⟨y, hy, hown⟩
    have hxy := he.entry.symm.trans hy.entry
    rw [Option.some.injEq] at hxy
    rw [hxy]
    exact hown
  simp only [ownerKey, Option.bind_some, he.entry, hown, Option.getD_some, he.key]

/-- A key with a deadline belongs to a connection that survives. -/
theorem DeadlinesSurvive.surviving (h : DeadlinesSurvive g now) (hinv : Inv R g) (hK : Views g K)
    {c : Nat} {k : Bytes} {x : Entry} {d : Nat} (hk : K c k = some (x, some d)) :
    K.surviving g now c k = some (x, some d) := by
  rcases (hK c k x (some d)).mp hk with ⟨e, he, hd⟩
  cases hi : g.heapIdx e with
  | none =>
      rw [due, deadline, hi, Option.bind_none] at hd
      cases hd
  | some i =>
      rcases h e i hi with ⟨c', conn, hs, he'⟩
      rcases hinv.db.stored he' with ⟨y, hy, _⟩
      rw [(holds_unique hinv.db he hy).1, Keyspace.surviving, hs, Option.isSome_some, if_pos rfl,
        ← (holds_unique hinv.db he hy).1]
      exact hk

/-- All keys that are due are removed, or many. -/
theorem Removes.count {K' K₁ : Keyspace} {ks ds : List (Nat × Bytes)} (hr : Removes K₁ K' now ks)
    (hds : AllDue K now ds) (hup : ∀ c k x d, K c k = some (x, some d) → K₁ c k = some (x, some d))
    (hdown : ∀ c k v, K₁ c k = some v → K c k = some v)
    (hend : (∀ c k x d, K' c k = some (x, some d) → now ≤ d) ∨ kMaxWorks < ks.length) :
    if ds.length ≤ kMaxWorks then ∀ p ∈ ds, p ∈ ks else kMaxWorks ≤ ks.length := by
  -- everything swept was due
  have hsub : ks ⊆ ds := by
    intro p hp
    rcases hr.due p.1 p.2 hp with ⟨x, d, hx, hlate, _⟩
    exact (hds.mem p.1 p.2).mpr ⟨x, d, hdown p.1 p.2 _ hx, hlate⟩
  have hle := (hr.nodup.subperm hsub).length_le
  rcases hend with hnone | hmany
  -- and nothing that was due is left
  · have hall : ∀ p ∈ ds, p ∈ ks := by
      intro p hp
      by_contra hout
      rcases (hds.mem p.1 p.2).mp hp with ⟨x, d, hx, hlate⟩
      have hstill := hr.kept p.1 p.2 hout
      rw [hup p.1 p.2 x d hx] at hstill
      have hge := hnone p.1 p.2 x d hstill
      omega
    have hge := (hds.nodup.subperm hall).length_le
    split
    · exact hall
    · omega
  · rw [if_neg (by omega)]
    omega

-- With one connection, which was last active at the start, any list is in
-- order.
theorem only_connection (hloop : LoopInv g) (hone : (g.nextConn, (g.conns 0).map Conn.lastActiveMs) =
    (1, some 0)) {c : Nat} {conn : Conn} (hc : g.conns c = some conn) : conn.lastActiveMs = 0 := by
  rw [Prod.mk.injEq] at hone
  have hlt := hloop.lt_nextConn hc
  have hzero : c = 0 := by omega
  rw [hzero] at hc
  rw [hc, Option.map_some, Option.some.injEq] at hone
  exact hone.2

theorem ordered_of_one (hinv : Inv R g) (hone : (g.nextConn, (g.conns 0).map Conn.lastActiveMs) =
    (1, some 0)) {m : Nat} (hnow : m ≤ kIdleTimeoutMs) :
    (∃ l, IdleOrdered g l) ∧ DeadlinesSurvive g m := by
  have hact : ∀ c conn, g.conns c = some conn → conn.lastActiveMs = 0 :=
    fun c conn hc => only_connection hinv.loop hone hc
  constructor
  · rcases hinv.loop.ring with ⟨l, hring, hlive⟩
    refine ⟨l, hring, hlive, List.pairwise_of_forall fun a b x y hx hy => ?_, fun c conn hc => ?_⟩
    · rw [hact a x hx, hact b y hy]
    · rw [hact c conn hc]
      decide
  · intro e i hi
    rcases hinv.heap.stored hi with ⟨c, hs⟩
    rcases conns_of_stored hs with ⟨conn, hc⟩
    refine ⟨c, conn, survivors_eq_some.mpr ⟨hc, ?_⟩, hs⟩
    rw [hact c conn hc]
    omega

-- A run in which no connection ends, from the start.
theorem state_of_requests {es : List Event} {rs : List Bytes}
    (hes : ∀ e ∈ es, ∀ s, DestroysClean s e) (hrun : run (serverStep R) {} es = .ok (g, rs)) :
    Inv R g ∧ StoresOk R (fun _ => True) g :=
  ⟨inv_of_clean_run (guarded_of_forall (fun e he s => hes e he s) _) hrun,
    stores_of_run True.intro (fun _ _ _ _ _ => True.intro) hrun⟩

end

/-! ## The sweep -/

/-- A sweep does what it is to do exactly when none of the entries it comes to
    holds a set whose root was freed. -/
theorem sweep_due_iff (R : Runtime) {Q : Bytes → Prop} {g : GData} {l : List Nat} (now : Nat)
    (hinv : Inv R g) (hstores : StoresOk R Q g) (hidle : IdleOrdered g l)
    (hsurv : DeadlinesSurvive g now) :
    ∃ K ds, Views g K ∧ AllDue K now ds ∧
      ((∃ g', processTimers g now = .ok g' ∧ SweptDue R g g' K now ds) ↔
        ∀ e ∈ yields now (kMaxWorks + 1) g.heap g.heapIdx, ¬ HoldsStale g e) := by
  rcases exists_views hinv.db with ⟨K, hK⟩
  rcases exists_allDue hinv hK now with ⟨ds, hds⟩
  refine ⟨K, ds, hK, hds, ?_⟩
  have hfuel := Nat.lt_succ_of_le (length_le_nextConn hinv.loop hidle.ring hidle.live)
  rcases idleLoop_exact now (g.nextConn + 1) hinv.loop hidle hfuel with ⟨g₁, hrun₁, hends, hconns⟩
  have hinv₁ := hends.inv hinv (hsurv.idleNoDeadlines hinv hidle)
  have hK₁ := hends.surviving hconns hK
  rcases hends.memory with ⟨hentries, hheap, hidx⟩
  have hok := ttlLoop_ok_iff now (g₁.heap.length + 1) 0 hinv₁ (hstores.congr (idleLoop_stores hrun₁))
    (Nat.lt_succ_self _) (Nat.zero_le _)
  -- the idle connections go first, and leave the entries as they are
  have hstale : ∀ e, HoldsStale g₁ e ↔ HoldsStale g e := by
    intro e
    rw [HoldsStale, HoldsStale, hentries]
  simp only [hstale, Nat.sub_zero, not_false_eq_true, true_and] at hok
  rw [hheap, hidx] at hok
  rw [← hok]
  simp only [processTimers, hrun₁, ok_bind, hheap]
  refine ⟨fun h => ⟨h.choose, h.choose_spec.1⟩, fun h => ?_⟩
  rcases h with ⟨g', hrun⟩
  refine ⟨g', hrun, ?_⟩
  -- the run did not fault, so it is a sweep, and the sweep is counted
  rcases ttlLoop_spec now (g.heap.length + 1) 0 hinv₁ (by rw [hheap]; exact Nat.lt_succ_self _) with
    ⟨g₂, es, hrun₂, hsw, hend⟩ | ⟨f, _, hrun₂, _⟩
  · rw [hrun, Except.ok.injEq] at hrun₂
    rw [← hrun₂] at hsw hend
    rcases hsw.removes hinv₁ hK₁ with ⟨K', ks, hm, hr, hlen⟩
    refine ⟨hm.inv, fun c => by rw [hm.same.io, hconns], K', ks, hm.views, hr, ?_⟩
    refine hr.count hds (fun c k x d hk => hsurv.surviving hinv hK hk) (fun c k v hv => ?_) ?_
    · rw [Keyspace.surviving] at hv
      split at hv
      · exact hv
      · cases hv
    · rw [hlen]
      exact hend.imp (fun h => hm.views.not_due h) id
  · rw [hrun] at hrun₂
    cases hrun₂

theorem sweep_due_iff_one :
    ∃ g rs, run (serverStep noDoubles) {} setAndExpire = .ok (g, rs) ∧
      ∃ K ds, Views g K ∧ AllDue K 200 ds ∧
        ((∃ g', processTimers g 200 = .ok g' ∧ SweptDue noDoubles g g' K 200 ds) ↔
          ∀ e ∈ yields 200 (kMaxWorks + 1) g.heap g.heapIdx, ¬ HoldsStale g e) := by
  have hone : (run (serverStep noDoubles) {} setAndExpire).map
      (fun x => (x.1.nextConn, (x.1.conns 0).map Conn.lastActiveMs)) = .ok (1, some 0) := by
    decide +kernel
  have hok : ∃ g rs, run (serverStep noDoubles) {} setAndExpire = .ok (g, rs) :=
    exists_of_isOk (by decide +kernel)
  rcases hok with ⟨g, rs, hrun⟩
  rw [hrun, Except.map, Except.ok.injEq] at hone
  have hclean : ∀ e ∈ setAndExpire, ∀ s, DestroysClean s e := by
    intro e he s
    simp only [setAndExpire, List.mem_cons, List.not_mem_nil, or_false] at he
    rcases he with rfl | rfl | rfl <;> exact True.intro
  rcases state_of_requests hclean hrun with ⟨hinv, hstores⟩
  rcases ordered_of_one hinv hone (m := 200) (by decide) with ⟨⟨l, hidle⟩, hsurv⟩
  exact ⟨g, rs, hrun, sweep_due_iff noDoubles 200 hinv hstores hidle hsurv⟩

/-- A client makes a set, deletes its only member and gives the key a
    deadline. -/
def emptiedSet : List Event :=
  [.accept 5 0, .request 0 [ascii "zadd", ascii "z", ascii "0", ascii "a"] 0,
    .request 0 [ascii "zrem", ascii "z", ascii "a"] 0,
    .request 0 [ascii "pexpire", ascii "z", ascii "100"] 0]

/-- The sweep after the deadline follows the set's freed root. -/
theorem sweep_stale :
    ∃ g rs l, run (serverStep readsZero) {} emptiedSet = .ok (g, rs) ∧ Inv readsZero g ∧
      StoresOk readsZero (fun _ => True) g ∧ IdleOrdered g l ∧ DeadlinesSurvive g 200 ∧
      processTimers g 200 = .error .freedNode := by
  have hone : (run (serverStep readsZero) {} emptiedSet).map
      (fun x => (x.1.nextConn, (x.1.conns 0).map Conn.lastActiveMs)) = .ok (1, some 0) := by
    decide +kernel
  have hsweep : (run (serverStep readsZero) {} emptiedSet >>= fun x => processTimers x.1 200) =
      .error .freedNode := rfl
  have hok : ∃ g rs, run (serverStep readsZero) {} emptiedSet = .ok (g, rs) :=
    exists_of_isOk (by decide +kernel)
  rcases hok with ⟨g, rs, hrun⟩
  rw [hrun, Except.map, Except.ok.injEq] at hone
  rw [hrun, ok_bind] at hsweep
  have hclean : ∀ e ∈ emptiedSet, ∀ s, DestroysClean s e := by
    intro e he s
    simp only [emptiedSet, List.mem_cons, List.not_mem_nil, or_false] at he
    rcases he with rfl | rfl | rfl | rfl <;> exact True.intro
  rcases state_of_requests hclean hrun with ⟨hinv, hstores⟩
  rcases ordered_of_one hinv hone (m := 200) (by decide) with ⟨⟨l, hidle⟩, hsurv⟩
  exact ⟨g, rs, l, hrun, hinv, hstores, hidle, hsurv, hsweep⟩

end RedisServer
