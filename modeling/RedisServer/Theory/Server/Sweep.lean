import RedisServer.Theory.Server.Connections

/-!
# The Sweep of Expired Keys

The TTL loop of `process_timers`, turn by turn. `Expiry` is one turn: the
entry at the root, which has the earliest deadline, leaves its table, the heap
and memory. `Swept` is a run of turns. A run ends when nothing is due any
more, or at the limit on the keys of one sweep.

## Main definitions

* `Expiry`, `Swept`: One turn, and any number of them.
* `dueCount`: How many deadlines have passed.
* `Keyspace.expire`: A keyspace without the keys that are due.

## Theorems

* `ttlLoop_turn`: What the loop does while the root is due.
* `ttlLoop_spec`: The loop is a run of turns.
* `Swept.moved`: A run keeps the invariant, and the keys it removes were due.
* `processTimers_spec`: A sweep that ends no connection and stays below its
  limit removes exactly the keys that are due.
-/

namespace RedisServer

open Lib HeapOrder

/-- One turn of the TTL loop at `now`: the entry `e` of connection `c` has the
    earliest deadline `d`, which has passed, and it leaves its table and is
    deleted. -/
structure Expiry (now : Nat) (g g' : GData) (c e d : Nat) : Prop where
  root : g.heap.head? = some ⟨d, some e⟩
  due : due g e = some d
  late : d < now
  first : ∀ s d', RedisServer.due g s = some d' → d ≤ d'
  item : ∃ item, item.val = d ∧ g.heap.Perm (item :: g'.heap)
  turn : ∃ conn db n x, g.conns c = some conn ∧ Holds g c x.key e x ∧
    hmDelete conn.db x.hcode (hnodeSame e) = .ok (db, some n) ∧ n.payload = e ∧ db.Wf ∧
    conn.db.nodes.Perm (n :: db.nodes) ∧ Deleted (g.setConn c { conn with db := db }) g' e

/-- A run of turns, with what each removed: connection, entry and deadline. -/
inductive Swept (now : Nat) : GData → List (Nat × Nat × Nat) → GData → Prop
  | refl (g : GData) : Swept now g [] g
  | step {g g₁ g' : GData} {c e d : Nat} {es : List (Nat × Nat × Nat)} :
      Expiry now g g₁ c e d → Swept now g₁ es g' → Swept now g ((c, e, d) :: es) g'

/-- How many deadlines have passed. -/
def dueCount (g : GData) (now : Nat) : Nat := g.heap.countP fun item => decide (item.val < now)

/-- The keyspace without the keys that are due. -/
def Keyspace.expire (K : Keyspace) (now : Nat) : Keyspace :=
  fun c k => (K c k).filter fun v => v.2.all fun d => decide (now ≤ d)

section

variable {R : Runtime} {g g' : GData} {K : Keyspace} {P : Nat → Prop} {now : Nat}

/-! ## One turn -/

theorem hnodeSame_answers (e hcode : Nat) (l : List (HNode Nat)) :
    Answers (hnodeSame e) (fun s => decide (s = e)) hcode l := fun _ _ _ => rfl

/-- The loop ends where nothing is due. -/
theorem ttlLoop_done (hnone : ∀ item ∈ g.heap.head?, now ≤ item.val) (fuel nworks : Nat) :
    ttlLoop now (fuel + 1) nworks g = .ok g := by
  rw [ttlLoop]
  cases hheap : g.heap with
  | nil => rfl
  | cons item rest =>
      rw [hheap] at hnone
      simp only [if_neg (Nat.not_lt.mpr (hnone item rfl))]

/-- At a root that is due, the loop finds the node of the root's entry in the
    table of the entry's connection, and deletes the entry. It fails at an
    entry whose connection is gone. -/
theorem ttlLoop_root (hinv : Inv R g P) {item : HeapItem Nat} {rest : List (HeapItem Nat)}
    (hheap : g.heap = item :: rest) (hlate : item.val < now) (fuel nworks : Nat) :
    ∃ e, item.ref = some e ∧ g.heapIdx e = some 0 ∧
      ((∃ c conn db n x, g.conns c = some conn ∧ Holds g c x.key e x ∧
        hmDelete conn.db x.hcode (hnodeSame e) = .ok (db, some n) ∧ n.payload = e ∧ db.Wf ∧
        conn.db.nodes.Perm (n :: db.nodes) ∧
        ttlLoop now (fuel + 1) nworks g = (do
          let g' ← entryDel (g.setConn c { conn with db := db }) e
          if kMaxWorks ≤ nworks then .ok g' else ttlLoop now fuel (nworks + 1) g')) ∨
      (P e ∧ ttlLoop now (fuel + 1) nworks g = .error .freedConn)) := by
  have hroot : g.heap[0]? = some item := by rw [hheap, List.getElem?_cons_zero]
  rcases hinv.heap.indexed.back 0 item hroot with ⟨e, href, hidx⟩
  refine ⟨e, href, hidx, ?_⟩
  rcases hinv.heap.owned e 0 hidx with ⟨c, hs⟩ | hP
  · rcases hinv.db.stored hs with ⟨x, hx, hown⟩
    rcases conns_of_stored hs with ⟨conn, hc⟩
    -- The lookup by identity finds the node the entry is embedded in.
    rcases hmDelete_spec (hinv.db.wf c conn hc) (hnodeSame_answers e x.hcode conn.db.nodes) with
      ⟨db, r, hdel, hwf, hp, hr⟩
    have hfound : ∃ n, r = some n ∧ n.payload = e := by
      cases r with
      | some n => exact ⟨n, rfl, of_decide_eq_true hr.2.2⟩
      | none =>
          rcases hs with ⟨n, hn, hne⟩
          rcases hinv.db.entry c n hn with ⟨y, hy, hcode, _⟩
          rw [hne, hx.entry, Option.some.injEq] at hy
          rw [nodesOf_eq hc] at hn
          exact absurd ⟨by rw [hy, hcode], decide_eq_true hne⟩ (hr n hn)
    rcases hfound with ⟨n, rfl, hne⟩
    refine Or.inl ⟨c, conn, db, n, x, hc, hx, hdel, hne, hwf, hp, ?_⟩
    simp only [ttlLoop, hheap, if_pos hlate, href, entry_eq hx.entry, ok_bind, hidx, hown,
      conn_eq hc, hdel, Option.map_some, hne, ne_eq, not_true_eq_false, if_false]
  · rcases hinv.heap.orphan e hP with ⟨x, c, hx, hown, hc, _⟩
    refine Or.inr ⟨hP, ?_⟩
    simp only [ttlLoop, hheap, if_pos hlate, href, entry_eq hx, ok_bind, hidx, hown, GData.conn, hc,
      error_bind]

/-- Deleting the entry at the root is a turn. -/
theorem expiry_of_root (hinv : Inv R g P) {item : HeapItem Nat} {rest : List (HeapItem Nat)}
    (hheap : g.heap = item :: rest) (hlate : item.val < now) {e c : Nat} {conn : Conn}
    {db : HMap Nat} {n : HNode Nat} {x : Entry} (href : item.ref = some e)
    (hidx : g.heapIdx e = some 0) (hc : g.conns c = some conn) (hx : Holds g c x.key e x)
    (hdel : hmDelete conn.db x.hcode (hnodeSame e) = .ok (db, some n)) (hne : n.payload = e)
    (hwf : db.Wf) (hp : conn.db.nodes.Perm (n :: db.nodes))
    (hd : Deleted (g.setConn c { conn with db := db }) g' e) : Expiry now g g' c e item.val := by
  have hroot : g.heap[0]? = some item := by rw [hheap, List.getElem?_cons_zero]
  refine ⟨?_, ?_, hlate, fun s d' hd' => hinv.heap.indexed.root_min hroot hd', ?_,
    ⟨conn, db, n, x, hc, hx, hdel, hne, hwf, hp, hd⟩⟩
  · rw [hheap, List.head?_cons, ← href]
  · rw [due, deadline, hidx, Option.bind_some, hroot]
    rfl
  · rcases hd.item 0 hidx with ⟨i, hi, hperm⟩
    have hi' : g.heap[0]? = some i := hi
    rw [hroot, Option.some.injEq] at hi'
    exact ⟨i, by rw [hi'], hperm⟩

/-- While the root is due, the loop takes one turn and goes on, or stops at
    its limit. It fails where freeing a sorted set does, and at an entry whose
    connection is gone. -/
theorem ttlLoop_turn (hinv : Inv R g P) {item : HeapItem Nat} {rest : List (HeapItem Nat)}
    (hheap : g.heap = item :: rest) (hlate : item.val < now) (fuel nworks : Nat) :
    (∃ g' c e, Expiry now g g' c e item.val ∧ ttlLoop now (fuel + 1) nworks g =
      if kMaxWorks ≤ nworks then .ok g' else ttlLoop now fuel (nworks + 1) g') ∨
    (∃ f x, ttlLoop now (fuel + 1) nworks g = .error f ∧ x.type = .zset ∧
      zsetClear x.zset = .error f ∧ ∃ c e, Holds g c x.key e x ∧ due g e = some item.val) ∨
    ((∃ e, P e) ∧ ttlLoop now (fuel + 1) nworks g = .error .freedConn) := by
  rcases ttlLoop_root hinv hheap hlate fuel nworks with
    ⟨e, href, hidx, ⟨c, conn, db, n, x, hc, hx, hdel, hne, hwf, hp, hrun⟩ | ⟨hP, hrun⟩⟩
  · rcases entryDel_spec (g := g.setConn c { conn with db := db }) hinv.heap.indexed hx.entry with
      ⟨g₁, hrun₁, hd⟩ | ⟨f, hrun₁, hz, hf⟩
    · rw [hrun₁, ok_bind] at hrun
      exact Or.inl ⟨g₁, c, e,
        expiry_of_root hinv hheap hlate href hidx hc hx hdel hne hwf hp hd, hrun⟩
    · rw [hrun₁, error_bind] at hrun
      have hroot : g.heap[0]? = some item := by rw [hheap, List.getElem?_cons_zero]
      refine Or.inr (Or.inl ⟨f, x, hrun, hz, hf, c, e, hx, ?_⟩)
      rw [due, deadline, hidx, Option.bind_some, hroot]
      rfl
  · exact Or.inr (Or.inr ⟨⟨e, hP⟩, hrun⟩)

namespace Expiry

variable {c e d : Nat}

/-- A turn removes one key, which was due. -/
theorem moved (h : Expiry now g g' c e d) (hinv : Inv R g P) (hK : Views g K) :
    ∃ x, K c x.key = some (x, some d) ∧ Holds g c x.key e x ∧
      Moved R g g' K (K.set c x.key none) P := by
  rcases h.turn with ⟨conn, db, n, x, hc, hx, _, rfl, hwf, hp, hdel⟩
  rcases remove_spec hinv.db hinv.heap hc hwf hp hx hdel with ⟨hsame, hdb, hheap, hviews⟩
  refine ⟨x, ?_, hx, hsame, ⟨hdb, hheap, hsame.loopInv hinv.loop⟩, hviews K hK⟩
  rw [hK.eq_some hx, h.due]

theorem length (h : Expiry now g g' c e d) : g'.heap.length + 1 = g.heap.length := by
  rcases h.item with ⟨item, _, hp⟩
  rw [hp.length_eq, List.length_cons]

theorem dueCount (h : Expiry now g g' c e d) :
    RedisServer.dueCount g' now + 1 = RedisServer.dueCount g now := by
  rcases h.item with ⟨item, hval, hp⟩
  have hlate := h.late
  rw [RedisServer.dueCount, RedisServer.dueCount, hp.countP_eq, List.countP_cons_of_pos]
  rw [decide_eq_true_eq, hval]
  exact hlate

end Expiry

/-! ## Runs of turns -/

/-- The loop is a run of turns. It ends when nothing is due, or at its limit.
    It fails where freeing a sorted set does, and at an entry whose connection
    is gone. -/
theorem ttlLoop_cases (now : Nat) : ∀ (fuel nworks : Nat) {g : GData}, Inv R g P →
    g.heap.length < fuel →
    (∃ g' es, ttlLoop now fuel nworks g = .ok g' ∧ Swept now g es g' ∧
      ((∀ s d, due g' s = some d → now ≤ d) ∨ kMaxWorks < es.length + nworks)) ∨
    (∃ f x, ttlLoop now fuel nworks g = .error f ∧ x.type = .zset ∧ zsetClear x.zset = .error f ∧
      ∃ g₁ c e es, Swept now g es g₁ ∧ Holds g₁ c x.key e x ∧
        ∃ d, due g₁ e = some d ∧ d < now) ∨
    ((∃ e, P e) ∧ ttlLoop now fuel nworks g = .error .freedConn) := by
  intro fuel
  induction fuel with
  | zero =>
      intro nworks g _ hfuel
      exact absurd hfuel (Nat.not_lt_zero _)
  | succ fuel ih =>
      intro nworks g hinv hfuel
      cases hheap : g.heap with
      | nil =>
          have hdone : ∀ item ∈ g.heap.head?, now ≤ item.val := by
            rw [hheap]
            rintro _ ⟨⟩
          refine Or.inl ⟨g, [], ttlLoop_done hdone _ _, Swept.refl g, Or.inl fun s d hd => ?_⟩
          have hmem := hinv.heap.indexed.deadline_eq_some.mp hd
          rw [hheap] at hmem
          exact absurd hmem List.not_mem_nil
      | cons item rest =>
          by_cases hlate : item.val < now
          · rcases ttlLoop_turn hinv hheap hlate fuel nworks with
              ⟨g₁, c, e, hexp, hrun⟩ | ⟨f, x, hrun, hz, hf, c, e, hx, hd⟩ | ⟨hP, hrun⟩
            · rw [hrun]
              by_cases hcap : kMaxWorks ≤ nworks
              · rw [if_pos hcap]
                refine Or.inl ⟨g₁, [(c, e, item.val)], rfl, Swept.step hexp (Swept.refl g₁),
                  Or.inr ?_⟩
                rw [List.length_singleton]
                omega
              · rw [if_neg hcap]
                rcases exists_views hinv.db with ⟨K, hK⟩
                rcases hexp.moved hinv hK with ⟨_, _, _, hm⟩
                have hlen := hexp.length
                rcases ih (nworks + 1) hm.inv (by omega) with
                  ⟨g', es, hrun', hsw, hend⟩ | ⟨f, x, hrun', hz, hf, g₂, c', e', es, hsw, hx⟩ | h
                · refine Or.inl ⟨g', _, hrun', Swept.step hexp hsw, hend.imp id fun h => ?_⟩
                  rw [List.length_cons]
                  omega
                · exact Or.inr (Or.inl ⟨f, x, hrun', hz, hf, g₂, c', e', _, Swept.step hexp hsw, hx⟩)
                · exact Or.inr (Or.inr h)
            · exact Or.inr (Or.inl
                ⟨f, x, hrun, hz, hf, g, c, e, [], Swept.refl g, hx, item.val, hd, hlate⟩)
            · exact Or.inr (Or.inr ⟨hP, hrun⟩)
          · have hroot : g.heap[0]? = some item := by rw [hheap, List.getElem?_cons_zero]
            have hdone : ∀ item ∈ g.heap.head?, now ≤ item.val := by
              rw [hheap]
              rintro _ ⟨⟩
              exact Nat.le_of_not_lt hlate
            refine Or.inl ⟨g, [], ttlLoop_done hdone _ _, Swept.refl g, Or.inl fun s d hd => ?_⟩
            exact (Nat.le_of_not_lt hlate).trans (hinv.heap.indexed.root_min hroot hd)

/-- Where no entry was left behind, it fails only where freeing a sorted set
    does. -/
theorem ttlLoop_spec (now : Nat) (fuel nworks : Nat) {g : GData} (hinv : Inv R g)
    (hfuel : g.heap.length < fuel) :
    (∃ g' es, ttlLoop now fuel nworks g = .ok g' ∧ Swept now g es g' ∧
      ((∀ s d, due g' s = some d → now ≤ d) ∨ kMaxWorks < es.length + nworks)) ∨
    ∃ f x, ttlLoop now fuel nworks g = .error f ∧ x.type = .zset ∧ zsetClear x.zset = .error f ∧
      ∃ g₁ c e es, Swept now g es g₁ ∧ Holds g₁ c x.key e x ∧
        ∃ d, due g₁ e = some d ∧ d < now := by
  rcases ttlLoop_cases now fuel nworks hinv hfuel with h | h | ⟨⟨_, hP⟩, _⟩
  · exact Or.inl h
  · exact Or.inr h
  · exact hP.elim

namespace Swept

variable {es : List (Nat × Nat × Nat)}

/-- A run of turns keeps the invariant. The keys it removed were due, and it
    changed no other. -/
theorem moved (h : Swept now g es g') (hinv : Inv R g P) (hK : Views g K) :
    ∃ K', Moved R g g' K K' P ∧ ∀ c k, K' c k = K c k ∨
      (K' c k = none ∧ ∃ x d, K c k = some (x, some d) ∧ d < now) := by
  induction h generalizing K with
  | refl g => exact ⟨K, Moved.refl hinv hK, fun _ _ => Or.inl rfl⟩
  | step hexp _ ih =>
      rename_i c₀ e d _ _
      rcases hexp.moved hinv hK with ⟨x, hx, _, hm⟩
      rcases ih hm.inv hm.views with ⟨K', hm', hrem⟩
      refine ⟨K', hm.trans hm', fun c k => ?_⟩
      by_cases hck : c = c₀ ∧ k = x.key
      · rw [hck.1, hck.2]
        have hnone : (K.set c₀ x.key none) c₀ x.key = none := Keyspace.set_same K c₀ x.key none
        rcases hrem c₀ x.key with h | ⟨h, _⟩
        · exact Or.inr ⟨by rw [h, hnone], x, d, hx, hexp.late⟩
        · exact Or.inr ⟨h, x, d, hx, hexp.late⟩
      · have := hrem c k
        rw [Keyspace.set_other K none hck] at this
        exact this

theorem dueCount (h : Swept now g es g') :
    RedisServer.dueCount g' now + es.length = RedisServer.dueCount g now := by
  induction h with
  | refl g => rfl
  | step hexp _ ih =>
      have := hexp.dueCount
      rw [List.length_cons]
      omega

end Swept

/-- Removing keys that are due until none is left removes exactly those. -/
theorem eq_expire {K' : Keyspace} (hrem : ∀ c k, K' c k = K c k ∨
      (K' c k = none ∧ ∃ x d, K c k = some (x, some d) ∧ d < now))
    (hend : ∀ c k x d, K' c k = some (x, some d) → now ≤ d) : K' = K.expire now := by
  funext c k
  unfold Keyspace.expire
  rcases hrem c k with h | ⟨h, x, d, hK, hlate⟩
  · rw [← h]
    cases hv : K' c k with
    | none => rfl
    | some v =>
        rcases v with ⟨x, d⟩
        cases d with
        | none => rfl
        | some d =>
            have hle := hend c k x d hv
            rw [Option.filter_some, if_pos]
            exact decide_eq_true hle
  · rw [h, hK, Option.filter_some, if_neg]
    rw [Option.all_some, decide_eq_true_eq]
    omega

/-- Nothing is due in a state whose heap has no item that is. -/
theorem Views.not_due (hK : Views g K) (hend : ∀ s d, due g s = some d → now ≤ d) (c : Nat)
    (k : Bytes) (x : Entry) (d : Nat) (h : K c k = some (x, some d)) : now ≤ d := by
  rcases (hK c k x (some d)).mp h with ⟨e, _, he⟩
  exact hend e d he

/-- The part of the sweep after the idle loop. -/
theorem ttlLoop_expire (hinv : Inv R g) (hK : Views g K) (hcap : dueCount g now ≤ kMaxWorks) :
    (∃ g' es, ttlLoop now (g.heap.length + 1) 0 g = .ok g' ∧ Swept now g es g' ∧
      Moved R g g' K (K.expire now)) ∨
    ∃ f x, ttlLoop now (g.heap.length + 1) 0 g = .error f ∧ x.type = .zset ∧
      zsetClear x.zset = .error f ∧ ∃ c k d, K c k = some (x, some d) ∧ d < now := by
  rcases ttlLoop_spec now (g.heap.length + 1) 0 hinv (Nat.lt_succ_self _) with
    ⟨g', es, hrun, hsw, hend⟩ | ⟨f, x, hrun, hz, hf, g₁, c, e, es, hsw, hx, d, hd, hlate⟩
  · rcases hsw.moved hinv hK with ⟨K', hm, hrem⟩
    have hcount := hsw.dueCount
    have hnone : ∀ s d, due g' s = some d → now ≤ d := by
      rcases hend with h | h
      · exact h
      · omega
    have hK' := eq_expire hrem (hm.views.not_due hnone)
    rw [hK'] at hm
    exact Or.inl ⟨g', es, hrun, hsw, hm⟩
  · rcases hsw.moved hinv hK with ⟨K', hm, hrem⟩
    refine Or.inr ⟨f, x, hrun, hz, hf, c, x.key, d, ?_, hlate⟩
    have hv := hm.views.eq_some hx
    rw [hd] at hv
    rcases hrem c x.key with h | ⟨h, _⟩
    · rw [← h]
      exact hv
    · rw [hv] at h
      cases h

/-- No connection is idle at a time. -/
def NoneIdle (g : GData) (now : Nat) : Prop := ∀ c conn, g.conns c = some conn → ¬ Idle now conn

/-- A sweep that ends no connection and stays below its limit removes exactly
    the keys that are due. It fails only where freeing the sorted set of one of
    them does. -/
theorem processTimers_spec (hinv : Inv R g) (hK : Views g K) (hact : NoneIdle g now)
    (hcap : dueCount g now ≤ kMaxWorks) :
    (∃ g' es, processTimers g now = .ok g' ∧ Swept now g es g' ∧ Moved R g g' K (K.expire now)) ∨
    ∃ f x, processTimers g now = .error f ∧ x.type = .zset ∧
      zsetClear x.zset = .error f ∧ ∃ c k d, K c k = some (x, some d) ∧ d < now := by
  simp only [processTimers, idleLoop_none hinv.loop hact, ok_bind]
  exact ttlLoop_expire hinv hK hcap

end

end RedisServer
