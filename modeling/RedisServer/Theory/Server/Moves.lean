import RedisServer.Theory.Server.State

/-!
# Four Moves

Every command and the sweep change a keyspace at one key, in one of four ways:
they create an entry, assign to its record, set its deadline, or remove it.
Each move keeps the invariant and updates the keyspace at that key.

## Main definitions

* `Keyspace.set`: A keyspace changed at one key.
* `Created`, `Unlinked`: What a creation and a removal leave of the tables.
* `dueAfter`: The deadline `entry_set_ttl` sets.

## Theorems

* `Views.set`: When a state stands for a keyspace changed at one key.
* `create_spec`: A new entry in a table.
* `setEntry_spec`: A new value for an entry.
* `setTtl_spec`: A new deadline for an entry.
* `remove_spec`: An entry out of its table, out of the heap, and freed or
  queued.
-/

namespace RedisServer

open Lib

/-- The keyspace with one key changed. -/
def Keyspace.set (K : Keyspace) (c : Nat) (k : Bytes) (v : Option (Entry × Option Nat)) : Keyspace :=
  fun c' k' => if c' = c ∧ k' = k then v else K c' k'

theorem Keyspace.set_same (K : Keyspace) (c : Nat) (k : Bytes)
    (v : Option (Entry × Option Nat)) : K.set c k v c k = v := if_pos ⟨rfl, rfl⟩

theorem Keyspace.set_other (K : Keyspace) {c c' : Nat} {k k' : Bytes}
    (v : Option (Entry × Option Nat)) (h : ¬ (c' = c ∧ k' = k)) : K.set c k v c' k' = K c' k' :=
  if_neg h

section

variable {R : Runtime} {g g' : GData} {K : Keyspace} {P : Nat → Prop}

/-- A state stands for a keyspace changed at one key when it differs from the
    old state at that key only, and shows the new value there. -/
theorem Views.set (hK : Views g K) {c : Nat} {k : Bytes} {v : Option (Entry × Option Nat)}
    (hother : ∀ c' k' e x, ¬ (c' = c ∧ k' = k) →
      ((Holds g' c' k' e x ↔ Holds g c' k' e x) ∧ (Holds g c' k' e x → due g' e = due g e)))
    (hhere : ∀ x d, v = some (x, d) ↔ ∃ e, Holds g' c k e x ∧ due g' e = d) :
    Views g' (K.set c k v) := by
  intro c' k' x d
  by_cases h : c' = c ∧ k' = k
  · rcases h with ⟨rfl, rfl⟩
    rw [Keyspace.set_same]
    exact hhere x d
  · rw [Keyspace.set_other K v h, hK c' k' x d]
    constructor
    · rintro ⟨e, he, rfl⟩
      have ho := hother c' k' e x h
      exact ⟨e, ho.1.mpr he, ho.2 he⟩
    · rintro ⟨e, he, rfl⟩
      have ho := hother c' k' e x h
      exact ⟨e, ho.1.mp he, (ho.2 (ho.1.mp he)).symm⟩

theorem due_eq_none (h : HeapInv g P) {e : Nat} : due g e = none ↔ g.heapIdx e = none :=
  h.indexed.deadline_eq_none

/-- An address not in use has no deadline. -/
theorem heapIdx_fresh (hdb : DbInv R g) (hh : HeapInv g P) {e : Nat} (he : g.nextEntry ≤ e) :
    g.heapIdx e = none := by
  cases hi : g.heapIdx e with
  | none => rfl
  | some i =>
      have hx : ∃ x, g.entries e = some x := by
        rcases hh.owned e i hi with ⟨c, hs⟩ | hP
        · rcases hdb.stored hs with ⟨x, hx, _⟩
          exact ⟨x, hx.entry⟩
        · rcases hh.orphan e hP with ⟨x, _, hx, _⟩
          exact ⟨x, hx⟩
      rcases hx with ⟨x, hx⟩
      rw [hdb.fresh e he] at hx
      cases hx

/-- An entry that was left behind is not a stored one. -/
theorem orphan_ne (hdb : DbInv R g) (hh : HeapInv g P) {c e s : Nat} {k : Bytes} {x : Entry}
    (hx : Holds g c k e x) (hs : P s) : s ≠ e := by
  rintro rfl
  rcases hh.orphan s hs with ⟨y, c', hy, hown, hc', _⟩
  rw [hx.entry, Option.some.injEq] at hy
  rw [← hy, hdb.owner hx.stored hx.entry, Option.some.injEq] at hown
  rcases conns_of_stored hx.stored with ⟨conn, hc⟩
  rw [hown, hc'] at hc
  cases hc

/-- A move that leaves the entries in `P` alone keeps them as they were. -/
theorem HeapInv.orphan_keep (hh : HeapInv g P) (hsame : SameLoop g g')
    (hentries : ∀ s, P s → g'.entries s = g.entries s) (e : Nat) (he : P e) :
    ∃ x c, g'.entries e = some x ∧ x.ownerConn = some c ∧ g'.conns c = none ∧ c < g'.nextConn := by
  rcases hh.orphan e he with ⟨x, c, hx, hown, hc, hlt⟩
  exact ⟨x, c, by rw [hentries e he]; exact hx, hown, hsame.dead c hc hlt⟩

/-! ## Creation -/

/-- An address not in use is in no table. -/
theorem not_stored_fresh (hdb : DbInv R g) (c : Nat) : ¬ Stored g c g.nextEntry := by
  intro hs
  rcases hdb.stored hs with ⟨x, hx, _⟩
  have hnone := hdb.fresh _ (Nat.le_refl _)
  rw [hx.entry] at hnone
  cases hnone

/-- The record `x₀` stands at the first free address and one node for it in the
    table of `c`, and the heap and the other entries are as they were. -/
structure Created (g g' : GData) (c : Nat) (x₀ : Entry) : Prop where
  entry : g'.entries g.nextEntry = some x₀
  others : ∀ e, e ≠ g.nextEntry → g'.entries e = g.entries e
  next : g'.nextEntry = g.nextEntry + 1
  heap : g'.heap = g.heap
  heapIdx : g'.heapIdx = g.heapIdx
  nodes : ∀ c' n, n ∈ nodesOf g' c' ↔
    n ∈ nodesOf g c' ∨ (c' = c ∧ n = ⟨x₀.hcode, g.nextEntry⟩)

namespace Created

variable {c : Nat} {x₀ : Entry}

theorem due (h : Created g g' c x₀) (e : Nat) : due g' e = RedisServer.due g e := by
  rw [RedisServer.due, RedisServer.due, h.heap, h.heapIdx]

theorem stored (h : Created g g' c x₀) (c' e : Nat) :
    Stored g' c' e ↔ Stored g c' e ∨ (c' = c ∧ e = g.nextEntry) := by
  constructor
  · rintro ⟨n, hn, rfl⟩
    rcases (h.nodes c' n).mp hn with hn | ⟨rfl, rfl⟩
    · exact Or.inl ⟨n, hn, rfl⟩
    · exact Or.inr ⟨rfl, rfl⟩
  · rintro (⟨n, hn, rfl⟩ | ⟨rfl, rfl⟩)
    · exact ⟨n, (h.nodes c' n).mpr (Or.inl hn), rfl⟩
    · exact ⟨_, (h.nodes c' _).mpr (Or.inr ⟨rfl, rfl⟩), rfl⟩

/-- The tables hold what they held, and the new record under its key. -/
theorem holds (h : Created g g' c x₀) (hdb : DbInv R g) (c' : Nat) (k : Bytes) (e : Nat)
    (x : Entry) : Holds g' c' k e x ↔
      Holds g c' k e x ∨ (c' = c ∧ k = x₀.key ∧ e = g.nextEntry ∧ x = x₀) := by
  have hold : ∀ {y}, Holds g c' k e y → e ≠ g.nextEntry := by
    rintro y hy rfl
    exact not_stored_fresh hdb c' hy.stored
  constructor
  · intro hx
    have hentry := hx.entry
    rcases (h.stored c' e).mp hx.stored with hs | ⟨hcc, he⟩
    · have hne : e ≠ g.nextEntry := by
        rintro rfl
        exact not_stored_fresh hdb c' hs
      rw [h.others e hne] at hentry
      exact Or.inl ⟨hs, hentry, hx.key⟩
    · rw [he, h.entry, Option.some.injEq] at hentry
      exact Or.inr ⟨hcc, by rw [← hx.key, ← hentry], he, hentry.symm⟩
  · rintro (hx | ⟨rfl, rfl, rfl, rfl⟩)
    · exact ⟨(h.stored c' e).mpr (Or.inl hx.stored), (h.others e (hold hx)).trans hx.entry, hx.key⟩
    · exact ⟨(h.stored _ _).mpr (Or.inr ⟨rfl, rfl⟩), h.entry, rfl⟩

/-- The tables are sound with a record that is new under its key. -/
theorem dbInv (h : Created g g' c x₀) (hdb : DbInv R g)
    (hwf : ∀ c' conn, g'.conns c' = some conn → conn.db.Wf)
    (hnodup : ∀ c', ((nodesOf g' c').map HNode.payload).Nodup)
    (hkey : ∀ e x, ¬ Holds g c x₀.key e x) (hhash : x₀.hcode = R.strHash x₀.key)
    (hown : x₀.ownerConn = some c) : DbInv R g' where
  wf := hwf
  distinct := hnodup
  entry := by
    intro c' n hn
    rcases (h.nodes c' n).mp hn with hn | ⟨rfl, rfl⟩
    · rcases hdb.entry c' n hn with ⟨x, hx, hrest⟩
      have hne : n.payload ≠ g.nextEntry :=
        fun he => not_stored_fresh hdb c' ⟨n, hn, he⟩
      exact ⟨x, (h.others _ hne).trans hx, hrest⟩
    · exact ⟨x₀, h.entry, rfl, hhash, hown⟩
  keys := by
    intro c' k e x e' x' hx hx'
    -- The key was free, so it is not both an old record's and the new one's.
    rcases (h.holds hdb c' k e x).mp hx with hold | ⟨hcc, hkk, he, _⟩
    · rcases (h.holds hdb c' k e' x').mp hx' with hold' | ⟨hcc, hkk, _, _⟩
      · exact hdb.keys c' k e x e' x' hold hold'
      · rw [hcc, hkk] at hold
        exact absurd hold (hkey e x)
    · rcases (h.holds hdb c' k e' x').mp hx' with hold' | ⟨_, _, he', _⟩
      · rw [hcc, hkk] at hold'
        exact absurd hold' (hkey e' x')
      · rw [he, he']
  fresh := by
    intro e he
    rw [h.next] at he
    exact (h.others e (by omega)).trans (hdb.fresh e (by omega))

theorem heapInv (h : Created g g' c x₀) (hdb : DbInv R g) (hh : HeapInv g P)
    (hsame : SameLoop g g') : HeapInv g' P where
  indexed := by
    rw [h.heap, h.heapIdx]
    exact hh.indexed
  owned := by
    intro e i hi
    rw [h.heapIdx] at hi
    exact (hh.owned e i hi).imp_left fun hs => hs.imp fun c' hs => (h.stored c' e).mpr (Or.inl hs)
  orphan := by
    refine hh.orphan_keep hsame fun s hs => h.others s ?_
    rintro rfl
    rcases hh.orphan _ hs with ⟨y, _, hy, _⟩
    rw [hdb.fresh _ (Nat.le_refl _)] at hy
    cases hy

/-- The keyspace gains the record, without a deadline. -/
theorem views (h : Created g g' c x₀) (hdb : DbInv R g) (hh : HeapInv g P)
    (hkey : ∀ e x, ¬ Holds g c x₀.key e x) {K : Keyspace} (hK : Views g K) :
    Views g' (K.set c x₀.key (some (x₀, none))) := by
  have hnone : RedisServer.due g' g.nextEntry = none := by
    rw [h.due, due_eq_none hh]
    exact heapIdx_fresh hdb hh (Nat.le_refl _)
  refine hK.set (fun c' k' e x hne => ⟨?_, fun _ => h.due e⟩) (fun x d => ?_)
  · rw [h.holds hdb]
    refine or_iff_left ?_
    rintro ⟨rfl, rfl, _, _⟩
    exact hne ⟨rfl, rfl⟩
  · constructor
    · intro hxd
      rw [Option.some.injEq, Prod.mk.injEq] at hxd
      refine ⟨g.nextEntry, (h.holds hdb _ _ _ _).mpr (Or.inr ⟨rfl, rfl, rfl, hxd.1.symm⟩), ?_⟩
      rw [hnone]
      exact hxd.2
    · rintro ⟨e, he, rfl⟩
      rcases (h.holds hdb _ _ _ _).mp he with he | ⟨_, _, rfl, rfl⟩
      · exact absurd he (hkey e x)
      · rw [hnone]

end Created

/-- `entry_new` and the insertion into a table that lacks the key. -/
theorem create_spec (hdb : DbInv R g) (hh : HeapInv g P) {c : Nat} {conn : Conn}
    (hc : g.conns c = some conn) {key : Bytes} (hkey : ∀ e x, ¬ Holds g c key e x)
    (type : ValueType) (str : Bytes) :
    ∃ g', dbInsert (entryNew g type c key (R.strHash key) str).1 c (R.strHash key) g.nextEntry =
        .ok g' ∧
      SameLoop g g' ∧ DbInv R g' ∧ HeapInv g' P ∧
      Holds g' c key g.nextEntry ⟨R.strHash key, key, type, str, {}, some c⟩ ∧
      ∀ K, Views g K →
        Views g' (K.set c key (some (⟨R.strHash key, key, type, str, {}, some c⟩, none))) := by
  rcases hmInsert_spec (hdb.wf c conn hc) ⟨R.strHash key, g.nextEntry⟩ with ⟨db, hins, hwf, hp⟩
  set g₁ : GData := (entryNew g type c key (R.strHash key) str).1 with hg₁
  have hc₁ : g₁.conns c = some conn := hc
  have h₁ : SameLoop g g₁ := ⟨rfl, rfl, rfl, fun _ => rfl⟩
  have hsame := h₁.trans (setDb_sameLoop hc₁ db)
  have hnodes : ∀ c', nodesOf (g₁.setConn c { conn with db := db }) c' =
      if c' = c then db.nodes else nodesOf g c' := fun c' => nodesOf_setConn c c' _
  have hnew : Created g (g₁.setConn c { conn with db := db }) c
      ⟨R.strHash key, key, type, str, {}, some c⟩ := by
    refine ⟨Function.update_self _ _ _, fun e he => Function.update_of_ne he _ _, rfl, rfl, ?_, ?_⟩
    · exact Function.update_eq_self_iff.mpr (heapIdx_fresh hdb hh (Nat.le_refl _)).symm
    · intro c' n
      rw [hnodes]
      by_cases hcc : c' = c
      · rw [if_pos hcc, hp.mem_iff, List.mem_cons, hcc, nodesOf_eq hc, or_comm]
        simp only [true_and]
      · rw [if_neg hcc]
        simp only [hcc, false_and, or_false]
  refine ⟨g₁.setConn c { conn with db := db }, ?_, hsame,
    hnew.dbInv hdb (fun c' conn' hc' => ?_) (fun c' => ?_) hkey rfl rfl,
    hnew.heapInv hdb hh hsame, (hnew.holds hdb c key _ _).mpr (Or.inr ⟨rfl, rfl, rfl, rfl⟩),
    fun K hK => hnew.views hdb hh hkey hK⟩
  · simp only [dbInsert, GData.conn, hc₁, ok_bind, hins]
  · rw [setConn_conns] at hc'
    by_cases hcc : c' = c
    · rw [if_pos hcc, Option.some.injEq] at hc'
      rw [← hc']
      exact hwf
    · rw [if_neg hcc] at hc'
      exact hdb.wf c' conn' hc'
  · rw [hnodes]
    by_cases hcc : c' = c
    · rw [if_pos hcc, (hp.map HNode.payload).nodup_iff, List.map_cons, List.nodup_cons,
        ← nodesOf_eq hc]
      refine ⟨fun hm => ?_, hdb.distinct c⟩
      rcases List.mem_map.mp hm with ⟨n, hn, hne⟩
      exact not_stored_fresh hdb c ⟨n, hn, hne⟩
    · rw [if_neg hcc]
      exact hdb.distinct c'

/-! ## Assignment -/

/-- A new value for a stored entry, under the same key. -/
theorem setEntry_spec (hdb : DbInv R g) (hh : HeapInv g P) {c e : Nat} {k : Bytes} {x : Entry}
    (hx : Holds g c k e x) (x' : Entry) (hhash : x'.hcode = x.hcode) (hkey : x'.key = x.key)
    (hown : x'.ownerConn = x.ownerConn) :
    SameLoop g (g.setEntry e x') ∧ DbInv R (g.setEntry e x') ∧ HeapInv (g.setEntry e x') P ∧
      Holds (g.setEntry e x') c k e x' ∧
      ∀ K, Views g K → Views (g.setEntry e x') (K.set c k (some (x', due g e))) := by
  have hentries : ∀ s, s ≠ e → (g.setEntry e x').entries s = g.entries s :=
    fun s hs => Function.update_of_ne hs _ _
  have hself : (g.setEntry e x').entries e = some x' := Function.update_self _ _ _
  have hnew : Holds (g.setEntry e x') c k e x' := ⟨hx.stored, hself, hkey.trans hx.key⟩
  -- Away from the entry nothing changed; the entry itself kept its place.
  have hholds : ∀ c' k' s y, s ≠ e →
      (Holds (g.setEntry e x') c' k' s y ↔ Holds g c' k' s y) := by
    intro c' k' s y hs
    constructor
    · intro h
      exact ⟨h.stored, (hentries s hs).symm.trans h.entry, h.key⟩
    · intro h
      exact ⟨h.stored, (hentries s hs).trans h.entry, h.key⟩
  have hat : ∀ c' k' y, Holds (g.setEntry e x') c' k' e y → c' = c ∧ k' = k ∧ y = x' := by
    intro c' k' y h
    have hy := h.entry
    rw [hself, Option.some.injEq] at hy
    have hold : Holds g c' k' e x := ⟨h.stored, hx.entry, by rw [← h.key, ← hy, hkey]⟩
    have hu := holds_unique hdb hold hx
    exact ⟨hu.1, hu.2.1, hy.symm⟩
  refine ⟨⟨rfl, rfl, rfl, fun _ => rfl⟩, ⟨hdb.wf, hdb.distinct, ?_, ?_, ?_⟩,
    ⟨hh.indexed, hh.owned, hh.orphan_keep ⟨rfl, rfl, rfl, fun _ => rfl⟩ fun s hs =>
      hentries s (orphan_ne hdb hh hx hs)⟩, hnew, ?_⟩
  · intro c' n hn
    rcases hdb.entry c' n hn with ⟨y, hy, h1, h2, h3⟩
    by_cases hs : n.payload = e
    · rw [hs, hx.entry, Option.some.injEq] at hy
      rw [← hy] at h1 h2 h3
      exact ⟨x', by rw [hs]; exact hself, hhash.trans h1, by rw [hkey]; exact h2, hown.trans h3⟩
    · exact ⟨y, (hentries _ hs).trans hy, h1, h2, h3⟩
  · intro c' k' s y s' y' h h'
    have hold : ∀ r z, Holds (g.setEntry e x') c' k' r z → ∃ z', Holds g c' k' r z' := by
      intro r z hr
      by_cases hs : r = e
      · rw [hs] at hr ⊢
        rcases hat c' k' z hr with ⟨rfl, rfl, _⟩
        exact ⟨x, hx⟩
      · exact ⟨z, (hholds c' k' r z hs).mp hr⟩
    rcases hold s y h with ⟨z, hz⟩
    rcases hold s' y' h' with ⟨z', hz'⟩
    exact hdb.keys c' k' s z s' z' hz hz'
  · intro s hs
    have hne : s ≠ e := by
      rintro rfl
      have := hx.entry
      rw [hdb.fresh s hs] at this
      cases this
    exact (hentries s hne).trans (hdb.fresh s hs)
  · intro K hK
    refine hK.set (fun c' k' s y hne => ⟨?_, fun _ => rfl⟩) (fun y d => ?_)
    · by_cases hs : s = e
      · rw [hs]
        constructor
        · intro h
          have := hat c' k' y h
          exact absurd ⟨this.1, this.2.1⟩ hne
        · intro h
          have := holds_unique hdb h hx
          exact absurd ⟨this.1, this.2.1⟩ hne
      · exact hholds c' k' s y hs
    · constructor
      · intro hyd
        rw [Option.some.injEq, Prod.mk.injEq] at hyd
        rw [← hyd.1, ← hyd.2]
        exact ⟨e, hnew, rfl⟩
      · rintro ⟨s, hs, rfl⟩
        have hse : s = e := by
          by_contra hse
          exact hse (hdb.keys c k s y e x ((hholds c k s y hse).mp hs) hx)
        rw [hse] at hs ⊢
        rw [(hat c k y hs).2.2]
        rfl

/-! ## Deadlines -/

/-- The deadline `entry_set_ttl` leaves. -/
def dueAfter (ttlMs : Int) (now : Nat) : Option Nat :=
  if ttlMs < 0 then none else some ((now + ttlMs.toNat) % 2 ^ 64)

/-- `entry_set_ttl` changes one deadline and nothing but the heap. -/
theorem entrySetTtl_spec (hidx : Indexed g.heap g.heapIdx) {e : Nat} {x : Entry}
    (hx : g.entries e = some x) (ttlMs : Int) (now : Nat) :
    ∃ heap refs, entrySetTtl g e ttlMs now = .ok { g with heap := heap, heapIdx := refs } ∧
      Indexed heap refs ∧ deadline heap refs e = dueAfter ttlMs now ∧
      (∀ s, s ≠ e → deadline heap refs s = due g s) ∧
      (ttlMs < 0 → ∀ pos, g.heapIdx e = some pos →
        ∃ item, g.heap[pos]? = some item ∧ g.heap.Perm (item :: heap)) := by
  simp only [entrySetTtl, GData.entry, hx, ok_bind]
  by_cases hneg : ttlMs < 0
  · rw [if_pos hneg, dueAfter, if_pos hneg]
    cases hi : g.heapIdx e with
    | none =>
        refine ⟨g.heap, g.heapIdx, rfl, hidx, hidx.deadline_eq_none.mpr hi, fun _ _ => rfl, ?_⟩
        intro _ p hp
        cases hp
    | some pos =>
        rcases heapDelete_spec hidx hi with
          ⟨heap, refs, item, hrun, hitem, hperm, hidx', hnone, hothers⟩
        simp only [hrun, ok_bind]
        refine ⟨heap, _, rfl, hidx', hnone, hothers, fun _ p hp => ⟨item, ?_, hperm⟩⟩
        rw [Option.some.injEq] at hp
        rw [← hp]
        exact hitem
  · rw [if_neg hneg, dueAfter, if_neg hneg]
    rcases heapUpsert_spec hidx e ((now + ttlMs.toNat) % 2 ^ 64) with
      ⟨heap, refs, hrun, hidx', hsome, hothers⟩
    simp only [hrun, ok_bind]
    exact ⟨heap, refs, rfl, hidx', hsome, hothers, fun h => absurd h hneg⟩

/-- A new deadline for a stored entry. -/
theorem setTtl_spec (hdb : DbInv R g) (hh : HeapInv g P) {c e : Nat} {k : Bytes} {x : Entry}
    (hx : Holds g c k e x) (ttlMs : Int) (now : Nat) :
    ∃ g', entrySetTtl g e ttlMs now = .ok g' ∧ SameLoop g g' ∧ DbInv R g' ∧ HeapInv g' P ∧
      ∀ K, Views g K → Views g' (K.set c k (some (x, dueAfter ttlMs now))) := by
  rcases entrySetTtl_spec hh.indexed hx.entry ttlMs now with
    ⟨heap, refs, hrun, hidx, he, hothers, _⟩
  refine ⟨_, hrun, ⟨rfl, rfl, rfl, fun _ => rfl⟩,
    ⟨hdb.wf, hdb.distinct, hdb.entry, fun c' k' s y s' y' h h' =>
      hdb.keys c' k' s y s' y' ⟨h.stored, h.entry, h.key⟩ ⟨h'.stored, h'.entry, h'.key⟩,
      hdb.fresh⟩, ⟨hidx, ?_, hh.orphan⟩, ?_⟩
  · intro s i hi
    by_cases hs : s = e
    · rw [hs]
      exact Or.inl ⟨c, hx.stored⟩
    · have hsome : due g s ≠ none := by
        rw [← hothers s hs, Ne, hidx.deadline_eq_none]
        intro hn
        have hi' : refs s = some i := hi
        rw [hn] at hi'
        cases hi'
      rw [Ne, due_eq_none hh] at hsome
      rcases Option.ne_none_iff_exists'.mp hsome with ⟨j, hj⟩
      exact hh.owned s j hj
  · intro K hK
    have hsame : ∀ c' k' s y, Holds { g with heap := heap, heapIdx := refs } c' k' s y ↔
        Holds g c' k' s y :=
      fun c' k' s y => ⟨fun h => ⟨h.stored, h.entry, h.key⟩, fun h => ⟨h.stored, h.entry, h.key⟩⟩
    refine hK.set (fun c' k' s y hne => ⟨hsame c' k' s y, fun h => hothers s ?_⟩) (fun y d => ?_)
    · rintro rfl
      have := holds_unique hdb h hx
      exact hne ⟨this.1, this.2.1⟩
    · constructor
      · intro hyd
        rw [Option.some.injEq, Prod.mk.injEq] at hyd
        rw [← hyd.1, ← hyd.2]
        exact ⟨e, (hsame c k e x).mpr hx, he⟩
      · rintro ⟨s, hs, rfl⟩
        have hs' := (hsame c k s y).mp hs
        have hse := hdb.keys c k s y e x hs' hx
        rw [hse] at hs' ⊢
        rw [(holds_unique hdb hs' hx).2.2]
        exact congrArg (fun d => some (x, d)) he.symm

/-! ## Removal -/

/-- What `entry_del` does to an entry: out of the heap, and freed or left to
    the thread pool. -/
structure Deleted (g g' : GData) (e : Nat) : Prop where
  conns : g'.conns = g.conns
  idleList : g'.idleList = g.idleList
  fd2conn : g'.fd2conn = g.fd2conn
  nextConn : g'.nextConn = g.nextConn
  nextEntry : g'.nextEntry = g.nextEntry
  emptyZset : g'.emptyZset = g.emptyZset
  indexed : Indexed g'.heap g'.heapIdx
  due_self : due g' e = none
  due_other : ∀ s, s ≠ e → due g' s = due g s
  item : ∀ pos, g.heapIdx e = some pos →
    ∃ item, g.heap[pos]? = some item ∧ g.heap.Perm (item :: g'.heap)
  entries : ∀ s, s ≠ e → g'.entries s = g.entries s
  gone : g'.entries e = none ∨ g'.entries e = g.entries e

/-- `entry_del` takes the entry out of the heap and frees it or queues it. It
    fails only where freeing a sorted set does. -/
theorem entryDel_spec (hidx : Indexed g.heap g.heapIdx) {e : Nat} {x : Entry}
    (hx : g.entries e = some x) :
    (∃ g', entryDel g e = .ok g' ∧ Deleted g g' e) ∨
      ∃ f, entryDel g e = .error f ∧ x.type = .zset ∧ zsetClear x.zset = .error f := by
  rcases entrySetTtl_spec hidx hx (-1) 0 with ⟨heap, refs, hrun, hidx', he, hothers, hout⟩
  have hnone : deadline heap refs e = none := he
  have hperm := hout (by decide)
  simp only [entryDel, hrun, ok_bind, GData.entry, hx]
  by_cases hlarge : kLargeContainerSize < (if x.type = .zset then hmSize x.zset.hmap else 0)
  · rw [if_pos hlarge]
    exact Or.inl ⟨_, rfl, rfl, rfl, rfl, rfl, rfl, rfl, hidx', hnone, hothers, hperm,
      fun _ _ => rfl, Or.inr rfl⟩
  · rw [if_neg hlarge]
    simp only [entryDelSync, GData.entry, hx, ok_bind]
    have hfreed (z : Result ZSet) (hz : ∀ f, z ≠ .error f) :
        ∃ g', (z >>= fun _ => (.ok { g with
          heap := heap, heapIdx := refs, entries := Function.update g.entries e none } :
            Result GData)) = .ok g' ∧ Deleted g g' e := by
      cases z with
      | error f => exact absurd rfl (hz f)
      | ok z =>
          exact ⟨_, rfl, rfl, rfl, rfl, rfl, rfl, rfl, hidx', hnone, hothers, hperm,
            fun s hs => Function.update_of_ne hs _ _, Or.inl (Function.update_self _ _ _)⟩
    by_cases hz : x.type = .zset
    · rw [if_pos hz]
      cases hclear : zsetClear x.zset with
      | error f => exact Or.inr ⟨f, rfl, hz, rfl⟩
      | ok z => exact Or.inl (hfreed (.ok z) fun f => by simp only [ne_eq, reduceCtorEq,
          not_false_eq_true])
    · rw [if_neg hz]
      exact Or.inl (hfreed (.ok x.zset) fun f => by simp only [ne_eq, reduceCtorEq,
        not_false_eq_true])

/-- The entry `e` is in no table any more, and the others are where they
    were. -/
def Unlinked (g g' : GData) (e : Nat) : Prop :=
  ∀ c m, m ∈ nodesOf g' c ↔ m ∈ nodesOf g c ∧ m.payload ≠ e

namespace Unlinked

variable {e : Nat}

theorem congr {g'' : GData} (h : Unlinked g g' e) (hconns : g''.conns = g'.conns) :
    Unlinked g g'' e := by
  intro c m
  rw [nodesOf, hconns]
  exact h c m

theorem stored (h : Unlinked g g' e) (c s : Nat) : Stored g' c s ↔ Stored g c s ∧ s ≠ e := by
  constructor
  · rintro ⟨m, hm, rfl⟩
    have := (h c m).mp hm
    exact ⟨⟨m, this.1, rfl⟩, this.2⟩
  · rintro ⟨⟨m, hm, rfl⟩, hne⟩
    exact ⟨m, (h c m).mpr ⟨hm, hne⟩, rfl⟩

theorem holds (h : Unlinked g g' e) (hentries : ∀ s, s ≠ e → g'.entries s = g.entries s) (c : Nat)
    (k : Bytes) (s : Nat) (y : Entry) : Holds g' c k s y ↔ Holds g c k s y ∧ s ≠ e := by
  constructor
  · intro hy
    have hs := (h.stored c s).mp hy.stored
    exact ⟨⟨hs.1, (hentries s hs.2).symm.trans hy.entry, hy.key⟩, hs.2⟩
  · rintro ⟨hy, hne⟩
    exact ⟨(h.stored c s).mpr ⟨hy.stored, hne⟩, (hentries s hne).trans hy.entry, hy.key⟩

/-- The tables are sound without the entry, whatever becomes of it. -/
theorem dbInv (h : Unlinked g g' e) (hdb : DbInv R g)
    (hwf : ∀ c conn, g'.conns c = some conn → conn.db.Wf)
    (hnodup : ∀ c, ((nodesOf g' c).map HNode.payload).Nodup)
    (hentries : ∀ s, s ≠ e → g'.entries s = g.entries s) (hnext : g'.nextEntry = g.nextEntry)
    (hgone : g.entries e ≠ none) : DbInv R g' where
  wf := hwf
  distinct := hnodup
  entry := by
    intro c m hm
    have hm' := (h c m).mp hm
    rcases hdb.entry c m hm'.1 with ⟨y, hy, hrest⟩
    exact ⟨y, (hentries _ hm'.2).trans hy, hrest⟩
  keys := fun c k s y s' y' hy hy' =>
    hdb.keys c k s y s' y' ((h.holds hentries _ _ _ _).mp hy).1 ((h.holds hentries _ _ _ _).mp hy').1
  fresh := by
    intro s hs
    rw [hnext] at hs
    have hne : s ≠ e := by
      rintro rfl
      exact hgone (hdb.fresh s hs)
    exact (hentries s hne).trans (hdb.fresh s hs)

end Unlinked

/-- A table without the node of an entry. -/
theorem unlink_spec (hdb : DbInv R g) {c : Nat} {conn : Conn} (hc : g.conns c = some conn)
    {db : HMap Nat} {n : HNode Nat} {k : Bytes} {x : Entry} (hwf : db.Wf)
    (hp : conn.db.nodes.Perm (n :: db.nodes)) (hx : Holds g c k n.payload x) :
    Unlinked g (g.setConn c { conn with db := db }) n.payload ∧
      (∀ c' conn', (g.setConn c { conn with db := db }).conns c' = some conn' → conn'.db.Wf) ∧
      ∀ c', ((nodesOf (g.setConn c { conn with db := db }) c').map HNode.payload).Nodup := by
  have hd := hdb.distinct c
  rw [nodesOf_eq hc, (hp.map HNode.payload).nodup_iff, List.map_cons, List.nodup_cons] at hd
  refine ⟨fun c' m => ?_, fun c' conn' hc' => ?_, fun c' => ?_⟩
  · rw [nodesOf_setConn]
    by_cases hcc : c' = c
    · rw [if_pos hcc, hcc, nodesOf_eq hc, hp.mem_iff, List.mem_cons]
      constructor
      · intro hm
        refine ⟨Or.inr hm, fun heq => hd.1 ?_⟩
        rw [← heq]
        exact List.mem_map_of_mem hm
      · rintro ⟨rfl | hm, hne⟩
        · exact absurd rfl hne
        · exact hm
    · rw [if_neg hcc]
      refine ⟨fun hm => ⟨hm, fun heq => hcc ?_⟩, fun hm => hm.1⟩
      rcases hdb.stored (e := m.payload) ⟨m, hm, rfl⟩ with ⟨y, hy, _⟩
      rw [heq] at hy
      exact (holds_unique hdb hy hx).1
  · rw [setConn_conns] at hc'
    by_cases hcc : c' = c
    · rw [if_pos hcc, Option.some.injEq] at hc'
      rw [← hc']
      exact hwf
    · rw [if_neg hcc] at hc'
      exact hdb.wf c' conn' hc'
  · rw [nodesOf_setConn]
    by_cases hcc : c' = c
    · rw [if_pos hcc]
      exact hd.2
    · rw [if_neg hcc]
      exact hdb.distinct c'

/-- An entry out of its table and deleted. -/
theorem remove_spec (hdb : DbInv R g) (hh : HeapInv g P) {c : Nat} {conn : Conn}
    (hc : g.conns c = some conn) {db : HMap Nat} {n : HNode Nat} {k : Bytes} {x : Entry}
    (hwf : db.Wf) (hp : conn.db.nodes.Perm (n :: db.nodes)) (hx : Holds g c k n.payload x)
    (hdel : Deleted (g.setConn c { conn with db := db }) g' n.payload) :
    SameLoop g g' ∧ DbInv R g' ∧ HeapInv g' P ∧ ∀ K, Views g K → Views g' (K.set c k none) := by
  rcases unlink_spec hdb hc hwf hp hx with ⟨hunlinked₁, hwf₁, hnodup₁⟩
  -- The removed entry is nowhere, and everything else is where it was.
  have hunlinked := hunlinked₁.congr hdel.conns
  have hstored := hunlinked.stored
  have hholds := hunlinked.holds hdel.entries
  have hdue : ∀ s, s ≠ n.payload → due g' s = due g s := hdel.due_other
  have hloop := setDb_sameLoop hc db
  have hsame : SameLoop g g' := by
    refine ⟨hdel.idleList, hdel.fd2conn, hdel.nextConn, fun c' => ?_⟩
    rw [hdel.conns]
    exact hloop.io c'
  have hgone : g.entries n.payload ≠ none := by
    rw [hx.entry]
    exact Option.some_ne_none x
  refine ⟨hsame, hunlinked.dbInv hdb (by rw [hdel.conns]; exact hwf₁) (fun c' => ?_) hdel.entries
    hdel.nextEntry hgone, ⟨hdel.indexed, ?_, ?_⟩, ?_⟩
  · rw [nodesOf, hdel.conns]
    exact hnodup₁ c'
  · intro s i hi
    have hne : s ≠ n.payload := by
      rintro rfl
      have := hdel.indexed.deadline_eq_none.mp hdel.due_self
      rw [hi] at this
      cases this
    have hsome : due g s ≠ none := by
      rw [← hdue s hne, Ne, due, hdel.indexed.deadline_eq_none, hi]
      simp only [reduceCtorEq, not_false_eq_true]
    rw [Ne, due_eq_none hh] at hsome
    rcases Option.ne_none_iff_exists'.mp hsome with ⟨j, hj⟩
    exact (hh.owned s j hj).imp_left fun hs => hs.imp fun c' hs => (hstored c' s).mpr ⟨hs, hne⟩
  · exact hh.orphan_keep hsame fun s hs => hdel.entries s (orphan_ne hdb hh hx hs)
  · intro K hK
    refine hK.set (fun c' k' s y hne => ⟨?_, fun h => hdue s ?_⟩) (fun y d => ?_)
    · rw [hholds]
      refine ⟨fun h => h.1, fun h => ⟨h, ?_⟩⟩
      rintro rfl
      have := holds_unique hdb h hx
      exact hne ⟨this.1, this.2.1⟩
    · rintro rfl
      have := holds_unique hdb h hx
      exact hne ⟨this.1, this.2.1⟩
    · constructor
      · intro h
        cases h
      · rintro ⟨s, hs, _⟩
        have hs' := (hholds c k s y).mp hs
        exact absurd (hdb.keys c k s y _ x hs'.1 hx) hs'.2

end

end RedisServer
