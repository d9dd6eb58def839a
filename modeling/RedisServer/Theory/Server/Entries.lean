import RedisServer.Theory.Server.Step

/-!
# Which Entries the Tables Hold

A command other than `del` takes no entry out of its table, puts none back,
and leaves the queue of the thread pool alone. The only entry it may add to a
table is a new one, and it frees none.

## Main definitions

* `Grown`: The tables hold what they held, and perhaps a new entry.

## Theorems

* `doRequest_grown`: Every command but `del`.
-/

namespace RedisServer

open Lib

/-- Every stored entry was stored before, or is new, none is freed, and the
    queue is the same. -/
structure Grown (g g' : GData) : Prop where
  stored : ∀ c e, Stored g' c e → Stored g c e ∨ g.nextEntry ≤ e
  alive : ∀ e, g.entries e ≠ none → g'.entries e ≠ none
  nextEntry : g.nextEntry ≤ g'.nextEntry
  queue : g'.queue = g.queue

section

variable {R : Runtime} {g g' : GData} {P : Nat → Prop}

namespace Grown

theorem refl (g : GData) : Grown g g :=
  ⟨fun _ _ h => Or.inl h, fun _ h => h, Nat.le_refl _, rfl⟩

theorem trans {g'' : GData} (h : Grown g g') (h' : Grown g' g'') : Grown g g'' where
  stored := fun c e hs => (h'.stored c e hs).elim (h.stored c e)
    fun hnew => Or.inr (Nat.le_trans h.nextEntry hnew)
  alive := fun e he => h'.alive e (h.alive e he)
  nextEntry := Nat.le_trans h.nextEntry h'.nextEntry
  queue := h'.queue.trans h.queue

/-- A step that leaves the tables alone. -/
theorem of_conns (hconns : g'.conns = g.conns)
    (halive : ∀ e, g.entries e ≠ none → g'.entries e ≠ none)
    (hnext : g'.nextEntry = g.nextEntry) (hqueue : g'.queue = g.queue) : Grown g g' where
  stored := by
    intro c e hs
    rw [Stored, nodesOf, hconns] at hs
    exact Or.inl hs
  alive := halive
  nextEntry := Nat.le_of_eq hnext.symm
  queue := hqueue

/-- A step that leaves the contents of the tables alone. -/
theorem of_nodes (hnodes : ∀ c, (nodesOf g' c).Perm (nodesOf g c))
    (hentries : g'.entries = g.entries) (hnext : g'.nextEntry = g.nextEntry)
    (hqueue : g'.queue = g.queue) : Grown g g' where
  stored := fun c _ hs => Or.inl (hs.imp fun _ hn => ⟨(hnodes c).mem_iff.mp hn.1, hn.2⟩)
  alive := by
    rw [hentries]
    exact fun _ h => h
  nextEntry := Nat.le_of_eq hnext.symm
  queue := hqueue

end Grown

theorem Rehashed.grown (h : Rehashed g g') : Grown g g' :=
  Grown.of_nodes h.nodes h.entries h.nextEntry h.queue

/-- Writing an entry frees none. -/
theorem alive_update (g : GData) (a : Nat) (x : Entry) :
    ∀ e, g.entries e ≠ none → Function.update g.entries a (some x) e ≠ none := by
  intro e he
  rw [Function.update_apply]
  by_cases hea : e = a
  · rw [if_pos hea]
    exact Option.some_ne_none x
  · rw [if_neg hea]
    exact he

/-! ## What the helpers do -/

theorem dbLookup_grown (hinv : Inv R g P) {c : Nat} {key : Bytes} {r : Option Nat}
    (hrun : dbLookup R g c key = .ok (g', r)) : Grown g g' ∧ Inv R g' P := by
  rcases bind_eq_ok.mp hrun with ⟨conn, hconn, _⟩
  rcases dbLookup_spec hinv.db (conns_of_conn hconn) key with ⟨g₁, r₁, hlook, hre, _⟩
  rw [hrun, Except.ok.injEq, Prod.mk.injEq] at hlook
  rw [hlook.1]
  exact ⟨hre.grown, hre.inv hinv⟩

/-- A new entry is stored. -/
theorem create_grown (hinv : Inv R g P) {c hcode hcode' : Nat} {key str : Bytes} {type : ValueType}
    (hins : dbInsert (entryNew g type c key hcode str).1 c hcode' g.nextEntry = .ok g') :
    Grown g g' := by
  rcases bind_eq_ok.mp hins with ⟨conn, hconn, hins⟩
  have hc : g.conns c = some conn := conns_of_conn hconn
  rcases bind_eq_ok.mp hins with ⟨db, hdb, hins⟩
  rw [Except.ok.injEq] at hins
  rcases hmInsert_spec (hinv.db.wf c conn hc) ⟨hcode', g.nextEntry⟩ with ⟨db', hins', _, hp⟩
  rw [hdb, Except.ok.injEq] at hins'
  rw [← hins]
  refine ⟨fun c' e hs => ?_, alive_update g _ _, Nat.le_succ _, rfl⟩
  rcases hs with ⟨n, hn, rfl⟩
  rw [nodesOf_setConn] at hn
  by_cases hcc : c' = c
  · rw [if_pos hcc, hins', hp.mem_iff, List.mem_cons] at hn
    rcases hn with rfl | hn
    · exact Or.inr (Nat.le_refl _)
    · rw [hcc]
      exact Or.inl ⟨n, by rw [nodesOf_eq hc]; exact hn, rfl⟩
  · rw [if_neg hcc] at hn
    exact Or.inl ⟨n, hn, rfl⟩

theorem entrySetTtl_grown {ent now : Nat} {ttlMs : Int}
    (hrun : entrySetTtl g ent ttlMs now = .ok g') : Grown g g' := by
  rcases bind_eq_ok.mp hrun with ⟨x, _, hrun⟩
  by_cases hneg : ttlMs < 0
  · rw [if_pos hneg] at hrun
    cases hi : g.heapIdx ent with
    | none =>
        simp only [hi, Except.ok.injEq] at hrun
        rw [← hrun]
        exact Grown.refl g
    | some pos =>
        simp only [hi] at hrun
        rcases bind_eq_ok.mp hrun with ⟨⟨heap, refs⟩, _, hrun⟩
        rw [Except.ok.injEq] at hrun
        rw [← hrun]
        exact Grown.of_conns rfl (fun _ h => h) rfl rfl
  · rw [if_neg hneg] at hrun
    rcases bind_eq_ok.mp hrun with ⟨⟨heap, refs⟩, _, hrun⟩
    rw [Except.ok.injEq] at hrun
    rw [← hrun]
    exact Grown.of_conns rfl (fun _ h => h) rfl rfl

theorem expectZset_grown (hinv : Inv R g P) {c : Nat} {key : Bytes} {r : Option ZRef}
    (hrun : expectZset R g c key = .ok (g', r)) : Grown g g' := by
  rcases bind_eq_ok.mp hrun with ⟨⟨g₁, node⟩, hlook, hrun⟩
  have h₁ := (dbLookup_grown hinv hlook).1
  cases node with
  | none =>
      simp only [Except.ok.injEq, Prod.mk.injEq] at hrun
      rw [← hrun.1]
      exact h₁
  | some ent =>
      rcases bind_eq_ok.mp hrun with ⟨x, _, hrun⟩
      rw [Except.ok.injEq, Prod.mk.injEq] at hrun
      rw [← hrun.1]
      exact h₁

theorem setZset_grown {z : ZSet} {ref : ZRef} (hrun : setZset g z ref = .ok g') : Grown g g' := by
  cases ref with
  | empty =>
      rw [setZset, Except.ok.injEq] at hrun
      rw [← hrun]
      exact Grown.of_conns rfl (fun _ h => h) rfl rfl
  | entry e =>
      rcases bind_eq_ok.mp hrun with ⟨x, _, hrun⟩
      rw [Except.ok.injEq] at hrun
      rw [← hrun]
      exact Grown.of_conns rfl (alive_update _ _ _) rfl rfl

/-! ## The commands -/

variable {c now : Nat} {cmd : List Bytes} {out out' : Bytes}

theorem doGet_grown (hinv : Inv R g P) (hrun : doGet R g c cmd out = .ok (g', out')) :
    Grown g g' := by
  rcases bind_eq_ok.mp hrun with ⟨⟨g₁, node⟩, hlook, hrun⟩
  have h₁ := (dbLookup_grown hinv hlook).1
  cases node with
  | none =>
      rw [Except.ok.injEq, Prod.mk.injEq] at hrun
      rw [← hrun.1]
      exact h₁
  | some ent =>
      rcases bind_eq_ok.mp hrun with ⟨x, _, hrun⟩
      by_cases ht : x.type ≠ .str
      · rw [if_pos ht, Except.ok.injEq, Prod.mk.injEq] at hrun
        rw [← hrun.1]
        exact h₁
      · rw [if_neg ht, Except.ok.injEq, Prod.mk.injEq] at hrun
        rw [← hrun.1]
        exact h₁

theorem doSet_grown (hinv : Inv R g P) (hrun : doSet R g c cmd out = .ok (g', out')) :
    Grown g g' := by
  rcases bind_eq_ok.mp hrun with ⟨⟨g₁, node⟩, hlook, hrun⟩
  rcases dbLookup_grown hinv hlook with ⟨h₁, hinv₁⟩
  cases node with
  | none =>
      rcases bind_eq_ok.mp hrun with ⟨g₂, hins, hrun⟩
      rw [Except.ok.injEq, Prod.mk.injEq] at hrun
      rw [← hrun.1]
      exact h₁.trans (create_grown hinv₁ hins)
  | some ent =>
      rcases bind_eq_ok.mp hrun with ⟨x, _, hrun⟩
      by_cases ht : x.type ≠ .str
      · rw [if_pos ht, Except.ok.injEq, Prod.mk.injEq] at hrun
        rw [← hrun.1]
        exact h₁
      · rw [if_neg ht, Except.ok.injEq, Prod.mk.injEq] at hrun
        rw [← hrun.1]
        exact h₁.trans (Grown.of_conns rfl (alive_update _ _ _) rfl rfl)

theorem doExpire_grown (hinv : Inv R g P) (hrun : doExpire R g c cmd now out = .ok (g', out')) :
    Grown g g' := by
  unfold doExpire at hrun
  cases harg : str2int (arg cmd 2) with
  | none =>
      simp only [harg, Except.ok.injEq, Prod.mk.injEq] at hrun
      rw [← hrun.1]
      exact Grown.refl g
  | some ttlMs =>
      simp only [harg] at hrun
      rcases bind_eq_ok.mp hrun with ⟨⟨g₁, node⟩, hlook, hrun⟩
      have h₁ := (dbLookup_grown hinv hlook).1
      cases node with
      | none =>
          rw [Except.ok.injEq, Prod.mk.injEq] at hrun
          rw [← hrun.1]
          exact h₁
      | some ent =>
          rcases bind_eq_ok.mp hrun with ⟨g₂, httl, hrun⟩
          rw [Except.ok.injEq, Prod.mk.injEq] at hrun
          rw [← hrun.1]
          exact h₁.trans (entrySetTtl_grown httl)

theorem doTtl_grown (hinv : Inv R g P) (hrun : doTtl R g c cmd now out = .ok (g', out')) :
    Grown g g' := by
  rcases bind_eq_ok.mp hrun with ⟨⟨g₁, node⟩, hlook, hrun⟩
  have h₁ := (dbLookup_grown hinv hlook).1
  cases node with
  | none =>
      rw [Except.ok.injEq, Prod.mk.injEq] at hrun
      rw [← hrun.1]
      exact h₁
  | some ent =>
      rcases bind_eq_ok.mp hrun with ⟨x, _, hrun⟩
      cases hi : g₁.heapIdx ent with
      | none =>
          simp only [hi, Except.ok.injEq, Prod.mk.injEq] at hrun
          rw [← hrun.1]
          exact h₁
      | some pos =>
          simp only [hi] at hrun
          rcases bind_eq_ok.mp hrun with ⟨_, _, hrun⟩
          rw [Except.ok.injEq, Prod.mk.injEq] at hrun
          rw [← hrun.1]
          exact h₁

theorem doKeys_grown (hrun : doKeys g c out = .ok (g', out')) : Grown g g' := by
  rcases bind_eq_ok.mp hrun with ⟨conn, _, hrun⟩
  rcases bind_eq_ok.mp hrun with ⟨_, _, hrun⟩
  rcases bind_eq_ok.mp hrun with ⟨_, _, hrun⟩
  rw [Except.ok.injEq, Prod.mk.injEq] at hrun
  rw [← hrun.1]
  exact Grown.refl g

theorem doZadd_grown (hinv : Inv R g P) (hrun : doZadd R g c cmd out = .ok (g', out')) :
    Grown g g' := by
  unfold doZadd at hrun
  cases harg : str2dbl R (arg cmd 2) with
  | none =>
      simp only [harg, Except.ok.injEq, Prod.mk.injEq] at hrun
      rw [← hrun.1]
      exact Grown.refl g
  | some score =>
      simp only [harg] at hrun
      rcases bind_eq_ok.mp hrun with ⟨⟨g₁, node⟩, hlook, hrun⟩
      rcases bind_eq_ok.mp hrun with ⟨⟨g₂, ent⟩, htarget, hrun⟩
      rcases dbLookup_grown hinv hlook with ⟨h₁, hinv₁⟩
      -- at most one entry is new, the target when the key was absent
      have h₂ : Grown g g₂ := by
        cases node with
        | none =>
            rcases bind_eq_ok.mp htarget with ⟨g₃, hins, htarget⟩
            rw [Except.ok.injEq, Prod.mk.injEq] at htarget
            rw [← htarget.1]
            exact h₁.trans (create_grown hinv₁ hins)
        | some e =>
            rw [zaddTarget, Except.ok.injEq, Prod.mk.injEq] at htarget
            rw [← htarget.1]
            exact h₁
      rcases bind_eq_ok.mp hrun with ⟨x, _, hrun⟩
      by_cases ht : x.type ≠ .zset
      · rw [if_pos ht, Except.ok.injEq, Prod.mk.injEq] at hrun
        rw [← hrun.1]
        exact h₂
      · rw [if_neg ht] at hrun
        rcases bind_eq_ok.mp hrun with ⟨⟨z, added⟩, _, hrun⟩
        rw [Except.ok.injEq, Prod.mk.injEq] at hrun
        rw [← hrun.1]
        exact h₂.trans (Grown.of_conns rfl (alive_update _ _ _) rfl rfl)

theorem doZrem_grown (hinv : Inv R g P) (hrun : doZrem R g c cmd out = .ok (g', out')) :
    Grown g g' := by
  rcases bind_eq_ok.mp hrun with ⟨⟨g₁, zref⟩, hexp, hrun⟩
  have h₁ := expectZset_grown hinv hexp
  cases zref with
  | none =>
      rw [Except.ok.injEq, Prod.mk.injEq] at hrun
      rw [← hrun.1]
      exact h₁
  | some ref =>
      rcases bind_eq_ok.mp hrun with ⟨z, _, hrun⟩
      rcases bind_eq_ok.mp hrun with ⟨⟨z₁, znode⟩, _, hrun⟩
      cases znode with
      | none =>
          rcases bind_eq_ok.mp hrun with ⟨g₂, hput, hrun⟩
          rw [Except.ok.injEq, Prod.mk.injEq] at hrun
          rw [← hrun.1]
          exact h₁.trans (setZset_grown hput)
      | some node =>
          rcases bind_eq_ok.mp hrun with ⟨z₂, _, hrun⟩
          rcases bind_eq_ok.mp hrun with ⟨g₂, hput, hrun⟩
          rw [Except.ok.injEq, Prod.mk.injEq] at hrun
          rw [← hrun.1]
          exact h₁.trans (setZset_grown hput)

theorem doZscore_grown (hinv : Inv R g P) (hrun : doZscore R g c cmd out = .ok (g', out')) :
    Grown g g' := by
  rcases bind_eq_ok.mp hrun with ⟨⟨g₁, zref⟩, hexp, hrun⟩
  have h₁ := expectZset_grown hinv hexp
  cases zref with
  | none =>
      rw [Except.ok.injEq, Prod.mk.injEq] at hrun
      rw [← hrun.1]
      exact h₁
  | some ref =>
      rcases bind_eq_ok.mp hrun with ⟨z, _, hrun⟩
      rcases bind_eq_ok.mp hrun with ⟨⟨z₁, znode⟩, _, hrun⟩
      rcases bind_eq_ok.mp hrun with ⟨g₂, hput, hrun⟩
      have h₂ := h₁.trans (setZset_grown hput)
      cases znode with
      | none =>
          rw [Except.ok.injEq, Prod.mk.injEq] at hrun
          rw [← hrun.1]
          exact h₂
      | some node =>
          rcases bind_eq_ok.mp hrun with ⟨d, _, hrun⟩
          rw [Except.ok.injEq, Prod.mk.injEq] at hrun
          rw [← hrun.1]
          exact h₂

theorem doZquery_grown (hinv : Inv R g P) (hrun : doZquery R g c cmd out = .ok (g', out')) :
    Grown g g' := by
  rcases doZquery_state hrun with rfl | ⟨r, hexp⟩
  · exact Grown.refl _
  · exact expectZset_grown hinv hexp

/-- Every command but `del`. -/
theorem doRequest_grown (hinv : Inv R g P) (hdel : ¬ isCmd cmd 2 "del" = true)
    (hrun : doRequest R g c cmd now out = .ok (g', out')) : Grown g g' := by
  revert hrun
  refine doRequest_elim (Q := fun r => r = .ok (g', out') → Grown g g') ?get ?set ?del ?expire
    ?ttl ?keys ?zadd ?zrem ?zscore ?zquery ?quit ?unknown
  case get => exact fun _ => doGet_grown hinv
  case set => exact fun _ => doSet_grown hinv
  -- the only command that takes an entry out
  case del => exact fun h => absurd h hdel
  case expire => exact fun _ => doExpire_grown hinv
  case ttl => exact fun _ => doTtl_grown hinv
  case keys => exact fun _ => doKeys_grown
  case zadd => exact fun _ => doZadd_grown hinv
  case zrem => exact fun _ => doZrem_grown hinv
  case zscore => exact fun _ => doZscore_grown hinv
  case zquery => exact fun _ => doZquery_grown hinv
  case quit =>
    intro _ hrun
    rw [Except.ok.injEq, Prod.mk.injEq] at hrun
    rw [← hrun.1]
    exact Grown.refl g
  case unknown =>
    intro hrun
    rw [Except.ok.injEq, Prod.mk.injEq] at hrun
    rw [← hrun.1]
    exact Grown.refl g

end

end RedisServer
