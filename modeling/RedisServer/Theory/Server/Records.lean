import RedisServer.Lib.Ledger
import RedisServer.Theory.Server.Step

/-!
# Where the Records Are

The entries of the server as a ledger: their owners are connections, which keep
them in their tables, and the queue is the one of the thread pool. A command
creates one record at most, `del` and the sweep free a record or queue it, and
a connection that is destroyed leaves its table behind, since `conn_destroy`
does not look at it. All else leaves the ledger as it is.

## Main definitions

* `GData.ledger`: The ledger of a state.

## Theorems

* `doRequest_ledger`: Every command but `del`.
* `entryDel_ledger`, `request_ledger`: A deletion, and any command.
* `Destroyed.ledger`, `IdleEnds.ledger`, `ttlLoop_ledger`: The two loops of a
  sweep.
-/

namespace RedisServer

open Lib

/-- The records, with their owners, the tables that hold them, the queue and
    the connections that are gone. -/
def GData.ledger (g : GData) : Ledger (Option Nat) Nat where
  owner e := (g.entries e).map Entry.ownerConn
  held o e := ∃ c, o = some c ∧ Stored g c e
  queue := g.queue
  gone o := ∃ c, o = some c ∧ g.conns c = none ∧ c < g.nextConn

section

variable {R : Runtime} {g g' : GData} {P : Nat → Prop}

theorem ledger_congr (hentries : g'.entries = g.entries)
    (hstored : ∀ c e, Stored g' c e ↔ Stored g c e) (hqueue : g'.queue = g.queue)
    (hgone : ∀ c, (g'.conns c = none ∧ c < g'.nextConn) ↔ (g.conns c = none ∧ c < g.nextConn)) :
    g'.ledger = g.ledger := by
  simp only [GData.ledger, hentries, hstored, hqueue, hgone]

theorem SameLoop.gone_iff (h : SameLoop g g') (c : Nat) :
    (g'.conns c = none ∧ c < g'.nextConn) ↔ (g.conns c = none ∧ c < g.nextConn) := by
  have hio := congrArg (· = none) (h.io c)
  simp only [Option.map_eq_none_iff, eq_iff_iff] at hio
  rw [hio, h.nextConn]

theorem Rehashed.ledger (h : Rehashed g g') : g'.ledger = g.ledger :=
  ledger_congr h.entries h.stored h.queue h.loop.gone_iff

/-- A stored record is held by its connection. -/
theorem held_of_stored {c e : Nat} (h : Stored g c e) : g.ledger.held (some c) e := ⟨c, rfl, h⟩

/-- An entry is in memory where the ledger has an owner for it. -/
theorem owner_iff {e : Nat} : g.ledger.owner e ≠ none ↔ g.entries e ≠ none := by
  show (g.entries e).map Entry.ownerConn ≠ none ↔ g.entries e ≠ none
  rw [Ne, Ne, Option.map_eq_none_iff]

theorem exists_held {e : Nat} : (∃ o, g.ledger.held o e) ↔ ∃ c, Stored g c e :=
  ⟨fun ⟨_, c, _, hs⟩ => ⟨c, hs⟩, fun ⟨c, hs⟩ => ⟨some c, held_of_stored hs⟩⟩

/-! ## What the helpers do -/

theorem dbLookup_ledger (hinv : Inv R g P) {c : Nat} {key : Bytes} {r : Option Nat}
    (hrun : dbLookup R g c key = .ok (g', r)) : g'.ledger = g.ledger ∧ Inv R g' P := by
  rcases bind_eq_ok.mp hrun with ⟨conn, hconn, _⟩
  rcases dbLookup_spec hinv.db (conns_of_conn hconn) key with ⟨g₁, r₁, hlook, hre, _⟩
  rw [hrun, Except.ok.injEq, Prod.mk.injEq] at hlook
  rw [hlook.1]
  exact ⟨hre.ledger, hre.inv hinv⟩

/-- An assignment that leaves the owner alone. -/
theorem setEntry_ledger {e : Nat} {x : Entry} (hx : g.entry e = .ok x) (y : Entry)
    (hown : y.ownerConn = x.ownerConn) : (g.setEntry e y).ledger = g.ledger := by
  refine Ledger.ext (funext fun s => ?_) rfl rfl rfl
  show ((g.setEntry e y).entries s).map Entry.ownerConn = (g.entries s).map Entry.ownerConn
  by_cases hs : s = e
  · have hself : (g.setEntry e y).entries e = some y := Function.update_self _ _ _
    rw [hs, hself, entries_of_entry hx, Option.map_some, Option.map_some, hown]
  · rw [setEntry_other hs]

theorem entrySetTtl_eq {e now : Nat} {ttlMs : Int} (hrun : entrySetTtl g e ttlMs now = .ok g') :
    ∃ heap refs, g' = { g with heap := heap, heapIdx := refs } := by
  rcases bind_eq_ok.mp hrun with ⟨x, _, hrun⟩
  by_cases hneg : ttlMs < 0
  · rw [if_pos hneg] at hrun
    cases hi : g.heapIdx e with
    | none =>
        simp only [hi, Except.ok.injEq] at hrun
        exact ⟨g.heap, g.heapIdx, hrun.symm⟩
    | some pos =>
        simp only [hi] at hrun
        rcases bind_eq_ok.mp hrun with ⟨⟨heap, refs⟩, _, hrun⟩
        rw [Except.ok.injEq] at hrun
        exact ⟨heap, _, hrun.symm⟩
  · rw [if_neg hneg] at hrun
    rcases bind_eq_ok.mp hrun with ⟨⟨heap, refs⟩, _, hrun⟩
    rw [Except.ok.injEq] at hrun
    exact ⟨heap, refs, hrun.symm⟩

theorem entrySetTtl_ledger {e now : Nat} {ttlMs : Int}
    (hrun : entrySetTtl g e ttlMs now = .ok g') : g'.ledger = g.ledger := by
  rcases entrySetTtl_eq hrun with ⟨heap, refs, rfl⟩
  rfl

/-- A new entry, in the table of its owner. -/
theorem created_of_insert (hinv : Inv R g P) {c hcode : Nat} {key str : Bytes} {type : ValueType}
    (hins : dbInsert (entryNew g type c key hcode str).1 c hcode g.nextEntry = .ok g') :
    Created g g' c ⟨hcode, key, type, str, {}, some c⟩ ∧ SameLoop g g' ∧ g'.queue = g.queue := by
  rcases bind_eq_ok.mp hins with ⟨conn, hconn, hins⟩
  have hc : g.conns c = some conn := conns_of_conn hconn
  rcases bind_eq_ok.mp hins with ⟨db, hdb, hins⟩
  rw [Except.ok.injEq] at hins
  rcases hmInsert_spec (hinv.db.wf c conn hc) ⟨hcode, g.nextEntry⟩ with ⟨db', hdb', _, hp⟩
  rw [hdb, Except.ok.injEq] at hdb'
  rw [← hdb'] at hp
  have hc₁ : (entryNew g type c key hcode str).1.conns c = some conn := hc
  have hnew : SameLoop g (entryNew g type c key hcode str).1 := ⟨rfl, rfl, rfl, fun _ => rfl⟩
  rw [← hins]
  refine ⟨⟨Function.update_self _ _ _, fun e he => Function.update_of_ne he _ _, rfl, rfl, ?_,
    fun c' n => ?_⟩, hnew.trans (setDb_sameLoop hc₁ db), rfl⟩
  · exact Function.update_eq_self_iff.mpr (heapIdx_fresh hinv.db hinv.heap (Nat.le_refl _)).symm
  · rw [nodesOf_setConn]
    by_cases hcc : c' = c
    · rw [if_pos hcc, hp.mem_iff, List.mem_cons, hcc, nodesOf_eq hc, or_comm]
      simp only [true_and]
    · rw [if_neg hcc]
      simp only [hcc, false_and, or_false]
      rfl

theorem create_ledger (hinv : Inv R g P) {c hcode : Nat} {key str : Bytes} {type : ValueType}
    (hins : dbInsert (entryNew g type c key hcode str).1 c hcode g.nextEntry = .ok g') :
    g.ledger.Grows (some c) g'.ledger := by
  rcases created_of_insert hinv hins with ⟨hnew, hloop, hqueue⟩
  have hledger : g'.ledger = g.ledger.alloc (some c) g.nextEntry := by
    refine Ledger.ext (funext fun e => ?owner) (funext fun o => funext fun e => propext ?held) hqueue
      (funext fun o => ?gone)
    case owner =>
      by_cases he : e = g.nextEntry
      · rw [he, Ledger.owner_alloc_self]
        exact congrArg (Option.map Entry.ownerConn) hnew.entry
      · rw [Ledger.owner_alloc_of_ne he]
        exact congrArg (Option.map Entry.ownerConn) (hnew.others e he)
    case held =>
      constructor
      · rintro ⟨c', rfl, hs⟩
        rcases (hnew.stored c' e).mp hs with hs | ⟨rfl, he⟩
        · exact Or.inl (held_of_stored hs)
        · exact Or.inr ⟨rfl, he⟩
      · rintro (⟨c', rfl, hs⟩ | ⟨rfl, he⟩)
        · exact held_of_stored ((hnew.stored c' e).mpr (Or.inl hs))
        · exact held_of_stored ((hnew.stored c e).mpr (Or.inr ⟨rfl, he⟩))
    case gone => simp only [GData.ledger, Ledger.alloc, hloop.gone_iff]
  rcases conns_of_stored ((hnew.stored c g.nextEntry).mpr (Or.inr ⟨rfl, rfl⟩)) with ⟨conn, hc⟩
  refine Or.inr ⟨g.nextEntry, ?_, ?_, hledger⟩
  · show (g.entries g.nextEntry).map Entry.ownerConn = none
    rw [hinv.db.fresh _ (Nat.le_refl _), Option.map_none]
  · rintro ⟨c', hcc, hgone⟩
    rw [← Option.some.inj hcc, ← hloop.gone_iff, hc] at hgone
    cases hgone.1

/-! ## The commands -/

variable {c now : Nat} {cmd : List Bytes} {out out' : Bytes}

theorem doGet_ledger (hinv : Inv R g P) (hrun : doGet R g c cmd out = .ok (g', out')) :
    g'.ledger = g.ledger := by
  rcases bind_eq_ok.mp hrun with ⟨⟨g₁, node⟩, hlook, hrun⟩
  rw [← (dbLookup_ledger hinv hlook).1]
  cases node with
  | none =>
      rw [Except.ok.injEq, Prod.mk.injEq] at hrun
      rw [hrun.1]
  | some ent =>
      rcases bind_eq_ok.mp hrun with ⟨x, _, hrun⟩
      by_cases ht : x.type ≠ .str
      · rw [if_pos ht, Except.ok.injEq, Prod.mk.injEq] at hrun
        rw [hrun.1]
      · rw [if_neg ht, Except.ok.injEq, Prod.mk.injEq] at hrun
        rw [hrun.1]

/-- One record more, if the key was not there. -/
theorem doSet_ledger (hinv : Inv R g P) (hrun : doSet R g c cmd out = .ok (g', out')) :
    g.ledger.Grows (some c) g'.ledger := by
  rcases bind_eq_ok.mp hrun with ⟨⟨g₁, node⟩, hlook, hrun⟩
  rcases dbLookup_ledger hinv hlook with ⟨h₁, hinv₁⟩
  rw [← h₁]
  cases node with
  | none =>
      rcases bind_eq_ok.mp hrun with ⟨g₂, hins, hrun⟩
      rw [Except.ok.injEq, Prod.mk.injEq] at hrun
      rw [← hrun.1]
      exact create_ledger hinv₁ hins
  | some ent =>
      rcases bind_eq_ok.mp hrun with ⟨x, hx, hrun⟩
      by_cases ht : x.type ≠ .str
      · rw [if_pos ht, Except.ok.injEq, Prod.mk.injEq] at hrun
        rw [hrun.1]
        exact Or.inl rfl
      · rw [if_neg ht, Except.ok.injEq, Prod.mk.injEq] at hrun
        rw [← hrun.1, setEntry_ledger hx { x with str := arg cmd 2 } rfl]
        exact Or.inl rfl

theorem doExpire_ledger (hinv : Inv R g P) (hrun : doExpire R g c cmd now out = .ok (g', out')) :
    g'.ledger = g.ledger := by
  unfold doExpire at hrun
  cases harg : str2int (arg cmd 2) with
  | none =>
      simp only [harg, Except.ok.injEq, Prod.mk.injEq] at hrun
      rw [hrun.1]
  | some ttlMs =>
      simp only [harg] at hrun
      rcases bind_eq_ok.mp hrun with ⟨⟨g₁, node⟩, hlook, hrun⟩
      rw [← (dbLookup_ledger hinv hlook).1]
      cases node with
      | none =>
          rw [Except.ok.injEq, Prod.mk.injEq] at hrun
          rw [← hrun.1]
      | some ent =>
          rcases bind_eq_ok.mp hrun with ⟨g₂, httl, hrun⟩
          rw [Except.ok.injEq, Prod.mk.injEq] at hrun
          rw [← hrun.1, entrySetTtl_ledger httl]

theorem doTtl_ledger (hinv : Inv R g P) (hrun : doTtl R g c cmd now out = .ok (g', out')) :
    g'.ledger = g.ledger := by
  rcases bind_eq_ok.mp hrun with ⟨⟨g₁, node⟩, hlook, hrun⟩
  rw [← (dbLookup_ledger hinv hlook).1]
  cases node with
  | none =>
      rw [Except.ok.injEq, Prod.mk.injEq] at hrun
      rw [hrun.1]
  | some ent =>
      rcases bind_eq_ok.mp hrun with ⟨x, _, hrun⟩
      cases hi : g₁.heapIdx ent with
      | none =>
          simp only [hi, Except.ok.injEq, Prod.mk.injEq] at hrun
          rw [hrun.1]
      | some pos =>
          simp only [hi] at hrun
          rcases bind_eq_ok.mp hrun with ⟨_, _, hrun⟩
          rw [Except.ok.injEq, Prod.mk.injEq] at hrun
          rw [hrun.1]

theorem doKeys_ledger (hrun : doKeys g c out = .ok (g', out')) : g'.ledger = g.ledger := by
  rcases bind_eq_ok.mp hrun with ⟨conn, _, hrun⟩
  rcases bind_eq_ok.mp hrun with ⟨_, _, hrun⟩
  rcases bind_eq_ok.mp hrun with ⟨_, _, hrun⟩
  rw [Except.ok.injEq, Prod.mk.injEq] at hrun
  rw [hrun.1]

/-- One record more, if the key was not there. -/
theorem doZadd_ledger (hinv : Inv R g P) (hrun : doZadd R g c cmd out = .ok (g', out')) :
    g.ledger.Grows (some c) g'.ledger := by
  unfold doZadd at hrun
  cases harg : str2dbl R (arg cmd 2) with
  | none =>
      simp only [harg, Except.ok.injEq, Prod.mk.injEq] at hrun
      rw [hrun.1]
      exact Or.inl rfl
  | some score =>
      simp only [harg] at hrun
      rcases bind_eq_ok.mp hrun with ⟨⟨g₁, node⟩, hlook, hrun⟩
      rcases bind_eq_ok.mp hrun with ⟨⟨g₂, ent⟩, htarget, hrun⟩
      rcases dbLookup_ledger hinv hlook with ⟨h₁, hinv₁⟩
      have h₂ : g.ledger.Grows (some c) g₂.ledger := by
        rw [← h₁]
        cases node with
        | none =>
            rcases bind_eq_ok.mp htarget with ⟨g₃, hins, htarget⟩
            rw [Except.ok.injEq, Prod.mk.injEq] at htarget
            rw [← htarget.1]
            exact create_ledger hinv₁ hins
        | some e =>
            rw [zaddTarget, Except.ok.injEq, Prod.mk.injEq] at htarget
            rw [← htarget.1]
            exact Or.inl rfl
      rcases bind_eq_ok.mp hrun with ⟨x, hx, hrun⟩
      by_cases ht : x.type ≠ .zset
      · rw [if_pos ht, Except.ok.injEq, Prod.mk.injEq] at hrun
        rw [← hrun.1]
        exact h₂
      · rw [if_neg ht] at hrun
        rcases bind_eq_ok.mp hrun with ⟨⟨z, added⟩, _, hrun⟩
        rw [Except.ok.injEq, Prod.mk.injEq] at hrun
        rw [← hrun.1, setEntry_ledger hx { x with zset := z } rfl]
        exact h₂

theorem expectZset_ledger (hinv : Inv R g P) {key : Bytes} {r : Option ZRef}
    (hrun : expectZset R g c key = .ok (g', r)) : g'.ledger = g.ledger := by
  rcases bind_eq_ok.mp hrun with ⟨⟨g₁, node⟩, hlook, hrun⟩
  rw [← (dbLookup_ledger hinv hlook).1]
  cases node with
  | none =>
      simp only [Except.ok.injEq, Prod.mk.injEq] at hrun
      rw [hrun.1]
  | some ent =>
      rcases bind_eq_ok.mp hrun with ⟨x, _, hrun⟩
      rw [Except.ok.injEq, Prod.mk.injEq] at hrun
      rw [hrun.1]

theorem setZset_ledger {z : ZSet} {ref : ZRef} (hrun : setZset g z ref = .ok g') :
    g'.ledger = g.ledger := by
  cases ref with
  | empty =>
      rw [setZset, Except.ok.injEq] at hrun
      rw [← hrun]
      rfl
  | entry e =>
      rcases bind_eq_ok.mp hrun with ⟨x, hx, hrun⟩
      rw [Except.ok.injEq] at hrun
      rw [← hrun]
      exact setEntry_ledger hx _ rfl

theorem doZrem_ledger (hinv : Inv R g P) (hrun : doZrem R g c cmd out = .ok (g', out')) :
    g'.ledger = g.ledger := by
  rcases bind_eq_ok.mp hrun with ⟨⟨g₁, zref⟩, hexp, hrun⟩
  rw [← expectZset_ledger hinv hexp]
  cases zref with
  | none =>
      rw [Except.ok.injEq, Prod.mk.injEq] at hrun
      rw [hrun.1]
  | some ref =>
      rcases bind_eq_ok.mp hrun with ⟨z, _, hrun⟩
      rcases bind_eq_ok.mp hrun with ⟨⟨z₁, znode⟩, _, hrun⟩
      cases znode with
      | none =>
          rcases bind_eq_ok.mp hrun with ⟨g₂, hput, hrun⟩
          rw [Except.ok.injEq, Prod.mk.injEq] at hrun
          rw [← hrun.1, setZset_ledger hput]
      | some node =>
          rcases bind_eq_ok.mp hrun with ⟨z₂, _, hrun⟩
          rcases bind_eq_ok.mp hrun with ⟨g₂, hput, hrun⟩
          rw [Except.ok.injEq, Prod.mk.injEq] at hrun
          rw [← hrun.1, setZset_ledger hput]

theorem doZscore_ledger (hinv : Inv R g P) (hrun : doZscore R g c cmd out = .ok (g', out')) :
    g'.ledger = g.ledger := by
  rcases bind_eq_ok.mp hrun with ⟨⟨g₁, zref⟩, hexp, hrun⟩
  rw [← expectZset_ledger hinv hexp]
  cases zref with
  | none =>
      rw [Except.ok.injEq, Prod.mk.injEq] at hrun
      rw [hrun.1]
  | some ref =>
      rcases bind_eq_ok.mp hrun with ⟨z, _, hrun⟩
      rcases bind_eq_ok.mp hrun with ⟨⟨z₁, znode⟩, _, hrun⟩
      rcases bind_eq_ok.mp hrun with ⟨g₂, hput, hrun⟩
      rw [← setZset_ledger hput]
      cases znode with
      | none =>
          rw [Except.ok.injEq, Prod.mk.injEq] at hrun
          rw [hrun.1]
      | some node =>
          rcases bind_eq_ok.mp hrun with ⟨d, _, hrun⟩
          rw [Except.ok.injEq, Prod.mk.injEq] at hrun
          rw [hrun.1]

theorem doZquery_ledger (hinv : Inv R g P) (hrun : doZquery R g c cmd out = .ok (g', out')) :
    g'.ledger = g.ledger := by
  rcases doZquery_state hrun with rfl | ⟨r, hexp⟩
  · rfl
  · exact expectZset_ledger hinv hexp

/-- Every command but `del` creates a record, or none. -/
theorem doRequest_ledger (hinv : Inv R g P) (hdel : ¬ isCmd cmd 2 "del" = true)
    (hrun : doRequest R g c cmd now out = .ok (g', out')) : g.ledger.Grows (some c) g'.ledger := by
  revert hrun
  refine doRequest_elim (Q := fun r => r = .ok (g', out') → g.ledger.Grows (some c) g'.ledger)
    ?get ?set ?del ?expire ?ttl ?keys ?zadd ?zrem ?zscore ?zquery ?quit ?unknown
  case get => exact fun _ hrun => Or.inl (doGet_ledger hinv hrun)
  case set => exact fun _ => doSet_ledger hinv
  case del => exact fun h => absurd h hdel
  case expire => exact fun _ hrun => Or.inl (doExpire_ledger hinv hrun)
  case ttl => exact fun _ hrun => Or.inl (doTtl_ledger hinv hrun)
  case keys => exact fun _ hrun => Or.inl (doKeys_ledger hrun)
  case zadd => exact fun _ => doZadd_ledger hinv
  case zrem => exact fun _ hrun => Or.inl (doZrem_ledger hinv hrun)
  case zscore => exact fun _ hrun => Or.inl (doZscore_ledger hinv hrun)
  case zquery => exact fun _ hrun => Or.inl (doZquery_ledger hinv hrun)
  case quit =>
    intro _ hrun
    rw [Except.ok.injEq, Prod.mk.injEq] at hrun
    rw [hrun.1]
    exact Or.inl rfl
  case unknown =>
    intro hrun
    rw [Except.ok.injEq, Prod.mk.injEq] at hrun
    rw [hrun.1]
    exact Or.inl rfl

/-! ## Deletions -/

/-- The deletion of a key's node from a table. -/
theorem hmDelete_key (hdb : DbInv R g) {conn : Conn} (hc : g.conns c = some conn) {key : Bytes}
    {db : HMap Nat} {node : Option (HNode Nat)}
    (hdel : hmDelete conn.db (R.strHash key) (entryEq g key) = .ok (db, node)) :
    db.Wf ∧ conn.db.nodes.Perm (node.toList ++ db.nodes) := by
  have hans := entryEq_answers hdb c key (R.strHash key)
  rw [nodesOf_eq hc] at hans
  rcases hmDelete_spec (hdb.wf c conn hc) hans with ⟨db', node', hdel', hwf, hp, _⟩
  rw [hdel, Except.ok.injEq, Prod.mk.injEq] at hdel'
  rw [hdel'.1, hdel'.2]
  exact ⟨hwf, hp⟩

/-- `conn_destroy` leaves the table behind. -/
theorem Destroyed.ledger (h : Destroyed g g' c) (hlt : c < g.nextConn) :
    g.ledger.Move g'.ledger := by
  have hledger : g'.ledger = g.ledger.leave (some c) := by
    refine Ledger.ext ?owner (funext fun o => funext fun e => propext ?held) h.queue
      (funext fun o => propext ?gone)
    case owner =>
      show (fun e => (g'.entries e).map Entry.ownerConn) = fun e => (g.entries e).map Entry.ownerConn
      rw [h.entries]
    case held =>
      constructor
      · rintro ⟨c', rfl, hs⟩
        rcases (h.stored c' e).mp hs with ⟨hcc, hs⟩
        exact ⟨fun heq => hcc (Option.some.inj heq), held_of_stored hs⟩
      · rintro ⟨hcc, c', rfl, hs⟩
        exact held_of_stored ((h.stored c' e).mpr ⟨fun heq => hcc (congrArg some heq), hs⟩)
    case gone =>
      constructor
      · rintro ⟨c', rfl, hnone, hlt'⟩
        by_cases hcc : c' = c
        · exact Or.inr (congrArg some hcc)
        · rw [h.conns_other hcc] at hnone
          rw [h.nextConn] at hlt'
          exact Or.inl ⟨c', rfl, hnone, hlt'⟩
      · rintro (⟨c', rfl, hnone, hlt'⟩ | rfl)
        · refine ⟨c', rfl, ?_, by rw [h.nextConn]; exact hlt'⟩
          by_cases hcc : c' = c
          · rw [hcc]
            exact h.conns_self
          · rw [h.conns_other hcc]
            exact hnone
        · exact ⟨c, rfl, h.conns_self, by rw [h.nextConn]; exact hlt⟩
  rw [hledger]
  exact Ledger.Move.leave _

theorem IdleEnds.ledger (h : IdleEnds now g g') (hinv : LoopInv g) : g.ledger.Moves g'.ledger := by
  induction h with
  | refl g => exact Relation.ReflTransGen.refl
  | step hc _ hd _ ih =>
      exact Relation.ReflTransGen.head (hd.ledger (hinv.lt_nextConn hc)) (ih (hd.loopInv hinv hc))

end

end RedisServer
