import RedisServer.Theory.Hashtable.Relabel
import RedisServer.Theory.Server.Sets

/-!
# The Layout of a Client's Table

`keys` replies in the order of the table, so a reply can depend on more than
which keys there are. The layout of a connection's table is the table with
every node labelled by its key. A command of that connection changes it by the
operations of the hashtable on keys, and a command of another connection does
not change it.

A sweep deletes the keys of the connection that are due one after the other,
in the order of their deadlines. Between keys with one deadline the order is
the heap's, and the heap is shared by all connections.

## Main definitions

* `LayoutIs`: The layout of a connection's table.
* `requestLayout`: The layout after a command.
* `deleteKeys`: The layout after deletions.

## Theorems

* `doRequest_layout`: A command of the connection.
* `Apart.layout`: A command of another connection.
* `Swept.layout`: A sweep.
-/

namespace RedisServer

open Lib

/-- The table of the connection, with keys in place of entries. -/
def LayoutIs (g : GData) (c : Nat) (L : HMap Bytes) : Prop :=
  ∃ conn, g.conns c = some conn ∧ conn.db.map (keyOf g) = L

/-- The callback of a lookup in a layout. -/
def keyEq (key k : Bytes) : Result Bool := .ok (k == key)

/-- A lookup in a layout: the layout after it, and whether the key is there. -/
def lookupKey (R : Runtime) (L : HMap Bytes) (key : Bytes) : HMap Bytes × Bool :=
  match hmLookup L (R.strHash key) (keyEq key) with
  | .ok (L', r) => (L', r.isSome)
  | .error _ => (L, false)

/-- The layout with a new key. -/
def insertKey (R : Runtime) (L : HMap Bytes) (key : Bytes) : HMap Bytes :=
  match hmInsert L { hcode := R.strHash key, payload := key } with
  | .ok L' => L'
  | .error _ => L

/-- The layout without a key. -/
def deleteKey (R : Runtime) (L : HMap Bytes) (key : Bytes) : HMap Bytes :=
  match hmDelete L (R.strHash key) (keyEq key) with
  | .ok (L', _) => L'
  | .error _ => L

/-- The layout after several deletions. -/
def deleteKeys (R : Runtime) (L : HMap Bytes) (keys : List Bytes) : HMap Bytes :=
  keys.foldl (deleteKey R) L

/-- The keys of a layout, in its order. -/
def layoutKeys (L : HMap Bytes) : List Bytes := L.nodes.map HNode.payload

/-- The layout after a lookup, and the insertion of a key that is not there. -/
def ensureKey (R : Runtime) (L : HMap Bytes) (key : Bytes) : HMap Bytes :=
  if (lookupKey R L key).2 then (lookupKey R L key).1 else insertKey R (lookupKey R L key).1 key

/-- The layout after a command. An argument that does not parse is refused
    before the key is looked up. -/
def requestLayout (R : Runtime) (L : HMap Bytes) (cmd : List Bytes) : HMap Bytes :=
  if isCmd cmd 2 "get" then (lookupKey R L (arg cmd 1)).1
  else if isCmd cmd 3 "set" then ensureKey R L (arg cmd 1)
  else if isCmd cmd 2 "del" then deleteKey R L (arg cmd 1)
  else if isCmd cmd 3 "pexpire" then
    match str2int (arg cmd 2) with
    | none => L
    | some _ => (lookupKey R L (arg cmd 1)).1
  else if isCmd cmd 2 "pttl" then (lookupKey R L (arg cmd 1)).1
  else if isCmd cmd 1 "keys" then L
  else if isCmd cmd 4 "zadd" then
    match str2dbl R (arg cmd 2) with
    | none => L
    | some _ => ensureKey R L (arg cmd 1)
  else if isCmd cmd 3 "zrem" then (lookupKey R L (arg cmd 1)).1
  else if isCmd cmd 3 "zscore" then (lookupKey R L (arg cmd 1)).1
  else if isCmd cmd 6 "zquery" then
    match str2dbl R (arg cmd 2), str2int (arg cmd 4), str2int (arg cmd 5) with
    | some _, some _, some _ => (lookupKey R L (arg cmd 1)).1
    | _, _, _ => L
  else L

section

variable {R : Runtime} {g g' g'' : GData} {c : Nat} {L : HMap Bytes}

theorem LayoutIs.keys (h : LayoutIs g c L) : layoutKeys L = keysOf g c := by
  rcases h with ⟨conn, hc, rfl⟩
  rw [layoutKeys, HMap.nodes_map, List.map_map, keysOf, nodesOf_eq hc]
  rfl

/-! ## What a command leaves alone -/

/-- The other connections keep their tables, and their entries keep their
    keys. -/
structure Apart (g g' : GData) (c : Nat) : Prop where
  conns : ∀ c', c' ≠ c → g'.conns c' = g.conns c'
  keyOf : ∀ c' e, c' ≠ c → Stored g c' e → keyOf g' e = keyOf g e

namespace Apart

theorem refl (g : GData) (c : Nat) : Apart g g c := ⟨fun _ _ => rfl, fun _ _ _ _ => rfl⟩

theorem stored (h : Apart g g' c) {c' e : Nat} (hc : c' ≠ c) (hs : Stored g c' e) :
    Stored g' c' e := by
  rcases hs with ⟨n, hn, hne⟩
  refine ⟨n, ?_, hne⟩
  rw [nodesOf, h.conns c' hc]
  exact hn

theorem trans (h : Apart g g' c) (h' : Apart g' g'' c) : Apart g g'' c where
  conns := fun c' hc => (h'.conns c' hc).trans (h.conns c' hc)
  keyOf := fun c' e hc hs => (h'.keyOf c' e hc (h.stored hc hs)).trans (h.keyOf c' e hc hs)

/-- The layout of another connection. -/
theorem layout (h : Apart g g' c) {c' : Nat} (hc : c' ≠ c) (hL : LayoutIs g c' L) :
    LayoutIs g' c' L := by
  rcases hL with ⟨conn, hconn, rfl⟩
  refine ⟨conn, by rw [h.conns c' hc, hconn], HMap.map_congr fun n hn => ?_⟩
  refine h.keyOf c' n.payload hc ⟨n, ?_, rfl⟩
  rw [nodesOf_eq hconn]
  exact hn

end Apart

theorem apart_setConn (x : Conn) : Apart g (g.setConn c x) c where
  conns := fun c' hc => by rw [setConn_conns, if_neg hc]
  keyOf := fun _ _ _ _ => rfl

/-- A change of the entries that keeps keys, with the connections as they
    were. -/
theorem apart_of_keyOf (g g' : GData) (c : Nat) (hconns : g'.conns = g.conns)
    (hkey : keyOf g' = keyOf g) : Apart g g' c where
  conns := fun c' _ => by rw [hconns]
  keyOf := fun _ e _ _ => by rw [hkey]

theorem LayoutIs.of_keyOf (h : LayoutIs g c L) (hconns : g'.conns = g.conns)
    (hkey : RedisServer.keyOf g' = RedisServer.keyOf g) : LayoutIs g' c L := by
  rcases h with ⟨conn, hc, rfl⟩
  exact ⟨conn, by rw [hconns, hc], by rw [hkey]⟩

/-- Writing an entry's value keeps its key. -/
theorem keyOf_setEntry {e : Nat} {x y : Entry} (hx : g.entries e = some x) (hkey : y.key = x.key) :
    keyOf (g.setEntry e y) = keyOf g := by
  funext s
  simp only [keyOf, GData.setEntry]
  by_cases hs : s = e
  · rw [hs, Function.update_self, hx]
    exact hkey
  · rw [Function.update_of_ne hs]

/-! ## The parts of a command -/

/-- Comparing an entry's key is comparing the key it is labelled with. -/
theorem entryEq_respects (hdb : DbInv R g) {conn : Conn} (hc : g.conns c = some conn)
    (key : Bytes) (hcode : Nat) :
    Respects (keyOf g) hcode (entryEq g key) (keyEq key) conn.db.nodes := by
  intro n hn _
  rw [← nodesOf_eq hc] at hn
  rcases hdb.entry c n hn with ⟨x, hx, _⟩
  simp only [entryEq, entry_eq hx, ok_bind, keyEq, keyOf, hx]

/-- A lookup of a key, seen in the layout. -/
theorem dbLookup_layout (hinv : Inv R g) (hL : LayoutIs g c L) {key : Bytes} {r : Option Nat}
    (hrun : dbLookup R g c key = .ok (g', r)) :
    LayoutIs g' c (lookupKey R L key).1 ∧ (lookupKey R L key).2 = r.isSome ∧ Apart g g' c ∧
      Inv R g' ∧ ∀ e, r = some e → ∃ x, g'.entries e = some x := by
  rcases hL with ⟨conn, hc, rfl⟩
  have hmap := hmLookup_map (hinv.db.wf c conn hc)
    (entryEq_respects hinv.db hc key (R.strHash key))
  -- The same lookup, as `dbLookup_spec` describes it.
  rcases dbLookup_spec hinv.db hc key with ⟨g₁, r₁, hlook, hre, hfound⟩
  have heq := hrun.symm.trans hlook
  rw [Except.ok.injEq, Prod.mk.injEq] at heq
  rw [← heq.1] at hre
  rw [← heq.2] at hfound
  have hentry : ∀ e, r = some e → ∃ x, g'.entries e = some x := by
    rintro e rfl
    rcases hfound with ⟨x, hx⟩
    exact ⟨x, ((hre.holds _ _ _ _).mpr hx).entry⟩
  simp only [dbLookup, conn_eq hc, ok_bind] at hrun
  -- the layout of the table it leaves, by the lookup on keys
  cases hhm : hmLookup conn.db (R.strHash key) (entryEq g key) with
  | error f => simp only [hhm, error_bind, reduceCtorEq] at hrun
  | ok x =>
      simp only [hhm, ok_bind, Except.ok.injEq, Prod.mk.injEq] at hrun
      rw [hhm] at hmap
      refine ⟨⟨{ conn with db := x.1 }, ?_, ?_⟩, ?_, ?_, hre.inv hinv, hentry⟩
      · rw [← hrun.1, setConn_conns, if_pos rfl]
      · rw [lookupKey, hmap, ← hrun.1]
        rfl
      · simp only [lookupKey, hmap, Except.map, mapFound]
        rw [← hrun.2, Option.isSome_map, Option.isSome_map]
      · rw [← hrun.1]
        exact apart_setConn _

/-- A new entry and its insertion, seen in the layout. -/
theorem create_layout (hdb : DbInv R g) (hL : LayoutIs g c L) {key str : Bytes} {type : ValueType}
    (hrun : dbInsert (entryNew g type c key (R.strHash key) str).1 c (R.strHash key)
      g.nextEntry = .ok g') :
    LayoutIs g' c (insertKey R L key) ∧ Apart g g' c := by
  rcases hL with ⟨conn, hc, rfl⟩
  have hconn : (entryNew g type c key (R.strHash key) str).1.conn c = .ok conn := conn_eq hc
  simp only [dbInsert, hconn, ok_bind] at hrun
  cases hins : hmInsert conn.db { hcode := R.strHash key, payload := g.nextEntry } with
  | error f => simp only [hins, error_bind, reduceCtorEq] at hrun
  | ok db =>
      simp only [hins, ok_bind, Except.ok.injEq] at hrun
      rw [← hrun]
      have hother : ∀ e, e ≠ g.nextEntry →
          keyOf (entryNew g type c key (R.strHash key) str).1 e = keyOf g e := by
        intro e he
        rw [keyOf, keyOf, entryNew_other he]
      have hself : keyOf (entryNew g type c key (R.strHash key) str).1 g.nextEntry = key := by
        simp only [keyOf, entryNew, Function.update_self]
      have hfresh : ∀ c' e, Stored g c' e → e ≠ g.nextEntry := by
        rintro c' e hs rfl
        exact not_stored_fresh hdb c' hs
      -- the old nodes have their old keys after the allocation
      have hold : conn.db.map (keyOf g) =
          conn.db.map (keyOf (entryNew g type c key (R.strHash key) str).1) := by
        refine HMap.map_congr fun n hn => (hother n.payload (hfresh c _ ⟨n, ?_, rfl⟩)).symm
        rw [nodesOf_eq hc]
        exact hn
      have hmap := hmInsert_map (keyOf (entryNew g type c key (R.strHash key) str).1) conn.db
        { hcode := R.strHash key, payload := g.nextEntry }
      simp only [HNode.map, hself, hins, Except.map] at hmap
      refine ⟨⟨{ conn with db := db }, ?_, ?_⟩, ?_, ?_⟩
      · rw [setConn_conns, if_pos rfl]
      · rw [insertKey, hold, hmap]
        rfl
      · intro c' hcc
        rw [setConn_conns, if_neg hcc]
        rfl
      · intro c' e _ hs
        exact hother e (hfresh c' e hs)

/-- An entry out of its table and deleted, seen in the layout. -/
theorem remove_layout (hdb : DbInv R g) {conn : Conn} (hc : g.conns c = some conn)
    {db : HMap Nat} {n : HNode Nat} {x : Entry}
    (hp : conn.db.nodes.Perm (n :: db.nodes)) (hx : Holds g c x.key n.payload x)
    (hdel : Deleted (g.setConn c { conn with db := db }) g' n.payload) :
    LayoutIs g' c (db.map (keyOf g)) ∧ Apart g g' c := by
  have hother : ∀ e, e ≠ n.payload → keyOf g' e = keyOf g e := by
    intro e he
    simp only [keyOf, hdel.entries e he]
    rfl
  refine ⟨⟨{ conn with db := db }, ?_, HMap.map_congr fun m hm => hother m.payload ?_⟩, ?_, ?_⟩
  · rw [hdel.conns, setConn_conns, if_pos rfl]
  · have hd := hdb.distinct c
    rw [nodesOf_eq hc, (hp.map HNode.payload).nodup_iff, List.map_cons, List.nodup_cons] at hd
    intro heq
    exact hd.1 (heq ▸ List.mem_map_of_mem hm)
  · intro c' hcc
    rw [hdel.conns, setConn_conns, if_neg hcc]
  · intro c' e hcc hs
    refine hother e ?_
    rintro rfl
    rcases hdb.stored hs with ⟨y, hy, _⟩
    exact hcc (holds_unique hdb hy hx).1

/-- Writing a value of an entry, seen in the layout. -/
theorem write_layout (hL : LayoutIs g c L) {e : Nat} {x y : Entry} (hx : g.entries e = some x)
    (hkey : y.key = x.key) : LayoutIs (g.setEntry e y) c L ∧ Apart g (g.setEntry e y) c :=
  ⟨hL.of_keyOf rfl (keyOf_setEntry hx hkey), apart_of_keyOf g _ c rfl (keyOf_setEntry hx hkey)⟩

/-- Writing back the set that `expect_zset` returned. -/
theorem setZset_layout (hL : LayoutIs g c L) {ref : ZRef} {z : ZSet}
    (hrun : setZset g z ref = .ok g') : LayoutIs g' c L ∧ Apart g g' c := by
  cases ref with
  | empty =>
      rw [setZset, Except.ok.injEq] at hrun
      rw [← hrun]
      exact ⟨hL.of_keyOf rfl rfl, apart_of_keyOf g _ c rfl rfl⟩
  | entry e =>
      rcases bind_eq_ok.mp hrun with ⟨x, hx, hrun⟩
      rw [Except.ok.injEq] at hrun
      rw [← hrun]
      exact write_layout hL (entries_of_entry hx) rfl

/-- `expect_zset`, seen in the layout. -/
theorem expectZset_layout (hinv : Inv R g) (hL : LayoutIs g c L) {key : Bytes} {r : Option ZRef}
    (hrun : expectZset R g c key = .ok (g', r)) :
    LayoutIs g' c (lookupKey R L key).1 ∧ Apart g g' c := by
  rcases bind_eq_ok.mp hrun with ⟨⟨g₁, node⟩, hlook, hrest⟩
  rcases dbLookup_layout hinv hL hlook with ⟨hL₁, _, hap, _⟩
  have hg : g₁ = g' := by
    cases node with
    | none =>
        simp only [Except.ok.injEq, Prod.mk.injEq] at hrest
        exact hrest.1
    | some e =>
        rcases bind_eq_ok.mp hrest with ⟨x, _, hrest⟩
        simp only [Except.ok.injEq, Prod.mk.injEq] at hrest
        exact hrest.1
  rw [← hg]
  exact ⟨hL₁, hap⟩

/-! ## Commands -/

/-- A command that returns leaves this layout, and the other connections
    alone. -/
def LaysOut (g : GData) (c : Nat) (L : HMap Bytes) (r : Result (GData × Bytes)) : Prop :=
  ∀ g' out, r = .ok (g', out) → LayoutIs g' c L ∧ Apart g g' c

section

variable {cmd : List Bytes} {now : Nat} {out : Bytes}

theorem LaysOut.same (hL : LayoutIs g c L) : LaysOut g c L (.ok (g, out)) := by
  intro g' out' hrun
  rw [Except.ok.injEq, Prod.mk.injEq] at hrun
  rw [← hrun.1]
  exact ⟨hL, Apart.refl g c⟩

theorem doGet_layout (hinv : Inv R g) (hL : LayoutIs g c L) :
    LaysOut g c (lookupKey R L (arg cmd 1)).1 (doGet R g c cmd out) := by
  intro g' out' hrun
  rcases bind_eq_ok.mp hrun with ⟨⟨g₁, r⟩, hlook, hrest⟩
  rcases dbLookup_layout hinv hL hlook with ⟨hL₁, _, hap, _, hentry⟩
  have hg : g₁ = g' := by
    cases r with
    | none =>
        simp only [Except.ok.injEq, Prod.mk.injEq] at hrest
        exact hrest.1
    | some e =>
        rcases hentry e rfl with ⟨x, hx⟩
        simp only [entry_eq hx, ok_bind] at hrest
        split at hrest
        · simp only [Except.ok.injEq, Prod.mk.injEq] at hrest
          exact hrest.1
        · simp only [Except.ok.injEq, Prod.mk.injEq] at hrest
          exact hrest.1
  rw [← hg]
  exact ⟨hL₁, hap⟩

theorem doSet_layout (hinv : Inv R g) (hL : LayoutIs g c L) :
    LaysOut g c (ensureKey R L (arg cmd 1)) (doSet R g c cmd out) := by
  intro g' out' hrun
  rcases bind_eq_ok.mp hrun with ⟨⟨g₁, r⟩, hlook, hrest⟩
  rcases dbLookup_layout hinv hL hlook with ⟨hL₁, hfound, hap, hinv₁, hentry⟩
  rw [ensureKey, hfound]
  cases r with
  | none =>
      rcases bind_eq_ok.mp hrest with ⟨g₂, hins, hrest⟩
      rcases create_layout hinv₁.db hL₁ hins with ⟨hL₂, hap₂⟩
      simp only [Except.ok.injEq, Prod.mk.injEq] at hrest
      rw [← hrest.1, Option.isSome_none, if_neg Bool.false_ne_true]
      exact ⟨hL₂, hap.trans hap₂⟩
  | some e =>
      rcases hentry e rfl with ⟨x, hx⟩
      simp only [entry_eq hx, ok_bind] at hrest
      rw [Option.isSome_some, if_pos rfl]
      split at hrest
      · simp only [Except.ok.injEq, Prod.mk.injEq] at hrest
        rw [← hrest.1]
        exact ⟨hL₁, hap⟩
      · simp only [Except.ok.injEq, Prod.mk.injEq] at hrest
        -- assigning the string leaves every key
        rcases write_layout hL₁ (y := { x with str := arg cmd 2 }) hx rfl with ⟨hL₂, hap₂⟩
        rw [← hrest.1]
        exact ⟨hL₂, hap.trans hap₂⟩

theorem doDel_layout (hinv : Inv R g) (hL : LayoutIs g c L) :
    LaysOut g c (deleteKey R L (arg cmd 1)) (doDel R g c cmd out) := by
  intro g' out' hrun
  rcases hL with ⟨conn, hc, rfl⟩
  have hwf := hinv.db.wf c conn hc
  have hans := entryEq_answers hinv.db c (arg cmd 1) (R.strHash (arg cmd 1))
  rw [nodesOf_eq hc] at hans
  rcases hmDelete_spec hwf hans with ⟨db, r, hdelete, _, hp, hr⟩
  have hmap := hmDelete_map hwf (entryEq_respects hinv.db hc (arg cmd 1) (R.strHash (arg cmd 1)))
  rw [hdelete] at hmap
  -- deleting by key in the layout is deleting by key in the table
  have hlayout : deleteKey R (conn.db.map (keyOf g)) (arg cmd 1) = db.map (keyOf g) := by
    rw [deleteKey, hmap]
    rfl
  simp only [doDel, conn_eq hc, ok_bind, hdelete] at hrun
  rw [hlayout]
  cases r with
  | none =>
      simp only [Except.ok.injEq, Prod.mk.injEq] at hrun
      rw [← hrun.1]
      exact ⟨⟨{ conn with db := db }, by rw [setConn_conns, if_pos rfl], rfl⟩, apart_setConn _⟩
  | some n =>
      have hn : n ∈ nodesOf g c := by
        rw [nodesOf_eq hc]
        exact hr.1
      rcases holds_of_hit hinv.db hn hr.2 with ⟨x, hx⟩
      rcases bind_eq_ok.mp hrun with ⟨g₁, hent, hrest⟩
      simp only [Except.ok.injEq, Prod.mk.injEq] at hrest
      rcases entryDel_spec (g := g.setConn c { conn with db := db }) hinv.heap.indexed
        (x := x) hx.entry with ⟨g₂, hent₂, hd⟩ | ⟨f, hent₂, _⟩
      · rw [hent, Except.ok.injEq] at hent₂
        rw [← hrest.1, hent₂]
        rw [← hx.key] at hx
        exact remove_layout hinv.db hc hp hx hd
      · rw [hent] at hent₂
        cases hent₂

theorem doExpire_layout (hinv : Inv R g) (hL : LayoutIs g c L) :
    LaysOut g c (match str2int (arg cmd 2) with
      | none => L
      | some _ => (lookupKey R L (arg cmd 1)).1) (doExpire R g c cmd now out) := by
  unfold doExpire
  cases str2int (arg cmd 2) with
  | none => exact LaysOut.same hL
  | some ttlMs =>
      intro g' out' hrun
      rcases bind_eq_ok.mp hrun with ⟨⟨g₁, r⟩, hlook, hrest⟩
      rcases dbLookup_layout hinv hL hlook with ⟨hL₁, _, hap, hinv₁, hentry⟩
      cases r with
      | none =>
          simp only [Except.ok.injEq, Prod.mk.injEq] at hrest
          rw [← hrest.1]
          exact ⟨hL₁, hap⟩
      | some e =>
          rcases hentry e rfl with ⟨x, hx⟩
          rcases entrySetTtl_spec hinv₁.heap.indexed hx ttlMs now with ⟨heap, refs, hset, _⟩
          simp only [hset, ok_bind, Except.ok.injEq, Prod.mk.injEq] at hrest
          have hap₂ := apart_of_keyOf g₁ { g₁ with heap := heap, heapIdx := refs } c rfl rfl
          rw [← hrest.1]
          exact ⟨hL₁.of_keyOf rfl rfl, hap.trans hap₂⟩

theorem doTtl_layout (hinv : Inv R g) (hL : LayoutIs g c L) :
    LaysOut g c (lookupKey R L (arg cmd 1)).1 (doTtl R g c cmd now out) := by
  intro g' out' hrun
  rcases bind_eq_ok.mp hrun with ⟨⟨g₁, r⟩, hlook, hrest⟩
  rcases dbLookup_layout hinv hL hlook with ⟨hL₁, _, hap, _, hentry⟩
  have hg : g₁ = g' := by
    cases r with
    | none =>
        simp only [Except.ok.injEq, Prod.mk.injEq] at hrest
        exact hrest.1
    | some e =>
        rcases hentry e rfl with ⟨x, hx⟩
        simp only [entry_eq hx, ok_bind] at hrest
        split at hrest
        · simp only [Except.ok.injEq, Prod.mk.injEq] at hrest
          exact hrest.1
        · rcases bind_eq_ok.mp hrest with ⟨d, _, hrest⟩
          simp only [Except.ok.injEq, Prod.mk.injEq] at hrest
          exact hrest.1
  rw [← hg]
  exact ⟨hL₁, hap⟩

theorem doKeys_layout (hinv : Inv R g) (hL : LayoutIs g c L) : LaysOut g c L (doKeys g c out) := by
  have hlive := hL
  rcases hL with ⟨conn, hc, _⟩
  rw [doKeys_spec hinv hc]
  exact LaysOut.same hlive

/-- `zadd` makes the key of a set that is not there. -/
theorem doZadd_layout (hinv : Inv R g) (hL : LayoutIs g c L) :
    LaysOut g c (match str2dbl R (arg cmd 2) with
      | none => L
      | some _ => ensureKey R L (arg cmd 1)) (doZadd R g c cmd out) := by
  unfold doZadd
  cases str2dbl R (arg cmd 2) with
  | none => exact LaysOut.same hL
  | some score =>
      intro g' out' hrun
      rcases bind_eq_ok.mp hrun with ⟨⟨g₁, r⟩, hlook, hrun⟩
      rcases bind_eq_ok.mp hrun with ⟨⟨g₂, ent⟩, htarget, hrun⟩
      rcases dbLookup_layout hinv hL hlook with ⟨hL₁, hfound, hap, hinv₁, _⟩
      have htarget' : LayoutIs g₂ c (ensureKey R L (arg cmd 1)) ∧ Apart g₁ g₂ c := by
        rw [ensureKey, hfound]
        cases r with
        | none =>
            rcases bind_eq_ok.mp htarget with ⟨g₃, hins, htarget⟩
            rcases create_layout hinv₁.db hL₁ hins with ⟨hL₂, hap₂⟩
            simp only [Except.ok.injEq, Prod.mk.injEq] at htarget
            rw [← htarget.1, Option.isSome_none, if_neg Bool.false_ne_true]
            exact ⟨hL₂, hap₂⟩
        | some e =>
            rw [zaddTarget, Except.ok.injEq, Prod.mk.injEq] at htarget
            rw [← htarget.1, Option.isSome_some, if_pos rfl]
            exact ⟨hL₁, Apart.refl g₁ c⟩
      rcases htarget' with ⟨hL₂, hap₂⟩
      rcases bind_eq_ok.mp hrun with ⟨x, hx, hrun⟩
      -- the set is written into the entry, or refused
      split at hrun
      · simp only [Except.ok.injEq, Prod.mk.injEq] at hrun
        rw [← hrun.1]
        exact ⟨hL₂, hap.trans hap₂⟩
      · rcases bind_eq_ok.mp hrun with ⟨⟨z, added⟩, _, hrun⟩
        simp only [Except.ok.injEq, Prod.mk.injEq] at hrun
        rcases write_layout hL₂ (y := { x with zset := z }) (entries_of_entry hx) rfl with
          ⟨hL₃, hap₃⟩
        rw [← hrun.1]
        exact ⟨hL₃, (hap.trans hap₂).trans hap₃⟩

theorem doZrem_layout (hinv : Inv R g) (hL : LayoutIs g c L) :
    LaysOut g c (lookupKey R L (arg cmd 1)).1 (doZrem R g c cmd out) := by
  intro g' out' hrun
  rcases bind_eq_ok.mp hrun with ⟨⟨g₁, zref⟩, hexp, hrun⟩
  rcases expectZset_layout hinv hL hexp with ⟨hL₁, hap⟩
  cases zref with
  | none =>
      simp only [Except.ok.injEq, Prod.mk.injEq] at hrun
      rw [← hrun.1]
      exact ⟨hL₁, hap⟩
  | some ref =>
      rcases bind_eq_ok.mp hrun with ⟨z, _, hrun⟩
      rcases bind_eq_ok.mp hrun with ⟨⟨z₁, node⟩, _, hrun⟩
      cases node with
      | none =>
          rcases bind_eq_ok.mp hrun with ⟨g₂, hset, hrun⟩
          simp only [Except.ok.injEq, Prod.mk.injEq] at hrun
          rcases setZset_layout hL₁ hset with ⟨hL₂, hap₂⟩
          rw [← hrun.1]
          exact ⟨hL₂, hap.trans hap₂⟩
      | some a =>
          rcases bind_eq_ok.mp hrun with ⟨z₂, _, hrun⟩
          rcases bind_eq_ok.mp hrun with ⟨g₂, hset, hrun⟩
          simp only [Except.ok.injEq, Prod.mk.injEq] at hrun
          rcases setZset_layout hL₁ hset with ⟨hL₂, hap₂⟩
          rw [← hrun.1]
          exact ⟨hL₂, hap.trans hap₂⟩

theorem doZscore_layout (hinv : Inv R g) (hL : LayoutIs g c L) :
    LaysOut g c (lookupKey R L (arg cmd 1)).1 (doZscore R g c cmd out) := by
  intro g' out' hrun
  rcases bind_eq_ok.mp hrun with ⟨⟨g₁, zref⟩, hexp, hrun⟩
  rcases expectZset_layout hinv hL hexp with ⟨hL₁, hap⟩
  cases zref with
  | none =>
      simp only [Except.ok.injEq, Prod.mk.injEq] at hrun
      rw [← hrun.1]
      exact ⟨hL₁, hap⟩
  | some ref =>
      rcases bind_eq_ok.mp hrun with ⟨z, _, hrun⟩
      rcases bind_eq_ok.mp hrun with ⟨⟨z₁, node⟩, _, hrun⟩
      rcases bind_eq_ok.mp hrun with ⟨g₂, hset, hrun⟩
      rcases setZset_layout hL₁ hset with ⟨hL₂, hap₂⟩
      have hg : g₂ = g' := by
        cases node with
        | none =>
            simp only [Except.ok.injEq, Prod.mk.injEq] at hrun
            exact hrun.1
        | some a =>
            rcases bind_eq_ok.mp hrun with ⟨n, _, hrun⟩
            simp only [Except.ok.injEq, Prod.mk.injEq] at hrun
            exact hrun.1
      rw [← hg]
      exact ⟨hL₂, hap.trans hap₂⟩

theorem doZquery_layout (hinv : Inv R g) (hL : LayoutIs g c L) :
    LaysOut g c (match str2dbl R (arg cmd 2), str2int (arg cmd 4), str2int (arg cmd 5) with
      | some _, some _, some _ => (lookupKey R L (arg cmd 1)).1
      | _, _, _ => L) (doZquery R g c cmd out) := by
  unfold doZquery
  cases str2dbl R (arg cmd 2) with
  | none => exact LaysOut.same hL
  | some score =>
      cases str2int (arg cmd 4) with
      | none => exact LaysOut.same hL
      | some offset =>
          cases str2int (arg cmd 5) with
          | none => exact LaysOut.same hL
          | some limit =>
              intro g' out' hrun
              rcases bind_eq_ok.mp hrun with ⟨⟨g₁, zref⟩, hexp, hrun⟩
              rcases expectZset_layout hinv hL hexp with ⟨hL₁, hap⟩
              have hg : g₁ = g' := by
                cases zref with
                | none =>
                    simp only [Except.ok.injEq, Prod.mk.injEq] at hrun
                    exact hrun.1
                | some ref =>
                    dsimp only at hrun
                    split at hrun
                    · simp only [Except.ok.injEq, Prod.mk.injEq] at hrun
                      exact hrun.1
                    · -- the walk only reads
                      rcases bind_eq_ok.mp hrun with ⟨_, _, hrun⟩
                      rcases bind_eq_ok.mp hrun with ⟨_, _, hrun⟩
                      rcases bind_eq_ok.mp hrun with ⟨_, _, hrun⟩
                      rcases bind_eq_ok.mp hrun with ⟨_, _, hrun⟩
                      rcases bind_eq_ok.mp hrun with ⟨_, _, hrun⟩
                      simp only [Except.ok.injEq, Prod.mk.injEq] at hrun
                      exact hrun.1
              rw [← hg]
              exact ⟨hL₁, hap⟩

end

/-- A command on a connection changes the layout of its table as
    `requestLayout` says, and leaves the other connections alone. -/
theorem doRequest_layout (hinv : Inv R g) (hL : LayoutIs g c L) (cmd : List Bytes) (now : Nat)
    (out : Bytes) : LaysOut g c (requestLayout R L cmd) (doRequest R g c cmd now out) := by
  unfold requestLayout doRequest
  refine ite_both (doGet_layout hinv hL) (ite_both (doSet_layout hinv hL) (ite_both
    (doDel_layout hinv hL) (ite_both (doExpire_layout hinv hL) (ite_both (doTtl_layout hinv hL)
      (ite_both (doKeys_layout hinv hL) (ite_both (doZadd_layout hinv hL) (ite_both
        (doZrem_layout hinv hL) (ite_both (doZscore_layout hinv hL) (ite_both
          (doZquery_layout hinv hL) ?_)))))))))
  -- the other answers change nothing
  split
  · exact LaysOut.same hL
  · exact LaysOut.same hL

/-! ## Sweeps -/

/-- One turn of the TTL loop, seen in the layout of the connection it is
    about. -/
theorem Expiry.layout {now c₀ e d : Nat} (h : Expiry now g g' c₀ e d) (hinv : Inv R g) {x : Entry}
    (hx : Holds g c₀ x.key e x) :
    (∀ L, LayoutIs g c₀ L → LayoutIs g' c₀ (deleteKey R L x.key)) ∧ Apart g g' c₀ := by
  rcases h.turn with ⟨conn, db, n, y, hc, hy, hdelete, rfl, _, hp, hdel⟩
  have hxy := (holds_unique hinv.db hx hy).2.2
  rw [← hxy] at hdelete hy
  have hremove := remove_layout hinv.db hc hp hx hdel
  refine ⟨?_, hremove.2⟩
  rintro L ⟨conn', hc', rfl⟩
  rw [hc, Option.some.injEq] at hc'
  rw [← hc']
  -- the stored hash code is that of the key
  have hcode : x.hcode = R.strHash x.key := by
    rcases hx.stored with ⟨m, hm, hmn⟩
    rcases hinv.db.entry c₀ m hm with ⟨z, hz, hzm, hhash, _⟩
    rw [hmn, hx.entry, Option.some.injEq] at hz
    rw [hz, hzm, hhash]
  -- The node with this entry is the node with this key.
  have hres : Respects (keyOf g) x.hcode (hnodeSame n.payload) (keyEq x.key) conn.db.nodes := by
    intro m hm _
    rw [← nodesOf_eq hc] at hm
    rcases hinv.db.entry c₀ m hm with ⟨z, hz, _⟩
    have hiff : (keyOf g m.payload == x.key) = decide (m.payload = n.payload) := by
      rw [keyOf, hz, Bool.beq_eq_decide_eq, decide_eq_decide]
      constructor
      · intro hkey
        exact hinv.db.keys c₀ x.key _ z _ x ⟨⟨m, hm, rfl⟩, hz, hkey⟩ hx
      · intro heq
        rw [heq, hx.entry, Option.some.injEq] at hz
        rw [hz]
    rw [keyEq, hnodeSame, hiff]
  have hmap := hmDelete_map (hinv.db.wf c₀ conn hc) hres
  rw [hdelete, hcode] at hmap
  have hlayout : deleteKey R (conn.db.map (keyOf g)) x.key = db.map (keyOf g) := by
    rw [deleteKey, hmap]
    rfl
  rw [hlayout]
  exact hremove.1

/-- A run of turns deletes keys of the connection one after the other, by
    their deadlines, all of which have passed, and keeps the others. It starts
    with the key at the root of the heap, if that is one of them. -/
theorem Swept.layout {now : Nat} {es : List (Nat × Nat × Nat)} {K : Keyspace}
    (h : Swept now g es g') (hinv : Inv R g) (hK : Views g K) (hL : LayoutIs g c L) :
    ∃ ks : List (Bytes × Nat), LayoutIs g' c (deleteKeys R L (ks.map Prod.fst)) ∧
      ks.Pairwise (fun a b => a.1 ≠ b.1 ∧ a.2 ≤ b.2) ∧
      (∀ a ∈ ks, a.2 < now ∧ ∃ x, K c a.1 = some (x, some a.2)) ∧
      (∀ K', Views g' K' → ∀ k, k ∉ ks.map Prod.fst → K' c k = K c k) ∧
      ∀ d e, g.heap.head? = some ⟨d, some e⟩ → Stored g c e →
        ∀ a ∈ ks.head?, a.1 = keyOf g e := by
  induction h generalizing K L with
  | refl g =>
      refine ⟨[], hL, List.Pairwise.nil, fun a ha => absurd ha List.not_mem_nil,
        fun K' hK' k _ => ?_, fun _ _ _ _ a ha => ?_⟩
      · rw [hK'.unique hK]
      · exact absurd ha (by simp only [List.head?_nil, Option.mem_def, reduceCtorEq,
          not_false_eq_true])
  | step hexp _ ih =>
      rename_i g₀ g₁ g₂ c₀ e d _ _
      rcases hexp.moved hinv hK with ⟨x, hx, hhold, hm⟩
      rcases hexp.layout hinv hhold with ⟨hlayout, hap⟩
      -- The entry at the root is the one this turn removes.
      have hroot : ∀ d' e', g₀.heap.head? = some ⟨d', some e'⟩ → e' = e := by
        intro d' e' hhead
        rw [hexp.root, Option.some.injEq, HeapItem.mk.injEq, Option.some.injEq] at hhead
        exact hhead.2.symm
      -- a turn on another connection leaves the layout alone
      by_cases hcc : c = c₀
      · subst hcc
        rcases ih hm.inv hm.views (hlayout L hL) with ⟨ks, hL', hsorted, hdue, hrest, _⟩
        -- What is deleted later is another key, and was in the keyspace before.
        have hlater : ∀ b ∈ ks, b.1 ≠ x.key ∧ ∃ y, K c b.1 = some (y, some b.2) := by
          intro b hb
          rcases (hdue b hb).2 with ⟨y, hy⟩
          have hne : b.1 ≠ x.key := by
            intro heq
            rw [heq, Keyspace.set_same] at hy
            cases hy
          rw [Keyspace.set_other K none fun h => hne h.2] at hy
          exact ⟨hne, y, hy⟩
        refine ⟨(x.key, d) :: ks, hL', List.Pairwise.cons (fun b hb => ⟨?_, ?_⟩) hsorted, ?_, ?_,
          fun d' e' hhead _ a ha => ?_⟩
        · exact fun heq => (hlater b hb).1 heq.symm
        · rcases (hlater b hb).2 with ⟨y, hy⟩
          rcases (hK c b.1 y (some b.2)).mp hy with ⟨s, _, hs⟩
          exact hexp.first s b.2 hs
        · intro a ha
          rcases List.mem_cons.mp ha with rfl | ha
          · exact ⟨hexp.late, x, hx⟩
          · exact ⟨(hdue a ha).1, (hlater a ha).2⟩
        · intro K' hK' k hk
          rw [List.map_cons, List.mem_cons, not_or] at hk
          rw [hrest K' hK' k hk.2, Keyspace.set_other K none fun h => hk.1 h.2]
        · rw [List.head?_cons, Option.mem_def, Option.some.injEq] at ha
          rw [hroot d' e' hhead, ← ha, keyOf, hhold.entry]
      · rcases ih hm.inv hm.views (hap.layout hcc hL) with ⟨ks, hL', hsorted, hdue, hrest, _⟩
        have hset : ∀ k, K.set c₀ x.key none c k = K c k :=
          fun k => Keyspace.set_other K none fun h => hcc h.1
        refine ⟨ks, hL', hsorted, fun a ha => ?_, fun K' hK' k hk => ?_, fun d' e' hhead hs => ?_⟩
        · rw [← hset]
          exact hdue a ha
        · rw [hrest K' hK' k hk, hset]
        · rw [hroot d' e' hhead] at hs
          rcases hinv.db.stored hs with ⟨y, hy, _⟩
          exact absurd (holds_unique hinv.db hy hhold).1 hcc

end

end RedisServer
