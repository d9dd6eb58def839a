import RedisServer.Core.Server
import RedisServer.Theory.Hashtable.Map
import RedisServer.Theory.Heap.Index
import RedisServer.Theory.IdleList

/-!
# The Server's Invariant

What holds between two steps of the server, in three parts that different
steps maintain: the tables and the entries they hold, the heap of deadlines,
and the connections with their idle list.

An entry is reached from the table of one connection. Its node carries the
hash of its key, its owner is that connection, and no two entries of one
connection have one key. Entries are only ever compared through keys, so the
keyspace of all clients is a function of connection and key, and `Views` says
which function a state stands for. The commands are described by what they do
to that function.

## Main definitions

* `nodesOf`, `Stored`, `Holds`: What a connection's table holds.
* `DbInv`, `HeapInv`, `LoopInv`: The three parts of the invariant.
* `SameLoop`: The connections, apart from their tables, did not change.
* `Keyspace`, `Views`: The function a state stands for.
* `SameData`, `Rehashed`: Tables changed their layout and nothing else.

## Theorems

* `holds_unique`: An entry has one place.
* `exists_views`: Every state of the invariant stands for a keyspace.
* `SameData.dbInv`, `SameData.views`: A change of layout is invisible.
* `dbLookup_spec`: The lookup every command starts with.
-/

namespace RedisServer

open Lib

/-- What the table of a connection holds. A freed connection holds nothing. -/
def nodesOf (g : GData) (c : Nat) : List (HNode Nat) :=
  match g.conns c with
  | none => []
  | some conn => conn.db.nodes

/-- The entry is in the table of the connection. -/
def Stored (g : GData) (c e : Nat) : Prop := ∃ n ∈ nodesOf g c, n.payload = e

/-- The connection's table holds the entry `e`, whose record is `x`, under the
    key `k`. -/
structure Holds (g : GData) (c : Nat) (k : Bytes) (e : Nat) (x : Entry) : Prop where
  stored : Stored g c e
  entry : g.entries e = some x
  key : x.key = k

/-- The tables and their entries. -/
structure DbInv (R : Runtime) (g : GData) : Prop where
  wf : ∀ c conn, g.conns c = some conn → conn.db.Wf
  distinct : ∀ c, ((nodesOf g c).map HNode.payload).Nodup
  entry : ∀ c, ∀ n ∈ nodesOf g c, ∃ x, g.entries n.payload = some x ∧ x.hcode = n.hcode ∧
    n.hcode = R.strHash x.key ∧ x.ownerConn = some c
  keys : ∀ c k e x e' x', Holds g c k e x → Holds g c k e' x' → e = e'
  fresh : ∀ e, g.nextEntry ≤ e → g.entries e = none

/-- The heap: an index, whose variables belong to stored entries. The entries
    in `P` are excepted: they were left behind by connections that were
    destroyed while they had deadlines. -/
structure HeapInv (g : GData) (P : Nat → Prop := fun _ => False) : Prop where
  indexed : Indexed g.heap g.heapIdx
  owned : ∀ e i, g.heapIdx e = some i → (∃ c, Stored g c e) ∨ P e
  orphan : ∀ e, P e → ∃ x c, g.entries e = some x ∧ x.ownerConn = some c ∧ g.conns c = none ∧
    c < g.nextConn

/-- The connections: the idle list links the live ones. -/
structure LoopInv (g : GData) : Prop where
  ring : ∃ l, IdleRing g.idleList l ∧ ∀ c, c ∈ l ↔ ∃ conn, g.conns c = some conn
  fresh : ∀ c, g.nextConn ≤ c → g.conns c = none

/-- A connection without its table. -/
def Conn.io (x : Conn) : Conn := { x with db := {} }

/-- Nothing changed about the connections but their tables. -/
structure SameLoop (g g' : GData) : Prop where
  idleList : g'.idleList = g.idleList
  fd2conn : g'.fd2conn = g.fd2conn
  nextConn : g'.nextConn = g.nextConn
  io : ∀ c, (g'.conns c).map Conn.io = (g.conns c).map Conn.io

/-- The deadline of an entry. -/
def due (g : GData) (e : Nat) : Option Nat := deadline g.heap g.heapIdx e

/-- The keyspaces of all connections: the record of a key and its deadline. -/
abbrev Keyspace := Nat → Bytes → Option (Entry × Option Nat)

/-- The keyspace a state stands for. -/
def Views (g : GData) (K : Keyspace) : Prop :=
  ∀ c k x d, K c k = some (x, d) ↔ ∃ e, Holds g c k e x ∧ due g e = d

namespace SameLoop

theorem refl (g : GData) : SameLoop g g := ⟨rfl, rfl, rfl, fun _ => rfl⟩

theorem trans {g g' g'' : GData} (h : SameLoop g g') (h' : SameLoop g' g'') : SameLoop g g'' where
  idleList := h'.idleList.trans h.idleList
  fd2conn := h'.fd2conn.trans h.fd2conn
  nextConn := h'.nextConn.trans h.nextConn
  io := fun c => (h'.io c).trans (h.io c)

theorem live {g g' : GData} (h : SameLoop g g') (c : Nat) :
    (∃ conn, g'.conns c = some conn) ↔ ∃ conn, g.conns c = some conn := by
  have hio := congrArg Option.isSome (h.io c)
  rw [Option.isSome_map, Option.isSome_map] at hio
  rw [← Option.isSome_iff_exists, hio, Option.isSome_iff_exists]

/-- A connection that is gone stays gone. -/
theorem dead {g g' : GData} (h : SameLoop g g') (c : Nat) (hc : g.conns c = none)
    (hlt : c < g.nextConn) : g'.conns c = none ∧ c < g'.nextConn := by
  have hio := h.io c
  rw [hc, Option.map_none, Option.map_eq_none_iff] at hio
  exact ⟨hio, by rw [h.nextConn]; exact hlt⟩

theorem loopInv {g g' : GData} (h : SameLoop g g') (hinv : LoopInv g) : LoopInv g' where
  ring := by
    rcases hinv.ring with ⟨l, hl, hmem⟩
    refine ⟨l, by rw [h.idleList]; exact hl, fun c => ?_⟩
    rw [hmem c, h.live c]
  fresh := by
    intro c hc
    rw [h.nextConn] at hc
    have hio := h.io c
    rw [hinv.fresh c hc, Option.map_none, Option.map_eq_none_iff] at hio
    exact hio

end SameLoop

section

variable {R : Runtime} {g g' : GData} {P : Nat → Prop}

/-- Without exceptions, every variable of the heap belongs to a stored
    entry. -/
theorem HeapInv.stored (h : HeapInv g) {e i : Nat} (hi : g.heapIdx e = some i) :
    ∃ c, Stored g c e := (h.owned e i hi).resolve_right id

theorem conn_eq {c : Nat} {conn : Conn} (h : g.conns c = some conn) : g.conn c = .ok conn := by
  rw [GData.conn, h]

theorem conns_of_conn {c : Nat} {conn : Conn} (h : g.conn c = .ok conn) : g.conns c = some conn := by
  rw [GData.conn] at h
  cases hc : g.conns c with
  | none =>
      rw [hc] at h
      cases h
  | some x =>
      rw [hc, Except.ok.injEq] at h
      rw [h]

theorem entries_of_entry {e : Nat} {x : Entry} (h : g.entry e = .ok x) : g.entries e = some x := by
  rw [GData.entry] at h
  cases hx : g.entries e with
  | none =>
      rw [hx] at h
      cases h
  | some y =>
      rw [hx, Except.ok.injEq] at h
      rw [h]

theorem nodesOf_eq {c : Nat} {conn : Conn} (h : g.conns c = some conn) :
    nodesOf g c = conn.db.nodes := by
  rw [nodesOf, h]

theorem conns_of_stored {c e : Nat} (h : Stored g c e) : ∃ conn, g.conns c = some conn := by
  rcases h with ⟨n, hn, _⟩
  cases hc : g.conns c with
  | none =>
      rw [nodesOf, hc] at hn
      exact absurd hn List.not_mem_nil
  | some conn => exact ⟨conn, rfl⟩

/-- A stored entry has a record, and its owner is where it is stored. -/
theorem DbInv.stored (h : DbInv R g) {c e : Nat} (hs : Stored g c e) :
    ∃ x, Holds g c x.key e x ∧ x.ownerConn = some c := by
  rcases hs with ⟨n, hn, rfl⟩
  rcases h.entry c n hn with ⟨x, hx, _, _, hown⟩
  exact ⟨x, ⟨⟨n, hn, rfl⟩, hx, rfl⟩, hown⟩

theorem DbInv.owner (h : DbInv R g) {c e : Nat} {x : Entry} (hs : Stored g c e)
    (hx : g.entries e = some x) : x.ownerConn = some c := by
  rcases h.stored hs with ⟨x', hx', hown⟩
  have := hx'.entry
  rw [hx, Option.some.injEq] at this
  rw [this]
  exact hown

/-- An entry has one place: one connection, one key and one record. -/
theorem holds_unique (h : DbInv R g) {c c' e : Nat} {k k' : Bytes} {x x' : Entry}
    (hx : Holds g c k e x) (hx' : Holds g c' k' e x') : c = c' ∧ k = k' ∧ x = x' := by
  have heq := hx.entry
  rw [hx'.entry, Option.some.injEq] at heq
  have ho := h.owner hx.stored hx.entry
  have ho' := h.owner hx'.stored hx'.entry
  rw [heq, ho, Option.some.injEq] at ho'
  exact ⟨ho', by rw [← hx.key, ← hx'.key, heq], heq.symm⟩

/-- Every state of the invariant stands for a keyspace. -/
theorem exists_views (h : DbInv R g) : ∃ K, Views g K := by
  classical
  refine ⟨fun c k => if hex : ∃ e x, Holds g c k e x then
    some (hex.choose_spec.choose, due g hex.choose) else none, fun c k x d => ?_⟩
  by_cases hex : ∃ e x, Holds g c k e x
  · simp only [dif_pos hex, Option.some.injEq, Prod.mk.injEq]
    have hsel := hex.choose_spec.choose_spec
    constructor
    · rintro ⟨rfl, rfl⟩
      exact ⟨_, hsel, rfl⟩
    · rintro ⟨e, he, rfl⟩
      have hee := h.keys c k _ _ _ _ hsel he
      rw [← hee] at he ⊢
      exact ⟨(holds_unique h hsel he).2.2, rfl⟩
  · simp only [dif_neg hex]
    constructor
    · intro hc
      cases hc
    · rintro ⟨e, he, _⟩
      exact absurd ⟨e, x, he⟩ hex

/-- A keyspace has no key the table does not hold. -/
theorem Views.eq_none {K : Keyspace} (hK : Views g K) {c : Nat} {k : Bytes}
    (h : ∀ e x, ¬ Holds g c k e x) : K c k = none := by
  cases hv : K c k with
  | none => rfl
  | some v =>
      rcases (hK c k v.1 v.2).mp hv with ⟨e, he, _⟩
      exact absurd he (h e v.1)

theorem Views.eq_some {K : Keyspace} (hK : Views g K) {c e : Nat} {k : Bytes} {x : Entry}
    (h : Holds g c k e x) : K c k = some (x, due g e) := (hK c k x (due g e)).mpr ⟨e, h, rfl⟩

theorem Views.unique {K K' : Keyspace} (hK : Views g K) (hK' : Views g K') : K = K' := by
  funext c k
  refine Option.ext fun v => ?_
  exact (hK c k v.1 v.2).trans (hK' c k v.1 v.2).symm

/-- Two states whose tables hold the same entries, with the same records and
    deadlines, stand for one keyspace. -/
theorem Views.congr {K : Keyspace} (hK : Views g K)
    (hholds : ∀ c k e x, Holds g' c k e x ↔ Holds g c k e x) (hdue : ∀ e, due g' e = due g e) :
    Views g' K := by
  intro c k x d
  rw [hK c k x d]
  constructor
  · rintro ⟨e, he, rfl⟩
    exact ⟨e, (hholds c k e x).mpr he, hdue e⟩
  · rintro ⟨e, he, rfl⟩
    exact ⟨e, (hholds c k e x).mp he, (hdue e).symm⟩

/-! ## A change of layout -/

/-- The tables hold the same entries, perhaps in another layout, and neither
    the entries nor the heap changed. -/
structure SameData (g g' : GData) : Prop where
  wf : ∀ c conn, g'.conns c = some conn → conn.db.Wf
  nodes : ∀ c, (nodesOf g' c).Perm (nodesOf g c)
  entries : g'.entries = g.entries
  nextEntry : g'.nextEntry = g.nextEntry
  heap : g'.heap = g.heap
  heapIdx : g'.heapIdx = g.heapIdx

/-- The tables changed their layout and nothing else changed. -/
structure Rehashed (g g' : GData) : Prop extends SameData g g' where
  loop : SameLoop g g'
  queue : g'.queue = g.queue
  emptyZset : g'.emptyZset = g.emptyZset

namespace SameData

theorem stored (h : SameData g g') (c e : Nat) : Stored g' c e ↔ Stored g c e := by
  constructor
  · rintro ⟨n, hn, rfl⟩
    exact ⟨n, (h.nodes c).mem_iff.mp hn, rfl⟩
  · rintro ⟨n, hn, rfl⟩
    exact ⟨n, (h.nodes c).mem_iff.mpr hn, rfl⟩

theorem holds (h : SameData g g') (c : Nat) (k : Bytes) (e : Nat) (x : Entry) :
    Holds g' c k e x ↔ Holds g c k e x := by
  constructor
  · intro hx
    exact ⟨(h.stored c e).mp hx.stored, by rw [← h.entries]; exact hx.entry, hx.key⟩
  · intro hx
    exact ⟨(h.stored c e).mpr hx.stored, by rw [h.entries]; exact hx.entry, hx.key⟩

theorem dbInv (h : SameData g g') (hinv : DbInv R g) : DbInv R g' where
  wf := h.wf
  distinct := fun c => ((h.nodes c).map HNode.payload).nodup_iff.mpr (hinv.distinct c)
  entry := by
    intro c n hn
    rw [h.entries]
    exact hinv.entry c n ((h.nodes c).mem_iff.mp hn)
  keys := fun c k e x e' x' hx hx' =>
    hinv.keys c k e x e' x' ((h.holds c k e x).mp hx) ((h.holds c k e' x').mp hx')
  fresh := by
    rw [h.entries, h.nextEntry]
    exact hinv.fresh

theorem heapInv (h : SameData g g') (hinv : HeapInv g P)
    (hdead : ∀ c, g.conns c = none → c < g.nextConn → g'.conns c = none ∧ c < g'.nextConn) :
    HeapInv g' P where
  indexed := by
    rw [h.heap, h.heapIdx]
    exact hinv.indexed
  owned := by
    intro e i hi
    rw [h.heapIdx] at hi
    exact (hinv.owned e i hi).imp_left fun hs => hs.imp fun c hc => (h.stored c e).mpr hc
  orphan := by
    intro e he
    rcases hinv.orphan e he with ⟨x, c, hx, hown, hc, hlt⟩
    exact ⟨x, c, by rw [h.entries]; exact hx, hown, hdead c hc hlt⟩

theorem due (h : SameData g g') (e : Nat) : due g' e = due g e := by
  rw [RedisServer.due, RedisServer.due, h.heap, h.heapIdx]

theorem views {K : Keyspace} (h : SameData g g') (hK : Views g K) : Views g' K :=
  hK.congr h.holds h.due

end SameData

theorem setConn_conns (c c' : Nat) (x : Conn) :
    (g.setConn c x).conns c' = if c' = c then some x else g.conns c' := by
  rw [GData.setConn]
  simp only [Function.update_apply]

theorem setEntry_other {e s : Nat} (h : e ≠ s) (x : Entry) :
    (g.setEntry s x).entries e = g.entries e := Function.update_of_ne h _ _

theorem entryNew_other {e : Nat} (h : e ≠ g.nextEntry) (type : ValueType) (c : Nat) (key : Bytes)
    (hcode : Nat) (str : Bytes) : (entryNew g type c key hcode str).1.entries e = g.entries e :=
  Function.update_of_ne h _ _

theorem nodesOf_setConn (c c' : Nat) (x : Conn) :
    nodesOf (g.setConn c x) c' = if c' = c then x.db.nodes else nodesOf g c' := by
  rw [nodesOf, setConn_conns]
  by_cases h : c' = c
  · rw [if_pos h, if_pos h]
  · rw [if_neg h, if_neg h, nodesOf]

/-- Replacing a table changes no connection. -/
theorem setDb_sameLoop {c : Nat} {conn : Conn} (hc : g.conns c = some conn) (db : HMap Nat) :
    SameLoop g (g.setConn c { conn with db := db }) where
  idleList := rfl
  fd2conn := rfl
  nextConn := rfl
  io := by
    intro c'
    rw [setConn_conns]
    by_cases h : c' = c
    · rw [if_pos h, h, hc]
      rfl
    · rw [if_neg h]

/-- A table with the same contents in another layout. -/
theorem setDb_rehashed (h : DbInv R g) {c : Nat} {conn : Conn} (hc : g.conns c = some conn)
    {db : HMap Nat} (hwf : db.Wf) (hp : db.nodes.Perm conn.db.nodes) :
    Rehashed g (g.setConn c { conn with db := db }) where
  loop := setDb_sameLoop hc db
  wf := by
    intro c' conn' hc'
    rw [setConn_conns] at hc'
    by_cases hcc : c' = c
    · rw [if_pos hcc, Option.some.injEq] at hc'
      rw [← hc']
      exact hwf
    · rw [if_neg hcc] at hc'
      exact h.wf c' conn' hc'
  nodes := by
    intro c'
    rw [nodesOf_setConn]
    by_cases hcc : c' = c
    · rw [if_pos hcc, hcc, nodesOf_eq hc]
      exact hp
    · rw [if_neg hcc]
  entries := rfl
  nextEntry := rfl
  heap := rfl
  heapIdx := rfl
  queue := rfl
  emptyZset := rfl

/-! ## Lookups -/

/-- What `entry_eq` answers: the entry has this key. -/
def keyIs (g : GData) (key : Bytes) (e : Nat) : Bool :=
  match g.entries e with
  | none => false
  | some x => x.key == key

theorem entryEq_answers (h : DbInv R g) (c : Nat) (key : Bytes) (hcode : Nat) :
    Answers (entryEq g key) (keyIs g key) hcode (nodesOf g c) := by
  intro n hn _
  rcases h.entry c n hn with ⟨x, hx, _⟩
  simp only [entryEq, GData.entry, hx, ok_bind, keyIs]

/-- A node that answers a key holds that key. -/
theorem holds_of_hit (h : DbInv R g) {c : Nat} {key : Bytes} {n : HNode Nat}
    (hn : n ∈ nodesOf g c) (hit : Hit (R.strHash key) (keyIs g key) n) :
    ∃ x, Holds g c key n.payload x := by
  rcases h.entry c n hn with ⟨x, hx, _⟩
  have hk := hit.2
  simp only [keyIs, hx, beq_iff_eq] at hk
  exact ⟨x, ⟨n, hn, rfl⟩, hx, hk⟩

/-- A node that holds a key answers it. -/
theorem hit_of_holds (h : DbInv R g) {c : Nat} {key : Bytes} {n : HNode Nat} {x : Entry}
    (hn : n ∈ nodesOf g c) (hx : Holds g c key n.payload x) :
    Hit (R.strHash key) (keyIs g key) n := by
  rcases h.entry c n hn with ⟨y, hy, _, hhash, _⟩
  have hxy := hx.entry
  rw [hy, Option.some.injEq] at hxy
  refine ⟨?_, ?_⟩
  · rw [hhash, hxy, hx.key]
  · simp only [keyIs, hy, hxy, hx.key, beq_self_eq_true]

/-- What the lookup of a key may answer. -/
def KeyFound (g : GData) (c : Nat) (key : Bytes) : Option Nat → Prop
  | none => ∀ e x, ¬ Holds g c key e x
  | some e => ∃ x, Holds g c key e x

theorem keyFound_of_found (h : DbInv R g) {c : Nat} {key : Bytes} {r : Option (HNode Nat)}
    (hr : Found (nodesOf g c) (R.strHash key) (keyIs g key) r) :
    KeyFound g c key (r.map HNode.payload) := by
  cases r with
  | none =>
      intro e x hx
      rcases hx.stored with ⟨n, hn, hne⟩
      rw [← hne] at hx
      exact hr n hn (hit_of_holds h hn hx)
  | some n => exact holds_of_hit h hr.1 hr.2

/-- The lookup of a key changes the layout of one table and finds the entry
    with that key, or there is none. -/
theorem dbLookup_spec (h : DbInv R g) {c : Nat} {conn : Conn} (hc : g.conns c = some conn)
    (key : Bytes) :
    ∃ g' r, dbLookup R g c key = .ok (g', r) ∧ Rehashed g g' ∧ KeyFound g c key r := by
  have hans := entryEq_answers h c key (R.strHash key)
  rw [nodesOf_eq hc] at hans
  rcases hmLookup_spec (h.wf c conn hc) hans with ⟨db, r, hlook, hwf, hp, hr⟩
  refine ⟨g.setConn c { conn with db := db }, r.map HNode.payload, ?_,
    setDb_rehashed h hc hwf hp, ?_⟩
  · simp only [dbLookup, GData.conn, hc, ok_bind, hlook]
  · rw [← nodesOf_eq hc] at hr
    exact keyFound_of_found h hr

end

end RedisServer
