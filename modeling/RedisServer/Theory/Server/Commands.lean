import RedisServer.Core.Commands
import RedisServer.Theory.Server.Moves

/-!
# What the Commands Do

Each command as a step on the keyspace: the reply is read off the keyspace
before it, and the keyspace after it differs at the command's key at most.

The sorted-set commands call into `zset.cpp`, which this module does not look
into: a command returns when that call does, and then it changed the `zset`
member of one record.

## Main definitions

* `Moved`: A step from one keyspace to another that keeps the invariant.
* `keysOf`: The keys of a connection, in the order of its table.

## Theorems

* `doGet_spec`, `doSet_spec`, `doDel_spec`, `doExpire_spec`, `doTtl_spec`,
  `doKeys_spec`: Keys and strings.
* `doZadd_spec`, `doZrem_spec`, `doZscore_spec`, `doZquery_spec`: Sorted sets.
-/

namespace RedisServer

open Lib

/-- The invariant between two steps of the server, but for the entries in `P`
    that destroyed connections left in the heap. -/
structure Inv (R : Runtime) (g : GData) (P : Nat → Prop := fun _ => False) : Prop where
  db : DbInv R g
  heap : HeapInv g P
  loop : LoopInv g

/-- A step keeps the invariant, the connections and, at most, turns one
    keyspace into another. -/
structure Moved (R : Runtime) (g g' : GData) (K K' : Keyspace)
    (P : Nat → Prop := fun _ => False) : Prop where
  same : SameLoop g g'
  inv : Inv R g' P
  views : Views g' K'

section

variable {R : Runtime} {g g' : GData} {K : Keyspace} {P : Nat → Prop}

theorem Moved.refl (h : Inv R g P) (hK : Views g K) : Moved R g g K K P :=
  ⟨SameLoop.refl g, h, hK⟩

theorem Moved.trans {g'' : GData} {K' K'' : Keyspace} (h : Moved R g g' K K' P)
    (h' : Moved R g' g'' K' K'' P) : Moved R g g'' K K'' P :=
  ⟨h.same.trans h'.same, h'.inv, h'.views⟩

theorem Rehashed.inv (h : Rehashed g g') (hinv : Inv R g P) : Inv R g' P :=
  ⟨h.dbInv hinv.db, h.heapInv hinv.heap h.loop.dead, h.loop.loopInv hinv.loop⟩

theorem Rehashed.moved (h : Rehashed g g') (hinv : Inv R g P) (hK : Views g K) : Moved R g g' K K P :=
  ⟨h.loop, h.inv hinv, h.views hK⟩

/-- The connection a command runs on is still there after a lookup. -/
theorem Rehashed.conn (h : Rehashed g g') {c : Nat} {conn : Conn} (hc : g.conns c = some conn) :
    ∃ conn', g'.conns c = some conn' := (h.loop.live c).mpr ⟨conn, hc⟩

/-- What a lookup found, in terms of the keyspace. -/
theorem KeyFound.none_eq (hK : Views g K) {c : Nat} {k : Bytes} (h : KeyFound g c k none) :
    K c k = none := hK.eq_none h

theorem entry_eq {e : Nat} {x : Entry} (h : g.entries e = some x) : g.entry e = .ok x := by
  rw [GData.entry, h]

/-! ## Strings -/

/-- The reply of `get`. -/
def getReply (out : Bytes) : Option (Entry × Option Nat) → Bytes
  | none => outNil out
  | some (x, _) =>
    if x.type ≠ .str then outErr out errBadTyp (ascii "not a string value") else outStr out x.str

theorem doGet_spec (hinv : Inv R g P) (hK : Views g K) {c : Nat} {conn : Conn}
    (hc : g.conns c = some conn) (cmd : List Bytes) (out : Bytes) :
    ∃ g', doGet R g c cmd out = .ok (g', getReply out (K c (arg cmd 1))) ∧ Moved R g g' K K P := by
  rcases dbLookup_spec hinv.db hc (arg cmd 1) with ⟨g', r, hlook, hre, hr⟩
  refine ⟨g', ?_, hre.moved hinv hK⟩
  simp only [doGet, hlook, ok_bind]
  cases r with
  | none => rw [KeyFound.none_eq hK hr, getReply]
  | some e =>
      rcases hr with ⟨x, hx⟩
      rw [hK.eq_some hx, getReply]
      simp only [entry_eq ((hre.holds _ _ _ _).mpr hx).entry, ok_bind]
      by_cases ht : x.type = .str
      · rw [if_neg (not_not.mpr ht), if_neg (not_not.mpr ht)]
      · rw [if_pos ht, if_pos ht]

/-- The value `set` leaves: a string keeps its deadline, another type keeps
    everything, and a new key has no deadline. -/
def setValue (R : Runtime) (c : Nat) (key val : Bytes) :
    Option (Entry × Option Nat) → Entry × Option Nat
  | none => (⟨R.strHash key, key, .str, val, {}, some c⟩, none)
  | some (x, d) => if x.type ≠ .str then (x, d) else ({ x with str := val }, d)

/-- `set` keeps the deadline of the key. -/
theorem setValue_snd (R : Runtime) (c : Nat) (key val : Bytes) (v : Option (Entry × Option Nat)) :
    (setValue R c key val v).2 = v.bind Prod.snd := by
  cases v with
  | none => rfl
  | some v =>
      rw [setValue, Option.bind_some]
      split
      · rfl
      · rfl

/-- The reply of `set`. -/
def setReply (out : Bytes) : Option (Entry × Option Nat) → Bytes
  | none => outStr out (ascii "1")
  | some (x, _) =>
    if x.type ≠ .str then outErr out errBadTyp (ascii "a non-string value exists")
    else outStr out (ascii "1")

/-- Assigning a key the value it has changes nothing. -/
theorem Keyspace.set_eq_self {c : Nat} {k : Bytes} : K.set c k (K c k) = K := by
  funext c' k'
  by_cases h : c' = c ∧ k' = k
  · rw [h.1, h.2, Keyspace.set_same]
  · rw [Keyspace.set_other K _ h]

theorem doSet_spec (hinv : Inv R g P) (hK : Views g K) {c : Nat} {conn : Conn}
    (hc : g.conns c = some conn) (cmd : List Bytes) (out : Bytes) :
    ∃ g', doSet R g c cmd out = .ok (g', setReply out (K c (arg cmd 1))) ∧
      Moved R g g' K
        (K.set c (arg cmd 1) (some (setValue R c (arg cmd 1) (arg cmd 2) (K c (arg cmd 1))))) P := by
  rcases dbLookup_spec hinv.db hc (arg cmd 1) with ⟨g₁, r, hlook, hre, hr⟩
  have hm := hre.moved hinv hK
  simp only [doSet, hlook, ok_bind]
  cases r with
  | none =>
      rcases hre.conn hc with ⟨conn₁, hc₁⟩
      -- the lookup failed, so the key is free
      have hno : ∀ e x, ¬ Holds g₁ c (arg cmd 1) e x :=
        fun e x hx => hr e x ((hre.holds _ _ _ _).mp hx)
      rcases create_spec hm.inv.db hm.inv.heap hc₁ hno .str (arg cmd 2) with
        ⟨g₂, hins, hsame, hdb, hheap, _, hviews⟩
      have hid : (entryNew g₁ .str c (arg cmd 1) (R.strHash (arg cmd 1)) (arg cmd 2)).2 =
          g₁.nextEntry := rfl
      simp only [hid, hins, ok_bind]
      rw [KeyFound.none_eq hK hr, setReply, setValue]
      exact ⟨g₂, rfl, hm.trans ⟨hsame, ⟨hdb, hheap, hsame.loopInv hm.inv.loop⟩,
        hviews K hm.views⟩⟩
  | some e =>
      rcases hr with ⟨x, hx⟩
      have hx₁ := (hre.holds _ _ _ _).mpr hx
      simp only [entry_eq hx₁.entry, ok_bind]
      rw [hK.eq_some hx, setReply, setValue]
      by_cases ht : x.type = .str
      · rw [if_neg (not_not.mpr ht), if_neg (not_not.mpr ht), if_neg (not_not.mpr ht)]
        rcases setEntry_spec hm.inv.db hm.inv.heap hx₁ { x with str := arg cmd 2 } rfl rfl
          rfl with ⟨hsame, hdb, hheap, _, hviews⟩
        refine ⟨_, rfl, hm.trans ⟨hsame, ⟨hdb, hheap, hsame.loopInv hm.inv.loop⟩, ?_⟩⟩
        -- the deadline is the one before the lookup
        rw [← hre.due e]
        exact hviews K hm.views
      · rw [if_pos ht, if_pos ht, if_pos ht, ← hK.eq_some hx, Keyspace.set_eq_self]
        exact ⟨g₁, rfl, hm⟩

/-- The reply of `del`. -/
def delReply (out : Bytes) (v : Option (Entry × Option Nat)) : Bytes :=
  if v.isSome then outStr out (ascii "1") else outStr out (ascii "0")

/-- `del` removes the key. It fails only where freeing a sorted set does. -/
theorem doDel_spec (hinv : Inv R g P) (hK : Views g K) {c : Nat} {conn : Conn}
    (hc : g.conns c = some conn) (cmd : List Bytes) (out : Bytes) :
    (∃ g', doDel R g c cmd out = .ok (g', delReply out (K c (arg cmd 1))) ∧
      Moved R g g' K (K.set c (arg cmd 1) none) P) ∨
    ∃ f x d, doDel R g c cmd out = .error f ∧ K c (arg cmd 1) = some (x, d) ∧ x.type = .zset ∧
      zsetClear x.zset = .error f := by
  have hans := entryEq_answers hinv.db c (arg cmd 1) (R.strHash (arg cmd 1))
  rw [nodesOf_eq hc] at hans
  rcases hmDelete_spec (hinv.db.wf c conn hc) hans with ⟨db, r, hdel, hwf, hp, hr⟩
  rw [← nodesOf_eq hc] at hr
  simp only [doDel, conn_eq hc, ok_bind, hdel]
  cases r with
  | none =>
      have hno := keyFound_of_found hinv.db hr
      -- nothing was found: only nodes moved
      have hre : Rehashed g (g.setConn c { conn with db := db }) :=
        setDb_rehashed hinv.db hc hwf hp.symm
      have hnone := KeyFound.none_eq hK hno
      refine Or.inl ⟨_, by rw [hnone]; rfl, ?_⟩
      have hset : K.set c (arg cmd 1) none = K := by
        rw [← hnone, Keyspace.set_eq_self]
      rw [hset]
      exact hre.moved hinv hK
  | some n =>
      rcases holds_of_hit hinv.db hr.1 hr.2 with ⟨x, hx⟩
      -- the entry is still there when its node is out of the table
      have hx₁ : (g.setConn c { conn with db := db }).entries n.payload = some x := hx.entry
      rcases entryDel_spec (g := g.setConn c { conn with db := db }) hinv.heap.indexed hx₁ with
        ⟨g', hrun, hd⟩ | ⟨f, hrun, hz, hf⟩
      · rcases remove_spec hinv.db hinv.heap hc hwf hp hx hd with ⟨hsame, hdb, hheap, hviews⟩
        simp only [hrun, ok_bind]
        refine Or.inl ⟨g', ?_, hsame, ⟨hdb, hheap, hsame.loopInv hinv.loop⟩, hviews K hK⟩
        rw [hK.eq_some hx]
        rfl
      · simp only [hrun, error_bind]
        exact Or.inr ⟨f, x, due g n.payload, rfl, hK.eq_some hx, hz, hf⟩

/-! ## Deadlines -/

/-- The reply of `pexpire`. -/
def expireReply (out : Bytes) (v : Option (Entry × Option Nat)) : Bytes :=
  if v.isSome then outInt out 1 else outInt out 0

theorem doExpire_spec (hinv : Inv R g P) (hK : Views g K) {c : Nat} {conn : Conn}
    (hc : g.conns c = some conn) (cmd : List Bytes) (now : Nat) (out : Bytes) {ttlMs : Int}
    (harg : str2int (arg cmd 2) = some ttlMs) :
    ∃ g', doExpire R g c cmd now out = .ok (g', expireReply out (K c (arg cmd 1))) ∧
      Moved R g g' K (K.set c (arg cmd 1)
        ((K c (arg cmd 1)).map fun v => (v.1, dueAfter ttlMs now))) P := by
  rcases dbLookup_spec hinv.db hc (arg cmd 1) with ⟨g₁, r, hlook, hre, hr⟩
  have hm := hre.moved hinv hK
  simp only [doExpire, harg, hlook, ok_bind]
  cases r with
  | none =>
      have hnone := KeyFound.none_eq hK hr
      refine ⟨g₁, by rw [hnone]; rfl, ?_⟩
      rw [hnone, Option.map_none, ← hnone, Keyspace.set_eq_self]
      exact hm
  | some e =>
      rcases hr with ⟨x, hx⟩
      rcases setTtl_spec hm.inv.db hm.inv.heap ((hre.holds _ _ _ _).mpr hx) ttlMs now with
        ⟨g₂, hrun, hsame, hdb, hheap, hviews⟩
      simp only [hrun, ok_bind]
      rw [hK.eq_some hx]
      exact ⟨g₂, rfl, hm.trans ⟨hsame, ⟨hdb, hheap, hsame.loopInv hm.inv.loop⟩,
        hviews K hm.views⟩⟩

/-- The reply of `pttl`. -/
def ttlReply (out : Bytes) (now : Nat) : Option (Entry × Option Nat) → Bytes
  | none => outInt out (-2)
  | some (_, none) => outInt out (-1)
  | some (_, some d) => outInt out (if now < d then ((d - now : Nat) : Int) else 0)

theorem doTtl_spec (hinv : Inv R g P) (hK : Views g K) {c : Nat} {conn : Conn}
    (hc : g.conns c = some conn) (cmd : List Bytes) (now : Nat) (out : Bytes) :
    ∃ g', doTtl R g c cmd now out = .ok (g', ttlReply out now (K c (arg cmd 1))) ∧
      Moved R g g' K K P := by
  rcases dbLookup_spec hinv.db hc (arg cmd 1) with ⟨g', r, hlook, hre, hr⟩
  refine ⟨g', ?_, hre.moved hinv hK⟩
  simp only [doTtl, hlook, ok_bind]
  cases r with
  | none => rw [KeyFound.none_eq hK hr, ttlReply]
  | some e =>
      rcases hr with ⟨x, hx⟩
      rw [hK.eq_some hx]
      simp only [entry_eq ((hre.holds _ _ _ _).mpr hx).entry, ok_bind, hre.heap, hre.heapIdx]
      cases hi : g.heapIdx e with
      | none => rw [(due_eq_none hinv.heap).mpr hi, ttlReply]
      | some pos =>
          rcases hinv.heap.indexed.forth e pos hi with ⟨y, hy, _⟩
          have hdue : due g e = some y.val := by
            rw [due, deadline, hi, Option.bind_some, hy]
            rfl
          have hval : heapVal g.heap pos = .ok y.val := by rw [heapVal, hy]
          rw [hdue, ttlReply]
          simp only [hval, ok_bind]

/-! ## The list of keys -/

/-- The key of an entry. -/
def keyOf (g : GData) (e : Nat) : Bytes :=
  match g.entries e with
  | none => []
  | some x => x.key

/-- The keys of a connection, in the order of its table. -/
def keysOf (g : GData) (c : Nat) : List Bytes := (nodesOf g c).map fun n => keyOf g n.payload

theorem mem_keysOf (h : DbInv R g) {c : Nat} {k : Bytes} :
    k ∈ keysOf g c ↔ ∃ e x, Holds g c k e x := by
  rw [keysOf, List.mem_map]
  constructor
  · rintro ⟨n, hn, rfl⟩
    rcases h.entry c n hn with ⟨x, hx, _⟩
    refine ⟨n.payload, x, ⟨n, hn, rfl⟩, hx, ?_⟩
    rw [keyOf, hx]
  · rintro ⟨e, x, hx⟩
    rcases hx.stored with ⟨n, hn, rfl⟩
    exact ⟨n, hn, by rw [keyOf, hx.entry]; exact hx.key⟩

theorem keysOf_nodup (h : DbInv R g) (c : Nat) : (keysOf g c).Nodup := by
  have hd := h.distinct c
  have hmap : keysOf g c = ((nodesOf g c).map HNode.payload).map (keyOf g) := by
    rw [keysOf, List.map_map]
    rfl
  rw [hmap]
  refine List.Nodup.map_on ?_ hd
  intro e he e' he' hkey
  rcases List.mem_map.mp he with ⟨n, hn, rfl⟩
  rcases List.mem_map.mp he' with ⟨n', hn', rfl⟩
  rcases h.entry c n hn with ⟨x, hx, _⟩
  rcases h.entry c n' hn' with ⟨x', hx', _⟩
  rw [keyOf, keyOf, hx, hx'] at hkey
  exact h.keys c x.key _ x _ x' ⟨⟨n, hn, rfl⟩, hx, rfl⟩ ⟨⟨n', hn', rfl⟩, hx', hkey.symm⟩

theorem mem_keysOf_iff (h : DbInv R g) (hK : Views g K) {c : Nat} {k : Bytes} :
    k ∈ keysOf g c ↔ (K c k).isSome := by
  rw [mem_keysOf h, Option.isSome_iff_exists]
  constructor
  · rintro ⟨e, x, hx⟩
    exact ⟨_, hK.eq_some hx⟩
  · rintro ⟨v, hv⟩
    rcases (hK c k v.1 v.2).mp hv with ⟨e, he, _⟩
    exact ⟨e, v.1, he⟩

/-- The output of a list of keys. -/
def outKeys (out : Bytes) (l : List Bytes) : Bytes := l.foldl outStr (outArr out l.length)

theorem foldl_cbKeys (l : List (HNode Nat)) (h : ∀ n ∈ l, ∃ x, g.entries n.payload = some x)
    (out : Bytes) :
    l.foldl (fun s n => (cbKeys g n.payload s).2) (.ok out) =
      .ok ((l.map fun n => keyOf g n.payload).foldl outStr out) := by
  induction l generalizing out with
  | nil => rfl
  | cons n l ih =>
      rcases h n List.mem_cons_self with ⟨x, hx⟩
      have hstep : (cbKeys g n.payload (.ok out)).2 = .ok (outStr out (keyOf g n.payload)) := by
        simp only [cbKeys, ok_bind, entry_eq hx, keyOf, hx]
      rw [List.foldl_cons, hstep, ih fun m hm => h m (List.mem_cons_of_mem _ hm), List.map_cons,
        List.foldl_cons]

/-- `keys` lists the keys in the order of the table and changes nothing. -/
theorem doKeys_spec (hinv : Inv R g P) {c : Nat} {conn : Conn} (hc : g.conns c = some conn)
    (out : Bytes) : doKeys g c out = .ok (g, outKeys out (keysOf g c)) := by
  have hwf := hinv.db.wf c conn hc
  have hentries : ∀ n ∈ conn.db.nodes, ∃ x, g.entries n.payload = some x := by
    intro n hn
    rw [← nodesOf_eq hc] at hn
    rcases hinv.db.entry c n hn with ⟨x, hx, _⟩
    exact ⟨x, hx⟩
  have hwalk := hmForeach_eq (f := cbKeys g) (fun s e => (cbKeys g e s).2)
    (fun _ _ => rfl) hwf (.ok (outArr out (hmSize conn.db)) : Result Bytes)
  rw [foldl_cbKeys _ hentries, hmSize_eq hwf] at hwalk
  simp only [doKeys, conn_eq hc, ok_bind, hmSize_eq hwf, hwalk, outKeys, keysOf, nodesOf_eq hc,
    List.length_map]

/-! ## Sorted sets -/

/-- The shared empty set is no key's. -/
theorem setEmpty_moved (hinv : Inv R g P) (hK : Views g K) (z : ZSet) :
    Moved R g { g with emptyZset := z } K K P where
  same := ⟨rfl, rfl, rfl, fun _ => rfl⟩
  inv :=
    ⟨⟨hinv.db.wf, hinv.db.distinct, hinv.db.entry, fun c k e x e' x' h h' =>
      hinv.db.keys c k e x e' x' ⟨h.stored, h.entry, h.key⟩ ⟨h'.stored, h'.entry, h'.key⟩,
      hinv.db.fresh⟩, ⟨hinv.heap.indexed, hinv.heap.owned, hinv.heap.orphan⟩,
      ⟨hinv.loop.ring, hinv.loop.fresh⟩⟩
  views := hK.congr
    (fun _ _ _ _ => ⟨fun h => ⟨h.stored, h.entry, h.key⟩, fun h => ⟨h.stored, h.entry, h.key⟩⟩)
    fun _ => rfl

/-- The set of a stored key is assigned. -/
theorem setZset_moved (hinv : Inv R g P) (hK : Views g K) {c e : Nat} {k : Bytes} {x : Entry}
    (hx : Holds g c k e x) (z : ZSet) :
    Moved R g (g.setEntry e { x with zset := z }) K
      (K.set c k (some ({ x with zset := z }, due g e))) P := by
  rcases setEntry_spec hinv.db hinv.heap hx { x with zset := z } rfl rfl rfl with
    ⟨hsame, hdb, hheap, _, hviews⟩
  exact ⟨hsame, ⟨hdb, hheap, hsame.loopInv hinv.loop⟩, hviews K hK⟩

/-- The keyspace with the set of a key changed, where the key holds a set. -/
def Keyspace.SetZset (K : Keyspace) (c : Nat) (k : Bytes) (K' : Keyspace) : Prop :=
  K' = K ∨ ∃ x d z, K c k = some (x, d) ∧ x.type = .zset ∧ K' = K.set c k (some ({ x with zset := z }, d))

/-- The record a sorted-set command works on: the one of the key, or a new and
    empty set. -/
def zaddEntry (R : Runtime) (c : Nat) (key : Bytes) :
    Option (Entry × Option Nat) → Entry × Option Nat
  | none => (⟨R.strHash key, key, .zset, [], {}, some c⟩, none)
  | some v => v

/-- `zadd` keeps the deadline of the key. -/
theorem zaddEntry_snd (R : Runtime) (c : Nat) (key : Bytes) (v : Option (Entry × Option Nat)) :
    (zaddEntry R c key v).2 = v.bind Prod.snd := by
  cases v with
  | none => rfl
  | some v => rfl

/-- The entry `zadd` works on is the one of the key, or a new and empty set. -/
theorem zaddTarget_spec (hinv : Inv R g P) (hK : Views g K) {c : Nat} {conn : Conn}
    (hc : g.conns c = some conn) {key : Bytes} {r : Option Nat} (hr : KeyFound g c key r) :
    ∃ g₁ e, zaddTarget R g c key r = .ok (g₁, e) ∧
      Moved R g g₁ K (K.set c key (some (zaddEntry R c key (K c key)))) P ∧
      Holds g₁ c key e (zaddEntry R c key (K c key)).1 ∧
      due g₁ e = (zaddEntry R c key (K c key)).2 := by
  cases r with
  | none =>
      rcases create_spec hinv.db hinv.heap hc hr .zset [] with
        ⟨g₁, hins, hsame, hdb, hheap, hhold, hviews⟩
      rw [KeyFound.none_eq hK hr, zaddEntry]
      have hviews' := hviews K hK
      refine ⟨g₁, g.nextEntry, ?_, ⟨hsame, ⟨hdb, hheap, hsame.loopInv hinv.loop⟩, hviews'⟩, hhold, ?_⟩
      · have hid : (entryNew g .zset c key (R.strHash key) []).2 = g.nextEntry := rfl
        simp only [zaddTarget, hid, hins, ok_bind]
      · have := hviews'.eq_some hhold
        rw [Keyspace.set_same, Option.some.injEq, Prod.mk.injEq] at this
        exact this.2.symm
  | some e =>
      rcases hr with ⟨x, hx⟩
      have heq := hK.eq_some hx
      -- the key has the entry already, and the keyspace is as before
      have hself : K.set c key (some (x, due g e)) = K := by
        rw [← heq, Keyspace.set_eq_self]
      rw [heq, zaddEntry, hself]
      exact ⟨g, e, rfl, Moved.refl hinv hK, hx, rfl⟩

/-- Two changes of one key are the second. -/
theorem Keyspace.set_set (c : Nat) (k : Bytes) (v w : Option (Entry × Option Nat)) :
    (K.set c k v).set c k w = K.set c k w := by
  funext c' k'
  by_cases h : c' = c ∧ k' = k
  · rw [h.1, h.2, Keyspace.set_same, Keyspace.set_same]
  · rw [Keyspace.set_other _ _ h, Keyspace.set_other _ _ h, Keyspace.set_other _ _ h]

/-- `zadd` with a number: the key exists afterwards, and its set is the result
    of `zset_insert`. It fails only where that does. -/
theorem doZadd_spec (hinv : Inv R g P) (hK : Views g K) {c : Nat} {conn : Conn}
    (hc : g.conns c = some conn) (cmd : List Bytes) (out : Bytes) {score : Double}
    (harg : str2dbl R (arg cmd 2) = some score) {x : Entry} {d : Option Nat}
    (hv : zaddEntry R c (arg cmd 1) (K c (arg cmd 1)) = (x, d)) :
    (x.type ≠ .zset ∧ ∃ g', doZadd R g c cmd out =
        .ok (g', outErr out errBadTyp (ascii "expect zset")) ∧
      Moved R g g' K (K.set c (arg cmd 1) (some (x, d))) P) ∨
    x.type = .zset ∧
      ((∃ f, zsetInsert R x.zset (arg cmd 3) score = .error f ∧ doZadd R g c cmd out = .error f) ∨
      ∃ z added g', zsetInsert R x.zset (arg cmd 3) score = .ok (z, added) ∧
        doZadd R g c cmd out = .ok (g', outInt out (if added then 1 else 0)) ∧
        Moved R g g' K (K.set c (arg cmd 1) (some ({ x with zset := z }, d))) P) := by
  rcases dbLookup_spec hinv.db hc (arg cmd 1) with ⟨g₀, r, hlook, hre, hr⟩
  have hm := hre.moved hinv hK
  -- what the lookup says of the state before it holds of the state after it
  have hr₀ : KeyFound g₀ c (arg cmd 1) r := by
    cases r with
    | none => exact fun e x hx => hr e x ((hre.holds _ _ _ _).mp hx)
    | some e => exact hr.imp fun x hx => (hre.holds _ _ _ _).mpr hx
  rcases hre.conn hc with ⟨conn₀, hc₀⟩
  rcases zaddTarget_spec hm.inv hm.views hc₀ hr₀ with ⟨g₁, e, htarget, hmoved, hhold, hdue⟩
  rw [hv] at hmoved hhold hdue
  simp only [doZadd, harg, hlook, ok_bind, htarget, entry_eq hhold.entry]
  by_cases ht : x.type = .zset
  · rw [if_neg (not_not.mpr ht)]
    refine Or.inr ⟨ht, ?_⟩
    cases hz : zsetInsert R x.zset (arg cmd 3) score with
    | error f => exact Or.inl ⟨f, rfl, rfl⟩
    | ok zr =>
        rcases zr with ⟨z, added⟩
        have hset := setZset_moved hmoved.inv hmoved.views hhold z
        rw [hdue, Keyspace.set_set] at hset
        exact Or.inr ⟨z, added, _, rfl, rfl, (hm.trans hmoved).trans hset⟩
  · rw [if_pos ht]
    exact Or.inl ⟨ht, g₁, rfl, hm.trans hmoved⟩

/-- What `expect_zset` returns, in terms of the keyspace. -/
theorem expectZset_spec (hinv : Inv R g P) (hK : Views g K) {c : Nat} {conn : Conn}
    (hc : g.conns c = some conn) (key : Bytes) :
    ∃ g₁, Moved R g g₁ K K P ∧ g₁.emptyZset = g.emptyZset ∧
      ((K c key = none ∧ expectZset R g c key = .ok (g₁, some .empty)) ∨
      (∃ x d, K c key = some (x, d) ∧ x.type ≠ .zset ∧ expectZset R g c key = .ok (g₁, none)) ∨
      ∃ x e, K c key = some (x, due g₁ e) ∧ x.type = .zset ∧
        expectZset R g c key = .ok (g₁, some (.entry e)) ∧ Holds g₁ c key e x) := by
  rcases dbLookup_spec hinv.db hc key with ⟨g₁, r, hlook, hre, hr⟩
  refine ⟨g₁, hre.moved hinv hK, hre.emptyZset, ?_⟩
  simp only [expectZset, hlook, ok_bind]
  cases r with
  | none => exact Or.inl ⟨KeyFound.none_eq hK hr, rfl⟩
  | some e =>
      rcases hr with ⟨x, hx⟩
      have hx₁ := (hre.holds _ _ _ _).mpr hx
      simp only [entry_eq hx₁.entry, ok_bind]
      by_cases ht : x.type = .zset
      · rw [if_pos ht]
        refine Or.inr (Or.inr ⟨x, e, ?_, ht, rfl, hx₁⟩)
        rw [hre.due]
        exact hK.eq_some hx
      · rw [if_neg ht]
        exact Or.inr (Or.inl ⟨x, due g e, hK.eq_some hx, ht, rfl⟩)

/-- Writing back the set that `expect_zset` returned. -/
theorem setZset_spec (hinv : Inv R g P) (hK : Views g K) {c : Nat} {key : Bytes} {ref : ZRef}
    (href : ref = .empty ∨ ∃ x e, ref = .entry e ∧ x.type = .zset ∧ Holds g c key e x) (z : ZSet) :
    ∃ g' K', setZset g z ref = .ok g' ∧ Moved R g g' K K' P ∧ K.SetZset c key K' := by
  rcases href with rfl | ⟨x, e, rfl, ht, hx⟩
  · exact ⟨_, K, rfl, setEmpty_moved hinv hK z, Or.inl rfl⟩
  · refine ⟨_, _, by simp only [setZset, entry_eq hx.entry, ok_bind], setZset_moved hinv hK hx z,
      Or.inr ⟨x, due g e, z, hK.eq_some hx, ht, rfl⟩⟩

/-- `zrem`, where it returns: at most the set of its key changed. -/
theorem doZrem_spec (hinv : Inv R g P) (hK : Views g K) {c : Nat} {conn : Conn}
    (hc : g.conns c = some conn) (cmd : List Bytes) (out : Bytes) {out' : Bytes}
    (hrun : doZrem R g c cmd out = .ok (g', out')) :
    ∃ K', Moved R g g' K K' P ∧ K.SetZset c (arg cmd 1) K' := by
  rcases expectZset_spec hinv hK hc (arg cmd 1) with ⟨g₁, hm, _, hcases⟩
  -- A set reference, wherever it came from, is written back once.
  have hback : ∀ ref, expectZset R g c (arg cmd 1) = .ok (g₁, some ref) →
      (ref = .empty ∨ ∃ x e, ref = .entry e ∧ x.type = .zset ∧ Holds g₁ c (arg cmd 1) e x) →
      ∃ K', Moved R g g' K K' P ∧ K.SetZset c (arg cmd 1) K' := by
    intro ref hexp href
    simp only [doZrem, hexp, ok_bind] at hrun
    rcases bind_eq_ok.mp hrun with ⟨z, _, hrun⟩
    rcases bind_eq_ok.mp hrun with ⟨⟨z', znode⟩, _, hrun⟩
    cases znode with
    | none =>
        rcases setZset_spec hm.inv hm.views href z' with ⟨g₂, K', hset, hmoved, hK'⟩
        simp only [hset, ok_bind, Except.ok.injEq, Prod.mk.injEq] at hrun
        rw [← hrun.1]
        exact ⟨K', hm.trans hmoved, hK'⟩
    | some node =>
        rcases bind_eq_ok.mp hrun with ⟨z'', _, hrun⟩
        rcases setZset_spec hm.inv hm.views href z'' with ⟨g₂, K', hset, hmoved, hK'⟩
        simp only [hset, ok_bind, Except.ok.injEq, Prod.mk.injEq] at hrun
        rw [← hrun.1]
        exact ⟨K', hm.trans hmoved, hK'⟩
  rcases hcases with ⟨_, hexp⟩ | ⟨x, d, _, _, hexp⟩ | ⟨x, e, _, ht, hexp, hx⟩
  · exact hback .empty hexp (Or.inl rfl)
  · simp only [doZrem, hexp, ok_bind, Except.ok.injEq, Prod.mk.injEq] at hrun
    rw [← hrun.1]
    exact ⟨K, hm, Or.inl rfl⟩
  · exact hback (.entry e) hexp (Or.inr ⟨x, e, rfl, ht, hx⟩)

/-- `zscore`, where it returns: at most the layout of the set of its key
    changed. -/
theorem doZscore_spec (hinv : Inv R g P) (hK : Views g K) {c : Nat} {conn : Conn}
    (hc : g.conns c = some conn) (cmd : List Bytes) (out : Bytes) {out' : Bytes}
    (hrun : doZscore R g c cmd out = .ok (g', out')) :
    ∃ K', Moved R g g' K K' P ∧ K.SetZset c (arg cmd 1) K' := by
  rcases expectZset_spec hinv hK hc (arg cmd 1) with ⟨g₁, hm, _, hcases⟩
  -- as for `zrem`, with the set that the lookup left
  have hback : ∀ ref, expectZset R g c (arg cmd 1) = .ok (g₁, some ref) →
      (ref = .empty ∨ ∃ x e, ref = .entry e ∧ x.type = .zset ∧ Holds g₁ c (arg cmd 1) e x) →
      ∃ K', Moved R g g' K K' P ∧ K.SetZset c (arg cmd 1) K' := by
    intro ref hexp href
    simp only [doZscore, hexp, ok_bind] at hrun
    rcases bind_eq_ok.mp hrun with ⟨z, _, hrun⟩
    rcases bind_eq_ok.mp hrun with ⟨⟨z', znode⟩, _, hrun⟩
    rcases setZset_spec hm.inv hm.views href z' with ⟨g₂, K', hset, hmoved, hK'⟩
    simp only [hset, ok_bind] at hrun
    cases znode with
    | none =>
        simp only [Except.ok.injEq, Prod.mk.injEq] at hrun
        rw [← hrun.1]
        exact ⟨K', hm.trans hmoved, hK'⟩
    | some node =>
        rcases bind_eq_ok.mp hrun with ⟨n, _, hrun⟩
        simp only [Except.ok.injEq, Prod.mk.injEq] at hrun
        rw [← hrun.1]
        exact ⟨K', hm.trans hmoved, hK'⟩
  rcases hcases with ⟨_, hexp⟩ | ⟨x, d, _, _, hexp⟩ | ⟨x, e, _, ht, hexp, hx⟩
  · exact hback .empty hexp (Or.inl rfl)
  · simp only [doZscore, hexp, ok_bind, Except.ok.injEq, Prod.mk.injEq] at hrun
    rw [← hrun.1]
    exact ⟨K, hm, Or.inl rfl⟩
  · exact hback (.entry e) hexp (Or.inr ⟨x, e, rfl, ht, hx⟩)

/-- `zquery` changes nothing beyond what `expect_zset` does. -/
theorem doZquery_state {c : Nat} {cmd : List Bytes} {out out' : Bytes}
    (hrun : doZquery R g c cmd out = .ok (g', out')) :
    g' = g ∨ ∃ r, expectZset R g c (arg cmd 1) = .ok (g', r) := by
  unfold doZquery at hrun
  cases hscore : str2dbl R (arg cmd 2) with
  | none =>
      simp only [hscore, Except.ok.injEq, Prod.mk.injEq] at hrun
      exact Or.inl hrun.1.symm
  | some score =>
      cases hoff : str2int (arg cmd 4) with
      | none =>
          simp only [hscore, hoff, Except.ok.injEq, Prod.mk.injEq] at hrun
          exact Or.inl hrun.1.symm
      | some offset =>
          cases hlim : str2int (arg cmd 5) with
          | none =>
              simp only [hscore, hoff, hlim, Except.ok.injEq, Prod.mk.injEq] at hrun
              exact Or.inl hrun.1.symm
          | some limit =>
              simp only [hscore, hoff, hlim] at hrun
              rcases bind_eq_ok.mp hrun with ⟨⟨g₁, zref⟩, hexp, hrun⟩
              refine Or.inr ⟨zref, ?_⟩
              rw [hexp, Except.ok.injEq, Prod.mk.injEq]
              refine ⟨?_, rfl⟩
              cases zref with
              | none =>
                  rw [Except.ok.injEq, Prod.mk.injEq] at hrun
                  exact hrun.1
              | some ref =>
                  -- either way the set is only read
                  by_cases hl : limit ≤ 0
                  · simp only [if_pos hl, Except.ok.injEq, Prod.mk.injEq] at hrun
                    exact hrun.1
                  · simp only [if_neg hl] at hrun
                    rcases bind_eq_ok.mp hrun with ⟨_, _, hrun⟩
                    rcases bind_eq_ok.mp hrun with ⟨_, _, hrun⟩
                    rcases bind_eq_ok.mp hrun with ⟨_, _, hrun⟩
                    rcases bind_eq_ok.mp hrun with ⟨⟨_, _⟩, _, hrun⟩
                    rcases bind_eq_ok.mp hrun with ⟨_, _, hrun⟩
                    rw [Except.ok.injEq, Prod.mk.injEq] at hrun
                    exact hrun.1

/-- `zquery`, where it returns, changed no key. -/
theorem doZquery_spec (hinv : Inv R g P) (hK : Views g K) {c : Nat} {conn : Conn}
    (hc : g.conns c = some conn) (cmd : List Bytes) (out : Bytes) {out' : Bytes}
    (hrun : doZquery R g c cmd out = .ok (g', out')) : Moved R g g' K K P := by
  rcases doZquery_state hrun with rfl | ⟨r, hexp⟩
  · exact Moved.refl hinv hK
  · rcases expectZset_spec hinv hK hc (arg cmd 1) with ⟨g₁, hm, _, hcases⟩
    have hsame : ∀ ref, expectZset R g c (arg cmd 1) = .ok (g₁, ref) → g' = g₁ := by
      intro ref h
      rw [hexp, Except.ok.injEq, Prod.mk.injEq] at h
      exact h.1
    have heq : g' = g₁ := by
      rcases hcases with ⟨_, h⟩ | ⟨_, _, _, _, h⟩ | ⟨_, _, _, _, h, _⟩
      · exact hsame _ h
      · exact hsame _ h
      · exact hsame _ h
    rw [heq]
    exact hm

/-! ## The dispatch -/

/-- A property of what `do_request` returns, one command at a time. -/
theorem doRequest_elim {Q : Result (GData × Bytes) → Prop} {c : Nat} {cmd : List Bytes} {now : Nat}
    {out : Bytes} (get : isCmd cmd 2 "get" = true → Q (doGet R g c cmd out))
    (set : isCmd cmd 3 "set" = true → Q (doSet R g c cmd out))
    (del : isCmd cmd 2 "del" = true → Q (doDel R g c cmd out))
    (expire : isCmd cmd 3 "pexpire" = true → Q (doExpire R g c cmd now out))
    (ttl : isCmd cmd 2 "pttl" = true → Q (doTtl R g c cmd now out))
    (keys : isCmd cmd 1 "keys" = true → Q (doKeys g c out))
    (zadd : isCmd cmd 4 "zadd" = true → Q (doZadd R g c cmd out))
    (zrem : isCmd cmd 3 "zrem" = true → Q (doZrem R g c cmd out))
    (zscore : isCmd cmd 3 "zscore" = true → Q (doZscore R g c cmd out))
    (zquery : isCmd cmd 6 "zquery" = true → Q (doZquery R g c cmd out))
    (quit : isCmd cmd 1 "quit" = true → Q (.ok (g, outStr out (ascii "BYE"))))
    (unknown : Q (.ok (g, outErr out errUnknown (ascii "Unknown command.")))) :
    Q (doRequest R g c cmd now out) := by
  unfold doRequest
  refine iteInduction get fun _ => ?_
  refine iteInduction set fun _ => ?_
  refine iteInduction del fun _ => ?_
  refine iteInduction expire fun _ => ?_
  refine iteInduction ttl fun _ => ?_
  refine iteInduction keys fun _ => ?_
  refine iteInduction zadd fun _ => ?_
  refine iteInduction zrem fun _ => ?_
  refine iteInduction zscore fun _ => ?_
  refine iteInduction zquery fun _ => ?_
  exact iteInduction quit fun _ => unknown

/-- Two choices that depend on one condition. -/
theorem ite_both {α β : Type} {Q : α → β → Prop} {p : Prop} [Decidable p] {a a' : α} {b b' : β}
    (h : Q a b) (h' : Q a' b') : Q (if p then a else a') (if p then b else b') := by
  by_cases hp : p
  · rw [if_pos hp, if_pos hp]
    exact h
  · rw [if_neg hp, if_neg hp]
    exact h'

/-- A command has one name and one number of arguments. -/
theorem isCmd_unique {cmd : List Bytes} {n m : Nat} {name name' : String}
    (h : isCmd cmd n name = true) (hne : n ≠ m ∨ ascii name ≠ ascii name') :
    isCmd cmd m name' = false := by
  rw [isCmd, Bool.and_eq_true, decide_eq_true_eq, beq_iff_eq] at h
  rw [isCmd, h.1, h.2, Bool.and_eq_false_iff, decide_eq_false_iff_not, beq_eq_false_iff_ne]
  exact hne

/-- A command of one name has no other. -/
theorem isCmd_other {cmd : List Bytes} {n : Nat} {name : String} (h : isCmd cmd n name = true)
    (m : Nat) (name' : String) (hne : ascii name ≠ ascii name') : ¬ isCmd cmd m name' = true := by
  rw [isCmd_unique h (Or.inr hne)]
  exact Bool.false_ne_true

section

variable {c : Nat} {cmd : List Bytes} {now : Nat} {out : Bytes}

theorem doRequest_get (h : isCmd cmd 2 "get" = true) :
    doRequest R g c cmd now out = doGet R g c cmd out := if_pos h

theorem doRequest_expire (h : isCmd cmd 3 "pexpire" = true) :
    doRequest R g c cmd now out = doExpire R g c cmd now out := by
  rw [doRequest, if_neg (isCmd_other h _ _ (by decide)), if_neg (isCmd_other h _ _ (by decide)),
    if_neg (isCmd_other h _ _ (by decide)), if_pos h]

theorem doRequest_ttl (h : isCmd cmd 2 "pttl" = true) :
    doRequest R g c cmd now out = doTtl R g c cmd now out := by
  rw [doRequest, if_neg (isCmd_other h _ _ (by decide)), if_neg (isCmd_other h _ _ (by decide)),
    if_neg (isCmd_other h _ _ (by decide)), if_neg (isCmd_other h _ _ (by decide)), if_pos h]

theorem doRequest_keys (h : isCmd cmd 1 "keys" = true) :
    doRequest R g c cmd now out = doKeys g c out := by
  rw [doRequest, if_neg (isCmd_other h _ _ (by decide)), if_neg (isCmd_other h _ _ (by decide)),
    if_neg (isCmd_other h _ _ (by decide)), if_neg (isCmd_other h _ _ (by decide)),
    if_neg (isCmd_other h _ _ (by decide)), if_pos h]

theorem doRequest_zscore (h : isCmd cmd 3 "zscore" = true) :
    doRequest R g c cmd now out = doZscore R g c cmd out := by
  rw [doRequest, if_neg (isCmd_other h _ _ (by decide)), if_neg (isCmd_other h _ _ (by decide)),
    if_neg (isCmd_other h _ _ (by decide)), if_neg (isCmd_other h _ _ (by decide)),
    if_neg (isCmd_other h _ _ (by decide)), if_neg (isCmd_other h _ _ (by decide)),
    if_neg (isCmd_other h _ _ (by decide)), if_neg (isCmd_other h _ _ (by decide)), if_pos h]

theorem doRequest_zquery (h : isCmd cmd 6 "zquery" = true) :
    doRequest R g c cmd now out = doZquery R g c cmd out := by
  rw [doRequest, if_neg (isCmd_other h _ _ (by decide)), if_neg (isCmd_other h _ _ (by decide)),
    if_neg (isCmd_other h _ _ (by decide)), if_neg (isCmd_other h _ _ (by decide)),
    if_neg (isCmd_other h _ _ (by decide)), if_neg (isCmd_other h _ _ (by decide)),
    if_neg (isCmd_other h _ _ (by decide)), if_neg (isCmd_other h _ _ (by decide)),
    if_neg (isCmd_other h _ _ (by decide)), if_pos h]

end

end

end RedisServer
