import RedisServer.Core.Base

/-!
# The Hashtable

`hashtable.cpp`: a chained table with a power-of-two number of slots, and the
map the server uses, made of two such tables so that a resize moves the nodes
a few at a time.

A node is embedded in the record it indexes. Here it carries that record's
address as its payload, so `container_of` is a projection, and the callback
`eq(cur, key)` becomes a predicate on payloads that may itself fault. A chain
is the list of its nodes, an array of chains is a list, and `NULL` for the
array is the empty list: an allocated array has at least one slot.

`h_lookup` returns the address of the pointer that owns the node it found,
which is what a deletion needs. `Link` names that pointer by its slot and by
how many nodes stand before the target in the chain.

## Main definitions

* `HNode`, `HTab`, `HMap`: The records of `hashtable.h`.
* `hInit`, `hInsert`, `hLookup`, `hDetach`, `hForeach`: One table.
* `hmHelpRehashing`, `hmTriggerRehashing`: The migration.
* `hmLookup`, `hmInsert`, `hmDelete`, `hmSize`, `hmClear`, `hmForeach`: The
  map.
-/

namespace RedisServer

/-- A hashtable node and the record it is embedded in. -/
structure HNode (α : Type) where
  hcode : Nat
  payload : α
  deriving DecidableEq, Repr

/-- A fixed-size table. `tab` is empty when the array is `NULL`. -/
structure HTab (α : Type) where
  tab : List (List (HNode α)) := []
  mask : Nat := 0
  size : Nat := 0
  deriving DecidableEq, Repr

/-- The map: nodes migrate from `older` to `newer`, slot by slot. -/
structure HMap (α : Type) where
  newer : HTab α := {}
  older : HTab α := {}
  migratePos : Nat := 0
  deriving DecidableEq, Repr

/-- The pointer that owns a node: the slot's head, or the `next` of the node
    `depth` places down its chain. -/
structure Link where
  slot : Nat
  depth : Nat
  deriving DecidableEq, Repr

section

variable {α σ : Type}

/-- `h_init`: `n` must be a power of two. -/
def hInit (n : Nat) : Result (HTab α) :=
  if 0 < n ∧ (n - 1) &&& n = 0 then
    .ok { tab := List.replicate n [], mask := n - 1, size := 0 }
  else
    .error .assertFailed

/-- `h_insert`: push the node on the chain of its slot. -/
def hInsert (htab : HTab α) (node : HNode α) : Result (HTab α) :=
  let pos := node.hcode &&& htab.mask
  match htab.tab[pos]? with
  | none => .error .outOfBounds
  | some next =>
    .ok { htab with tab := htab.tab.set pos (node :: next), size := htab.size + 1 }

/-- The walk of `h_lookup` down one chain: how far the first hit is. -/
def chainFind (hcode : Nat) (eq : α → Result Bool) : List (HNode α) → Result (Option Nat)
  | [] => .ok none
  | cur :: next => do
    -- the callback runs only where the hash codes agree
    let hit ← (if cur.hcode = hcode then eq cur.payload else .ok false)
    if hit then .ok (some 0)
    else do
      let rest ← chainFind hcode eq next
      .ok (rest.map (· + 1))

/-- `h_lookup`: the pointer that owns the node with this key. -/
def hLookup (htab : HTab α) (hcode : Nat) (eq : α → Result Bool) : Result (Option Link) :=
  if htab.tab.isEmpty then .ok none
  else
    let pos := hcode &&& htab.mask
    match htab.tab[pos]? with
    | none => .error .outOfBounds
    | some chain => do
      let hit ← chainFind hcode eq chain
      .ok (hit.map (Link.mk pos))

/-- `*from`: the node an owning pointer points to. -/
def hDeref (htab : HTab α) (link : Link) : Result (HNode α) :=
  match htab.tab[link.slot]? with
  | none => .error .outOfBounds
  | some chain =>
    match chain[link.depth]? with
    | none => .error .nullDeref
    | some node => .ok node

/-- `h_detach`: unlink the node an owning pointer points to. -/
def hDetach (htab : HTab α) (link : Link) : Result (HNode α × HTab α) :=
  match htab.tab[link.slot]? with
  | none => .error .outOfBounds
  | some chain =>
    match chain[link.depth]? with
    | none => .error .nullDeref
    | some node =>
      .ok (node, { htab with
        tab := htab.tab.set link.slot (chain.eraseIdx link.depth)
        size := htab.size - 1 })

/-- `k_rehasing_work`: nodes moved per operation. -/
def kRehasingWork : Nat := 128

/-- The loop of `hm_help_rehashing`. Each turn moves one node or passes one
    empty slot, so `fuel` bounds the turns by the work left plus the slots. -/
def helpRehashingLoop : Nat → Nat → HMap α → Result (HMap α)
  | 0, _, _ => .error .noProgress
  | fuel + 1, nwork, hmap =>
    if nwork < kRehasingWork ∧ 0 < hmap.older.size then
      match hmap.older.tab[hmap.migratePos]? with
      | none => .error .outOfBounds
      -- an empty slot is passed without counting as work
      | some [] => helpRehashingLoop fuel nwork { hmap with migratePos := hmap.migratePos + 1 }
      -- the first node of the chain moves to the newer table
      | some (_ :: _) => do
        let (node, older) ← hDetach hmap.older ⟨hmap.migratePos, 0⟩
        let newer ← hInsert hmap.newer node
        helpRehashingLoop fuel (nwork + 1) { hmap with newer := newer, older := older }
    else .ok hmap

/-- `hm_help_rehashing`: move some nodes, and drop the old table once it is
    empty. -/
def hmHelpRehashing (hmap : HMap α) : Result (HMap α) := do
  let hmap ← helpRehashingLoop (kRehasingWork + hmap.older.tab.length + 1) 0 hmap
  if hmap.older.size = 0 ∧ ¬ hmap.older.tab.isEmpty then .ok { hmap with older := {} }
  else .ok hmap

/-- `hm_trigger_rehashing`: the newer table becomes the older one. -/
def hmTriggerRehashing (hmap : HMap α) : Result (HMap α) :=
  if hmap.older.tab.isEmpty then do
    let newer ← hInit ((hmap.newer.mask + 1) * 2)
    .ok { newer := newer, older := hmap.newer, migratePos := 0 }
  else
    .error .assertFailed

/-- `hm_lookup`. The lookup moves nodes, so it returns the map as well. -/
def hmLookup (hmap : HMap α) (hcode : Nat) (eq : α → Result Bool) :
    Result (HMap α × Option (HNode α)) := do
  let hmap ← hmHelpRehashing hmap
  match ← hLookup hmap.newer hcode eq with
  | some link => do
    let node ← hDeref hmap.newer link
    .ok (hmap, some node)
  | none =>
    match ← hLookup hmap.older hcode eq with
    | some link => do
      let node ← hDeref hmap.older link
      .ok (hmap, some node)
    | none => .ok (hmap, none)

/-- `k_max_load_factor`. -/
def kMaxLoadFactor : Nat := 8

/-- `hm_insert`: always into the newer table, which may then start a resize. -/
def hmInsert (hmap : HMap α) (node : HNode α) : Result (HMap α) := do
  -- the first insertion allocates four slots
  let newer ← (if hmap.newer.tab.isEmpty then hInit 4 else .ok hmap.newer)
  let newer ← hInsert newer node
  let hmap := { hmap with newer := newer }
  let hmap ←
    -- no resize starts while one is under way
    (if hmap.older.tab.isEmpty ∧ (hmap.newer.mask + 1) * kMaxLoadFactor ≤ hmap.newer.size then
      hmTriggerRehashing hmap
    else .ok hmap)
  hmHelpRehashing hmap

/-- `hm_delete`: unlink the node with this key, from whichever table. -/
def hmDelete (hmap : HMap α) (hcode : Nat) (eq : α → Result Bool) :
    Result (HMap α × Option (HNode α)) := do
  let hmap ← hmHelpRehashing hmap
  match ← hLookup hmap.newer hcode eq with
  | some link => do
    let (node, newer) ← hDetach hmap.newer link
    .ok ({ hmap with newer := newer }, some node)
  | none =>
    match ← hLookup hmap.older hcode eq with
    | some link => do
      let (node, older) ← hDetach hmap.older link
      .ok ({ hmap with older := older }, some node)
    | none => .ok (hmap, none)

/-- `hm_size`. -/
def hmSize (hmap : HMap α) : Nat := hmap.newer.size + hmap.older.size

/-- `hm_clear`: the tables are freed, the nodes are not. -/
def hmClear (_ : HMap α) : HMap α := {}

/-- The inner loop of `h_foreach`, with the callback's own state `s`. -/
def chainForeach (f : α → σ → Bool × σ) : List (HNode α) → σ → Bool × σ
  | [], s => (true, s)
  | node :: next, s =>
    match f node.payload s with
    | (true, s) => chainForeach f next s
    | (false, s) => (false, s)

/-- The outer loop of `h_foreach`, from slot `i` with `n` slots to go. -/
def slotForeach (htab : HTab α) (f : α → σ → Bool × σ) : Nat → Nat → σ → Result (Bool × σ)
  | 0, _, s => .ok (true, s)
  | n + 1, i, s =>
    match htab.tab[i]? with
    | none => .error .outOfBounds
    | some chain =>
      match chainForeach f chain s with
      | (true, s) => slotForeach htab f n (i + 1) s
      | (false, s) => .ok (false, s)

/-- `h_foreach`: slots `0` to `mask`, unless the mask is zero. -/
def hForeach (htab : HTab α) (f : α → σ → Bool × σ) (s : σ) : Result (Bool × σ) :=
  if htab.mask ≠ 0 then slotForeach htab f (htab.mask + 1) 0 s else .ok (true, s)

/-- `hm_foreach`: the newer table, then the older one. -/
def hmForeach (hmap : HMap α) (f : α → σ → Bool × σ) (s : σ) : Result σ := do
  match ← hForeach hmap.newer f s with
  | (true, s) => do
    let (_, s) ← hForeach hmap.older f s
    .ok s
  | (false, s) => .ok s

end

end RedisServer
