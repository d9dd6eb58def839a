import RedisServer.Core.Heap
import RedisServer.Core.List
import RedisServer.Core.Output
import RedisServer.Core.Zset

/-!
# The Server's State

The records of `server.cpp` and the helpers every command uses.

Entries and connections are objects in memory, so the state maps addresses to
them, and an address that was freed maps to nothing. Two members live outside
their record: the `heap_idx` of every entry, because the heap writes it
through a pointer without knowing about entries, and the `idle_node` of every
connection, because the list does.

## Main definitions

* `Entry`, `Conn`, `GData`: The records.
* `entryNew`, `entrySetTtl`, `entryDel`: The life of an entry.
* `dbLookup`: The lookup every command starts with.
* `strtoll`, `str2int`, `str2dbl`: Number arguments.
-/

namespace RedisServer

/-- The value types `T_INIT`, `T_STR` and `T_ZSET`. -/
inductive ValueType
  | init
  | str
  | zset
  deriving DecidableEq, Repr

/-- A key and its value. `hcode` is the hash code of the entry's hashtable
    node. -/
structure Entry where
  hcode : Nat
  key : Bytes
  type : ValueType
  str : Bytes
  zset : ZSet
  ownerConn : Option Nat

/-- A connection. -/
structure Conn where
  fd : Int
  wantRead : Bool := false
  wantWrite : Bool := false
  wantClose : Bool := false
  incoming : Bytes := []
  outgoing : Bytes := []
  lastActiveMs : Nat := 0
  db : HMap Nat := {}

/-- The global state: the members of `g_data`, and the memory of connections
    and entries. -/
structure GData where
  fd2conn : List (Option Nat) := []
  idleList : Links := dlistInit (fun _ => none) .head
  heap : List (HeapItem Nat) := []
  queue : List Nat := []
  conns : Nat → Option Conn := fun _ => none
  entries : Nat → Option Entry := fun _ => none
  heapIdx : Refs Nat := fun _ => none
  nextConn : Nat := 0
  nextEntry : Nat := 0
  emptyZset : ZSet := {}

namespace GData

/-- Read a connection. -/
def conn (g : GData) (c : Nat) : Result Conn :=
  match g.conns c with
  | none => .error .freedConn
  | some x => .ok x

/-- Write a connection. -/
def setConn (g : GData) (c : Nat) (x : Conn) : GData :=
  { g with conns := Function.update g.conns c (some x) }

/-- Read an entry. -/
def entry (g : GData) (e : Nat) : Result Entry :=
  match g.entries e with
  | none => .error .freedEntry
  | some x => .ok x

/-- Write an entry. -/
def setEntry (g : GData) (e : Nat) (x : Entry) : GData :=
  { g with entries := Function.update g.entries e (some x) }

end GData

/-- `entry_new`, followed by the assignment of key and hash code its callers
    make before the entry is inserted anywhere. -/
def entryNew (g : GData) (type : ValueType) (c : Nat) (key : Bytes) (hcode : Nat) (str : Bytes) :
    GData × Nat :=
  ({ g with
      entries := Function.update g.entries g.nextEntry
        (some { hcode, key, type, str, zset := {}, ownerConn := some c })
      heapIdx := Function.update g.heapIdx g.nextEntry none
      nextEntry := g.nextEntry + 1 }, g.nextEntry)

/-- `entry_set_ttl`: `now` is what the clock reads if it is read. -/
def entrySetTtl (g : GData) (ent : Nat) (ttlMs : Int) (now : Nat) : Result GData := do
  let _ ← g.entry ent
  if ttlMs < 0 then
    match g.heapIdx ent with
    -- a negative time to live clears the deadline
    | some pos => do
      let (heap, refs) ← heapDelete g.heap g.heapIdx pos
      .ok { g with heap := heap, heapIdx := Function.update refs ent none }
    | none => .ok g
  else do
    -- `now + ttl` is a `uint64_t`
    let expireAt := (now + ttlMs.toNat) % 2 ^ 64
    let (heap, refs) ←
      heapUpsert g.heap g.heapIdx (g.heapIdx ent) { val := expireAt, ref := some ent }
    .ok { g with heap := heap, heapIdx := refs }

/-- `entry_del_sync`. -/
def entryDelSync (g : GData) (ent : Nat) : Result GData := do
  let e ← g.entry ent
  let _ ← (if e.type = .zset then zsetClear e.zset else .ok e.zset)
  .ok { g with entries := Function.update g.entries ent none }

/-- `k_large_container_size`. -/
def kLargeContainerSize : Nat := 1000

/-- `entry_del`: out of the heap, and then freed here or by the thread pool. -/
def entryDel (g : GData) (ent : Nat) : Result GData := do
  -- the clock is not read on this path
  let g ← entrySetTtl g ent (-1) 0
  let e ← g.entry ent
  let setSize := if e.type = .zset then hmSize e.zset.hmap else 0
  -- a large set is left to the thread pool, with its record
  if kLargeContainerSize < setSize then .ok { g with queue := g.queue ++ [ent] }
  else entryDelSync g ent

/-- `entry_eq`: the callback of the lookup by key. -/
def entryEq (g : GData) (key : Bytes) (node : Nat) : Result Bool := do
  let ent ← g.entry node
  .ok (ent.key == key)

/-- The lookup of a key in `conn->db`. It may move nodes of the table. -/
def dbLookup (R : Runtime) (g : GData) (c : Nat) (key : Bytes) : Result (GData × Option Nat) := do
  let conn ← g.conn c
  let (db, node) ← hmLookup conn.db (R.strHash key) (entryEq g key)
  .ok (g.setConn c { conn with db := db }, node.map HNode.payload)

/-- The insertion of an entry's node into `conn->db`. -/
def dbInsert (g : GData) (c : Nat) (hcode ent : Nat) : Result GData := do
  let conn ← g.conn c
  let db ← hmInsert conn.db { hcode := hcode, payload := ent }
  .ok (g.setConn c { conn with db := db })

/-- `isspace` in the C locale. -/
def isSpace (b : UInt8) : Bool := b = 32 || (9 ≤ b && b ≤ 13)

/-- `isdigit`. -/
def isDigit (b : UInt8) : Bool := 48 ≤ b && b ≤ 57

/-- The value of a digit string. -/
def digitsVal (ds : Bytes) : Nat := ds.foldl (fun v b => v * 10 + (b.toNat - 48)) 0

/-- A value brought into the range of `long long`, as `strtoll` reports an
    overflow. -/
def saturate (v : Int) : Int := max (-(2 ^ 63)) (min (2 ^ 63 - 1) v)

/-- `strtoll` in base ten: the value, and how many characters it consumed.
    Without a digit it consumes none. The terminating zero, or any zero byte
    before it, is not a digit and ends the number. -/
def strtoll (s : Bytes) : Int × Nat :=
  let rest := s.dropWhile isSpace
  let (neg, skip) :=
    match rest with
    | 45 :: _ => (true, 1)
    | 43 :: _ => (false, 1)
    | _ => (false, 0)
  let digits := (rest.drop skip).takeWhile isDigit
  if digits.isEmpty then (0, 0)
  else
    let v := digitsVal digits
    (saturate (if neg then -(v : Int) else v), s.length - rest.length + skip + digits.length)

/-- `str2int`: the number, or `none` for `false`. -/
def str2int (s : Bytes) : Option Int :=
  let (v, stop) := strtoll s
  -- the whole string has to be consumed
  if stop = s.length then some v else none

/-- `str2dbl`: the number, or `none` for `false`. -/
def str2dbl (R : Runtime) (s : Bytes) : Option Double :=
  let (v, stop) := R.strtod s
  if stop = s.length ∧ ¬ v.isNan then some v else none

end RedisServer
