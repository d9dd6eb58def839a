import RedisServer.Core.Server

/-!
# The Commands

The `do_*` functions of `server.cpp` and the dispatch over them. Each takes
the state, the connection, the command's arguments and the output buffer, and
returns the state and the buffer. `now` is what the clock reads during the
command; no command reads it more than once.

## Main definitions

* `doGet`, `doSet`, `doDel`, `doExpire`, `doTtl`, `doKeys`: Keys and strings.
* `doZadd`, `doZrem`, `doZscore`, `doZquery`: Sorted sets.
* `doRequest`: The dispatch.
* `respond`: A command's response frame on an empty buffer.
-/

namespace RedisServer

/-- `cmd[i]`, where the dispatch has checked the number of arguments. -/
def arg (cmd : List Bytes) (i : Nat) : Bytes := cmd.getD i []

section

variable (R : Runtime)

/-- `do_get`. -/
def doGet (g : GData) (c : Nat) (cmd : List Bytes) (out : Bytes) : Result (GData × Bytes) := do
  -- the lookup may move nodes of the table
  let (g, node) ← dbLookup R g c (arg cmd 1)
  match node with
  | none => .ok (g, outNil out)
  | some ent => do
    let e ← g.entry ent
    if e.type ≠ .str then .ok (g, outErr out errBadTyp (ascii "not a string value"))
    else .ok (g, outStr out e.str)

/-- `do_set`. -/
def doSet (g : GData) (c : Nat) (cmd : List Bytes) (out : Bytes) : Result (GData × Bytes) := do
  let (g, node) ← dbLookup R g c (arg cmd 1)
  match node with
  | some ent => do
    let e ← g.entry ent
    if e.type ≠ .str then .ok (g, outErr out errBadTyp (ascii "a non-string value exists"))
    else .ok (g.setEntry ent { e with str := arg cmd 2 }, outStr out (ascii "1"))
  | none => do
    -- a new entry, with the hash code the lookup computed
    let (g, ent) := entryNew g .str c (arg cmd 1) (R.strHash (arg cmd 1)) (arg cmd 2)
    let g ← dbInsert g c (R.strHash (arg cmd 1)) ent
    .ok (g, outStr out (ascii "1"))

/-- `do_del`. -/
def doDel (g : GData) (c : Nat) (cmd : List Bytes) (out : Bytes) : Result (GData × Bytes) := do
  let conn ← g.conn c
  let (db, node) ← hmDelete conn.db (R.strHash (arg cmd 1)) (entryEq g (arg cmd 1))
  let g := g.setConn c { conn with db := db }
  match node with
  | some node => do
    -- the entry is out of the table before it is deleted
    let g ← entryDel g node.payload
    .ok (g, outStr out (ascii "1"))
  | none => .ok (g, outStr out (ascii "0"))

/-- `do_expire`. -/
def doExpire (g : GData) (c : Nat) (cmd : List Bytes) (now : Nat) (out : Bytes) :
    Result (GData × Bytes) :=
  match str2int (arg cmd 2) with
  | none => .ok (g, outErr out errBadArg (ascii "expect int64"))
  | some ttlMs => do
    let (g, node) ← dbLookup R g c (arg cmd 1)
    match node with
    | some ent => do
      let g ← entrySetTtl g ent ttlMs now
      .ok (g, outInt out 1)
    | none => .ok (g, outInt out 0)

/-- `do_ttl`. -/
def doTtl (g : GData) (c : Nat) (cmd : List Bytes) (now : Nat) (out : Bytes) :
    Result (GData × Bytes) := do
  let (g, node) ← dbLookup R g c (arg cmd 1)
  match node with
  | none => .ok (g, outInt out (-2))
  | some ent => do
    let _ ← g.entry ent
    match g.heapIdx ent with
    | none => .ok (g, outInt out (-1))
    | some pos => do
      let expireAt ← heapVal g.heap pos
      -- a deadline that has passed is reported as zero
      .ok (g, outInt out (if now < expireAt then ((expireAt - now : Nat) : Int) else 0))

/-- `cb_keys`. -/
def cbKeys (g : GData) (node : Nat) (out : Result Bytes) : Bool × Result Bytes :=
  -- the callback never stops the iteration
  (true, do
    let out ← out
    let e ← g.entry node
    .ok (outStr out e.key))

/-- `do_keys`. -/
def doKeys (g : GData) (c : Nat) (out : Bytes) : Result (GData × Bytes) := do
  let conn ← g.conn c
  let out ← hmForeach conn.db (cbKeys g) (.ok (outArr out (hmSize conn.db)))
  let out ← out
  .ok (g, out)

/-- The middle of `do_zadd`: the entry the lookup found, or a new one. -/
def zaddTarget (g : GData) (c : Nat) (key : Bytes) : Option Nat → Result (GData × Nat)
  | none => do
    let (g, ent) := entryNew g .zset c key (R.strHash key) []
    let g ← dbInsert g c (R.strHash key) ent
    .ok (g, ent)
  | some ent => .ok (g, ent)

/-- `do_zadd`. -/
def doZadd (g : GData) (c : Nat) (cmd : List Bytes) (out : Bytes) : Result (GData × Bytes) :=
  match str2dbl R (arg cmd 2) with
  | none => .ok (g, outErr out errBadArg (ascii "expect float"))
  | some score => do
    let (g, hnode) ← dbLookup R g c (arg cmd 1)
    -- a new entry passes the test that follows
    let (g, ent) ← zaddTarget R g c (arg cmd 1) hnode
    let e ← g.entry ent
    if e.type ≠ .zset then .ok (g, outErr out errBadTyp (ascii "expect zset"))
    else do
      let (zset, added) ← zsetInsert R e.zset (arg cmd 3) score
      .ok (g.setEntry ent { e with zset := zset }, outInt out (if added then 1 else 0))

/-- What `expect_zset` returns: the shared empty set, or an entry's. -/
inductive ZRef
  | empty
  | entry (e : Nat)
  deriving DecidableEq, Repr

/-- Read a set through the pointer. -/
def getZset (g : GData) : ZRef → Result ZSet
  | .empty => .ok g.emptyZset
  | .entry e => do
    let e ← g.entry e
    .ok e.zset

/-- Write a set through the pointer. -/
def setZset (g : GData) (z : ZSet) : ZRef → Result GData
  | .empty => .ok { g with emptyZset := z }
  | .entry e => do
    let x ← g.entry e
    .ok (g.setEntry e { x with zset := z })

/-- `expect_zset`: `none` when the key holds another type. -/
def expectZset (g : GData) (c : Nat) (key : Bytes) : Result (GData × Option ZRef) := do
  let (g, hnode) ← dbLookup R g c key
  match hnode with
  -- an absent key is the shared empty set
  | none => .ok (g, some .empty)
  | some ent => do
    let e ← g.entry ent
    .ok (g, if e.type = .zset then some (.entry ent) else none)

/-- `do_zrem`. -/
def doZrem (g : GData) (c : Nat) (cmd : List Bytes) (out : Bytes) : Result (GData × Bytes) := do
  let (g, zset) ← expectZset R g c (arg cmd 1)
  match zset with
  | none => .ok (g, outErr out errBadTyp (ascii "expect zset"))
  | some ref => do
    let z ← getZset g ref
    let (z, znode) ← zsetLookup R z (arg cmd 2)
    match znode with
    | none => do
      let g ← setZset g z ref
      .ok (g, outInt out 0)
    | some node => do
      let z ← zsetDelete z node
      let g ← setZset g z ref
      .ok (g, outInt out 1)

/-- `do_zscore`. -/
def doZscore (g : GData) (c : Nat) (cmd : List Bytes) (out : Bytes) : Result (GData × Bytes) := do
  let (g, zset) ← expectZset R g c (arg cmd 1)
  match zset with
  | none => .ok (g, outErr out errBadTyp (ascii "expect zset"))
  | some ref => do
    let z ← getZset g ref
    let (z, znode) ← zsetLookup R z (arg cmd 2)
    let g ← setZset g z ref
    match znode with
    | none => .ok (g, outNil out)
    | some node => do
      let n ← z.znode node
      .ok (g, outDbl out n.score)

/-- The output loop of `do_zquery`, with `n` values written so far. -/
def zqueryLoop (z : ZSet) (limit : Int) : Nat → Option Nat → Int → Bytes → Result (Int × Bytes)
  | 0, _, _, _ => .error .noProgress
  | _ + 1, none, n, out => .ok (n, out)
  | fuel + 1, some a, n, out =>
    -- `n` counts values, two for each tuple
    if n < limit then do
      let znode ← z.znode a
      let out := outDbl (outStr out znode.name) znode.score
      let next ← znodeOffset z (some a) 1
      zqueryLoop z limit fuel next (n + 2) out
    else .ok (n, out)

/-- `do_zquery`. The loop writes two values a turn, so `limit` bounds it. -/
def doZquery (g : GData) (c : Nat) (cmd : List Bytes) (out : Bytes) : Result (GData × Bytes) :=
  match str2dbl R (arg cmd 2) with
  | none => .ok (g, outErr out errBadArg (ascii "expect fp number"))
  | some score =>
    match str2int (arg cmd 4), str2int (arg cmd 5) with
    | some offset, some limit => do
      let (g, zset) ← expectZset R g c (arg cmd 1)
      match zset with
      | none => .ok (g, outErr out errBadTyp (ascii "expect zset"))
      | some ref =>
        if limit ≤ 0 then .ok (g, outArr out 0)
        else do
          let z ← getZset g ref
          let znode ← zsetSeekge z score (arg cmd 3)
          let znode ← znodeOffset z znode offset
          -- the length is patched once it is known
          let (out, ctx) := outBeginArr out
          let (n, out) ← zqueryLoop z limit (limit.toNat + 1) znode 0 out
          let out ← outEndArr out ctx n.toNat
          .ok (g, out)
    | _, _ => .ok (g, outErr out errBadArg (ascii "expect int"))

/-- The test of `do_request`: the number of arguments and the command. -/
def isCmd (cmd : List Bytes) (size : Nat) (name : String) : Bool :=
  decide (cmd.length = size) && arg cmd 0 == ascii name

/-- `do_request`. -/
def doRequest (g : GData) (c : Nat) (cmd : List Bytes) (now : Nat) (out : Bytes) :
    Result (GData × Bytes) :=
  if isCmd cmd 2 "get" then doGet R g c cmd out
  else if isCmd cmd 3 "set" then doSet R g c cmd out
  else if isCmd cmd 2 "del" then doDel R g c cmd out
  else if isCmd cmd 3 "pexpire" then doExpire R g c cmd now out
  else if isCmd cmd 2 "pttl" then doTtl R g c cmd now out
  else if isCmd cmd 1 "keys" then doKeys g c out
  else if isCmd cmd 4 "zadd" then doZadd R g c cmd out
  else if isCmd cmd 3 "zrem" then doZrem R g c cmd out
  else if isCmd cmd 3 "zscore" then doZscore R g c cmd out
  else if isCmd cmd 6 "zquery" then doZquery R g c cmd out
  else if isCmd cmd 1 "quit" then .ok (g, outStr out (ascii "BYE"))
  else .ok (g, outErr out errUnknown (ascii "Unknown command."))

/-- The response frame of a command: `response_begin`, `do_request` and
    `response_end` on an empty buffer, as `try_one_request` runs them. -/
def respond (g : GData) (c : Nat) (cmd : List Bytes) (now : Nat) : Result (GData × Bytes) := do
  let (out, header) := responseBegin []
  let (g, out) ← doRequest R g c cmd now out
  let out ← responseEnd out header
  .ok (g, out)

end

end RedisServer
