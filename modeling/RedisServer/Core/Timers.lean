import RedisServer.Core.Server

/-!
# Connections and Timers

The life of a connection and the sweep that ends idle ones and expired keys:
`handle_accept`, `conn_destroy` and `process_timers` of `server.cpp`. The
clock's reading is an argument.

## Main definitions

* `handleAccept`, `connTouch`, `connDestroy`: A connection's life.
* `idleLoop`, `ttlLoop`, `processTimers`: The sweep.
-/

namespace RedisServer

/-- `handle_accept`, and the entry the event loop makes in `fd2conn`.
    `connfd` is what `accept` returned. -/
def handleAccept (g : GData) (connfd : Int) (now : Nat) : Result GData :=
  if connfd < 0 then .ok g
  else do
    let c := g.nextConn
    let idle := Function.update g.idleList (.conn c) (some {})
    let idle ← dlistInsertBefore idle .head (.conn c)
    let fd := connfd.toNat
    .ok { g with
      conns := Function.update g.conns c
        (some { fd := connfd, wantRead := true, lastActiveMs := now })
      idleList := idle
      nextConn := c + 1
      fd2conn := (g.fd2conn ++ List.replicate (fd + 1 - g.fd2conn.length) none).set fd (some c) }

/-- The event loop's bookkeeping for a connection that is ready: it becomes
    the most recently active one. -/
def connTouch (g : GData) (c : Nat) (now : Nat) : Result GData := do
  let conn ← g.conn c
  let g := g.setConn c { conn with lastActiveMs := now }
  let idle ← dlistDetach g.idleList (.conn c)
  let idle ← dlistInsertBefore idle .head (.conn c)
  .ok { g with idleList := idle }

/-- `conn_destroy`. The connection's table and entries are not touched. -/
def connDestroy (g : GData) (c : Nat) : Result GData := do
  let conn ← g.conn c
  let fd2conn :=
    if 0 ≤ conn.fd ∧ conn.fd.toNat < g.fd2conn.length then g.fd2conn.set conn.fd.toNat none
    else g.fd2conn
  let idle ← dlistDetach g.idleList (.conn c)
  .ok { g with
    fd2conn := fd2conn
    idleList := Function.update idle (.conn c) none
    conns := Function.update g.conns c none }

/-- `k_idle_timeout_ms`. -/
def kIdleTimeoutMs : Nat := 60000

/-- The idle loop of `process_timers`. Each turn ends one connection. -/
def idleLoop (now : Nat) : Nat → GData → Result GData
  | 0, _ => .error .noProgress
  | fuel + 1, g => do
    let head ← g.idleList.load (some .head)
    match head.next with
    | none => .error .nullDeref
    | some .head => .ok g
    | some (.conn c) => do
      let conn ← g.conn c
      let nextMs := (conn.lastActiveMs + kIdleTimeoutMs) % 2 ^ 64
      if now ≤ nextMs then .ok g
      else do
        -- fd2conn is cleared here and once more by conn_destroy
        let g :=
          if 0 ≤ conn.fd ∧ conn.fd.toNat < g.fd2conn.length then
            { g with fd2conn := g.fd2conn.set conn.fd.toNat none }
          else g
        let g ← connDestroy g c
        idleLoop now fuel g

/-- `k_max_works`. -/
def kMaxWorks : Nat := 2000

/-- `hnode_same`: the callback of a lookup by identity. -/
def hnodeSame (key node : Nat) : Result Bool := .ok (decide (node = key))

/-- The TTL loop of `process_timers`. Each turn takes an item off the heap. -/
def ttlLoop (now : Nat) : Nat → Nat → GData → Result GData
  | 0, _, _ => .error .noProgress
  | fuel + 1, nworks, g =>
    match g.heap with
    | [] => .ok g
    | item :: _ =>
      if item.val < now then
        match item.ref with
        | none => do
          let (heap, refs) ← heapDelete g.heap g.heapIdx 0
          ttlLoop now fuel nworks { g with heap := heap, heapIdx := refs }
        | some ent => do
          let e ← g.entry ent
          match g.heapIdx ent, e.ownerConn with
          | some _, some owner => do
            let conn ← g.conn owner
            let (db, node) ← hmDelete conn.db e.hcode (hnodeSame ent)
            let g := g.setConn owner { conn with db := db }
            if node.map HNode.payload ≠ some ent then .error .assertFailed
            else do
              let g ← entryDel g ent
              -- the counter is looked at after the work, so one more is done
              if kMaxWorks ≤ nworks then .ok g else ttlLoop now fuel (nworks + 1) g
          | _, _ => do
            -- a stale or unbound item
            let (heap, refs) ← heapDelete g.heap g.heapIdx 0
            ttlLoop now fuel nworks { g with heap := heap, heapIdx := refs }
      else .ok g

/-- `process_timers`. -/
def processTimers (g : GData) (now : Nat) : Result GData := do
  let g ← idleLoop now (g.nextConn + 1) g
  ttlLoop now (g.heap.length + 1) 0 g

end RedisServer
