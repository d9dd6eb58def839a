import RedisServer.Core.Commands
import RedisServer.Core.Timers
import RedisServer.Lib.WorkPool

/-!
# The Main Thread and the Workers

The server with its thread pool. The main thread runs commands and expires
keys, and puts large sorted sets that it deletes into the queue of the pool.
Each worker takes one job at a time under the mutex and disposes of its entry,
while the main thread goes on.

A deletion is three steps of the main thread, and workers may take steps in
between: the entry leaves its table, it leaves the heap, and it is put in the
queue, or disposed of at once if it is small. Both places that delete entries,
`do_del` and `process_timers`, go through them. Other commands delete nothing,
and are one step each. No connection is destroyed.

The queue is the one of `g_data.thread_pool`. What was put, taken and finished
is kept beside it, and nothing reads it.

## Main definitions

* `delUnlink`, `ttlUnlink`: `do_del` and `process_timers` up to `entry_del`.
* `Threads`: The server, the main thread's place and the workers.
* `ThreadAct`, `threadStep`: The steps of the threads.
-/

namespace RedisServer

open Lib

/-- `do_del` up to its call of `entry_del`: the entry it is called with, which
    is out of the table. -/
def delUnlink (R : Runtime) (g : GData) (c : Nat) (cmd : List Bytes) :
    Result (GData × Option Nat) := do
  let conn ← g.conn c
  let (db, node) ← hmDelete conn.db (R.strHash (arg cmd 1)) (entryEq g (arg cmd 1))
  .ok (g.setConn c { conn with db := db }, node.map HNode.payload)

/-- One turn of the TTL loop of `process_timers` up to its call of
    `entry_del`. -/
def ttlUnlink (g : GData) (now : Nat) : Result (GData × Option Nat) :=
  match g.heap with
  | [] => .ok (g, none)
  | item :: _ =>
    if item.val < now then
      match item.ref with
      | none => do
        let (heap, refs) ← heapDelete g.heap g.heapIdx 0
        .ok ({ g with heap := heap, heapIdx := refs }, none)
      | some ent => do
        let e ← g.entry ent
        match g.heapIdx ent, e.ownerConn with
        | some _, some owner => do
          let conn ← g.conn owner
          let (db, node) ← hmDelete conn.db e.hcode (hnodeSame ent)
          if node.map HNode.payload ≠ some ent then .error .assertFailed
          else .ok (g.setConn owner { conn with db := db }, some ent)
        | _, _ => do
          let (heap, refs) ← heapDelete g.heap g.heapIdx 0
          .ok ({ g with heap := heap, heapIdx := refs }, none)
    else .ok (g, none)

/-- Where the main thread is: between two commands or expirations, or inside
    `entry_del`, before or after the entry leaves the heap. -/
inductive MainAt
  | idle
  | unlinked (ent : Nat)
  | untimed (ent : Nat)
  deriving DecidableEq, Repr

/-- The entry the main thread is deleting. -/
def MainAt.ent : MainAt → Option Nat
  | .idle => none
  | .unlinked ent => some ent
  | .untimed ent => some ent

/-- The server and its threads: the memory with the queue, the main thread,
    the job each worker holds, the history of the pool, and the entries that
    the main thread disposed of itself. -/
structure Threads where
  g : GData := {}
  main : MainAt := .idle
  held : List (Option Nat)
  put : List Nat := []
  taken : List (Nat × Nat) := []
  finished : List Nat := []
  freed : List Nat := []

namespace Threads

/-- `thread_pool_init` with a number of threads. -/
def init (numThreads : Nat) : Threads := { held := List.replicate numThreads none }

/-- The pool: the queue, the workers and the history. -/
def pool (s : Threads) : WorkPool Nat :=
  { queue := s.g.queue, held := s.held, put := s.put, taken := s.taken, finished := s.finished }

/-- The state with another pool. -/
def withPool (s : Threads) (p : WorkPool Nat) : Threads :=
  { s with
    g := { s.g with queue := p.queue }
    held := p.held
    put := p.put
    taken := p.taken
    finished := p.finished }

/-- The entries on which `entry_del_sync` was called. -/
def disposed (s : Threads) : List Nat := s.finished ++ s.freed

end Threads

/-- The steps of the threads. The first three are commands of the main thread
    and what precedes them, `expire` is a turn of the TTL loop, `untime` and
    `dispose` are the two halves of `entry_del`, and `take` and `run` are the
    two halves of `worker`. -/
inductive ThreadAct
  | accept (connfd : Int) (now : Nat)
  | touch (c : Nat) (now : Nat)
  | command (c : Nat) (cmd : List Bytes) (now : Nat)
  | expire (now : Nat)
  | untime
  | dispose
  | take (w : Nat)
  | run (w : Nat)

/-- A step of the main thread between two commands. It cannot take it while it
    deletes an entry. -/
def mainIdle (s : Threads) (step : GData → Result (GData × Option Nat)) : Result (Threads × Unit) :=
  match s.main with
  | .idle => do
    let (g, ent) ← step s.g
    .ok ({ s with g := g, main := ent.elim .idle .unlinked }, ())
  | _ => .ok (s, ())

/-- One step of a thread. A thread that is not there to take the step waits. -/
def threadStep (R : Runtime) (s : Threads) : ThreadAct → Result (Threads × Unit)
  | .accept connfd now => mainIdle s fun g => do
    let g ← handleAccept g connfd now
    .ok (g, none)
  | .touch c now => mainIdle s fun g => do
    let g ← connTouch g c now
    .ok (g, none)
  | .command c cmd now => mainIdle s fun g =>
    if isCmd cmd 2 "del" then delUnlink R g c cmd
    else do
      let _ ← g.conn c
      let (g, _) ← doRequest R g c cmd now []
      .ok (g, none)
  | .expire now => mainIdle s fun g => ttlUnlink g now
  | .untime =>
    match s.main with
    | .unlinked ent => do
      let g ← entrySetTtl s.g ent (-1) 0
      .ok ({ s with g := g, main := .untimed ent }, ())
    | _ => .ok (s, ())
  | .dispose =>
    match s.main with
    | .untimed ent => do
      let e ← s.g.entry ent
      let setSize := if e.type = .zset then hmSize e.zset.hmap else 0
      if kLargeContainerSize < setSize then
        .ok ({ s with main := .idle }.withPool (s.pool.push ent), ())
      else do
        let g ← entryDelSync s.g ent
        .ok ({ s with g := g, main := .idle, freed := s.freed ++ [ent] }, ())
    | _ => .ok (s, ())
  | .take w => .ok (s.withPool (s.pool.take w), ())
  | .run w =>
    match s.pool.job w with
    | some ent => do
      let g ← entryDelSync s.g ent
      .ok ({ s with g := g }.withPool (s.pool.finish w), ())
    | none => .ok (s, ())

end RedisServer
