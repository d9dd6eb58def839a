import RedisServer.Core.Base
import RedisServer.Lib.WorkPool

/-!
# The Thread Pool

`thread_pool.cpp`, a call of the pthread library at a time. The workers and
the thread that queues jobs share a mutex and a condition variable.

A thread that wants the mutex waits until nobody has it. `pthread_cond_wait`
releases the mutex and blocks in one step, and takes the mutex again before it
returns. `pthread_cond_signal` wakes at least one of the threads that are
blocked, where there are any, and the library may choose which and how many.
A blocked thread may also wake up for no reason.

What was put, taken and finished is kept beside the queue, as in
`Lib.WorkPool`, and nothing reads it.

## Main definitions

* `WorkerAt`, `QueueAt`: Where a thread is in `worker` and in
  `thread_pool_queue`.
* `TheadPool`, `threadPoolInit`: The pool.
* `workerStep`, `queueStep`, `poolStep`: The steps of the threads.
-/

namespace RedisServer

open Lib

/-- Where a thread is in `worker`: before the lock, at the test of the queue, in
    `pthread_cond_wait`, blocked or woken and without the mutex, at the front of
    the queue, before the unlock with its job, or doing it. -/
inductive WorkerAt (α : Type)
  | lock
  | test
  | blocked
  | woken
  | pop
  | unlock (w : α)
  | work (w : α)
  deriving DecidableEq, Repr

/-- Where the main thread is: outside of `thread_pool_queue`, before the lock,
    before the job is queued, before the signal, or before the unlock. -/
inductive QueueAt (α : Type)
  | out
  | lock (w : α)
  | push (w : α)
  | signal
  | unlock
  deriving DecidableEq, Repr

/-- A thread: the one that queues jobs, or a worker. -/
inductive Owner
  | main
  | worker (i : Nat)
  deriving DecidableEq, Repr

/-- The pool: who has the mutex, the queue, where the threads are, and the
    history. -/
structure TheadPool (α : Type) where
  mu : Option Owner := none
  queue : List α := []
  main : QueueAt α := .out
  threads : List (WorkerAt α)
  put : List α := []
  taken : List (Nat × α) := []
  finished : List α := []
  deriving DecidableEq, Repr

/-- `thread_pool_init`. -/
def threadPoolInit {α : Type} (numThreads : Nat) : Result (TheadPool α) :=
  if numThreads = 0 then .error .assertFailed
  else .ok { threads := List.replicate numThreads .lock }

namespace WorkerAt

variable {α : Type}

/-- The worker is blocked on the condition. -/
def isBlocked : WorkerAt α → Bool
  | .blocked => true
  | _ => false

/-- The job the worker holds. -/
def job : WorkerAt α → Option α
  | .unlock w => some w
  | .work w => some w
  | _ => none

end WorkerAt

/-- What happens next: the main thread calls `thread_pool_queue`, or goes on in
    it, with the threads a signal wakes; a worker goes on; or a blocked worker
    wakes up for no reason. -/
inductive PoolAct (α : Type)
  | call (w : α)
  | main (wakes : List Nat)
  | worker (i : Nat)
  | spurious (i : Nat)
  deriving DecidableEq, Repr

namespace TheadPool

variable {α : Type}

/-- A worker is somewhere else. -/
def moved (p : TheadPool α) (i : Nat) (place : WorkerAt α) : TheadPool α :=
  { p with threads := p.threads.set i place }

/-- A blocked worker wakes up, and has to take the mutex again. -/
def wake (p : TheadPool α) (i : Nat) : TheadPool α :=
  if (p.threads[i]?).any WorkerAt.isBlocked then p.moved i .woken else p

/-- A step of `worker`. A thread that cannot go on waits. -/
def workerStep (p : TheadPool α) (i : Nat) : Result (TheadPool α) :=
  match p.threads[i]? with
  | none => .ok p
  | some .lock =>
    if p.mu = none then .ok { p.moved i .test with mu := some (.worker i) } else .ok p
  | some .test =>
    if p.queue.isEmpty then .ok { p.moved i .blocked with mu := none }
    else .ok (p.moved i .pop)
  | some .blocked => .ok p
  -- back from `pthread_cond_wait`, the queue is tested again
  | some .woken =>
    if p.mu = none then .ok { p.moved i .test with mu := some (.worker i) } else .ok p
  | some .pop =>
    match p.queue with
    -- the front of an empty queue
    | [] => .error .outOfBounds
    | w :: queue =>
      .ok { p.moved i (.unlock w) with queue := queue, taken := p.taken ++ [(i, w)] }
  | some (.unlock w) => .ok { p.moved i (.work w) with mu := none }
  | some (.work w) => .ok { p.moved i .lock with finished := p.finished ++ [w] }

/-- A step of `thread_pool_queue`. -/
def queueStep (p : TheadPool α) (wakes : List Nat) : TheadPool α :=
  match p.main with
  | .out => p
  | .lock w => if p.mu = none then { p with mu := some .main, main := .push w } else p
  | .push w => { p with queue := p.queue ++ [w], main := .signal, put := p.put ++ [w] }
  | .signal =>
    -- a signal that wakes nobody while a thread is blocked is not one
    if p.threads.any WorkerAt.isBlocked ∧
        ¬ wakes.any fun i => (p.threads[i]?).any WorkerAt.isBlocked then p
    else { wakes.foldl wake p with main := .unlock }
  | .unlock => { p with mu := none, main := .out }

/-- One step of a thread. -/
def poolStep (p : TheadPool α) : PoolAct α → Result (TheadPool α × Unit)
  | .call w =>
    match p.main with
    | .out => .ok ({ p with main := .lock w }, ())
    | _ => .ok (p, ())
  | .main wakes => .ok (p.queueStep wakes, ())
  | .worker i => do
    let p ← p.workerStep i
    .ok (p, ())
  | .spurious i => .ok (p.wake i, ())

end TheadPool

end RedisServer
