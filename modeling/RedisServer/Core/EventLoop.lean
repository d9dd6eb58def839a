import RedisServer.Core.Connection

/-!
# The Event Loop

`next_timer_ms` and the loop of `main`. One iteration asks `poll` about every
connection, accepts at most one new connection, gives every connection that is
ready its turn, and sweeps the timers. What the system calls return is an
argument, and `poll` reports only events it was asked for, besides errors.

The answer of `poll` names a descriptor. The turn goes to the connection that
has the descriptor when the turn comes. `PollArg.conn` remembers the one it was
asked for, and the loop does not look at it.

## Main definitions

* `nextTimerMs`: The timeout.
* `PollArg`, `pollArgs`: What `poll` is asked.
* `connLoop`: The loop over the connections.
* `iteration`: One iteration of the loop in `main`.
-/

namespace RedisServer

/-- `next_timer_ms`, as the `int32_t` the loop takes it for. -/
def nextTimerMs (g : GData) (now : Nat) : Result Int := do
  let head ← g.idleList.load (some .head)
  let nextMs ←
    (match head.next with
    | none => .error .nullDeref
    -- the list is empty: no timer
    | some .head => .ok (2 ^ 64 - 1)
    | some (.conn c) => do
      let conn ← g.conn c
      .ok ((conn.lastActiveMs + kIdleTimeoutMs) % 2 ^ 64))
  let nextMs :=
    match g.heap with
    | [] => nextMs
    -- the root of the heap has the earliest deadline
    | item :: _ => if item.val < nextMs then item.val else nextMs
  -- `poll` waits for ever
  if nextMs = 2 ^ 64 - 1 then .ok (-1)
  else if nextMs ≤ now then .ok 0
  -- the difference is narrowed to the `int32_t` that is returned
  else .ok (toI32 (nextMs - now))

/-- An element of `poll_args` for a connection: the descriptor and the events
    asked for, with the connection it is made from. -/
structure PollArg where
  fd : Int
  pollIn : Bool
  pollOut : Bool
  conn : Nat
  deriving DecidableEq, Repr

/-- The elements of `poll_args` after the first. -/
def pollArgs (g : GData) : List (Option Nat) → Result (List PollArg)
  | [] => .ok []
  | none :: fds => pollArgs g fds
  | some c :: fds => do
    let conn ← g.conn c
    let args ← pollArgs g fds
    .ok ({ fd := conn.fd, pollIn := conn.wantRead, pollOut := conn.wantWrite, conn := c } :: args)

/-- The connection a descriptor belongs to. -/
def connOf (g : GData) (fd : Int) : Option Nat :=
  if 0 ≤ fd ∧ fd.toNat < g.fd2conn.length then (g.fd2conn[fd.toNat]?).join else none

/-- What `poll` reports of the events that occurred: those it was asked for,
    and errors. -/
def PollArg.report (arg : PollArg) (ready : Ready) : Ready :=
  { ready with pollIn := arg.pollIn && ready.pollIn, pollOut := arg.pollOut && ready.pollOut }

/-- The loop over the connection sockets. `none` is an element nothing is
    reported for. -/
def connLoop (R : Runtime) : GData → List PollArg → List (Option Ready) →
    Result (GData × List Turn)
  | g, arg :: args, some ready :: rs =>
    match connOf g arg.fd with
    -- the descriptor has no connection any more
    | none => connLoop R g args rs
    | some c => do
      let (g, turn) ← connReady R g c arg.conn (arg.report ready)
      let (g, turns) ← connLoop R g args rs
      .ok (g, turn :: turns)
  | g, _ :: args, none :: rs => connLoop R g args rs
  | g, _, _ => .ok (g, [])

/-- What one iteration meets: what the clock reads before `poll`, what `accept`
    returns and what the clock reads then, what happens on the connections in
    the order of `poll_args`, and what the clock reads in the sweep. -/
structure Wake where
  before : Nat := 0
  accept : Option (Int × Nat) := none
  ready : List (Option Ready) := []
  now : Nat

/-- What `poll` returns: it was interrupted, or something happened. -/
inductive PollResult
  | interrupted (before : Nat)
  | woke (wake : Wake)

/-- One iteration of the loop in `main`, with the turns it gave. -/
def iteration (R : Runtime) (g : GData) : PollResult → Result (GData × List Turn)
  | .interrupted before => do
    let _ ← pollArgs g g.fd2conn
    -- `continue`: no timer is processed
    let _ ← nextTimerMs g before
    .ok (g, [])
  | .woke wake => do
    let args ← pollArgs g g.fd2conn
    let _ ← nextTimerMs g wake.before
    let g ←
      (match wake.accept with
      | none => .ok g
      | some (connfd, now) => handleAccept g connfd now)
    let (g, turns) ← connLoop R g args wake.ready
    let g ← processTimers g wake.now
    .ok (g, turns)

end RedisServer
