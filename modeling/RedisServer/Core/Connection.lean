import RedisServer.Core.Commands
import RedisServer.Core.Request
import RedisServer.Core.Timers

/-!
# Reading and Writing

The connection state machine of `server.cpp`: how bytes that arrive become
requests, how responses leave, and what the event loop does with a connection
that is ready. What `read` and `write` return is an argument.

Beside the state, the functions return what an observer of the server would
note down: which requests were executed and with which response, which bytes
were read, and which were handed to `write`. The source keeps no such record,
and nothing here reads it.

## Main definitions

* `tryOneRequest`: One frame of the incoming buffer.
* `handleRead`, `handleWrite`: The two handlers.
* `connReady`: One turn of the event loop's loop over connections.
-/

namespace RedisServer

open Lib

/-- A request that was executed: the command, what the clock read, and the
    response frame. -/
structure Served where
  cmd : List Bytes
  now : Nat
  response : Bytes
  deriving DecidableEq, Repr

section

variable (R : Runtime)

/-- The reply to a request that cannot be served: appended to the outgoing
    buffer, `n` bytes of the input consumed, and the connection marked. -/
def refuse (g : GData) (c : Nat) (conn : Conn) (msg : Bytes) (n : Nat) : Result GData := do
  let (out, header) := responseBegin conn.outgoing
  let out ← responseEnd (outErr out errBadReq msg) header
  .ok (g.setConn c { conn with
    outgoing := out
    incoming := conn.incoming.drop n
    wantRead := false
    wantWrite := true
    -- `main` destroys a connection so marked at the end of its turn
    wantClose := true })

/-- `try_one_request`. It returns `true` when it executed a request, and then
    the result here is that request. -/
def tryOneRequest (g : GData) (c : Nat) (now : Nat) : Result (GData × Option Served) := do
  let conn ← g.conn c
  -- not even the length has arrived
  if conn.incoming.length < 4 then .ok (g, none)
  else do
    let len := leNat (conn.incoming.take 4)
    if kMaxMsg < len then do
      let g ← refuse g c conn (ascii "Message too long") 4
      .ok (g, none)
    -- the body has not arrived
    else if conn.incoming.length < 4 + len then .ok (g, none)
    else do
      let request := (conn.incoming.drop 4).take len
      let (rv, cmd) ← parseReq request len []
      if rv < 0 then do
        let g ← refuse g c conn (ascii "Bad request") (4 + len)
        .ok (g, none)
      else do
        -- the outgoing buffer is cleared, whatever it still holds
        let (g, out) ← respond R g c cmd now
        let conn ← g.conn c
        .ok (g.setConn c { conn with
          outgoing := out
          incoming := conn.incoming.drop (4 + len) }, some { cmd, now, response := out })

/-- `while (try_one_request(conn))`. Every request consumes four bytes or
    more, so the length of the input bounds the loop. `clock i` is what the
    clock reads during the `i`-th request. -/
def requestLoop (c : Nat) (clock : Nat → Nat) : Nat → Nat → GData → Result (GData × List Served)
  | 0, _, _ => .error .noProgress
  | fuel + 1, i, g => do
    let (g, served) ← tryOneRequest R g c (clock i)
    match served with
    | none => .ok (g, [])
    | some s => do
      let (g, rest) ← requestLoop c clock fuel (i + 1) g
      .ok (g, s :: rest)

/-- What `read` returns. The end of the stream is an empty `data`. -/
inductive ReadResult
  | data (bs : Bytes)
  | eagain
  | error
  deriving DecidableEq, Repr

/-- `handle_read`. -/
def handleRead (g : GData) (c : Nat) (rv : ReadResult) (clock : Nat → Nat) :
    Result (GData × List Served) := do
  let conn ← g.conn c
  match rv with
  | .eagain => .ok (g, [])
  | .error => .ok (g.setConn c { conn with wantClose := true }, [])
  -- the end of the stream
  | .data [] => .ok (g.setConn c { conn with wantClose := true }, [])
  | .data (b :: bs) => do
    let incoming := conn.incoming ++ b :: bs
    let g := g.setConn c { conn with incoming := incoming }
    let (g, served) ← requestLoop R c clock (incoming.length + 1) 0 g
    let conn ← g.conn c
    -- a reply waits, so the connection turns to writing
    if 0 < conn.outgoing.length then
      .ok (g.setConn c { conn with wantRead := false, wantWrite := true }, served)
    else .ok (g, served)

end

/-- What `write` returns; it accepts no more than it was given. -/
inductive WriteResult
  | wrote (n : Nat)
  | eagain
  | error
  deriving DecidableEq, Repr

/-- `handle_write` on the results of its `write` calls, with the bytes they
    accepted. When the results run out the socket is not ready. -/
def handleWrite (g : GData) (c : Nat) : List WriteResult → Result (GData × Bytes)
  | [] => do
    let conn ← g.conn c
    if conn.outgoing.isEmpty then
      .ok (g.setConn c { conn with wantWrite := false, wantRead := true }, [])
    else .ok (g, [])
  | rv :: rvs => do
    let conn ← g.conn c
    if conn.outgoing.isEmpty then
      .ok (g.setConn c { conn with wantWrite := false, wantRead := true }, [])
    else
      match rv with
      | .eagain => .ok (g, [])
      | .error => .ok (g.setConn c { conn with wantClose := true }, [])
      | .wrote n =>
        if n = 0 then .ok (g.setConn c { conn with wantClose := true }, [])
        else do
          let g := g.setConn c { conn with outgoing := conn.outgoing.drop n }
          let (g, sent) ← handleWrite g c rvs
          .ok (g, conn.outgoing.take n ++ sent)

/-- What `poll` reports for a connection, what the clock reads when its turn
    comes, and what its handlers meet. -/
structure Ready where
  pollIn : Bool := false
  pollOut : Bool := false
  pollErr : Bool := false
  now : Nat := 0
  read : ReadResult := .eagain
  writes : List WriteResult := []
  clock : Nat → Nat := fun _ => 0

/-- What happened in one turn: the connection `conn` the turn was given to and
    its record then, the connection `poll` was asked about, what was reported,
    what was executed and written, and, if the connection was destroyed, its
    record at that moment. -/
structure Turn where
  conn : Nat
  found : Conn
  polled : Nat
  ready : Ready
  served : List Served
  sent : Bytes
  closed : Option Conn

/-- The bytes a `read` delivers. -/
def ReadResult.bytes : ReadResult → Bytes
  | .data bs => bs
  | _ => []

/-- The bytes read in a turn. -/
def Turn.received (turn : Turn) : Bytes :=
  if turn.ready.pollIn then turn.ready.read.bytes else []

/-- One turn of the loop over the connections that are ready. -/
def connReady (R : Runtime) (g : GData) (c polled : Nat) (ready : Ready) :
    Result (GData × Turn) := do
  let found ← g.conn c
  let g ← connTouch g c ready.now
  let (g, served) ←
    (if ready.pollIn then handleRead R g c ready.read ready.clock else .ok (g, []))
  let (g, sent) ← (if ready.pollOut then handleWrite g c ready.writes else .ok (g, []))
  let conn ← g.conn c
  -- what the connection still has to write does not keep it
  let closing := ready.pollErr ∨ conn.wantClose
  let g ← (if closing then connDestroy g c else .ok g)
  .ok (g, {
    conn := c
    found := found
    polled := polled
    ready := ready
    served := served
    sent := sent
    closed := if closing then some conn else none })

end RedisServer
