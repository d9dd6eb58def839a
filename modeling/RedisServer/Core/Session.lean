import RedisServer.Core.Client
import RedisServer.Core.EventLoop
import RedisServer.Core.Tokenizer

/-!
# Clients and the Server

The processes of `client.cpp` beside the server, with the bytes between them.
A client is where it stands in `query`: it splits a line, sends the frame of
the command, and reads a header and a payload, a system call at a time. What
it has written is on its way up to the server, and what the server has written
is on its way down to it. The server is the loop of `Core.EventLoop`, an
iteration at a time.

The client `c` is the one whose connection is the `c`-th the server accepts.
It may write before that. A system call of a client moves bytes, fails, or
meets the end of the stream, as it does when the server has closed the
connection; and a client can be killed at any time.

Beside its state, a client keeps the commands it sent, the responses it read,
and whether one of its calls went wrong, as an observer would note them down.
The source keeps no such record, and nothing here reads it.

## Main definitions

* `Stage`, `Client`: A client, and the bytes of its connection.
* `Client.query`, `Client.write`, `Client.read`: Its system calls.
* `Client.readEof`, `Client.fail`: The calls that go wrong.
* `Session`, `sessionStep`: The clients and the server.
-/

namespace RedisServer

open Lib

/-- Where a client is: between two commands, in `write_all` with bytes left to
    write, in the `read_full` of the length or of the payload with the bytes
    stored so far, or gone with its socket closed. -/
inductive Stage
  | ready
  | writing (rest : Bytes)
  | header (got : Bytes)
  | payload (header got : Bytes)
  | gone
  deriving DecidableEq, Repr

/-- A response: the bytes in the buffers it was read into, and what
    `read_response` returned. -/
structure Response where
  bytes : Bytes
  rv : Int
  deriving DecidableEq, Repr

/-- A client: where it is, whether its command is `quit`, the bytes on their way
    up to the server and down from it, the commands it sent, the responses it
    read, and whether one of its calls failed or met the end of the stream. -/
structure Client where
  stage : Stage := .ready
  quits : Bool := false
  up : Bytes := []
  down : Bytes := []
  issued : List (List Bytes) := []
  answers : List Response := []
  broken : Bool := false
  deriving DecidableEq, Repr

namespace Client

/-- `query` up to its first `write`. -/
def query (k : Client) (cmd : List Bytes) : Result Client :=
  match k.stage with
  | .ready => do
    match ← sendRequest cmd with
    -- too large: the query fails, and the client waits for the next command
    | none => .ok k
    | some frame => .ok { k with
        stage := .writing frame
        quits := cmd == [ascii "quit"]
        issued := k.issued ++ [cmd] }
  | _ => .ok k

/-- A line of the interactive loop. -/
def line (k : Client) (input : Bytes) : Result Client :=
  match k.stage with
  | .ready => do
    let cmd ← tokenize input
    k.query cmd
  | _ => .ok k

/-- A `write` of `write_all` that takes `n` bytes, or all there are. -/
def write (k : Client) (n : Nat) : Client :=
  match k.stage with
  | .writing rest => { k with
      stage := if rest.drop n = [] then .header [] else .writing (rest.drop n)
      up := k.up ++ rest.take n }
  | _ => k

/-- The end of `read_response`, and of `query`: the client goes on, or it closes
    the socket and exits. -/
def finish (k : Client) (bytes : Bytes) (rv : Int) : Client :=
  { k with
    -- a `quit` that failed is reported like any other command
    stage := if k.quits ∧ 0 ≤ rv then .gone else .ready
    answers := k.answers ++ [⟨bytes, rv⟩] }

/-- `print_response` on a payload that has arrived, and the check on what it
    consumed. -/
def print (k : Client) (header payload : Bytes) : Result Client := do
  let rv ← printResponse payload
  .ok (k.finish (header ++ payload) (if 0 < rv ∧ rv ≠ payload.length then -1 else rv))

/-- `read_response` after the length is stored. The length is not trusted: the
    bytes that follow one above the limit are left unread. -/
def headed (k : Client) (header : Bytes) : Result Client :=
  if kMaxMsg < leNat header then .ok (k.finish header (-1))
  -- nothing is read of an empty payload
  else if leNat header = 0 then k.print header []
  else .ok { k with stage := .payload header [] }

/-- A `read` of `read_full` that stores `n` bytes, or as many as it asked for
    or have arrived. -/
def read (k : Client) (n : Nat) : Result Client :=
  match k.stage with
  | .header got =>
    let bs := k.down.take (min n (4 - got.length))
    let k := { k with down := k.down.drop bs.length }
    let got := got ++ bs
    if got.length < 4 then .ok { k with stage := .header got } else k.headed got
  | .payload header got =>
    let bs := k.down.take (min n (leNat header - got.length))
    let k := { k with down := k.down.drop bs.length }
    let got := got ++ bs
    if got.length < leNat header then .ok { k with stage := .payload header got }
    else k.print header got
  | _ => .ok k

/-- A `read` of `read_full` at the end of the stream. The caller is not told:
    what was not stored is zero. -/
def readEof (k : Client) : Result Client :=
  match k.stage with
  | .header got => ({ k with broken := true } : Client).headed (zeroFill got 4)
  | .payload header got =>
    ({ k with broken := true } : Client).print header (zeroFill got (leNat header))
  | _ => .ok k

/-- A call of `write_all` or `read_full` that fails, and the query with it.
    After `write_all` no response is read. -/
def fail (k : Client) : Client :=
  match k.stage with
  | .writing _ => { k with stage := .ready, broken := true }
  | .header got => ({ k with broken := true } : Client).finish got (-1)
  | .payload header got => ({ k with broken := true } : Client).finish (header ++ got) (-1)
  | _ => k

/-- The process is killed, as by the signal that comes with a `write` to a
    connection the other side has closed. -/
def kill (k : Client) : Client := { k with stage := .gone, broken := true }

/-- The end of the interactive loop's input, or of `main` after its arguments:
    the socket is closed. -/
def hangUp (k : Client) : Client :=
  match k.stage with
  | .ready => { k with stage := .gone }
  | _ => k

/-- What a turn of the server takes off the connection and puts on it. -/
def turn (k : Client) (turn : Turn) : Client :=
  { k with up := k.up.drop turn.received.length, down := k.down ++ turn.sent }

end Client

/-- The server and the clients. -/
structure Session where
  server : GData := {}
  clients : Nat → Client := fun _ => {}

/-- What happens next: a system call of a client, or an iteration of the
    server's loop. -/
inductive Move
  | line (c : Nat) (input : Bytes)
  | query (c : Nat) (cmd : List Bytes)
  | write (c n : Nat)
  | read (c n : Nat)
  | readEof (c : Nat)
  | fail (c : Nat)
  | kill (c : Nat)
  | hangUp (c : Nat)
  | serve (p : PollResult)

/-- The connections after some turns of the server. -/
def carry (clients : Nat → Client) (turns : List Turn) : Nat → Client :=
  turns.foldl (fun clients turn =>
    Function.update clients turn.conn ((clients turn.conn).turn turn)) clients

/-- The session with another record of a client. -/
def Session.setClient (s : Session) (c : Nat) (k : Client) : Session :=
  { s with clients := Function.update s.clients c k }

/-- One step of the session, with the turns the server gave. -/
def sessionStep (R : Runtime) (s : Session) : Move → Result (Session × List Turn)
  | .line c input => do
    let k ← (s.clients c).line input
    .ok (s.setClient c k, [])
  | .query c cmd => do
    let k ← (s.clients c).query cmd
    .ok (s.setClient c k, [])
  | .write c n => .ok (s.setClient c ((s.clients c).write n), [])
  | .read c n => do
    let k ← (s.clients c).read n
    .ok (s.setClient c k, [])
  | .readEof c => do
    let k ← (s.clients c).readEof
    .ok (s.setClient c k, [])
  | .fail c => .ok (s.setClient c (s.clients c).fail, [])
  | .kill c => .ok (s.setClient c (s.clients c).kill, [])
  | .hangUp c => .ok (s.setClient c (s.clients c).hangUp, [])
  | .serve p => do
    let (g, turns) ← iteration R s.server p
    .ok ({ server := g, clients := carry s.clients turns }, turns)

end RedisServer
