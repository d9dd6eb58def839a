import RedisServer.Core.Commands
import RedisServer.Core.Timers

/-!
# Runs of the Server

The event loop seen from the state it works on. One iteration of the loop in
`main` accepts connections, notes which ones were active, executes the
requests that arrived, destroys connections and sweeps the timers. Each of
these is an event here, and a run is any list of events: the loop produces
some orders only, and nothing below depends on which.

A request event carries the parsed command, and its reply is the value
`do_request` writes. `answerStep` replies with the frame that `try_one_request`
puts around it, in which an error takes the place of a value over the limit.
The rest of the bytes on the wire are the subject of `Core.Connection`.

## Main definitions

* `Event`: What the event loop does to the state.
* `serverStep`: One event.
* `answerStep`: The same, with the frame a request is answered with.
* `noDoubles`: The runtime of a server that is sent no floating-point number.
* `readsDigits`: The runtime of a server that is sent scores of one digit.
-/

namespace RedisServer

/-- What the event loop does to the state, with the clock's reading where it
    is read. -/
inductive Event
  | accept (connfd : Int) (now : Nat)
  | touch (c : Nat) (now : Nat)
  | request (c : Nat) (cmd : List Bytes) (now : Nat)
  | close (c : Nat)
  | sweep (now : Nat)
  deriving DecidableEq, Repr

/-- One event. A request runs on a connection that is still there. -/
def serverStep (R : Runtime) (g : GData) : Event → Result (GData × Bytes)
  | .accept connfd now => do
    let g ← handleAccept g connfd now
    .ok (g, [])
  | .touch c now => do
    let g ← connTouch g c now
    .ok (g, [])
  | .request c cmd now => do
    let _ ← g.conn c
    doRequest R g c cmd now []
  | .close c => do
    let g ← connDestroy g c
    .ok (g, [])
  | .sweep now => do
    let g ← processTimers g now
    .ok (g, [])

/-- One event, where a request is answered with its response frame. -/
def answerStep (R : Runtime) (g : GData) : Event → Result (GData × Bytes)
  | .request c cmd now => do
    let _ ← g.conn c
    respond R g c cmd now
  | e => serverStep R g e

/-- The hash of the server, and a `strtod` for runs that do not call it. -/
def noDoubles : Runtime := ⟨strHash, fun _ => (⟨0⟩, 0)⟩

/-- The bits of a whole number that is not zero. -/
def wholeBits (n : Nat) : UInt64 :=
  UInt64.ofNat ((1023 + n.log2) * 2 ^ 52 + (n * 2 ^ (52 - n.log2) - 2 ^ 52))

/-- The hash of the server, and a `strtod` that reads the digits from one to
    nine. -/
def readsDigits : Runtime where
  strHash := strHash
  strtod
    | [d] => if 0x31 ≤ d ∧ d ≤ 0x39 then (⟨wholeBits (d.toNat - 0x30)⟩, 1) else (⟨0⟩, 0)
    | _ => (⟨0⟩, 0)

end RedisServer
