import RedisServer.Core.Output

/-!
# Requests

Both ends of the request format. `parse_req` of `server.cpp` decodes the body
of a frame into its arguments, and `send_request` of `client.cpp` lays a
frame out.

The decoder walks a pointer over the body. The pointer is an offset, and
every read goes through `loadBytes`, which faults outside the buffer; the
checks of the source against `end` are made before it, as they stand there.
The encoder's length is accumulated in a `uint32_t`, and its copies go
through `memcpyAt`.

## Main definitions

* `readU32`, `readStr`, `parseReq`: The decoder.
* `sendRequest`: The encoder.
-/

namespace RedisServer

open Lib

/-- `k_max_args`. -/
def kMaxArgs : Nat := 200000

/-- Read `n` bytes at an offset of a buffer. -/
def loadBytes (data : Bytes) (cur n : Nat) : Result Bytes :=
  if cur + n ≤ data.length then .ok ((data.drop cur).take n) else .error .outOfBounds

/-- `read_u32`: the value and the advanced pointer, or `none` for `false`. -/
def readU32 (data : Bytes) (cur stop : Nat) : Result (Option (Nat × Nat)) :=
  if stop < cur + 4 then .ok none
  else do
    let word ← loadBytes data cur 4
    .ok (some (leNat word, cur + 4))

/-- `read_str`: the string and the advanced pointer, or `none` for `false`. -/
def readStr (data : Bytes) (cur stop n : Nat) : Result (Option (Bytes × Nat)) :=
  if stop < cur + n then .ok none
  else do
    let s ← loadBytes data cur n
    .ok (some (s, cur + n))

/-- The loop of `parse_req`, with the number of strings still to read. The
    pointer is `none` when a read failed; `out` keeps what was pushed. -/
def parseArgs (data : Bytes) (stop : Nat) :
    Nat → Nat → List Bytes → Result (Option Nat × List Bytes)
  | 0, cur, out => .ok (some cur, out)
  | n + 1, cur, out => do
    match ← readU32 data cur stop with
    | none => .ok (none, out)
    | some (len, cur) =>
      match ← readStr data cur stop len with
      -- the string was pushed before it is read, so it stays behind empty
      | none => .ok (none, out ++ [[]])
      | some (s, cur) => parseArgs data stop n cur (out ++ [s])

/-- `parse_req`: the return value, and `out`. -/
def parseReq (data : Bytes) (size : Nat) (out : List Bytes) : Result (Int × List Bytes) := do
  match ← readU32 data 0 size with
  | none => .ok (-1, out)
  | some (nstr, cur) =>
    -- the check comes before the vector grows
    if kMaxArgs < nstr then .ok (-1, out)
    else
      match ← parseArgs data size (nstr - out.length) cur out with
      | (none, out) => .ok (-1, out)
      -- bytes after the last string are trailing garbage
      | (some cur, out) => if cur ≠ size then .ok (-1, out) else .ok (0, out)

/-- The serialization loop of `send_request`: `p` is the write pointer. -/
def sendArgs : List Bytes → Bytes → Nat → Result Bytes
  | [], buf, _ => .ok buf
  | arg :: cmd, buf, p => do
    let buf ← memcpyAt buf p (le32 arg.length)
    let buf ← memcpyAt buf (p + 4) arg
    sendArgs cmd buf (p + 4 + arg.length)

/-- `msg_len` of `send_request`, a `uint32_t`. -/
def msgLen (cmd : List Bytes) : Nat :=
  cmd.foldl (fun len arg => (len + (4 + arg.length)) % 2 ^ 32) 4

/-- `send_request` up to the write: the frame, or `none` when it returns `-1`
    without serializing. -/
def sendRequest (cmd : List Bytes) : Result (Option Bytes) :=
  -- `msg_len` may have wrapped, so the limit does not bound the sum
  if kMaxMsg < msgLen cmd then .ok none
  else do
    let buf := List.replicate (4 + msgLen cmd) 0
    let buf ← memcpyAt buf 0 (le32 (msgLen cmd))
    let buf ← memcpyAt buf 4 (le32 cmd.length)
    let buf ← sendArgs cmd buf 8
    .ok (some buf)

end RedisServer
