import RedisServer.Core.Request

/-!
# The Client's Decoder

`print_response` and `read_response` of `client.cpp`. What they print is left
out; what they read and return is kept. The lengths are added as the source
adds them, in `uint32_t`, and the return value is an `int32_t`.

`printf("%.*s")` reads up to its precision or to the first zero byte. A
length of `2 ^ 31` or more becomes a negative precision, which counts as none
at all.

## Main definitions

* `printfStr`: What `printf("%.*s")` reads.
* `printResponse`: `print_response`.
* `readFull`, `readResponse`: `read_full` and `read_response`, on the results
  of the `read()` calls.
-/

namespace RedisServer

open Lib

/-- The reads of `printf("%.*s", len, p)` where `text` are the bytes from `p`
    to the end of the buffer. -/
def printfStr (text : Bytes) (len : Nat) : Result Unit :=
  -- a negative precision is taken as if it were omitted
  if 0 ≤ toI32 len then
    if len ≤ text.length ∨ text.contains 0 then .ok () else .error .outOfBounds
  else
    if text.contains 0 then .ok () else .error .outOfBounds

/-- The loop over the elements of an array: `n` elements to go, `arrBytes`
    bytes consumed. A negative result of an element is returned at once. -/
def printElems (elem : Bytes → Result Int) (data : Bytes) : Nat → Nat → Result Int
  | 0, arrBytes => .ok (toI32 arrBytes)
  | n + 1, arrBytes => do
    let rv ← elem (data.drop arrBytes)
    if rv < 0 then .ok rv else printElems elem data n (arrBytes + rv.toNat)

/-- `print_response` on a buffer. Each nested array is shorter than the one
    around it, so `fuel` above the buffer's length is never used up. -/
def printResponseLoop : Nat → Bytes → Result Int
  | 0, _ => .error .noProgress
  | fuel + 1, data =>
    let size := data.length
    match data with
    | [] => .ok (-1)
    | tag :: _ =>
      if tag = tagNil then .ok 1
      else if tag = tagErr then
        if size < 9 then .ok (-1)
        else do
          let len := leNat ((data.drop 5).take 4)
          if size < (9 + len) % 2 ^ 32 then .ok (-1)
          else do
            printfStr (data.drop 9) len
            .ok (toI32 (9 + len))
      else if tag = tagStr then
        if size < 5 then .ok (-1)
        else do
          let len := leNat ((data.drop 1).take 4)
          if size < (5 + len) % 2 ^ 32 then .ok (-1)
          else do
            printfStr (data.drop 5) len
            .ok (toI32 (5 + len))
      else if tag = tagInt then
        if size < 9 then .ok (-1) else .ok 9
      else if tag = tagDbl then
        if size < 9 then .ok (-1) else .ok 9
      else if tag = tagArr then
        if size < 5 then .ok (-1)
        else printElems (printResponseLoop fuel) data (leNat ((data.drop 1).take 4)) 5
      else .ok (-1)

/-- `print_response`. -/
def printResponse (data : Bytes) : Result Int := printResponseLoop (data.length + 1) data

/-- One `read()` on the client's socket. -/
inductive SockRead
  | data (bs : Bytes)
  | eintr
  | error
  | eof
  deriving DecidableEq, Repr

/-- `read_full` of `n` bytes: the return value, the bytes stored, and the
    reads left. A short read is repeated, `EINTR` is retried, and the end of
    the stream returns zero however much is missing. -/
def readFull : List SockRead → Nat → Bytes → Int × Bytes × List SockRead
  | rs, 0, got => (0, got, rs)
  | [], _ + 1, got => (0, got, [])
  -- the caller is not told how much is missing
  | .eof :: rs, _ + 1, got => (0, got, .eof :: rs)
  | .error :: rs, _ + 1, got => (-1, got, rs)
  | .eintr :: rs, n + 1, got => readFull rs (n + 1) got
  | .data [] :: rs, _ + 1, got => (0, got, rs)
  | .data (b :: bs) :: rs, n + 1, got =>
    if bs.length ≤ n then readFull rs (n - bs.length) (got ++ b :: bs)
    else (0, got ++ b :: bs.take n, .data (bs.drop n) :: rs)

/-- A zero-initialised buffer of `n` bytes after `got` was stored in it. -/
def zeroFill (got : Bytes) (n : Nat) : Bytes := got ++ List.replicate (n - got.length) 0

/-- `read_response`: the frame's length, its payload, and the decoder's
    verdict on it. -/
def readResponse (rs : List SockRead) : Result Int :=
  let (rv, header, rs) := readFull rs 4 []
  let len := leNat (zeroFill header 4)
  if rv < 0 then .ok (-1)
  else if kMaxMsg < len then .ok (-1)
  else
    let (rv, got, _) := readFull rs len []
    if rv < 0 then .ok (-1)
    else do
      let rv ← printResponse (zeroFill got len)
      -- the decoder has to consume the whole payload
      if 0 < rv ∧ rv ≠ len then .ok (-1) else .ok rv

end RedisServer
