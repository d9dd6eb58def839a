import RedisServer.Core.Client
import Mathlib.Data.Nat.Digits.Defs

/-!
# What the Client Prints

`print_response` and `read_response` of `client.cpp` with the text they write
to standard output. `Core.Client` has the same functions without it; what they
read and return is the same here, and `Theory.Protocol.Screen` says so.

The client prints with `printf` and with `cout`, which share one stream. A
string is printed up to its first zero byte, since `%.*s` stops there. What is
printed before a nested value fails has been printed.

How `%g` writes a `double` is a parameter.

## Main definitions

* `natText`, `intText`, `printfText`: `%u`, `%d` and `%.*s`.
* `printResponseText`: `print_response`, with its text.
* `readResponseText`: `read_response`, with its text.
-/

namespace RedisServer

open Lib

/-- `%u`: the decimal digits of a number. -/
def natText (n : Nat) : Bytes :=
  if n = 0 then [48] else (Nat.digits 10 n).reverse.map fun d => UInt8.ofNat (48 + d)

/-- `%d` and `%ld`. -/
def intText (v : Int) : Bytes := if v < 0 then 45 :: natText v.natAbs else natText v.natAbs

/-- The bytes before the first zero byte. -/
def cstr (s : Bytes) : Bytes := s.takeWhile (· ≠ 0)

/-- `printf("%.*s", len, p)` where `text` are the bytes from `p` to the end of
    the buffer. -/
def printfText (text : Bytes) (len : Nat) : Result Bytes := do
  printfStr text len
  .ok (cstr (if 0 ≤ toI32 len then text.take len else text))

/-- An `int64_t` from its eight bytes. -/
def toI64 (data : Bytes) : Int := (leNat data : Int).bmod (2 ^ 64)

/-- A `double` from its eight bytes. -/
def toDouble (data : Bytes) : Double := ⟨UInt64.ofNat (leNat data)⟩

/-- The loop over the elements of an array. `out` is what was printed. -/
def printElemsText (elem : Bytes → Result (Int × Bytes)) (data : Bytes) :
    Nat → Nat → Bytes → Result (Int × Bytes)
  | 0, arrBytes, out => .ok (toI32 arrBytes, out ++ ascii "(arr) end\n")
  | n + 1, arrBytes, out => do
    let r ← elem (data.drop arrBytes)
    if r.1 < 0 then .ok (r.1, out ++ r.2)
    else printElemsText elem data n (arrBytes + r.1.toNat) (out ++ r.2)

/-- `print_response` on a buffer: what it returns, and what it prints. -/
def printResponseTextLoop (fmt : Double → Bytes) : Nat → Bytes → Result (Int × Bytes)
  | 0, _ => .error .noProgress
  | fuel + 1, data =>
    let size := data.length
    match data with
    | [] => .ok (-1, [])
    | tag :: _ =>
      if tag = tagNil then .ok (1, ascii "(nil)\n")
      else if tag = tagErr then
        if size < 9 then .ok (-1, [])
        else do
          let code := leNat ((data.drop 1).take 4)
          let len := leNat ((data.drop 5).take 4)
          if size < (9 + len) % 2 ^ 32 then .ok (-1, [])
          else do
            let msg ← printfText (data.drop 9) len
            .ok (toI32 (9 + len), ascii "(err) " ++ intText (toI32 code) ++ 32 :: msg ++ [10])
      else if tag = tagStr then
        if size < 5 then .ok (-1, [])
        else do
          let len := leNat ((data.drop 1).take 4)
          if size < (5 + len) % 2 ^ 32 then .ok (-1, [])
          else do
            let s ← printfText (data.drop 5) len
            .ok (toI32 (5 + len), ascii "(str) " ++ s ++ [10])
      else if tag = tagInt then
        if size < 9 then .ok (-1, [])
        else .ok (9, ascii "(int) " ++ intText (toI64 ((data.drop 1).take 8)) ++ [10])
      else if tag = tagDbl then
        if size < 9 then .ok (-1, [])
        else .ok (9, ascii "(dbl) " ++ fmt (toDouble ((data.drop 1).take 8)) ++ [10])
      else if tag = tagArr then
        if size < 5 then .ok (-1, [])
        else
          let len := leNat ((data.drop 1).take 4)
          printElemsText (printResponseTextLoop fmt fuel) data len 5
            (ascii "(arr) len=" ++ natText len ++ [10])
      else .ok (-1, [])

/-- `print_response`. -/
def printResponseText (fmt : Double → Bytes) (data : Bytes) : Result (Int × Bytes) :=
  printResponseTextLoop fmt (data.length + 1) data

/-- `read_response`. -/
def readResponseText (fmt : Double → Bytes) (rs : List SockRead) : Result (Int × Bytes) :=
  let (rv, header, rs) := readFull rs 4 []
  let len := leNat (zeroFill header 4)
  if rv < 0 then .ok (-1, [])
  else if kMaxMsg < len then .ok (-1, [])
  else
    let (rv, got, _) := readFull rs len []
    if rv < 0 then .ok (-1, [])
    else do
      let r ← printResponseText fmt (zeroFill got len)
      -- what was printed stays on the screen
      if 0 < r.1 ∧ r.1 ≠ len then .ok (-1, r.2) else .ok r

end RedisServer
