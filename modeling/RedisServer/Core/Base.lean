import RedisServer.Lib.LittleEndian
import Mathlib.Logic.Function.Basic

/-!
# Faults, Bytes and Words

What every part of the server's model stands on. A C++ function becomes a
Lean function into `Result`: it either computes a value or reports how the
program left its defined behaviour, by a dereference of `NULL`, an access to
freed memory, an index out of bounds, a failed assertion or a signed overflow.
A loop with no
bound of its own carries one in the model, larger than any run that visits no
state twice, and reports `noProgress` when it is used up.

Byte buffers are lists, sizes are natural numbers, and integers are laid out
with `leBytes`, which truncates as a `memcpy` of a `uint32_t` does.

`Runtime` holds the two functions the server calls and does not define in its
own source files: the hash of `common.h` and the C library's `strtod`. The
hash is a parameter because nothing may depend on which values it takes;
`strHash` is the one the server is built with.

## Main definitions

* `Fault`: The ways a step can leave defined behaviour.
* `Result`: A value or a fault.
* `le32`, `le64`: The layouts of `uint32_t` and `int64_t`.
* `toI32`: The reading of a number as an `int32_t`.
* `Double`: A `double` by its bit pattern, with the order of IEEE 754.
* `strHash`: The FNV hash of `common.h`.
* `Runtime`: The functions taken from outside.
-/

namespace RedisServer

open Lib

/-- The ways a step of the program can leave its defined behaviour. -/
inductive Fault
  | nullDeref
  | outOfBounds
  | assertFailed
  | freedNode
  | freedEntry
  | freedConn
  | overflow
  | noProgress
  deriving DecidableEq, Repr

/-- What a function of the program returns: a value, or the fault it hits. -/
abbrev Result (α : Type) := Except Fault α

@[simp] theorem ok_bind {α β : Type} (a : α) (f : α → Result β) :
    ((Except.ok a : Result α) >>= f) = f a := rfl

@[simp] theorem error_bind {α β : Type} (e : Fault) (f : α → Result β) :
    ((Except.error e : Result α) >>= f) = .error e := rfl

@[simp] theorem pure_eq_ok {α : Type} (a : α) : (pure a : Result α) = .ok a := rfl

/-- A computation returns exactly when its first half does and the rest
    returns from there. -/
theorem bind_eq_ok {α β : Type} {x : Result α} {f : α → Result β} {b : β} :
    (x >>= f) = .ok b ↔ ∃ a, x = .ok a ∧ f a = .ok b := by
  cases x with
  | ok a => simp only [ok_bind, Except.ok.injEq, exists_eq_left']
  | error e => simp only [error_bind, reduceCtorEq, false_and, exists_false]

/-- A byte buffer: `std::vector<uint8_t>`, or the contents of a string. -/
abbrev Bytes := List UInt8

/-- The bytes of an ASCII literal. -/
def ascii (s : String) : Bytes := s.toList.map fun c => UInt8.ofNat c.toNat

/-- `memcpy` of a `uint32_t`. -/
def le32 (n : Nat) : Bytes := leBytes 4 n

/-- `memcpy` of an `int64_t`, in two's complement. -/
def le64 (v : Int) : Bytes := leBytes 8 (v % 2 ^ 64).toNat

/-- A number read as an `int32_t`. -/
def toI32 (n : Nat) : Int :=
  if n % 2 ^ 32 < 2 ^ 31 then (n % 2 ^ 32 : Nat) else (n % 2 ^ 32 : Nat) - 2 ^ 32

@[simp] theorem length_le32 (n : Nat) : (le32 n).length = 4 := length_leBytes 4 n

@[simp] theorem length_le64 (v : Int) : (le64 v).length = 8 := length_leBytes 8 _

/-- A `double`, by its bit pattern. -/
structure Double where
  bits : UInt64
  deriving DecidableEq, Repr

namespace Double

/-- The bits below the sign: exponent and fraction. -/
def magnitude (x : Double) : Nat := x.bits.toNat % 2 ^ 63

/-- The sign bit is set. -/
def negative (x : Double) : Bool := 2 ^ 63 ≤ x.bits.toNat

/-- `isnan`: all exponent bits set and a fraction that is not zero. -/
def isNan (x : Double) : Bool := 0x7ff0000000000000 < x.magnitude

/-- The position of a number that is not a NaN on the real line: IEEE 754
    orders the magnitudes as integers, and both zeros sit at the origin. -/
def key (x : Double) : Int := if x.negative then -(x.magnitude : Int) else x.magnitude

/-- `x == y` of two doubles. -/
def eq (x y : Double) : Bool := !x.isNan && !y.isNan && x.key == y.key

/-- `x < y` of two doubles. -/
def lt (x y : Double) : Bool := !x.isNan && !y.isNan && decide (x.key < y.key)

end Double

/-- `memcpy` of a `double`. -/
def leDouble (x : Double) : Bytes := leBytes 8 x.bits.toNat

@[simp] theorem length_leDouble (x : Double) : (leDouble x).length = 8 := length_leBytes 8 _

/-- `str_hash`: 64-bit FNV. -/
def strHash (data : Bytes) : Nat :=
  data.foldl (fun h byte => (h ^^^ byte.toNat) * 0x100000001b3 % 2 ^ 64) 0xcbf29ce484222325

/-- The functions the server calls from outside its own source files:
    `str_hash`, and `strtod` with the number of characters it consumed. -/
structure Runtime where
  strHash : Bytes → Nat
  strtod : Bytes → Double × Nat

end RedisServer
