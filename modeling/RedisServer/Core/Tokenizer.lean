import RedisServer.Core.Base

/-!
# The Client's Command Line

The loop of `client.cpp` that splits a line into the arguments of a command.
Its cursor is a position in the line, and `string::npos`, past every
position, is `none`.

## Main definitions

* `findFrom`, `substr`: `string::find` and `string::substr`.
* `tokenTurn`: One turn of the loop.
* `tokenLoop`, `tokenize`: The loop.
-/

namespace RedisServer

/-- The byte `' '`. -/
def space : UInt8 := 32

/-- The byte `'"'`. -/
def quote : UInt8 := 34

/-- `s.find(b, pos)`. -/
def findFrom (s : Bytes) (b : UInt8) (pos : Nat) : Option Nat :=
  ((s.drop pos).idxOf? b).map (pos + ·)

/-- `s.substr(pos, count)`. The count stops at the end of the string, and
    `npos` is the rest of it. -/
def substr (s : Bytes) (pos : Nat) (count : Option Nat) : Result Bytes :=
  if pos ≤ s.length then
    match count with
    | some n => .ok ((s.drop pos).take n)
    | none => .ok (s.drop pos)
  else .error .outOfBounds

/-- One turn of the loop, at the byte `b` at `pos`: the cursor, and the
    arguments so far. -/
def tokenTurn (input : Bytes) (pos : Nat) (b : UInt8) (cmd : List Bytes) :
    Result (Option Nat × List Bytes) :=
  if b = space then .ok (some (pos + 1), cmd)
  else if b = quote then
    match findFrom input quote (pos + 1) with
    -- the message is all there is to it: `continue` with the cursor as it was
    | none => .ok (some pos, cmd)
    | some stop => do
      let arg ← substr input (pos + 1) (some (stop - pos - 1))
      .ok (some (stop + 1), cmd ++ [arg])
  else do
    let stop := findFrom input space pos
    let arg ← substr input pos (stop.map (· - pos))
    .ok (stop, cmd ++ [arg])

/-- The loop. `fuel` counts its turns. -/
def tokenLoop (input : Bytes) : Nat → Option Nat → List Bytes → Result (List Bytes)
  | 0, _, _ => .error .noProgress
  -- `npos` is not below the line's size
  | _ + 1, none, cmd => .ok cmd
  | fuel + 1, some pos, cmd =>
    match input[pos]? with
    | none => .ok cmd
    | some b => do
      let (pos, cmd) ← tokenTurn input pos b cmd
      tokenLoop input fuel pos cmd

/-- The arguments of a line. A turn that moves the cursor moves it forward, so
    a line needs no more turns than it has bytes, and one to see its end. -/
def tokenize (input : Bytes) : Result (List Bytes) :=
  tokenLoop input (input.length + 1) (some 0) []

end RedisServer
