import RedisServer.Core.Base

/-!
# The Indexed Min-Heap

`heap.cpp`: a binary min-heap in an array, whose items point back at the
variable that stores their position. Moving an item writes that variable, so
the heap functions take the array together with the memory its items point
into.

A `size_t *` is the address of a `heap_idx` member. `Refs` is that memory,
with `none` for the value `(size_t)-1`, which is no position of any array.

## Main definitions

* `HeapItem`: A deadline and the variable that stores its position.
* `Refs`, `writeRef`: The back pointers' memory, and `*ref = pos`.
* `heapUp`, `heapDown`, `heapUpdate`: The sifts.
* `heapDelete`, `heapUpsert`: The two changes the server makes.
-/

namespace RedisServer

/-- An item of the heap. `ref` is `none` when the pointer is `NULL`. -/
structure HeapItem (ρ : Type) where
  val : Nat
  ref : Option ρ
  deriving DecidableEq, Repr

/-- The variables the items point to. `none` is the value `(size_t)-1`. -/
abbrev Refs (ρ : Type) := ρ → Option Nat

section

variable {ρ : Type} [DecidableEq ρ]

/-- `if (ref) *ref = pos`. -/
def writeRef (refs : Refs ρ) (ref : Option ρ) (pos : Nat) : Refs ρ :=
  match ref with
  | none => refs
  | some r => Function.update refs r (some pos)

/-- `heap_parent`. -/
def heapParent (i : Nat) : Nat := (i + 1) / 2 - 1

/-- `heap_left`. -/
def heapLeft (i : Nat) : Nat := i * 2 + 1

/-- `heap_right`. -/
def heapRight (i : Nat) : Nat := i * 2 + 2

/-- The loop of `heap_up`: move the hole at `pos` up past larger parents. -/
def heapUpLoop (t : HeapItem ρ) :
    Nat → List (HeapItem ρ) → Refs ρ → Nat → Result (List (HeapItem ρ) × Refs ρ × Nat)
  | 0, _, _, _ => .error .noProgress
  | fuel + 1, a, refs, pos =>
    if 0 < pos then
      match a[heapParent pos]? with
      | none => .error .outOfBounds
      | some p =>
        if t.val < p.val then
          heapUpLoop t fuel (a.set pos p) (writeRef refs p.ref pos) (heapParent pos)
        else .ok (a, refs, pos)
    else .ok (a, refs, pos)

/-- `heap_up`. -/
def heapUp (a : List (HeapItem ρ)) (refs : Refs ρ) (pos : Nat) :
    Result (List (HeapItem ρ) × Refs ρ) :=
  match a[pos]? with
  | none => .error .outOfBounds
  | some t => do
    let (a, refs, pos) ← heapUpLoop t (pos + 1) a refs pos
    .ok (a.set pos t, writeRef refs t.ref pos)

/-- `a[i].val` where the test `i < len` has passed. -/
def heapVal (a : List (HeapItem ρ)) (i : Nat) : Result Nat :=
  match a[i]? with
  | none => .error .outOfBounds
  | some x => .ok x.val

/-- The smaller of the hole's value and its children's, as `heap_down` picks
    it: the position it belongs to. -/
def heapMinPos (a : List (HeapItem ρ)) (val pos len : Nat) : Result Nat := do
  let l := heapLeft pos
  let r := heapRight pos
  let (minPos, minVal) ←
    (if l < len then do
      let v ← heapVal a l
      if v < val then .ok (l, v) else .ok (pos, val)
    else .ok (pos, val))
  if r < len then do
    let v ← heapVal a r
    if v < minVal then .ok r else .ok minPos
  else .ok minPos

/-- The loop of `heap_down`: move the hole at `pos` down past smaller
    children. -/
def heapDownLoop (t : HeapItem ρ) (len : Nat) :
    Nat → List (HeapItem ρ) → Refs ρ → Nat → Result (List (HeapItem ρ) × Refs ρ × Nat)
  | 0, _, _, _ => .error .noProgress
  | fuel + 1, a, refs, pos => do
    let minPos ← heapMinPos a t.val pos len
    if minPos = pos then .ok (a, refs, pos)
    else
      match a[minPos]? with
      | none => .error .outOfBounds
      | some c => heapDownLoop t len fuel (a.set pos c) (writeRef refs c.ref pos) minPos

/-- `heap_down`. -/
def heapDown (a : List (HeapItem ρ)) (refs : Refs ρ) (pos len : Nat) :
    Result (List (HeapItem ρ) × Refs ρ) :=
  match a[pos]? with
  | none => .error .outOfBounds
  | some t => do
    let (a, refs, pos) ← heapDownLoop t len (len + 1) a refs pos
    .ok (a.set pos t, writeRef refs t.ref pos)

/-- `heap_update`: restore the order after the item at `pos` changed. -/
def heapUpdate (a : List (HeapItem ρ)) (refs : Refs ρ) (pos len : Nat) :
    Result (List (HeapItem ρ) × Refs ρ) := do
  let up ←
    (if 0 < pos then do
      let p ← heapVal a (heapParent pos)
      let v ← heapVal a pos
      .ok (decide (v < p))
    else .ok false)
  if up then heapUp a refs pos else heapDown a refs pos len

/-- `heap_delete` of `server.cpp`: overwrite the item with the last one and
    restore the order. -/
def heapDelete (a : List (HeapItem ρ)) (refs : Refs ρ) (pos : Nat) :
    Result (List (HeapItem ρ) × Refs ρ) :=
  match a.getLast? with
  | none => .error .outOfBounds
  | some last =>
    if pos < a.length then
      let a := (a.set pos last).dropLast
      if pos < a.length then heapUpdate a refs pos a.length else .ok (a, refs)
    else .error .outOfBounds

/-- `heap_upsert` of `server.cpp`: replace the item at a position of the
    array, or append one. -/
def heapUpsert (a : List (HeapItem ρ)) (refs : Refs ρ) (pos : Option Nat) (t : HeapItem ρ) :
    Result (List (HeapItem ρ) × Refs ρ) :=
  match pos with
  | some p =>
    if p < a.length then heapUpdate (a.set p t) refs p a.length
    else heapUpdate (a ++ [t]) refs a.length (a.length + 1)
  | none => heapUpdate (a ++ [t]) refs a.length (a.length + 1)

end

end RedisServer
