import RedisServer.Core.Avl
import RedisServer.Core.Hashtable

/-!
# The Sorted Set

`zset.cpp`: a set of names with scores, indexed twice, by name in a hashtable
and by the tuple `(score, name)` in an AVL tree.

A `ZNode` is one allocation holding a hashtable node, a tree node and the
data. Its address stands for all three: the tree members live in the set's
`Store`, the rest in `data`, and the hashtable holds the address as payload.
Each set has its own memory, no pointer leads from one set's nodes to
another's.

## Main definitions

* `ZNode`, `ZSet`: The records of `zset.h`.
* `memcmp`, `zless`: The order of the tuples.
* `treeInsert`, `zsetUpdate`, `zsetInsert`: Adding and re-scoring.
* `zsetLookup`, `zsetDelete`, `zsetSeekge`, `znodeOffset`: The other calls.
* `treeDispose`, `zsetClear`: Freeing a set.
-/

namespace RedisServer

/-- The data of a node: the hash code of its hashtable node, and the tuple. -/
structure ZNode where
  hcode : Nat
  score : Double
  name : Bytes
  deriving DecidableEq, Repr

/-- A sorted set with the memory of its nodes. -/
structure ZSet where
  root : Option Nat := none
  hmap : HMap Nat := {}
  store : Store := {}
  data : Nat → Option ZNode := fun _ => none

namespace ZSet

/-- Read a node's data. -/
def znode (z : ZSet) (a : Nat) : Result ZNode :=
  match z.data a with
  | none => .error .freedNode
  | some n => .ok n

/-- Write a node's data. -/
def setZnode (z : ZSet) (a : Nat) (n : ZNode) : ZSet :=
  { z with data := Function.update z.data a (some n) }

end ZSet

/-- `memcmp` over the common length of two names. -/
def memcmp : Bytes → Bytes → Ordering
  | x :: xs, y :: ys => if x < y then .lt else if y < x then .gt else memcmp xs ys
  | _, _ => .eq

/-- The comparison of `zless`, on the two tuples. -/
def tupleLess (score : Double) (name : Bytes) (score' : Double) (name' : Bytes) : Bool :=
  if !score.eq score' then score.lt score'
  else
    match memcmp name name' with
    | .lt => true
    | .gt => false
    -- of two names with a common prefix the shorter one is less
    | .eq => decide (name.length < name'.length)

/-- `zless` of a tree node and a tuple. -/
def zless (z : ZSet) (lhs : Nat) (score : Double) (name : Bytes) : Result Bool := do
  let zl ← z.znode lhs
  .ok (tupleLess zl.score zl.name score name)

/-- `zless` of two tree nodes. -/
def zlessNode (z : ZSet) (lhs rhs : Nat) : Result Bool := do
  let zr ← z.znode rhs
  zless z lhs zr.score zr.name

/-- `znode_new`. -/
def znodeNew (R : Runtime) (z : ZSet) (name : Bytes) (score : Double) : ZSet × Nat :=
  let (store, a) := z.store.alloc avlInit
  ({ z with
      store := store
      data := Function.update z.data a (some { hcode := R.strHash name, score, name }) }, a)

/-- `znode_del`. -/
def znodeDel (z : ZSet) (a : Nat) : Result ZSet := do
  let store ← z.store.free a
  .ok { z with store := store, data := Function.update z.data a none }

/-- The descent of `tree_insert`: the node to insert under, and the side. -/
def treeDescend (z : ZSet) (node : Nat) :
    Nat → Option Nat → Bool → Option Nat → Result (Option Nat × Bool)
  | 0, _, _, _ => .error .noProgress
  | _ + 1, parent, isLeft, none => .ok (parent, isLeft)
  | fuel + 1, _, _, some p => do
    let less ← zlessNode z node p
    let n ← z.store.load (some p)
    treeDescend z node fuel (some p) less (if less then n.left else n.right)

/-- `tree_insert`. -/
def treeInsert (z : ZSet) (node : Nat) : Result ZSet := do
  let (parent, isLeft) ← treeDescend z node (z.store.next + 1) none false z.root
  let store ←
    (if parent = none then .ok z.store else setChild z.store parent isLeft (some node))
  let store ← store.modify (some node) fun n => { n with parent := parent }
  let (store, root) ← avlFix store (some node)
  .ok { z with store := store, root := root }

/-- `zset_update`: move an existing node to its new score. -/
def zsetUpdate (z : ZSet) (node : Nat) (score : Double) : Result ZSet := do
  let n ← z.znode node
  if n.score.eq score then .ok z
  else do
    let (store, root) ← avlDel z.store (some node)
    let z := { z with store := store, root := root }
    let z := z.setZnode node { n with score := score }
    -- the node is initialised before it is inserted again
    let store ← z.store.modify (some node) fun _ => avlInit
    treeInsert { z with store := store } node

/-- `hcmp`: the callback of the lookup by name. -/
def hcmp (z : ZSet) (name : Bytes) (node : Nat) : Result Bool := do
  let znode ← z.znode node
  if znode.name.length ≠ name.length then .ok false
  else .ok (memcmp znode.name name == .eq)

/-- `zset_lookup`. -/
def zsetLookup (R : Runtime) (z : ZSet) (name : Bytes) : Result (ZSet × Option Nat) :=
  if z.root = none then .ok (z, none)
  else do
    let (hmap, found) ← hmLookup z.hmap (R.strHash name) (hcmp z name)
    .ok ({ z with hmap := hmap }, found.map HNode.payload)

/-- `zset_insert`: `true` when the name is new. -/
def zsetInsert (R : Runtime) (z : ZSet) (name : Bytes) (score : Double) : Result (ZSet × Bool) := do
  let (z, found) ← zsetLookup R z name
  match found with
  | some node => do
    let z ← zsetUpdate z node score
    .ok (z, false)
  | none => do
    let (z, node) := znodeNew R z name score
    let hmap ← hmInsert z.hmap { hcode := R.strHash name, payload := node }
    let z ← treeInsert { z with hmap := hmap } node
    .ok (z, true)

/-- `zset_delete`. The root is written only when the tree is not empty
    afterwards. -/
def zsetDelete (z : ZSet) (node : Nat) : Result ZSet := do
  let n ← z.znode node
  let (hmap, found) ← hmDelete z.hmap n.hcode (hcmp z n.name)
  let z := { z with hmap := hmap }
  match found with
  | none => .ok z
  | some _ => do
    let (store, newRoot) ← avlDel z.store (some node)
    let z := { z with store := store }
    -- `if (new_root)`: the root of an emptied tree is left as it was
    let z := if newRoot ≠ none then { z with root := newRoot } else z
    znodeDel z node

/-- The loop of `zset_seekge`. -/
def seekgeLoop (z : ZSet) (score : Double) (name : Bytes) :
    Nat → Option Nat → Option Nat → Result (Option Nat)
  | 0, _, _ => .error .noProgress
  | _ + 1, none, found => .ok found
  | fuel + 1, some node, found => do
    let less ← zless z node score name
    let n ← z.store.load (some node)
    if !less then seekgeLoop z score name fuel n.left (some node)
    else seekgeLoop z score name fuel n.right found

/-- `zset_seekge`: the first tuple that is not below the given one. -/
def zsetSeekge (z : ZSet) (score : Double) (name : Bytes) : Result (Option Nat) :=
  seekgeLoop z score name (z.store.next + 1) z.root none

/-- `znode_offset`. -/
def znodeOffset (z : ZSet) (node : Option Nat) (offset : Int) : Result (Option Nat) :=
  match node with
  | none => .ok none
  | some a => avlOffset z.store (some a) offset

/-- `tree_dispose`. -/
def treeDispose : Nat → ZSet → Option Nat → Result ZSet
  | _, z, none => .ok z
  | 0, _, some _ => .error .noProgress
  | fuel + 1, z, some a => do
    let n ← z.store.load (some a)
    let z ← treeDispose fuel z n.left
    -- the node is read again, after its left subtree is freed
    let n ← z.store.load (some a)
    let z ← treeDispose fuel z n.right
    znodeDel z a

/-- `zset_clear`. -/
def zsetClear (z : ZSet) : Result ZSet := do
  let z := { z with hmap := hmClear z.hmap }
  let z ← treeDispose (z.store.next + 1) z z.root
  .ok { z with root := none }

end RedisServer
