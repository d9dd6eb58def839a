import RedisServer.Core.Base

/-!
# The AVL Tree

`avl.cpp`: a binary tree of nodes linked by pointers both ways, each storing
the height and the size of its subtree.

The nodes live in a `Store`. An address that was allocated and freed holds no
node, and an address is never handed out twice, so an access through a stale
pointer is a fault rather than an access to some other node. A pointer is an
optional address, with `none` for `NULL`. `cnt` is a `uint32_t` and is added up
modulo `2 ^ 32`, so it is wrong in a tree of that many nodes. `height` is a
natural number: a balanced tree whose height does not fit into 32 bits has more
nodes than there are addresses.

A loop over the links gets `next + 1` turns, one more than there are
addresses, so it runs out only when it visits an address twice.

## Main definitions

* `AVLNode`, `Store`: A node, and the memory the nodes live in.
* `avlUpdate`, `rotLeft`, `rotRight`, `avlFixLeft`, `avlFixRight`: The local
  repairs.
* `avlFix`: The repair up to the root.
* `avlDelEasy`, `avlDel`: Detaching a node.
* `avlOffset`: Moving by rank.
* `avlOffset64`: The same in the arithmetic of the machine.
-/

namespace RedisServer

/-- A node of the tree. -/
structure AVLNode where
  parent : Option Nat := none
  left : Option Nat := none
  right : Option Nat := none
  height : Nat := 0
  cnt : Nat := 0
  deriving DecidableEq, Repr

/-- The memory of the nodes. The addresses handed out so far are below
    `next`. -/
structure Store where
  cell : Nat → Option AVLNode := fun _ => none
  next : Nat := 0

namespace Store

/-- Read a node through a pointer. -/
def load (σ : Store) (node : Option Nat) : Result AVLNode :=
  match node with
  | none => .error .nullDeref
  | some a =>
    match σ.cell a with
    | none => .error .freedNode
    | some n => .ok n

/-- Write a node's fields. -/
def put (σ : Store) (a : Nat) (n : AVLNode) : Store :=
  { σ with cell := Function.update σ.cell a (some n) }

/-- Assign fields of a node through a pointer. -/
def modify (σ : Store) (node : Option Nat) (f : AVLNode → AVLNode) : Result Store :=
  match node with
  | none => .error .nullDeref
  | some a =>
    match σ.cell a with
    | none => .error .freedNode
    | some n => .ok (σ.put a (f n))

/-- `malloc`. -/
def alloc (σ : Store) (n : AVLNode) : Store × Nat :=
  ({ cell := Function.update σ.cell σ.next (some n), next := σ.next + 1 }, σ.next)

/-- `free`: a second one of the same address is a fault. -/
def free (σ : Store) (a : Nat) : Result Store :=
  match σ.cell a with
  | none => .error .freedNode
  | some _ => .ok { σ with cell := Function.update σ.cell a none }

end Store

/-- `avl_init`. -/
def avlInit : AVLNode := { height := 1, cnt := 1 }

/-- `avl_height`. -/
def avlHeight (σ : Store) (node : Option Nat) : Result Nat :=
  match node with
  | none => .ok 0
  | some a => do
    let n ← σ.load (some a)
    .ok n.height

/-- `avl_cnt`. -/
def avlCnt (σ : Store) (node : Option Nat) : Result Nat :=
  match node with
  | none => .ok 0
  | some a => do
    let n ← σ.load (some a)
    .ok n.cnt

/-- `avl_cnt(node) + 1`, a `uint32_t`. -/
def cntSucc (c : Nat) : Nat := (c + 1) % 2 ^ 32

/-- `avl_update`: recompute the stored height and size. -/
def avlUpdate (σ : Store) (node : Option Nat) : Result Store := do
  let n ← σ.load node
  let lh ← avlHeight σ n.left
  let rh ← avlHeight σ n.right
  let lc ← avlCnt σ n.left
  let rc ← avlCnt σ n.right
  σ.modify node fun n => { n with height := 1 + max lh rh, cnt := (1 + lc + rc) % 2 ^ 32 }

/-- `if (p) p->parent = parent`. -/
def setParent (σ : Store) (p parent : Option Nat) : Result Store :=
  match p with
  | none => .ok σ
  | some a => σ.modify (some a) fun n => { n with parent := parent }

/-- `rot_left`. -/
def rotLeft (σ : Store) (node : Option Nat) : Result (Store × Option Nat) := do
  let n ← σ.load node
  let parent := n.parent
  let newNode := n.right
  let m ← σ.load newNode
  let inner := m.left
  -- node <-> inner
  let σ ← σ.modify node fun n => { n with right := inner }
  let σ ← setParent σ inner node
  -- parent <- new_node
  let σ ← σ.modify newNode fun n => { n with parent := parent }
  -- new_node <-> node
  let σ ← σ.modify newNode fun n => { n with left := node }
  let σ ← σ.modify node fun n => { n with parent := newNode }
  let σ ← avlUpdate σ node
  let σ ← avlUpdate σ newNode
  .ok (σ, newNode)

/-- `rot_right`. -/
def rotRight (σ : Store) (node : Option Nat) : Result (Store × Option Nat) := do
  let n ← σ.load node
  let parent := n.parent
  let newNode := n.left
  let m ← σ.load newNode
  let inner := m.right
  -- node <-> inner
  let σ ← σ.modify node fun n => { n with left := inner }
  let σ ← setParent σ inner node
  -- parent <- new_node
  let σ ← σ.modify newNode fun n => { n with parent := parent }
  -- new_node <-> node
  let σ ← σ.modify newNode fun n => { n with right := node }
  let σ ← σ.modify node fun n => { n with parent := newNode }
  let σ ← avlUpdate σ node
  let σ ← avlUpdate σ newNode
  .ok (σ, newNode)

/-- `avl_fix_left`: the left subtree is taller by two. -/
def avlFixLeft (σ : Store) (node : Option Nat) : Result (Store × Option Nat) := do
  let n ← σ.load node
  let l ← σ.load n.left
  let ll ← avlHeight σ l.left
  let lr ← avlHeight σ l.right
  let σ ←
    (if ll < lr then do
      let (σ, top) ← rotLeft σ n.left
      σ.modify node fun n => { n with left := top }
    else .ok σ)
  rotRight σ node

/-- `avl_fix_right`: the right subtree is taller by two. -/
def avlFixRight (σ : Store) (node : Option Nat) : Result (Store × Option Nat) := do
  let n ← σ.load node
  let r ← σ.load n.right
  let rr ← avlHeight σ r.right
  let rl ← avlHeight σ r.left
  let σ ←
    (if rr < rl then do
      let (σ, top) ← rotRight σ n.right
      σ.modify node fun n => { n with right := top }
    else .ok σ)
  rotLeft σ node

/-- `parent->left == node ? &parent->left : &parent->right`, and the write
    through it. The side was chosen while `side` was the child. -/
def setChild (σ : Store) (parent : Option Nat) (isLeft : Bool) (child : Option Nat) :
    Result Store :=
  if isLeft then σ.modify parent fun p => { p with left := child }
  else σ.modify parent fun p => { p with right := child }

/-- Which child of `parent` the node is, or `none` for a root. -/
def sideOf (σ : Store) (parent node : Option Nat) : Result Bool :=
  match parent with
  | none => .ok false
  | some p => do
    let p ← σ.load (some p)
    .ok (decide (p.left = node))

/-- The loop of `avl_fix`. -/
def avlFixLoop : Nat → Store → Option Nat → Result (Store × Option Nat)
  | 0, _, _ => .error .noProgress
  | fuel + 1, σ, node => do
    let n ← σ.load node
    let parent := n.parent
    let isLeft ← sideOf σ parent node
    let σ ← avlUpdate σ node
    let n ← σ.load node
    let l ← avlHeight σ n.left
    let r ← avlHeight σ n.right
    let (σ, top) ←
      (if l = r + 2 then avlFixLeft σ node
      else if l + 2 = r then avlFixRight σ node
      else .ok (σ, node))
    if parent = none then .ok (σ, top)
    else do
      let σ ←
        (if l = r + 2 ∨ l + 2 = r then setChild σ parent isLeft top else .ok σ)
      avlFixLoop fuel σ parent

/-- `avl_fix`: repair from a node up to the root, and return the root. -/
def avlFix (σ : Store) (node : Option Nat) : Result (Store × Option Nat) :=
  avlFixLoop (σ.next + 1) σ node

/-- `avl_del_easy`: detach a node with at most one child. -/
def avlDelEasy (σ : Store) (node : Option Nat) : Result (Store × Option Nat) := do
  let n ← σ.load node
  if n.left ≠ none ∧ n.right ≠ none then .error .assertFailed
  else do
    let child := if n.left ≠ none then n.left else n.right
    let parent := n.parent
    let σ ← setParent σ child parent
    if parent = none then .ok (σ, child)
    else do
      let isLeft ← sideOf σ parent node
      let σ ← setChild σ parent isLeft child
      avlFix σ parent

/-- The walk to the successor: `while (victim->left) victim = victim->left`. -/
def leftmost : Nat → Store → Option Nat → Result (Option Nat)
  | 0, _, _ => .error .noProgress
  | fuel + 1, σ, victim => do
    let v ← σ.load victim
    if v.left ≠ none then leftmost fuel σ v.left else .ok victim

/-- `avl_del`: detach a node and return the new root. The successor takes the
    links of the node it replaces and keeps its own `height` and `cnt`. -/
def avlDel (σ : Store) (node : Option Nat) : Result (Store × Option Nat) :=
  match node with
  | none => .ok (σ, none)
  | some a => do
    let n ← σ.load (some a)
    if n.left = none ∨ n.right = none then avlDelEasy σ (some a)
    else do
      let victim ← leftmost (σ.next + 1) σ n.right
      -- detach the successor
      let (σ, root) ← avlDelEasy σ victim
      -- swap with the successor
      let n ← σ.load (some a)
      let σ ← σ.modify victim fun v =>
        { v with left := n.left, right := n.right, parent := n.parent }
      let σ ← setParent σ n.left victim
      let σ ← setParent σ n.right victim
      -- attach the successor to the parent, or update the root pointer
      if n.parent = none then .ok (σ, victim)
      else do
        let isLeft ← sideOf σ n.parent (some a)
        let σ ← setChild σ n.parent isLeft victim
        .ok (σ, root)

/-- `pos < offset && pos + avl_cnt(node->right) >= offset`: the target is
    inside the right subtree. -/
def inRight (σ : Store) (n : AVLNode) (pos offset : Int) : Result Bool :=
  if pos < offset then do
    let rc ← avlCnt σ n.right
    .ok (decide (offset ≤ pos + rc))
  else .ok false

/-- `pos > offset && pos - avl_cnt(node->left) <= offset`: the target is
    inside the left subtree. -/
def inLeft (σ : Store) (n : AVLNode) (pos offset : Int) : Result Bool :=
  if offset < pos then do
    let lc ← avlCnt σ n.left
    .ok (decide (pos - lc ≤ offset))
  else .ok false

/-- The loop of `avl_offset`: `pos` is the rank difference from the start. -/
def avlOffsetLoop : Nat → Store → Option Nat → Int → Int → Result (Option Nat)
  | 0, _, _, _, _ => .error .noProgress
  | fuel + 1, σ, node, pos, offset =>
    if offset = pos then .ok node
    else do
      let n ← σ.load node
      if ← inRight σ n pos offset then do
        let r ← σ.load n.right
        let c ← avlCnt σ r.left
        avlOffsetLoop fuel σ n.right (pos + cntSucc c) offset
      else if ← inLeft σ n pos offset then do
        let l ← σ.load n.left
        let c ← avlCnt σ l.right
        avlOffsetLoop fuel σ n.left (pos - cntSucc c) offset
      else if n.parent = none then .ok none
      else do
        -- go to the parent
        let p ← σ.load n.parent
        if p.right = node then do
          let c ← avlCnt σ n.left
          avlOffsetLoop fuel σ n.parent (pos - cntSucc c) offset
        else do
          let c ← avlCnt σ n.right
          avlOffsetLoop fuel σ n.parent (pos + cntSucc c) offset

/-- `avl_offset`: the node `offset` ranks away, or `NULL`. -/
def avlOffset (σ : Store) (node : Option Nat) (offset : Int) : Result (Option Nat) :=
  avlOffsetLoop (σ.next + 1) σ node 0 offset

/-! ## The same loop in the arithmetic of the machine -/

/-- The value of an expression of type `int64_t`. An overflow is a fault. -/
def i64 (v : Int) : Result Int :=
  if -(2 ^ 63) ≤ v ∧ v < 2 ^ 63 then .ok v else .error .overflow

/-- `inRight`, with the sum as an `int64_t`. -/
def inRight64 (σ : Store) (n : AVLNode) (pos offset : Int) : Result Bool :=
  if pos < offset then do
    let rc ← avlCnt σ n.right
    let sum ← i64 (pos + rc)
    .ok (decide (offset ≤ sum))
  else .ok false

/-- `inLeft`, with the difference as an `int64_t`. -/
def inLeft64 (σ : Store) (n : AVLNode) (pos offset : Int) : Result Bool :=
  if offset < pos then do
    let lc ← avlCnt σ n.left
    let diff ← i64 (pos - lc)
    .ok (decide (diff ≤ offset))
  else .ok false

/-- The loop of `avl_offset`, with every sum and difference in its type. -/
def avlOffsetLoop64 : Nat → Store → Option Nat → Int → Int → Result (Option Nat)
  | 0, _, _, _, _ => .error .noProgress
  | fuel + 1, σ, node, pos, offset =>
    if offset = pos then .ok node
    else do
      let n ← σ.load node
      if ← inRight64 σ n pos offset then do
        let r ← σ.load n.right
        let c ← avlCnt σ r.left
        let pos ← i64 (pos + cntSucc c)
        avlOffsetLoop64 fuel σ n.right pos offset
      else if ← inLeft64 σ n pos offset then do
        let l ← σ.load n.left
        let c ← avlCnt σ l.right
        let pos ← i64 (pos - cntSucc c)
        avlOffsetLoop64 fuel σ n.left pos offset
      else if n.parent = none then .ok none
      else do
        let p ← σ.load n.parent
        if p.right = node then do
          let c ← avlCnt σ n.left
          let pos ← i64 (pos - cntSucc c)
          avlOffsetLoop64 fuel σ n.parent pos offset
        else do
          let c ← avlCnt σ n.right
          let pos ← i64 (pos + cntSucc c)
          avlOffsetLoop64 fuel σ n.parent pos offset

/-- `avl_offset` in the arithmetic of the machine. -/
def avlOffset64 (σ : Store) (node : Option Nat) (offset : Int) : Result (Option Nat) :=
  avlOffsetLoop64 (σ.next + 1) σ node 0 offset

end RedisServer
