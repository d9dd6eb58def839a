import RedisServer.Core.Base

/-!
# The Idle List

`list.h`: a circular doubly linked list whose nodes are embedded in the
records they link. The server has one such list, with the head in `g_data`
and one node in every connection, so a node is named by the record it sits
in.

## Main definitions

* `IdleNode`: The head, or the node of a connection.
* `DList`, `Links`: A node's two pointers, and the memory of the nodes.
* `dlistInit`, `dlistEmpty`, `dlistDetach`, `dlistInsertBefore`: The calls of
  `list.h`.
-/

namespace RedisServer

/-- A node of the list, by the record it is embedded in. -/
inductive IdleNode
  | head
  | conn (c : Nat)
  deriving DecidableEq, Repr

/-- The two pointers of a node. -/
structure DList where
  prev : Option IdleNode := none
  next : Option IdleNode := none
  deriving DecidableEq, Repr

/-- The memory of the list nodes. A freed connection's node is `none`. -/
abbrev Links := IdleNode → Option DList

/-- Read a node through a pointer. -/
def Links.load (links : Links) (node : Option IdleNode) : Result DList :=
  match node with
  | none => .error .nullDeref
  | some x =>
    match links x with
    | none => .error .freedConn
    | some d => .ok d

/-- Assign a pointer of a node. -/
def Links.modify (links : Links) (node : Option IdleNode) (f : DList → DList) : Result Links :=
  match node with
  | none => .error .nullDeref
  | some x =>
    match links x with
    | none => .error .freedConn
    | some d => .ok (Function.update links x (some (f d)))

/-- `dlist_init`. -/
def dlistInit (links : Links) (node : IdleNode) : Links :=
  Function.update links node (some { prev := some node, next := some node })

/-- `dlist_empty`. -/
def dlistEmpty (links : Links) (node : IdleNode) : Result Bool := do
  let d ← links.load (some node)
  .ok (decide (d.next = some node))

/-- `dlist_detach`. -/
def dlistDetach (links : Links) (node : IdleNode) : Result Links := do
  let d ← links.load (some node)
  let links ← links.modify d.prev fun p => { p with next := d.next }
  links.modify d.next fun n => { n with prev := d.prev }

/-- `dlist_insert_before`. -/
def dlistInsertBefore (links : Links) (target rookie : IdleNode) : Result Links := do
  let d ← links.load (some target)
  let prev := d.prev
  let links ← links.modify prev fun p => { p with next := some rookie }
  let links ← links.modify (some rookie) fun r => { r with prev := prev }
  let links ← links.modify (some rookie) fun r => { r with next := some target }
  links.modify (some target) fun t => { t with prev := some rookie }

end RedisServer
