import RedisServer.Core.List
import RedisServer.Lib.Ring

/-!
# The Idle List

The calls of `list.h` on the memory of the idle list, as operations on a ring
of connections: detaching a connection takes it out, and inserting one before
the head puts it last.

## Main definitions

* `nextOf`, `prevOf`: The two pointers of every node.
* `IdleRing`: The connections on the list, in order.

## Theorems

* `dlistDetach_spec`, `dlistInsertBefore_spec`: The calls never fault on a
  ring and change it as expected.
* `IdleRing.load_head`, `IdleRing.dlistEmpty_eq`: What the head's `next` shows.
-/

namespace RedisServer

open Lib

/-- The `next` pointer of a node, if the node is allocated and it is not
    `NULL`. -/
def nextOf (links : Links) (a : IdleNode) : Option IdleNode := (links a).bind DList.next

/-- The `prev` pointer of a node. -/
def prevOf (links : Links) (a : IdleNode) : Option IdleNode := (links a).bind DList.prev

/-- The idle list links these connections, in this order. -/
def IdleRing (links : Links) (l : List Nat) : Prop :=
  Ring (nextOf links) (prevOf links) .head (l.map .conn)

theorem conn_injective : Function.Injective IdleNode.conn := by
  intro a b h
  rw [IdleNode.conn.injEq] at h
  exact h

section

variable {links : Links}

theorem exists_of_nextOf {a b : IdleNode} (h : nextOf links a = some b) :
    ∃ d, links a = some d ∧ d.next = some b := Option.bind_eq_some_iff.mp h

theorem exists_of_prevOf {a b : IdleNode} (h : prevOf links a = some b) :
    ∃ d, links a = some d ∧ d.prev = some b := Option.bind_eq_some_iff.mp h

theorem modify_eq {a : IdleNode} {d : DList} (h : links a = some d) (f : DList → DList) :
    links.modify (some a) f = .ok (Function.update links a (some (f d))) := by
  simp only [Links.modify, h]

theorem nextOf_update (links : Links) (a : IdleNode) (d : DList) :
    nextOf (Function.update links a (some d)) = Function.update (nextOf links) a d.next := by
  funext x
  unfold nextOf
  by_cases hx : x = a
  · rw [hx, Function.update_self, Function.update_self, Option.bind_some]
  · rw [Function.update_of_ne hx, Function.update_of_ne hx]

theorem prevOf_update (links : Links) (a : IdleNode) (d : DList) :
    prevOf (Function.update links a (some d)) = Function.update (prevOf links) a d.prev := by
  funext x
  unfold prevOf
  by_cases hx : x = a
  · rw [hx, Function.update_self, Function.update_self, Option.bind_some]
  · rw [Function.update_of_ne hx, Function.update_of_ne hx]

/-- Assigning `next` changes one successor and no predecessor. -/
theorem setNext_links {a : IdleNode} {d : DList} (h : links a = some d) (v : Option IdleNode) :
    nextOf (Function.update links a (some { d with next := v })) =
        Function.update (nextOf links) a v ∧
      prevOf (Function.update links a (some { d with next := v })) = prevOf links := by
  refine ⟨nextOf_update links a _, ?_⟩
  rw [prevOf_update]
  refine Function.update_eq_self_iff.mpr ?_
  rw [prevOf, h, Option.bind_some]

/-- Assigning `prev` changes one predecessor and no successor. -/
theorem setPrev_links {a : IdleNode} {d : DList} (h : links a = some d) (v : Option IdleNode) :
    prevOf (Function.update links a (some { d with prev := v })) =
        Function.update (prevOf links) a v ∧
      nextOf (Function.update links a (some { d with prev := v })) = nextOf links := by
  refine ⟨prevOf_update links a _, ?_⟩
  rw [nextOf_update]
  refine Function.update_eq_self_iff.mpr ?_
  rw [nextOf, h, Option.bind_some]

end

theorem idleRing_init : IdleRing (dlistInit (fun _ => none) .head) [] where
  nodup := List.nodup_singleton _
  chain := List.isChain_pair.mpr ⟨rfl, rfl⟩

namespace IdleRing

variable {links : Links} {l : List Nat}

theorem nodup (h : IdleRing links l) : l.Nodup :=
  List.Nodup.of_map _ (List.nodup_cons.mp (Ring.nodup h)).2

/-- A connection that is not on the list may be allocated or freed. -/
theorem update_other (h : IdleRing links l) {c : Nat} (hc : c ∉ l) (v : Option DList) :
    IdleRing (Function.update links (.conn c) v) l := by
  have hne : ∀ a ∈ IdleNode.head :: l.map .conn, a ≠ .conn c := by
    rintro a ha rfl
    rcases List.mem_cons.mp ha with ha | ha
    · cases ha
    · exact hc ((List.mem_map_of_injective conn_injective).mp ha)
  refine Ring.congr h (fun a ha => ?_) (fun a ha => ?_)
  · rw [nextOf, Function.update_of_ne (hne a ha), nextOf]
  · rw [prevOf, Function.update_of_ne (hne a ha), prevOf]

/-- The links are those of one list only. -/
theorem unique {l' : List Nat} (h : IdleRing links l) (h' : IdleRing links l') : l = l' :=
  List.map_injective_iff.mpr conn_injective (Ring.unique h h')

/-- The head's `next` shows the first connection, or the head itself. -/
theorem load_head (h : IdleRing links l) :
    ∃ d, links.load (some .head) = .ok d ∧ d.next = some ((l.map .conn).headD .head) := by
  rcases exists_of_nextOf (Ring.front h) with ⟨d, hd, hnext⟩
  exact ⟨d, by simp only [Links.load, hd], hnext⟩

/-- `dlist_empty` tells whether there is a connection on the list. -/
theorem dlistEmpty_eq (h : IdleRing links l) : dlistEmpty links .head = .ok l.isEmpty := by
  rcases load_head h with ⟨d, hd, hnext⟩
  rw [dlistEmpty, hd, ok_bind, hnext]
  cases l with
  | nil => rfl
  | cons c l => rfl

end IdleRing

/-- Detaching a connection of the list takes it out. Its node stays
    allocated. -/
theorem dlistDetach_spec {links : Links} {l₁ l₂ : List Nat} {c : Nat}
    (h : IdleRing links (l₁ ++ c :: l₂)) :
    ∃ links', dlistDetach links (.conn c) = .ok links' ∧ IdleRing links' (l₁ ++ l₂) ∧
      ∃ d, links' (.conn c) = some d := by
  have hring : Ring (nextOf links) (prevOf links) .head (l₁.map .conn ++ .conn c :: l₂.map .conn) := by
    rw [← List.map_cons, ← List.map_append]
    exact h
  rcases hring.remove with ⟨p, n, hp, hn, hpm, hnm, hring'⟩
  rcases exists_of_prevOf hp with ⟨d, hd, hdp⟩
  have hdn : d.next = some n := by
    rw [nextOf, hd, Option.bind_some] at hn
    exact hn
  -- Both neighbours are on the list, hence allocated.
  have halloc : ∀ a ∈ IdleNode.head :: (l₁.map .conn ++ l₂.map .conn), ∃ e, links a = some e := by
    intro a ha
    have : a ∈ IdleNode.head :: (l₁.map .conn ++ .conn c :: l₂.map .conn) := by
      rw [List.mem_cons, List.mem_append, List.mem_cons]
      rw [List.mem_cons, List.mem_append] at ha
      rcases ha with ha | ha | ha
      · exact Or.inl ha
      · exact Or.inr (Or.inl ha)
      · exact Or.inr (Or.inr (Or.inr ha))
    rcases (hring.links this).1 with ⟨b, _, hb⟩
    rcases exists_of_nextOf hb with ⟨e, he, _⟩
    exact ⟨e, he⟩
  rcases halloc p hpm with ⟨ep, hep⟩
  have hen : ∃ en, Function.update links p (some { ep with next := some n }) n = some en := by
    by_cases hnp : n = p
    · rw [hnp, Function.update_self]
      exact ⟨_, rfl⟩
    · rw [Function.update_of_ne hnp]
      exact halloc n hnm
  rcases hen with ⟨en, hen⟩
  -- the neighbours are linked to each other, the node keeps its own links
  have h1 := setNext_links hep (some n)
  have h2 := setPrev_links hen (some p)
  rw [h1.1] at h2
  rw [h1.2] at h2
  refine ⟨Function.update (Function.update links p (some { ep with next := some n })) n
    (some { en with prev := some p }), ?_, ?_, ?_⟩
  · simp only [dlistDetach, Links.load, hd, ok_bind, hdp, hdn, modify_eq hep, modify_eq hen]
  · unfold IdleRing
    rw [h2.1, h2.2, List.map_append]
    exact hring'
  · by_cases hcn : IdleNode.conn c = n
    · rw [hcn, Function.update_self]
      exact ⟨_, rfl⟩
    · rw [Function.update_of_ne hcn]
      by_cases hcp : IdleNode.conn c = p
      · rw [hcp, Function.update_self]
        exact ⟨_, rfl⟩
      · rw [Function.update_of_ne hcp]
        exact ⟨d, hd⟩

/-- Inserting a connection before the head puts it last. -/
theorem dlistInsertBefore_spec {links : Links} {l : List Nat} {c : Nat} (h : IdleRing links l)
    (hc : c ∉ l) (halloc : ∃ d, links (.conn c) = some d) :
    ∃ links', dlistInsertBefore links .head (.conn c) = .ok links' ∧ IdleRing links' (l ++ [c]) := by
  have hx : IdleNode.conn c ∉ IdleNode.head :: l.map .conn := by
    intro hm
    rcases List.mem_cons.mp hm with hm | hm
    · cases hm
    · exact hc ((List.mem_map_of_injective conn_injective).mp hm)
  rcases Ring.insertLast h hx with ⟨p, hp, hpm, hring⟩
  rcases exists_of_prevOf hp with ⟨dh, hdh, hdhp⟩
  rcases halloc with ⟨dc, hdc⟩
  rcases (Ring.links h hpm).1 with ⟨b, _, hb⟩
  rcases exists_of_nextOf hb with ⟨dp, hdp, _⟩
  have hpc : IdleNode.conn c ≠ p := by
    rintro rfl
    exact hx hpm
  -- The four assignments, one memory after the other.
  have h1 := setNext_links hdp (some (.conn c))
  have hc1 : Function.update links p (some { dp with next := some (.conn c) }) (.conn c) =
      some dc := by
    rw [Function.update_of_ne hpc]
    exact hdc
  set links1 := Function.update links p (some { dp with next := some (.conn c) }) with hl1
  have h2 := setPrev_links hc1 (some p)
  have hc2 : Function.update links1 (.conn c) (some { dc with prev := some p }) (.conn c) =
      some { dc with prev := some p } := Function.update_self _ _ _
  set links2 := Function.update links1 (.conn c) (some { dc with prev := some p }) with hl2
  have h3 := setNext_links hc2 (some .head)
  set links3 := Function.update links2 (.conn c)
    (some { dc with prev := some p, next := some .head }) with hl3
  have hh3 : ∃ e, links3 .head = some e := by
    rw [hl3, Function.update_of_ne (by simp only [ne_eq, reduceCtorEq, not_false_eq_true]), hl2,
      Function.update_of_ne (by simp only [ne_eq, reduceCtorEq, not_false_eq_true]), hl1]
    by_cases hhp : IdleNode.head = p
    · rw [hhp, Function.update_self]
      exact ⟨_, rfl⟩
    · rw [Function.update_of_ne hhp]
      exact ⟨dh, hdh⟩
  rcases hh3 with ⟨e, he⟩
  have h4 := setPrev_links he (some (.conn c))
  refine ⟨Function.update links3 .head (some { e with prev := some (.conn c) }), ?_, ?_⟩
  · have hm1 := modify_eq hdp fun q => { q with next := some (.conn c) }
    have hm2 := modify_eq hc1 fun r => { r with prev := some p }
    have hm3 := modify_eq hc2 fun r => { r with next := some .head }
    have hm4 := modify_eq he fun t => { t with prev := some (.conn c) }
    simp only [dlistInsertBefore, Links.load, hdh, ok_bind, hdhp, hm1]
    rw [← hl1, hm2, ok_bind, ← hl2, hm3, ok_bind]
    exact hm4
  · unfold IdleRing
    rw [h4.1, h4.2, h3.1, h3.2, h2.1, h2.2, h1.1, h1.2, List.map_append]
    exact hring

end RedisServer
