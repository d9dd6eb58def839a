import RedisServer.Lib.Run
import RedisServer.Theory.Hashtable.Map
import Mathlib.Data.Finset.Card
import Mathlib.Data.Finset.Filter
import Mathlib.Data.Finset.Insert

/-!
# The Map as a Finite Set

What the map is for, and that it does it. The abstract map is a finite set of
nodes: an insertion adds a node, a deletion erases every node that answers its
key, and the other operations leave the set alone. Nothing in it mentions
tables, slots or a migration.

A user inserts nodes that are not stored, and looks up keys that at most one
stored node answers. Under these two conditions every operation of the map
from `hashtable.cpp` is an operation of the set, from any stage of any
migration.

## Main definitions

* `MapOp`, `MapReply`: The operations and what they return.
* `hmStep`: An operation on the map.
* `setSpec`: The same operation on a finite set.
* `Represents`: A map holds exactly the nodes of a set, each once.

## Theorems

* `hmStep_simulates`: One operation.
* `hmap_refines_set`: Every sequence of operations from the empty map.
-/

namespace RedisServer

open Lib

variable {α : Type}

/-- The operations of a map. A key is a hash code and the callback of its
    lookup. -/
inductive MapOp (α : Type)
  | insert (node : HNode α)
  | lookup (hcode : Nat) (eq : α → Bool)
  | delete (hcode : Nat) (eq : α → Bool)
  | size
  | foreach

/-- What the operations return. A walk returns the records its callback was
    shown, in order. -/
inductive MapReply (α : Type)
  | done
  | node (found : Option (HNode α))
  | count (n : Nat)
  | visited (records : List α)

/-- One operation on the map. -/
def hmStep (m : HMap α) : MapOp α → Result (HMap α × MapReply α)
  | .insert n => do
    let m ← hmInsert m n
    .ok (m, .done)
  | .lookup hcode eq => do
    let (m, r) ← hmLookup m hcode fun a => .ok (eq a)
    .ok (m, .node r)
  | .delete hcode eq => do
    let (m, r) ← hmDelete m hcode fun a => .ok (eq a)
    .ok (m, .node r)
  | .size => .ok (m, .count (hmSize m))
  | .foreach => do
    let seen ← hmForeach m (fun a s => (true, s ++ [a])) []
    .ok (m, .visited seen)

/-- The answer of a lookup in a set: the node that answers the key, or none
    when no node does. -/
def Answer (S : Finset (HNode α)) (hcode : Nat) (eq : α → Bool) (r : Option (HNode α)) : Prop :=
  ∀ n, r = some n ↔ n ∈ S ∧ Hit hcode eq n

/-- A key is answered by at most one node of the set. -/
def KeyUnique (S : Finset (HNode α)) (hcode : Nat) (eq : α → Bool) : Prop :=
  ∀ a ∈ S, ∀ b ∈ S, Hit hcode eq a → Hit hcode eq b → a = b

/-- The map as a finite set of nodes. -/
def setSpec [DecidableEq α] : Spec (Finset (HNode α)) (MapOp α) (MapReply α) where
  guard S
    | .insert n => n ∉ S
    | .lookup hcode eq => KeyUnique S hcode eq
    | .delete hcode eq => KeyUnique S hcode eq
    | .size => True
    | .foreach => True
  next S
    | .insert n => insert n S
    | .delete hcode eq => S.filter fun n => ¬ Hit hcode eq n
    | .lookup _ _ => S
    | .size => S
    | .foreach => S
  reply S
    | .insert _, r => r = .done
    | .lookup hcode eq, r => ∃ found, r = .node found ∧ Answer S hcode eq found
    | .delete hcode eq, r => ∃ found, r = .node found ∧ Answer S hcode eq found
    | .size, r => r = .count S.card
    | .foreach, r => ∃ l, r = .visited l ∧ (l : Multiset α) = S.val.map HNode.payload

/-- The map holds exactly the nodes of the set, each once, and every node is
    where a lookup finds it. -/
structure Represents (m : HMap α) (S : Finset (HNode α)) : Prop where
  wf : m.Wf
  nodup : m.nodes.Nodup
  mem : ∀ n, n ∈ m.nodes ↔ n ∈ S

namespace Represents

variable {m m' : HMap α} {S : Finset (HNode α)}

theorem empty : Represents ({} : HMap α) ∅ where
  wf := HMap.wf_empty
  nodup := List.nodup_nil
  mem := by
    intro n
    simp only [HMap.nodes_empty, List.not_mem_nil, Finset.notMem_empty]

theorem perm (h : Represents m S) (hwf : m'.Wf) (hp : m'.nodes.Perm m.nodes) : Represents m' S where
  wf := hwf
  nodup := hp.nodup_iff.mpr h.nodup
  mem := fun n => hp.mem_iff.trans (h.mem n)

theorem val_eq (h : Represents m S) : (m.nodes : Multiset (HNode α)) = S.val := by
  have hnd : (m.nodes : Multiset (HNode α)).Nodup := Multiset.coe_nodup.mpr h.nodup
  refine (Multiset.Nodup.ext hnd S.nodup).mpr fun n => ?_
  rw [Multiset.mem_coe, h.mem, Finset.mem_val]

theorem card_eq (h : Represents m S) : m.nodes.length = S.card := by
  rw [Finset.card_def, ← h.val_eq, Multiset.coe_card]

/-- A lookup's answer is the answer of the set, since the key is answered by
    one node at most. -/
theorem answer (h : Represents m S) {hcode : Nat} {eq : α → Bool} (hkey : KeyUnique S hcode eq)
    {r : Option (HNode α)} (hr : Found m.nodes hcode eq r) : Answer S hcode eq r := by
  intro n
  cases r with
  | none =>
      constructor
      · intro hn
        cases hn
      · intro hn
        exact absurd hn.2 (hr n ((h.mem n).mpr hn.1))
  | some k =>
      have hk : k ∈ S := (h.mem k).mp hr.1
      constructor
      · intro hn
        rw [Option.some.injEq] at hn
        rw [← hn]
        exact ⟨hk, hr.2⟩
      · intro hn
        rw [hkey k hk n hn.1 hr.2 hn.2]

/-- Erasing the answered node erases everything that answers the key. -/
theorem delete (h : Represents m S) {hcode : Nat} {eq : α → Bool} (hkey : KeyUnique S hcode eq)
    {r : Option (HNode α)} (hr : Found m.nodes hcode eq r) (hwf : m'.Wf)
    (hp : m.nodes.Perm (r.toList ++ m'.nodes)) :
    Represents m' (S.filter fun n => ¬ Hit hcode eq n) := by
  have hnd := hp.nodup_iff.mp h.nodup
  refine ⟨hwf, (List.nodup_append.mp hnd).2.1, fun n => ?_⟩
  rw [Finset.mem_filter, ← h.mem n, hp.mem_iff, List.mem_append]
  cases r with
  | none =>
      simp only [Option.toList_none, List.not_mem_nil, false_or]
      refine ⟨fun hn => ⟨hn, hr n (hp.mem_iff.mpr (List.mem_append_right _ hn))⟩, fun hn => hn.1⟩
  | some k =>
      simp only [Option.toList_some, List.mem_singleton]
      constructor
      · intro hn
        refine ⟨Or.inr hn, fun hhit => ?_⟩
        have hnS : n ∈ S := (h.mem n).mp (hp.mem_iff.mpr (List.mem_append_right _ hn))
        have hnk := hkey n hnS k ((h.mem k).mp hr.1) hhit hr.2
        -- The erased node would be stored twice.
        rw [hnk] at hn
        rw [Option.toList_some, List.singleton_append, List.nodup_cons] at hnd
        exact hnd.1 hn
      · rintro ⟨rfl | hn, hnot⟩
        · exact absurd hr.2 hnot
        · exact hn

theorem insert [DecidableEq α] (h : Represents m S) {n : HNode α} (hn : n ∉ S) (hwf : m'.Wf)
    (hp : m'.nodes.Perm (n :: m.nodes)) : Represents m' (insert n S) where
  wf := hwf
  nodup := by
    rw [hp.nodup_iff, List.nodup_cons, h.mem]
    exact ⟨hn, h.nodup⟩
  mem := by
    intro k
    rw [hp.mem_iff, List.mem_cons, Finset.mem_insert, h.mem]

end Represents

/-- A walk that appends what it is shown collects the records in order. -/
theorem foldl_collect (l : List (HNode α)) (s : List α) :
    l.foldl (fun s n => s ++ [n.payload]) s = s ++ l.map HNode.payload := by
  induction l generalizing s with
  | nil => rw [List.foldl_nil, List.map_nil, List.append_nil]
  | cons n l ih => rw [List.foldl_cons, ih, List.map_cons, List.append_assoc, List.singleton_append]

section

variable [DecidableEq α]

/-- One operation on the map is one operation on the set. -/
theorem hmStep_simulates :
    Simulates (hmStep (α := α)) (fun _ _ => True) setSpec Represents := by
  intro m S op hR _ hguard
  have hans (hcode : Nat) (eq : α → Bool) :
      Answers (fun a => .ok (eq a)) eq hcode m.nodes := fun _ _ _ => rfl
  cases op with
  | insert n =>
      rcases hmInsert_spec hR.wf n with ⟨m', hins, hwf, hp⟩
      exact ⟨m', .done, by simp only [hmStep, hins, ok_bind], rfl, hR.insert hguard hwf hp⟩
  | lookup hcode eq =>
      rcases hmLookup_spec hR.wf (hans hcode eq) with ⟨m', r, hlook, hwf, hp, hr⟩
      exact ⟨m', .node r, by simp only [hmStep, hlook, ok_bind], ⟨r, rfl, hR.answer hguard hr⟩,
        hR.perm hwf hp⟩
  | delete hcode eq =>
      rcases hmDelete_spec hR.wf (hans hcode eq) with ⟨m', r, hdel, hwf, hp, hr⟩
      exact ⟨m', .node r, by simp only [hmStep, hdel, ok_bind], ⟨r, rfl, hR.answer hguard hr⟩,
        hR.delete hguard hr hwf hp⟩
  | size =>
      exact ⟨m, .count (hmSize m), rfl, by rw [hmSize_eq hR.wf, hR.card_eq]; rfl, hR⟩
  | foreach =>
      -- the callback never stops the walk, so it visits every node
      have hwalk := hmForeach_eq (f := fun a s => (true, s ++ [a])) (fun s a => s ++ [a])
        (fun _ _ => rfl) hR.wf ([] : List α)
      rw [foldl_collect, List.nil_append] at hwalk
      refine ⟨m, .visited (m.nodes.map HNode.payload), by simp only [hmStep, hwalk, ok_bind],
        ⟨_, rfl, ?_⟩, hR⟩
      rw [← hR.val_eq, Multiset.map_coe]

/-- Every sequence of operations from the empty map does what the same
    sequence does to a set: it never faults, every reply is the reply of the
    set, and the map it ends in holds the nodes of the set, each once and in
    the slot of its hash code. -/
theorem hmap_refines_set (ops : List (MapOp α)) (hops : setSpec.Admits ∅ ops) :
    ∃ m replies, run hmStep {} ops = .ok (m, replies) ∧ setSpec.Agrees ∅ ops replies ∧
      Represents m (ops.foldl setSpec.next ∅) :=
  hmStep_simulates.run Represents.empty (guarded_of_forall (fun _ _ _ => True.intro) _) hops

/-- A callback that compares with one record identifies one node. -/
theorem keyUnique_beq (S : Finset (HNode α)) (hcode : Nat) (a : α) :
    KeyUnique S hcode fun x => x == a := by
  rintro ⟨_, x⟩ _ ⟨_, y⟩ _ ⟨rfl, hx⟩ ⟨hc, hy⟩
  simp only [beq_iff_eq] at hx hy hc
  rw [hx, hy, hc]

/-- Distinct new nodes may be inserted one after the other. -/
theorem admits_inserts {l : List (HNode α)} {S : Finset (HNode α)} {ops : List (MapOp α)}
    (hnd : l.Nodup) (hnew : ∀ n ∈ l, n ∉ S) (hops : ∀ S, setSpec.Admits S ops) :
    setSpec.Admits S (l.map .insert ++ ops) := by
  induction l generalizing S with
  | nil => exact hops S
  | cons n l ih =>
      rw [List.nodup_cons] at hnd
      refine ⟨hnew n List.mem_cons_self, ih hnd.2 fun x hx => ?_⟩
      show x ∉ insert n S
      rw [Finset.mem_insert, not_or]
      exact ⟨fun hxn => hnd.1 (hxn ▸ hx), hnew x (List.mem_cons_of_mem _ hx)⟩

end

/-- Nodes of which two and two have the same hash code. -/
def twins (n : Nat) : List (HNode Nat) := (List.range n).map fun i => ⟨i / 2, i⟩

theorem twins_nodup (n : Nat) : (twins n).Nodup :=
  List.nodup_range.map fun _ _ h => (HNode.mk.inj h).2

/-- So many are inserted that a migration begins. -/
def insertTwins : List (MapOp Nat) := (twins 256).map .insert

/-- In the middle of the migration, twins are told apart by the callback. -/
def askTwins : List (MapOp Nat) :=
  insertTwins ++ [.size, .foreach, .lookup 3 (· == 7), .delete 100 (· == 201), .size, .foreach]

theorem insertTwins_migrating : endsIn hmStep (fun m _ => decide (m.older.size ≠ 0)) {}
    insertTwins = true := by decide +kernel

theorem hmap_refines_set_collision :
    (∃ m replies, run hmStep {} insertTwins = .ok (m, replies) ∧ m.older.size ≠ 0) ∧
    ∃ m replies, run hmStep {} askTwins = .ok (m, replies) ∧ setSpec.Agrees ∅ askTwins replies ∧
      Represents m (askTwins.foldl setSpec.next ∅) := by
  rcases exists_of_endsIn insertTwins_migrating with ⟨m, rs, hrun, htest⟩
  refine ⟨⟨m, rs, hrun, of_decide_eq_true htest⟩, hmap_refines_set _ (admits_inserts
    (twins_nodup 256) (fun n _ => Finset.notMem_empty n) fun S => ?_)⟩
  exact ⟨True.intro, True.intro, keyUnique_beq S 3 7, keyUnique_beq S 100 201, True.intro, True.intro,
    True.intro⟩

end RedisServer
