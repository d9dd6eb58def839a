import RedisServer.Core.Timers
import RedisServer.Theory.Server.Commands
import Mathlib.Data.List.Perm.Subperm

/-!
# The Life of a Connection

The steps that are not commands and concern connections: one is accepted,
touched or destroyed, and the sweep ends those that are idle.

Destroying a connection frees its table and not the entries in it. If one of
those had a deadline, the heap would keep an item for an entry that no table
holds. So the invariant survives in full when the connection has no key with a
deadline, and otherwise up to the entries that are left behind.

## Main definitions

* `NoDeadlines`: A connection none of whose keys has a deadline.
* `clearFd`, `Destroyed`: What `conn_destroy` does to the state.
* `Idle`: A connection the sweep at a given time would end.
* `IdleEnds`: A series of destructions of idle connections.
* `IdleNoDeadlines`: The condition of a sweep.
* `Keyspace.drop`: A keyspace without the keys of one connection.

## Theorems

* `handleAccept_spec`, `connTouch_spec`, `connDestroy_spec`: One connection.
* `idleLoop_ends`: The idle loop never faults, and destroys idle connections.
* `idleLoop_spec`: It keeps the invariant when they have no deadlines.
* `idleLoop_none`: It does nothing when no connection is idle.
-/

namespace RedisServer

open Lib

section

variable {R : Runtime} {g g' : GData} {K : Keyspace} {P : Nat → Prop}

/-! ## One connection -/

/-- A state with the same data and a well-formed idle list. -/
theorem SameData.inv (h : SameData g g') (hinv : Inv R g P)
    (hdead : ∀ c, g.conns c = none → c < g.nextConn → g'.conns c = none ∧ c < g'.nextConn)
    (hloop : LoopInv g') : Inv R g' P :=
  ⟨h.dbInv hinv.db, h.heapInv hinv.heap hdead, hloop⟩

/-- A connection that is assigned, with its table kept, keeps the data. -/
theorem setConn_sameData (hdb : DbInv R g) {c : Nat} {x : Conn} (hwf : x.db.Wf)
    (hnodes : x.db.nodes = nodesOf g c) (h : g'.conns = Function.update g.conns c (some x))
    (hentries : g'.entries = g.entries) (hnext : g'.nextEntry = g.nextEntry)
    (hheap : g'.heap = g.heap) (hidx : g'.heapIdx = g.heapIdx) : SameData g g' where
  wf := by
    intro c' conn hc'
    rw [h] at hc'
    by_cases hcc : c' = c
    · rw [hcc, Function.update_self, Option.some.injEq] at hc'
      rw [← hc']
      exact hwf
    · rw [Function.update_of_ne hcc] at hc'
      exact hdb.wf c' conn hc'
  nodes := by
    intro c'
    rw [nodesOf, h]
    by_cases hcc : c' = c
    · rw [hcc, Function.update_self]
      exact List.Perm.of_eq hnodes
    · rw [Function.update_of_ne hcc, nodesOf]
  entries := hentries
  nextEntry := hnext
  heap := hheap
  heapIdx := hidx

/-- A new connection holds nothing and is last on the idle list. -/
theorem handleAccept_spec (hinv : Inv R g P) (connfd : Int) (now : Nat) :
    ∃ g', handleAccept g connfd now = .ok g' ∧ SameData g g' ∧ Inv R g' P ∧
      g'.conns = if connfd < 0 then g.conns else Function.update g.conns g.nextConn
        (some { fd := connfd, wantRead := true, lastActiveMs := now }) := by
  by_cases hfd : connfd < 0
  · exact ⟨g, by rw [handleAccept, if_pos hfd], ⟨hinv.db.wf, fun _ => List.Perm.refl _, rfl, rfl,
      rfl, rfl⟩, hinv, by rw [if_pos hfd]⟩
  · rcases hinv.loop.ring with ⟨l, hl, hmem⟩
    have hfresh := hinv.loop.fresh g.nextConn (Nat.le_refl _)
    -- the list links live connections only
    have hnot : g.nextConn ∉ l := by
      rw [hmem, hfresh]
      rintro ⟨conn, h⟩
      cases h
    rcases dlistInsertBefore_spec (hl.update_other hnot (some {})) hnot
      ⟨{}, Function.update_self _ _ _⟩ with ⟨idle, hins, hring⟩
    set x : Conn := { fd := connfd, wantRead := true, lastActiveMs := now } with hx
    -- the call by its effects, member by member
    have hrun : ∃ g', handleAccept g connfd now = .ok g' ∧
        g'.conns = Function.update g.conns g.nextConn (some x) ∧ g'.entries = g.entries ∧
        g'.nextEntry = g.nextEntry ∧ g'.heap = g.heap ∧ g'.heapIdx = g.heapIdx ∧
        g'.idleList = idle ∧ g'.nextConn = g.nextConn + 1 := by
      simp only [handleAccept, if_neg hfd, hins, ok_bind]
      exact ⟨_, rfl, rfl, rfl, rfl, rfl, rfl, rfl, rfl⟩
    rcases hrun with ⟨g', hrun, hconns, hentries, hnext, hheap, hidx, hidle, hnextc⟩
    have hdata : SameData g g' := setConn_sameData (x := x) hinv.db HMap.wf_empty
      (by rw [nodesOf, hfresh]; rfl) hconns hentries hnext hheap hidx
    have hdead : ∀ c, g.conns c = none → c < g.nextConn → g'.conns c = none ∧ c < g'.nextConn := by
      intro c hc hlt
      rw [hconns, Function.update_of_ne (Nat.ne_of_lt hlt), hnextc]
      exact ⟨hc, Nat.lt_succ_of_lt hlt⟩
    refine ⟨g', hrun, hdata, hdata.inv hinv hdead ⟨⟨l ++ [g.nextConn], by rw [hidle]; exact hring,
      fun c => ?_⟩, fun c hc => ?_⟩, by rw [if_neg hfd, hconns]⟩
    · rw [List.mem_append, List.mem_singleton, hconns]
      by_cases hcc : c = g.nextConn
      · rw [hcc, Function.update_self]
        exact ⟨fun _ => ⟨x, rfl⟩, fun _ => Or.inr rfl⟩
      · rw [Function.update_of_ne hcc, ← hmem]
        exact or_iff_left hcc
    · rw [hnextc] at hc
      rw [hconns, Function.update_of_ne (by omega)]
      exact hinv.loop.fresh c (by omega)

theorem LoopInv.lt_nextConn (h : LoopInv g) {c : Nat} {conn : Conn} (hc : g.conns c = some conn) :
    c < g.nextConn := by
  by_contra hge
  rw [h.fresh c (Nat.le_of_not_lt hge)] at hc
  cases hc

/-- A live connection's place on the idle list. -/
theorem LoopInv.split (h : LoopInv g) {c : Nat} {conn : Conn} (hc : g.conns c = some conn) :
    ∃ l₁ l₂, IdleRing g.idleList (l₁ ++ c :: l₂) ∧
      ∀ c', c' ∈ l₁ ++ c :: l₂ ↔ ∃ conn, g.conns c' = some conn := by
  rcases h.ring with ⟨l, hl, hmem⟩
  rcases List.append_of_mem ((hmem c).mpr ⟨conn, hc⟩) with ⟨l₁, l₂, rfl⟩
  exact ⟨l₁, l₂, hl, hmem⟩

/-- An active connection moves to the end of the idle list. -/
theorem connTouch_spec (hinv : Inv R g P) {c : Nat} {conn : Conn} (hc : g.conns c = some conn)
    (now : Nat) :
    ∃ g', connTouch g c now = .ok g' ∧ SameData g g' ∧ Inv R g' P ∧
      g'.conns = Function.update g.conns c (some { conn with lastActiveMs := now }) := by
  rcases hinv.loop.split hc with ⟨l₁, l₂, hl, hmem⟩
  -- the node is taken out and put in at the end
  rcases dlistDetach_spec hl with ⟨links₁, hdet, hring₁, halloc⟩
  have hnd : (l₁ ++ c :: l₂).Nodup := hl.nodup
  have hnot : c ∉ l₁ ++ l₂ := by
    rw [List.nodup_middle, List.nodup_cons] at hnd
    exact hnd.1
  rcases dlistInsertBefore_spec hring₁ hnot halloc with ⟨links₂, hins, hring₂⟩
  refine ⟨{ g.setConn c { conn with lastActiveMs := now } with idleList := links₂ }, ?_, ?_⟩
  · have hdet' : dlistDetach (g.setConn c { conn with lastActiveMs := now }).idleList (.conn c) =
        .ok links₁ := hdet
    simp only [connTouch, conn_eq hc, ok_bind, hdet', hins]
  · have hdata : SameData g { g.setConn c { conn with lastActiveMs := now } with
        idleList := links₂ } :=
      setConn_sameData (x := { conn with lastActiveMs := now }) hinv.db (hinv.db.wf c conn hc)
        (nodesOf_eq hc).symm rfl rfl rfl rfl rfl
    have hdead : ∀ c', g.conns c' = none → c' < g.nextConn →
        (g.setConn c { conn with lastActiveMs := now }).conns c' = none ∧ c' < g.nextConn := by
      intro c' hc' hlt
      have hne : c' ≠ c := by
        rintro rfl
        rw [hc] at hc'
        cases hc'
      exact ⟨(Function.update_of_ne hne _ _).trans hc', hlt⟩
    refine ⟨hdata, hdata.inv hinv hdead ⟨⟨l₁ ++ l₂ ++ [c], hring₂, fun c' => ?_⟩,
      fun c' hc' => ?_⟩, rfl⟩
    -- the same connections are linked, in another order
    · have hold := hmem c'
      rw [List.mem_append, List.mem_singleton, List.mem_append]
      rw [List.mem_append, List.mem_cons] at hold
      simp only [GData.setConn]
      by_cases hcc : c' = c
      · rw [hcc, Function.update_self]
        exact ⟨fun _ => ⟨_, rfl⟩, fun _ => Or.inr rfl⟩
      · rw [Function.update_of_ne hcc, ← hold]
        constructor
        · rintro ((h | h) | h)
          · exact Or.inl h
          · exact Or.inr (Or.inr h)
          · exact absurd h hcc
        · rintro (h | h | h)
          · exact Or.inl (Or.inl h)
          · exact absurd h hcc
          · exact Or.inl (Or.inr h)
    · have hne : c' ≠ c := by
        rintro rfl
        rw [hinv.loop.fresh c' hc'] at hc
        cases hc
      simp only [GData.setConn]
      rw [Function.update_of_ne hne]
      exact hinv.loop.fresh c' hc'

/-- A connection none of whose keys has a deadline. -/
def NoDeadlines (g : GData) (c : Nat) : Prop := ∀ e, Stored g c e → g.heapIdx e = none

/-- The keyspace without the keys of one connection. -/
def Keyspace.drop (K : Keyspace) (c : Nat) : Keyspace :=
  fun c' k => if c' = c then none else K c' k

/-- `fd2conn` without a descriptor. -/
def clearFd (fds : List (Option Nat)) (fd : Int) : List (Option Nat) :=
  if 0 ≤ fd ∧ fd.toNat < fds.length then fds.set fd.toNat none else fds

theorem clearFd_clearFd (fds : List (Option Nat)) (fd : Int) :
    clearFd (clearFd fds fd) fd = clearFd fds fd := by
  unfold clearFd
  by_cases h : 0 ≤ fd ∧ fd.toNat < fds.length
  · rw [if_pos h, List.length_set, if_pos h, List.set_set]
  · rw [if_neg h, if_neg h]

/-- What `conn_destroy` does: the connection and its table are gone, its
    descriptor is free, the entries and the heap are as they were. -/
structure Destroyed (g g' : GData) (c : Nat) : Prop where
  conns : g'.conns = Function.update g.conns c none
  fd2conn : ∀ conn, g.conns c = some conn → g'.fd2conn = clearFd g.fd2conn conn.fd
  queue : g'.queue = g.queue
  emptyZset : g'.emptyZset = g.emptyZset
  entries : g'.entries = g.entries
  nextEntry : g'.nextEntry = g.nextEntry
  nextConn : g'.nextConn = g.nextConn
  heap : g'.heap = g.heap
  heapIdx : g'.heapIdx = g.heapIdx
  ring : ∀ l₁ l₂, IdleRing g.idleList (l₁ ++ c :: l₂) → IdleRing g'.idleList (l₁ ++ l₂)

theorem connDestroy_eq (h : LoopInv g) {c : Nat} {conn : Conn} (hc : g.conns c = some conn) :
    ∃ g', connDestroy g c = .ok g' ∧ Destroyed g g' c := by
  rcases h.split hc with ⟨l₁, l₂, hl, _⟩
  rcases dlistDetach_spec hl with ⟨links, hdet, _, _⟩
  simp only [connDestroy, conn_eq hc, ok_bind, hdet]
  refine ⟨_, rfl, rfl, fun conn' hc' => ?_, rfl, rfl, rfl, rfl, rfl, rfl, rfl, fun m₁ m₂ hm => ?_⟩
  · rw [hc, Option.some.injEq] at hc'
    rw [← hc', clearFd]
  rcases dlistDetach_spec hm with ⟨links', hdet', hring', _⟩
  rw [hdet, Except.ok.injEq] at hdet'
  rw [hdet']
  have hnd := hm.nodup
  rw [List.nodup_middle, List.nodup_cons] at hnd
  exact hring'.update_other hnd.1 none

namespace Destroyed

variable {c : Nat}

theorem conns_self (h : Destroyed g g' c) : g'.conns c = none := by
  rw [h.conns, Function.update_self]

theorem conns_other (h : Destroyed g g' c) {c' : Nat} (hne : c' ≠ c) :
    g'.conns c' = g.conns c' := by
  rw [h.conns, Function.update_of_ne hne]

theorem mem_nodesOf (h : Destroyed g g' c) (c' : Nat) (n : HNode Nat) :
    n ∈ nodesOf g' c' ↔ c' ≠ c ∧ n ∈ nodesOf g c' := by
  rw [nodesOf]
  by_cases hcc : c' = c
  · rw [hcc, h.conns_self]
    exact ⟨fun hn => absurd hn List.not_mem_nil, fun hn => absurd rfl hn.1⟩
  · rw [h.conns_other hcc]
    exact ⟨fun hn => ⟨hcc, hn⟩, fun hn => hn.2⟩

theorem stored (h : Destroyed g g' c) (c' e : Nat) : Stored g' c' e ↔ c' ≠ c ∧ Stored g c' e := by
  constructor
  · rintro ⟨n, hn, rfl⟩
    have hm := (h.mem_nodesOf c' n).mp hn
    exact ⟨hm.1, n, hm.2, rfl⟩
  · rintro ⟨hcc, n, hn, rfl⟩
    exact ⟨n, (h.mem_nodesOf c' n).mpr ⟨hcc, hn⟩, rfl⟩

theorem holds (h : Destroyed g g' c) (c' : Nat) (k : Bytes) (e : Nat) (x : Entry) :
    Holds g' c' k e x ↔ c' ≠ c ∧ Holds g c' k e x := by
  constructor
  · intro hx
    have hs := (h.stored c' e).mp hx.stored
    exact ⟨hs.1, hs.2, by rw [← h.entries]; exact hx.entry, hx.key⟩
  · rintro ⟨hcc, hx⟩
    exact ⟨(h.stored c' e).mpr ⟨hcc, hx.stored⟩, by rw [h.entries]; exact hx.entry, hx.key⟩

theorem due (h : Destroyed g g' c) (e : Nat) : due g' e = due g e := by
  rw [RedisServer.due, RedisServer.due, h.heap, h.heapIdx]

theorem dbInv (h : Destroyed g g' c) (hinv : DbInv R g) : DbInv R g' where
  wf := by
    intro c' conn hc'
    -- the destroyed connection has no table any more
    by_cases hcc : c' = c
    · rw [hcc, h.conns_self] at hc'
      cases hc'
    · rw [h.conns_other hcc] at hc'
      exact hinv.wf c' conn hc'
  distinct := by
    intro c'
    by_cases hcc : c' = c
    · rw [hcc, nodesOf, h.conns_self]
      exact List.nodup_nil
    · have hd := hinv.distinct c'
      rw [nodesOf] at hd ⊢
      rw [h.conns_other hcc]
      exact hd
  entry := by
    intro c' n hn
    rw [h.entries]
    exact hinv.entry c' n ((h.mem_nodesOf c' n).mp hn).2
  keys := fun c' k e x e' x' hx hx' =>
    hinv.keys c' k e x e' x' ((h.holds c' k e x).mp hx).2 ((h.holds c' k e' x').mp hx').2
  fresh := by
    rw [h.entries, h.nextEntry]
    exact hinv.fresh

theorem loopInv (h : Destroyed g g' c) (hinv : LoopInv g) {conn : Conn}
    (hc : g.conns c = some conn) : LoopInv g' where
  ring := by
    rcases hinv.split hc with ⟨l₁, l₂, hl, hmem⟩
    refine ⟨l₁ ++ l₂, h.ring l₁ l₂ hl, fun c' => ?_⟩
    have hnd := hl.nodup
    rw [List.nodup_middle, List.nodup_cons] at hnd
    have hold := hmem c'
    rw [List.mem_append, List.mem_cons] at hold
    -- exactly one is unlinked, and exactly that one is gone
    by_cases hcc : c' = c
    · rw [hcc, h.conns_self]
      constructor
      · intro hm
        exact absurd hm hnd.1
      · rintro ⟨y, hy⟩
        cases hy
    · rw [h.conns_other hcc, ← hold, List.mem_append]
      constructor
      · rintro (hm | hm)
        · exact Or.inl hm
        · exact Or.inr (Or.inr hm)
      · rintro (hm | hm | hm)
        · exact Or.inl hm
        · exact absurd hm hcc
        · exact Or.inr hm
  fresh := by
    intro c' hc'
    rw [h.nextConn] at hc'
    by_cases hcc : c' = c
    · rw [hcc, h.conns_self]
    · rw [h.conns_other hcc]
      exact hinv.fresh c' hc'

/-- The keys of the connection that have a deadline are left behind. -/
theorem heapInv_left (h : Destroyed g g' c) (hdb : DbInv R g) (hinv : HeapInv g P)
    (hlt : c < g.nextConn) :
    HeapInv g' fun e => P e ∨ (Stored g c e ∧ g.heapIdx e ≠ none) where
  indexed := by
    rw [h.heap, h.heapIdx]
    exact hinv.indexed
  owned := by
    intro e i hi
    rw [h.heapIdx] at hi
    rcases hinv.owned e i hi with ⟨c', hs⟩ | hP
    -- the deadlines of the connection's entries are left behind
    · by_cases hcc : c' = c
      · rw [hcc] at hs
        refine Or.inr (Or.inr ⟨hs, ?_⟩)
        rw [hi]
        exact Option.some_ne_none i
      · exact Or.inl ⟨c', (h.stored c' e).mpr ⟨hcc, hs⟩⟩
    · exact Or.inr (Or.inl hP)
  orphan := by
    rintro e (hP | ⟨hs, _⟩)
    · rcases hinv.orphan e hP with ⟨x, c', hx, hown, hc', hlt'⟩
      refine ⟨x, c', by rw [h.entries]; exact hx, hown, ?_, by rw [h.nextConn]; exact hlt'⟩
      rw [h.conns, Function.update_apply]
      split
      · rfl
      · exact hc'
    · rcases hdb.stored hs with ⟨x, hx, hown⟩
      exact ⟨x, c, by rw [h.entries]; exact hx.entry, hown, h.conns_self,
        by rw [h.nextConn]; exact hlt⟩

/-- Without deadlines among its keys, the heap has no item of the connection. -/
theorem heapInv (h : Destroyed g g' c) (hinv : HeapInv g) (hno : NoDeadlines g c) :
    HeapInv g' where
  indexed := by
    rw [h.heap, h.heapIdx]
    exact hinv.indexed
  owned := by
    intro e i hi
    rw [h.heapIdx] at hi
    rcases hinv.stored hi with ⟨c', hs⟩
    refine Or.inl ⟨c', (h.stored c' e).mpr ⟨?_, hs⟩⟩
    rintro rfl
    rw [hno e hs] at hi
    cases hi
  orphan := fun e he => he.elim

theorem views (h : Destroyed g g' c) (hK : Views g K) : Views g' (K.drop c) := by
  intro c' k x d
  rw [Keyspace.drop]
  by_cases hcc : c' = c
  · rw [if_pos hcc]
    constructor
    · intro hn
      cases hn
    · rintro ⟨e, he, _⟩
      exact absurd hcc ((h.holds c' k e x).mp he).1
  · rw [if_neg hcc, hK c' k x d]
    constructor
    · rintro ⟨e, he, hd⟩
      exact ⟨e, (h.holds c' k e x).mpr ⟨hcc, he⟩, (h.due e).trans hd⟩
    · rintro ⟨e, he, hd⟩
      exact ⟨e, ((h.holds c' k e x).mp he).2, (h.due e).symm.trans hd⟩

end Destroyed

/-- A connection without deadlines is destroyed, and its keys with it. -/
theorem connDestroy_spec (hinv : Inv R g) {c : Nat} {conn : Conn} (hc : g.conns c = some conn)
    (hno : NoDeadlines g c) :
    ∃ g', connDestroy g c = .ok g' ∧ Destroyed g g' c ∧ Inv R g' := by
  rcases connDestroy_eq hinv.loop hc with ⟨g', hrun, hd⟩
  exact ⟨g', hrun, hd, hd.dbInv hinv.db, hd.heapInv hinv.heap hno, hd.loopInv hinv.loop hc⟩

/-! ## The idle loop -/

/-- The sweep at `now` finds the connection idle. -/
def Idle (now : Nat) (conn : Conn) : Prop := (conn.lastActiveMs + kIdleTimeoutMs) % 2 ^ 64 < now

/-- Every connection the sweep at `now` would end has no key with a
    deadline. -/
def IdleNoDeadlines (g : GData) (now : Nat) : Prop :=
  ∀ c conn, g.conns c = some conn → Idle now conn → NoDeadlines g c

/-- A series of destructions, each of a connection that the sweep at `now`
    finds idle. -/
inductive IdleEnds (now : Nat) : GData → GData → Prop
  | refl (g : GData) : IdleEnds now g g
  | step {g g₁ g' : GData} {c : Nat} {conn : Conn} : g.conns c = some conn → Idle now conn →
      Destroyed g g₁ c → IdleEnds now g₁ g' → IdleEnds now g g'

/-- One turn of the idle loop: it stops at the first connection of the list if
    that is not idle, and otherwise destroys it and goes on with the rest. -/
theorem idleLoop_turn (hloop : LoopInv g) {c : Nat} {l : List Nat}
    (hring : IdleRing g.idleList (c :: l)) (hmem : ∀ c', c' ∈ c :: l ↔ ∃ conn, g.conns c' = some conn)
    {conn : Conn} (hc : g.conns c = some conn) (now fuel : Nat) :
    (¬ Idle now conn ∧ idleLoop now (fuel + 1) g = .ok g) ∨
    (Idle now conn ∧ ∃ g', Destroyed g g' c ∧ idleLoop now (fuel + 1) g = idleLoop now fuel g' ∧
      LoopInv g' ∧ IdleRing g'.idleList l ∧ ∀ c', c' ∈ l ↔ ∃ conn, g'.conns c' = some conn) := by
  rcases hring.load_head with ⟨d, hload, hnext⟩
  simp only [idleLoop, hload, ok_bind, hnext, List.map_cons, List.headD_cons, conn_eq hc]
  by_cases hnow : now ≤ (conn.lastActiveMs + kIdleTimeoutMs) % 2 ^ 64
  · rw [if_pos hnow]
    exact Or.inl ⟨Nat.not_lt.mpr hnow, rfl⟩
  · rw [if_neg hnow]
    set g₁ : GData := if 0 ≤ conn.fd ∧ conn.fd.toNat < g.fd2conn.length then
      { g with fd2conn := g.fd2conn.set conn.fd.toNat none } else g with hg₁
    -- Clearing the slot of `fd2conn` early changes none of what follows.
    have hsame : g₁ = { g with fd2conn := clearFd g.fd2conn conn.fd } := by
      rw [hg₁, clearFd]
      by_cases hfd : 0 ≤ conn.fd ∧ conn.fd.toNat < g.fd2conn.length
      · rw [if_pos hfd, if_pos hfd]
      · rw [if_neg hfd, if_neg hfd]
    have hconns : g₁.conns = g.conns := by rw [hsame]
    have hidle : g₁.idleList = g.idleList := by rw [hsame]
    have hnextc : g₁.nextConn = g.nextConn := by rw [hsame]
    have hloop₁ : LoopInv g₁ := by
      refine ⟨⟨c :: l, by rw [hidle]; exact hring, ?_⟩, ?_⟩
      · rw [hconns]
        exact hmem
      · rw [hconns, hnextc]
        exact hloop.fresh
    have hc₁ : g₁.conns c = some conn := by rw [hconns]; exact hc
    rcases connDestroy_eq hloop₁ hc₁ with ⟨g₂, hrun, hd₁⟩
    have hd : Destroyed g g₂ c := by
      refine ⟨by rw [hd₁.conns, hconns], fun conn' hc' => ?_, by rw [hd₁.queue, hsame],
        by rw [hd₁.emptyZset, hsame], by rw [hd₁.entries, hsame],
        by rw [hd₁.nextEntry, hsame], by rw [hd₁.nextConn, hsame], by rw [hd₁.heap, hsame],
        by rw [hd₁.heapIdx, hsame], fun l₁ l₂ hl => hd₁.ring l₁ l₂ ?_⟩
      · rw [hc, Option.some.injEq] at hc'
        rw [hd₁.fd2conn conn hc₁, ← hc', hsame, clearFd_clearFd]
      · rw [hidle]
        exact hl
    have hnd := hring.nodup
    rw [List.nodup_cons] at hnd
    refine Or.inr ⟨Nat.lt_of_not_le hnow, g₂, hd, by simp only [hrun, ok_bind],
      hd.loopInv hloop hc, hd.ring [] l hring, fun c' => ?_⟩
    by_cases hcc : c' = c
    · rw [hcc, hd.conns_self]
      constructor
      · intro hm
        exact absurd hm hnd.1
      · rintro ⟨y, hy⟩
        cases hy
    · rw [hd.conns_other hcc, ← hmem c', List.mem_cons]
      exact ⟨Or.inr, fun h => h.resolve_left hcc⟩

theorem idleLoop_nil (hring : IdleRing g.idleList []) (now fuel : Nat) :
    idleLoop now (fuel + 1) g = .ok g := by
  rcases hring.load_head with ⟨d, hload, hnext⟩
  simp only [idleLoop, hload, ok_bind, hnext, List.map_nil, List.headD_nil]

/-- The idle loop never faults. It destroys idle connections and does nothing
    else. -/
theorem idleLoop_ends (now : Nat) : ∀ (fuel : Nat) {g : GData} {l : List Nat}, LoopInv g →
    IdleRing g.idleList l → (∀ c, c ∈ l ↔ ∃ conn, g.conns c = some conn) → l.length < fuel →
    ∃ g', idleLoop now fuel g = .ok g' ∧ IdleEnds now g g' := by
  intro fuel
  induction fuel with
  | zero =>
      intro g l _ _ _ hfuel
      exact absurd hfuel (Nat.not_lt_zero _)
  | succ fuel ih =>
      intro g l hloop hring hmem hfuel
      cases l with
      | nil => exact ⟨g, idleLoop_nil hring now fuel, IdleEnds.refl g⟩
      | cons c l =>
          rcases (hmem c).mp List.mem_cons_self with ⟨conn, hc⟩
          rcases idleLoop_turn hloop hring hmem hc now fuel with
            ⟨_, hrun⟩ | ⟨hidle, g₁, hd, hrun, hloop₁, hring₁, hmem₁⟩
          · exact ⟨g, hrun, IdleEnds.refl g⟩
          · rw [List.length_cons] at hfuel
            rcases ih hloop₁ hring₁ hmem₁ (by omega) with ⟨g', hrun', hends⟩
            exact ⟨g', hrun.trans hrun', IdleEnds.step hc hidle hd hends⟩

namespace IdleEnds

variable {now : Nat}

/-- No connection and no key is created. -/
theorem views (h : IdleEnds now g g') (hK : Views g K) :
    ∃ K', Views g' K' ∧ ∀ c k, K' c k = K c k ∨ K' c k = none := by
  induction h generalizing K with
  | refl g => exact ⟨K, hK, fun _ _ => Or.inl rfl⟩
  | step _ _ hd _ ih =>
      rename_i c₀ _ _ _ _
      rcases ih (hd.views hK) with ⟨K', hK', hsub⟩
      refine ⟨K', hK', fun c k => ?_⟩
      rcases hsub c k with h | h
      · rw [h, Keyspace.drop]
        by_cases hcc : c = c₀
        · rw [if_pos hcc]
          exact Or.inr rfl
        · rw [if_neg hcc]
          exact Or.inl rfl
      · exact Or.inr h

theorem conns (h : IdleEnds now g g') (c : Nat) (conn : Conn) (hc : g'.conns c = some conn) :
    g.conns c = some conn := by
  induction h with
  | refl g => exact hc
  | step _ _ hd _ ih =>
      rename_i c₀ _ _ _ _
      have hy := ih hc
      have hcc : c ≠ c₀ := by
        rintro rfl
        rw [hd.conns_self] at hy
        cases hy
      rw [hd.conns_other hcc] at hy
      exact hy

/-- The invariant is kept when the connections that end have no deadlines. -/
theorem inv (h : IdleEnds now g g') (hinv : Inv R g) (hno : IdleNoDeadlines g now) : Inv R g' := by
  induction h with
  | refl g => exact hinv
  | step hc hidle hd _ ih =>
      refine ih ⟨hd.dbInv hinv.db, hd.heapInv hinv.heap (hno _ _ hc hidle), hd.loopInv hinv.loop hc⟩
        fun c' y hy hidle' e he => ?_
      have hs := (hd.stored c' e).mp he
      rw [hd.conns_other hs.1] at hy
      rw [hd.heapIdx]
      exact hno c' y hy hidle' e hs.2

/-- Otherwise keys are left behind in the heap. -/
theorem inv_left (h : IdleEnds now g g') (hinv : Inv R g P) : ∃ P', Inv R g' P' := by
  induction h generalizing P with
  | refl g => exact ⟨P, hinv⟩
  | step hc _ hd _ ih =>
      exact ih ⟨hd.dbInv hinv.db, hd.heapInv_left hinv.db hinv.heap (hinv.loop.lt_nextConn hc),
        hd.loopInv hinv.loop hc⟩

end IdleEnds

/-- The idle loop never faults and keeps the invariant, when the connections
    it ends have no deadlines. It creates no connection and no key. -/
theorem idleLoop_spec (now : Nat) (fuel : Nat) {g : GData} {l : List Nat} (hinv : Inv R g)
    (hring : IdleRing g.idleList l) (hmem : ∀ c, c ∈ l ↔ ∃ conn, g.conns c = some conn)
    (hfuel : l.length < fuel) (hno : IdleNoDeadlines g now) :
    ∃ g', idleLoop now fuel g = .ok g' ∧ Inv R g' ∧
      (∀ K, Views g K → ∃ K', Views g' K' ∧ ∀ c k, K' c k = K c k ∨ K' c k = none) ∧
      ∀ c conn, g'.conns c = some conn → g.conns c = some conn := by
  rcases idleLoop_ends now fuel hinv.loop hring hmem hfuel with ⟨g', hrun, hends⟩
  exact ⟨g', hrun, hends.inv hinv hno, fun K hK => hends.views hK, hends.conns⟩

/-- The idle loop ends no connection when none is idle. -/
theorem idleLoop_none (hloop : LoopInv g) {now : Nat}
    (hact : ∀ c conn, g.conns c = some conn → ¬ Idle now conn) (fuel : Nat) :
    idleLoop now (fuel + 1) g = .ok g := by
  rcases hloop.ring with ⟨l, hring, hmem⟩
  cases l with
  | nil => exact idleLoop_nil hring now fuel
  | cons c l =>
      rcases (hmem c).mp List.mem_cons_self with ⟨conn, hc⟩
      rcases idleLoop_turn hloop hring hmem hc now fuel with ⟨_, hrun⟩ | ⟨hidle, _⟩
      · exact hrun
      · exact absurd hidle (hact c conn hc)

/-- The list is no longer than the connections there ever were. -/
theorem length_le_nextConn (hloop : LoopInv g) {l : List Nat} (hring : IdleRing g.idleList l)
    (hmem : ∀ c, c ∈ l ↔ ∃ conn, g.conns c = some conn) : l.length ≤ g.nextConn := by
  have hsub : l ⊆ List.range g.nextConn := by
    intro c hc
    rw [List.mem_range]
    by_contra hge
    rcases (hmem c).mp hc with ⟨conn, h⟩
    rw [hloop.fresh c (Nat.le_of_not_lt hge)] at h
    cases h
  have := (hring.nodup.subperm hsub).length_le
  rwa [List.length_range] at this

end

end RedisServer
