import RedisServer.Theory.Loop.Turn

/-!
# The Tables of Connections

`fd2conn` and the idle list, which the loop finds connections by. The first
names every live connection under its descriptor and nothing else. The second
links every live connection once, the one that was active longest ago first,
as long as the clock does not go back.

Each way a connection enters, is touched, or leaves has its effect on both.

## Main definitions

* `FdInv`: `fd2conn` names the live connections.
* `IdleInv`: The idle list links them in the order of their activity.
* `SameKeys`: No connection changed its descriptor or its time.

## Theorems

* `handleAccept_fdInv`, `connTouch_fdInv`, `Destroyed.fdInv`: What the ways in
  and out do to `fd2conn`.
* `handleAccept_idleInv`, `connTouch_idleInv`, `Destroyed.idleInv`: And to the
  idle list.
-/

namespace RedisServer

open Lib

/-- `fd2conn` names exactly the live connections, each under its descriptor. -/
structure FdInv (g : GData) : Prop where
  nonneg : ∀ c conn, g.conns c = some conn → 0 ≤ conn.fd
  named : ∀ (f c : Nat), g.fd2conn[f]? = some (some c) ↔
    ∃ conn, g.conns c = some conn ∧ conn.fd = f

/-- The idle list links exactly the live connections, in the order in which
    they were last active. `t` is a time none of them was active after. -/
structure IdleInv (g : GData) (t : Nat) (l : List Nat) : Prop where
  ring : IdleRing g.idleList l
  live : ∀ c, c ∈ l ↔ ∃ conn, g.conns c = some conn
  order : l.Pairwise fun a b => ∀ x y, g.conns a = some x → g.conns b = some y →
    x.lastActiveMs ≤ y.lastActiveMs
  past : ∀ c x, g.conns c = some x → x.lastActiveMs ≤ t

/-- The tables are as they were, and so is what they refer to in the
    connections. -/
structure SameKeys (g g' : GData) : Prop where
  idleList : g'.idleList = g.idleList
  fd2conn : g'.fd2conn = g.fd2conn
  nextConn : g'.nextConn = g.nextConn
  keys : ∀ c, (g'.conns c).map (fun x => (x.fd, x.lastActiveMs)) =
    (g.conns c).map fun x => (x.fd, x.lastActiveMs)

section

variable {R : Runtime} {g g' : GData} {c t : Nat} {conn : Conn} {P : Nat → Prop} {l : List Nat}

namespace SameKeys

theorem of_sameLoop (h : SameLoop g g') : SameKeys g g' where
  idleList := h.idleList
  fd2conn := h.fd2conn
  nextConn := h.nextConn
  keys := by
    intro c
    have := congrArg (Option.map fun x : Conn => (x.fd, x.lastActiveMs)) (h.io c)
    rw [Option.map_map, Option.map_map] at this
    exact this

theorem of_onlyConn (h : OnlyConn g g' c) {conn' : Conn} (hc : g.conns c = some conn)
    (hc' : g'.conns c = some conn') (hfd : conn'.fd = conn.fd)
    (hlast : conn'.lastActiveMs = conn.lastActiveMs) : SameKeys g g' where
  idleList := h.idleList
  fd2conn := h.fd2conn
  nextConn := h.nextConn
  keys := by
    intro c'
    by_cases hcc : c' = c
    · rw [hcc, hc, hc', Option.map_some, Option.map_some, hfd, hlast]
    · have := congrArg (Option.map fun x : Conn => (x.fd, x.lastActiveMs)) (h.io c' hcc)
      rw [Option.map_map, Option.map_map] at this
      exact this

/-- A connection of the one state is one of the other, with the same keys. -/
theorem conns (h : SameKeys g g') {c : Nat} {x : Conn} (hx : g'.conns c = some x) :
    ∃ y, g.conns c = some y ∧ y.fd = x.fd ∧ y.lastActiveMs = x.lastActiveMs := by
  have := h.keys c
  rw [hx, Option.map_some, eq_comm, Option.map_eq_some_iff] at this
  rcases this with ⟨y, hy, hkeys⟩
  rw [Prod.mk.injEq] at hkeys
  exact ⟨y, hy, hkeys.1, hkeys.2⟩

theorem symm (h : SameKeys g g') : SameKeys g' g :=
  ⟨h.idleList.symm, h.fd2conn.symm, h.nextConn.symm, fun c => (h.keys c).symm⟩

theorem fdInv (h : SameKeys g g') (hinv : FdInv g) : FdInv g' where
  nonneg := by
    intro c x hx
    rcases h.conns hx with ⟨y, hy, hfd, _⟩
    rw [← hfd]
    exact hinv.nonneg c y hy
  named := by
    intro f c
    rw [h.fd2conn, hinv.named]
    constructor
    · rintro ⟨y, hy, hf⟩
      rcases h.symm.conns hy with ⟨x, hx, hfd, _⟩
      exact ⟨x, hx, hfd.trans hf⟩
    · rintro ⟨x, hx, hf⟩
      rcases h.conns hx with ⟨y, hy, hfd, _⟩
      exact ⟨y, hy, hfd.trans hf⟩

theorem idleInv (h : SameKeys g g') (hinv : IdleInv g t l) : IdleInv g' t l where
  ring := by
    rw [h.idleList]
    exact hinv.ring
  live := by
    intro c
    rw [hinv.live]
    constructor
    · rintro ⟨y, hy⟩
      rcases h.symm.conns hy with ⟨x, hx, _⟩
      exact ⟨x, hx⟩
    · rintro ⟨x, hx⟩
      rcases h.conns hx with ⟨y, hy, _⟩
      exact ⟨y, hy⟩
  order := by
    refine hinv.order.imp fun hab x y hx hy => ?_
    rcases h.conns hx with ⟨x', hx', _, hxa⟩
    rcases h.conns hy with ⟨y', hy', _, hya⟩
    rw [← hxa, ← hya]
    exact hab x' y' hx' hy'
  past := by
    intro c x hx
    rcases h.conns hx with ⟨y, hy, _, hlast⟩
    rw [← hlast]
    exact hinv.past c y hy

end SameKeys

theorem IdleInv.mono (h : IdleInv g t l) {t' : Nat} (ht : t ≤ t') : IdleInv g t' l :=
  ⟨h.ring, h.live, h.order, fun c x hx => (h.past c x hx).trans ht⟩

/-! ## Acceptance -/

/-- The slot of a new descriptor, and the others. -/
theorem grow_getElem? (fds : List (Option Nat)) (fd c f : Nat) :
    ((fds ++ List.replicate (fd + 1 - fds.length) none).set fd (some c))[f]?.join =
      if f = fd then some c else fds[f]?.join := by
  rw [List.getElem?_set]
  by_cases hf : f = fd
  · have hlt : fd < (fds ++ List.replicate (fd + 1 - fds.length) none).length := by
      rw [List.length_append, List.length_replicate]
      omega
    rw [if_pos hf.symm, if_pos hf, if_pos hlt]
    rfl
  · rw [if_neg (fun h => hf h.symm), if_neg hf, List.getElem?_append]
    by_cases hlt : f < fds.length
    · rw [if_pos hlt]
    · rw [if_neg hlt, List.getElem?_eq_none (Nat.le_of_not_lt hlt), List.getElem?_replicate]
      split
      · rfl
      · rfl

/-- What `handle_accept` does with a descriptor. -/
theorem handleAccept_eq {connfd : Int} {now : Nat} (hrun : handleAccept g connfd now = .ok g')
    (hpos : 0 ≤ connfd) :
    ∃ idle, dlistInsertBefore (Function.update g.idleList (.conn g.nextConn) (some {})) .head
        (.conn g.nextConn) = .ok idle ∧
      g' = { g with
        conns := Function.update g.conns g.nextConn
          (some { fd := connfd, wantRead := true, lastActiveMs := now })
        idleList := idle
        nextConn := g.nextConn + 1
        fd2conn := (g.fd2conn ++ List.replicate (connfd.toNat + 1 - g.fd2conn.length) none).set
          connfd.toNat (some g.nextConn) } := by
  rw [handleAccept, if_neg (Int.not_lt.mpr hpos)] at hrun
  rcases bind_eq_ok.mp hrun with ⟨idle, hins, hrun⟩
  rw [Except.ok.injEq] at hrun
  exact ⟨idle, hins, hrun.symm⟩

/-- No connection was accepted. -/
theorem handleAccept_none {connfd : Int} {now : Nat} (hrun : handleAccept g connfd now = .ok g')
    (hneg : connfd < 0) : g' = g := by
  rw [handleAccept, if_pos hneg, Except.ok.injEq] at hrun
  exact hrun.symm

theorem handleAccept_fdInv {connfd : Int} {now : Nat} (hrun : handleAccept g connfd now = .ok g')
    (hfd : FdInv g) (hfresh : g.conns g.nextConn = none)
    (hfree : ∀ c x, g.conns c = some x → x.fd ≠ connfd) : FdInv g' := by
  by_cases hneg : connfd < 0
  · rw [handleAccept_none hrun hneg]
    exact hfd
  have hpos : 0 ≤ connfd := Int.not_lt.mp hneg
  rcases handleAccept_eq hrun hpos with ⟨idle, _, rfl⟩
  -- the number of the new connection is one no old connection has
  have hold : ∀ c y, g.conns c = some y → c ≠ g.nextConn := by
    rintro c y hy rfl
    rw [hfresh] at hy
    cases hy
  refine ⟨fun c y hy => ?_, fun f c => ?_⟩
  · simp only [Function.update_apply] at hy
    split at hy
    · rw [Option.some.injEq] at hy
      rw [← hy]
      exact hpos
    · exact hfd.nonneg c y hy
  · rw [← Option.join_eq_some_iff, grow_getElem?]
    simp only [Function.update_apply]
    -- the slot of the new descriptor was free, every other slot is as it was
    by_cases hf : f = connfd.toNat
    · rw [if_pos hf, Option.some.injEq]
      have hff : (f : Int) = connfd := by omega
      constructor
      · rintro rfl
        exact ⟨_, if_pos rfl, hff.symm⟩
      · rintro ⟨y, hy, hyf⟩
        by_contra hne
        rw [if_neg (fun h => hne h.symm)] at hy
        exact hfree c y hy (hyf.trans hff)
    · rw [if_neg hf, Option.join_eq_some_iff, hfd.named]
      constructor
      · rintro ⟨y, hy, hyf⟩
        exact ⟨y, by rw [if_neg (hold c y hy)]; exact hy, hyf⟩
      · rintro ⟨y, hy, hyf⟩
        by_cases hc : c = g.nextConn
        · rw [if_pos hc, Option.some.injEq] at hy
          rw [← hy] at hyf
          change connfd = (f : Int) at hyf
          omega
        · rw [if_neg hc] at hy
          exact ⟨y, hy, hyf⟩

theorem handleAccept_idleInv {connfd : Int} {now : Nat} (hrun : handleAccept g connfd now = .ok g')
    (hidle : IdleInv g t l) (hfresh : g.conns g.nextConn = none) (hnow : t ≤ now) :
    ∃ l', IdleInv g' now l' := by
  by_cases hneg : connfd < 0
  · rw [handleAccept_none hrun hneg]
    exact ⟨l, hidle.mono hnow⟩
  rcases handleAccept_eq hrun (Int.not_lt.mp hneg) with ⟨idle, hins, rfl⟩
  -- the list has the live connections only
  have hnot : g.nextConn ∉ l := by
    rw [hidle.live, hfresh]
    rintro ⟨x, hx⟩
    cases hx
  rcases dlistInsertBefore_spec (hidle.ring.update_other hnot (some {})) hnot
    ⟨{}, Function.update_self _ _ _⟩ with ⟨idle', hins', hring⟩
  rw [hins, Except.ok.injEq] at hins'
  rw [← hins'] at hring
  have hne : ∀ a ∈ l, a ≠ g.nextConn := fun a ha h => hnot (h ▸ ha)
  -- the new connection is the last of the list, with the latest time
  refine ⟨l ++ [g.nextConn], hring, fun c => ?_, ?_, fun c y hy => ?_⟩
  · rw [List.mem_append, List.mem_singleton, hidle.live]
    simp only [Function.update_apply]
    by_cases hc : c = g.nextConn
    · rw [if_pos hc]
      exact ⟨fun _ => ⟨_, rfl⟩, fun _ => Or.inr hc⟩
    · rw [if_neg hc]
      exact or_iff_left hc
  · simp only [Function.update_apply]
    rw [List.pairwise_append]
    refine ⟨hidle.order.imp_of_mem fun {a b} ha hb hab y z hy hz => ?_, List.pairwise_singleton _ _,
      fun a ha b hb y z hy hz => ?_⟩
    · rw [if_neg (hne a ha)] at hy
      rw [if_neg (hne b hb)] at hz
      exact hab y z hy hz
    · rw [List.mem_singleton] at hb
      rw [if_neg (hne a ha)] at hy
      rw [if_pos hb, Option.some.injEq] at hz
      rw [← hz]
      exact (hidle.past a y hy).trans hnow
  · simp only [Function.update_apply] at hy
    split at hy
    · rw [Option.some.injEq] at hy
      rw [← hy]
    · exact (hidle.past c y hy).trans hnow

/-! ## Activity -/

/-- What touching a connection does. -/
theorem connTouch_eq {now : Nat} (hrun : connTouch g c now = .ok g') :
    ∃ conn links₁ links₂, g.conns c = some conn ∧ dlistDetach g.idleList (.conn c) = .ok links₁ ∧
      dlistInsertBefore links₁ .head (.conn c) = .ok links₂ ∧
      g' = { g.setConn c { conn with lastActiveMs := now } with idleList := links₂ } := by
  rcases bind_eq_ok.mp hrun with ⟨conn, hget, hrun⟩
  rcases bind_eq_ok.mp hrun with ⟨links₁, hdet, hrun⟩
  rcases bind_eq_ok.mp hrun with ⟨links₂, hins, hrun⟩
  rw [Except.ok.injEq] at hrun
  refine ⟨conn, links₁, links₂, ?_, hdet, hins, hrun.symm⟩
  rw [GData.conn] at hget
  cases hc : g.conns c with
  | none =>
      rw [hc] at hget
      cases hget
  | some x =>
      rw [hc, Except.ok.injEq] at hget
      rw [hget]

theorem connTouch_fdInv {now : Nat} (hrun : connTouch g c now = .ok g') (hfd : FdInv g) :
    FdInv g' := by
  rcases connTouch_eq hrun with ⟨conn, links₁, links₂, hc, _, _, rfl⟩
  refine ⟨fun c' y hy => ?_, fun f c' => ?_⟩
  · simp only [setConn_conns] at hy
    split at hy
    · rw [Option.some.injEq] at hy
      rw [← hy]
      exact hfd.nonneg c conn hc
    · exact hfd.nonneg c' y hy
  · simp only [setConn_conns]
    refine (hfd.named f c').trans ?_
    by_cases hcc : c' = c
    · rw [if_pos hcc, hcc, hc]
      simp only [Option.some.injEq, exists_eq_left']
    · rw [if_neg hcc]

theorem connTouch_idleInv {now : Nat} (hrun : connTouch g c now = .ok g') (hidle : IdleInv g t l)
    (hnow : t ≤ now) : ∃ l', IdleInv g' now l' := by
  rcases connTouch_eq hrun with ⟨conn, links₁, links₂, hc, hdet, hins, rfl⟩
  rcases List.append_of_mem ((hidle.live c).mpr ⟨conn, hc⟩) with ⟨l₁, l₂, rfl⟩
  rcases dlistDetach_spec hidle.ring with ⟨links₁', hdet', hring₁, halloc⟩
  rw [hdet, Except.ok.injEq] at hdet'
  rw [← hdet'] at hring₁ halloc
  have hnd := hidle.ring.nodup
  rw [List.nodup_middle, List.nodup_cons] at hnd
  rcases dlistInsertBefore_spec hring₁ hnd.1 halloc with ⟨links₂', hins', hring₂⟩
  rw [hins, Except.ok.injEq] at hins'
  rw [← hins'] at hring₂
  have hne : ∀ a ∈ l₁ ++ l₂, a ≠ c := fun a ha h => hnd.1 (h ▸ ha)
  -- taken out of the list and put at its end, with the latest time
  refine ⟨l₁ ++ l₂ ++ [c], hring₂, fun c' => ?_, ?_, fun c' y hy => ?_⟩
  · refine Iff.trans ?_ (setConn_live hc { conn with lastActiveMs := now } c').symm
    rw [← hidle.live]
    simp only [List.mem_append, List.mem_cons, List.not_mem_nil, or_false]
    tauto
  · have hsub : (l₁ ++ l₂).Sublist (l₁ ++ c :: l₂) :=
      List.Sublist.append_left (List.sublist_cons_self c l₂) l₁
    simp only [setConn_conns]
    rw [List.pairwise_append]
    refine ⟨(hidle.order.sublist hsub).imp_of_mem fun {a b} ha hb hab y z hy hz => ?_,
      List.pairwise_singleton _ _, fun a ha b hb y z hy hz => ?_⟩
    · rw [if_neg (hne a ha)] at hy
      rw [if_neg (hne b hb)] at hz
      exact hab y z hy hz
    · rw [List.mem_singleton] at hb
      rw [if_neg (hne a ha)] at hy
      rw [if_pos hb, Option.some.injEq] at hz
      rw [← hz]
      exact (hidle.past a y hy).trans hnow
  · simp only [setConn_conns] at hy
    split at hy
    · rw [Option.some.injEq] at hy
      rw [← hy]
    · exact (hidle.past c' y hy).trans hnow

/-! ## Destruction -/

/-- A slot that is cleared, and the others. -/
theorem clearFd_getElem? (fds : List (Option Nat)) {fd : Int} (hfd : 0 ≤ fd) (f : Nat) :
    (clearFd fds fd)[f]?.join = if (f : Int) = fd then none else fds[f]?.join := by
  rw [clearFd]
  by_cases hlt : fd.toNat < fds.length
  · rw [if_pos ⟨hfd, hlt⟩, List.getElem?_set]
    by_cases hf : fd.toNat = f
    · have hff : (f : Int) = fd := by omega
      rw [if_pos hf, if_pos hlt, if_pos hff]
      rfl
    · have hff : (f : Int) ≠ fd := by omega
      rw [if_neg hf, if_neg hff]
  · rw [if_neg (fun h => hlt h.2)]
    by_cases hf : (f : Int) = fd
    · rw [if_pos hf, List.getElem?_eq_none (by omega)]
      rfl
    · rw [if_neg hf]

theorem Destroyed.fdInv (h : Destroyed g g' c) (hc : g.conns c = some conn) (hfd : FdInv g) :
    FdInv g' where
  nonneg := by
    intro c' y hy
    have hcc : c' ≠ c := by
      rintro rfl
      rw [h.conns_self] at hy
      cases hy
    rw [h.conns_other hcc] at hy
    exact hfd.nonneg c' y hy
  named := by
    intro f c'
    rw [← Option.join_eq_some_iff, h.fd2conn conn hc, clearFd_getElem? _ (hfd.nonneg c conn hc)]
    by_cases hcc : c' = c
    · rw [hcc, h.conns_self]
      constructor
      · intro hf
        split at hf
        · cases hf
        · rename_i hne
          rw [Option.join_eq_some_iff, hfd.named] at hf
          rcases hf with ⟨y, hy, hyf⟩
          -- the connection had one descriptor, and that slot is cleared
          rw [hc, Option.some.injEq] at hy
          exact absurd (hyf.symm.trans (by rw [hy])) hne
      · rintro ⟨y, hy, _⟩
        cases hy
    · rw [h.conns_other hcc]
      -- no other connection had the descriptor that is cleared
      by_cases hf : (f : Int) = conn.fd
      · rw [if_pos hf]
        refine ⟨nofun, ?_⟩
        rintro ⟨y, hy, hyf⟩
        have h₁ := (hfd.named f c').mpr ⟨y, hy, hyf⟩
        have h₂ := (hfd.named f c).mpr ⟨conn, hc, hf.symm⟩
        rw [h₁, Option.some.injEq, Option.some.injEq] at h₂
        exact absurd h₂ hcc
      · rw [if_neg hf, Option.join_eq_some_iff, hfd.named]

theorem Destroyed.idleInv (h : Destroyed g g' c) (hc : g.conns c = some conn)
    (hidle : IdleInv g t l) : ∃ l', IdleInv g' t l' := by
  rcases List.append_of_mem ((hidle.live c).mpr ⟨conn, hc⟩) with ⟨l₁, l₂, rfl⟩
  have hnd := hidle.ring.nodup
  rw [List.nodup_middle, List.nodup_cons] at hnd
  have hsub : (l₁ ++ l₂).Sublist (l₁ ++ c :: l₂) :=
    List.Sublist.append_left (List.sublist_cons_self c l₂) l₁
  -- what is left is a sublist, in the same order
  refine ⟨l₁ ++ l₂, h.ring l₁ l₂ hidle.ring, fun c' => ?_, ?_, fun c' y hy => ?_⟩
  · by_cases hcc : c' = c
    · rw [hcc, h.conns_self]
      refine ⟨fun hm => absurd hm hnd.1, ?_⟩
      rintro ⟨y, hy⟩
      cases hy
    · rw [h.conns_other hcc, ← hidle.live]
      simp only [List.mem_append, List.mem_cons]
      tauto
  · refine (hidle.order.sublist hsub).imp_of_mem fun {a b} ha hb hab y z hy hz => ?_
    rw [h.conns_other (fun heq => hnd.1 (heq ▸ ha))] at hy
    rw [h.conns_other (fun heq => hnd.1 (heq ▸ hb))] at hz
    exact hab y z hy hz
  · have hcc : c' ≠ c := by
      rintro rfl
      rw [h.conns_self] at hy
      cases hy
    rw [h.conns_other hcc] at hy
    exact hidle.past c' y hy

end

end RedisServer
