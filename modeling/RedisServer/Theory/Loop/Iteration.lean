import RedisServer.Core.EventLoop
import RedisServer.Lib.Run
import RedisServer.Theory.Loop.Tables

/-!
# Iterations of the Event Loop

One iteration as a series of turns. What `poll` was asked about stays true
while the turns are given: a connection that has not had its turn is as it was,
or its descriptor belongs to nobody, so every answer reaches the connection it
is about.

`LoopState` holds at the top of every iteration. An iteration that faults does
so in a command or in the sweep of expired keys.

## Main definitions

* `LoopState`: What holds at the top of an iteration.
* `AcceptFresh`: What the loop relies on `accept` for.
* `Pending`: An element of `poll_args` whose turn is still to come.
* `Turns`: A series of turns.
* `Iterated`: An iteration as accepting, turns, and sweeping.

## Theorems

* `TurnMoves.loopState`: A turn ends in a state between two turns.
* `connLoop_spec`, `iteration_spec`: The loop is a series of turns.
* `processTimers_cases`: The sweep at the end of it.
-/

namespace RedisServer

open Lib

/-- What holds at the top of an iteration, whatever the clock does. -/
structure LoopState (R : Runtime) (g : GData) : Prop where
  inv : ∃ P, Inv R g P
  fds : FdInv g
  settled : ∀ c conn, g.conns c = some conn → Settled conn

/-- `accept` returns a descriptor no live connection has. -/
def AcceptFresh (g : GData) (p : PollResult) : Prop :=
  ∀ wake connfd now, p = .woke wake → wake.accept = some (connfd, now) →
    ∀ c conn, g.conns c = some conn → conn.fd ≠ connfd

/-- The element is about a live connection as it is. -/
def AskedFor (g : GData) (arg : PollArg) : Prop :=
  ∃ conn, g.conns arg.conn = some conn ∧ arg.fd = conn.fd ∧ arg.pollIn = conn.wantRead ∧
    arg.pollOut = conn.wantWrite

/-- An element whose turn is still to come: it is about a live connection as it
    is, or its descriptor belongs to nobody. -/
def Pending (g : GData) (arg : PollArg) : Prop :=
  AskedFor g arg ∨ ∀ c conn, g.conns c = some conn → conn.fd ≠ arg.fd

/-- A series of turns, each given to the connection `poll` was asked about, with
    events the connection wanted. -/
inductive Turns (R : Runtime) : GData → List Turn → GData → Prop
  | nil (g : GData) : Turns R g [] g
  | cons {g g₁ g' : GData} {c : Nat} {conn conn' : Conn} {turn : Turn} {turns : List Turn}
      {P : Nat → Prop} : Inv R g P → g.conns c = some conn → turn.polled = c →
      (turn.ready.pollIn = true → conn.wantRead = true) →
      TurnMoves R g g₁ c conn conn' turn P → Turns R g₁ turns g' → Turns R g (turn :: turns) g'

/-- What the loop does with the listening socket. -/
def accepted (g : GData) : Option (Int × Nat) → Result GData
  | none => .ok g
  | some (connfd, now) => handleAccept g connfd now

/-- An iteration: a connection may be accepted, turns are given, idle
    connections end, and expired keys are removed. -/
inductive Iterated (R : Runtime) (g : GData) : PollResult → List Turn → GData → Prop
  | interrupted (before : Nat) : Iterated R g (.interrupted before) [] g
  | woke {wake : Wake} {turns : List Turn} {g₁ g₂ g₃ g' : GData} :
      accepted g wake.accept = .ok g₁ → Turns R g₁ turns g₂ →
      (turns.map fun turn => turn.ready.now).Sublist
        (wake.ready.filterMap fun r => r.map Ready.now) →
      IdleEnds wake.now g₂ g₃ → SameLoop g₃ g' → Iterated R g (.woke wake) turns g'

/-- The fault arose in the sweep of expired keys. -/
def SweepFault (f : Fault) : Prop := ∃ now fuel nworks g, ttlLoop now fuel nworks g = .error f

section

variable {R : Runtime} {g g' : GData} {c : Nat} {conn : Conn} {P : Nat → Prop}

/-- Whom a descriptor belongs to. -/
theorem connOf_eq_some (h : FdInv g) {fd : Int} {c : Nat} :
    connOf g fd = some c ↔ ∃ conn, g.conns c = some conn ∧ conn.fd = fd := by
  rw [connOf]
  constructor
  · intro hof
    split at hof
    · rename_i hlt
      rw [Option.join_eq_some_iff, h.named] at hof
      rcases hof with ⟨conn, hc, hf⟩
      exact ⟨conn, hc, by omega⟩
    · cases hof
  · rintro ⟨conn, hc, rfl⟩
    have hpos := h.nonneg c conn hc
    have hslot := (h.named conn.fd.toNat c).mpr ⟨conn, hc, by omega⟩
    have hlt : conn.fd.toNat < g.fd2conn.length := by
      by_contra hge
      rw [List.getElem?_eq_none (Nat.le_of_not_lt hge)] at hslot
      cases hslot
    rw [if_pos ⟨hpos, hlt⟩, hslot]
    rfl

/-! ## One turn of many -/

/-- A turn leaves the other connections as they were. -/
theorem TurnMoves.others {conn' : Conn} {turn : Turn} (h : TurnMoves R g g' c conn conn' turn P)
    (hc : g.conns c = some conn) (hinv : Inv R g P) {c' : Nat} (hcc : c' ≠ c) :
    (g'.conns c').map Conn.io = (g.conns c').map Conn.io := by
  rcases h.moves with ⟨g₀, g₁, htouch, honly, _, _, hend⟩
  rcases connTouch_spec hinv hc turn.ready.now with ⟨g₂, htouch', _, _, hconns⟩
  rw [htouch, Except.ok.injEq] at htouch'
  have h₀ : g₀.conns c' = g.conns c' := by
    rw [htouch', hconns, Function.update_of_ne hcc]
  have h₁ : (g₁.conns c').map Conn.io = (g.conns c').map Conn.io := by
    rw [honly.io c' hcc, h₀]
  rcases hend with ⟨_, _, _, rfl⟩ | ⟨_, _, hd⟩
  · exact h₁
  · rw [hd.conns_other hcc]
    exact h₁

/-- The connection a turn was given to: kept, or gone. -/
theorem TurnMoves.self {conn' : Conn} {turn : Turn} (h : TurnMoves R g g' c conn conn' turn P) :
    (turn.closed = none ∧ g'.conns c = some conn' ∧ conn'.wantClose = false) ∨
      (turn.closed = some conn' ∧ g'.conns c = none ∧
        (turn.ready.pollErr = true ∨ conn'.wantClose = true)) := by
  rcases h.moves with ⟨g₀, g₁, _, _, _, hc₁, hend⟩
  rcases hend with ⟨hcl, _, hst, rfl⟩ | ⟨hcl, hwhy, hd⟩
  · exact Or.inl ⟨hcl, hc₁, hst⟩
  · exact Or.inr ⟨hcl, hd.conns_self, hwhy⟩

/-- A turn creates no connection. -/
theorem TurnMoves.nextConn {conn' : Conn} {turn : Turn}
    (h : TurnMoves R g g' c conn conn' turn P) : g'.nextConn = g.nextConn := by
  rcases h.moves with ⟨g₀, g₁, htouch, honly, _, _, hend⟩
  rcases connTouch_eq htouch with ⟨_, _, _, _, _, _, rfl⟩
  rcases hend with ⟨_, _, _, rfl⟩ | ⟨_, _, hd⟩
  · exact honly.nextConn
  · exact hd.nextConn.trans honly.nextConn

theorem TurnMoves.loopState {conn' : Conn} {turn : Turn}
    (h : TurnMoves R g g' c conn conn' turn P) (hstate : LoopState R g) (hinv : Inv R g P)
    (hc : g.conns c = some conn) : LoopState R g' := by
  have hself := h.self
  have hothers := fun c' (hcc : c' ≠ c) => h.others hc hinv hcc
  rcases h.moves with ⟨g₀, g₁, htouch, honly, hinv₁, hc₁, hend⟩
  -- the table after the touch, after the handlers, and after the decision
  have hfd₀ : FdInv g₀ := connTouch_fdInv htouch hstate.fds
  have hc₀ : g₀.conns c = some { conn with lastActiveMs := turn.ready.now } := by
    rcases connTouch_spec hinv hc turn.ready.now with ⟨g₂, htouch', _, _, hconns⟩
    rw [htouch, Except.ok.injEq] at htouch'
    rw [htouch', hconns, Function.update_self]
  have hfd₁ : FdInv g₁ :=
    (SameKeys.of_onlyConn honly hc₀ hc₁ h.turned.fd h.turned.lastActiveMs).fdInv hfd₀
  have hfd' : FdInv g' := by
    rcases hend with ⟨_, _, _, rfl⟩ | ⟨_, _, hd⟩
    · exact hfd₁
    · exact hd.fdInv hc₁ hfd₁
  have hinv' : ∃ P, Inv R g' P := by
    rcases hend with ⟨_, _, _, rfl⟩ | ⟨_, _, hd⟩
    · exact ⟨P, hinv₁⟩
    · exact ⟨_, hd.dbInv hinv₁.db,
        hd.heapInv_left hinv₁.db hinv₁.heap (hinv₁.loop.lt_nextConn hc₁), hd.loopInv hinv₁.loop hc₁⟩
  refine ⟨hinv', hfd', fun c' y hy => ?_⟩
  -- the connection of the turn by what it leaves, every other one by the frame
  by_cases hcc : c' = c
  · rw [hcc] at hy
    rcases hself with ⟨_, hkept, hst⟩ | ⟨_, hgone, _⟩
    · rw [hkept, Option.some.injEq] at hy
      rw [← hy]
      exact (h.turned.stays hst).1
    · rw [hgone] at hy
      cases hy
  · have hio := hothers c' hcc
    rw [hy, Option.map_some, eq_comm, Option.map_eq_some_iff] at hio
    rcases hio with ⟨x, hx, hxy⟩
    have hset := hstate.settled c' x hx
    rcases Conn.members hxy with ⟨_, hr, hw, hcl, hi, ho, _⟩
    refine ⟨hcl.symm.trans hset.stays, ?_, ?_⟩
    · exact (congrArg nextRequest hi).symm.trans hset.input
    · have hr' : y.wantRead = x.wantRead := hr.symm
      have hw' : y.wantWrite = x.wantWrite := hw.symm
      have ho' : y.outgoing = x.outgoing := ho.symm
      rw [hr', hw', ho']
      exact hset.intent

/-- A turn of another connection leaves an element pending. -/
theorem TurnMoves.pending {conn' : Conn} {turn : Turn}
    (h : TurnMoves R g g' c conn conn' turn P) (hinv : Inv R g P) (hc : g.conns c = some conn)
    {arg : PollArg} (hne : arg.conn ≠ c) (hp : Pending g arg) : Pending g' arg := by
  -- a live connection keeps what it asked for, and no turn gives a descriptor away
  rcases hp with ⟨x, hx, hfd, hi, ho⟩ | hnone
  · have hio := h.others hc hinv hne
    rw [hx, Option.map_some, Option.map_eq_some_iff] at hio
    rcases hio with ⟨y, hy, hyx⟩
    rcases Conn.members hyx with ⟨hyfd, hr, hw, _⟩
    exact Or.inl ⟨y, hy, hfd.trans hyfd.symm, hi.trans hr.symm, ho.trans hw.symm⟩
  · refine Or.inr fun c' y hy => ?_
    by_cases hcc : c' = c
    · rw [hcc] at hy
      rcases h.self with ⟨_, hkept, _⟩ | ⟨_, hgone, _⟩
      · rw [hkept, Option.some.injEq] at hy
        rw [← hy, h.turned.fd]
        exact hnone c conn hc
      · rw [hgone] at hy
        cases hy
    · have hio := h.others hc hinv hcc
      rw [hy, Option.map_some, eq_comm, Option.map_eq_some_iff] at hio
      rcases hio with ⟨x, hx, hxy⟩
      rcases Conn.members hxy with ⟨hxfd, _⟩
      have hfd : x.fd = y.fd := hxfd
      rw [← hfd]
      exact hnone c' x hx

theorem connLoop_nil (R : Runtime) (g : GData) (rs : List (Option Ready)) :
    connLoop R g [] rs = .ok (g, []) := by
  rw [connLoop]
  · intro _ _ _ _ h
    cases h
  · intro _ _ _ h
    cases h

theorem connLoop_reports_nil (R : Runtime) (g : GData) (args : List PollArg) :
    connLoop R g args [] = .ok (g, []) := by
  rw [connLoop]
  · intro _ _ _ _ _ h
    cases h
  · intro _ _ _ _ h
    cases h

/-- A descriptor that still has a connection has the one it was asked for, and
    `poll` reports only what was asked for. -/
theorem Pending.found {arg : PollArg} (h : Pending g arg) (hfds : FdInv g)
    (hof : connOf g arg.fd = some c) :
    arg.conn = c ∧ ∃ conn, g.conns c = some conn ∧ ∀ ready : Ready,
      ((arg.report ready).pollIn = true → conn.wantRead = true) ∧
      ((arg.report ready).pollOut = true → conn.wantWrite = true) := by
  rcases (connOf_eq_some hfds).mp hof with ⟨conn, hc, hfd⟩
  rcases h with ⟨x, hx, hxfd, hi, ho⟩ | hnone
  · have hx' := (connOf_eq_some hfds).mpr ⟨x, hx, hxfd.symm⟩
    rw [hof, Option.some.injEq] at hx'
    rw [← hx'] at hx
    refine ⟨hx'.symm, x, hx, fun ready => ⟨fun hin => ?_, fun hout => ?_⟩⟩
    · rw [PollArg.report, Bool.and_eq_true, hi] at hin
      exact hin.1
    · rw [PollArg.report, Bool.and_eq_true, ho] at hout
      exact hout.1
  · exact absurd hfd (hnone c conn hc)

/-- The loop over the connections is a series of turns. It faults only in a
    command. -/
theorem connLoop_spec (args : List PollArg) (rs : List (Option Ready)) (hstate : LoopState R g)
    (hargs : ∀ arg ∈ args, Pending g arg) (hnd : (args.map PollArg.conn).Nodup) :
    (∃ g' turns, connLoop R g args rs = .ok (g', turns) ∧ LoopState R g' ∧ Turns R g turns g' ∧
      (turns.map fun turn => turn.ready.now).Sublist (rs.filterMap fun r => r.map Ready.now)) ∨
    ∃ f, connLoop R g args rs = .error f ∧ CommandFault R f := by
  induction args generalizing g rs with
  | nil =>
      rw [connLoop_nil]
      exact Or.inl ⟨g, [], rfl, hstate, Turns.nil g, List.nil_sublist _⟩
  | cons arg args ih =>
      rw [List.map_cons, List.nodup_cons] at hnd
      cases rs with
      | nil =>
          rw [connLoop_reports_nil]
          exact Or.inl ⟨g, [], rfl, hstate, Turns.nil g, List.nil_sublist _⟩
      | cons r rs =>
          have hrest : ∀ arg ∈ args, Pending g arg :=
            fun arg ha => hargs arg (List.mem_cons_of_mem _ ha)
          cases r with
          | none =>
              rw [connLoop]
              exact ih rs hstate hrest hnd.2
          | some ready =>
              rw [connLoop]
              cases hof : connOf g arg.fd with
              | none =>
                  -- Destroyed by an earlier turn: its report is skipped.
                  rcases ih rs hstate hrest hnd.2 with ⟨g', turns, hrun, hs, ht, hsub⟩ | hfault
                  · exact Or.inl ⟨g', turns, hrun, hs, ht, hsub.cons _⟩
                  · exact Or.inr hfault
              | some c =>
                  rcases (hargs arg List.mem_cons_self).found hstate.fds hof with
                    ⟨hsame, x, hx, hasked⟩
                  rcases hstate.inv with ⟨P, hinv⟩
                  simp only
                  rcases connReady_spec hinv hx (hstate.settled c x hx) arg.conn (hasked ready).1
                      (hasked ready).2 with
                    ⟨g₁, turn, conn', hrun, hpolled, hready, hmoves⟩ | ⟨f, hrun, hfault⟩
                  · -- The elements left name other connections, so this turn leaves them pending.
                    have hrest₁ : ∀ a ∈ args, Pending g₁ a := by
                      intro a ha
                      refine hmoves.pending hinv hx (fun h => hnd.1 ?_) (hrest a ha)
                      rw [hsame, ← h]
                      exact List.mem_map_of_mem ha
                    rcases ih rs (hmoves.loopState hstate hinv hx) hrest₁ hnd.2 with
                      ⟨g', turns, hrun', hs, ht, hsub⟩ | ⟨f, hrun', hfault⟩
                    · refine Or.inl ⟨g', turn :: turns, ?_, hs,
                        Turns.cons hinv hx (hpolled.trans hsame) ?_ hmoves ht, ?_⟩
                      · rw [hrun, ok_bind]
                        simp only [hrun', ok_bind]
                      · rw [hready]
                        exact (hasked ready).1
                      · rw [List.map_cons, hready, List.filterMap_cons]
                        exact hsub.cons_cons _
                    · refine Or.inr ⟨f, ?_, hfault⟩
                      rw [hrun, ok_bind]
                      simp only [hrun', error_bind]
                  · exact Or.inr ⟨f, by rw [hrun, error_bind], hfault⟩

/-! ## One iteration -/

/-- `poll_args` describes the live connections. -/
theorem pollArgs_spec (fds : List (Option Nat))
    (h : ∀ c, some c ∈ fds → ∃ conn, g.conns c = some conn) :
    ∃ args, pollArgs g fds = .ok args ∧ args.map PollArg.conn = fds.filterMap id ∧
      ∀ arg ∈ args, AskedFor g arg := by
  induction fds with
  | nil => exact ⟨[], rfl, rfl, fun arg ha => absurd ha List.not_mem_nil⟩
  | cons fd fds ih =>
      rcases ih fun c hc => h c (List.mem_cons_of_mem _ hc) with ⟨args, hrun, hmap, hask⟩
      cases fd with
      | none => exact ⟨args, hrun, hmap, hask⟩
      | some c =>
          rcases h c List.mem_cons_self with ⟨conn, hc⟩
          refine ⟨{ fd := conn.fd, pollIn := conn.wantRead, pollOut := conn.wantWrite, conn := c } ::
            args, ?_, ?_, ?_⟩
          · rw [pollArgs, conn_eq hc, ok_bind, hrun, ok_bind]
          · rw [List.map_cons, hmap]
            rfl
          · intro arg ha
            rcases List.mem_cons.mp ha with rfl | ha
            · exact ⟨conn, hc, rfl, rfl, rfl⟩
            · exact hask arg ha

/-- No connection is in `fd2conn` twice. -/
theorem FdInv.nodup (h : FdInv g) : (g.fd2conn.filterMap id).Nodup := by
  rw [List.Nodup, List.pairwise_filterMap, List.pairwise_iff_getElem]
  intro i j hi hj hij c hc c' hc'
  rintro rfl
  simp only [id] at hc hc'
  rw [← Option.some.injEq, ← List.getElem?_eq_getElem hi, h.named] at hc
  rw [← Option.some.injEq, ← List.getElem?_eq_getElem hj, h.named] at hc'
  rcases hc with ⟨x, hx, hxi⟩
  rcases hc' with ⟨y, hy, hyj⟩
  rw [hx, Option.some.injEq] at hy
  rw [hy, hyj] at hxi
  omega

/-- The timeout is computed from live connections. -/
theorem nextTimerMs_ok (h : LoopInv g) (now : Nat) : ∃ t, nextTimerMs g now = .ok t := by
  rcases h.ring with ⟨l, hring, hmem⟩
  rcases hring.load_head with ⟨d, hload, hnext⟩
  -- Whatever the earliest time is, a timeout comes of it.
  have htimeout : ∀ ms : Nat, ∃ t, (if ms = 2 ^ 64 - 1 then .ok (-1)
      else if ms ≤ now then .ok 0 else .ok (toI32 (ms - now)) : Result Int) = .ok t := by
    intro ms
    split_ifs
    · exact ⟨_, rfl⟩
    · exact ⟨_, rfl⟩
    · exact ⟨_, rfl⟩
  cases l with
  | nil =>
      simp only [nextTimerMs, hload, ok_bind, hnext, List.map_nil, List.headD_nil]
      exact htimeout _
  | cons c l =>
      rcases (hmem c).mp List.mem_cons_self with ⟨conn, hc⟩
      simp only [nextTimerMs, hload, ok_bind, hnext, List.map_cons, List.headD_cons, conn_eq hc]
      exact htimeout _

/-- A connection that was just accepted is settled. -/
theorem settled_new (fd : Int) (now : Nat) :
    Settled { fd := fd, wantRead := true, lastActiveMs := now } :=
  ⟨rfl, rfl, Or.inl ⟨rfl, rfl, rfl⟩⟩

/-- Accepting a connection keeps the state in order, and every element of
    `poll_args` true. -/
theorem accepted_spec (hstate : LoopState R g) (a : Option (Int × Nat))
    (hfresh : ∀ connfd now, a = some (connfd, now) →
      ∀ c conn, g.conns c = some conn → conn.fd ≠ connfd) :
    ∃ g', accepted g a = .ok g' ∧ LoopState R g' ∧ ∀ arg, AskedFor g arg → AskedFor g' arg := by
  cases a with
  | none => exact ⟨g, rfl, hstate, fun _ h => h⟩
  | some a =>
      rcases a with ⟨connfd, now⟩
      rcases hstate.inv with ⟨P, hinv⟩
      rcases handleAccept_spec hinv connfd now with ⟨g', hrun, _, hinv', hconns⟩
      have hdead := hinv.loop.fresh g.nextConn (Nat.le_refl _)
      have hfds := handleAccept_fdInv hrun hstate.fds hdead (hfresh connfd now rfl)
      refine ⟨g', hrun, ⟨⟨P, hinv'⟩, hfds, fun c conn hc => ?_⟩, fun arg harg => ?_⟩
      · rw [hconns] at hc
        split at hc
        · exact hstate.settled c conn hc
        · rw [Function.update_apply] at hc
          split at hc
          · rw [Option.some.injEq] at hc
            rw [← hc]
            exact settled_new connfd now
          · exact hstate.settled c conn hc
      · rcases harg with ⟨conn, hc, h⟩
        refine ⟨conn, ?_, h⟩
        rw [hconns]
        split
        · exact hc
        · rw [Function.update_of_ne, hc]
          intro heq
          rw [heq, hdead] at hc
          cases hc

theorem SameLoop.settled (h : SameLoop g g') (hset : ∀ c conn, g.conns c = some conn → Settled conn)
    (c : Nat) (conn : Conn) (hc : g'.conns c = some conn) : Settled conn := by
  have hio := h.io c
  rw [hc, Option.map_some, eq_comm, Option.map_eq_some_iff] at hio
  rcases hio with ⟨x, hx, hxy⟩
  have hs := hset c x hx
  rcases Conn.members hxy with ⟨_, hr, hw, hcl, hi, ho, _⟩
  have hr' : conn.wantRead = x.wantRead := hr.symm
  have hw' : conn.wantWrite = x.wantWrite := hw.symm
  have ho' : conn.outgoing = x.outgoing := ho.symm
  refine ⟨hcl.symm.trans hs.stays, (congrArg nextRequest hi).symm.trans hs.input, ?_⟩
  rw [hr', hw', ho']
  exact hs.intent

/-- The sweep: idle connections end and expired keys are removed. -/
theorem processTimers_cases (hinv : Inv R g P) (now : Nat) :
    (∃ g₁ g', processTimers g now = .ok g' ∧ IdleEnds now g g₁ ∧ SameLoop g₁ g' ∧
      ∃ P', Inv R g' P') ∨
    ∃ f, processTimers g now = .error f ∧ SweepFault f := by
  rcases hinv.loop.ring with ⟨l, hring, hmem⟩
  rcases idleLoop_ends now (g.nextConn + 1) hinv.loop hring hmem
    (Nat.lt_succ_of_le (length_le_nextConn hinv.loop hring hmem)) with ⟨g₁, hidle, hends⟩
  -- the idle loop cannot fault, and leaves what the key loop needs
  rcases hends.inv_left hinv with ⟨P₁, hinv₁⟩
  rcases exists_views hinv₁.db with ⟨K₁, hK₁⟩
  simp only [processTimers, hidle, ok_bind]
  cases httl : ttlLoop now (g₁.heap.length + 1) 0 g₁ with
  | error f => exact Or.inr ⟨f, rfl, now, _, _, g₁, httl⟩
  | ok g' =>
      rcases ttlLoop_cases now (g₁.heap.length + 1) 0 hinv₁ (Nat.lt_succ_self _) with
        ⟨g₂, es, httl', hsw, _⟩ | ⟨f, _, httl', _⟩ | ⟨_, httl'⟩
      · rw [httl, Except.ok.injEq] at httl'
        rcases hsw.moved hinv₁ hK₁ with ⟨K₂, hm, _⟩
        rw [httl']
        exact Or.inl ⟨g₁, g₂, rfl, hends, hm.same, P₁, hm.inv⟩
      · rw [httl] at httl'
        cases httl'
      · rw [httl] at httl'
        cases httl'

theorem IdleEnds.fdInv {now : Nat} (h : IdleEnds now g g') (hfd : FdInv g) : FdInv g' := by
  induction h with
  | refl g => exact hfd
  | step hc _ hd _ ih => exact ih (hd.fdInv hc hfd)

/-- One iteration. -/
theorem iteration_spec (hstate : LoopState R g) {p : PollResult} (hfresh : AcceptFresh g p) :
    (∃ g' turns, iteration R g p = .ok (g', turns) ∧ LoopState R g' ∧ Iterated R g p turns g') ∨
    ∃ f, iteration R g p = .error f ∧ (CommandFault R f ∨ SweepFault f) := by
  rcases hstate.inv with ⟨P, hinv⟩
  -- every descriptor in the table has a connection, so the polled records exist
  rcases pollArgs_spec (g := g) g.fd2conn (fun c hc => by
    rcases List.getElem?_of_mem hc with ⟨f, hf⟩
    rcases (hstate.fds.named f c).mp hf with ⟨conn, h, _⟩
    exact ⟨conn, h⟩) with ⟨args, hargs, hmap, hask⟩
  cases p with
  | interrupted before =>
      rcases nextTimerMs_ok hinv.loop before with ⟨t, ht⟩
      refine Or.inl ⟨g, [], ?_, hstate, .interrupted before⟩
      rw [iteration, hargs, ok_bind, ht, ok_bind]
  | woke wake =>
      rcases nextTimerMs_ok hinv.loop wake.before with ⟨t, ht⟩
      rcases accepted_spec hstate wake.accept (fun connfd now h => hfresh wake connfd now rfl h) with
        ⟨g₁, hacc, hstate₁, hkeep⟩
      have hrun : iteration R g (.woke wake) = (connLoop R g₁ args wake.ready >>= fun r =>
          processTimers r.1 wake.now >>= fun g => .ok (g, r.2)) := by
        rw [iteration, hargs, ok_bind, ht, ok_bind]
        change (accepted g wake.accept >>= _) = _
        rw [hacc, ok_bind]
      rw [hrun]
      -- what was asked for before the accept is still pending after it
      rcases connLoop_spec args wake.ready hstate₁ (fun arg ha => Or.inl (hkeep arg (hask arg ha)))
        (by rw [hmap]; exact hstate.fds.nodup) with
        ⟨g₂, turns, hloop, hstate₂, hturns, hsub⟩ | ⟨f, hloop, hfault⟩
      · rw [hloop, ok_bind]
        rcases hstate₂.inv with ⟨P₂, hinv₂⟩
        rcases processTimers_cases hinv₂ wake.now with
          ⟨g₃, g', htimers, hends, hsame, hinv'⟩ | ⟨f, htimers, hfault⟩
        · simp only [htimers, ok_bind]
          refine Or.inl ⟨g', turns, rfl, ⟨hinv', ?_, ?_⟩, .woke hacc hturns hsub hends hsame⟩
          · exact (SameKeys.of_sameLoop hsame).fdInv (hends.fdInv hstate₂.fds)
          · exact hsame.settled fun c conn hc => hstate₂.settled c conn (hends.conns c conn hc)
        · simp only [htimers, error_bind]
          exact Or.inr ⟨f, rfl, Or.inr hfault⟩
      · rw [hloop, error_bind]
        exact Or.inr ⟨f, rfl, Or.inl hfault⟩

end

end RedisServer
