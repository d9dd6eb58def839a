import RedisServer.Core.Events
import RedisServer.Theory.Loop.Iteration
import Mathlib.Data.Finset.Lattice.Fold

/-!
# Histories of the Event Loop

A run of the event loop as one sequence of small steps: a connection is
accepted, a turn is given, an idle connection ends, or tables of keys change.
`History` keeps the turns so far and the times the clock showed. Facts about
whole runs are inductions over it.

Two of them are here. Every connection is settled at the top of every
iteration, and the two tables name the live connections, the idle list in the
order of their activity.

## Main definitions

* `PollResult.stamps`: The times that become times of activity.
* `History`: A run in small steps.
* `CompleteFrame`: A frame that has arrived, whatever is in it.

## Theorems

* `history_of_run`: A run of iterations is a history.
* `connections_settled_of_run`: The state machine of every connection.
* `tables_of_run`: The two tables of connections.
-/

namespace RedisServer

open Lib

/-- What the clock reads when a connection is accepted or has its turn, in the
    order of an iteration. -/
def PollResult.stamps : PollResult → List Nat
  | .interrupted _ => []
  | .woke wake => (wake.accept.map Prod.snd).toList ++ wake.ready.filterMap fun r => r.map Ready.now

/-- A run of the event loop from its start, with the times of activity and the
    turns so far. -/
inductive History (R : Runtime) : List Nat → List Turn → GData → Prop
  | start : History R [] [] {}
  | accept {stamps : List Nat} {turns : List Turn} {g g' : GData} {connfd : Int} {now : Nat} :
      History R stamps turns g → (∀ c conn, g.conns c = some conn → conn.fd ≠ connfd) →
      0 ≤ connfd → handleAccept g connfd now = .ok g' → History R (stamps ++ [now]) turns g'
  | turn {stamps : List Nat} {turns : List Turn} {g g' : GData} {c : Nat} {conn conn' : Conn}
      {turn : Turn} {P : Nat → Prop} : History R stamps turns g → Inv R g P →
      g.conns c = some conn → turn.polled = c →
      (turn.ready.pollIn = true → conn.wantRead = true) → TurnMoves R g g' c conn conn' turn P →
      History R (stamps ++ [turn.ready.now]) (turns ++ [turn]) g'
  | idle {stamps : List Nat} {turns : List Turn} {g g' : GData} {c now : Nat} {conn : Conn} :
      History R stamps turns g → g.conns c = some conn → Idle now conn → Destroyed g g' c →
      History R stamps turns g'
  | tables {stamps : List Nat} {turns : List Turn} {g g' : GData} {P : Nat → Prop} :
      History R stamps turns g → SameLoop g g' → Inv R g' P → History R stamps turns g'

section

variable {R : Runtime} {g g' : GData} {stamps : List Nat} {log : List Turn}

theorem loopState_init (R : Runtime) : LoopState R {} where
  inv := ⟨_, inv_init R⟩
  fds := by
    refine ⟨nofun, fun f c => ⟨fun h => ?_, ?_⟩⟩
    · rw [List.getElem?_nil] at h
      cases h
    · rintro ⟨conn, hc, _⟩
      cases hc
  settled := nofun

/-- Every state of a history is one between two turns. -/
theorem History.loopState (h : History R stamps log g) : LoopState R g := by
  induction h with
  | start => exact loopState_init R
  | accept _ hfresh _ hrun ih =>
      rcases accepted_spec ih (some (_, _)) (fun connfd now h => by
        rw [Option.some.injEq, Prod.mk.injEq] at h
        rw [← h.1]
        exact hfresh) with ⟨g₁, hrun₁, hstate, _⟩
      rw [accepted, hrun, Except.ok.injEq] at hrun₁
      rw [hrun₁]
      exact hstate
  -- a turn ends in a state between two turns
  | turn _ hinv hc _ _ hmoves ih => exact hmoves.loopState ih hinv hc
  | idle _ hc _ hd ih =>
      rcases ih.inv with ⟨P, hinv⟩
      refine ⟨⟨_, hd.dbInv hinv.db, hd.heapInv_left hinv.db hinv.heap (hinv.loop.lt_nextConn hc),
        hd.loopInv hinv.loop hc⟩, hd.fdInv hc ih.fds, fun c' y hy => ih.settled c' y ?_⟩
      -- the connections left are those that were there
      rw [hd.conns, Function.update_apply] at hy
      split at hy
      · cases hy
      · exact hy
  | tables _ hsame hinv ih =>
      exact ⟨⟨_, hinv⟩, (SameKeys.of_sameLoop hsame).fdInv ih.fds, hsame.settled ih.settled⟩

/-- A series of turns extends a history. -/
theorem History.give {ts : List Turn} (h : History R stamps log g) (ht : Turns R g ts g') :
    History R (stamps ++ ts.map fun turn => turn.ready.now) (log ++ ts) g' := by
  induction ht generalizing stamps log with
  | nil g =>
      rw [List.map_nil, List.append_nil, List.append_nil]
      exact h
  | cons hinv hc hpolled hin hmoves _ ih =>
      have := ih (.turn h hinv hc hpolled hin hmoves)
      rw [List.append_assoc, List.append_assoc] at this
      exact this

/-- A series of destructions of idle connections extends a history. -/
theorem History.ends {now : Nat} (h : History R stamps log g) (he : IdleEnds now g g') :
    History R stamps log g' := by
  induction he with
  | refl g => exact h
  | step hc hidle hd _ ih => exact ih (.idle h hc hidle hd)

/-- An iteration extends a history. -/
theorem History.iterate {p : PollResult} {ts : List Turn} (h : History R stamps log g)
    (hfresh : AcceptFresh g p) (hi : Iterated R g p ts g') (hinv : ∃ P, Inv R g' P) :
    ∃ stamps', stamps'.Sublist p.stamps ∧ History R (stamps ++ stamps') (log ++ ts) g' := by
  cases hi with
  | interrupted before =>
      refine ⟨[], List.Sublist.refl _, ?_⟩
      rw [List.append_nil, List.append_nil]
      exact h
  | woke hacc hturns hsub hends hsame =>
      rename_i wake g₁ g₂ g₃
      rcases hinv with ⟨P, hinv⟩
      -- the accepted connection, where there is one, comes first
      have hstep : ∃ stamps', stamps'.Sublist (wake.accept.map Prod.snd).toList ∧
          History R (stamps ++ stamps') log g₁ := by
        cases ha : wake.accept with
        | none =>
            rw [ha, accepted, Except.ok.injEq] at hacc
            refine ⟨[], List.Sublist.refl _, ?_⟩
            rw [List.append_nil, ← hacc]
            exact h
        | some a =>
            rcases a with ⟨connfd, now⟩
            rw [ha, accepted] at hacc
            by_cases hneg : connfd < 0
            · refine ⟨[], List.nil_sublist _, ?_⟩
              rw [List.append_nil, handleAccept_none hacc hneg]
              exact h
            · exact ⟨[now], List.Sublist.refl _,
                .accept h (hfresh wake connfd now rfl ha) (Int.not_lt.mp hneg) hacc⟩
      rcases hstep with ⟨stamps', hsub', h₁⟩
      refine ⟨stamps' ++ ts.map fun turn => turn.ready.now, hsub'.append hsub, ?_⟩
      rw [← List.append_assoc]
      exact .tables ((h₁.give hturns).ends hends) hsame hinv

/-- A run of iterations extends a history. -/
theorem History.extend {ps : List PollResult} {logs : List (List Turn)}
    (h : History R stamps log g) (hrun : run (iteration R) g ps = .ok (g', logs))
    (hfresh : Guarded (iteration R) AcceptFresh g ps) :
    ∃ stamps', stamps'.Sublist (ps.flatMap PollResult.stamps) ∧
      History R (stamps ++ stamps') (log ++ logs.flatten) g' := by
  -- the run is followed one iteration at a time
  induction ps generalizing g stamps log logs with
  | nil =>
      simp only [run, Except.ok.injEq, Prod.mk.injEq] at hrun
      rw [← hrun.1, ← hrun.2]
      refine ⟨[], List.Sublist.refl _, ?_⟩
      rw [List.append_nil, List.flatten_nil, List.append_nil]
      exact h
  | cons p ps ih =>
      rcases run_cons_eq_ok hrun with ⟨g₁, ts, logs', hstep, hrest, rfl⟩
      rcases iteration_spec h.loopState hfresh.1 with
        ⟨g₂, ts', hstep', hstate, hi⟩ | ⟨f, hstep', _⟩
      · rw [hstep, Except.ok.injEq, Prod.mk.injEq] at hstep'
        rw [← hstep'.1, ← hstep'.2] at hi
        rw [← hstep'.1] at hstate
        rcases h.iterate hfresh.1 hi hstate.inv with ⟨stamps₁, hsub₁, h₁⟩
        rcases ih h₁ hrest (hfresh.2 g₁ ts hstep) with ⟨stamps₂, hsub₂, h₂⟩
        refine ⟨stamps₁ ++ stamps₂, ?_, ?_⟩
        · rw [List.flatMap_cons]
          exact hsub₁.append hsub₂
        · rw [List.flatten_cons, ← List.append_assoc, ← List.append_assoc]
          exact h₂
      · rw [hstep] at hstep'
        cases hstep'

/-- A run of the event loop is a history. -/
theorem history_of_run {ps : List PollResult} {logs : List (List Turn)}
    (hrun : run (iteration R) {} ps = .ok (g', logs))
    (hfresh : Guarded (iteration R) AcceptFresh {} ps) :
    ∃ stamps, stamps.Sublist (ps.flatMap PollResult.stamps) ∧ History R stamps logs.flatten g' := by
  rcases History.start.extend hrun hfresh with ⟨stamps, hsub, h⟩
  exact ⟨stamps, hsub, h⟩

/-! ## A run -/

/-- Nothing is asked of `accept` when it is not called. -/
theorem acceptFresh_none (g : GData) {wake : Wake} (h : wake.accept = none) :
    AcceptFresh g (.woke wake) := by
  intro wake' connfd now hp ha
  rw [PollResult.woke.injEq] at hp
  rw [← hp, h] at ha
  cases ha

theorem acceptFresh_init (p : PollResult) : AcceptFresh {} p := nofun

/-- A client connects, sends `bytes`, and takes the response. -/
def oneClientRun (bytes : Bytes) : List PollResult :=
  [.woke { accept := some (5, 1), now := 1 },
    .woke { ready := [some { pollIn := true, now := 2, read := .data bytes }], now := 3 },
    .woke { ready := [some { pollOut := true, now := 4, writes := [.wrote 12] }], now := 5 }]

theorem oneClientRun_fresh (R : Runtime) (bytes : Bytes) :
    Guarded (iteration R) AcceptFresh {} (oneClientRun bytes) :=
  ⟨acceptFresh_init _, fun _ _ _ => ⟨acceptFresh_none _ rfl, fun _ _ _ =>
    ⟨acceptFresh_none _ rfl, fun _ _ _ => True.intro⟩⟩⟩

/-- The frame of the command `quit`. -/
def quitFrame : Bytes := responseFrame (requestBody [ascii "quit"])

theorem oneClientRun_ok :
    ∃ g logs, run (iteration noDoubles) {} (oneClientRun quitFrame) = .ok (g, logs) :=
  exists_of_isOk (by decide)

/-! ## The state machine of a connection -/

/-- A frame that has arrived in full, whatever is in it. -/
def CompleteFrame (xs : Bytes) : Prop := 4 ≤ xs.length ∧ 4 + frameLen xs ≤ xs.length

/-- An input that waits for more holds no complete frame. -/
theorem not_completeFrame {xs : Bytes} (h : nextRequest xs = .more) : ¬ CompleteFrame xs := by
  rintro ⟨hhead, hbody⟩
  rw [nextRequest, if_neg (Nat.not_lt.mpr hhead), if_neg (Nat.not_lt.mpr hbody)] at h
  split at h
  · cases h
  · split at h
    · cases h
    · cases h

/-- Every turn found its connection settled, and was given to the connection
    `poll` was asked about, with events the connection wanted. -/
theorem History.found (h : History R stamps log g) : ∀ turn ∈ log, Settled turn.found ∧
    turn.polled = turn.conn ∧ (turn.ready.pollIn = true → turn.found.wantRead = true) := by
  induction h with
  | start => exact fun turn ht => absurd ht List.not_mem_nil
  | accept _ _ _ _ ih => exact ih
  | turn h _ hc hpolled hin hmoves ih =>
      intro turn ht
      rcases List.mem_append.mp ht with ht | ht
      · exact ih turn ht
      · rw [List.mem_singleton] at ht
        rw [ht, hmoves.found, hmoves.given]
        exact ⟨h.loopState.settled _ _ hc, hpolled, hin⟩
  | idle _ _ _ _ ih => exact ih
  | tables _ _ _ ih => exact ih

/-- Every connection that is alive at the top of an iteration is open, wants to
    write exactly when it has something to write and to read otherwise, and no
    complete frame waits in its input. The read handler is only entered with an
    empty outgoing buffer. -/
theorem connections_settled_of_run (R : Runtime) {ps : List PollResult} {logs : List (List Turn)}
    {g : GData} (hrun : run (iteration R) {} ps = .ok (g, logs))
    (hfresh : Guarded (iteration R) AcceptFresh {} ps) :
    (∀ c conn, g.conns c = some conn → conn.wantClose = false ∧
      conn.wantRead = !conn.wantWrite ∧ (conn.wantWrite = true ↔ conn.outgoing ≠ []) ∧
      ¬ CompleteFrame conn.incoming) ∧
    ∀ turn ∈ logs.flatten, turn.ready.pollIn = true → turn.found.outgoing = [] := by
  rcases history_of_run hrun hfresh with ⟨stamps, _, h⟩
  constructor
  · intro c conn hc
    have hset := h.loopState.settled c conn hc
    refine ⟨hset.stays, ?_, ?_, not_completeFrame hset.input⟩
    · rcases hset.intent with ⟨hr, hw, _⟩ | ⟨hr, hw, _⟩
      · rw [hr, hw]
        rfl
      · rw [hr, hw]
        rfl
    · rcases hset.intent with ⟨_, hw, ho⟩ | ⟨_, hw, ho⟩
      · rw [hw, ho]
        exact ⟨fun h => absurd h Bool.false_ne_true, fun h => absurd rfl h⟩
      · exact ⟨fun _ => ho, fun _ => hw⟩
  · intro turn ht hin
    -- a turn that is reported readable was asked for, so nothing was queued
    rcases h.found turn ht with ⟨hset, _, hread⟩
    rcases hset.intent with ⟨_, _, ho⟩ | ⟨hr, _, _⟩
    · exact ho
    · exact absurd (hr.symm.trans (hread hin)) Bool.false_ne_true

theorem connections_settled_of_run_quit :
    ∃ g logs, run (iteration noDoubles) {} (oneClientRun quitFrame) = .ok (g, logs) ∧
      ∀ c conn, g.conns c = some conn → conn.wantClose = false := by
  rcases oneClientRun_ok with ⟨g, logs, hrun⟩
  have h := connections_settled_of_run noDoubles hrun (oneClientRun_fresh _ _)
  exact ⟨g, logs, hrun, fun c conn hc => (h.1 c conn hc).1⟩

/-! ## The tables -/

/-- The idle list is in order, as long as the clock does not go back. -/
theorem History.idleInv (h : History R stamps log g) (hclock : stamps.Pairwise (· ≤ ·)) :
    ∀ t, (∀ s ∈ stamps, s ≤ t) → ∃ l, IdleInv g t l := by
  induction h with
  | start =>
      intro t _
      refine ⟨[], idleRing_init, fun c => ?_, List.Pairwise.nil, fun c x hx => ?_⟩
      · simp only [List.not_mem_nil, reduceCtorEq, exists_false]
      · cases hx
  | accept h _ _ hrun ih =>
      intro t ht
      rw [List.pairwise_append] at hclock
      rcases ih hclock.1 _ (fun s hs => hclock.2.2 s hs _ (List.mem_singleton_self _)) with ⟨l, hl⟩
      rcases h.loopState.inv with ⟨P, hinv⟩
      rcases handleAccept_idleInv hrun hl (hinv.loop.fresh _ (Nat.le_refl _)) (Nat.le_refl _) with
        ⟨l', hl'⟩
      exact ⟨l', hl'.mono (ht _ (List.mem_append_right _ (List.mem_singleton_self _)))⟩
  | @turn _ _ _ _ c _ _ _ _ h hinv hc _ _ hmoves ih =>
      intro t ht
      rw [List.pairwise_append] at hclock
      rcases ih hclock.1 _ (fun s hs => hclock.2.2 s hs _ (List.mem_singleton_self _)) with ⟨l, hl⟩
      -- the touch moves the connection to the end, the handlers keep the list,
      rcases hmoves.moves with ⟨g₀, g₁, htouch, honly, _, hc₁, hend⟩
      rcases connTouch_idleInv htouch hl (Nat.le_refl _) with ⟨l', hl'⟩
      rcases connTouch_spec hinv hc _ with ⟨g₂, htouch', _, _, hconns⟩
      rw [htouch, Except.ok.injEq] at htouch'
      have hc₀ := congrFun hconns c
      rw [Function.update_self, ← htouch'] at hc₀
      have hl₁ := (SameKeys.of_onlyConn honly hc₀ hc₁ hmoves.turned.fd
        hmoves.turned.lastActiveMs).idleInv hl'
      have hle := ht _ (List.mem_append_right _ (List.mem_singleton_self _))
      -- and the decision may take the connection out
      rcases hend with ⟨_, _, _, rfl⟩ | ⟨_, _, hd⟩
      · exact ⟨l', hl₁.mono hle⟩
      · rcases hd.idleInv hc₁ hl₁ with ⟨l'', hl''⟩
        exact ⟨l'', hl''.mono hle⟩
  | idle _ hc _ hd ih =>
      intro t ht
      rcases ih hclock t ht with ⟨l, hl⟩
      exact hd.idleInv hc hl
  | tables _ hsame _ ih =>
      intro t ht
      rcases ih hclock t ht with ⟨l, hl⟩
      exact ⟨l, (SameKeys.of_sameLoop hsame).idleInv hl⟩

/-- At the top of every iteration `fd2conn` names exactly the live connections,
    each under its descriptor, and the idle list links exactly the live
    connections, each once, in the order of their activity. Every answer of
    `poll` went to the connection it was about. -/
theorem tables_of_run (R : Runtime) {ps : List PollResult} {logs : List (List Turn)} {g : GData}
    (hrun : run (iteration R) {} ps = .ok (g, logs))
    (hfresh : Guarded (iteration R) AcceptFresh {} ps)
    (hclock : (ps.flatMap PollResult.stamps).Pairwise (· ≤ ·)) :
    (∀ f c : Nat, g.fd2conn[f]? = some (some c) ↔
      ∃ conn, g.conns c = some conn ∧ conn.fd = f) ∧
    (∃ l, IdleRing g.idleList l ∧ l.Nodup ∧ (∀ c, c ∈ l ↔ ∃ conn, g.conns c = some conn) ∧
      l.Pairwise fun a b => ∀ x y, g.conns a = some x → g.conns b = some y →
        x.lastActiveMs ≤ y.lastActiveMs) ∧
    ∀ turn ∈ logs.flatten, turn.conn = turn.polled := by
  rcases history_of_run hrun hfresh with ⟨stamps, hsub, h⟩
  refine ⟨h.loopState.fds.named, ?_, fun turn ht => (h.found turn ht).2.1.symm⟩
  have hle : ∀ s ∈ stamps, s ≤ stamps.toFinset.sup id :=
    fun s hs => Finset.le_sup (f := id) (List.mem_toFinset.mpr hs)
  rcases h.idleInv (hclock.sublist hsub) _ hle with ⟨l, hl⟩
  exact ⟨l, hl.ring, hl.ring.nodup, hl.live, hl.order⟩

theorem tables_of_run_quit :
    ∃ g logs, run (iteration noDoubles) {} (oneClientRun quitFrame) = .ok (g, logs) ∧
      ∀ turn ∈ logs.flatten, turn.conn = turn.polled := by
  rcases oneClientRun_ok with ⟨g, logs, hrun⟩
  exact ⟨g, logs, hrun, (tables_of_run noDoubles hrun (oneClientRun_fresh _ _) (by decide)).2.2⟩

end

end RedisServer
