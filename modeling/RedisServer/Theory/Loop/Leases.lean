import RedisServer.Theory.Loop.History
import RedisServer.Theory.Server.Timers

/-!
# The Lifetimes of Connections

When a connection lives and when it dies, without the buffers, the idle list
and the descriptors. A connection is given a lease when it is accepted. Every
turn it is given renews the lease, and a turn that destroys it ends it. A sweep
ends the leases that were not renewed for longer than `k_idle_timeout_ms`.

The loop keeps this by moving a connection to the end of the idle list, and by
looking at the front of the list only. It comes to the same as long as the
clock does not go back.

## Main definitions

* `Leases`: For every connection, the time its lease was renewed.
* `Leases.Held`: The live connections are those with a lease.
* `leases`: The leases after a run.

## Theorems

* `Leases.Held.accepted`, `Leases.Held.turns`, `Leases.Held.sweep`: The parts of
  an iteration.
* `leases_of_run`: Every run.
-/

namespace RedisServer

open Lib

/-- The leases, and the number of the next connection. -/
structure Leases where
  next : Nat := 0
  since : Nat → Option Nat := fun _ => none

namespace Leases

/-- A connection is accepted, unless `accept` failed. -/
def accept (L : Leases) : Option (Int × Nat) → Leases
  | none => L
  | some (connfd, now) =>
    if connfd < 0 then L
    else { next := L.next + 1, since := Function.update L.since L.next (some now) }

/-- A turn renews a lease, or ends it with the connection. -/
def turn (L : Leases) (t : Turn) : Leases :=
  { L with since := Function.update L.since t.conn (if t.closed = none then some t.ready.now else none) }

/-- A sweep at `now`. -/
def sweep (L : Leases) (now : Nat) : Leases :=
  { L with since := fun c => (L.since c).filter fun t => decide (now ≤ t + kIdleTimeoutMs) }

/-- An iteration, with the turns it gave. -/
def iterate (L : Leases) (p : PollResult) (turns : List Turn) : Leases :=
  match p with
  | .interrupted _ => L
  | .woke wake => (turns.foldl turn (L.accept wake.accept)).sweep wake.now

/-- The connections that live are those with a lease, each since it was last
    active. -/
structure Held (L : Leases) (g : GData) : Prop where
  next : L.next = g.nextConn
  since : ∀ c, (g.conns c).map Conn.lastActiveMs = L.since c

end Leases

/-- The leases after a run of iterations. -/
def leases (L : Leases) (ps : List PollResult) (logs : List (List Turn)) : Leases :=
  (ps.zip logs).foldl (fun L x => L.iterate x.1 x.2) L

section

variable {R : Runtime} {g g' : GData} {L : Leases} {P : Nat → Prop} {stamps : List Nat}
  {log : List Turn}

theorem IdleEnds.nextConn {now : Nat} (h : IdleEnds now g g') : g'.nextConn = g.nextConn := by
  induction h with
  | refl g => rfl
  | step _ _ hd _ ih => exact ih.trans hd.nextConn

namespace Leases.Held

theorem accepted {a : Option (Int × Nat)} (h : L.Held g) (hrun : RedisServer.accepted g a = .ok g') :
    (L.accept a).Held g' := by
  cases a with
  | none =>
      rw [RedisServer.accepted, Except.ok.injEq] at hrun
      rw [← hrun]
      exact h
  | some a =>
      rcases a with ⟨connfd, now⟩
      rw [Leases.accept]
      by_cases hneg : connfd < 0
      · rw [if_pos hneg, handleAccept_none hrun hneg]
        exact h
      · rw [if_neg hneg]
        rcases handleAccept_eq hrun (Int.not_lt.mp hneg) with ⟨idle, _, rfl⟩
        refine ⟨congrArg (· + 1) h.next, fun c => ?_⟩
        simp only [Function.update_apply, h.next]
        by_cases hc : c = g.nextConn
        · rw [if_pos hc, if_pos hc]
          rfl
        · rw [if_neg hc, if_neg hc]
          exact h.since c

theorem turn {c : Nat} {conn conn' : Conn} {turn : Turn} (h : L.Held g) (hinv : Inv R g P)
    (hc : g.conns c = some conn) (hmoves : TurnMoves R g g' c conn conn' turn P) :
    (L.turn turn).Held g' := by
  refine ⟨h.next.trans hmoves.nextConn.symm, fun c' => ?_⟩
  · simp only [Leases.turn, hmoves.given, Function.update_apply]
    by_cases hcc : c' = c
    · rw [if_pos hcc, hcc]
      rcases hmoves.self with ⟨hopen, hkept, _⟩ | ⟨hclosed, hgone, _⟩
      · rw [hkept, if_pos hopen, Option.map_some, hmoves.turned.lastActiveMs]
      · rw [hgone, if_neg (by rw [hclosed]; exact Option.some_ne_none _), Option.map_none]
    · rw [if_neg hcc, ← h.since c']
      have hio := congrArg (Option.map Conn.lastActiveMs) (hmoves.others hc hinv hcc)
      rw [Option.map_map, Option.map_map] at hio
      exact hio

theorem turns {ts : List Turn} (h : L.Held g) (ht : Turns R g ts g') :
    (ts.foldl Leases.turn L).Held g' := by
  induction ht generalizing L with
  | nil g => exact h
  | cons hinv hc _ _ hmoves _ ih => exact ih (h.turn hinv hc hmoves)

theorem sameLoop (h : L.Held g) (hsame : SameLoop g g') : L.Held g' := by
  refine ⟨h.next.trans hsame.nextConn.symm, fun c => ?_⟩
  have hio := congrArg (Option.map Conn.lastActiveMs) (hsame.io c)
  rw [Option.map_map, Option.map_map] at hio
  exact hio.trans (h.since c)

/-- A sweep of a list in the order of activity. -/
theorem sweep {l : List Nat} {now : Nat} (h : L.Held g) (hinv : Inv R g P) (ho : IdleOrdered g l)
    (hrun : processTimers g now = .ok g') : (L.sweep now).Held g' := by
  rcases idleLoop_exact now (g.nextConn + 1) hinv.loop ho
    (Nat.lt_succ_of_le (length_le_nextConn hinv.loop ho.ring ho.live)) with
    ⟨g₁, hidle, hends, hconns⟩
  rw [processTimers, hidle, ok_bind] at hrun
  have hheld : (L.sweep now).Held g₁ := by
    refine ⟨h.next.trans hends.nextConn.symm, fun c => ?_⟩
    simp only [hconns c, survivors, Leases.sweep, ← h.since c]
    cases g.conns c with
    | none => rfl
    | some conn =>
        by_cases hle : now ≤ conn.lastActiveMs + kIdleTimeoutMs
        · simp only [Option.map_some, Option.filter_some, hle, decide_true, if_true]
        · simp only [Option.map_some, Option.filter_some, hle, decide_false, Bool.false_eq_true,
            if_false, Option.map_none]
  -- the keys that are due are no concern of the connections
  rcases hends.inv_left hinv with ⟨P₁, hinv₁⟩
  rcases exists_views hinv₁.db with ⟨K₁, hK₁⟩
  rcases ttlLoop_cases now (g₁.heap.length + 1) 0 hinv₁ (Nat.lt_succ_self _) with
    ⟨g₂, es, hrun', hsw, _⟩ | ⟨f, _, hrun', _⟩ | ⟨_, hrun'⟩
  · rw [hrun, Except.ok.injEq] at hrun'
    rcases hsw.moved hinv₁ hK₁ with ⟨_, hm, _⟩
    rw [hrun']
    exact hheld.sameLoop hm.same
  · rw [hrun] at hrun'
    cases hrun'
  · rw [hrun] at hrun'
    cases hrun'

end Leases.Held

/-! ## An iteration -/

/-- The parts of an iteration that `poll` did not interrupt. -/
theorem woke_parts (hstate : LoopState R g) {wake : Wake} (hfresh : AcceptFresh g (.woke wake))
    {ts : List Turn} (hrun : iteration R g (.woke wake) = .ok (g', ts)) :
    ∃ g₁ g₂, accepted g wake.accept = .ok g₁ ∧ Turns R g₁ ts g₂ ∧
      (ts.map fun turn => turn.ready.now).Sublist
        (wake.ready.filterMap fun r => r.map Ready.now) ∧
      processTimers g₂ wake.now = .ok g' := by
  rcases pollArgs_spec (g := g) g.fd2conn (fun c hc => by
    rcases List.getElem?_of_mem hc with ⟨f, hf⟩
    rcases (hstate.fds.named f c).mp hf with ⟨conn, h, _⟩
    exact ⟨conn, h⟩) with ⟨args, hargs, hmap, hask⟩
  rcases accepted_spec hstate wake.accept (fun connfd now h => hfresh wake connfd now rfl h) with
    ⟨g₁, hacc, hstate₁, hkeep⟩
  rw [iteration, hargs, ok_bind] at hrun
  rcases bind_eq_ok.mp hrun with ⟨_, _, hrun⟩
  change (accepted g wake.accept >>= _) = _ at hrun
  rw [hacc, ok_bind] at hrun
  rcases bind_eq_ok.mp hrun with ⟨⟨g₂, ts₂⟩, hloop, hrun⟩
  rcases bind_eq_ok.mp hrun with ⟨g₃, htimers, hrun⟩
  rw [Except.ok.injEq, Prod.mk.injEq] at hrun
  rcases connLoop_spec args wake.ready hstate₁ (fun arg ha => Or.inl (hkeep arg (hask arg ha)))
      (by rw [hmap]; exact hstate.fds.nodup) with
    ⟨g₂', ts', hloop', _, hturns, hsub⟩ | ⟨f, hloop', _⟩
  · rw [hloop, Except.ok.injEq, Prod.mk.injEq] at hloop'
    rw [← hloop'.1, ← hloop'.2, hrun.2] at hturns
    rw [← hloop'.2, hrun.2] at hsub
    rw [hrun.1] at htimers
    exact ⟨g₁, g₂, hacc, hturns, hsub, htimers⟩
  · rw [hloop] at hloop'
    cases hloop'

/-- What the listening socket does extends a history. -/
theorem History.accepted {a : Option (Int × Nat)} (h : History R stamps log g)
    (hfresh : ∀ connfd now, a = some (connfd, now) →
      ∀ c conn, g.conns c = some conn → conn.fd ≠ connfd)
    (hrun : accepted g a = .ok g') :
    ∃ stamps', stamps'.Sublist (a.map Prod.snd).toList ∧ History R (stamps ++ stamps') log g' := by
  cases a with
  | none =>
      rw [RedisServer.accepted, Except.ok.injEq] at hrun
      refine ⟨[], List.Sublist.refl _, ?_⟩
      rw [List.append_nil, ← hrun]
      exact h
  | some a =>
      rcases a with ⟨connfd, now⟩
      rw [RedisServer.accepted] at hrun
      by_cases hneg : connfd < 0
      · refine ⟨[], List.nil_sublist _, ?_⟩
        rw [List.append_nil, handleAccept_none hrun hneg]
        exact h
      · exact ⟨[now], List.Sublist.refl _, .accept h (hfresh connfd now rfl) (Int.not_lt.mp hneg) hrun⟩

/-- The times of activity are in order, and the clock can show the minute
    after each. -/
def ClockFits (stamps : List Nat) : Prop :=
  stamps.Pairwise (· ≤ ·) ∧ ∀ s ∈ stamps, s + kIdleTimeoutMs < 2 ^ 64

theorem ClockFits.sublist {s s' : List Nat} (h : ClockFits s') (hsub : s.Sublist s') : ClockFits s :=
  ⟨h.1.sublist hsub, fun t ht => h.2 t (hsub.subset ht)⟩

/-- Then the idle list is in the order a sweep relies on. -/
theorem History.idleOrdered (h : History R stamps log g) (hclock : ClockFits stamps) :
    ∃ l, IdleOrdered g l := by
  rcases h.idleInv hclock.1 (2 ^ 64 - kIdleTimeoutMs - 1) (fun s hs => by
    have hlt := hclock.2 s hs
    omega) with ⟨l, hl⟩
  refine ⟨l, hl.ring, hl.live, hl.order, fun c conn hc => ?_⟩
  have hle := hl.past c conn hc
  have hmin : kIdleTimeoutMs < 2 ^ 64 := by decide
  omega

/-- An iteration keeps the leases. -/
theorem Leases.Held.iterate (hheld : L.Held g) (h : History R stamps log g) {p : PollResult}
    (hfresh : AcceptFresh g p) (hclock : ClockFits (stamps ++ p.stamps)) {ts : List Turn}
    (hrun : iteration R g p = .ok (g', ts)) : (L.iterate p ts).Held g' := by
  cases p with
  | interrupted before =>
      rcases bind_eq_ok.mp hrun with ⟨_, _, hrun⟩
      rcases bind_eq_ok.mp hrun with ⟨_, _, hrun⟩
      rw [Except.ok.injEq, Prod.mk.injEq] at hrun
      rw [← hrun.1]
      exact hheld
  | woke wake =>
      rcases woke_parts h.loopState hfresh hrun with ⟨g₁, g₂, hacc, hturns, hsub, htimers⟩
      rcases h.accepted (fun connfd now ha => hfresh wake connfd now rfl ha) hacc with
        ⟨stamps', hsub', h₁⟩
      have h₂ := h₁.give hturns
      -- the sweep comes after everything the iteration noted down
      rw [List.append_assoc] at h₂
      rcases h₂.idleOrdered (hclock.sublist ((List.Sublist.refl _).append (hsub'.append hsub))) with
        ⟨l, hl⟩
      rcases h₂.loopState.inv with ⟨P, hinv⟩
      exact ((hheld.accepted hacc).turns hturns).sweep hinv hl htimers

/-- A run of iterations keeps the leases. -/
theorem Leases.Held.extend {ps : List PollResult} {logs : List (List Turn)} (hheld : L.Held g)
    (h : History R stamps log g) (hrun : run (iteration R) g ps = .ok (g', logs))
    (hfresh : Guarded (iteration R) AcceptFresh g ps)
    (hclock : ClockFits (stamps ++ ps.flatMap PollResult.stamps)) : (leases L ps logs).Held g' := by
  induction ps generalizing g L stamps log logs with
  | nil =>
      simp only [run, Except.ok.injEq, Prod.mk.injEq] at hrun
      rw [← hrun.1]
      exact hheld
  | cons p ps ih =>
      rcases run_cons_eq_ok hrun with ⟨g₁, ts, logs', hstep, hrest, rfl⟩
      rw [List.flatMap_cons, ← List.append_assoc] at hclock
      have hheld₁ := hheld.iterate h hfresh.1
        (hclock.sublist (List.sublist_append_left _ _)) hstep
      rcases iteration_spec h.loopState hfresh.1 with ⟨g₂, ts', hstep', hstate, hi⟩ | ⟨f, hstep', _⟩
      · rw [hstep, Except.ok.injEq, Prod.mk.injEq] at hstep'
        rw [← hstep'.1, ← hstep'.2] at hi
        rw [← hstep'.1] at hstate
        rcases h.iterate hfresh.1 hi hstate.inv with ⟨stamps₁, hsub₁, h₁⟩
        exact ih hheld₁ h₁ hrest (hfresh.2 g₁ ts hstep)
          (hclock.sublist (((List.Sublist.refl _).append hsub₁).append (List.Sublist.refl _)))
      · rw [hstep] at hstep'
        cases hstep'

end

/-- In every run of the event loop in which the clock does not go back, the live
    connections at the top of an iteration are exactly those with a lease, and
    each was last active when its lease was renewed: a connection dies in its
    own turn, or in the first sweep that finds it silent for longer than
    `k_idle_timeout_ms`, and in no other way. -/
theorem leases_of_run (R : Runtime) {ps : List PollResult} {logs : List (List Turn)} {g : GData}
    (hrun : run (iteration R) {} ps = .ok (g, logs))
    (hfresh : Guarded (iteration R) AcceptFresh {} ps)
    (hclock : (ps.flatMap PollResult.stamps).Pairwise (· ≤ ·))
    (hlate : ∀ s ∈ ps.flatMap PollResult.stamps, s + kIdleTimeoutMs < 2 ^ 64) (c : Nat) :
    (g.conns c).map Conn.lastActiveMs = (leases {} ps logs).since c :=
  (Leases.Held.extend (L := {}) ⟨rfl, fun _ => rfl⟩ History.start hrun hfresh ⟨hclock, hlate⟩).since c

theorem leases_of_run_quit :
    ∃ g logs, run (iteration noDoubles) {} (oneClientRun quitFrame) = .ok (g, logs) ∧
      ∀ c, (g.conns c).map Conn.lastActiveMs = (leases {} (oneClientRun quitFrame) logs).since c := by
  rcases oneClientRun_ok with ⟨g, logs, hrun⟩
  exact ⟨g, logs, hrun,
    fun c => leases_of_run noDoubles hrun (oneClientRun_fresh _ _) (by decide) (by decide) c⟩

end RedisServer
