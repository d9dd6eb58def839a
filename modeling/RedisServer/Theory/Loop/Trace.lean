import RedisServer.Core.EventLoop
import RedisServer.Core.Events
import RedisServer.Theory.Loop.Serve

/-!
# The Event Loop as a Run of Events

An iteration of the loop in `main` is a list of the events of `Core.Events`,
and between them changes of the buffers and flags of one connection. Every
request it serves is one of the events, answered with the frame that goes into
the outgoing buffer, and an iteration that `poll` woke ends in its sweep. What
holds for every run of these events holds for the loop, whatever arrives and
however long the handlers take.

## Main definitions

* `LoopEvent`, `loopStep`: Events, and changes of buffers and flags.
* `servedIn`: The requests in a run, with their responses.

## Theorems

* `iteration_trace`, `iterations_trace`: One iteration, and any number.
-/

namespace RedisServer

open Lib

/-- The connection with other buffers and flags. -/
def Conn.withIo (conn x : Conn) : Conn :=
  { x with fd := conn.fd, lastActiveMs := conn.lastActiveMs, db := conn.db }

/-- An event, or a change of a connection's buffers and flags to those of
    `x`. -/
inductive LoopEvent
  | event (e : Event)
  | io (c : Nat) (x : Conn)

/-- One step of the loop. A request is answered with its response frame. -/
def loopStep (R : Runtime) (g : GData) : LoopEvent → Result (GData × Bytes)
  | .event (.request c cmd now) => do
    let _ ← g.conn c
    respond R g c cmd now
  | .event e => serverStep R g e
  | .io c x => do
    let conn ← g.conn c
    .ok (g.setConn c (conn.withIo x), [])

/-- The requests in a run, each with its connection, its time and its
    response. -/
def servedIn : List LoopEvent → List Bytes → List (Nat × Served)
  | .event (.request c cmd now) :: es, r :: rs => (c, ⟨cmd, now, r⟩) :: servedIn es rs
  | _ :: es, _ :: rs => servedIn es rs
  | _, _ => []

section

variable {R : Runtime} {g g' g'' : GData} {c : Nat}

/-- A run of the loop's steps from `g` to `g'` serves these requests. -/
def Traced (R : Runtime) (g : GData) (es : List LoopEvent) (served : List (Nat × Served))
    (g' : GData) : Prop :=
  ∃ rs, run (loopStep R) g es = .ok (g', rs) ∧ servedIn es rs = served

theorem servedIn_append {es es' : List LoopEvent} {rs rs' : List Bytes}
    (hlen : es.length = rs.length) :
    servedIn (es ++ es') (rs ++ rs') = servedIn es rs ++ servedIn es' rs' := by
  induction es generalizing rs with
  | nil =>
      rw [List.length_nil, eq_comm, List.length_eq_zero_iff] at hlen
      rw [hlen]
      rfl
  | cons e es ih =>
      cases rs with
      | nil => exact absurd hlen (by simp only [List.length_nil, List.length_cons,
          Nat.add_one_ne_zero, not_false_eq_true])
      | cons r rs =>
          rw [List.length_cons, List.length_cons, Nat.add_right_cancel_iff] at hlen
          rw [List.cons_append, List.cons_append]
          rcases e with (_ | _ | _ | _ | _) | _ <;> simp only [servedIn, ih hlen, List.cons_append]

namespace Traced

variable {es es' : List LoopEvent} {served served' : List (Nat × Served)}

theorem refl (g : GData) : Traced R g [] [] g := ⟨[], rfl, rfl⟩

theorem trans (h : Traced R g es served g') (h' : Traced R g' es' served' g'') :
    Traced R g (es ++ es') (served ++ served') g'' := by
  rcases h with ⟨rs, hrun, rfl⟩
  rcases h' with ⟨rs', hrun', rfl⟩
  refine ⟨rs ++ rs', ?_, servedIn_append (length_of_run hrun)⟩
  rw [run_append es' hrun, hrun']
  rfl

theorem single {e : LoopEvent} {r : Bytes} (h : loopStep R g e = .ok (g', r)) :
    Traced R g [e] (servedIn [e] [r]) g' := by
  refine ⟨[r], ?_, rfl⟩
  rw [run_cons h]
  rfl

/-- An assignment to buffers and flags. -/
theorem io {conn x : Conn} (hc : g.conns c = some conn) (hfd : x.fd = conn.fd)
    (hlast : x.lastActiveMs = conn.lastActiveMs) (hdb : x.db = conn.db) :
    Traced R g [.io c x] [] (g.setConn c x) := by
  have hx : conn.withIo x = x := by
    rw [Conn.withIo, ← hfd, ← hlast, ← hdb]
  refine single (r := []) ?_
  simp only [loopStep, conn_eq hc, ok_bind, hx]

end Traced

/-- One request, or the refusal of one. -/
theorem tryOneRequest_trace {now : Nat} {r : Option Served}
    (h : tryOneRequest R g c now = .ok (g', r)) :
    ∃ es, Traced R g es (r.toList.map fun s => (c, s)) g' := by
  rcases bind_eq_ok.mp h with ⟨conn, hconn, _⟩
  have hc := conns_of_conn hconn
  cases hnext : nextRequest conn.incoming with
  | more =>
      rw [tryOneRequest_more hc hnext, Except.ok.injEq, Prod.mk.injEq] at h
      rw [← h.1, ← h.2]
      exact ⟨[], Traced.refl g⟩
  | reject =>
      rcases tryOneRequest_reject (R := R) hc hnext now with ⟨n, msg, hrun⟩
      rw [hrun, Except.ok.injEq, Prod.mk.injEq] at h
      rw [← h.1, ← h.2]
      exact ⟨_, Traced.io hc rfl rfl rfl⟩
  | accept cmd n =>
      rw [tryOneRequest_accept hc hnext] at h
      rcases bind_eq_ok.mp h with ⟨⟨g₁, out⟩, hresp, h⟩
      rcases bind_eq_ok.mp h with ⟨conn₁, hconn₁, h⟩
      rw [Except.ok.injEq, Prod.mk.injEq] at h
      rw [← h.1, ← h.2]
      -- the command is one event, and taking the request off the input another
      have hstep : loopStep R g (.event (.request c cmd now)) = .ok (g₁, out) := by
        simp only [loopStep, hconn, ok_bind, hresp]
      exact ⟨_, (Traced.single hstep).trans (Traced.io (conns_of_conn hconn₁) rfl rfl rfl)⟩

theorem requestLoop_trace {clock : Nat → Nat} {fuel i : Nat} {served : List Served}
    (h : requestLoop R c clock fuel i g = .ok (g', served)) :
    ∃ es, Traced R g es (served.map fun s => (c, s)) g' := by
  induction fuel generalizing i g g' served with
  | zero => exact absurd h (by simp only [requestLoop, reduceCtorEq, not_false_eq_true])
  | succ fuel ih =>
      rcases bind_eq_ok.mp h with ⟨⟨g₁, r⟩, htry, h⟩
      rcases tryOneRequest_trace htry with ⟨es, hes⟩
      cases r with
      | none =>
          rw [Except.ok.injEq, Prod.mk.injEq] at h
          rw [← h.1, ← h.2]
          exact ⟨es, hes⟩
      | some s =>
          rcases bind_eq_ok.mp h with ⟨⟨g₂, rest⟩, hrest, h⟩
          rw [Except.ok.injEq, Prod.mk.injEq] at h
          rcases ih hrest with ⟨es', hes'⟩
          rw [← h.1, ← h.2]
          exact ⟨es ++ es', hes.trans hes'⟩

theorem handleRead_trace {rv : ReadResult} {clock : Nat → Nat} {served : List Served}
    (h : handleRead R g c rv clock = .ok (g', served)) :
    ∃ es, Traced R g es (served.map fun s => (c, s)) g' := by
  rcases bind_eq_ok.mp h with ⟨conn, hconn, h⟩
  have hc := conns_of_conn hconn
  -- end of input, bytes, nothing to read, an error
  rcases rv with (_ | ⟨b, bs⟩) | _ | _
  · rw [Except.ok.injEq, Prod.mk.injEq] at h
    rw [← h.1, ← h.2]
    exact ⟨_, Traced.io hc rfl rfl rfl⟩
  · rcases bind_eq_ok.mp h with ⟨⟨g₁, served₁⟩, hloop, h⟩
    rcases bind_eq_ok.mp h with ⟨conn₁, hconn₁, h⟩
    rcases requestLoop_trace hloop with ⟨es, hes⟩
    have hread := (Traced.io (R := R) hc (x := { conn with
      incoming := conn.incoming ++ b :: bs }) rfl rfl rfl).trans hes
    by_cases hout : 0 < conn₁.outgoing.length
    · rw [if_pos hout, Except.ok.injEq, Prod.mk.injEq] at h
      rw [← h.1, ← h.2]
      have := hread.trans (Traced.io (R := R) (conns_of_conn hconn₁) (x := { conn₁ with
        wantRead := false, wantWrite := true }) rfl rfl rfl)
      rw [List.append_nil] at this
      exact ⟨_, this⟩
    · rw [if_neg hout, Except.ok.injEq, Prod.mk.injEq] at h
      rw [← h.1, ← h.2]
      exact ⟨_, hread⟩
  · rw [Except.ok.injEq, Prod.mk.injEq] at h
    rw [← h.1, ← h.2]
    exact ⟨[], Traced.refl g⟩
  · rw [Except.ok.injEq, Prod.mk.injEq] at h
    rw [← h.1, ← h.2]
    exact ⟨_, Traced.io hc rfl rfl rfl⟩

theorem handleWrite_trace {writes : List WriteResult} {sent : Bytes}
    (h : handleWrite g c writes = .ok (g', sent)) : ∃ es, Traced R g es [] g' := by
  -- one change of a record for each write
  induction writes generalizing g g' sent with
  | nil =>
      rcases bind_eq_ok.mp h with ⟨conn, hconn, h⟩
      by_cases hempty : conn.outgoing.isEmpty = true
      · rw [if_pos hempty, Except.ok.injEq, Prod.mk.injEq] at h
        rw [← h.1]
        exact ⟨_, Traced.io (conns_of_conn hconn) rfl rfl rfl⟩
      · rw [if_neg hempty, Except.ok.injEq, Prod.mk.injEq] at h
        rw [← h.1]
        exact ⟨[], Traced.refl g⟩
  | cons rv rvs ih =>
      rcases bind_eq_ok.mp h with ⟨conn, hconn, h⟩
      have hc := conns_of_conn hconn
      by_cases hempty : conn.outgoing.isEmpty = true
      · rw [if_pos hempty, Except.ok.injEq, Prod.mk.injEq] at h
        rw [← h.1]
        exact ⟨_, Traced.io hc rfl rfl rfl⟩
      · rw [if_neg hempty] at h
        cases rv with
        | eagain =>
            rw [Except.ok.injEq, Prod.mk.injEq] at h
            rw [← h.1]
            exact ⟨[], Traced.refl g⟩
        | error =>
            rw [Except.ok.injEq, Prod.mk.injEq] at h
            rw [← h.1]
            exact ⟨_, Traced.io hc rfl rfl rfl⟩
        | wrote n =>
            dsimp only at h
            by_cases hn : n = 0
            · rw [if_pos hn, Except.ok.injEq, Prod.mk.injEq] at h
              rw [← h.1]
              exact ⟨_, Traced.io hc rfl rfl rfl⟩
            · rw [if_neg hn] at h
              rcases bind_eq_ok.mp h with ⟨⟨g₁, sent₁⟩, hrest, h⟩
              rw [Except.ok.injEq, Prod.mk.injEq] at h
              rcases ih hrest with ⟨es, hes⟩
              rw [← h.1]
              exact ⟨_, (Traced.io (R := R) hc (x := { conn with
                outgoing := conn.outgoing.drop n }) rfl rfl rfl).trans hes⟩

/-- A turn: the connection is touched, its handlers run, and it may be
    destroyed. -/
theorem connReady_trace {polled : Nat} {ready : Ready} {turn : Turn}
    (h : connReady R g c polled ready = .ok (g', turn)) :
    ∃ es, Traced R g es (turn.served.map fun s => (turn.conn, s)) g' := by
  rcases bind_eq_ok.mp h with ⟨found, _, h⟩
  rcases bind_eq_ok.mp h with ⟨g₁, htouch, h⟩
  rcases bind_eq_ok.mp h with ⟨⟨g₂, served⟩, hread, h⟩
  rcases bind_eq_ok.mp h with ⟨⟨g₃, sent⟩, hwrite, h⟩
  rcases bind_eq_ok.mp h with ⟨conn, _, h⟩
  rcases bind_eq_ok.mp h with ⟨g₄, hclose, h⟩
  rw [Except.ok.injEq, Prod.mk.injEq] at h
  rw [← h.1, ← h.2]
  have hstep : loopStep R g (.event (.touch c ready.now)) = .ok (g₁, []) := by
    simp only [loopStep, serverStep, htouch, ok_bind]
  -- only the read serves commands
  have hreads : ∃ es, Traced R g₁ es (served.map fun s => (c, s)) g₂ := by
    by_cases hin : ready.pollIn = true
    · rw [if_pos hin] at hread
      exact handleRead_trace hread
    · rw [if_neg hin, Except.ok.injEq, Prod.mk.injEq] at hread
      rw [← hread.1, ← hread.2]
      exact ⟨[], Traced.refl g₁⟩
  have hwrites : ∃ es, Traced R g₂ es [] g₃ := by
    by_cases hout : ready.pollOut = true
    · rw [if_pos hout] at hwrite
      exact handleWrite_trace hwrite
    · rw [if_neg hout, Except.ok.injEq, Prod.mk.injEq] at hwrite
      rw [← hwrite.1]
      exact ⟨[], Traced.refl g₂⟩
  -- the last event is the close, when the record asks for it
  have hcloses : ∃ es, Traced R g₃ es [] g₄ := by
    by_cases hend : ready.pollErr = true ∨ conn.wantClose = true
    · rw [if_pos hend] at hclose
      have hdestroy : loopStep R g₃ (.event (.close c)) = .ok (g₄, []) := by
        simp only [loopStep, serverStep, hclose, ok_bind]
      exact ⟨_, Traced.single hdestroy⟩
    · rw [if_neg hend, Except.ok.injEq] at hclose
      rw [← hclose]
      exact ⟨[], Traced.refl g₃⟩
  rcases hreads with ⟨es, hes⟩
  rcases hwrites with ⟨es', hes'⟩
  rcases hcloses with ⟨es'', hes''⟩
  have := (((Traced.single hstep).trans hes).trans hes').trans hes''
  rw [List.append_nil, List.append_nil] at this
  exact ⟨_, this⟩

/-- The requests of a series of turns. -/
def servedOf (turns : List Turn) : List (Nat × Served) :=
  turns.flatMap fun turn => turn.served.map fun s => (turn.conn, s)

theorem connLoop_trace {args : List PollArg} {rs : List (Option Ready)} {turns : List Turn}
    (h : connLoop R g args rs = .ok (g', turns)) :
    ∃ es, Traced R g es (servedOf turns) g' := by
  induction args generalizing g g' rs turns with
  | nil =>
      simp only [connLoop, Except.ok.injEq, Prod.mk.injEq] at h
      rw [← h.1, ← h.2]
      exact ⟨[], Traced.refl g⟩
  | cons arg args ih =>
      -- nothing left, nothing reported for this socket, or a turn
      rcases rs with _ | ⟨_ | ready, rs⟩
      · simp only [connLoop, Except.ok.injEq, Prod.mk.injEq] at h
        rw [← h.1, ← h.2]
        exact ⟨[], Traced.refl g⟩
      · exact ih h
      · cases hc : connOf g arg.fd with
        | none =>
            simp only [connLoop, hc] at h
            exact ih h
        | some c =>
            simp only [connLoop, hc] at h
            rcases bind_eq_ok.mp h with ⟨⟨g₁, turn⟩, hready, h⟩
            rcases bind_eq_ok.mp h with ⟨⟨g₂, turns₁⟩, hrest, h⟩
            rw [Except.ok.injEq, Prod.mk.injEq] at h
            rcases connReady_trace hready with ⟨es, hes⟩
            rcases ih hrest with ⟨es', hes'⟩
            rw [← h.1, ← h.2]
            exact ⟨es ++ es', hes.trans hes'⟩

/-- The event an iteration ends with. -/
def PollResult.sweep : PollResult → List LoopEvent
  | .interrupted _ => []
  | .woke wake => [.event (.sweep wake.now)]

/-- An iteration is a run of events. It ends with the sweep. -/
theorem iteration_trace {p : PollResult} {turns : List Turn}
    (h : iteration R g p = .ok (g', turns)) :
    ∃ es, Traced R g (es ++ p.sweep) (servedOf turns) g' := by
  cases p with
  | interrupted before =>
      rcases bind_eq_ok.mp h with ⟨_, _, h⟩
      rcases bind_eq_ok.mp h with ⟨_, _, h⟩
      rw [Except.ok.injEq, Prod.mk.injEq] at h
      rw [← h.1, ← h.2]
      exact ⟨[], Traced.refl g⟩
  | woke wake =>
      rcases bind_eq_ok.mp h with ⟨args, _, h⟩
      rcases bind_eq_ok.mp h with ⟨_, _, h⟩
      rcases bind_eq_ok.mp h with ⟨g₁, haccept, h⟩
      rcases bind_eq_ok.mp h with ⟨⟨g₂, turns₁⟩, hloop, h⟩
      rcases bind_eq_ok.mp h with ⟨g₃, hsweep, h⟩
      rw [Except.ok.injEq, Prod.mk.injEq] at h
      rw [← h.1, ← h.2]
      -- the listening socket, the connections, and the sweep at the end
      have haccepts : ∃ es, Traced R g es [] g₁ := by
        cases ha : wake.accept with
        | none =>
            simp only [ha, Except.ok.injEq] at haccept
            rw [← haccept]
            exact ⟨[], Traced.refl g⟩
        | some x =>
            simp only [ha] at haccept
            have hstep : loopStep R g (.event (.accept x.1 x.2)) = .ok (g₁, []) := by
              simp only [loopStep, serverStep, haccept, ok_bind]
            exact ⟨_, Traced.single hstep⟩
      have hstep : loopStep R g₂ (.event (.sweep wake.now)) = .ok (g₃, []) := by
        simp only [loopStep, serverStep, hsweep, ok_bind]
      rcases haccepts with ⟨es, hes⟩
      rcases connLoop_trace hloop with ⟨es', hes'⟩
      have := (hes.trans hes').trans (Traced.single hstep)
      rw [List.nil_append] at this
      exact ⟨es ++ es', by simpa only [servedIn, List.append_nil, PollResult.sweep] using this⟩

/-- So is any number of iterations. -/
theorem iterations_trace {ps : List PollResult} {logs : List (List Turn)}
    (h : run (iteration R) g ps = .ok (g', logs)) :
    ∃ es, Traced R g es (servedOf logs.flatten) g' := by
  induction ps generalizing g logs with
  | nil =>
      simp only [run, Except.ok.injEq, Prod.mk.injEq] at h
      rw [← h.1, ← h.2]
      exact ⟨[], Traced.refl g⟩
  | cons p ps ih =>
      rcases run_cons_eq_ok h with ⟨g₁, turns, logs', hiter, hrest, rfl⟩
      rcases iteration_trace hiter with ⟨es, hes⟩
      rcases ih hrest with ⟨es', hes'⟩
      have := hes.trans hes'
      rw [servedOf, servedOf, ← List.flatMap_append, ← List.flatten_cons] at this
      exact ⟨_, this⟩

end

end RedisServer
