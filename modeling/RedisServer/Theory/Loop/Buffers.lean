import RedisServer.Theory.Loop.History
import RedisServer.Theory.Loop.Trace
import RedisServer.Theory.Protocol.Value

/-!
# The Buffers of a Connection

How much the server keeps for a connection, whatever its client sends and
however slowly it reads. Between two iterations the incoming buffer holds no
complete frame, so less than the longest frame. The outgoing buffer holds what
is left of one response, since a connection that has something to write does
not read, and a request clears what was there before its response is added. A
refused request adds to it, but its connection is gone by the end of the turn.

## Main definitions

* `Conn.Bounded`: Buffers below one frame.

## Theorems

* `respond_frame`: A response is the frame of a payload.
* `Traced.frames`: The responses of a run.
* `buffers_of_run`: Every state a run reaches.
-/

namespace RedisServer

open Lib

section

variable {R : Runtime} {g g' : GData} {stamps : List Nat} {log : List Turn}

/-! ## Responses -/

/-- A response is the frame of a payload within the limit. -/
theorem respond_frame {c now : Nat} {cmd : List Bytes} {out : Bytes}
    (h : respond R g c cmd now = .ok (g', out)) :
    ∃ payload, out = responseFrame payload ∧ payload.length ≤ kMaxMsg := by
  rcases bind_eq_ok.mp h with ⟨⟨g₁, out₁⟩, _, h⟩
  rcases bind_eq_ok.mp h with ⟨out₂, hend, h⟩
  rw [Except.ok.injEq, Prod.mk.injEq] at h
  rw [← h.2]
  -- the copy at the front leaves what comes after the header
  have hcopy : ∀ buf : Bytes, responseSize buf 0 ≤ kMaxMsg →
      memcpyAt buf 0 (le32 (responseSize buf 0)) = .ok out₂ →
      ∃ payload, out₂ = responseFrame payload ∧ payload.length ≤ kMaxMsg := by
    intro buf hsize hbuf
    rcases length_of_memcpyAt hbuf with ⟨_, hfit⟩
    rw [length_le32] at hfit
    have hlen : (buf.drop 4).length = responseSize buf 0 := by
      rw [List.length_drop, responseSize, Nat.sub_zero]
    rw [memcpyAt, if_pos (by rw [length_le32]; exact hfit), List.take_zero, List.nil_append,
      length_le32, Nat.zero_add, Except.ok.injEq] at hbuf
    refine ⟨buf.drop 4, ?_, by rw [hlen]; exact hsize⟩
    rw [responseFrame, hlen, hbuf]
  change responseEnd out₁ 0 = .ok out₂ at hend
  rw [responseEnd] at hend
  by_cases hbig : kMaxMsg < responseSize out₁ 0
  · rw [if_pos hbig] at hend
    refine hcopy _ ?_ hend
    have hshort : (outErr [] errTooBig (ascii "response is too big")).length ≤ 100 := by decide
    have htake : (out₁.take (0 + 4)).length ≤ 4 := List.length_take_le ..
    rw [outErr_eq, responseSize, List.length_append, kMaxMsg]
    omega
  · rw [if_neg hbig] at hend
    exact hcopy _ (Nat.le_of_not_lt hbig) hend

/-- Every request of a run was answered by its command. -/
theorem Traced.respond {es : List LoopEvent} {served : List (Nat × Served)}
    (h : Traced R g es served g') : ∀ x ∈ served, ∃ g₁ g₂,
      RedisServer.respond R g₁ x.1 x.2.cmd x.2.now = .ok (g₂, x.2.response) := by
  rcases h with ⟨rs, hrun, rfl⟩
  induction es generalizing g rs with
  | nil => exact fun x hx => absurd hx List.not_mem_nil
  | cons e es ih =>
      rcases run_cons_eq_ok hrun with ⟨g₁, r, rs', hstep, hrest, rfl⟩
      intro x hx
      rcases e with (_ | _ | ⟨c, cmd, now⟩ | _ | _) | _
      · exact ih rs' hrest x hx
      · exact ih rs' hrest x hx
      · rcases List.mem_cons.mp hx with rfl | hx
        · rcases bind_eq_ok.mp hstep with ⟨_, _, hresp⟩
          exact ⟨g, g₁, hresp⟩
        · exact ih rs' hrest x hx
      · exact ih rs' hrest x hx
      · exact ih rs' hrest x hx
      · exact ih rs' hrest x hx

/-- So the responses of its turns are frames. -/
theorem Traced.frames {es : List LoopEvent} {turns : List Turn}
    (h : Traced R g es (servedOf turns) g') : ∀ turn ∈ turns, ∀ s ∈ turn.served,
      ∃ payload, s.response = responseFrame payload ∧ payload.length ≤ kMaxMsg := by
  intro turn ht s hs
  rcases h.respond (turn.conn, s) (List.mem_flatMap.mpr ⟨turn, ht, List.mem_map_of_mem hs⟩) with
    ⟨g₁, g₂, hresp⟩
  exact respond_frame hresp

/-! ## Input and output -/

/-- An input that waits for more is shorter than the longest frame. -/
theorem length_of_more {xs : Bytes} (h : nextRequest xs = .more) : xs.length < 4 + kMaxMsg := by
  rw [nextRequest] at h
  by_cases hhead : xs.length < 4
  · omega
  · rw [if_neg hhead] at h
    by_cases hlong : kMaxMsg < frameLen xs
    · rw [if_pos hlong] at h
      cases h
    · rw [if_neg hlong] at h
      by_cases hbody : xs.length < 4 + frameLen xs
      · omega
      · rw [if_neg hbody] at h
        split at h
        · cases h
        · cases h

/-- What a series of requests leaves in the outgoing buffer is one of their
    responses, or what was there. -/
theorem lastResponse_cases (served : List Served) (out : Bytes) :
    lastResponse served out = out ∨ ∃ s ∈ served, lastResponse served out = s.response := by
  induction served generalizing out with
  | nil => exact Or.inl rfl
  | cons s rest ih =>
      rw [lastResponse]
      rcases ih s.response with heq | ⟨s', hs', heq⟩
      · exact Or.inr ⟨s, List.mem_cons_self, heq⟩
      · exact Or.inr ⟨s', List.mem_cons_of_mem _ hs', heq⟩

/-- A connection whose buffers hold less than a frame of input, and no more
    than a frame of output. -/
def Conn.Bounded (conn : Conn) : Prop :=
  conn.incoming.length < 4 + kMaxMsg ∧ conn.outgoing.length ≤ 4 + kMaxMsg

/-- A turn that is given to a connection with a bounded output, and serves
    bounded responses, leaves one, if it leaves the connection. -/
theorem Turned.outgoing_le {conn conn' : Conn} {turn : Turn} (h : Turned conn turn conn')
    (hset : Settled conn) (hread : turn.ready.pollIn = true → conn.wantRead = true)
    (hserved : ∀ s ∈ turn.served, s.response.length ≤ 4 + kMaxMsg) (hst : conn'.wantClose = false)
    (hle : conn.outgoing.length ≤ 4 + kMaxMsg) : conn'.outgoing.length ≤ 4 + kMaxMsg := by
  have hsplit := congrArg List.length (h.stays hst).2.2
  rw [List.length_append, List.length_append] at hsplit
  rcases lastResponse_cases turn.served [] with hlast | ⟨s, hs, hlast⟩
  · -- nothing was served, so nothing was added
    rw [hlast, List.length_nil] at hsplit
    omega
  · have hnone : conn.outgoing = [] := by
      by_cases hin : turn.ready.pollIn = true
      · exact (hset.reading (hread hin)).2
      · have hcmds := h.cmds
        rw [Turn.received, if_neg hin, arrived_nil hset.input, List.map_eq_nil_iff] at hcmds
        rw [hcmds] at hs
        cases hs
    have hresp := hserved s hs
    rw [hlast, hnone, List.length_nil] at hsplit
    omega

/-- Every state of a history bounds the output of every connection, when the
    responses of its turns are bounded. -/
theorem History.outgoing_le (h : History R stamps log g)
    (hserved : ∀ turn ∈ log, ∀ s ∈ turn.served, s.response.length ≤ 4 + kMaxMsg) (c : Nat)
    (conn : Conn) (hc : g.conns c = some conn) : conn.outgoing.length ≤ 4 + kMaxMsg := by
  induction h generalizing c conn with
  | start => cases hc
  | accept _ _ hpos hrun ih =>
      rcases handleAccept_eq hrun hpos with ⟨idle, _, rfl⟩
      simp only [Function.update_apply] at hc
      split at hc
      · -- a new connection has nothing to write
        rw [← Option.some.inj hc]
        exact Nat.zero_le _
      · exact ih hserved c conn hc
  | @turn _ _ _ _ c₀ _ _ turn _ h hinv hc₀ _ hread hmoves ih =>
      have hold := ih fun turn ht => hserved turn (List.mem_append_left _ ht)
      by_cases hcc : c = c₀
      · rw [hcc] at hc
        rcases hmoves.self with ⟨_, hkept, hst⟩ | ⟨_, hgone, _⟩
        · rw [hkept, Option.some.injEq] at hc
          rw [← hc]
          exact hmoves.turned.outgoing_le (h.loopState.settled _ _ hc₀) hread
            (hserved turn (List.mem_append_right _ (List.mem_singleton_self turn))) hst
            (hold _ _ hc₀)
        · rw [hgone] at hc
          cases hc
      · have hio := hmoves.others hc₀ hinv hcc
        rw [hc, Option.map_some, eq_comm, Option.map_eq_some_iff] at hio
        rcases hio with ⟨x, hx, hxy⟩
        have hout : x.outgoing = conn.outgoing := (Conn.members hxy).2.2.2.2.2.1
        rw [← hout]
        exact hold c x hx
  | idle _ _ _ hd ih =>
      rw [hd.conns, Function.update_apply] at hc
      split at hc
      · cases hc
      · exact ih hserved c conn hc
  | tables _ hsame _ ih =>
      have hio := hsame.io c
      rw [hc, Option.map_some, eq_comm, Option.map_eq_some_iff] at hio
      rcases hio with ⟨x, hx, hxy⟩
      have hout : x.outgoing = conn.outgoing := (Conn.members hxy).2.2.2.2.2.1
      rw [← hout]
      exact ih hserved c x hx

/-- Every turn of a history found its connection with a bounded output. -/
theorem History.found_outgoing_le (h : History R stamps log g)
    (hserved : ∀ turn ∈ log, ∀ s ∈ turn.served, s.response.length ≤ 4 + kMaxMsg) :
    ∀ turn ∈ log, turn.found.outgoing.length ≤ 4 + kMaxMsg := by
  induction h with
  | start => exact fun turn ht => absurd ht List.not_mem_nil
  | accept _ _ _ _ ih => exact ih hserved
  | @turn _ turns _ _ _ _ _ _ _ h _ hc _ _ hmoves ih =>
      have hold : ∀ turn ∈ turns, ∀ s ∈ turn.served, s.response.length ≤ 4 + kMaxMsg :=
        fun turn ht => hserved turn (List.mem_append_left _ ht)
      intro turn ht
      rcases List.mem_append.mp ht with ht | ht
      · exact ih hold turn ht
      · rw [List.mem_singleton.mp ht, hmoves.found]
        exact h.outgoing_le hold _ _ hc
  | idle _ _ _ _ ih => exact ih hserved
  | tables _ _ _ ih => exact ih hserved

end

/-- In every run of the event loop, whatever `read` and `write` return: each
    connection that is alive at the top of an iteration, and each that is given
    a turn, holds less than a frame of input and at most a frame of output. -/
theorem buffers_of_run (R : Runtime) {ps : List PollResult} {logs : List (List Turn)} {g : GData}
    (hrun : run (iteration R) {} ps = .ok (g, logs))
    (hfresh : Guarded (iteration R) AcceptFresh {} ps) :
    (∀ c conn, g.conns c = some conn → conn.Bounded) ∧
      ∀ turn ∈ logs.flatten, turn.found.Bounded := by
  rcases history_of_run hrun hfresh with ⟨stamps, _, h⟩
  have hserved : ∀ turn ∈ logs.flatten, ∀ s ∈ turn.served, s.response.length ≤ 4 + kMaxMsg := by
    intro turn ht s hs
    rcases iterations_trace hrun with ⟨es, htrace⟩
    rcases htrace.frames turn ht s hs with ⟨payload, hresp, hmax⟩
    rw [hresp, responseFrame, List.length_append, length_le32]
    omega
  constructor
  · intro c conn hc
    exact ⟨length_of_more (h.loopState.settled c conn hc).input, h.outgoing_le hserved c conn hc⟩
  · intro turn ht
    exact ⟨length_of_more (h.found turn ht).1.input, h.found_outgoing_le hserved turn ht⟩

theorem buffers_of_run_quit :
    ∃ g logs, run (iteration noDoubles) {} (oneClientRun quitFrame) = .ok (g, logs) ∧
      (∀ c conn, g.conns c = some conn → conn.Bounded) ∧
      ∀ turn ∈ logs.flatten, turn.found.Bounded := by
  rcases oneClientRun_ok with ⟨g, logs, hrun⟩
  exact ⟨g, logs, hrun, buffers_of_run noDoubles hrun (oneClientRun_fresh _ _)⟩

end RedisServer
