import RedisServer.Theory.Loop.History

/-!
# What Was Read, Executed and Sent

The traffic of one connection over a whole run. The requests that were executed
are those of the bytes that were read, however they were cut into reads, and
whatever turns other connections had in between.

The bytes that were sent are another matter. A turn that executes several
requests keeps the response to the last one only, because the outgoing buffer
is cleared before each. And a connection whose input is refused is destroyed in
the turn that appended the refusal to its output, before anything of that
output is written.

## Main definitions

* `turnsOf`, `received`, `served`, `sent`: The traffic of a connection.
* `StreamCommands`: The commands in a stream.
* `Rejects`: A stream that is refused.
* `OneAtATime`, `Pipelined`: Reads and responses.
* `Answered`: A turn that does not close a connection with output left.

## Theorems

* `History.traffic`: The traffic of every connection, at every moment.
* `commands_of_run`: What was executed.
* `commands_never_executed`: What comes after a command that hangs is not.
* `pipelined_iff`: When every response was sent.
* `answered_iff`: When no output is lost with its connection.
-/

namespace RedisServer

open Lib

/-- The turns of one connection. -/
def turnsOf (log : List Turn) (c : Nat) : List Turn := log.filter fun turn => turn.conn = c

/-- What was read in a series of turns. -/
def received (turns : List Turn) : Bytes := turns.flatMap Turn.received

/-- What was executed in a series of turns. -/
def served (turns : List Turn) : List Served := turns.flatMap Turn.served

/-- What `write` took in a series of turns. -/
def sent (turns : List Turn) : Bytes := turns.flatMap Turn.sent

/-- The commands in a stream: those of its longest prefix that is made of
    complete frames within the limit whose bodies `parse_req` accepts. -/
def StreamCommands (stream : Bytes) (cmds : List (List Bytes)) : Prop :=
  ∃ frames : List Bytes, frames.flatten <+: stream ∧ List.Forall₂ IsFrame frames cmds ∧
    ∀ (frames' : List Bytes) cmds', frames'.flatten <+: stream →
      List.Forall₂ IsFrame frames' cmds' → frames'.flatten.length ≤ frames.flatten.length

/-- The stream comes to a frame that is too long or whose body `parse_req`
    does not accept. -/
def Rejects (stream : Bytes) : Prop := nextRequest (requests.decode stream).2 = .reject

/-- No read completes two requests. -/
def OneAtATime (chunks : List Bytes) : Prop :=
  ∀ pre chunk post, chunks = pre ++ chunk :: post →
    (requests.decode (pre.flatten ++ chunk)).1.length ≤ (requests.decode pre.flatten).1.length + 1

/-- Every request was executed, in order, and its response was sent. -/
def Pipelined (turns : List Turn) (cmds : List (List Bytes)) : Prop :=
  (served turns).map Served.cmd = cmds ∧ sent turns = (served turns).flatMap Served.response

/-- The turn does not destroy its connection while there is output left to
    write, unless the socket failed or the stream ended. -/
def Answered (turn : Turn) : Prop :=
  ∀ conn ∈ turn.closed, turn.ready.Fails ∨ conn.outgoing = []

instance (turns : List Turn) (cmds : List (List Bytes)) : Decidable (Pipelined turns cmds) :=
  inferInstanceAs (Decidable (_ ∧ _))

instance (ready : Ready) : Decidable ready.Fails :=
  inferInstanceAs (Decidable (ready.pollErr = true ∨
    (ready.pollIn = true ∧ (ready.read = .error ∨ ready.read = .data [])) ∨
    (ready.pollOut = true ∧ ∃ rv ∈ ready.writes, rv = .error ∨ rv = .wrote 0)))

instance (turn : Turn) : Decidable (Answered turn) :=
  inferInstanceAs (Decidable (∀ conn ∈ turn.closed, _))

section

variable {R : Runtime} {g : GData} {stamps : List Nat} {log : List Turn} {c : Nat}

theorem turnsOf_append (log log' : List Turn) (c : Nat) :
    turnsOf (log ++ log') c = turnsOf log c ++ turnsOf log' c := List.filter_append ..

theorem turnsOf_self {turn : Turn} (h : turn.conn = c) : turnsOf [turn] c = [turn] := by
  rw [turnsOf, List.filter_cons, if_pos (decide_eq_true h), List.filter_nil]

theorem turnsOf_other {turn : Turn} (h : turn.conn ≠ c) : turnsOf [turn] c = [] := by
  rw [turnsOf, List.filter_cons, if_neg (by rw [decide_eq_true_eq]; exact h), List.filter_nil]

/-- A list with a last element, cut at one of its elements. -/
theorem concat_eq_append_cons {α : Type} {l pre post : List α} {a x : α}
    (h : l ++ [a] = pre ++ x :: post) :
    (l = pre ∧ a = x) ∨ ∃ post', l = pre ++ x :: post' := by
  rcases List.eq_nil_or_concat post with rfl | ⟨post', b, rfl⟩
  · rcases List.append_inj' h rfl with ⟨hl, ha⟩
    rw [List.cons.injEq] at ha
    exact Or.inl ⟨hl, ha.1⟩
  · rw [List.concat_eq_append, ← List.cons_append, ← List.append_assoc] at h
    exact Or.inr ⟨post', (List.append_inj' h rfl).1⟩

/-! ## The traffic of a connection -/

/-- What a turn found after the turns `before` of the same connection, and what
    it did. -/
structure Taken (before : List Turn) (turn : Turn) (conn' : Conn) : Prop where
  settled : Settled turn.found
  input : turn.found.incoming = (requests.decode (received before)).2
  turned : Turned turn.found turn conn'
  closed : (turn.closed = none ∧ conn'.wantClose = false) ∨
    (turn.closed = some conn' ∧ (turn.ready.pollErr = true ∨ conn'.wantClose = true))

/-- What the stream of a connection is decoded to after a turn. -/
theorem Taken.decode {before : List Turn} {turn : Turn} {conn' : Conn}
    (h : Taken before turn conn') : requests.decode (received before ++ turn.received) =
      ((requests.decode (received before)).1 ++ turn.served.map Served.cmd,
        (arrived turn.found turn.received).2) := by
  rw [Framer.decode_append, ← h.input, ← arrived, h.turned.cmds]

/-- The traffic of a connection in the turns it had so far. -/
structure Traffic (turns : List Turn) (g : GData) (c : Nat) : Prop where
  fresh : g.nextConn ≤ c → turns = []
  cmds : (served turns).map Served.cmd = (requests.decode (received turns)).1
  input : ∀ conn, g.conns c = some conn → conn.incoming = (requests.decode (received turns)).2
  output : ∀ conn, g.conns c = some conn →
    sent turns ++ conn.outgoing = turns.flatMap fun turn => lastResponse turn.served []
  taken : ∀ pre turn post, turns = pre ++ turn :: post → ∃ conn', Taken pre turn conn'

/-- The traffic of a connection does not depend on what happens to others. -/
theorem Traffic.congr {g' : GData} {turns : List Turn} (h : Traffic turns g c)
    (hnext : g.nextConn ≤ g'.nextConn)
    (hio : ∀ conn', g'.conns c = some conn' → ∃ conn, g.conns c = some conn ∧
      conn'.incoming = conn.incoming ∧ conn'.outgoing = conn.outgoing) : Traffic turns g' c where
  fresh := fun hle => h.fresh (hnext.trans hle)
  cmds := h.cmds
  input := by
    intro conn' hc'
    rcases hio conn' hc' with ⟨conn, hc, hin, _⟩
    rw [hin]
    exact h.input conn hc
  output := by
    intro conn' hc'
    rcases hio conn' hc' with ⟨conn, hc, _, hout⟩
    rw [hout]
    exact h.output conn hc
  taken := h.taken

theorem traffic_nil {g : GData} (h : ∀ conn, g.conns c = some conn →
    conn.incoming = [] ∧ conn.outgoing = []) : Traffic [] g c where
  fresh := fun _ => rfl
  cmds := rfl
  input := fun conn hc => (h conn hc).1
  output := fun conn hc => (h conn hc).2
  taken := fun _ _ _ hsplit => absurd hsplit (by simp only [List.nil_eq, List.append_eq_nil_iff,
    reduceCtorEq, and_false, not_false_eq_true])

/-- A turn adds to the traffic of its connection. -/
theorem Traffic.turn {g' : GData} {conn conn' : Conn} {turns : List Turn} {turn : Turn}
    {P : Nat → Prop} (h : Traffic turns g c) (hlive : c < g.nextConn) (hc : g.conns c = some conn)
    (hset : Settled conn) (hnext : g.nextConn ≤ g'.nextConn)
    (hmoves : TurnMoves R g g' c conn conn' turn P) : Traffic (turns ++ [turn]) g' c := by
  have hrecv : received (turns ++ [turn]) = received turns ++ turn.received := by
    rw [received, List.flatMap_append, List.flatMap_singleton, received]
  have hserved : served (turns ++ [turn]) = served turns ++ turn.served := by
    rw [served, List.flatMap_append, List.flatMap_singleton, served]
  have hsent : sent (turns ++ [turn]) = sent turns ++ turn.sent := by
    rw [sent, List.flatMap_append, List.flatMap_singleton, sent]
  -- the turn started from the input that was left undecoded
  have htaken : Taken turns turn conn' := by
    have hturned := hmoves.turned
    rw [← hmoves.found] at hset hturned
    refine ⟨hset, ?_, hturned, ?_⟩
    · rw [hmoves.found]
      exact h.input conn hc
    · rcases hmoves.self with ⟨hcl, _, hst⟩ | ⟨hcl, _, hwhy⟩
      · exact Or.inl ⟨hcl, hst⟩
      · exact Or.inr ⟨hcl, hwhy⟩
  -- a connection that stays is not one that is to be closed
  have hkept : ∀ x, g'.conns c = some x → x = conn' ∧ conn'.wantClose = false := by
    intro x hx
    rcases hmoves.self with ⟨_, hself, hst⟩ | ⟨_, hgone, _⟩
    · rw [hself, Option.some.injEq] at hx
      exact ⟨hx.symm, hst⟩
    · rw [hgone] at hx
      cases hx
  -- the commands served are the decoding of what came before and in this turn
  have hdec := htaken.decode
  rw [← hrecv] at hdec
  refine ⟨fun hle => absurd (hnext.trans hle) (Nat.not_le.mpr hlive), ?_, fun x hx => ?_,
    fun x hx => ?_, fun pre t post hsplit => ?_⟩
  · rw [hserved, List.map_append, h.cmds, hdec]
  · rcases hkept x hx with ⟨rfl, hst⟩
    rw [hdec]
    exact (htaken.turned.stays hst).2.1
  · rcases hkept x hx with ⟨rfl, hst⟩
    rw [hsent, List.flatMap_append, List.flatMap_singleton, ← h.output conn hc, List.append_assoc,
      List.append_assoc, (hmoves.turned.stays hst).2.2]
  · rcases concat_eq_append_cons hsplit with ⟨hpre, ht⟩ | ⟨post', hpost⟩
    · rw [← hpre, ← ht]
      exact ⟨conn', htaken⟩
    · exact h.taken pre t post' hpost

/-- The buffers of a connection are those of a record that is the same up to
    its table. -/
theorem buffers_of_io {g g' : GData} (h : (g'.conns c).map Conn.io = (g.conns c).map Conn.io) :
    ∀ conn', g'.conns c = some conn' → ∃ conn, g.conns c = some conn ∧
      conn'.incoming = conn.incoming ∧ conn'.outgoing = conn.outgoing := by
  intro conn' hc'
  rw [hc', Option.map_some, eq_comm, Option.map_eq_some_iff] at h
  rcases h with ⟨conn, hc, hio⟩
  rcases Conn.members hio with ⟨_, _, _, _, hin, hout, _⟩
  exact ⟨conn, hc, hin.symm, hout.symm⟩

/-- The traffic of every connection, at every moment of a run. -/
theorem History.traffic (h : History R stamps log g) (c : Nat) : Traffic (turnsOf log c) g c := by
  induction h with
  | start => exact traffic_nil nofun
  | @accept _ _ g g' connfd now h _ hpos hrun ih =>
      rcases handleAccept_eq hrun hpos with ⟨idle, _, rfl⟩
      -- a new connection has moved nothing yet
      by_cases hcc : c = g.nextConn
      · rw [ih.fresh (Nat.le_of_eq hcc.symm), hcc]
        refine traffic_nil fun conn hc => ?_
        simp only [Function.update_self, Option.some.injEq] at hc
        rw [← hc]
        exact ⟨rfl, rfl⟩
      · refine ih.congr (Nat.le_succ _) fun conn' hc' => ⟨conn', ?_, rfl, rfl⟩
        simp only at hc'
        rw [Function.update_of_ne hcc] at hc'
        exact hc'
  | @turn _ log g g' c₀ conn conn' turn P h hinv hc _ _ hmoves ih =>
      have hnext := hmoves.nextConn
      rw [turnsOf_append]
      -- only the connection that had the turn moves bytes
      by_cases hcc : c = c₀
      · rw [← hcc] at hc hmoves
        rw [turnsOf_self hmoves.given]
        exact ih.turn (hinv.loop.lt_nextConn hc) hc (h.loopState.settled c conn hc)
          (Nat.le_of_eq hnext.symm) hmoves
      · rw [turnsOf_other (by rw [hmoves.given]; exact fun h => hcc h.symm), List.append_nil]
        exact ih.congr (Nat.le_of_eq hnext.symm) (buffers_of_io (hmoves.others hc hinv hcc))
  | @idle _ _ g g' c₀ now conn h hc _ hd ih =>
      refine ih.congr (Nat.le_of_eq hd.nextConn.symm) fun y hy => ⟨y, ?_, rfl, rfl⟩
      rw [hd.conns, Function.update_apply] at hy
      split at hy
      · cases hy
      · exact hy
  | tables h hsame _ ih =>
      exact ih.congr (Nat.le_of_eq hsame.nextConn.symm) (buffers_of_io (hsame.io c))

/-! ## What was executed -/

/-- The request stream splits into the commands of its frames. -/
theorem splits_iff {xs rest : Bytes} {cmds : List (List Bytes)} :
    requests.Splits xs cmds rest ↔
      ∃ frames : List Bytes, xs = frames.flatten ++ rest ∧ List.Forall₂ IsFrame frames cmds := by
  constructor
  · intro h
    induction h with
    | nil xs => exact ⟨[], rfl, List.Forall₂.nil⟩
    | @cons xs rest cmd n cmds hnext _ ih =>
        -- the request the server takes is the frame at the front
        rcases nextRequest_accept_iff.mp hnext with ⟨frame, rest', rfl, hframe, rfl⟩
        rw [List.drop_left] at ih
        rcases ih with ⟨frames, rfl, hframes⟩
        exact ⟨frame :: frames, by rw [List.flatten_cons, List.append_assoc],
          List.Forall₂.cons hframe hframes⟩
  · rintro ⟨frames, rfl, hframes⟩
    induction hframes with
    | nil => exact Framer.Splits.nil _
    | @cons frame cmd frames cmds hframe _ ih =>
        rw [List.flatten_cons, List.append_assoc]
        refine Framer.Splits.cons (nextRequest_accept_iff.mpr ⟨frame, _, rfl, hframe, rfl⟩) ?_
        rw [List.drop_left]
        exact ih

/-- A frame is not empty. -/
theorem IsFrame.length_pos {frame : Bytes} {cmd : List Bytes} (h : IsFrame frame cmd) :
    0 < frame.length := by
  rcases h with ⟨body, rfl, _, _⟩
  rw [List.length_append, length_le32]
  omega

/-- The commands in a stream are those it is decoded to. -/
theorem streamCommands_iff {stream : Bytes} {cmds : List (List Bytes)} :
    StreamCommands stream cmds ↔ cmds = (requests.decode stream).1 := by
  constructor
  · rintro ⟨frames, ⟨rest, rfl⟩, hframes, hlongest⟩
    have hsplit := splits_iff.mpr ⟨frames, Eq.refl (frames.flatten ++ rest), hframes⟩
    refine ((Framer.decode_splits _).unique hsplit (Framer.decode_rest _) ?_).1.symm
    -- One more frame in the rest would make a longer prefix.
    intro cmd n hnext
    rcases nextRequest_accept_iff.mp hnext with ⟨frame, rest', rfl, hframe, _⟩
    have hmore := hlongest (frames ++ [frame]) (cmds ++ [cmd])
      ⟨rest', by rw [List.flatten_append, List.flatten_singleton, List.append_assoc]⟩
      (List.rel_append hframes (List.Forall₂.cons hframe List.Forall₂.nil))
    have hpos := hframe.length_pos
    rw [List.flatten_append, List.flatten_singleton, List.length_append] at hmore
    omega
  · rintro rfl
    have hsplit := Framer.decode_splits (F := requests) stream
    rcases splits_iff.mp hsplit with ⟨frames, hframes, hforall⟩
    refine ⟨frames, ⟨_, hframes.symm⟩, hforall, ?_⟩
    rintro frames' cmds' ⟨rest', hrest'⟩ hforall'
    have hle := (hsplit.longest (Framer.decode_rest _)
      (splits_iff.mpr ⟨frames', hrest'.symm, hforall'⟩)).2
    have hlen := congrArg List.length (hframes.symm.trans hrest'.symm)
    rw [List.length_append, List.length_append] at hlen
    omega

/-- The commands executed for a connection are those of its stream, each once
    and in order, however the stream was cut into reads. What follows a frame
    that is refused is not executed. -/
theorem commands_of_run (R : Runtime) {ps : List PollResult} {logs : List (List Turn)}
    {g : GData} (hrun : run (iteration R) {} ps = .ok (g, logs))
    (hfresh : Guarded (iteration R) AcceptFresh {} ps) (c : Nat) {stream : Bytes}
    (hstream : received (turnsOf logs.flatten c) <+: stream)
    (hend : received (turnsOf logs.flatten c) = stream ∨
      Rejects (received (turnsOf logs.flatten c))) (cmds : List (List Bytes)) :
    StreamCommands stream cmds ↔
      cmds = (served (turnsOf logs.flatten c)).map Served.cmd := by
  rcases history_of_run hrun hfresh with ⟨_, _, h⟩
  rw [streamCommands_iff, (h.traffic c).cmds]
  rcases hend with rfl | hrej
  · exact Iff.rfl
  · rcases hstream with ⟨rest, rfl⟩
    rw [Framer.decode_append, Framer.decode_stuck (F := requests) hrej, List.append_nil]

theorem commands_of_run_quit :
    ∃ g logs, run (iteration noDoubles) {} (oneClientRun quitFrame) = .ok (g, logs) ∧
      (StreamCommands (received (turnsOf logs.flatten 0)) [[ascii "quit"]] ↔
        [[ascii "quit"]] = (served (turnsOf logs.flatten 0)).map Served.cmd) := by
  rcases oneClientRun_ok with ⟨g, logs, hrun⟩
  exact ⟨g, logs, hrun, commands_of_run noDoubles hrun (oneClientRun_fresh _ _) 0
    (List.prefix_refl _) (Or.inl rfl) _⟩

/-- Eight members, the removal of one whose node has two children, a query six
    ranks from the first, and `quit`. -/
def hangingCommands : List (List Bytes) :=
  ([2, 3, 8, 5, 1, 7, 6, 4] : List UInt8).map
      (fun name => [ascii "zadd", ascii "z", ascii "1", [name]]) ++
    [[ascii "zrem", ascii "z", [7]],
      [ascii "zquery", ascii "z", ascii "1", [1], ascii "6", ascii "2"], [ascii "quit"]]

/-- Their frames, one after the other. -/
def hangingStream : Bytes := hangingCommands.flatMap fun cmd => responseFrame (requestBody cmd)

/-- All of these commands are in the stream, and the server does not get to the
    last one: the query before it walks between two nodes for ever. -/
theorem commands_never_executed :
    StreamCommands hangingStream hangingCommands ∧
      run (iteration readsDigits) {} (oneClientRun hangingStream) = .error .noProgress ∧
      ¬ ∃ g logs, run (iteration readsDigits) {} (oneClientRun hangingStream) = .ok (g, logs) ∧
        hangingCommands = (served (turnsOf logs.flatten 0)).map Served.cmd := by
  have hstuck : (run (iteration readsDigits) {} (oneClientRun hangingStream)).map (fun _ => ()) =
      .error .noProgress := by
    decide +kernel
  have hdecode : hangingCommands = (requests.decode hangingStream).1 := by decide +kernel
  have hrun : run (iteration readsDigits) {} (oneClientRun hangingStream) = .error .noProgress := by
    cases h : run (iteration readsDigits) {} (oneClientRun hangingStream) with
    | ok x =>
        rw [h] at hstuck
        cases hstuck
    | error f =>
        rw [h, Except.map, Except.error.injEq] at hstuck
        rw [hstuck]
  refine ⟨streamCommands_iff.mpr hdecode, hrun, ?_⟩
  rintro ⟨g, logs, hok, _⟩
  rw [hrun] at hok
  cases hok

/-! ## What was sent -/

/-- What a series of requests leaves in the outgoing buffer is no longer than
    what was in it and all their responses. -/
theorem length_lastResponse_le (served : List Served) (out : Bytes) :
    (lastResponse served out).length ≤ out.length + (served.flatMap Served.response).length := by
  induction served generalizing out with
  | nil => exact Nat.le_refl _
  | cons s rest ih =>
      have hrest := ih s.response
      rw [lastResponse, List.flatMap_cons, List.length_append]
      omega

/-- The outgoing buffer holds all responses exactly when there was at most one
    request. -/
theorem length_lastResponse_iff {served : List Served} (h : ∀ s ∈ served, s.response ≠ []) :
    (lastResponse served []).length = (served.flatMap Served.response).length ↔
      served.length ≤ 1 := by
  match served with
  | [] => exact ⟨fun _ => Nat.zero_le _, fun _ => rfl⟩
  | [s] =>
      rw [lastResponse, lastResponse, List.flatMap_singleton]
      exact ⟨fun _ => Nat.le_refl _, fun _ => rfl⟩
  | s :: s' :: rest =>
      have hpos := List.length_pos_iff.mpr (h s List.mem_cons_self)
      have hle := length_lastResponse_le rest s'.response
      rw [lastResponse, lastResponse, List.flatMap_cons, List.flatMap_cons, List.length_append,
        List.length_append, List.length_cons, List.length_cons]
      constructor
      · intro heq
        omega
      · intro hlen
        omega

/-- What the turns left in the outgoing buffer, one after the other, are all
    responses exactly when no turn executed two requests. -/
theorem flatMap_lastResponse_iff {turns : List Turn}
    (h : ∀ turn ∈ turns, ∀ s ∈ turn.served, s.response ≠ []) :
    (turns.flatMap fun turn => lastResponse turn.served []) =
        (served turns).flatMap Served.response ↔
      ∀ turn ∈ turns, turn.served.length ≤ 1 := by
  -- a turn never answers more bytes than its commands produced
  have hle : ∀ ts : List Turn, (ts.flatMap fun turn => lastResponse turn.served []).length ≤
      ((served ts).flatMap Served.response).length := by
    intro ts
    induction ts with
    | nil => exact Nat.le_refl _
    | cons t ts ih =>
        have ht := length_lastResponse_le t.served []
        rw [List.length_nil, Nat.zero_add] at ht
        rw [List.flatMap_cons, served, List.flatMap_cons, List.flatMap_append, List.length_append,
          List.length_append]
        exact Nat.add_le_add ht ih
  constructor
  · intro heq
    -- equal streams have equal lengths, so no turn answered less
    have hlen := congrArg List.length heq
    clear heq
    induction turns with
    | nil => exact fun t ht => absurd ht List.not_mem_nil
    | cons t ts ih =>
        have ht := length_lastResponse_le t.served []
        have hts := hle ts
        rw [List.length_nil, Nat.zero_add] at ht
        rw [List.flatMap_cons, served, List.flatMap_cons, List.flatMap_append, List.length_append,
          List.length_append, ← served] at hlen
        have hhead := (length_lastResponse_iff (h t List.mem_cons_self)).mp (by omega)
        have htail := ih (fun t ht => h t (List.mem_cons_of_mem _ ht)) (by omega)
        exact fun t' ht' => (List.mem_cons.mp ht').elim (fun he => he ▸ hhead) (htail t')
  · intro hone
    rw [served, List.flatMap_assoc]
    refine List.flatMap_congr fun t ht => ?_
    have hlen := hone t ht
    cases hs : t.served with
    | nil => rfl
    | cons s rest =>
        rw [hs, List.length_cons] at hlen
        rw [List.length_eq_zero_iff.mp (by omega : rest.length = 0), lastResponse, lastResponse,
          List.flatMap_singleton]

/-- No turn executed two requests exactly when no read completed two. -/
theorem Traffic.oneAtATime_iff {turns : List Turn} (h : Traffic turns g c) :
    (∀ turn ∈ turns, turn.served.length ≤ 1) ↔ OneAtATime (turns.map Turn.received) := by
  -- each turn decodes as many requests more as it serves
  have hcount : ∀ pre turn post, turns = pre ++ turn :: post →
      (requests.decode (received pre ++ turn.received)).1.length =
        (requests.decode (received pre)).1.length + turn.served.length := by
    intro pre turn post hsplit
    rcases h.taken pre turn post hsplit with ⟨conn', htaken⟩
    rw [htaken.decode, List.length_append, List.length_map]
  constructor
  · intro hone pre chunk post hchunks
    rcases List.map_eq_append_iff.mp hchunks with ⟨ts, ts', hts, rfl, hts'⟩
    rcases List.map_eq_cons_iff.mp hts' with ⟨turn, ts'', rfl, rfl, rfl⟩
    have hlen := hone turn (by rw [hts]; exact List.mem_append_right _ List.mem_cons_self)
    rw [← List.flatMap_def, ← received, hcount ts turn ts'' hts]
    omega
  · intro hone turn hturn
    rcases List.append_of_mem hturn with ⟨pre, post, hsplit⟩
    have hle := hone (pre.map Turn.received) turn.received (post.map Turn.received)
      (by rw [hsplit, List.map_append, List.map_cons])
    rw [← List.flatMap_def, ← received, hcount pre turn post hsplit] at hle
    omega

/-- When a connection has sent all its output, it has sent the responses to all
    its requests exactly when no read completed two of them. The outgoing
    buffer is cleared before every request, so of the requests of one read only
    the last is answered. -/
theorem pipelined_iff (R : Runtime) {ps : List PollResult} {logs : List (List Turn)} {g : GData}
    (hrun : run (iteration R) {} ps = .ok (g, logs))
    (hfresh : Guarded (iteration R) AcceptFresh {} ps) {c : Nat} {conn : Conn}
    (hc : g.conns c = some conn) (hout : conn.outgoing = []) {frames : List Bytes}
    {cmds : List (List Bytes)} (hframes : List.Forall₂ IsFrame frames cmds)
    (hread : received (turnsOf logs.flatten c) = frames.flatten) :
    Pipelined (turnsOf logs.flatten c) cmds ↔
      OneAtATime ((turnsOf logs.flatten c).map Turn.received) := by
  rcases history_of_run hrun hfresh with ⟨_, _, h⟩
  have htraffic := h.traffic c
  have hsent := htraffic.output conn hc
  rw [hout, List.append_nil] at hsent
  -- whole frames leave nothing undecoded
  have hcmds : (served (turnsOf logs.flatten c)).map Served.cmd = cmds := by
    rw [htraffic.cmds, hread]
    have hsplit := splits_iff.mpr ⟨frames, Eq.refl (frames.flatten ++ []), hframes⟩
    rw [List.append_nil] at hsplit
    refine congrArg Prod.fst (Framer.decode_eq_iff.mpr ⟨hsplit, fun cmd n hnext => ?_⟩)
    have hb := requests.bound hnext
    rw [List.length_nil] at hb
    omega
  -- every response has its header
  have hresp : ∀ turn ∈ turnsOf logs.flatten c, ∀ s ∈ turn.served, s.response ≠ [] := by
    intro turn hturn
    rcases List.append_of_mem hturn with ⟨pre, post, hsplit⟩
    rcases htraffic.taken pre turn post hsplit with ⟨conn', htaken⟩
    exact htaken.turned.response
  rw [← htraffic.oneAtATime_iff, ← flatMap_lastResponse_iff hresp, ← hsent, Pipelined]
  exact ⟨fun h => h.2, fun h => ⟨hcmds, h⟩⟩

/-- The client of a run has had all its output, and what was read from it are
    these frames. -/
def hadAll (frames : List Bytes) (g : GData) (logs : List (List Turn)) : Bool :=
  match g.conns 0 with
  | some conn => conn.outgoing = [] ∧ received (turnsOf logs.flatten 0) = frames.flatten
  | none => false

theorem exists_of_hadAll {frames : List Bytes} {logs : List (List Turn)}
    (h : hadAll frames g logs = true) : ∃ conn, g.conns 0 = some conn ∧ conn.outgoing = [] ∧
      received (turnsOf logs.flatten 0) = frames.flatten := by
  unfold hadAll at h
  split at h
  · rename_i conn hc
    exact ⟨conn, hc, of_decide_eq_true h⟩
  · exact absurd h Bool.false_ne_true

theorem isFrame_quit : IsFrame quitFrame [ascii "quit"] :=
  ⟨requestBody [ascii "quit"], rfl, by decide, by decide⟩

theorem pipelined_iff_quit :
    ∃ g logs, run (iteration noDoubles) {} (oneClientRun quitFrame) = .ok (g, logs) ∧
      (Pipelined (turnsOf logs.flatten 0) [[ascii "quit"]] ↔
        OneAtATime ((turnsOf logs.flatten 0).map Turn.received)) := by
  have hends : endsIn (iteration noDoubles) (hadAll [quitFrame]) {}
      (oneClientRun quitFrame) = true := by
    decide
  rcases exists_of_endsIn hends with ⟨g, logs, hrun, htest⟩
  rcases exists_of_hadAll htest with ⟨conn, hc, hout, hread⟩
  exact ⟨g, logs, hrun, pipelined_iff noDoubles hrun (oneClientRun_fresh _ _) hc hout
    (List.Forall₂.cons isFrame_quit List.Forall₂.nil) hread⟩

/-- Two requests in one read: the first response is lost. -/
theorem pipelined_lost :
    ∃ g logs conn, run (iteration noDoubles) {} (oneClientRun (quitFrame ++ quitFrame)) =
        .ok (g, logs) ∧ g.conns 0 = some conn ∧ conn.outgoing = [] ∧
      received (turnsOf logs.flatten 0) = [quitFrame, quitFrame].flatten ∧
      List.Forall₂ IsFrame [quitFrame, quitFrame] [[ascii "quit"], [ascii "quit"]] ∧
      ¬ Pipelined (turnsOf logs.flatten 0) [[ascii "quit"], [ascii "quit"]] := by
  have hends : endsIn (iteration noDoubles) (fun g logs =>
      hadAll [quitFrame, quitFrame] g logs &&
        decide (¬ Pipelined (turnsOf logs.flatten 0) [[ascii "quit"], [ascii "quit"]])) {}
      (oneClientRun (quitFrame ++ quitFrame)) = true := by
    decide
  rcases exists_of_endsIn hends with ⟨g, logs, hrun, htest⟩
  rw [Bool.and_eq_true, decide_eq_true_eq] at htest
  rcases exists_of_hadAll htest.1 with ⟨conn, hc, hout, hread⟩
  exact ⟨g, logs, conn, hrun, hc, hout, hread, List.Forall₂.cons isFrame_quit
    (List.Forall₂.cons isFrame_quit List.Forall₂.nil), htest.2⟩

/-! ## What is lost with its connection -/

/-- A turn destroys its connection with output left exactly when it read a
    frame that is refused, unless there was an error on the socket. The refusal
    asks for the connection to be closed, which happens at the end of the turn,
    before its output can be written. -/
theorem Taken.whole_iff {before : List Turn} {turn : Turn} {conn' : Conn}
    (h : Taken before turn conn') :
    Answered turn ↔ turn.ready.pollErr = true ∨ ¬ Rejects (received before ++ turn.received) := by
  rw [Rejects, h.decode]
  have hturned := h.turned
  constructor
  · intro hans
    by_contra hnot
    rw [not_or, not_not] at hnot
    rcases hturned.refusal hnot.2 with ⟨hclose, hout⟩
    have hclosed : turn.closed = some conn' := by
      rcases h.closed with ⟨_, hst⟩ | ⟨hcl, _⟩
      · exact absurd (hst.symm.trans hclose) Bool.false_ne_true
      · exact hcl
    -- a refusal needs new bytes, since the input that was there is not refused
    have hnothing : turn.received ≠ [] := by
      intro hrecv
      have hmore := hnot.2
      rw [hrecv, arrived_nil h.settled.input, h.settled.input] at hmore
      cases hmore
    rw [Turn.received] at hnothing
    by_cases hin : turn.ready.pollIn = true
    · rw [if_pos hin] at hnothing
      -- so the read did not end the connection, and no write can have failed
      rcases hans conn' hclosed with (herr | ⟨_, hend⟩ | ⟨hpoll, _⟩) | hempty
      · exact hnot.1 herr
      · rcases hend with hend | hend
        · exact hnothing (by rw [hend]; rfl)
        · exact hnothing (by rw [hend]; rfl)
      · rw [hturned.oneWay hin] at hpoll
        cases hpoll
      · exact hout hempty
    · rw [if_neg hin] at hnothing
      exact hnothing rfl
  · intro hcond conn hcl
    rcases h.closed with ⟨hnone, _⟩ | ⟨hsome, hwhy⟩
    · rw [Option.mem_def, hnone] at hcl
      cases hcl
    · rcases hwhy with herr | hclose
      · exact Or.inl (Or.inl herr)
      · rcases hturned.closes hclose with hfails | hrej
        · exact Or.inl hfails
        · exact Or.inl (Or.inl (hcond.resolve_right (not_not.mpr hrej)))

/-- A connection is never destroyed with output left to write, except for
    errors, exactly when none of its turns reads a frame that is refused. -/
theorem answered_iff (R : Runtime) {ps : List PollResult} {logs : List (List Turn)} {g : GData}
    (hrun : run (iteration R) {} ps = .ok (g, logs))
    (hfresh : Guarded (iteration R) AcceptFresh {} ps) (c : Nat) :
    (∀ turn ∈ turnsOf logs.flatten c, Answered turn) ↔
      ∀ pre turn post, turnsOf logs.flatten c = pre ++ turn :: post →
        turn.ready.pollErr = true ∨ ¬ Rejects (received pre ++ turn.received) := by
  rcases history_of_run hrun hfresh with ⟨_, _, h⟩
  have htraffic := h.traffic c
  constructor
  · intro hans pre turn post hsplit
    rcases htraffic.taken pre turn post hsplit with ⟨conn', htaken⟩
    refine htaken.whole_iff.mp (hans turn ?_)
    rw [hsplit]
    exact List.mem_append_right _ List.mem_cons_self
  · intro hcond turn hturn
    rcases List.append_of_mem hturn with ⟨pre, post, hsplit⟩
    rcases htraffic.taken pre turn post hsplit with ⟨conn', htaken⟩
    exact htaken.whole_iff.mpr (hcond pre turn post hsplit)

theorem answered_iff_quit :
    ∃ g logs, run (iteration noDoubles) {} (oneClientRun quitFrame) = .ok (g, logs) ∧
      ((∀ turn ∈ turnsOf logs.flatten 0, Answered turn) ↔
        ∀ pre turn post, turnsOf logs.flatten 0 = pre ++ turn :: post →
          turn.ready.pollErr = true ∨ ¬ Rejects (received pre ++ turn.received)) := by
  rcases oneClientRun_ok with ⟨g, logs, hrun⟩
  exact ⟨g, logs, hrun, answered_iff noDoubles hrun (oneClientRun_fresh _ _) 0⟩

/-- A header that announces too much: the client never sees the error. -/
theorem answered_lost :
    ∃ g logs, run (iteration noDoubles) {} (oneClientRun [255, 255, 255, 255]) = .ok (g, logs) ∧
      ∃ turn ∈ turnsOf logs.flatten 0, ¬ Answered turn := by
  have hends : endsIn (iteration noDoubles) (fun _ logs =>
      decide (∃ turn ∈ turnsOf logs.flatten 0, ¬ Answered turn)) {}
      (oneClientRun [255, 255, 255, 255]) = true := by
    decide
  rcases exists_of_endsIn hends with ⟨g, logs, hrun, htest⟩
  exact ⟨g, logs, hrun, of_decide_eq_true htest⟩

end

end RedisServer
