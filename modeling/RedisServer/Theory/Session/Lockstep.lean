import RedisServer.Theory.Session.Channel

/-!
# Commands and Answers

A client sends its next command when it has read the response to the last one.
So no read of the server completes two requests, nothing is queued behind a
response, and what can be lost under pipelining is not lost here: of any number
of clients, each reads the responses to its own commands, in order and each
once, however the bytes are cut and whatever the others do in between.

The invariant follows a command along its way. It is in the client, on its way
up, executed, or answered, and its response is in the outgoing buffer, on its
way down, or in the client's hands.

## Main definitions

* `Client.Staged`: Where a client is, against what it sent and read.
* `Lockstep`: The invariant of one connection.
* `SessionInv`: The invariant of a session.

## Theorems

* `Lockstep.pending`: What is between the server and the client.
* `Lockstep.query`, `Lockstep.write`, `Lockstep.read`, `Lockstep.serve`: The
  steps.
* `lockstep_of_run`: Every run of the session.
-/

namespace RedisServer

open Lib

/-- Where a client is, against how many commands it sent and how many responses
    it read. -/
def Client.Staged (k : Client) : Prop :=
  match k.stage with
  | .ready | .gone => k.issued.length = k.answers.length
  | .writing rest => rest ≠ [] ∧ k.issued.length = k.answers.length + 1
  | .header got => got.length < 4 ∧ k.issued.length = k.answers.length + 1
  | .payload header got =>
    got.length < leNat header ∧ header.length = 4 ∧ k.issued.length = k.answers.length + 1

/-- A connection with the turns it had: every byte of every command and of
    every response is accounted for, and the responses the client read are
    those to its first commands. -/
structure Lockstep (turns : List Turn) (k : Client) : Prop where
  frames : ∀ cmd ∈ k.issued, IsFrame (requestFrame cmd) cmd
  up : received turns ++ (k.up ++ k.unsent) = k.issued.flatMap requestFrame
  down : sent turns = k.answers.flatMap Response.bytes ++ (k.got ++ k.down)
  staged : k.Staged
  single : ∀ turn ∈ turns, turn.served.length ≤ 1
  replies : ∀ s ∈ served turns,
    ∃ payload, s.response = responseFrame payload ∧ payload.length ≤ kMaxMsg
  heard : k.answers.map Response.bytes =
    ((served turns).take k.answers.length).map Served.response
  said : ∀ a ∈ k.answers, ∀ reads, Delivering reads → reads.flatMap SockRead.bytes = a.bytes →
    readResponse reads = .ok a.rv

/-- What is taken off the front, and what is left when its length is dropped. -/
theorem take_append_drop_length (xs : Bytes) (n : Nat) :
    xs.take n ++ xs.drop (xs.take n).length = xs := by
  rw [List.length_take]
  by_cases h : n ≤ xs.length
  · rw [Nat.min_eq_left h, List.take_append_drop]
  · rw [Nat.min_eq_right (Nat.le_of_not_le h), List.drop_length, List.append_nil,
      List.take_of_length_le (Nat.le_of_not_le h)]

theorem lockstep_init : Lockstep [] {} where
  frames := fun _ h => absurd h List.not_mem_nil
  up := rfl
  down := rfl
  staged := rfl
  single := fun _ h => absurd h List.not_mem_nil
  replies := fun _ h => absurd h List.not_mem_nil
  heard := rfl
  said := fun _ h => absurd h List.not_mem_nil

namespace Lockstep

variable {R : Runtime} {g : GData} {stamps : List Nat} {log : List Turn} {c : Nat}
  {turns : List Turn} {k k' : Client}

/-- The client is at most one command ahead of the responses. -/
theorem ahead (h : Lockstep turns k) : k.answers.length ≤ k.issued.length ∧
    k.issued.length ≤ k.answers.length + 1 := by
  have hstaged := h.staged
  unfold Client.Staged at hstaged
  split at hstaged <;> omega

/-- The responses that were read are to commands that were executed. -/
theorem answered_le (h : Lockstep turns k) : k.answers.length ≤ (served turns).length := by
  have hlen := congrArg List.length h.heard
  rw [List.length_map, List.length_map, List.length_take] at hlen
  omega

/-- The commands that were executed are the first of those that were sent. -/
theorem served_prefix (h : Lockstep (turnsOf log c) k) (hist : History R stamps log g) :
    (served (turnsOf log c)).map Served.cmd <+: k.issued := by
  rw [(hist.traffic c).cmds]
  exact decode_front h.frames h.up

theorem served_le (h : Lockstep (turnsOf log c) k) (hist : History R stamps log g) :
    (served (turnsOf log c)).length ≤ k.issued.length := by
  have hle := (h.served_prefix hist).length_le
  rw [List.length_map] at hle
  exact hle

/-- What turns of at most one request each leave to send are the responses. -/
theorem responses (h : Lockstep turns k) :
    (turns.flatMap fun turn => lastResponse turn.served []) =
      (served turns).flatMap Served.response := by
  refine (flatMap_lastResponse_iff fun turn ht s hs => ?_).mpr h.single
  rcases h.replies s (List.mem_flatMap.mpr ⟨turn, ht, hs⟩) with ⟨payload, hresp, _⟩
  intro hnil
  have hlen := congrArg List.length (hresp.symm.trans hnil)
  rw [responseFrame, List.length_append, length_le32, List.length_nil] at hlen
  omega

/-- What the client has of the response in progress, what is on its way, and
    what the server still has to write are the responses that were not read. -/
theorem pending (h : Lockstep (turnsOf log c) k) (hist : History R stamps log g) :
    ∃ out, k.got ++ (k.down ++ out) =
        ((served (turnsOf log c)).drop k.answers.length).flatMap Served.response ∧
      ∀ conn, g.conns c = some conn → conn.outgoing = out := by
  rcases hist.sent_prefix c with ⟨out, hout⟩
  refine ⟨out, ?_, fun conn hc => ?_⟩
  · rw [h.responses] at hout
    have hsplit : (served (turnsOf log c)).flatMap Served.response =
        ((served (turnsOf log c)).take k.answers.length).flatMap Served.response ++
          ((served (turnsOf log c)).drop k.answers.length).flatMap Served.response := by
      rw [← List.flatMap_append, List.take_append_drop]
    rw [hsplit, h.down, List.flatMap_def, h.heard, ← List.flatMap_def, List.append_assoc,
      List.append_assoc] at hout
    exact List.append_cancel_left hout
  · have hlive := (hist.traffic c).output conn hc
    exact List.append_cancel_left (hlive.trans hout.symm)

/-- At most one response was not read, and it is a frame. -/
theorem next (h : Lockstep (turnsOf log c) k) (hist : History R stamps log g) :
    (served (turnsOf log c)).drop k.answers.length = [] ∨
      ∃ s payload, (served (turnsOf log c)).drop k.answers.length = [s] ∧
        s.response = responseFrame payload ∧ payload.length ≤ kMaxMsg := by
  have hle := h.served_le hist
  have hahead := h.ahead
  rcases hdrop : (served (turnsOf log c)).drop k.answers.length with _ | ⟨s, rest⟩
  · exact Or.inl rfl
  · have hlen := congrArg List.length hdrop
    rw [List.length_drop, List.length_cons] at hlen
    have hrest : rest = [] := List.length_eq_zero_iff.mp (by omega)
    have hmem : s ∈ served (turnsOf log c) := by
      refine List.mem_of_mem_drop (i := k.answers.length) ?_
      rw [hdrop]
      exact List.mem_cons_self
    rcases h.replies s hmem with ⟨payload, hresp, hmax⟩
    exact Or.inr ⟨s, payload, by rw [hrest], hresp, hmax⟩

/-! ## The steps of a client -/

/-- A command is sent. -/
theorem query (h : Lockstep turns k) {cmd : List Bytes} (hargs : cmd.length ≤ kMaxArgs)
    (hrun : k.query cmd = .ok k') : Lockstep turns k' := by
  rw [Client.query] at hrun
  cases hstage : k.stage with
  | ready =>
      simp only [hstage] at hrun
      rcases bind_eq_ok.mp hrun with ⟨frame?, hsend, hrun⟩
      cases frame? with
      | none =>
          rw [Except.ok.injEq] at hrun
          rw [← hrun]
          exact h
      | some frame =>
          rw [Except.ok.injEq] at hrun
          rcases (sendRequest_iff cmd frame).mp hsend with ⟨hmax, hframe⟩
          have hcmd : IsFrame (requestFrame cmd) cmd :=
            ⟨_, rfl, hmax, (parse_body_iff hmax).mpr ⟨rfl, hargs⟩⟩
          have hup := h.up
          have hdown := h.down
          have hstaged := h.staged
          simp only [Client.unsent, hstage, List.append_nil] at hup
          simp only [Client.got, hstage] at hdown
          simp only [Client.Staged, hstage] at hstaged
          rw [← hrun]
          refine ⟨fun cmd' hcmd' => ?_, ?_, hdown, ?_, h.single, h.replies, h.heard, h.said⟩
          · rcases List.mem_append.mp hcmd' with hold | hnew
            · exact h.frames cmd' hold
            · rw [List.mem_singleton.mp hnew]
              exact hcmd
          · simp only [Client.unsent]
            rw [← List.append_assoc, hup, List.flatMap_append, List.flatMap_singleton, hframe]
            rfl
          · refine ⟨?_, ?_⟩
            · intro hnil
              have hlen := congrArg List.length (hframe.symm.trans hnil)
              rw [List.length_append, length_le32, List.length_nil] at hlen
              omega
            · rw [List.length_append, List.length_singleton, hstaged]
  | writing rest | header got | payload header got | gone =>
      simp only [hstage, Except.ok.injEq] at hrun
      rw [← hrun]
      exact h

/-- A line is split and sent. -/
theorem line (h : Lockstep turns k) {input : Bytes}
    (hargs : ∀ cmd, tokenize input = .ok cmd → cmd.length ≤ kMaxArgs)
    (hrun : k.line input = .ok k') : Lockstep turns k' := by
  rw [Client.line] at hrun
  cases hstage : k.stage with
  | ready =>
      simp only [hstage] at hrun
      rcases bind_eq_ok.mp hrun with ⟨cmd, htok, hrun⟩
      exact h.query (hargs cmd htok) hrun
  | writing rest | header got | payload header got | gone =>
      simp only [hstage, Except.ok.injEq] at hrun
      rw [← hrun]
      exact h

/-- Bytes of the frame go on their way. -/
theorem write (h : Lockstep turns k) (n : Nat) : Lockstep turns (k.write n) := by
  rw [Client.write]
  cases hstage : k.stage with
  | writing rest =>
      have hup := h.up
      have hdown := h.down
      have hstaged := h.staged
      simp only [Client.unsent, hstage] at hup
      simp only [Client.got, hstage] at hdown
      simp only [Client.Staged, hstage] at hstaged
      have hcut : k.up ++ rest = k.up ++ rest.take n ++ rest.drop n := by
        rw [List.append_assoc, List.take_append_drop]
      rw [hcut] at hup
      -- the last byte of the frame starts the wait for the response
      by_cases hdone : rest.drop n = []
      · rw [hdone, List.append_nil] at hup
        simp only [if_pos hdone]
        refine ⟨h.frames, ?_, hdown, ⟨by decide, hstaged.2⟩, h.single, h.replies, h.heard,
          h.said⟩
        simp only [Client.unsent, List.append_nil]
        exact hup
      · simp only [if_neg hdone]
        exact ⟨h.frames, hup, hdown, ⟨hdone, hstaged.2⟩, h.single, h.replies, h.heard,
          h.said⟩
  | ready | header got | payload header got | gone =>
      simp only
      exact h

/-- The socket is closed. -/
theorem hangUp (h : Lockstep turns k) : Lockstep turns k.hangUp := by
  rw [Client.hangUp]
  cases hstage : k.stage with
  | ready =>
      have hup := h.up
      have hdown := h.down
      have hstaged := h.staged
      simp only [Client.unsent, hstage] at hup
      simp only [Client.got, hstage] at hdown
      simp only [Client.Staged, hstage] at hstaged
      exact ⟨h.frames, hup, hdown, hstaged, h.single, h.replies, h.heard, h.said⟩
  | writing rest | header got | payload header got | gone =>
      simp only
      exact h

/-- The response to the next command was read: the client is done with that
    command. -/
theorem finish (h : Lockstep turns k) (hwaits : k.issued.length = k.answers.length + 1)
    (hunsent : k.unsent = []) {down : Bytes} {a : Response} {s : Served}
    (hbytes : k.got ++ k.down = a.bytes ++ down)
    (hs : (served turns).drop k.answers.length = [s]) (ha : a.bytes = s.response)
    (hsaid : ∀ reads, Delivering reads → reads.flatMap SockRead.bytes = a.bytes →
      readResponse reads = .ok a.rv) :
    Lockstep turns (({ k with down := down } : Client).finish a.bytes a.rv) := by
  have hup := h.up
  rw [hunsent] at hup
  have hlen : k.issued.length = (k.answers ++ [a]).length := by
    rw [List.length_append, List.length_singleton, hwaits]
  have hdown : sent turns = (k.answers ++ [a]).flatMap Response.bytes ++ ([] ++ down) := by
    rw [h.down, hbytes, List.flatMap_append, List.flatMap_singleton, List.nil_append,
      List.append_assoc]
  have hheard : (k.answers ++ [a]).map Response.bytes =
      ((served turns).take (k.answers ++ [a]).length).map Served.response := by
    rw [List.length_append, List.length_singleton, List.map_append, List.map_singleton, h.heard, ha,
      List.take_add, List.map_append, hs]
    rfl
  have hall : ∀ b ∈ k.answers ++ [a], ∀ reads, Delivering reads →
      reads.flatMap SockRead.bytes = b.bytes → readResponse reads = .ok b.rv := by
    intro b hb
    rcases List.mem_append.mp hb with hold | hnew
    · exact h.said b hold
    · rw [List.mem_singleton.mp hnew]
      exact hsaid
  rw [Client.finish]
  by_cases hquits : k.quits = true ∧ 0 ≤ a.rv
  · simp only [if_pos hquits]
    exact ⟨h.frames, hup, hdown, hlen, h.single, h.replies, hheard, hall⟩
  · simp only [if_neg hquits]
    exact ⟨h.frames, hup, hdown, hlen, h.single, h.replies, hheard, hall⟩

/-- The header of a response has arrived: it is the header of the response to
    the next command. -/
theorem arrived (h : Lockstep (turnsOf log c) k) (hist : History R stamps log g)
    {header rest : Bytes} (hheader : header.length = 4) (hbytes : k.got ++ k.down = header ++ rest) :
    ∃ s payload, (served (turnsOf log c)).drop k.answers.length = [s] ∧
      s.response = header ++ payload ∧ header = le32 payload.length ∧ rest <+: payload ∧
      payload.length ≤ kMaxMsg := by
  rcases h.pending hist with ⟨out, hpend, _⟩
  rw [← List.append_assoc, hbytes, List.append_assoc] at hpend
  rcases h.next hist with hnone | ⟨s, payload, hs, hresp, hmax⟩
  · have hlen := congrArg List.length hpend
    rw [hnone, List.flatMap_nil, List.length_append, List.length_nil] at hlen
    omega
  · rw [hs, List.flatMap_singleton, hresp, responseFrame] at hpend
    have hhead := List.append_inj_left hpend (by rw [hheader, length_le32])
    have hbody := List.append_inj_right hpend (by rw [hheader, length_le32])
    exact ⟨s, payload, hs, by rw [hresp, hhead]; rfl, hhead, ⟨out, hbody⟩, hmax⟩

/-- A response has arrived in full, and is printed. -/
theorem print (h : Lockstep (turnsOf log c) k) (hist : History R stamps log g)
    (hwaits : k.issued.length = k.answers.length + 1) (hunsent : k.unsent = [])
    {header payload down : Bytes} (hheader : header.length = 4)
    (hpayload : payload.length = leNat header)
    (hbytes : k.got ++ k.down = header ++ (payload ++ down))
    (hrun : ({ k with down := down } : Client).print header payload = .ok k') :
    Lockstep (turnsOf log c) k' := by
  rcases bind_eq_ok.mp hrun with ⟨rv, hprint, hrun⟩
  rw [Except.ok.injEq] at hrun
  rcases h.arrived hist hheader hbytes with ⟨s, whole, hs, hresp, hhead, ⟨rest, hrest⟩, hmax⟩
  -- the payload is as long as the one the header announces
  have hlen : payload.length = whole.length := by
    rw [hpayload, hhead, leNat_le32 (Nat.lt_of_le_of_lt hmax (by decide))]
  rw [List.append_assoc] at hrest
  have hwhole : payload = whole :=
    List.append_inj_left (hrest.trans (List.append_nil whole).symm) hlen
  rw [← hwhole] at hresp hhead hmax
  rw [← hrun]
  refine h.finish (a := ⟨header ++ payload, if 0 < rv ∧ rv ≠ payload.length then -1 else rv⟩)
    hwaits hunsent ?_ hs hresp.symm ?_
  · rw [hbytes, List.append_assoc]
  · intro reads hreads hread
    rw [hhead] at hread
    rw [readResponse_whole hmax hreads hread, hprint, ok_bind]

/-- The length of a response is stored. The server sent it, so it is no more
    than the limit. -/
theorem headed (h : Lockstep (turnsOf log c) k) (hist : History R stamps log g)
    (hwaits : k.issued.length = k.answers.length + 1) (hunsent : k.unsent = [])
    {header down : Bytes} (hheader : header.length = 4)
    (hbytes : k.got ++ k.down = header ++ down)
    (hrun : ({ k with down := down } : Client).headed header = .ok k') :
    Lockstep (turnsOf log c) k' := by
  rcases h.arrived hist hheader hbytes with ⟨s, payload, hs, hresp, hhead, _, hmax⟩
  have hvalue : leNat header = payload.length := by
    rw [hhead, leNat_le32 (Nat.lt_of_le_of_lt hmax (by decide))]
  rw [Client.headed, if_neg (by rw [hvalue]; exact Nat.not_lt.mpr hmax)] at hrun
  by_cases hempty : leNat header = 0
  · rw [if_pos hempty] at hrun
    have hnil : ([] : Bytes).length = leNat header := hempty.symm
    exact h.print hist hwaits hunsent hheader hnil hbytes hrun
  · have hup := h.up
    have hdown := h.down
    rw [hunsent] at hup
    rw [hbytes] at hdown
    rw [if_neg hempty, Except.ok.injEq] at hrun
    rw [← hrun]
    refine ⟨h.frames, hup, ?_, ⟨Nat.pos_of_ne_zero hempty, hheader, hwaits⟩, h.single, h.replies,
      h.heard, h.said⟩
    simp only [Client.got, List.append_nil]
    exact hdown

/-- Bytes of the response are read. -/
theorem read (h : Lockstep (turnsOf log c) k) (hist : History R stamps log g) {n : Nat}
    (hrun : k.read n = .ok k') : Lockstep (turnsOf log c) k' := by
  have hup := h.up
  have hdown := h.down
  have hstaged := h.staged
  rw [Client.read] at hrun
  cases hstage : k.stage with
  | header got =>
      have hgot : k.got = got := by simp only [Client.got, hstage]
      have hunsent : k.unsent = [] := by simp only [Client.unsent, hstage]
      simp only [Client.Staged, hstage] at hstaged
      simp only [hstage] at hrun
      -- the bytes of this read, and those that stay on their way
      obtain ⟨bs, hbs⟩ : ∃ bs, bs = k.down.take (min n (4 - got.length)) := ⟨_, rfl⟩
      have hsplit : bs ++ k.down.drop bs.length = k.down := by
        rw [hbs, take_append_drop_length]
      have hlen : (got ++ bs).length ≤ 4 := by
        rw [List.length_append, hbs, List.length_take]
        omega
      rw [← hbs] at hrun
      rw [hunsent] at hup
      rw [hgot, ← hsplit, ← List.append_assoc got] at hdown
      by_cases hmore : (got ++ bs).length < 4
      · rw [if_pos hmore, Except.ok.injEq] at hrun
        rw [← hrun]
        exact ⟨h.frames, hup, hdown, ⟨hmore, hstaged.2⟩, h.single, h.replies, h.heard, h.said⟩
      · rw [if_neg hmore] at hrun
        have hheader : (got ++ bs).length = 4 := by omega
        have hbytes : k.got ++ k.down = (got ++ bs) ++ k.down.drop bs.length := by
          rw [hgot, List.append_assoc, hsplit]
        exact h.headed hist hstaged.2 hunsent hheader hbytes hrun
  | payload header got =>
      have hgot : k.got = header ++ got := by simp only [Client.got, hstage]
      have hunsent : k.unsent = [] := by simp only [Client.unsent, hstage]
      simp only [Client.Staged, hstage] at hstaged
      simp only [hstage] at hrun
      obtain ⟨bs, hbs⟩ : ∃ bs, bs = k.down.take (min n (leNat header - got.length)) := ⟨_, rfl⟩
      have hsplit : bs ++ k.down.drop bs.length = k.down := by
        rw [hbs, take_append_drop_length]
      have hlen : (got ++ bs).length ≤ leNat header := by
        rw [List.length_append, hbs, List.length_take]
        omega
      rw [← hbs] at hrun
      rw [hunsent] at hup
      have hbytes : k.got ++ k.down = header ++ ((got ++ bs) ++ k.down.drop bs.length) := by
        rw [hgot, List.append_assoc, List.append_assoc, hsplit]
      by_cases hmore : (got ++ bs).length < leNat header
      · rw [if_pos hmore, Except.ok.injEq] at hrun
        rw [hbytes, ← List.append_assoc header] at hdown
        rw [← hrun]
        exact ⟨h.frames, hup, hdown, ⟨hmore, hstaged.2⟩, h.single, h.replies, h.heard, h.said⟩
      · rw [if_neg hmore] at hrun
        exact h.print hist hstaged.2.2 hunsent hstaged.2.1 (by omega) hbytes hrun
  | ready | writing rest | gone =>
      simp only [hstage, Except.ok.injEq] at hrun
      rw [← hrun]
      exact h

/-! ## The steps of the server -/

/-- The server has an iteration. -/
theorem serve (h : Lockstep (turnsOf log c) k) {new : List Turn}
    (hist : History R stamps (log ++ new) g) (hmeets : k.MeetsAll (turnsOf new c))
    (hframes : ∀ turn ∈ new, ∀ s ∈ turn.served,
      ∃ payload, s.response = responseFrame payload ∧ payload.length ≤ kMaxMsg) :
    Lockstep (turnsOf (log ++ new) c) ((turnsOf new c).foldl Client.turn k) := by
  have htraffic := hist.traffic c
  have hnew : ∀ turn ∈ turnsOf new c, turn ∈ new := fun turn ht => (List.mem_filter.mp ht).1
  rcases Client.after_turns hmeets with ⟨up, hup, hrun⟩
  rw [hrun]
  rw [turnsOf_append] at htraffic ⊢
  have hserved : served (turnsOf log c ++ turnsOf new c) =
      served (turnsOf log c) ++ served (turnsOf new c) := List.flatMap_append
  have hreceived : received (turnsOf log c ++ turnsOf new c) ++ (up ++ k.unsent) =
      k.issued.flatMap requestFrame := by
    rw [received, List.flatMap_append, ← h.up, ← hup, ← received, ← received, List.append_assoc,
      List.append_assoc]
  have hcount : (served (turnsOf new c)).length ≤ 1 := by
    -- what was read is the front of what the client wrote
    have hle := (decode_front h.frames hreceived).length_le
    rw [← htraffic.cmds, List.length_map, hserved, List.length_append] at hle
    have hahead := h.ahead
    have hans := h.answered_le
    omega
  refine ⟨h.frames, hreceived, ?_, h.staged, fun turn ht => ?_, fun s hs => ?_, ?_, h.said⟩
  · rw [sent, List.flatMap_append, ← sent, ← sent, h.down]
    simp only [Client.got, List.append_assoc]
  · rcases List.mem_append.mp ht with hold | ht
    · exact h.single turn hold
    · rcases List.append_of_mem ht with ⟨pre, post, hsplit⟩
      rw [hsplit, served, List.flatMap_append, List.flatMap_cons, List.length_append,
        List.length_append] at hcount
      omega
  · rw [hserved] at hs
    rcases List.mem_append.mp hs with hold | hmem
    · exact h.replies s hold
    · rcases List.mem_flatMap.mp hmem with ⟨turn, ht, hs⟩
      exact hframes turn (hnew turn ht) s hs
  · rw [hserved, List.take_append_of_le_length h.answered_le]
    exact h.heard

end Lockstep

/-! ## Calls that go wrong -/

namespace Client

variable {k k' : Client}

theorem print_broken {header payload : Bytes} (hrun : k.print header payload = .ok k') :
    k'.broken = k.broken := by
  rcases bind_eq_ok.mp hrun with ⟨rv, _, hrun⟩
  rw [Except.ok.injEq] at hrun
  rw [← hrun]
  rfl

theorem headed_broken {header : Bytes} (hrun : k.headed header = .ok k') :
    k'.broken = k.broken := by
  rw [headed] at hrun
  by_cases hbig : kMaxMsg < leNat header
  · rw [if_pos hbig, Except.ok.injEq] at hrun
    rw [← hrun]
    rfl
  · rw [if_neg hbig] at hrun
    by_cases hempty : leNat header = 0
    · rw [if_pos hempty] at hrun
      exact print_broken hrun
    · rw [if_neg hempty, Except.ok.injEq] at hrun
      rw [← hrun]

theorem query_broken {cmd : List Bytes} (hrun : k.query cmd = .ok k') : k'.broken = k.broken := by
  rw [query] at hrun
  cases hstage : k.stage with
  | ready =>
      simp only [hstage] at hrun
      rcases bind_eq_ok.mp hrun with ⟨frame?, _, hrun⟩
      cases frame? with
      | none | some frame =>
          rw [Except.ok.injEq] at hrun
          rw [← hrun]
  | writing rest | header got | payload header got | gone =>
      simp only [hstage, Except.ok.injEq] at hrun
      rw [← hrun]

theorem line_broken {input : Bytes} (hrun : k.line input = .ok k') : k'.broken = k.broken := by
  rw [line] at hrun
  cases hstage : k.stage with
  | ready =>
      simp only [hstage] at hrun
      rcases bind_eq_ok.mp hrun with ⟨cmd, _, hrun⟩
      exact query_broken hrun
  | writing rest | header got | payload header got | gone =>
      simp only [hstage, Except.ok.injEq] at hrun
      rw [← hrun]

theorem write_broken (k : Client) (n : Nat) : (k.write n).broken = k.broken := by
  rw [write]
  cases k.stage with
  | ready | writing rest | header got | payload header got | gone => rfl

theorem read_broken {n : Nat} (hrun : k.read n = .ok k') : k'.broken = k.broken := by
  rw [read] at hrun
  cases hstage : k.stage with
  | header got =>
      simp only [hstage] at hrun
      split at hrun
      · rw [Except.ok.injEq] at hrun
        rw [← hrun]
      · have hsame := headed_broken hrun
        exact hsame
  | payload header got =>
      simp only [hstage] at hrun
      split at hrun
      · rw [Except.ok.injEq] at hrun
        rw [← hrun]
      · have hsame := print_broken hrun
        exact hsame
  | ready | writing rest | gone =>
      simp only [hstage, Except.ok.injEq] at hrun
      rw [← hrun]

theorem hangUp_broken (k : Client) : k.hangUp.broken = k.broken := by
  rw [hangUp]
  cases k.stage with
  | ready | writing rest | header got | payload header got | gone => rfl

theorem turns_broken (k : Client) (turns : List Turn) :
    (turns.foldl turn k).broken = k.broken := by
  induction turns generalizing k with
  | nil => rfl
  | cons t turns ih => exact ih _

/-- A client for which nothing went wrong was not at the end of the stream. -/
theorem readEof_same (hrun : k.readEof = .ok k') (hb : k'.broken = false) : k' = k := by
  rw [readEof] at hrun
  cases hstage : k.stage with
  | header got =>
      simp only [hstage] at hrun
      rw [headed_broken hrun] at hb
      cases hb
  | payload header got =>
      simp only [hstage] at hrun
      rw [print_broken hrun] at hb
      cases hb
  | ready | writing rest | gone =>
      simp only [hstage, Except.ok.injEq] at hrun
      exact hrun.symm

/-- No call of it failed. -/
theorem fail_same (hb : k.fail.broken = false) : k.fail = k := by
  rw [fail] at hb ⊢
  cases hstage : k.stage with
  | writing rest | header got | payload header got =>
      simp only [hstage] at hb
      cases hb
  | ready | gone => rfl

end Client

/-! ## Runs -/

/-- The server's own history, and the connection of a client for which nothing
    went wrong. -/
structure SessionInv (R : Runtime) (c : Nat) (log : List Turn) (s : Session) : Prop where
  history : ∃ stamps, History R stamps log s.server
  client : (s.clients c).broken = false → Lockstep (turnsOf log c) (s.clients c)

section

variable {R : Runtime} {s s' : Session} {log : List Turn} {c : Nat}

/-- A step of one client. -/
theorem SessionInv.setClient (h : SessionInv R c log s) {c₀ : Nat} {k : Client}
    (hk : c₀ = c → k.broken = false → Lockstep (turnsOf log c) k) :
    SessionInv R c (log ++ []) (s.setClient c₀ k) := by
  rw [List.append_nil]
  have hself : (s.setClient c₀ k).clients c = if c = c₀ then k else s.clients c :=
    Function.update_apply ..
  refine ⟨h.history, fun hb => ?_⟩
  rw [hself] at hb ⊢
  by_cases hc : c = c₀
  · rw [if_pos hc] at hb ⊢
    exact hk hc.symm hb
  · rw [if_neg hc] at hb ⊢
    exact h.client hb

/-- Every step keeps the invariant. -/
theorem SessionInv.step (h : SessionInv R c log s) {move : Move} {turns : List Turn}
    (hnet : Network R c s move) (hrun : sessionStep R s move = .ok (s', turns)) :
    SessionInv R c (log ++ turns) s' := by
  rcases h.history with ⟨stamps, hist⟩
  cases move with
  | line c₀ input =>
      rcases bind_eq_ok.mp hrun with ⟨k, hk, hrun⟩
      rw [Except.ok.injEq, Prod.mk.injEq] at hrun
      rw [← hrun.1, ← hrun.2]
      refine h.setClient fun hc hb => ?_
      rw [hc] at hk
      exact (h.client ((Client.line_broken hk).symm.trans hb)).line (hnet hc) hk
  | query c₀ cmd =>
      rcases bind_eq_ok.mp hrun with ⟨k, hk, hrun⟩
      rw [Except.ok.injEq, Prod.mk.injEq] at hrun
      rw [← hrun.1, ← hrun.2]
      refine h.setClient fun hc hb => ?_
      rw [hc] at hk
      exact (h.client ((Client.query_broken hk).symm.trans hb)).query (hnet hc) hk
  | write c₀ n =>
      rw [sessionStep, Except.ok.injEq, Prod.mk.injEq] at hrun
      rw [← hrun.1, ← hrun.2]
      refine h.setClient fun hc hb => ?_
      rw [hc, Client.write_broken] at hb
      rw [hc]
      exact (h.client hb).write n
  | read c₀ n =>
      rcases bind_eq_ok.mp hrun with ⟨k, hk, hrun⟩
      rw [Except.ok.injEq, Prod.mk.injEq] at hrun
      rw [← hrun.1, ← hrun.2]
      refine h.setClient fun hc hb => ?_
      rw [hc] at hk
      exact (h.client ((Client.read_broken hk).symm.trans hb)).read hist hk
  -- what goes wrong for this client is the end of it
  | readEof c₀ =>
      rcases bind_eq_ok.mp hrun with ⟨k, hk, hrun⟩
      rw [Except.ok.injEq, Prod.mk.injEq] at hrun
      rw [← hrun.1, ← hrun.2]
      refine h.setClient fun hc hb => ?_
      rw [hc] at hk
      have hsame := Client.readEof_same hk hb
      rw [hsame] at hb ⊢
      exact h.client hb
  | fail c₀ =>
      rw [sessionStep, Except.ok.injEq, Prod.mk.injEq] at hrun
      rw [← hrun.1, ← hrun.2]
      refine h.setClient fun hc hb => ?_
      rw [hc] at hb ⊢
      have hsame := Client.fail_same hb
      rw [hsame] at hb ⊢
      exact h.client hb
  | kill c₀ =>
      rw [sessionStep, Except.ok.injEq, Prod.mk.injEq] at hrun
      rw [← hrun.1, ← hrun.2]
      refine h.setClient fun _ hb => ?_
      cases hb
  | hangUp c₀ =>
      rw [sessionStep, Except.ok.injEq, Prod.mk.injEq] at hrun
      rw [← hrun.1, ← hrun.2]
      refine h.setClient fun hc hb => ?_
      rw [hc, Client.hangUp_broken] at hb
      rw [hc]
      exact (h.client hb).hangUp
  | serve p =>
      rcases bind_eq_ok.mp hrun with ⟨⟨g, turns'⟩, hiter, hrun⟩
      rw [Except.ok.injEq, Prod.mk.injEq] at hrun
      rw [← hrun.1, ← hrun.2]
      rcases iteration_spec hist.loopState hnet.1 with ⟨g₁, turns₁, hiter₁, hstate, hi⟩ | ⟨f, hf, _⟩
      · rw [hiter, Except.ok.injEq, Prod.mk.injEq] at hiter₁
        rw [← hiter₁.1] at hstate hi
        rw [← hiter₁.2] at hi
        rcases hist.iterate hnet.1 hi hstate.inv with ⟨stamps', _, hist'⟩
        refine ⟨⟨_, hist'⟩, fun hb => ?_⟩
        simp only at hb ⊢
        rw [carry_eq, Client.turns_broken] at hb
        rw [carry_eq]
        rcases iteration_trace hiter with ⟨es, htrace⟩
        exact (h.client hb).serve hist' (hnet.2 g turns' hiter) htrace.frames
      · rw [hiter] at hf
        cases hf

theorem sessionInv_init (R : Runtime) (c : Nat) : SessionInv R c [] {} :=
  ⟨⟨[], History.start⟩, fun _ => lockstep_init⟩

/-- Every run keeps it. -/
theorem SessionInv.run (h : SessionInv R c log s) {moves : List Move} {logs : List (List Turn)}
    (hnet : Guarded (sessionStep R) (Network R c) s moves)
    (hrun : Lib.run (sessionStep R) s moves = .ok (s', logs)) :
    SessionInv R c (log ++ logs.flatten) s' := by
  induction moves generalizing s log logs with
  | nil =>
      simp only [Lib.run, Except.ok.injEq, Prod.mk.injEq] at hrun
      rw [← hrun.1, ← hrun.2, List.flatten_nil, List.append_nil]
      exact h
  | cons move moves ih =>
      rcases run_cons_eq_ok hrun with ⟨s₁, turns, logs', hstep, hrest, rfl⟩
      have h₁ := ih (h.step hnet.1 hstep) (hnet.2 s₁ turns hstep) hrest
      rw [List.flatten_cons, ← List.append_assoc]
      exact h₁

/-- A step of the session is a run of the server's events, or nothing to it. -/
theorem sessionStep_trace {move : Move} {turns : List Turn}
    (h : sessionStep R s move = .ok (s', turns)) :
    ∃ es, Traced R s.server es (servedOf turns) s'.server := by
  cases move with
  | line c input | query c cmd | read c n | readEof c =>
      rcases bind_eq_ok.mp h with ⟨k, _, h⟩
      rw [Except.ok.injEq, Prod.mk.injEq] at h
      rw [← h.1, ← h.2]
      exact ⟨[], Traced.refl _⟩
  | write c n | fail c | kill c | hangUp c =>
      rw [sessionStep, Except.ok.injEq, Prod.mk.injEq] at h
      rw [← h.1, ← h.2]
      exact ⟨[], Traced.refl _⟩
  | serve p =>
      rcases bind_eq_ok.mp h with ⟨⟨g, turns'⟩, hiter, h⟩
      rw [Except.ok.injEq, Prod.mk.injEq] at h
      rw [← h.1, ← h.2]
      rcases iteration_trace hiter with ⟨es, hes⟩
      exact ⟨_, hes⟩

/-- A session is, to the server, one run of events. -/
theorem session_trace {moves : List Move} {logs : List (List Turn)}
    (h : run (sessionStep R) s moves = .ok (s', logs)) :
    ∃ es, Traced R s.server es (servedOf logs.flatten) s'.server := by
  induction moves generalizing s logs with
  | nil =>
      simp only [run, Except.ok.injEq, Prod.mk.injEq] at h
      rw [← h.1, ← h.2]
      exact ⟨[], Traced.refl _⟩
  | cons move moves ih =>
      rcases run_cons_eq_ok h with ⟨s₁, turns, logs', hstep, hrest, rfl⟩
      rcases sessionStep_trace hstep with ⟨es, hes⟩
      rcases ih hrest with ⟨es', hes'⟩
      have := hes.trans hes'
      rw [servedOf, servedOf, ← List.flatMap_append, ← List.flatten_cons] at this
      exact ⟨_, this⟩

/-- However many clients there are, and however their steps and the server's
    interleave, the server executes the commands in one run of its own. Of a
    client none of whose calls failed or met the end of the stream, it executes
    the commands in the order they were sent, each once; the responses the
    client has read are those to its first commands; and when it waits for its
    user, it has read the response to every command it sent. What it made of
    each response is what `read_response` makes of those bytes, however they
    are read. -/
theorem lockstep_of_run (R : Runtime) {moves : List Move} {s : Session} {logs : List (List Turn)}
    (hrun : run (sessionStep R) {} moves = .ok (s, logs)) :
    (∃ es, Traced R {} es (servedOf logs.flatten) s.server) ∧
    ∀ c, Guarded (sessionStep R) (Network R c) {} moves → (s.clients c).broken = false →
      (served (turnsOf logs.flatten c)).map Served.cmd <+: (s.clients c).issued ∧
      (s.clients c).answers.map Response.bytes <+:
        (served (turnsOf logs.flatten c)).map Served.response ∧
      (s.clients c).issued.length ≤ (s.clients c).answers.length + 1 ∧
      ((s.clients c).stage = .ready ∨ (s.clients c).stage = .gone →
        (s.clients c).answers.length = (s.clients c).issued.length) ∧
      ∀ a ∈ (s.clients c).answers, ∀ reads, Delivering reads →
        reads.flatMap SockRead.bytes = a.bytes → readResponse reads = .ok a.rv := by
  refine ⟨session_trace hrun, fun c hnet hb => ?_⟩
  have hinv := (sessionInv_init R c).run hnet hrun
  rcases hinv.history with ⟨stamps, hist⟩
  have h := hinv.client hb
  rw [List.nil_append] at hist h
  refine ⟨h.served_prefix hist, ?_, h.ahead.2, fun hidle => ?_, h.said⟩
  · rw [h.heard, List.map_take]
    exact List.take_prefix _ _
  · have hstaged := h.staged
    rw [Client.Staged] at hstaged
    rcases hidle with hready | hgone
    · rw [hready] at hstaged
      exact hstaged.symm
    · rw [hgone] at hstaged
      exact hstaged.symm

instance decidableMeetsAll : (k : Client) → (turns : List Turn) → Decidable (k.MeetsAll turns)
  | _, [] => inferInstanceAs (Decidable True)
  | k, turn :: turns =>
    haveI := decidableMeetsAll (k.turn turn) turns
    inferInstanceAs (Decidable (turn.received <+: k.up ∧ (k.turn turn).MeetsAll turns))

/-- A test of the turns of an iteration. -/
def meetsCheck (R : Runtime) (c : Nat) (s : Session) (p : PollResult) : Bool :=
  match iteration R s.server p with
  | .ok r => decide ((s.clients c).MeetsAll (turnsOf r.2 c))
  | .error _ => true

theorem meets_of_check {c : Nat} {s : Session} {p : PollResult} (h : meetsCheck R c s p = true) :
    ∀ g turns, iteration R s.server p = .ok (g, turns) →
      (s.clients c).MeetsAll (turnsOf turns c) := by
  intro g turns hiter
  rw [meetsCheck, hiter] at h
  exact of_decide_eq_true h

/-- A test of a step that accepts no connection. -/
def networkCheck (R : Runtime) (c : Nat) (s : Session) : Move → Bool
  | .line _ _ => false
  | .query _ cmd => decide (cmd.length ≤ kMaxArgs)
  | .serve (.woke wake) => wake.accept.isNone && meetsCheck R c s (.woke wake)
  | .serve (.interrupted _) => false
  | _ => true

theorem network_of_check {c : Nat} (s : Session) (move : Move) (h : networkCheck R c s move = true) :
    Network R c s move := by
  cases move with
  | line c₀ input => exact absurd h Bool.false_ne_true
  | query c₀ cmd => exact fun _ => of_decide_eq_true (p := cmd.length ≤ kMaxArgs) h
  | write c₀ n | read c₀ n | readEof c₀ | fail c₀ | kill c₀ | hangUp c₀ => exact True.intro
  | serve p =>
      cases p with
      | interrupted before => exact absurd h Bool.false_ne_true
      | woke wake =>
          rw [networkCheck, Bool.and_eq_true, Option.isNone_iff_eq_none] at h
          exact ⟨acceptFresh_none _ h.1, meets_of_check h.2⟩

/-- A client says `quit` on the server's first connection. Both sides read and
    write in pieces. Another client is killed in the middle of a command. -/
def quitMoves : List Move :=
  [.query 0 [ascii "quit"], .write 0 6,
    .serve (.woke { ready := [some { pollIn := true, now := 2, read := .data (quitFrame.take 6) }],
                    now := 2 }),
    .query 1 [ascii "get", ascii "k"], .write 1 3, .kill 1, .write 0 100,
    .serve (.woke { ready := [some { pollIn := true, now := 3, read := .data (quitFrame.drop 6) }],
                    now := 3 }),
    .serve (.woke { ready := [some { pollOut := true, now := 4, writes := [.wrote 5] }], now := 4 }),
    .read 0 3,
    .serve (.woke { ready := [some { pollOut := true, now := 5, writes := [.wrote 100] }],
                    now := 5 }),
    .read 0 100, .read 0 100]

def quitSession : List Move := .serve (.woke { accept := some (5, 1), now := 1 }) :: quitMoves

/-- A session whose first move is the server's accept, and whose other moves
    pass the test in the state it leaves. -/
theorem network_of_first {moves : List Move}
    (hends : endsIn (sessionStep noDoubles)
      (fun s _ => checkRun (sessionStep noDoubles) (networkCheck noDoubles 0) s moves) {}
      [.serve (.woke { accept := some (5, 1), now := 1 })] = true) :
    Guarded (sessionStep noDoubles) (Network noDoubles 0) {}
      (.serve (.woke { accept := some (5, 1), now := 1 }) :: moves) := by
  rcases exists_of_endsIn hends with ⟨t, rs, hrun, hcheck⟩
  have hfirst : Guarded (sessionStep noDoubles) (Network noDoubles 0) {}
      [.serve (.woke { accept := some (5, 1), now := 1 })] :=
    ⟨⟨acceptFresh_init _, meets_of_check (by decide)⟩, fun _ _ _ => True.intro⟩
  refine guarded_append hfirst fun t' rs' hrun' => ?_
  rw [hrun, Except.ok.injEq, Prod.mk.injEq] at hrun'
  rw [← hrun'.1]
  exact guarded_of_checkRun network_of_check hcheck

theorem quitSession_network :
    Guarded (sessionStep noDoubles) (Network noDoubles 0) {} quitSession :=
  network_of_first (by decide +kernel)

theorem lockstep_of_run_quit :
    ∃ s logs, run (sessionStep noDoubles) {} quitSession = .ok (s, logs) ∧
      (s.clients 0).answers.length = 1 ∧ (s.clients 1).broken = true ∧
      (s.clients 0).answers.map Response.bytes <+:
        (served (turnsOf logs.flatten 0)).map Served.response := by
  have hends : endsIn (sessionStep noDoubles) (fun s _ =>
      decide ((s.clients 0).stage = .gone ∧ (s.clients 0).issued.length = 1 ∧
        (s.clients 0).broken = false ∧ (s.clients 1).broken = true)) {} quitSession = true := by
    decide +kernel
  rcases exists_of_endsIn hends with ⟨s, logs, hrun, htest⟩
  rcases of_decide_eq_true htest with ⟨hgone, hone, hb, hkilled⟩
  rcases (lockstep_of_run noDoubles hrun).2 0 quitSession_network hb with ⟨_, hans, _, hidle, _⟩
  exact ⟨s, logs, hrun, (hidle (Or.inr hgone)).trans hone, hkilled, hans⟩

end

end RedisServer
