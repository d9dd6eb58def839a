import RedisServer.Lib.Potential
import RedisServer.Theory.Session.Lockstep

/-!
# Waiting for an Answer

A client that waits for a response is never stuck. It can write, it can read, or
the server asks `poll` about its connection and something is there to be read
or written. And as long as every command returns, every step that moves a byte
of the connection brings the answer nearer, and the distance is bounded by the
two limits on a message, whatever the other clients do. A command that hangs
stops the server, and everybody waits for ever.

The distance counts the moves that are left. A byte of the request is written
and then read by the server, and so is a byte of the response. Until the
request was executed the response is counted at the limit.

## Main definitions

* `Session.Waits`: A client waits, on a connection that is there.
* `Client.remaining`: The distance.
* `Still`: Steps that leave a connection alone.

## Theorems

* `Lockstep.executed_iff`: When the command was executed.
* `Lockstep.enabled`: Something can move.
* `Lockstep.remaining_le`: The bound.
* `step_remaining`: One step.
* `wait_of_run`: Every run of the session.
-/

namespace RedisServer

open Lib

/-- The client has sent a command, or is about to, and has not read the
    response; and nothing went wrong so far. -/
def Client.Waits (k : Client) : Prop :=
  k.stage ≠ .ready ∧ k.stage ≠ .gone ∧ k.broken = false

instance (k : Client) : Decidable k.Waits := inferInstanceAs (Decidable (_ ∧ _ ∧ _))

/-- A client waits, and the server has its connection. -/
def Session.Waits (s : Session) (c : Nat) : Prop :=
  (s.clients c).Waits ∧ ∃ conn, s.server.conns c = some conn

/-- How many moves are left until the client has its answer. -/
def Client.remaining (k : Client) (conn : Conn) : Nat :=
  2 * k.unsent.length + k.up.length +
    if k.up ++ k.unsent = [] then 2 * conn.outgoing.length + k.down.length
    else 2 * (4 + kMaxMsg)

/-- The moves left until a client that waits has its answer. -/
def Session.remaining (s : Session) (c : Nat) : Nat :=
  if (s.clients c).Waits then (s.server.conns c).elim 0 (s.clients c).remaining else 0

/-- The bytes a connection holds. -/
def Conn.buffers (conn : Conn) : Bytes × Bytes := (conn.incoming, conn.outgoing)

/-- Nothing moved on a connection. -/
def Still (c : Nat) (s s' : Session) : Prop :=
  s'.clients c = s.clients c ∧
    (s'.server.conns c).map Conn.buffers = (s.server.conns c).map Conn.buffers

instance (c : Nat) (s s' : Session) : Decidable (Still c s s') :=
  inferInstanceAs (Decidable (_ ∧ _))

/-- A stream without an item is its own rest. -/
theorem eq_of_splits_nil {xs rest : Bytes} (h : requests.Splits xs [] rest) : xs = rest := by
  cases h
  rfl

namespace Lockstep

variable {R : Runtime} {g : GData} {stamps : List Nat} {log : List Turn} {c : Nat}
  {turns : List Turn} {k : Client} {conn : Conn}

/-- A client that waits is one command ahead. -/
theorem waits (h : Lockstep turns k) (hw : k.Waits) : k.issued.length = k.answers.length + 1 := by
  have hstaged := h.staged
  rw [Client.Staged] at hstaged
  cases hstage : k.stage with
  | ready => exact absurd hstage hw.1
  | gone => exact absurd hstage hw.2.1
  | writing rest =>
      rw [hstage] at hstaged
      exact hstaged.2
  | header got =>
      rw [hstage] at hstaged
      exact hstaged.2
  | payload header got =>
      rw [hstage] at hstaged
      exact hstaged.2.2

/-- All commands were executed exactly when the server has read all there is to
    read. -/
theorem executed_iff (h : Lockstep (turnsOf log c) k) (hist : History R stamps log g) :
    (served (turnsOf log c)).length = k.issued.length ↔ k.up ++ k.unsent = [] := by
  have hcmds := (hist.traffic c).cmds
  have hall := decode_frames h.frames
  constructor
  · intro hlen
    have hpre := h.served_prefix hist
    have heq := hpre.eq_of_length (by rw [List.length_map, hlen])
    rw [heq] at hcmds
    -- what follows the last frame would decode to nothing
    rw [← h.up, Framer.decode_append, Prod.mk.injEq, ← hcmds] at hall
    have hnone : (requests.decode ((requests.decode (received (turnsOf log c))).2 ++
        (k.up ++ k.unsent))).1 = [] := by
      have hcount := congrArg List.length hall.1
      rw [List.length_append] at hcount
      exact List.length_eq_zero_iff.mp (by omega)
    have hsplit := Framer.decode_splits (F := requests)
      ((requests.decode (received (turnsOf log c))).2 ++ (k.up ++ k.unsent))
    rw [hnone, hall.2] at hsplit
    exact (List.append_eq_nil_iff.mp (eq_of_splits_nil hsplit)).2
  · intro hnil
    have hup := h.up
    rw [hnil, List.append_nil] at hup
    rw [hup, hall] at hcmds
    have hlen := congrArg List.length hcmds
    rw [List.length_map] at hlen
    exact hlen

/-- Before the command is executed there is nothing on the way down. -/
theorem unexecuted (h : Lockstep (turnsOf log c) k) (hist : History R stamps log g)
    (hw : k.Waits) (hnew : k.up ++ k.unsent ≠ []) (hc : g.conns c = some conn) :
    k.got = [] ∧ k.down = [] ∧ conn.outgoing = [] := by
  have hne : (served (turnsOf log c)).length ≠ k.issued.length :=
    fun h' => hnew ((h.executed_iff hist).mp h')
  have hle := h.served_le hist
  have hwaits := h.waits hw
  rcases h.pending hist with ⟨out, hpend, hout⟩
  rw [List.drop_of_length_le (by omega), List.flatMap_nil, List.append_eq_nil_iff,
    List.append_eq_nil_iff] at hpend
  exact ⟨hpend.1, hpend.2.1, (hout conn hc).trans hpend.2.2⟩

/-- When the command was executed, its response is what the client has, what is
    on the way down, and what the server still has to write. -/
theorem response (h : Lockstep (turnsOf log c) k) (hist : History R stamps log g)
    (hw : k.Waits) (hall : k.up ++ k.unsent = []) (hc : g.conns c = some conn) :
    ∃ payload, k.got ++ (k.down ++ conn.outgoing) = responseFrame payload ∧
      payload.length ≤ kMaxMsg := by
  have hlen := (h.executed_iff hist).mpr hall
  have hwaits := h.waits hw
  rcases h.pending hist with ⟨out, hpend, hout⟩
  rcases h.next hist with hnone | ⟨s, payload, hs, hresp, hmax⟩
  · have hdrop := congrArg List.length hnone
    rw [List.length_drop, List.length_nil] at hdrop
    omega
  · rw [hs, List.flatMap_singleton, hresp] at hpend
    rw [hout conn hc]
    exact ⟨payload, hpend, hmax⟩

/-- A client that waits can write or read, or bytes wait on the server's side of
    its connection, in the direction the server asks `poll` about. -/
theorem enabled (h : Lockstep (turnsOf log c) k) (hist : History R stamps log g) (hw : k.Waits)
    (hc : g.conns c = some conn) : k.unsent ≠ [] ∨ k.down ≠ [] ∨
      (conn.wantRead = true ∧ k.up ≠ []) ∨ (conn.wantWrite = true ∧ conn.outgoing ≠ []) := by
  have hintent := (hist.loopState.settled c conn hc).intent
  by_cases hall : k.up ++ k.unsent = []
  · rcases h.response hist hw hall hc with ⟨payload, hresp, hmax⟩
    -- what the client has read of the response is not all of it
    by_cases hdown : k.down = []
    · have hstaged := h.staged
      have hout : conn.outgoing ≠ [] := by
        intro hout
        rw [hdown, hout, List.append_nil, List.append_nil] at hresp
        have hlen := congrArg List.length hresp
        rw [responseFrame, List.length_append, length_le32] at hlen
        cases hstage : k.stage with
        | ready => exact absurd hstage hw.1
        | gone => exact absurd hstage hw.2.1
        | writing rest =>
            simp only [Client.got, hstage, List.length_nil] at hlen
            omega
        | header got =>
            simp only [Client.Staged, hstage] at hstaged
            simp only [Client.got, hstage] at hlen
            omega
        | payload header got =>
            simp only [Client.Staged, hstage] at hstaged
            simp only [Client.got, hstage, responseFrame] at hlen hresp
            have hhead := List.append_inj_left hresp (by rw [hstaged.2.1, length_le32])
            rw [List.length_append, hstaged.2.1] at hlen
            have hmore := hstaged.1
            rw [hhead, leNat_le32 (Nat.lt_of_le_of_lt hmax (by decide))] at hmore
            omega
      rcases hintent with ⟨_, _, hnil⟩ | ⟨_, hwrite, _⟩
      · exact absurd hnil hout
      · exact Or.inr (Or.inr (Or.inr ⟨hwrite, hout⟩))
    · exact Or.inr (Or.inl hdown)
  · by_cases hunsent : k.unsent = []
    · rw [hunsent, List.append_nil] at hall
      -- the server has nothing to write, so it reads
      rcases hintent with ⟨hread, _, _⟩ | ⟨_, hwrite, hout⟩
      · exact Or.inr (Or.inr (Or.inl ⟨hread, hall⟩))
      · exact Or.inr (Or.inr (Or.inr ⟨hwrite, hout⟩))
    · exact Or.inl hunsent

theorem remaining_pos (h : Lockstep (turnsOf log c) k) (hist : History R stamps log g)
    (hw : k.Waits) (hc : g.conns c = some conn) : 0 < k.remaining conn := by
  rw [Client.remaining]
  by_cases hall : k.up ++ k.unsent = []
  · rw [if_pos hall]
    rcases List.append_eq_nil_iff.mp hall with ⟨hup, hunsent⟩
    rcases h.enabled hist hw hc with hne | hne | ⟨_, hne⟩ | ⟨_, hne⟩
    · exact absurd hunsent hne
    · have := List.length_pos_iff.mpr hne
      omega
    · exact absurd hup hne
    · have := List.length_pos_iff.mpr hne
      omega
  · rw [if_neg hall]
    omega

/-- A frame is the one the client sends for its command. -/
theorem eq_requestFrame {frame : Bytes} {cmd : List Bytes} (h : IsFrame frame cmd) :
    frame = requestFrame cmd ∧ frame.length ≤ 4 + kMaxMsg := by
  rcases h with ⟨body, hframe, hmax, hparse⟩
  rw [((parse_body_iff hmax).mp hparse).1] at hframe hmax
  refine ⟨hframe, ?_⟩
  rw [hframe, List.length_append, length_le32]
  omega

theorem frames_eq {frames : List Bytes} {cmds : List (List Bytes)}
    (h : List.Forall₂ IsFrame frames cmds) : frames = cmds.map requestFrame := by
  induction h with
  | nil => rfl
  | cons hframe _ ih => rw [List.map_cons, ← ih, ← (eq_requestFrame hframe).1]

/-- What the server has not read is at most one frame. -/
theorem unread_le (h : Lockstep (turnsOf log c) k) (hist : History R stamps log g) :
    (k.up ++ k.unsent).length ≤ 4 + kMaxMsg := by
  -- the frames of the commands that were executed were read
  rcases splits_iff.mp (Framer.decode_splits (F := requests) (received (turnsOf log c))) with
    ⟨frames, hread, hframes⟩
  rw [← (hist.traffic c).cmds] at hframes
  have heq := frames_eq hframes
  rcases h.served_prefix hist with ⟨rest, hrest⟩
  have hlen := congrArg List.length h.up
  rw [← hrest, List.flatMap_append, hread, heq, ← List.flatMap_def] at hlen
  simp only [List.length_append] at hlen ⊢
  have hone : (rest.flatMap requestFrame).length ≤ 4 + kMaxMsg := by
    have hcount := congrArg List.length hrest
    have hahead := h.ahead
    have hans := h.answered_le
    rw [List.length_append, List.length_map] at hcount
    rcases rest with _ | ⟨cmd, rest⟩
    · exact Nat.zero_le _
    · rw [List.length_cons] at hcount
      have hmem : cmd ∈ k.issued := by
        rw [← hrest]
        exact List.mem_append_right _ List.mem_cons_self
      rw [List.length_eq_zero_iff.mp (by omega : rest.length = 0), List.flatMap_singleton]
      exact (eq_requestFrame (h.frames cmd hmem)).2
  omega

/-- The distance is bounded by the limits on a request and on a response. -/
theorem remaining_le (h : Lockstep (turnsOf log c) k) (hist : History R stamps log g)
    (hw : k.Waits) (hc : g.conns c = some conn) : k.remaining conn ≤ 4 * (4 + kMaxMsg) := by
  have hunread := h.unread_le hist
  rw [List.length_append] at hunread
  rw [Client.remaining]
  by_cases hall : k.up ++ k.unsent = []
  · rw [if_pos hall]
    rcases h.response hist hw hall hc with ⟨payload, hresp, hmax⟩
    have hlen := congrArg List.length hresp
    rw [List.length_append, List.length_append, responseFrame, List.length_append,
      length_le32] at hlen
    omega
  · rw [if_neg hall]
    omega

/-! ## One step -/

/-- Bytes of the frame go on their way, or nothing happens. -/
theorem write_remaining (h : Lockstep turns k) (hw : k.Waits) (n : Nat) :
    k.write n = k ∨ (k.write n).remaining conn < k.remaining conn := by
  cases hstage : k.stage with
  | ready => exact absurd hstage hw.1
  | gone => exact absurd hstage hw.2.1
  | header got | payload header got =>
      left
      simp only [Client.write, hstage]
  | writing rest =>
      have hstaged := h.staged
      simp only [Client.Staged, hstage] at hstaged
      have hold : k.unsent = rest := by
        simp only [Client.unsent, hstage]
      have hup : (k.write n).up = k.up ++ rest.take n := by
        simp only [Client.write, hstage]
      have hnew : (k.write n).unsent = rest.drop n := by
        simp only [Client.write, hstage, Client.unsent]
        by_cases hdone : rest.drop n = []
        · rw [if_pos hdone, hdone]
        · rw [if_neg hdone]
      have hsame : (k.write n).up ++ (k.write n).unsent = k.up ++ k.unsent := by
        rw [hup, hnew, hold, List.append_assoc, List.take_append_drop]
      have hsome : k.up ++ k.unsent ≠ [] := by
        rw [hold]
        exact List.append_ne_nil_of_right_ne_nil _ hstaged.1
      by_cases hnone : n = 0
      · left
        rw [hnone]
        cases k
        simp only at hstage
        simp only [Client.write, hstage, List.drop_zero, List.take_zero, List.append_nil,
          if_neg hstaged.1]
      · right
        have hlen := congrArg List.length (List.take_append_drop n rest)
        have htake : 0 < (rest.take n).length := by
          rw [List.length_take]
          have := List.length_pos_iff.mpr hstaged.1
          omega
        rw [List.length_append] at hlen
        rw [Client.remaining, Client.remaining, hsame, if_neg hsome, if_neg hsome, hup, hnew, hold,
          List.length_append]
        omega

/-- A client that is done with a response does not wait. -/
theorem finish_ready (k : Client) (bytes : Bytes) (rv : Int) : ¬ (k.finish bytes rv).Waits := by
  rintro ⟨hready, hgone, _⟩
  rw [Client.finish] at hready hgone
  simp only at hready hgone
  by_cases hquits : k.quits = true ∧ 0 ≤ rv
  · rw [if_pos hquits] at hgone
    exact hgone rfl
  · rw [if_neg hquits] at hready
    exact hready rfl

theorem print_ready {k k' : Client} {header payload : Bytes}
    (hrun : k.print header payload = .ok k') : ¬ k'.Waits := by
  rcases bind_eq_ok.mp hrun with ⟨rv, _, hrun⟩
  rw [Except.ok.injEq] at hrun
  rw [← hrun]
  exact finish_ready k _ _

/-- A client that still waits after the length of a response waits for its
    payload. -/
theorem headed_waits {k k' : Client} {header : Bytes} (hrun : k.headed header = .ok k')
    (hw' : k'.Waits) : k' = { k with stage := .payload header [] } := by
  rw [Client.headed] at hrun
  by_cases hbig : kMaxMsg < leNat header
  · rw [if_pos hbig, Except.ok.injEq] at hrun
    rw [← hrun] at hw'
    exact absurd hw' (finish_ready _ _ _)
  · rw [if_neg hbig] at hrun
    by_cases hempty : leNat header = 0
    · rw [if_pos hempty] at hrun
      exact absurd hw' (print_ready hrun)
    · rw [if_neg hempty, Except.ok.injEq] at hrun
      exact hrun.symm

/-- A read that does not end the wait takes bytes off their way, or nothing
    happens. -/
theorem read_waits {k' : Client} {n : Nat} (h : Lockstep turns k) (hrun : k.read n = .ok k')
    (hw' : k'.Waits) :
    k' = k ∨ (k'.up = k.up ∧ k'.unsent = k.unsent ∧ k'.down.length < k.down.length) := by
  have hstaged := h.staged
  -- the bytes on their way are fewer by those that are taken
  have hdrop : ∀ bs : Bytes, bs ≠ [] → bs.length ≤ k.down.length →
      (k.down.drop bs.length).length < k.down.length := by
    intro bs hbs hle
    have := List.length_pos_iff.mpr hbs
    rw [List.length_drop]
    omega
  rw [Client.read] at hrun
  cases hstage : k.stage with
  | ready | writing rest | gone =>
      simp only [hstage, Except.ok.injEq] at hrun
      exact Or.inl hrun.symm
  | header got =>
      simp only [Client.Staged, hstage] at hstaged
      simp only [hstage] at hrun
      have hle : (k.down.take (min n (4 - got.length))).length ≤ k.down.length :=
        List.length_take_le' ..
      generalize k.down.take (min n (4 - got.length)) = bs at hrun hle
      by_cases hmore : (got ++ bs).length < 4
      · rw [if_pos hmore, Except.ok.injEq] at hrun
        by_cases hnone : bs = []
        · left
          rw [← hrun, hnone, List.length_nil, List.drop_zero, List.append_nil, ← hstage]
        · right
          rw [← hrun]
          exact ⟨rfl, by simp only [Client.unsent, hstage], hdrop bs hnone hle⟩
      · have hsome : bs ≠ [] := by
          intro hnil
          rw [hnil, List.append_nil] at hmore
          exact hmore hstaged.1
        rw [if_neg hmore] at hrun
        right
        rw [headed_waits hrun hw']
        exact ⟨rfl, by simp only [Client.unsent, hstage], hdrop bs hsome hle⟩
  | payload header got =>
      simp only [hstage] at hrun
      have hle : (k.down.take (min n (leNat header - got.length))).length ≤ k.down.length :=
        List.length_take_le' ..
      generalize k.down.take (min n (leNat header - got.length)) = bs at hrun hle
      by_cases hmore : (got ++ bs).length < leNat header
      · rw [if_pos hmore, Except.ok.injEq] at hrun
        by_cases hnone : bs = []
        · left
          rw [← hrun, hnone, List.length_nil, List.drop_zero, List.append_nil, ← hstage]
        · right
          rw [← hrun]
          exact ⟨rfl, by simp only [Client.unsent, hstage], hdrop bs hnone hle⟩
      · rw [if_neg hmore] at hrun
        exact absurd hw' (print_ready hrun)

/-- Bytes of the response are read, or nothing happens, or the wait ends. -/
theorem read_remaining {k' : Client} {n : Nat} (h : Lockstep (turnsOf log c) k)
    (hist : History R stamps log g) (hw : k.Waits) (hc : g.conns c = some conn)
    (hrun : k.read n = .ok k') (hw' : k'.Waits) :
    k' = k ∨ k'.remaining conn < k.remaining conn := by
  rcases read_waits h hrun hw' with hsame | ⟨hup, hunsent, hdown⟩
  · exact Or.inl hsame
  · right
    -- bytes of a response are on their way only when the command was executed
    have hall : k.up ++ k.unsent = [] := by
      by_contra hnew
      rw [(h.unexecuted hist hw hnew hc).2.1] at hdown
      exact Nat.not_lt_zero _ hdown
    rw [Client.remaining, Client.remaining, hup, hunsent, if_pos hall, if_pos hall]
    omega

/-- An iteration of the server brings the answer nearer, or nothing moves on
    this connection. -/
theorem serve_remaining {k' : Client} {g' : GData} {stamps' : List Nat} {new : List Turn}
    {conn' : Conn} (h : Lockstep (turnsOf log c) k) (hist : History R stamps log g)
    (h' : Lockstep (turnsOf (log ++ new) c) k') (hist' : History R stamps' (log ++ new) g')
    (hk' : k' = (turnsOf new c).foldl Client.turn k) (hmeets : k.MeetsAll (turnsOf new c))
    (hw : k.Waits) (hc : g.conns c = some conn) (hc' : g'.conns c = some conn') :
    (k' = k ∧ conn'.buffers = conn.buffers) ∨ k'.remaining conn' < k.remaining conn := by
  rcases Client.after_turns hmeets with ⟨up, hup, hrun⟩
  rw [hrun] at hk'
  have hw' : k'.Waits := by
    rw [hk']
    exact hw
  have hup' : k'.up = up := by rw [hk']
  have hunsent : k'.unsent = k.unsent := by
    rw [hk']
    rfl
  have hdown : k'.down = k.down ++ sent (turnsOf new c) := by rw [hk']
  have hlen := congrArg List.length hup
  rw [List.length_append] at hlen
  rw [Client.remaining, Client.remaining, hup', hunsent]
  by_cases hread : received (turnsOf new c) = []
  · rw [hread, List.nil_append] at hup
    have hsame : received (turnsOf (log ++ new) c) = received (turnsOf log c) := by
      rw [turnsOf_append, received, List.flatMap_append, ← received, ← received, hread,
        List.append_nil]
    -- so it executed nothing, and what it sent was in the outgoing buffer
    have hserved : served (turnsOf (log ++ new) c) = served (turnsOf log c) := by
      have hcount := congrArg List.length ((hist'.traffic c).cmds.trans
        ((congrArg (fun xs => (requests.decode xs).1) hsame).trans (hist.traffic c).cmds.symm))
      have hsplit : served (turnsOf (log ++ new) c) =
          served (turnsOf log c) ++ served (turnsOf new c) := by
        rw [turnsOf_append, served, List.flatMap_append, ← served, ← served]
      rw [List.length_map, List.length_map, hsplit, List.length_append] at hcount
      rw [hsplit, List.length_eq_zero_iff.mp (by omega : (served (turnsOf new c)).length = 0),
        List.append_nil]
    rcases h.pending hist with ⟨out, hpend, hout⟩
    rcases h'.pending hist' with ⟨out', hpend', hout'⟩
    have hans : k'.answers = k.answers := by rw [hk']
    have hgot : k'.got = k.got := by
      rw [hk']
      rfl
    rw [hserved, hans, hgot, hdown, ← hpend, List.append_assoc] at hpend'
    have hleft : sent (turnsOf new c) ++ out' = out :=
      List.append_cancel_left (List.append_cancel_left hpend')
    have hsize := congrArg List.length hleft
    rw [List.length_append] at hsize
    rw [hout conn hc, hout' conn' hc', hdown, List.length_append, hup]
    by_cases hsent : sent (turnsOf new c) = []
    · left
      rw [hsent, List.nil_append] at hleft
      rw [hsent, List.append_nil, hup] at hk'
      refine ⟨hk', ?_⟩
      rw [Conn.buffers, Conn.buffers, (hist'.traffic c).input conn' hc',
        (hist.traffic c).input conn hc, hsame, hout conn hc, hout' conn' hc', hleft]
    · right
      have hpos := List.length_pos_iff.mpr hsent
      by_cases hall : k.up ++ k.unsent = []
      · rw [if_pos hall, if_pos hall]
        omega
      · have hnone := (h'.unexecuted hist' hw' (by rw [hup', hunsent, hup]; exact hall) hc').2.1
        rw [hdown, List.append_eq_nil_iff] at hnone
        exact absurd hnone.2 hsent
  -- the server read: nothing was on the way down before
  · right
    have hpos := List.length_pos_iff.mpr hread
    have hnew : k.up ++ k.unsent ≠ [] := by
      rw [← hup, List.append_assoc]
      exact List.append_ne_nil_of_left_ne_nil hread _
    rw [if_neg hnew]
    by_cases hall : up ++ k.unsent = []
    · rw [← hup', ← hunsent] at hall
      rcases h'.response hist' hw' hall hc' with ⟨payload, hresp, hmax⟩
      have hsize := congrArg List.length hresp
      rw [List.length_append, List.length_append, responseFrame, List.length_append,
        length_le32] at hsize
      rw [← hup', ← hunsent, if_pos hall, hunsent, hup']
      omega
    · rw [if_neg hall]
      omega

end Lockstep

section

variable {R : Runtime} {s s' : Session} {log turns : List Turn} {c : Nat}

theorem remaining_eq {conn : Conn} (hw : (s.clients c).Waits)
    (hc : s.server.conns c = some conn) : s.remaining c = (s.clients c).remaining conn := by
  rw [Session.remaining, if_pos hw, hc, Option.elim_some]

theorem remaining_done (hw : ¬ s.Waits c) : s.remaining c = 0 := by
  rw [Session.remaining]
  by_cases hwaits : (s.clients c).Waits
  · rw [if_pos hwaits]
    cases hc : s.server.conns c with
    | none => rfl
    | some conn => exact absurd ⟨hwaits, conn, hc⟩ hw
  · rw [if_neg hwaits]

/-- A connection nothing moved on is as far from its answer as before. -/
theorem Still.remaining (h : Still c s s') : s'.remaining c = s.remaining c := by
  have hbuf := h.2
  rw [Session.remaining, Session.remaining, h.1]
  cases hc : s.server.conns c with
  | none =>
      rw [hc, Option.map_none, Option.map_eq_none_iff] at hbuf
      rw [hbuf]
  | some conn =>
      rw [hc, Option.map_some, Option.map_eq_some_iff] at hbuf
      rcases hbuf with ⟨conn', hc', hbuf⟩
      rw [Conn.buffers, Conn.buffers, Prod.mk.injEq] at hbuf
      rw [hc', Option.elim_some, Option.elim_some, Client.remaining, Client.remaining, hbuf.2]

/-- A step of a client that leaves it alone or brings its answer nearer. -/
theorem setClient_remaining {c₀ : Nat} {k : Client} {conn : Conn} (hw : s.Waits c)
    (hw' : (s.setClient c₀ k).Waits c) (hc : s.server.conns c = some conn)
    (hk : c₀ = c → k.Waits →
      k = s.clients c ∨ k.remaining conn < (s.clients c).remaining conn) :
    Still c s (s.setClient c₀ k) ∨ (s.setClient c₀ k).remaining c < s.remaining c := by
  have hclient : (s.setClient c₀ k).clients c = if c = c₀ then k else s.clients c :=
    Function.update_apply ..
  by_cases hcc : c = c₀
  · rw [if_pos hcc] at hclient
    rcases hk hcc.symm (hclient ▸ hw'.1) with hsame | hless
    · exact Or.inl ⟨hclient.trans hsame, rfl⟩
    · right
      have hc' : (s.setClient c₀ k).server.conns c = some conn := hc
      rw [remaining_eq hw'.1 hc', remaining_eq hw.1 hc, hclient]
      exact hless
  · rw [if_neg hcc] at hclient
    exact Or.inl ⟨hclient, rfl⟩

/-- A client in the middle of a command takes no other. -/
theorem query_waits {k k' : Client} {cmd : List Bytes} (hw : k.Waits) (hrun : k.query cmd = .ok k') :
    k' = k := by
  rw [Client.query] at hrun
  cases hstage : k.stage with
  | ready => exact absurd hstage hw.1
  | writing rest | header got | payload header got | gone =>
      simp only [hstage, Except.ok.injEq] at hrun
      exact hrun.symm

theorem line_waits {k k' : Client} {input : Bytes} (hw : k.Waits) (hrun : k.line input = .ok k') :
    k' = k := by
  rw [Client.line] at hrun
  cases hstage : k.stage with
  | ready => exact absurd hstage hw.1
  | writing rest | header got | payload header got | gone =>
      simp only [hstage, Except.ok.injEq] at hrun
      exact hrun.symm

theorem hangUp_waits {k : Client} (hw : k.Waits) : k.hangUp = k := by
  rw [Client.hangUp]
  cases hstage : k.stage with
  | ready => exact absurd hstage hw.1
  | writing rest | header got | payload header got | gone => rfl

/-- A step that does not end the wait leaves the connection alone or brings the
    answer nearer. -/
theorem step_remaining (hinv : SessionInv R c log s) {move : Move} (hnet : Network R c s move)
    (hstep : sessionStep R s move = .ok (s', turns)) (hw : s.Waits c) (hw' : s'.Waits c) :
    Still c s s' ∨ s'.remaining c < s.remaining c := by
  have hinv' := hinv.step hnet hstep
  rcases hinv.history with ⟨stamps, hist⟩
  have hwaits := hw.1
  rcases hw.2 with ⟨conn, hc⟩
  cases move with
  | line c₀ input =>
      rcases bind_eq_ok.mp hstep with ⟨k, hk, hstep⟩
      rw [Except.ok.injEq, Prod.mk.injEq] at hstep
      rw [← hstep.1] at hw' ⊢
      refine setClient_remaining hw hw' hc fun hcc _ => Or.inl ?_
      rw [hcc] at hk
      exact line_waits hwaits hk
  | query c₀ cmd =>
      rcases bind_eq_ok.mp hstep with ⟨k, hk, hstep⟩
      rw [Except.ok.injEq, Prod.mk.injEq] at hstep
      rw [← hstep.1] at hw' ⊢
      refine setClient_remaining hw hw' hc fun hcc _ => Or.inl ?_
      rw [hcc] at hk
      exact query_waits hwaits hk
  | hangUp c₀ =>
      rw [sessionStep, Except.ok.injEq, Prod.mk.injEq] at hstep
      rw [← hstep.1] at hw' ⊢
      refine setClient_remaining hw hw' hc fun hcc _ => Or.inl ?_
      rw [hcc]
      exact hangUp_waits hwaits
  | write c₀ n =>
      rw [sessionStep, Except.ok.injEq, Prod.mk.injEq] at hstep
      rw [← hstep.1] at hw' ⊢
      refine setClient_remaining hw hw' hc fun hcc _ => ?_
      rw [hcc]
      exact (hinv.client hwaits.2.2).write_remaining hwaits n
  | read c₀ n =>
      rcases bind_eq_ok.mp hstep with ⟨k, hk, hstep⟩
      rw [Except.ok.injEq, Prod.mk.injEq] at hstep
      rw [← hstep.1] at hw' ⊢
      refine setClient_remaining hw hw' hc fun hcc hwaits' => ?_
      rw [hcc] at hk
      exact (hinv.client hwaits.2.2).read_remaining hist hwaits hc hk hwaits'
  -- what goes wrong ends the wait
  | readEof c₀ =>
      rcases bind_eq_ok.mp hstep with ⟨k, hk, hstep⟩
      rw [Except.ok.injEq, Prod.mk.injEq] at hstep
      rw [← hstep.1] at hw' ⊢
      refine setClient_remaining hw hw' hc fun hcc hwaits' => Or.inl ?_
      rw [hcc] at hk
      exact Client.readEof_same hk hwaits'.2.2
  | fail c₀ =>
      rw [sessionStep, Except.ok.injEq, Prod.mk.injEq] at hstep
      rw [← hstep.1] at hw' ⊢
      refine setClient_remaining hw hw' hc fun hcc hwaits' => Or.inl ?_
      rw [hcc] at hwaits' ⊢
      exact Client.fail_same hwaits'.2.2
  | kill c₀ =>
      rw [sessionStep, Except.ok.injEq, Prod.mk.injEq] at hstep
      rw [← hstep.1] at hw' ⊢
      exact setClient_remaining hw hw' hc fun _ hwaits' => absurd rfl hwaits'.2.1
  | serve p =>
      rcases bind_eq_ok.mp hstep with ⟨⟨g, turns'⟩, hiter, hstep⟩
      rw [Except.ok.injEq, Prod.mk.injEq] at hstep
      rcases hinv'.history with ⟨stamps', hist'⟩
      rcases hw'.2 with ⟨conn', hc'⟩
      have hself : s'.clients c = (turnsOf turns c).foldl Client.turn (s.clients c) := by
        rw [← hstep.1, ← hstep.2]
        exact carry_eq ..
      have hmeets := hnet.2 g turns' hiter
      rw [hstep.2] at hmeets
      rcases (hinv.client hwaits.2.2).serve_remaining hist (hinv'.client hw'.1.2.2) hist' hself
        hmeets hwaits hc hc' with ⟨hsame, hbuf⟩ | hless
      · left
        refine ⟨hsame, ?_⟩
        rw [hc, hc', Option.map_some, Option.map_some, hbuf]
      · right
        rw [remaining_eq hwaits hc, remaining_eq hw'.1 hc']
        exact hless

/-- A step of the session, while a client waits: what moves on its connection is
    paid for by the distance. -/
theorem step_pays (hinv : SessionInv R c log s) {move : Move} (hnet : Network R c s move)
    (hstep : sessionStep R s move = .ok (s', turns)) (hw : s.Waits c) :
    s'.remaining c + (if Still c s s' then 0 else 1) ≤ s.remaining c := by
  by_cases hstill : Still c s s'
  · rw [if_pos hstill, hstill.remaining]
    omega
  · rw [if_neg hstill]
    by_cases hw' : s'.Waits c
    · rcases step_remaining hinv hnet hstep hw hw' with hsame | hless
      · exact absurd hsame hstill
      · exact hless
    -- the step ends the wait
    · rcases hw.2 with ⟨conn, hc⟩
      rcases hinv.history with ⟨stamps, hist⟩
      have hpos := (hinv.client hw.1.2.2).remaining_pos hist hw.1 hc
      rw [remaining_done hw', remaining_eq hw.1 hc]
      exact hpos

/-- While a client waits, no more steps move something on its connection than
    there are moves left. -/
theorem waits_le (hinv : SessionInv R c log s) {moves : List Move}
    (hnet : Guarded (sessionStep R) (Network R c) s moves)
    (hwaits : Guarded (sessionStep R) (fun s _ => s.Waits c) s moves) :
    stepsMoved (sessionStep R) (Still c) s moves ≤ s.remaining c := by
  have hpay : ∀ s move s' turns, (∃ log, SessionInv R c log s) →
      (Network R c s move ∧ s.Waits c) → sessionStep R s move = .ok (s', turns) →
      (∃ log, SessionInv R c log s') ∧
        s'.remaining c + (if Still c s s' then 0 else 1) ≤ s.remaining c + 0 := by
    rintro s move s' turns ⟨log, hI⟩ ⟨hnet, hw⟩ hstep
    exact ⟨⟨_, hI.step hnet hstep⟩, step_pays hI hnet hstep hw⟩
  have hle := stepsMoved_le hpay ⟨log, hinv⟩ (guarded_and hnet hwaits)
  rw [List.map_const', List.sum_replicate_nat, Nat.mul_zero] at hle
  exact hle

/-- The server asks `poll` about every connection it has. -/
theorem polled (hist : ∃ stamps, History R stamps log s.server) {conn : Conn}
    (hc : s.server.conns c = some conn) :
    ∃ args arg, pollArgs s.server s.server.fd2conn = .ok args ∧ arg ∈ args ∧ arg.conn = c ∧
      arg.pollIn = conn.wantRead ∧ arg.pollOut = conn.wantWrite := by
  rcases hist with ⟨stamps, hist⟩
  have hfds := hist.loopState.fds
  rcases pollArgs_spec (g := s.server) s.server.fd2conn (fun c hc => by
    rcases List.getElem?_of_mem hc with ⟨f, hf⟩
    rcases (hfds.named f c).mp hf with ⟨conn, h, _⟩
    exact ⟨conn, h⟩) with ⟨args, hargs, hmap, hask⟩
  -- the connection is in the table, so an element is about it
  have hslot := (hfds.named conn.fd.toNat c).mpr ⟨conn, hc, by
    have := hfds.nonneg c conn hc
    omega⟩
  have hmem : c ∈ args.map PollArg.conn := by
    rw [hmap, List.mem_filterMap]
    exact ⟨some c, List.mem_of_getElem? hslot, rfl⟩
  rcases List.mem_map.mp hmem with ⟨arg, harg, hconn⟩
  rcases hask arg harg with ⟨x, hx, _, hin, hout⟩
  rw [hconn, hc, Option.some.injEq] at hx
  rw [← hx] at hin hout
  exact ⟨args, arg, hargs, harg, hconn, hin, hout⟩

/-- In every state of a session, a client that waits on a connection the server
    has is not stuck: it has bytes to write, or bytes to read, or the server
    asks `poll` about its connection in a direction in which bytes can move. And
    as long as the wait goes on and every command returns, whatever is done in
    between, the bytes of its connection move at most as often as a request and
    a response at the limit take. -/
theorem wait_of_run (R : Runtime) {moves : List Move} {s : Session} {logs : List (List Turn)}
    (hrun : run (sessionStep R) {} moves = .ok (s, logs)) (c : Nat)
    (hnet : Guarded (sessionStep R) (Network R c) {} moves) {conn : Conn}
    (hc : s.server.conns c = some conn) (hw : (s.clients c).Waits) :
    ((s.clients c).unsent ≠ [] ∨ (s.clients c).down ≠ [] ∨
      ∃ args arg, pollArgs s.server s.server.fd2conn = .ok args ∧ arg ∈ args ∧ arg.conn = c ∧
        ((arg.pollIn = true ∧ (s.clients c).up ≠ []) ∨
          (arg.pollOut = true ∧ conn.outgoing ≠ []))) ∧
    ∀ moves', Guarded (sessionStep R) (Network R c) s moves' →
      Guarded (sessionStep R) (fun s _ => s.Waits c) s moves' →
      stepsMoved (sessionStep R) (Still c) s moves' ≤ 4 * (4 + kMaxMsg) := by
  have hinv := (sessionInv_init R c).run hnet hrun
  rcases hinv.history with ⟨stamps, hist⟩
  have h := hinv.client hw.2.2
  refine ⟨?_, fun moves' hnet' hwaits => ?_⟩
  · rcases polled hinv.history hc with ⟨args, arg, hargs, harg, hconn, hin, hout⟩
    rcases h.enabled hist hw hc with hne | hne | ⟨hread, hne⟩ | ⟨hwrite, hne⟩
    · exact Or.inl hne
    · exact Or.inr (Or.inl hne)
    · exact Or.inr (Or.inr ⟨args, arg, hargs, harg, hconn, Or.inl ⟨hin.trans hread, hne⟩⟩)
    · exact Or.inr (Or.inr ⟨args, arg, hargs, harg, hconn, Or.inr ⟨hout.trans hwrite, hne⟩⟩)
  · have hle := waits_le hinv hnet' hwaits
    have hmax := h.remaining_le hist hw hc
    rw [← remaining_eq hw hc] at hmax
    exact Nat.le_trans hle hmax

/-- The client has its connection and waits. -/
def waitsCheck (c : Nat) (s : Session) (_ : Move) : Bool :=
  decide (s.clients c).Waits && (s.server.conns c).isSome

theorem waits_of_check (c : Nat) (s : Session) (move : Move) (h : waitsCheck c s move = true) :
    s.Waits c := by
  rw [waitsCheck, Bool.and_eq_true, Option.isSome_iff_exists] at h
  exact ⟨of_decide_eq_true h.1, h.2⟩

theorem wait_of_run_quit :
    ∃ s logs, run (sessionStep noDoubles) {} (quitSession.take 3) = .ok (s, logs) ∧
      stepsMoved (sessionStep noDoubles) (Still 0) s (quitSession.drop 3) ≤ 4 * (4 + kMaxMsg) := by
  have hends : endsIn (sessionStep noDoubles) (fun s _ => waitsCheck 0 s (.hangUp 0) &&
      checkRun (sessionStep noDoubles) (waitsCheck 0) s (quitSession.drop 3)) {}
      (quitSession.take 3) = true := by
    decide +kernel
  rcases exists_of_endsIn hends with ⟨s, logs, hrun, htest⟩
  rw [Bool.and_eq_true] at htest
  rcases waits_of_check 0 s _ htest.1 with ⟨hw, conn, hc⟩
  have hsplit := quitSession_network
  rw [← List.take_append_drop 3 quitSession] at hsplit
  rcases guarded_split hsplit with ⟨hnet, hnet'⟩
  exact ⟨s, logs, hrun, (wait_of_run noDoubles hrun 0 hnet hc hw).2 _ (hnet' s logs hrun)
    (guarded_of_checkRun (waits_of_check 0) htest.2)⟩

end

end RedisServer
