import RedisServer.Core.Session
import RedisServer.Theory.Loop.Buffers
import RedisServer.Theory.Loop.Pipeline
import RedisServer.Theory.Protocol.Value

/-!
# The Bytes Between Client and Server

What is assumed about a client and its connection, and what follows about the
bytes of the connection from that alone: everything the client wrote is read by
the server or on its way, and everything the server wrote is read by the client
or on its way, in order. Neither end matters here, and nothing is assumed about
the other clients.

A response is a frame, so the client can tell where it ends. Reading it by
`read_full` a piece at a time comes to the same as `read_response`.

## Main definitions

* `Client.MeetsAll`: Turns that find the connection as it is.
* `Network`: What is assumed of a step.
* `Client.unsent`, `Client.got`: The frame and the response in progress.

## Theorems

* `carry_eq`: Turns, by connection.
* `Client.after_turns`: What turns do to a connection.
* `readResponse_whole`: What `read_response` makes of it.
* `History.sent_prefix`: What a connection sent.
-/

namespace RedisServer

open Lib

namespace Client

/-- What each of these turns of one connection reads is the front of what the
    client wrote. -/
def MeetsAll : Client → List Turn → Prop
  | _, [] => True
  | k, turn :: turns => turn.received <+: k.up ∧ (k.turn turn).MeetsAll turns

end Client

/-- What is assumed of a step for the client `c`. Its commands have no more
    arguments than the server takes, `accept` returns a descriptor that is free,
    and the server reads what the client wrote, in order. Every call may fail,
    and every connection may end. -/
def Network (R : Runtime) (c : Nat) (s : Session) : Move → Prop
  | .line c' input => c' = c → ∀ cmd, tokenize input = .ok cmd → cmd.length ≤ kMaxArgs
  | .query c' cmd => c' = c → cmd.length ≤ kMaxArgs
  | .serve p => AcceptFresh s.server p ∧
      ∀ g turns, iteration R s.server p = .ok (g, turns) →
        (s.clients c).MeetsAll (turnsOf turns c)
  | _ => True

namespace Client

/-- What is left to write of the frame in progress. -/
def unsent (k : Client) : Bytes :=
  match k.stage with
  | .writing rest => rest
  | _ => []

/-- What was read of the response in progress. -/
def got (k : Client) : Bytes :=
  match k.stage with
  | .header got => got
  | .payload header got => header ++ got
  | _ => []

end Client

section

variable {R : Runtime} {g g' : GData}

theorem carry_cons (clients : Nat → Client) (turn : Turn) (turns : List Turn) :
    carry clients (turn :: turns) = carry (carry clients [turn]) turns := rfl

theorem carry_single (clients : Nat → Client) (turn : Turn) (c : Nat) :
    carry clients [turn] c =
      if turn.conn = c then (clients c).turn turn else clients c := by
  rw [carry, List.foldl_cons, List.foldl_nil, Function.update_apply]
  by_cases h : turn.conn = c
  · rw [if_pos h, if_pos h.symm, h]
  · rw [if_neg h, if_neg (fun h' => h h'.symm)]

theorem turnsOf_cons (turn : Turn) (turns : List Turn) (c : Nat) :
    turnsOf (turn :: turns) c =
      if turn.conn = c then turn :: turnsOf turns c else turnsOf turns c := by
  simp only [turnsOf, List.filter_cons, decide_eq_true_eq]

/-- A connection after some turns: only its own turns count. -/
theorem carry_eq (clients : Nat → Client) (turns : List Turn) (c : Nat) :
    carry clients turns c = (turnsOf turns c).foldl Client.turn (clients c) := by
  induction turns generalizing clients with
  | nil => rfl
  | cons turn turns ih =>
      rw [carry_cons, ih, turnsOf_cons, carry_single]
      by_cases h : turn.conn = c
      · rw [if_pos h, if_pos h, List.foldl_cons]
      · rw [if_neg h, if_neg h]

/-- Turns of the server take bytes off one end of the connection and put bytes
    on the other. The client itself does not move. -/
theorem Client.after_turns {k : Client} {turns : List Turn} (h : k.MeetsAll turns) :
    ∃ up, received turns ++ up = k.up ∧
      turns.foldl Client.turn k = { k with up := up, down := k.down ++ sent turns } := by
  induction turns generalizing k with
  | nil =>
      refine ⟨k.up, rfl, ?_⟩
      rw [sent, List.flatMap_nil, List.append_nil]
      rfl
  | cons turn turns ih =>
      rcases h with ⟨⟨up, hup⟩, hrest⟩
      rcases ih hrest with ⟨up', hup', hrun⟩
      have hturn : k.turn turn = { k with up := up, down := k.down ++ turn.sent } := by
        rw [Client.turn, ← hup, List.drop_left]
      rw [hturn] at hup' hrun
      refine ⟨up', ?_, ?_⟩
      · rw [received, List.flatMap_cons, List.append_assoc, ← received, hup', hup]
      · rw [List.foldl_cons, hturn, hrun, sent, sent, List.flatMap_cons, ← List.append_assoc]

/-! ## Responses -/

/-- What `read_response` makes of a frame within the limit that arrives in
    full. -/
theorem readResponse_whole {payload : Bytes} (hmax : payload.length ≤ kMaxMsg)
    {reads : List SockRead} (hreads : Delivering reads)
    (hbytes : reads.flatMap SockRead.bytes = responseFrame payload) :
    readResponse reads = (do
      let rv ← printResponse payload
      .ok (if 0 < rv ∧ rv ≠ payload.length then -1 else rv)) := by
  have hlt : payload.length < 2 ^ 32 := Nat.lt_of_le_of_lt hmax (by decide)
  rw [responseFrame] at hbytes
  rcases readFull_full reads [] 4 [] hreads (by rw [hbytes, List.length_append, length_le32]; omega)
    with ⟨rs₁, hhead, hrs₁, hrest₁⟩
  rw [hbytes, List.take_left' (length_le32 _), List.nil_append, List.append_nil,
    List.append_nil] at hhead
  rw [hbytes, List.drop_left' (length_le32 _)] at hrest₁
  rcases readFull_full rs₁ [] payload.length [] hrs₁ (by rw [hrest₁]) with ⟨rs₂, hbody, _⟩
  rw [hrest₁, List.take_of_length_le (Nat.le_refl _), List.nil_append, List.append_nil,
    List.append_nil] at hbody
  simp only [readResponse, hhead, zeroFill_full (length_le32 _), leNat_le32 hlt, hbody,
    zeroFill_full]
  rw [if_neg (by decide), if_neg (Nat.not_lt.mpr hmax), if_neg (by decide)]
  cases printResponse payload with
  | error f => rfl
  | ok rv =>
      simp only [ok_bind]
      by_cases hrv : 0 < rv ∧ rv ≠ payload.length
      · rw [if_pos hrv, if_pos hrv]
      · rw [if_neg hrv, if_neg hrv]

/-! ## Turns -/

/-- What a connection sent is the front of what its turns left to send. A turn
    that destroys it may leave the rest unsent. -/
theorem History.sent_prefix {stamps : List Nat} {log : List Turn} (h : History R stamps log g)
    (c : Nat) : ∃ out, sent (turnsOf log c) ++ out =
      (turnsOf log c).flatMap fun turn => lastResponse turn.served [] := by
  induction h with
  | start => exact ⟨[], rfl⟩
  | accept _ _ _ _ ih => exact ih
  | idle _ _ _ _ ih => exact ih
  | tables _ _ _ ih => exact ih
  | @turn _ log g g' c₀ conn conn' turn P h hinv hc hpolled hin hmoves ih =>
      rw [turnsOf_append]
      by_cases hcc : turn.conn = c
      · rw [turnsOf_self hcc]
        -- what the turn sent was in the outgoing buffer it found
        rcases hmoves.turned.front with ⟨out, hout⟩
        rw [← hmoves.given, hcc] at hc
        refine ⟨out ++ lastResponse turn.served [], ?_⟩
        rw [sent, List.flatMap_append, List.flatMap_append, List.flatMap_singleton,
          List.flatMap_singleton, ← (h.traffic c).output conn hc, ← hout, ← sent]
        simp only [List.append_assoc]
      · rw [turnsOf_other hcc, List.append_nil]
        exact ih

/-! ## Frames -/

/-- The frame of a command. -/
def requestFrame (cmd : List Bytes) : Bytes := responseFrame (requestBody cmd)

theorem decode_frames {cmds : List (List Bytes)}
    (hframes : ∀ cmd ∈ cmds, IsFrame (requestFrame cmd) cmd) :
    requests.decode (cmds.flatMap requestFrame) = (cmds, []) := by
  have hall : List.Forall₂ IsFrame (cmds.map requestFrame) cmds := by
    induction cmds with
    | nil => exact List.Forall₂.nil
    | cons cmd cmds ih =>
        exact List.Forall₂.cons (hframes cmd List.mem_cons_self)
          (ih fun cmd' hcmd' => hframes cmd' (List.mem_cons_of_mem _ hcmd'))
  have hsplit := splits_iff.mpr ⟨_, Eq.refl ((cmds.map requestFrame).flatten ++ []), hall⟩
  rw [List.append_nil, ← List.flatMap_def] at hsplit
  refine Framer.decode_eq_iff.mpr ⟨hsplit, fun cmd n hnext => ?_⟩
  have hb := requests.bound hnext
  rw [List.length_nil] at hb
  omega

/-- The front of a stream of frames holds the first of the commands. -/
theorem decode_front {cmds : List (List Bytes)}
    (hframes : ∀ cmd ∈ cmds, IsFrame (requestFrame cmd) cmd) {xs ys : Bytes}
    (hxs : xs ++ ys = cmds.flatMap requestFrame) : (requests.decode xs).1 <+: cmds := by
  have hdec := decode_frames hframes
  rw [← hxs, Framer.decode_append, Prod.mk.injEq] at hdec
  exact ⟨_, hdec.1⟩

end

end RedisServer
