import RedisServer.Core.Connection
import RedisServer.Lib.Framing
import RedisServer.Theory.Protocol.Response
import RedisServer.Theory.Server.State

/-!
# The Request Stream

A connection's input as a framed stream. `nextRequest` is the decision
`try_one_request` takes about the front of the incoming buffer: it waits for
more, refuses a frame that is too long or has a bad body, or executes one. The
decision stands whatever arrives later, so the stream is a `Framer`, and the
requests in it do not depend on how it arrives.

A frame of `send_request` is accepted when it has at most `k_max_args`
arguments. The client does not check that limit.

## Main definitions

* `nextRequest`, `requests`: The framed stream.
* `IsFrame`: The frames that are executed.
* `Front`: The cases of the decision.
* `refused`: A connection whose input was refused.

## Theorems

* `nextRequest_front`: Which case it is.
* `nextRequest_accept_iff`: What is executed.
* `tryOneRequest_more`, `tryOneRequest_reject`, `tryOneRequest_accept`: The
  source takes these decisions.
* `client_frame_served`: The server executes what the client sends.
-/

namespace RedisServer

open Lib

/-- The length in the header of a frame. -/
def frameLen (xs : Bytes) : Nat := leNat (xs.take 4)

/-- The decision of `try_one_request`. -/
def nextRequest (xs : Bytes) : Verdict (List Bytes) :=
  if xs.length < 4 then .more
  else if kMaxMsg < frameLen xs then .reject
  else if xs.length < 4 + frameLen xs then .more
  else
    match parseReq ((xs.drop 4).take (frameLen xs)) (frameLen xs) [] with
    | .ok (0, cmd) => .accept cmd (4 + frameLen xs)
    | _ => .reject

/-- A frame that is executed as the command `cmd`: a header, and a body no
    longer than the limit that `parse_req` accepts. -/
def IsFrame (frame : Bytes) (cmd : List Bytes) : Prop :=
  ∃ body, frame = le32 body.length ++ body ∧ body.length ≤ kMaxMsg ∧
    parseReq body body.length [] = .ok (0, cmd)

theorem frameLen_append {xs : Bytes} (h : 4 ≤ xs.length) (ys : Bytes) :
    frameLen (xs ++ ys) = frameLen xs := by
  rw [frameLen, List.take_append_of_le_length h, frameLen]

theorem frameLen_frame {body : Bytes} (h : body.length ≤ kMaxMsg) (rest : Bytes) :
    frameLen (le32 body.length ++ body ++ rest) = body.length := by
  rw [frameLen, List.append_assoc, List.take_append_of_le_length (by rw [length_le32]),
    List.take_of_length_le (by rw [length_le32]),
    leNat_le32 (Nat.lt_of_le_of_lt h (by decide))]

/-- A complete frame within the limit is decided by its body. -/
theorem nextRequest_frame {body : Bytes} (h : body.length ≤ kMaxMsg) (rest : Bytes) :
    nextRequest (le32 body.length ++ body ++ rest) =
      match parseReq body body.length [] with
      | .ok (0, cmd) => .accept cmd (4 + body.length)
      | _ => .reject := by
  have hlen : (le32 body.length ++ body ++ rest).length = 4 + body.length + rest.length := by
    rw [List.length_append, List.length_append, length_le32]
  have hbody : ((le32 body.length ++ body ++ rest).drop 4).take body.length = body := by
    rw [List.append_assoc, List.drop_left' (length_le32 _), List.take_left]
  rw [nextRequest, frameLen_frame h, hlen, if_neg (by omega), if_neg (Nat.not_lt.mpr h),
    if_neg (by omega), hbody]

/-- A stream that is not waiting for a header or a body starts with a frame. -/
theorem frame_of_complete {xs : Bytes} (hhead : ¬ xs.length < 4)
    (hbody : ¬ xs.length < 4 + frameLen xs) :
    ((xs.drop 4).take (frameLen xs)).length = frameLen xs ∧
      xs = le32 (frameLen xs) ++ (xs.drop 4).take (frameLen xs) ++ xs.drop (4 + frameLen xs) := by
  have hlen : ((xs.drop 4).take (frameLen xs)).length = frameLen xs := by
    rw [List.length_take, List.length_drop]
    omega
  refine ⟨hlen, ?_⟩
  have hword : (xs.take 4).length = 4 := by
    rw [List.length_take]
    omega
  rw [List.append_assoc, ← List.drop_drop, List.take_append_drop, frameLen, le32_leNat hword,
    List.take_append_drop]

/-- The parser returns `0` or `-1` on the body of a complete frame. -/
theorem parse_body {xs : Bytes} (hhead : ¬ xs.length < 4) (hlong : ¬ kMaxMsg < frameLen xs)
    (hbody : ¬ xs.length < 4 + frameLen xs) :
    ∃ rv cmd, parseReq ((xs.drop 4).take (frameLen xs)) (frameLen xs) [] = .ok (rv, cmd) ∧
      (rv = 0 ∨ rv = -1) := by
  have hlen := (frame_of_complete hhead hbody).1
  have hcases := parseReq_cases (d := (xs.drop 4).take (frameLen xs)) (by
    rw [hlen]
    exact Nat.lt_of_le_of_lt (Nat.le_of_not_lt hlong) (by decide))
  rw [hlen] at hcases
  rcases hcases with ⟨args, hrun, _⟩ | ⟨⟨out, hrun⟩, _⟩
  · exact ⟨0, args, hrun, Or.inl rfl⟩
  · exact ⟨-1, out, hrun, Or.inr rfl⟩

/-- The cases of the decision, in the order of the source's checks: the header,
    the limit, the body, and what the parser says about it. -/
inductive Front (xs : Bytes) : Verdict (List Bytes) → Prop
  | header : xs.length < 4 → Front xs .more
  | long : ¬ xs.length < 4 → kMaxMsg < frameLen xs → Front xs .reject
  | body : ¬ xs.length < 4 → ¬ kMaxMsg < frameLen xs → xs.length < 4 + frameLen xs → Front xs .more
  | parsed (cmd : List Bytes) :
      ¬ xs.length < 4 → ¬ kMaxMsg < frameLen xs → ¬ xs.length < 4 + frameLen xs →
      parseReq ((xs.drop 4).take (frameLen xs)) (frameLen xs) [] = .ok (0, cmd) →
      Front xs (.accept cmd (4 + frameLen xs))
  | malformed (out : List Bytes) :
      ¬ xs.length < 4 → ¬ kMaxMsg < frameLen xs → ¬ xs.length < 4 + frameLen xs →
      parseReq ((xs.drop 4).take (frameLen xs)) (frameLen xs) [] = .ok (-1, out) →
      Front xs .reject

theorem nextRequest_front (xs : Bytes) : Front xs (nextRequest xs) := by
  rw [nextRequest]
  by_cases hhead : xs.length < 4
  · rw [if_pos hhead]
    exact .header hhead
  rw [if_neg hhead]
  by_cases hlong : kMaxMsg < frameLen xs
  · rw [if_pos hlong]
    exact .long hhead hlong
  rw [if_neg hlong]
  by_cases hbody : xs.length < 4 + frameLen xs
  · rw [if_pos hbody]
    exact .body hhead hlong hbody
  rw [if_neg hbody]
  rcases parse_body hhead hlong hbody with ⟨rv, cmd, hparse, rfl | rfl⟩
  · rw [hparse]
    exact .parsed cmd hhead hlong hbody hparse
  · rw [hparse]
    exact .malformed cmd hhead hlong hbody hparse

/-- Executed are the commands of complete frames at the front of the stream. -/
theorem nextRequest_accept_iff {xs : Bytes} {cmd : List Bytes} {n : Nat} :
    nextRequest xs = .accept cmd n ↔
      ∃ frame rest, xs = frame ++ rest ∧ IsFrame frame cmd ∧ n = frame.length := by
  constructor
  · intro h
    have hfront := nextRequest_front xs
    rw [h] at hfront
    cases hfront with
    | parsed _ hhead hlong hbody hparse =>
      rcases frame_of_complete hhead hbody with ⟨hlen, hsplit⟩
      refine ⟨_, _, hsplit, ⟨_, by rw [hlen], by rw [hlen]; exact Nat.le_of_not_lt hlong,
        by rw [hlen]; exact hparse⟩, ?_⟩
      rw [List.length_append, length_le32, hlen]
  · rintro ⟨frame, rest, rfl, ⟨body, rfl, hmax, hparse⟩, rfl⟩
    rw [nextRequest_frame hmax, hparse, List.length_append, length_le32]
    rfl

/-- The request stream: its verdicts stand. -/
def requests : Framer UInt8 (List Bytes) where
  next := nextRequest
  bound := by
    intro xs cmd n h
    rcases nextRequest_accept_iff.mp h with ⟨frame, rest, rfl, ⟨body, rfl, _, _⟩, rfl⟩
    simp only [List.length_append, length_le32]
    omega
  stands := by
    intro xs ys h
    unfold nextRequest at h ⊢
    by_cases hhead : xs.length < 4
    · exact absurd (if_pos hhead) h
    rw [if_neg hhead] at h ⊢
    have hlen : (xs ++ ys).length = xs.length + ys.length := List.length_append
    rw [if_neg (by omega), frameLen_append (Nat.le_of_not_lt hhead)]
    by_cases hlong : kMaxMsg < frameLen xs
    · rw [if_pos hlong, if_pos hlong]
    rw [if_neg hlong] at h ⊢
    rw [if_neg hlong]
    by_cases hbody : xs.length < 4 + frameLen xs
    · exact absurd (if_pos hbody) h
    rw [if_neg hbody, if_neg (by omega), List.drop_append_of_le_length (Nat.le_of_not_lt hhead),
      List.take_append_of_le_length (by rw [List.length_drop]; omega)]

/-! ## The source's decisions -/

section

variable {R : Runtime} {g : GData} {c : Nat} {conn : Conn}

/-- The record of a connection whose input was refused: `n` bytes of the input
    are consumed and an error with the text `msg` is appended to the output. -/
def refused (conn : Conn) (n : Nat) (msg : Bytes) : Conn :=
  { conn with
    outgoing := conn.outgoing ++ responseFrame (outErr [] errBadReq msg)
    incoming := conn.incoming.drop n
    wantRead := false
    wantWrite := true
    wantClose := true }

theorem refuse_eq (g : GData) (c : Nat) (conn : Conn) {msg : Bytes} (n : Nat)
    (h : (outErr [] errBadReq msg).length ≤ kMaxMsg) :
    refuse g c conn msg n = .ok (g.setConn c (refused conn n msg)) := by
  rw [refuse, responseBegin]
  simp only
  rw [outErr_eq, responseEnd_eq, ok_bind, capped, if_neg (Nat.not_lt.mpr h), refused]

/-- While the front of the input is not a complete frame, nothing is done. -/
theorem tryOneRequest_more (hc : g.conns c = some conn) (h : nextRequest conn.incoming = .more)
    (now : Nat) : tryOneRequest R g c now = .ok (g, none) := by
  have hfront := nextRequest_front conn.incoming
  rw [h] at hfront
  rw [tryOneRequest, conn_eq hc, ok_bind]
  cases hfront with
  | header hhead => rw [if_pos hhead]
  | body hhead hlong hbody =>
    rw [frameLen] at hlong hbody
    simp only [if_neg hhead, if_neg hlong, if_pos hbody]

/-- A frame that is too long or whose body does not parse is refused. -/
theorem tryOneRequest_reject (hc : g.conns c = some conn) (h : nextRequest conn.incoming = .reject)
    (now : Nat) :
    ∃ n msg, tryOneRequest R g c now = .ok (g.setConn c (refused conn n msg), none) := by
  have hfront := nextRequest_front conn.incoming
  rw [h] at hfront
  rw [tryOneRequest, conn_eq hc, ok_bind]
  -- two ways to be refused, too long and not parsed
  cases hfront with
  | long hhead hlong =>
    refine ⟨4, ascii "Message too long", ?_⟩
    rw [frameLen] at hlong
    simp only [if_neg hhead, if_pos hlong]
    rw [refuse_eq _ _ _ _ (by decide), ok_bind]
  | malformed _ hhead hlong hbody hparse =>
    refine ⟨4 + frameLen conn.incoming, ascii "Bad request", ?_⟩
    rw [frameLen] at hlong hbody hparse ⊢
    simp only [if_neg hhead, if_neg hlong, if_neg hbody, hparse, ok_bind]
    rw [if_pos (by decide), refuse_eq _ _ _ _ (by decide), ok_bind]

/-- The frame of a command is executed: the outgoing buffer holds its response
    and nothing else, and the frame is consumed. -/
theorem tryOneRequest_accept (hc : g.conns c = some conn) {cmd : List Bytes} {n : Nat}
    (h : nextRequest conn.incoming = .accept cmd n) (now : Nat) :
    tryOneRequest R g c now = (do
      let (g, out) ← respond R g c cmd now
      let conn ← g.conn c
      .ok (g.setConn c { conn with outgoing := out, incoming := conn.incoming.drop n },
        some { cmd, now, response := out })) := by
  have hfront := nextRequest_front conn.incoming
  rw [h] at hfront
  rw [tryOneRequest, conn_eq hc, ok_bind]
  cases hfront with
  | parsed _ hhead hlong hbody hparse =>
    rw [frameLen] at hlong hbody hparse ⊢
    simp only [if_neg hhead, if_neg hlong, if_neg hbody, hparse, ok_bind]
    rw [if_neg (by decide)]

end

/-! ## What the client sends -/

theorem length_encodeArgs_ge (args : List Bytes) : 4 * args.length ≤ (encodeArgs args).length := by
  induction args with
  | nil => exact Nat.le_refl _
  | cons arg args ih =>
      rw [encodeArgs, List.length_append, List.length_append, length_le32, List.length_cons]
      omega

/-- A body with more arguments than the limit does not parse. -/
theorem parseReq_many {cmd : List Bytes} (hmany : kMaxArgs < cmd.length)
    (hsmall : (requestBody cmd).length < 2 ^ 32) :
    ∃ out, parseReq (requestBody cmd) (requestBody cmd).length [] = .ok (-1, out) := by
  rcases parseReq_cases hsmall with ⟨args, _, hbody, hmax⟩ | ⟨hrun, _⟩
  · have hcount := congrArg leNat (List.append_inj_left hbody (by rw [length_le32, length_le32]))
    have hlen := length_encodeArgs_ge cmd
    rw [length_requestBody] at hsmall
    rw [leNat_le32 (by omega), leNat_le32 (Nat.lt_of_le_of_lt hmax (by decide))] at hcount
    omega
  · exact hrun

/-- A frame of `send_request` with at most `k_max_args` arguments is executed,
    as exactly the vector that was sent. -/
theorem client_frame_served (R : Runtime) {g : GData} {c : Nat} {conn : Conn} {cmd : List Bytes}
    {frame rest : Bytes} (hc : g.conns c = some conn) (hsend : sendRequest cmd = .ok (some frame))
    (hmax : cmd.length ≤ kMaxArgs) (hin : conn.incoming = frame ++ rest) (now : Nat) :
    frameLen frame ≤ kMaxMsg ∧ parseReq (frame.drop 4) (frameLen frame) [] = .ok (0, cmd) ∧
      tryOneRequest R g c now = (do
        let (g, out) ← respond R g c cmd now
        let conn ← g.conn c
        .ok (g.setConn c { conn with
          outgoing := out
          incoming := conn.incoming.drop frame.length }, some { cmd, now, response := out })) := by
  have hbody := (sendRequest_iff cmd frame).mp hsend
  have hexact := (parse_body_iff hbody.1).mpr ⟨rfl, hmax⟩
  have hlen : frameLen frame = (requestBody cmd).length := by
    have := frameLen_frame hbody.1 []
    rwa [List.append_nil, ← hbody.2] at this
  have hdrop : frame.drop 4 = requestBody cmd := by
    rw [hbody.2]
    exact List.drop_left' (length_le32 _)
  rw [hlen, hdrop]
  refine ⟨hbody.1, hexact, tryOneRequest_accept hc ?_ now⟩
  exact nextRequest_accept_iff.mpr ⟨frame, rest, hin, ⟨_, hbody.2, hbody.1, hexact⟩, rfl⟩

theorem client_frame_served_set :
    (tryOneRequest ⟨fun _ => 0, fun _ => (⟨0⟩, 0)⟩
      (({} : GData).setConn 0
        { fd := 4
          incoming := responseFrame (requestBody [ascii "set", ascii "k", ascii "v w"]) ++
            ascii "rest" })
      0 7).map Prod.snd =
        .ok (some ⟨[ascii "set", ascii "k", ascii "v w"], 7,
          responseFrame (outStr [] (ascii "1"))⟩) := by
  rw [(client_frame_served _ rfl
    (sendRequest_iff [ascii "set", ascii "k", ascii "v w"] _ |>.mpr ⟨by decide, rfl⟩) (by decide)
    rfl 7).2.2]
  rfl

/-- A frame of `send_request` with more arguments is refused as a bad
    request. -/
theorem client_frame_many {cmd : List Bytes} {frame : Bytes}
    (hsend : sendRequest cmd = .ok (some frame)) (hmany : kMaxArgs < cmd.length) :
    ∃ out, parseReq (frame.drop 4) (frameLen frame) [] = .ok (-1, out) := by
  have hbody := (sendRequest_iff cmd frame).mp hsend
  have hlen : frameLen frame = (requestBody cmd).length := by
    have := frameLen_frame hbody.1 []
    rwa [List.append_nil, ← hbody.2] at this
  have hdrop : frame.drop 4 = requestBody cmd := by
    rw [hbody.2]
    exact List.drop_left' (length_le32 _)
  rw [hlen, hdrop]
  exact parseReq_many hmany (Nat.lt_of_le_of_lt hbody.1 (by decide))

theorem length_encodeArgs_empty (n : Nat) : (encodeArgs (List.replicate n [])).length = 4 * n := by
  induction n with
  | zero => rfl
  | succ n ih =>
      rw [List.replicate_succ, encodeArgs, List.length_append, List.length_append, length_le32, ih,
        List.length_nil]
      omega

/-- One argument more than the limit, and the frame the client writes is
    refused. -/
theorem client_frame_refused :
    ∃ frame, sendRequest (List.replicate 200001 []) = .ok (some frame) ∧
      ∃ out, parseReq (frame.drop 4) (frameLen frame) [] = .ok (-1, out) := by
  have hsend := (sendRequest_iff (List.replicate 200001 []) _).mpr
    ⟨by rw [length_requestBody, length_encodeArgs_empty]; decide, rfl⟩
  exact ⟨_, hsend, client_frame_many hsend (by rw [List.length_replicate]; decide)⟩

end RedisServer
