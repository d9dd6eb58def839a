import RedisServer.Theory.Protocol.Stream
import RedisServer.Theory.Server.Frames
import RedisServer.Theory.Server.Strings

/-!
# One Client's Commands

A client's string and TTL commands on one connection, with the sweeps between
them, against the reference model of `Theory.Server.Strings`. The model's
deadlines are exact. The server adds a time to live to its clock modulo
`2 ^ 64`, which is exact because a time to live is an `int64_t` and the clock
counts milliseconds since the machine started.

The hash is a parameter, so the comparison holds for any collisions, and a
run may be long enough for any number of resizes.

A reply reaches the client in a frame, and a reply that is over the limit of a
message does not: an error is sent in its place. Two keys of seventeen
megabytes each are enough for `keys` to reply with that error.

## Main definitions

* `StrEvent`, `clientStep`: The events of one connection, and the server's
  steps on them.
* `refSpec`: The reference model as a specification.
* `SweepsKeys`: The sweep ends no connection and stays below its limit.

## Theorems

* `clientStep_simulates`: One event.
* `strings_refine_map`: Every sequence of events.
* `keys_reply_replaced`: Two keys that `keys` does not list.
-/

namespace RedisServer

open Lib

/-! ## Number arguments -/

theorem saturate_range (v : Int) : -(2 ^ 63) ≤ saturate v ∧ saturate v < 2 ^ 63 := by
  unfold saturate
  omega

theorem strtoll_range (s : Bytes) : -(2 ^ 63) ≤ (strtoll s).1 ∧ (strtoll s).1 < 2 ^ 63 := by
  unfold strtoll
  dsimp only
  -- The sign, if there is one, and whether a digit follows it.
  split
  all_goals
    split
    · exact ⟨by decide, by decide⟩
    · exact saturate_range _

/-- What `str2int` accepts is an `int64_t`. -/
theorem str2int_range {s : Bytes} {v : Int} (h : str2int s = some v) :
    -(2 ^ 63) ≤ v ∧ v < 2 ^ 63 := by
  have hr := strtoll_range s
  simp only [str2int] at h
  split at h
  · rw [Option.some.injEq] at h
    rw [← h]
    exact hr
  · cases h

/-! ## The events of one connection -/

/-- What happens to one client, with the clock's reading: a command, activity
    on its socket, or a sweep. -/
inductive StrEvent
  | op (o : StrOp) (now : Nat)
  | touch (now : Nat)
  | sweep (now : Nat)
  deriving DecidableEq, Repr

/-- The clock's reading. -/
def StrEvent.now : StrEvent → Nat
  | .op _ now => now
  | .touch now => now
  | .sweep now => now

/-- The server's event, when the client is on connection `c`. -/
def StrEvent.event (c : Nat) : StrEvent → Event
  | .op o now => .request c o.argv now
  | .touch now => .touch c now
  | .sweep now => .sweep now

/-- The server's step on a client's event. -/
def clientStep (R : Runtime) (c : Nat) (g : GData) (e : StrEvent) : Result (GData × Bytes) :=
  answerStep R g (e.event c)

/-- The deadline of a time to live, if it is one. -/
def deadlineFrom (now : Nat) (ttlMs : Int) : Option Nat :=
  if ttlMs < 0 then none else some (now + ttlMs.toNat)

/-- The reference model, when `send` is what is sent of a reply. Its guard is
    the range of `CLOCK_MONOTONIC` in milliseconds. -/
def refSpec (send : Bytes → Bytes) : Spec Ref StrEvent Bytes where
  guard _ e := e.now < 2 ^ 63
  next m
    | .op o now => o.next (deadlineFrom now) m
    | .touch _ => m
    | .sweep now => m.expire now
  reply m
    | .op o now, r => ∃ reply, o.reply now m reply ∧ r = responseFrame (send reply)
    | .touch _, r => r = []
    | .sweep _, r => r = []

/-- The condition of a sweep: no connection is ended by it, and it does not
    stop at its limit. -/
def SweepsKeys (g : GData) : StrEvent → Prop
  | .op _ _ => True
  | .touch _ => True
  | .sweep now => NoneIdle g now ∧ dueCount g now ≤ kMaxWorks

section

variable {R : Runtime}

/-- The server's deadline is exact. -/
theorem dueAfter_eq {ttlMs : Int} {now : Nat} (hnow : now < 2 ^ 63) (httl : ttlMs < 2 ^ 63) :
    dueAfter ttlMs now = deadlineFrom now ttlMs := by
  rw [dueAfter, deadlineFrom]
  by_cases hneg : ttlMs < 0
  · rw [if_pos hneg, if_pos hneg]
  · rw [if_neg hneg, if_neg hneg, Nat.mod_eq_of_lt (by omega)]

theorem next_eq (o : StrOp) {now : Nat} (hnow : now < 2 ^ 63) (m : Ref) :
    o.next (fun ttlMs => dueAfter ttlMs now) m = o.next (deadlineFrom now) m := by
  cases o with
  | pexpire key ttl =>
      cases harg : str2int ttl with
      | none => simp only [StrOp.next, harg]
      | some ttlMs =>
          simp only [StrOp.next, harg, dueAfter_eq hnow (str2int_range harg).2]
  | get key => rfl
  | set key val => rfl
  | del key => rfl
  | pttl key => rfl
  | keys => rfl

/-- The connection is there, and the state holds the client's map for it. -/
def ClientMap (R : Runtime) (c : Nat) (g : GData) (m : Ref) : Prop :=
  Live g c ∧ ∃ m', Strings R g m' ∧ m' c = m

/-- A client's event is matched by the reference model's. -/
theorem clientStep_simulates (R : Runtime) (c : Nat) :
    Simulates (clientStep R c) SweepsKeys (refSpec capped) (ClientMap R c) := by
  rintro g m e ⟨hlive, m', hm', rfl⟩ hG hnow
  cases e with
  | op o now =>
      rcases strOp_step hm' hlive o now with ⟨g', r, hrun, hsame, hstr, hr⟩
      rcases hlive with ⟨conn, hc⟩
      refine ⟨g', framed r, ?_, ⟨r, hr, rfl⟩, (hsame.live c).mpr ⟨conn, hc⟩, _, hstr, ?_⟩
      · rw [clientStep, StrEvent.event, answerStep_request hm'.inv hc, hrun]
        rfl
      · rw [Function.update_self]
        exact next_eq o hnow (m' c)
  | touch now =>
      rcases hlive with ⟨conn, hc⟩
      rcases touch_step hm' hc now with ⟨g', hrun, hstr, _, hconns⟩
      refine ⟨g', [], ?_, rfl, ⟨_, by rw [hconns, Function.update_self]⟩, m', hstr, rfl⟩
      simp only [clientStep, StrEvent.event, answerStep, serverStep, hrun, ok_bind]
  | sweep now =>
      rcases sweep_step hm' hG.1 hG.2 with ⟨g', _, hrun, _, hsame, hstr⟩
      refine ⟨g', [], ?_, rfl, (hsame.live c).mpr hlive, _, hstr, rfl⟩
      simp only [clientStep, StrEvent.event, answerStep, serverStep, hrun, ok_bind]

/-- The first connection of a server. -/
theorem clientMap_accept {connfd : Int} (hfd : 0 ≤ connfd) {t₀ : Nat} {g₀ : GData}
    (h : serverStep R {} (.accept connfd t₀) = .ok (g₀, [])) :
    ClientMap R 0 g₀ fun _ => none := by
  rcases accept_step (strings_init R) connfd t₀ with ⟨g, hrun, hstr, _, hconns⟩
  simp only [serverStep, hrun, ok_bind, Except.ok.injEq, Prod.mk.injEq, and_true] at h
  rw [if_neg (Int.not_lt.mpr hfd)] at hconns
  rw [← h]
  exact ⟨⟨_, by rw [hconns]; exact Function.update_self _ _ _⟩, _, hstr, rfl⟩

end

/-- For every sequence of string and TTL commands on one connection, with
    sweeps that do not stop at their limit, no step fails and every response is
    the frame of the reference model's reply, or of the error in its place when
    it is over the limit, for any hash. -/
theorem strings_refine_map (R : Runtime) (connfd : Int) (hfd : 0 ≤ connfd) (t₀ : Nat) (g₀ : GData)
    (haccept : serverStep R {} (.accept connfd t₀) = .ok (g₀, [])) (es : List StrEvent)
    (hclock : ∀ e ∈ es, e.now < 2 ^ 63) (hsweep : Guarded (clientStep R 0) SweepsKeys g₀ es) :
    ∃ g rs, run (clientStep R 0) g₀ es = .ok (g, rs) ∧
      (refSpec capped).Agrees (fun _ => none) es rs := by
  rcases (clientStep_simulates R 0).run (clientMap_accept hfd haccept) hsweep
    (Spec.admits_of_forall (fun e he _ => hclock e he) _) with ⟨g, rs, hrun, hrs, _⟩
  exact ⟨g, rs, hrun, hrs⟩

/-- The server after its first client connected. -/
def oneClient : GData :=
  match serverStep noDoubles {} (.accept 5 0) with
  | .ok (g, _) => g
  | .error _ => {}

/-- The client sets a key, gives it a deadline, and asks for it. -/
def setExpireAsk : List StrEvent :=
  [.op (.set (ascii "k") (ascii "v")) 1, .op (.pexpire (ascii "k") (ascii "100")) 2,
    .op (.pttl (ascii "k")) 50]

theorem strings_refine_map_sweep :
    ∃ g rs, run (clientStep noDoubles 0) oneClient
        (setExpireAsk ++ [.sweep 200, .op .keys 300]) = .ok (g, rs) ∧
      (refSpec capped).Agrees (fun _ => none) (setExpireAsk ++ [.sweep 200, .op .keys 300]) rs := by
  refine strings_refine_map noDoubles 5 (by decide) 0 oneClient rfl _ (by decide)
    (guarded_append ?_ fun t rs hrun => ⟨?_, fun _ _ _ => ⟨True.intro, fun _ _ _ => True.intro⟩⟩)
  · exact ⟨True.intro, fun _ _ _ => ⟨True.intro, fun _ _ _ => ⟨True.intro, fun _ _ _ =>
      True.intro⟩⟩⟩
  · have hactive : ∀ c, (match run (clientStep noDoubles 0) oneClient setExpireAsk with
        | .ok (t, _) => (t.conns c).map Conn.lastActiveMs
        | .error _ => none) = if c = 0 then some 0 else none := by
      intro c
      cases c with
      | zero => rfl
      | succ c => rfl
    have hdue : (match run (clientStep noDoubles 0) oneClient setExpireAsk with
        | .ok (t, _) => dueCount t 200
        | .error _ => 0) = 1 := by decide +kernel
    rw [hrun] at hactive hdue
    dsimp only at hactive hdue
    constructor
    · intro c conn hc
      have hlast := hactive c
      rw [hc, Option.map_some] at hlast
      split at hlast
      · rw [Option.some.injEq] at hlast
        rw [Idle, hlast]
        decide
      · cases hlast
    · rw [hdue]
      decide

/-! ## A reply that is not sent -/

/-- A key of seventeen megabytes. -/
def wideKey (b : UInt8) : Bytes := List.replicate (17 * 2 ^ 20) b

/-- Two such keys, and the list of keys. -/
def twoWideKeys : List StrEvent :=
  [.op (.set (wideKey 97) []) 1, .op (.set (wideKey 98) []) 2, .op .keys 3]

theorem wideKey_ne : wideKey 97 ≠ wideKey 98 := by
  intro h
  have hhead := congrArg List.head? h
  rw [wideKey, wideKey, List.head?_replicate, List.head?_replicate, if_neg (by decide),
    if_neg (by decide), Option.some.injEq] at hhead
  exact absurd hhead (by decide)

/-- Each of the two commands that set a key fits in a request. -/
theorem wideKey_isFrame (b : UInt8) : ∃ frame, IsFrame frame (StrOp.set (wideKey b) []).argv := by
  have hlen : (requestBody (StrOp.set (wideKey b) []).argv).length ≤ kMaxMsg := by
    have hwide : (wideKey b).length = 17 * 2 ^ 20 := List.length_replicate
    have hset : (ascii "set").length = 3 := rfl
    rw [length_requestBody]
    simp only [StrOp.argv, encodeArgs, List.length_append, List.length_nil, length_le32, hwide, hset,
      kMaxMsg]
    decide
  exact ⟨_, _, rfl, hlen, (parse_body_iff hlen).mpr ⟨rfl, (by decide : 3 ≤ kMaxArgs)⟩⟩

theorem length_outKeys (l : List Bytes) :
    (outKeys [] l).length = 5 + (l.map fun k => 5 + k.length).sum := by
  have hall : (encodeAll (l.map Scalar.str)).length = (l.map fun k => 5 + k.length).sum := by
    induction l with
    | nil => rfl
    | cons k l ih =>
        have hstr : (Scalar.str k).encode.length = 5 + k.length := length_str k
        rw [encodeAll, List.map_cons, List.flatMap_cons, List.length_append, ← encodeAll, ih, hstr,
          List.map_cons, List.sum_cons]
  rw [outKeys_value, List.nil_append, Value.encode, List.length_append, length_outArr, hall]

/-- The client that set both keys is not told of them. -/
theorem keys_reply_replaced :
    (∀ o now, StrEvent.op o now ∈ twoWideKeys → ∃ frame, IsFrame frame o.argv) ∧
      ∃ g rs, run (clientStep noDoubles 0) oneClient twoWideKeys = .ok (g, rs) ∧
        rs[2]? = some (responseFrame tooBig) ∧
        ¬ (refSpec id).Agrees (fun _ => none) twoWideKeys rs := by
  constructor
  · intro o now ho
    simp only [twoWideKeys, List.mem_cons, StrEvent.op.injEq, List.not_mem_nil, or_false] at ho
    rcases ho with ⟨rfl, _⟩ | ⟨rfl, _⟩ | ⟨rfl, _⟩
    · exact wideKey_isFrame 97
    · exact wideKey_isFrame 98
    · have hlen : (requestBody StrOp.keys.argv).length ≤ kMaxMsg := by decide
      exact ⟨_, _, rfl, hlen, (parse_body_iff hlen).mpr ⟨rfl, by decide⟩⟩
  have hclock : ∀ e ∈ twoWideKeys, e.now < 2 ^ 63 := by
    intro e he
    simp only [twoWideKeys, List.mem_cons, List.not_mem_nil, or_false] at he
    rcases he with rfl | rfl | rfl
    · decide
    · decide
    · decide
  rcases strings_refine_map noDoubles 5 (by decide) 0 oneClient rfl twoWideKeys hclock
    ⟨True.intro, fun _ _ _ => ⟨True.intro, fun _ _ _ => ⟨True.intro, fun _ _ _ => True.intro⟩⟩⟩ with
    ⟨g, rs, hrun, hrs⟩
  refine ⟨g, rs, hrun, ?_⟩
  match rs, hrs with
  | [r₁, r₂, r₃], hrs =>
    rcases hrs.2.2.1 with ⟨reply, ⟨l, hnd, hmem, rfl⟩, hr₃⟩
    -- both keys are in the list, so it takes more than the limit
    have hlong : ∀ l : List Bytes, l.Nodup → (∀ k, k ∈ l ↔ k = wideKey 98 ∨ k = wideKey 97) →
        kMaxMsg < (outKeys [] l).length := by
      intro l hnd hmem
      have hp : l.Perm [wideKey 98, wideKey 97] := by
        rw [List.perm_ext_iff_of_nodup hnd (by simp [wideKey_ne.symm])]
        intro k
        rw [hmem, List.mem_cons, List.mem_singleton]
      have hwide : ∀ b, (wideKey b).length = 17 * 2 ^ 20 := fun b => List.length_replicate
      rw [length_outKeys, (hp.map _).sum_nat]
      simp only [List.map_cons, List.map_nil, List.sum_cons, List.sum_nil, hwide, kMaxMsg]
      decide
    have hkeys : ∀ k, (((refSpec capped).next ((refSpec capped).next (fun _ => none)
        (.op (.set (wideKey 97) []) 1)) (.op (.set (wideKey 98) []) 2)) k).isSome ↔
          k = wideKey 98 ∨ k = wideKey 97 := by
      intro k
      simp only [refSpec, StrOp.next, Function.update_apply]
      by_cases h₁ : k = wideKey 98
      · rw [if_pos h₁]
        exact ⟨fun _ => Or.inl h₁, fun _ => rfl⟩
      · rw [if_neg h₁]
        by_cases h₂ : k = wideKey 97
        · rw [if_pos h₂]
          exact ⟨fun _ => Or.inr h₂, fun _ => rfl⟩
        · rw [if_neg h₂]
          exact ⟨fun h => absurd h (by decide), fun h => absurd h (not_or.mpr ⟨h₁, h₂⟩)⟩
    have hbig := hlong l hnd fun k => (hmem k).trans (hkeys k)
    rw [capped, if_pos hbig] at hr₃
    refine ⟨by rw [hr₃]; rfl, fun hagrees => ?_⟩
    rcases hagrees.2.2.1 with ⟨reply', ⟨l', hnd', hmem', rfl⟩, hr₃'⟩
    have hbig' := hlong l' hnd' fun k => (hmem' k).trans (hkeys k)
    have hlen := congrArg List.length (hr₃.symm.trans hr₃')
    have hsmall : (responseFrame tooBig).length ≤ kMaxMsg := by decide
    rw [hlen, responseFrame, List.length_append, id] at hsmall
    omega

end RedisServer
