import RedisServer.Theory.Server.Step

/-!
# Strings and Deadlines

What the string and TTL commands are for. The reference model of one client is
a map from keys to a string and an optional deadline. Nothing in it mentions
tables, entries or a heap. `set` stores a string and keeps the deadline, `del`
removes both, `pexpire` sets or clears the deadline, and a sweep removes the
keys whose deadline has passed.

The server holds one such map for every connection. A command changes the map
of its own connection, and its reply is read off that map; a sweep changes all
of them.

## Main definitions

* `StrOp`: The commands, with the argument vectors a client sends.
* `Ref`, `StrOp.next`, `StrOp.reply`, `Ref.expire`: The reference model.
* `Strings`: A state holds strings only, and stands for one map for each
  connection.

## Theorems

* `strOp_step`: One command.
* `sweep_step`: One sweep.
* `accept_step`, `touch_step`: The event loop's bookkeeping.
-/

namespace RedisServer

open Lib

/-- The string, key and TTL commands. The argument of `pexpire` is the text the
    client sent. -/
inductive StrOp
  | get (key : Bytes)
  | set (key val : Bytes)
  | del (key : Bytes)
  | pexpire (key ttl : Bytes)
  | pttl (key : Bytes)
  | keys
  deriving DecidableEq, Repr

/-- The argument vector of a command. -/
def StrOp.argv : StrOp → List Bytes
  | .get key => [ascii "get", key]
  | .set key val => [ascii "set", key, val]
  | .del key => [ascii "del", key]
  | .pexpire key ttl => [ascii "pexpire", key, ttl]
  | .pttl key => [ascii "pttl", key]
  | .keys => [ascii "keys"]

/-! ## The reference model -/

/-- A client's keys: the string of each, and its deadline if it has one. -/
abbrev Ref := Bytes → Option (Bytes × Option Nat)

/-- The map after a command. `due` is the deadline that a time to live gives at
    the time of the command. -/
def StrOp.next (due : Int → Option Nat) (m : Ref) : StrOp → Ref
  | .get _ => m
  | .set key val => Function.update m key (some (val, (m key).bind Prod.snd))
  | .del key => Function.update m key none
  | .pexpire key ttl =>
    match str2int ttl with
    | none => m
    | some ttlMs => Function.update m key ((m key).map fun v => (v.1, due ttlMs))
  | .pttl _ => m
  | .keys => m

/-- The reply to a command. `keys` may list the keys in any order. -/
def StrOp.reply (now : Nat) (m : Ref) : StrOp → Bytes → Prop
  | .get key, r => r =
    match m key with
    | none => outNil []
    | some (val, _) => outStr [] val
  | .set _ _, r => r = outStr [] (ascii "1")
  | .del key, r => r = if (m key).isSome then outStr [] (ascii "1") else outStr [] (ascii "0")
  | .pexpire key ttl, r => r =
    match str2int ttl with
    | none => outErr [] errBadArg (ascii "expect int64")
    | some _ => if (m key).isSome then outInt [] 1 else outInt [] 0
  | .pttl key, r => r =
    match m key with
    | none => outInt [] (-2)
    | some (_, none) => outInt [] (-1)
    | some (_, some d) => outInt [] (max 0 ((d : Int) - now))
  | .keys, r => ∃ l : List Bytes, l.Nodup ∧ (∀ k, k ∈ l ↔ (m k).isSome) ∧ r = outKeys [] l

/-- The map after a sweep: the keys whose deadline has passed are gone. -/
def Ref.expire (now : Nat) (m : Ref) : Ref :=
  fun k => (m k).filter fun v => v.2.all fun d => decide (now ≤ d)

/-! ## The server holds one map for each connection -/

/-- A state of the invariant in which every key holds a string, and the map of
    each connection. -/
structure Strings (R : Runtime) (g : GData) (m : Nat → Ref) : Prop where
  inv : Inv R g
  views : ∃ K, Views g K ∧ (∀ c k x d, K c k = some (x, d) → x.type = .str) ∧
    ∀ c k, m c k = (K c k).map fun v => (v.1.str, v.2)

section

variable {R : Runtime} {g g' : GData} {m : Nat → Ref}

/-- The connection is there. -/
def Live (g : GData) (c : Nat) : Prop := ∃ conn, g.conns c = some conn

/-- A keyspace changed at one key of one connection, seen through the maps. -/
theorem map_set (K : Keyspace) (c : Nat) (k : Bytes) (v : Option (Entry × Option Nat))
    (hm : ∀ c k, m c k = (K c k).map fun v => (v.1.str, v.2)) (c' : Nat) (k' : Bytes) :
    Function.update m c (Function.update (m c) k (v.map fun v => (v.1.str, v.2))) c' k' =
      (K.set c k v c' k').map fun v => (v.1.str, v.2) := by
  by_cases hc : c' = c
  · rw [hc, Function.update_self]
    by_cases hk : k' = k
    · rw [hk, Function.update_self, Keyspace.set_same]
    · rw [Function.update_of_ne hk, Keyspace.set_other K v fun h => hk h.2, hm]
  · rw [Function.update_of_ne hc, Keyspace.set_other K v fun h => hc h.1, hm]

/-- A step to a keyspace changed at one key, to a string or to nothing. -/
theorem Strings.set {K : Keyspace} {c : Nat} {k : Bytes} {v : Option (Entry × Option Nat)}
    (hmoved : Moved R g g' K (K.set c k v))
    (hstr : ∀ c k x d, K c k = some (x, d) → x.type = .str)
    (hm : ∀ c k, m c k = (K c k).map fun v => (v.1.str, v.2))
    (hv : ∀ x d, v = some (x, d) → x.type = .str) :
    Strings R g' (Function.update m c (Function.update (m c) k (v.map fun v => (v.1.str, v.2)))) where
  inv := hmoved.inv
  views := by
    refine ⟨_, hmoved.views, fun c' k' x d h => ?_, map_set K c k v hm⟩
    by_cases hck : c' = c ∧ k' = k
    · rw [hck.1, hck.2, Keyspace.set_same] at h
      exact hv x d h
    · rw [Keyspace.set_other K v hck] at h
      exact hstr c' k' x d h

/-- The command's branch of the dispatch. -/
theorem doRequest_argv (R : Runtime) (g : GData) (c : Nat) (o : StrOp) (now : Nat) (out : Bytes) :
    doRequest R g c o.argv now out =
      match o with
      | .get _ => doGet R g c o.argv out
      | .set _ _ => doSet R g c o.argv out
      | .del _ => doDel R g c o.argv out
      | .pexpire _ _ => doExpire R g c o.argv now out
      | .pttl _ => doTtl R g c o.argv now out
      | .keys => doKeys g c out := by
  cases o <;> rfl

theorem ttlReply_eq (out : Bytes) (now : Nat) (x : Entry) (d : Nat) :
    ttlReply out now (some (x, some d)) = outInt out (max 0 ((d : Int) - now)) := by
  rw [ttlReply]
  congr 1
  split
  · omega
  · omega

/-! ### What the commands do to a string -/

section

variable {v : Option (Entry × Option Nat)}

/-- `get` of a string, or of no key. -/
theorem getReply_str (hv : ∀ x d, v = some (x, d) → x.type = .str) (out : Bytes) :
    getReply out v = match v.map fun v => (v.1.str, v.2) with
      | none => outNil out
      | some (val, _) => outStr out val := by
  cases v with
  | none => rfl
  | some v => rw [Option.map_some, getReply, if_neg (not_not.mpr (hv v.1 v.2 rfl))]

/-- `set` of a string, or of no key. -/
theorem setReply_str (hv : ∀ x d, v = some (x, d) → x.type = .str) (out : Bytes) :
    setReply out v = outStr out (ascii "1") := by
  cases v with
  | none => rfl
  | some v => rw [setReply, if_neg (not_not.mpr (hv v.1 v.2 rfl))]

theorem setValue_str (hv : ∀ x d, v = some (x, d) → x.type = .str) (R : Runtime) (c : Nat)
    (key val : Bytes) :
    (setValue R c key val v).1.type = .str ∧ (setValue R c key val v).1.str = val := by
  cases v with
  | none => exact ⟨rfl, rfl⟩
  | some v =>
      have ht := hv v.1 v.2 rfl
      rw [setValue, if_neg (not_not.mpr ht)]
      exact ⟨ht, rfl⟩

/-- `pttl` of a string, or of no key. -/
theorem ttlReply_str (out : Bytes) (now : Nat) :
    ttlReply out now v = match v.map fun v => (v.1.str, v.2) with
      | none => outInt out (-2)
      | some (_, none) => outInt out (-1)
      | some (_, some d) => outInt out (max 0 ((d : Int) - now)) := by
  rcases v with _ | ⟨x, _ | d⟩
  · rfl
  · rfl
  · exact ttlReply_eq out now x d

end

/-- One command on a connection changes that connection's map as the reference
    model does, and its reply is one the model allows. -/
theorem strOp_step (h : Strings R g m) {c : Nat} (hlive : Live g c) (o : StrOp) (now : Nat) :
    ∃ g' r, doRequest R g c o.argv now [] = .ok (g', r) ∧ SameLoop g g' ∧
      Strings R g' (Function.update m c (o.next (fun ttl => dueAfter ttl now) (m c))) ∧
      o.reply now (m c) r := by
  rcases h.views with ⟨K, hK, hstr, hm⟩
  rcases hlive with ⟨conn, hc⟩
  rw [doRequest_argv]
  have hsame : Function.update m c (m c) = m := Function.update_eq_self c m
  cases o with
  | get key =>
      rcases doGet_spec h.inv hK hc [ascii "get", key] [] with ⟨g', hrun, hmoved⟩
      refine ⟨g', _, hrun, hmoved.same, ?_, ?_⟩
      · rw [StrOp.next, hsame]
        exact ⟨hmoved.inv, K, hmoved.views, hstr, hm⟩
      · show getReply [] (K c key) = _
        rw [hm]
        exact getReply_str (hstr c key) []
  | set key val =>
      rcases doSet_spec h.inv hK hc [ascii "set", key, val] [] with ⟨g', hrun, hmoved⟩
      have hnew := setValue_str (hstr c key) R c key val
      refine ⟨g', _, hrun, hmoved.same, ?_, setReply_str (hstr c key) []⟩
      have hset : Strings R g' (Function.update m c (Function.update (m c) key
          ((some (setValue R c key val (K c key))).map fun v => (v.1.str, v.2)))) := by
        refine Strings.set hmoved hstr hm fun x d hx => ?_
        have hfst : (setValue R c key val (K c key)).1 = x :=
          congrArg Prod.fst (Option.some.inj hx)
        rw [← hfst]
        exact hnew.1
      have hdue : (m c key).bind Prod.snd = (K c key).bind Prod.snd := by
        rw [hm, Option.bind_map]
        rfl
      rw [Option.map_some, hnew.2, setValue_snd, ← hdue] at hset
      exact hset
  | del key =>
      rcases doDel_spec h.inv hK hc [ascii "del", key] [] with
        ⟨g', hrun, hmoved⟩ | ⟨f, x, d, _, hx, hz, _⟩
      · refine ⟨g', _, hrun, hmoved.same, ?_, ?_⟩
        · exact Strings.set hmoved hstr hm fun x d hx => nomatch hx
        · show delReply [] (K c key) = _
          rw [hm, Option.isSome_map, delReply]
      · have ht := hstr c key x d hx
        rw [hz] at ht
        exact absurd ht (by decide)
  | pexpire key ttl =>
      cases harg : str2int ttl with
      | none =>
          have hrun : doExpire R g c [ascii "pexpire", key, ttl] now [] =
              .ok (g, outErr [] errBadArg (ascii "expect int64")) := by
            have harg' : str2int (arg [ascii "pexpire", key, ttl] 2) = none := harg
            simp only [doExpire, harg']
          refine ⟨g, _, hrun, SameLoop.refl g, ?_, ?_⟩
          · simp only [StrOp.next, harg, hsame]
            exact h
          · simp only [StrOp.reply, harg]
      | some ttlMs =>
          rcases doExpire_spec h.inv hK hc [ascii "pexpire", key, ttl] now [] harg with
            ⟨g', hrun, hmoved⟩
          have hty : ∀ x d, (K c key).map (fun v => (v.1, dueAfter ttlMs now)) = some (x, d) →
              x.type = .str := by
            intro x d hx
            rcases Option.map_eq_some_iff.mp hx with ⟨v, hv, hvx⟩
            rw [Prod.mk.injEq] at hvx
            rw [← hvx.1]
            exact hstr c key v.1 v.2 hv
          refine ⟨g', _, hrun, hmoved.same, ?_, ?_⟩
          · have hset := Strings.set hmoved hstr hm hty
            simp only [StrOp.next, harg]
            have hval : ((K c key).map fun v => (v.1, dueAfter ttlMs now)).map
                (fun v => (v.1.str, v.2)) = (m c key).map fun v => (v.1, dueAfter ttlMs now) := by
              rw [hm, Option.map_map, Option.map_map]
              rfl
            rw [← hval]
            exact hset
          · simp only [StrOp.reply, harg, hm, Option.isSome_map]
            rfl
  | pttl key =>
      rcases doTtl_spec h.inv hK hc [ascii "pttl", key] now [] with ⟨g', hrun, hmoved⟩
      refine ⟨g', _, hrun, hmoved.same, ?_, ?_⟩
      · rw [StrOp.next, hsame]
        exact ⟨hmoved.inv, K, hmoved.views, hstr, hm⟩
      · show ttlReply [] now (K c key) = _
        rw [hm]
        exact ttlReply_str [] now
  | keys =>
      refine ⟨g, _, doKeys_spec h.inv hc [], SameLoop.refl g, ?_, keysOf g c,
        keysOf_nodup h.inv.db c, fun k => ?_, rfl⟩
      · rw [StrOp.next, hsame]
        exact h
      · rw [mem_keysOf_iff h.inv.db hK, hm, Option.isSome_map]

/-- A sweep that ends no connection and stays below its limit removes exactly
    the keys that are due, of every connection. -/
theorem sweep_step (h : Strings R g m) {now : Nat} (hact : NoneIdle g now)
    (hcap : dueCount g now ≤ kMaxWorks) :
    ∃ g' es, processTimers g now = .ok g' ∧ Swept now g es g' ∧ SameLoop g g' ∧
      Strings R g' fun c => (m c).expire now := by
  rcases h.views with ⟨K, hK, hstr, hm⟩
  rcases processTimers_spec h.inv hK hact hcap with
    ⟨g', es, hrun, hsw, hmoved⟩ | ⟨f, x, _, hz, _, c, k, d, hx, _⟩
  · refine ⟨g', es, hrun, hsw, hmoved.same, hmoved.inv, K.expire now, hmoved.views,
      fun c k x d hx => ?_, fun c k => ?_⟩
    · exact hstr c k x d (Option.filter_eq_some_iff.mp hx).1
    · rw [Ref.expire, hm, Keyspace.expire]
      cases hv : K c k with
      | none => rfl
      | some v =>
          rw [Option.map_some, Option.filter_some, Option.filter_some]
          split
          · rfl
          · rfl
  · have ht := hstr c k x (some d) hx
    rw [hz] at ht
    exact absurd ht (by decide)

/-- Accepting a connection changes no map. -/
theorem accept_step (h : Strings R g m) (connfd : Int) (now : Nat) :
    ∃ g', handleAccept g connfd now = .ok g' ∧ Strings R g' m ∧ SameData g g' ∧
      g'.conns = if connfd < 0 then g.conns else Function.update g.conns g.nextConn
        (some { fd := connfd, wantRead := true, lastActiveMs := now }) := by
  rcases h.views with ⟨K, hK, hstr, hm⟩
  rcases handleAccept_spec h.inv connfd now with ⟨g', hrun, hdata, hinv, hconns⟩
  exact ⟨g', hrun, ⟨hinv, K, hdata.views hK, hstr, hm⟩, hdata, hconns⟩

/-- Noting that a connection was active changes no map. -/
theorem touch_step (h : Strings R g m) {c : Nat} {conn : Conn} (hc : g.conns c = some conn)
    (now : Nat) :
    ∃ g', connTouch g c now = .ok g' ∧ Strings R g' m ∧ SameData g g' ∧
      g'.conns = Function.update g.conns c (some { conn with lastActiveMs := now }) := by
  rcases h.views with ⟨K, hK, hstr, hm⟩
  rcases connTouch_spec h.inv hc now with ⟨g', hrun, hdata, hinv, hconns⟩
  exact ⟨g', hrun, ⟨hinv, K, hdata.views hK, hstr, hm⟩, hdata, hconns⟩

theorem strings_init (R : Runtime) : Strings R {} fun _ _ => none where
  inv := inv_init R
  views := ⟨fun _ _ => none, views_init, nofun, fun _ _ => rfl⟩

end

end RedisServer
