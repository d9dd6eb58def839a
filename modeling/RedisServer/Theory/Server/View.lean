import RedisServer.Theory.Server.Frames
import RedisServer.Theory.Server.Strings

/-!
# What One Client Holds

The keys of one connection, with their values and deadlines, and the commands
on them. The entries name the connection they belong to, and this is left out,
so that two connections can hold the same.

A command is run on what the client holds by the operations the server runs,
those of the sorted set included, so it fails where they do: on freed memory,
and in a walk that does not end. The one thing that a reply depends on besides
is the order of the keys, which is passed along.

## Main definitions

* `Keyspace.view`: What a client holds.
* `clientRequest`: A command on what it holds.
* `View.Strings`, `View.Frees`: It holds no sorted set, and none that a sweep
  cannot free.
* `OwnEvent`, `clientSpec`: A client's own events as a specification.

## Theorems

* `doRequest_view`: The server does to a client's keys what the command does to
  what the client holds.
* `clientRequest_strings`: Without sorted sets every command returns.
* `processTimers_view`: A sweep that can free what it removes.
-/

namespace RedisServer

open Lib

/-- What a client holds: its keys, with their values and deadlines. -/
abbrev View := Bytes → Option (Entry × Option Nat)

/-- A value without the connection it belongs to. -/
def unowned (v : Entry × Option Nat) : Entry × Option Nat := ({ v.1 with ownerConn := none }, v.2)

/-- What the client on connection `c` holds. -/
def Keyspace.view (K : Keyspace) (c : Nat) : View := fun k => (K c k).map unowned

/-- What a client holds after a sweep. -/
def View.expire (V : View) (now : Nat) : View :=
  fun k => (V k).filter fun v => v.2.all fun d => decide (now ≤ d)

/-- Another set at a key, if the key is there. -/
def View.putSet (V : View) (k : Bytes) (z : ZSet) : View :=
  Function.update V k ((V k).map fun v => ({ v.1 with zset := z }, v.2))

/-! ## The commands -/

section

variable (R : Runtime) (V : View) (cmd : List Bytes)

/-- `set` of a key. The connection named here is left out again. -/
def clientSet : View × Bytes :=
  (Function.update V (arg cmd 1)
    (some (unowned (setValue R 0 (arg cmd 1) (arg cmd 2) (V (arg cmd 1))))),
  setReply [] (V (arg cmd 1)))

/-- `del` of a key. The set it holds is freed, here or by a worker. -/
def clientDel : Result (View × Bytes) :=
  let rest := (Function.update V (arg cmd 1) none, delReply [] (V (arg cmd 1)))
  match V (arg cmd 1) with
  | none => .ok rest
  | some v =>
    if v.1.type = .zset then do
      let _ ← zsetClear v.1.zset
      .ok rest
    else .ok rest

/-- `pexpire` of a key. -/
def clientExpire (now : Nat) : View × Bytes :=
  match str2int (arg cmd 2) with
  | none => (V, outErr [] errBadArg (ascii "expect int64"))
  | some ttlMs =>
    (Function.update V (arg cmd 1) ((V (arg cmd 1)).map fun v => (v.1, dueAfter ttlMs now)),
    expireReply [] (V (arg cmd 1)))

/-- `zadd` to the set of a key, or to a new set. -/
def clientZadd : Result (View × Bytes) :=
  match str2dbl R (arg cmd 2) with
  | none => .ok (V, outErr [] errBadArg (ascii "expect float"))
  | some score =>
    let v := zaddEntry R 0 (arg cmd 1) (V (arg cmd 1))
    if v.1.type ≠ .zset then .ok (V, outErr [] errBadTyp (ascii "expect zset"))
    else do
      let (zset, added) ← zsetInsert R v.1.zset (arg cmd 3) score
      .ok (Function.update V (arg cmd 1) (some (unowned ({ v.1 with zset := zset }, v.2))),
        outInt [] (if added then 1 else 0))

/-- `zrem` from the set of a key. -/
def clientZrem : Result (View × Bytes) :=
  match setAt (V (arg cmd 1)) with
  | none => .ok (V, outErr [] errBadTyp (ascii "expect zset"))
  | some z => do
    let (z, znode) ← zsetLookup R z (arg cmd 2)
    match znode with
    | none => .ok (V.putSet (arg cmd 1) z, outInt [] 0)
    | some node => do
      let z ← zsetDelete z node
      .ok (V.putSet (arg cmd 1) z, outInt [] 1)

/-- `zscore` in the set of a key. -/
def clientZscore : Result (View × Bytes) :=
  match setAt (V (arg cmd 1)) with
  | none => .ok (V, outErr [] errBadTyp (ascii "expect zset"))
  | some z => do
    let (z, znode) ← zsetLookup R z (arg cmd 2)
    match znode with
    | none => .ok (V.putSet (arg cmd 1) z, outNil [])
    | some node => do
      let n ← z.znode node
      .ok (V.putSet (arg cmd 1) z, outDbl [] n.score)

/-- `zquery` of the set of a key. -/
def clientZquery : Result (View × Bytes) :=
  match str2dbl R (arg cmd 2) with
  | none => .ok (V, outErr [] errBadArg (ascii "expect fp number"))
  | some score =>
    match str2int (arg cmd 4), str2int (arg cmd 5) with
    | some offset, some limit =>
      match setAt (V (arg cmd 1)) with
      | none => .ok (V, outErr [] errBadTyp (ascii "expect zset"))
      | some z =>
        if limit ≤ 0 then .ok (V, outArr [] 0)
        else do
          let znode ← zsetSeekge z score (arg cmd 3)
          let znode ← znodeOffset z znode offset
          let (n, out) ← zqueryLoop z limit (limit.toNat + 1) znode 0 (outBeginArr []).1
          let out ← outEndArr out (outBeginArr []).2 n.toNat
          .ok (V, out)
    | _, _ => .ok (V, outErr [] errBadArg (ascii "expect int"))

/-- A command on what the client holds, whose keys are in the order `ks`: what
    it holds afterwards, and the reply. -/
def clientRequest (ks : List Bytes) (now : Nat) : Result (View × Bytes) :=
  if isCmd cmd 2 "get" then .ok (V, getReply [] (V (arg cmd 1)))
  else if isCmd cmd 3 "set" then .ok (clientSet R V cmd)
  else if isCmd cmd 2 "del" then clientDel V cmd
  else if isCmd cmd 3 "pexpire" then .ok (clientExpire V cmd now)
  else if isCmd cmd 2 "pttl" then .ok (V, ttlReply [] now (V (arg cmd 1)))
  else if isCmd cmd 1 "keys" then .ok (V, outKeys [] ks)
  else if isCmd cmd 4 "zadd" then clientZadd R V cmd
  else if isCmd cmd 3 "zrem" then clientZrem R V cmd
  else if isCmd cmd 3 "zscore" then clientZscore R V cmd
  else if isCmd cmd 6 "zquery" then clientZquery R V cmd
  else if isCmd cmd 1 "quit" then .ok (V, outStr [] (ascii "BYE"))
  else .ok (V, outErr [] errUnknown (ascii "Unknown command."))

end

/-! ## The server runs them -/

/-- What is done to the client's keys, where it returns, the server does to
    them, and nothing to the other connections. -/
def Does (R : Runtime) (g : GData) (K : Keyspace) (c : Nat) (x : Result (View × Bytes))
    (r : Result (GData × Bytes)) : Prop :=
  ∀ V' reply, x = .ok (V', reply) → ∃ g' K', r = .ok (g', reply) ∧ Moved R g g' K K' ∧
    K'.view c = V' ∧ ∀ c', c' ≠ c → K' c' = K c'

section

variable {R : Runtime} {g g' : GData} {K : Keyspace} {c : Nat} {conn : Conn} {V' : View}

/-- One key of the client changed. -/
theorem view_set (K : Keyspace) (c : Nat) (k : Bytes) (v : Option (Entry × Option Nat)) :
    (K.set c k v).view c = Function.update (K.view c) k (v.map unowned) := by
  funext k'
  rw [Keyspace.view]
  by_cases hk : k' = k
  · rw [hk, Keyspace.set_same, Function.update_self]
  · rw [Keyspace.set_other K v fun h => hk h.2, Function.update_of_ne hk, Keyspace.view]

theorem view_congr {K' : Keyspace} (h : K' c = K c) : K'.view c = K.view c := by
  funext k
  rw [Keyspace.view, Keyspace.view, h]

theorem view_putSet (K : Keyspace) (c : Nat) (k : Bytes) (z : ZSet) :
    (K.putSet c k z).view c = (K.view c).putSet k z := by
  rw [Keyspace.putSet, view_set, View.putSet, Keyspace.view, Option.map_map, Option.map_map]
  rfl

theorem view_expire (K : Keyspace) (now c : Nat) :
    (K.expire now).view c = (K.view c).expire now := by
  funext k
  rw [Keyspace.view, Keyspace.expire, View.expire, Keyspace.view]
  cases K c k with
  | none => rfl
  | some v =>
      have hsnd : (unowned v).2 = v.2 := rfl
      rw [Option.map_some, Option.filter_some, Option.filter_some, hsnd]
      by_cases hd : (v.2.all fun d => decide (now ≤ d)) = true
      · rw [if_pos hd, if_pos hd, Option.map_some]
      · rw [if_neg hd, if_neg hd, Option.map_none]

/-- A value holds the same set without its owner. -/
theorem setAt_unowned (v : Option (Entry × Option Nat)) : setAt (v.map unowned) = setAt v := by
  cases v with
  | none => rfl
  | some v => rfl

/-- A new set of any connection is the same without its owner. -/
theorem zaddEntry_unowned (R : Runtime) (c : Nat) (key : Bytes) (v : Option (Entry × Option Nat)) :
    unowned (zaddEntry R 0 key (v.map unowned)) = unowned (zaddEntry R c key v) := by
  cases v with
  | none => rfl
  | some v => rfl

theorem setValue_unowned (R : Runtime) (c : Nat) (key val : Bytes)
    (v : Option (Entry × Option Nat)) :
    unowned (setValue R 0 key val (v.map unowned)) = unowned (setValue R c key val v) := by
  cases v with
  | none => rfl
  | some v =>
      simp only [Option.map_some, setValue, unowned]
      split
      · rfl
      · rfl

namespace Does

/-- A command that changes no key. -/
theorem same {reply : Bytes} {r : Result (GData × Bytes)} (hrun : r = .ok (g', reply))
    (hm : Moved R g g' K K) (h : V' = K.view c) : Does R g K c (.ok (V', reply)) r := by
  intro V'' reply' heq
  rw [Except.ok.injEq, Prod.mk.injEq] at heq
  exact ⟨g', K, by rw [hrun, heq.2], hm, by rw [← heq.1, h], fun _ _ => rfl⟩

/-- A command that changes one key. -/
theorem set {reply : Bytes} {r : Result (GData × Bytes)} {k : Bytes}
    {v : Option (Entry × Option Nat)} (hrun : r = .ok (g', reply))
    (hm : Moved R g g' K (K.set c k v)) (h : V' = Function.update (K.view c) k (v.map unowned)) :
    Does R g K c (.ok (V', reply)) r := by
  intro V'' reply' heq
  rw [Except.ok.injEq, Prod.mk.injEq] at heq
  refine ⟨g', _, by rw [hrun, heq.2], hm, by rw [← heq.1, h, view_set], fun c' hc' => ?_⟩
  funext k'
  exact Keyspace.set_other K v fun h => hc' h.1

/-- A command that fails where the one on the client's keys does. -/
theorem error {f : Fault} {r : Result (GData × Bytes)} : Does R g K c (.error f) r := nofun

end Does

/-! ### Strings and deadlines -/

theorem doSet_view (hinv : Inv R g) (hK : Views g K) (hc : g.conns c = some conn)
    (cmd : List Bytes) : Does R g K c (.ok (clientSet R (K.view c) cmd)) (doSet R g c cmd []) := by
  rcases doSet_spec hinv hK hc cmd [] with ⟨g', hrun, hm⟩
  have hreply : setReply [] (K.view c (arg cmd 1)) = setReply [] (K c (arg cmd 1)) := by
    rw [Keyspace.view]
    cases K c (arg cmd 1) with
    | none => rfl
    | some v => rfl
  refine Does.set (hrun.trans (by rw [hreply])) hm ?_
  rw [Option.map_some, ← setValue_unowned R c]
  rfl

theorem doDel_view (hinv : Inv R g) (hK : Views g K) (hc : g.conns c = some conn)
    (cmd : List Bytes) : Does R g K c (clientDel (K.view c) cmd) (doDel R g c cmd []) := by
  have hreply : delReply [] (K.view c (arg cmd 1)) = delReply [] (K c (arg cmd 1)) := by
    rw [delReply, delReply, Keyspace.view, Option.isSome_map]
  rcases doDel_spec hinv hK hc cmd [] with ⟨g', hrun, hm⟩ | ⟨f, x, d, _, hx, hz, hf⟩
  · have hset : Does R g K c (.ok (Function.update (K.view c) (arg cmd 1) none,
        delReply [] (K.view c (arg cmd 1)))) (doDel R g c cmd []) :=
      Does.set (hrun.trans (by rw [hreply])) hm rfl
    unfold clientDel
    split
    · exact hset
    · rename_i v _
      split
      · cases zsetClear v.1.zset with
        | error f => exact Does.error
        | ok z => exact hset
      · exact hset
  · -- the set that cannot be freed is the client's
    have hv : K.view c (arg cmd 1) = some (unowned (x, d)) := by
      rw [Keyspace.view, hx, Option.map_some]
    have hz' : (unowned (x, d)).1.type = .zset := hz
    have hf' : zsetClear (unowned (x, d)).1.zset = .error f := hf
    simp only [clientDel, hv, hz', hf', if_true]
    exact Does.error

theorem doExpire_view (hinv : Inv R g) (hK : Views g K) (hc : g.conns c = some conn)
    (cmd : List Bytes) (now : Nat) :
    Does R g K c (.ok (clientExpire (K.view c) cmd now)) (doExpire R g c cmd now []) := by
  cases harg : str2int (arg cmd 2) with
  | none =>
      rw [clientExpire]
      simp only [harg]
      exact Does.same (by simp only [doExpire, harg]) (Moved.refl hinv hK) rfl
  | some ttlMs =>
      rcases doExpire_spec hinv hK hc cmd now [] harg with ⟨g', hrun, hm⟩
      have hreply : expireReply [] (K.view c (arg cmd 1)) = expireReply [] (K c (arg cmd 1)) := by
        rw [expireReply, expireReply, Keyspace.view, Option.isSome_map]
      rw [clientExpire]
      simp only [harg]
      refine Does.set (hrun.trans (by rw [hreply])) hm ?_
      rw [Keyspace.view, Option.map_map, Option.map_map]
      rfl

/-! ### Sorted sets -/

theorem doZadd_view (hinv : Inv R g) (hK : Views g K) (hc : g.conns c = some conn)
    (cmd : List Bytes) : Does R g K c (clientZadd R (K.view c) cmd) (doZadd R g c cmd []) := by
  unfold clientZadd
  cases harg : str2dbl R (arg cmd 2) with
  | none => exact Does.same (by simp only [doZadd, harg]) (Moved.refl hinv hK) rfl
  | some score =>
      rcases hv : zaddEntry R c (arg cmd 1) (K c (arg cmd 1)) with ⟨x, d⟩
      have heq := zaddEntry_unowned R c (arg cmd 1) (K c (arg cmd 1))
      rw [hv] at heq
      rcases hw : zaddEntry R 0 (arg cmd 1) (K.view c (arg cmd 1)) with ⟨y, d'⟩
      have heq' : unowned (y, d') = unowned (x, d) := by
        rw [← hw]
        exact heq
      have htype : y.type = x.type := congrArg (fun v => v.1.type) heq'
      have hzset : y.zset = x.zset := congrArg (fun v => v.1.zset) heq'
      have hnew : ∀ z, unowned ({ y with zset := z }, d') = unowned ({ x with zset := z }, d) := by
        intro z
        exact congrArg (fun v : Entry × Option Nat => (({ v.1 with zset := z } : Entry), v.2)) heq'
      dsimp only
      rcases doZadd_spec hinv hK hc cmd [] harg hv with
        ⟨ht, g', hrun, hm⟩ | ⟨ht, ⟨f, hins, _⟩ | ⟨z, added, g', hins, hrun, hm⟩⟩
      · rw [if_pos (htype ▸ ht)]
        refine Does.same hrun ?_ rfl
        -- the key holds a value of another type, which it keeps
        have hself : K.set c (arg cmd 1) (some (x, d)) = K := by
          cases hx : K c (arg cmd 1) with
          | none =>
              rw [hx, zaddEntry, Prod.mk.injEq] at hv
              rw [← hv.1] at ht
              exact absurd rfl ht
          | some v =>
              rw [hx, zaddEntry] at hv
              rw [← hv, ← hx, Keyspace.set_eq_self]
        rw [hself] at hm
        exact hm
      · rw [if_neg (not_not.mpr (htype.trans ht)), hzset, hins]
        exact Does.error
      · rw [if_neg (not_not.mpr (htype.trans ht)), hzset, hins]
        refine Does.set hrun hm ?_
        rw [Option.map_some, ← hnew]

theorem doZrem_view (hinv : Inv R g) (hK : Views g K) (hs : StoresOk R (fun _ => True) g)
    (hc : g.conns c = some conn) (cmd : List Bytes) :
    Does R g K c (clientZrem R (K.view c) cmd) (doZrem R g c cmd []) := by
  have hat : setAt (K.view c (arg cmd 1)) = setAt (K c (arg cmd 1)) := setAt_unowned _
  unfold clientZrem
  rw [hat]
  rcases expectZset_total hinv hK hs hc (arg cmd 1) with
    ⟨hnone, g₁, hexp, hm⟩ | ⟨z, ref, g₁, hz, hexp, hget, hm, hput⟩
  · rw [hnone]
    exact Does.same (by simp only [doZrem, hexp, ok_bind]) hm rfl
  · rw [hz]
    dsimp only
    rcases (hs.congr (expectZset_stores hexp)).getZset hget with ⟨hkept, _⟩
    cases hlook : zsetLookup R z (arg cmd 2) with
    | error f => exact Does.error
    | ok x =>
        rcases x with ⟨z₁, node⟩
        rcases zsetLookup_kept hkept hlook with ⟨_, hsame, _⟩
        cases node with
        | none =>
            rcases hput z₁ (fun h => (hsame h).1) with ⟨g₂, hset, hmoved⟩
            refine Does.set (v := (K c (arg cmd 1)).map fun v => ({ v.1 with zset := z₁ }, v.2))
              (by simp only [doZrem, hexp, ok_bind, hget, hlook, hset]) hmoved ?_
            rw [← view_set]
            exact (view_putSet K c _ z₁).symm
        | some a =>
            rw [ok_bind]
            dsimp only
            cases hdel : zsetDelete z₁ a with
            | error f => exact Does.error
            | ok z₂ =>
                have hmember : z = {} → z₂ = {} := fun h =>
                  absurd (hsame h).2 (by simp only [reduceCtorEq, not_false_eq_true])
                rcases hput z₂ hmember with ⟨g₂, hset, hmoved⟩
                refine Does.set (v := (K c (arg cmd 1)).map fun v => ({ v.1 with zset := z₂ }, v.2))
                  (by simp only [doZrem, hexp, ok_bind, hget, hlook, hdel, hset]) hmoved ?_
                rw [← view_set]
                exact (view_putSet K c _ z₂).symm

theorem doZscore_view (hinv : Inv R g) (hK : Views g K) (hs : StoresOk R (fun _ => True) g)
    (hc : g.conns c = some conn) (cmd : List Bytes) :
    Does R g K c (clientZscore R (K.view c) cmd) (doZscore R g c cmd []) := by
  have hat : setAt (K.view c (arg cmd 1)) = setAt (K c (arg cmd 1)) := setAt_unowned _
  unfold clientZscore
  rw [hat]
  rcases expectZset_total hinv hK hs hc (arg cmd 1) with
    ⟨hnone, g₁, hexp, hm⟩ | ⟨z, ref, g₁, hz, hexp, hget, hm, hput⟩
  · rw [hnone]
    exact Does.same (by simp only [doZscore, hexp, ok_bind]) hm rfl
  · rw [hz]
    dsimp only
    rcases (hs.congr (expectZset_stores hexp)).getZset hget with ⟨hkept, _⟩
    cases hlook : zsetLookup R z (arg cmd 2) with
    | error f => exact Does.error
    | ok x =>
        rcases x with ⟨z₁, node⟩
        rcases zsetLookup_kept hkept hlook with ⟨_, hsame, _⟩
        rcases hput z₁ (fun h => (hsame h).1) with ⟨g₂, hset, hmoved⟩
        have hview : (K.view c).putSet (arg cmd 1) z₁ = Function.update (K.view c) (arg cmd 1)
            (((K c (arg cmd 1)).map fun v => ({ v.1 with zset := z₁ }, v.2)).map unowned) := by
          rw [← view_set]
          exact (view_putSet K c _ z₁).symm
        cases node with
        | none =>
            exact Does.set (by simp only [doZscore, hexp, ok_bind, hget, hlook, hset]) hmoved hview
        | some a =>
            rw [ok_bind]
            dsimp only
            cases hnode : z₁.znode a with
            | error f => exact Does.error
            | ok n =>
                exact Does.set
                  (by simp only [doZscore, hexp, ok_bind, hget, hlook, hset, hnode]) hmoved hview

theorem doZquery_view (hinv : Inv R g) (hK : Views g K) (hs : StoresOk R (fun _ => True) g)
    (hc : g.conns c = some conn) (cmd : List Bytes) :
    Does R g K c (clientZquery R (K.view c) cmd) (doZquery R g c cmd []) := by
  have hat : setAt (K.view c (arg cmd 1)) = setAt (K c (arg cmd 1)) := setAt_unowned _
  unfold clientZquery doZquery
  cases str2dbl R (arg cmd 2) with
  | none => exact Does.same rfl (Moved.refl hinv hK) rfl
  | some score =>
      cases str2int (arg cmd 4) with
      | none => exact Does.same rfl (Moved.refl hinv hK) rfl
      | some offset =>
          cases str2int (arg cmd 5) with
          | none => exact Does.same rfl (Moved.refl hinv hK) rfl
          | some limit =>
              dsimp only
              rw [hat]
              rcases expectZset_total hinv hK hs hc (arg cmd 1) with
                ⟨hnone, g₁, hexp, hm⟩ | ⟨z, ref, g₁, hz, hexp, hget, hm, _⟩
              · rw [hnone, hexp, ok_bind]
                exact Does.same rfl hm rfl
              · rw [hz, hexp, ok_bind]
                dsimp only
                by_cases hl : limit ≤ 0
                · rw [if_pos hl, if_pos hl]
                  exact Does.same rfl hm rfl
                · rw [if_neg hl, if_neg hl, hget, ok_bind]
                  -- the same calls on the same set, one after the other
                  cases zsetSeekge z score (arg cmd 3) with
                  | error f => exact Does.error
                  | ok znode =>
                      rw [ok_bind, ok_bind]
                      cases znodeOffset z znode offset with
                      | error f => exact Does.error
                      | ok node =>
                          rw [ok_bind, ok_bind]
                          cases zqueryLoop z limit (limit.toNat + 1) node 0 (outBeginArr []).1 with
                          | error f => exact Does.error
                          | ok x =>
                              rw [ok_bind, ok_bind]
                              cases outEndArr x.2 (outBeginArr []).2 x.1.toNat with
                              | error f => exact Does.error
                              | ok out => exact Does.same rfl hm rfl

/-! ### The dispatch -/

/-- The server does to a client's keys what the command does to what the client
    holds, and nothing to the other connections. -/
theorem doRequest_view (hinv : Inv R g) (hK : Views g K) (hs : StoresOk R (fun _ => True) g)
    (hc : g.conns c = some conn) (cmd : List Bytes) (now : Nat) :
    Does R g K c (clientRequest R (K.view c) cmd (keysOf g c) now) (doRequest R g c cmd now []) := by
  unfold clientRequest doRequest
  refine ite_both ?get (ite_both (doSet_view hinv hK hc cmd) (ite_both (doDel_view hinv hK hc cmd)
    (ite_both (doExpire_view hinv hK hc cmd now) (ite_both ?ttl (ite_both ?keys
      (ite_both (doZadd_view hinv hK hc cmd) (ite_both (doZrem_view hinv hK hs hc cmd)
        (ite_both (doZscore_view hinv hK hs hc cmd) (ite_both (doZquery_view hinv hK hs hc cmd)
          (ite_both ?quit ?unknown))))))))))
  case get =>
    rcases doGet_spec hinv hK hc cmd [] with ⟨g', hrun, hm⟩
    refine Does.same (hrun.trans ?_) hm rfl
    rw [Keyspace.view]
    cases K c (arg cmd 1) with
    | none => rfl
    | some v => rfl
  case ttl =>
    rcases doTtl_spec hinv hK hc cmd now [] with ⟨g', hrun, hm⟩
    refine Does.same (hrun.trans ?_) hm rfl
    rw [Keyspace.view]
    rcases K c (arg cmd 1) with _ | ⟨x, _ | d⟩
    · rfl
    · rfl
    · rfl
  case keys => exact Does.same (doKeys_spec hinv hc []) (Moved.refl hinv hK) rfl
  -- the last two look at no key
  case quit => exact Does.same rfl (Moved.refl hinv hK) rfl
  case unknown => exact Does.same rfl (Moved.refl hinv hK) rfl

/-! ### Sweeps -/

/-- Every value is a string. -/
def View.Strings (V : View) : Prop := ∀ k v, V k = some v → v.1.type = .str

/-- The sets that a sweep removes can be freed. -/
def View.Frees (V : View) (now : Nat) : Prop :=
  ∀ k v d, V k = some v → v.2 = some d → d < now → v.1.type = .zset →
    ∃ z, zsetClear v.1.zset = .ok z

theorem View.Strings.frees {V : View} (h : V.Strings) (now : Nat) : V.Frees now := by
  intro k v d hv _ _ hz
  rw [h k v hv] at hz
  cases hz

theorem View.Strings.expire {V : View} (h : V.Strings) (now : Nat) : (V.expire now).Strings :=
  fun k v hv => h k v (Option.filter_eq_some_iff.mp hv).1

/-- A sweep that ends no connection and stays below its limit returns, when the
    sets it removes can be freed, and removes the keys that are due. -/
theorem processTimers_view (hinv : Inv R g) (hK : Views g K) {now : Nat} (hact : NoneIdle g now)
    (hcap : dueCount g now ≤ kMaxWorks) (hfrees : ∀ c, (K.view c).Frees now) :
    ∃ g' es, processTimers g now = .ok g' ∧ Swept now g es g' ∧ Moved R g g' K (K.expire now) := by
  rcases processTimers_spec hinv hK hact hcap with h | ⟨f, x, _, hz, hf, c, k, d, hx, hlate⟩
  · exact h
  · have hv : K.view c k = some (unowned (x, some d)) := by rw [Keyspace.view, hx, Option.map_some]
    rcases hfrees c k _ d hv rfl hlate hz with ⟨z, hclear⟩
    have hclear' : zsetClear x.zset = .ok z := hclear
    rw [hf] at hclear'
    cases hclear'

end

/-! ## Clients without sorted sets -/

section

variable {R : Runtime} {V V' : View} {cmd ks : List Bytes} {now : Nat}

/-- A key's value is written, or the key is removed. -/
theorem View.Strings.update (h : V.Strings) {k : Bytes} {v : Option (Entry × Option Nat)}
    (hv : ∀ w, v = some w → w.1.type = .str) : View.Strings (Function.update V k v) := by
  intro k' w hw
  rw [Function.update_apply] at hw
  split at hw
  · exact hv w hw
  · exact h k' w hw

/-- A key without a set is absent, and has the shared empty set, or it holds a
    string. -/
theorem View.Strings.setAt (h : V.Strings) (k : Bytes) :
    RedisServer.setAt (V k) = none ∨ V k = none := by
  cases hv : V k with
  | none => exact Or.inr rfl
  | some v =>
      refine Or.inl ?_
      have ht := h k v hv
      rw [RedisServer.setAt, if_neg]
      rw [ht]
      decide

/-- A key that is absent is not there to be written. -/
theorem View.putSet_absent {k : Bytes} (h : V k = none) (z : ZSet) : V.putSet k z = V := by
  rw [View.putSet, h, Option.map_none, ← h, Function.update_eq_self]

/-- A command returns, and the client holds strings only afterwards. -/
def LeavesStrings (x : Result (View × Bytes)) : Prop := ∃ V' r, x = .ok (V', r) ∧ V'.Strings

theorem LeavesStrings.ite {p : Prop} [Decidable p] {x y : Result (View × Bytes)}
    (h : LeavesStrings x) (h' : LeavesStrings y) : LeavesStrings (if p then x else y) := by
  by_cases hp : p
  · rw [if_pos hp]
    exact h
  · rw [if_neg hp]
    exact h'

/-- Without sorted sets, every command but `zadd` returns and makes none. -/
theorem clientRequest_strings (hV : V.Strings) (hcmd : isCmd cmd 4 "zadd" = false)
    (ks : List Bytes) (now : Nat) : LeavesStrings (clientRequest R V cmd ks now) := by
  have hsame : ∀ r, LeavesStrings (.ok (V, r)) := fun r => ⟨V, r, rfl, hV⟩
  have hlookup : zsetLookup R {} (arg cmd 2) = .ok ({}, none) := rfl
  unfold clientRequest
  rw [hcmd, if_neg Bool.false_ne_true]
  refine .ite (hsame _) (.ite ?set (.ite ?del (.ite ?expire (.ite (hsame _) (.ite (hsame _)
    (.ite ?zrem (.ite ?zscore (.ite ?zquery (.ite (hsame _) (hsame _))))))))))
  case set =>
    refine ⟨_, _, rfl, hV.update fun w hw => ?_⟩
    rw [← Option.some.inj hw]
    exact (setValue_str (fun x d hx => hV _ _ hx) R 0 _ _).1
  case del =>
    have hrest : View.Strings (Function.update V (arg cmd 1) none) := hV.update fun w hw => nomatch hw
    unfold clientDel
    cases hv : V (arg cmd 1) with
    | none => exact ⟨_, _, rfl, hrest⟩
    | some v =>
        dsimp only
        rw [if_neg]
        · exact ⟨_, _, rfl, hrest⟩
        · rw [hV _ v hv]
          decide
  case expire =>
    unfold clientExpire
    cases str2int (arg cmd 2) with
    | none => exact hsame _
    | some ttlMs =>
        refine ⟨_, _, rfl, hV.update fun w hw => ?_⟩
        rcases Option.map_eq_some_iff.mp hw with ⟨v, hv, rfl⟩
        exact hV _ v hv
  case zrem =>
    unfold clientZrem
    rcases hV.setAt (arg cmd 1) with h | h
    · rw [h]
      exact hsame _
    · rw [h, setAt]
      refine ⟨V, outInt [] 0, ?_, hV⟩
      simp only [hlookup, ok_bind, View.putSet_absent h]
  case zscore =>
    unfold clientZscore
    rcases hV.setAt (arg cmd 1) with h | h
    · rw [h]
      exact hsame _
    · rw [h, setAt]
      refine ⟨V, outNil [], ?_, hV⟩
      simp only [hlookup, ok_bind, View.putSet_absent h]
  case zquery =>
    unfold clientZquery
    cases str2dbl R (arg cmd 2) with
    | none => exact hsame _
    | some score =>
        cases str2int (arg cmd 4) with
        | none => exact hsame _
        | some offset =>
            cases str2int (arg cmd 5) with
            | none => exact hsame _
            | some limit =>
                dsimp only
                rcases hV.setAt (arg cmd 1) with h | h
                · rw [h]
                  exact hsame _
                · rw [h, setAt]
                  dsimp only
                  split
                  · exact hsame _
                  · -- the walk starts at no node
                    have hseek : zsetSeekge {} score (arg cmd 3) = .ok none := rfl
                    have hloop : zqueryLoop {} limit (limit.toNat + 1) none 0 (outBeginArr []).1 =
                        .ok (0, (outBeginArr []).1) := rfl
                    have hend := outEndArr_eq [] [] 0
                    rw [List.append_nil, List.append_nil] at hend
                    refine ⟨V, outArr [] 0, ?_, hV⟩
                    simp only [hseek, ok_bind, znodeOffset, hloop, hend, Int.toNat_zero]

/-- The order of the keys shows in the reply to `keys` alone. -/
theorem clientRequest_order (hcmd : ¬ isCmd cmd 1 "keys" = true) (ks ks' : List Bytes) :
    clientRequest R V cmd ks now = clientRequest R V cmd ks' now := by
  simp only [clientRequest, if_neg hcmd]

theorem clientRequest_keys (hcmd : isCmd cmd 1 "keys" = true) (ks : List Bytes) :
    clientRequest R V cmd ks now = .ok (V, outKeys [] ks) := by
  rw [clientRequest, if_neg (isCmd_other hcmd _ _ (by decide)),
    if_neg (isCmd_other hcmd _ _ (by decide)), if_neg (isCmd_other hcmd _ _ (by decide)),
    if_neg (isCmd_other hcmd _ _ (by decide)), if_neg (isCmd_other hcmd _ _ (by decide)),
    if_pos hcmd]

/-- What the client holds afterwards does not depend on the order. -/
theorem clientRequest_reorder {r : Bytes} (h : clientRequest R V cmd ks now = .ok (V', r))
    (ks' : List Bytes) : ∃ r', clientRequest R V cmd ks' now = .ok (V', r') := by
  by_cases hcmd : isCmd cmd 1 "keys" = true
  · rw [clientRequest_keys hcmd, Except.ok.injEq, Prod.mk.injEq] at h
    exact ⟨_, by rw [clientRequest_keys hcmd, h.1]⟩
  · exact ⟨r, by rw [clientRequest_order hcmd ks' ks, h]⟩

end

/-! ## A client's own events -/

/-- What one client is shown of a run. -/
inductive OwnEvent
  | ask (cmd : List Bytes) (now : Nat)
  | sweep (now : Nat)
  deriving DecidableEq, Repr

/-- A client's commands and the sweeps on what it holds. They follow no freed
    memory and return. Each command is answered with the frame of its reply, and
    `keys` may list the keys in any order. -/
def clientSpec (R : Runtime) : Spec View OwnEvent Bytes where
  guard V
    | .ask cmd now => ∃ x, clientRequest R V cmd [] now = .ok x
    | .sweep now => V.Frees now
  next V
    | .ask cmd now =>
      match clientRequest R V cmd [] now with
      | .ok (V', _) => V'
      | .error _ => V
    | .sweep now => V.expire now
  reply V
    | .ask cmd now, r => ∃ (ks : List Bytes) (x : View × Bytes), ks.Nodup ∧
      (∀ k, k ∈ ks ↔ (V k).isSome) ∧ clientRequest R V cmd ks now = .ok x ∧ r = framed x.2
    | .sweep _, r => r = []

theorem clientSpec_next {R : Runtime} {V V' : View} {cmd ks : List Bytes} {now : Nat} {r : Bytes}
    (h : clientRequest R V cmd ks now = .ok (V', r)) : (clientSpec R).next V (.ask cmd now) = V' := by
  rcases clientRequest_reorder h [] with ⟨r', hr⟩
  simp only [clientSpec, hr]

end RedisServer
