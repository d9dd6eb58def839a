import RedisServer.Theory.Server.Pages
import RedisServer.Theory.Server.Refine
import RedisServer.Theory.Server.Replies
import RedisServer.Theory.Zset.Scored

/-!
# What the Server is For

The reference model of one client, with all commands. A client has a
dictionary: under every key a string or a map from names to scores, and a
deadline if it was given one. Nothing in it mentions tables, entries, trees or
a heap, and there are no other clients in it.

A command reads and changes the dictionary as the lemmas here say, from any
state that stands for one. Two things are asked for. A query is of a set with
right counts, and the last member of a set is not removed by `zrem`. Both are
conditions of their own, so that the other commands can do without.

## Main definitions

* `Held`, `Dict`: The dictionary.
* `Command`, `command`: Commands, and the argument vectors that are read as
  them.
* `Command.next`, `Command.reply`, `Dict.expire`: The reference model.
* `Stands`: An entry and what it stands for.
* `Obeys`: A command does what the reference model says.

## Theorems

* `doGet_obeys`, …, `doZquery_obeys`: The commands.
* `command_elim`, `doRequest_obeys`: The dispatch.
-/

namespace RedisServer

open Lib BinaryTree ZSet

/-! ## The reference model -/

/-- What a key holds. -/
inductive Held
  | str (val : Bytes)
  | zset (m : Scores)

/-- A client's keys: what each holds, and its deadline if it has one. -/
abbrev Dict := Bytes → Option (Held × Option Nat)

/-- The commands of a client, with their arguments as they were sent. -/
inductive Command
  | get (key : Bytes)
  | set (key val : Bytes)
  | del (key : Bytes)
  | pexpire (key ttl : Bytes)
  | pttl (key : Bytes)
  | keys
  | zadd (key score name : Bytes)
  | zrem (key name : Bytes)
  | zscore (key name : Bytes)
  | zquery (key score name offset limit : Bytes)
  | quit
  | unknown
  deriving DecidableEq, Repr

/-- The command an argument vector is read as. -/
def command (cmd : List Bytes) : Command :=
  if isCmd cmd 2 "get" then .get (arg cmd 1)
  else if isCmd cmd 3 "set" then .set (arg cmd 1) (arg cmd 2)
  else if isCmd cmd 2 "del" then .del (arg cmd 1)
  else if isCmd cmd 3 "pexpire" then .pexpire (arg cmd 1) (arg cmd 2)
  else if isCmd cmd 2 "pttl" then .pttl (arg cmd 1)
  else if isCmd cmd 1 "keys" then .keys
  else if isCmd cmd 4 "zadd" then .zadd (arg cmd 1) (arg cmd 2) (arg cmd 3)
  else if isCmd cmd 3 "zrem" then .zrem (arg cmd 1) (arg cmd 2)
  else if isCmd cmd 3 "zscore" then .zscore (arg cmd 1) (arg cmd 2)
  else if isCmd cmd 6 "zquery" then
    .zquery (arg cmd 1) (arg cmd 2) (arg cmd 3) (arg cmd 4) (arg cmd 5)
  else if isCmd cmd 1 "quit" then .quit
  else .unknown

/-- The scores under a key. A key that is absent has none, and one that holds a
    string is no set. -/
def scoresAt : Option (Held × Option Nat) → Option Scores
  | none => some fun _ => none
  | some (.str _, _) => none
  | some (.zset m, _) => some m

/-- The dictionary after a command. -/
def Command.next (R : Runtime) (now : Nat) (m : Dict) : Command → Dict
  | .set key val =>
    match m key with
    -- a set stays what it is
    | some (.zset _, _) => m
    | v => Function.update m key (some (.str val, v.bind Prod.snd))
  | .del key => Function.update m key none
  | .pexpire key ttl =>
    match str2int ttl with
    | none => m
    | some ttlMs => Function.update m key ((m key).map fun v => (v.1, deadlineFrom now ttlMs))
  | .zadd key score name =>
    match str2dbl R score, scoresAt (m key) with
    | some s, some z =>
      Function.update m key (some (.zset (z.put name s), (m key).bind Prod.snd))
    | _, _ => m
  | .zrem key name =>
    match m key with
    | some (.zset z, d) => Function.update m key (some (.zset (Function.update z name none), d))
    | _ => m
  | _ => m

/-- A sorted-set command on a key that holds a string. -/
def noSet : Value := .scalar (.err errBadTyp (ascii "expect zset"))

/-- The replies to a command. `keys` may list the keys in any order. -/
def Command.reply (R : Runtime) (now : Nat) (m : Dict) : Command → Value → Prop
  | .get key, v => v =
    match m key with
    | none => .scalar .nil
    | some (.str val, _) => .scalar (.str val)
    | some (.zset _, _) => .scalar (.err errBadTyp (ascii "not a string value"))
  | .set key _, v => v =
    match m key with
    | some (.zset _, _) => .scalar (.err errBadTyp (ascii "a non-string value exists"))
    | _ => .scalar (.str (ascii "1"))
  | .del key, v => v = .scalar (.str (if (m key).isSome then ascii "1" else ascii "0"))
  | .pexpire key ttl, v => v =
    match str2int ttl with
    | none => .scalar (.err errBadArg (ascii "expect int64"))
    | some _ => .scalar (.int (if (m key).isSome then 1 else 0))
  | .pttl key, v => v =
    match m key with
    | none => .scalar (.int (-2))
    | some (_, none) => .scalar (.int (-1))
    | some (_, some d) => .scalar (.int (max 0 ((d : Int) - now)))
  | .keys, v => ∃ l : List Bytes, l.Nodup ∧ (∀ k, k ∈ l ↔ (m k).isSome) ∧ v = .arr (l.map .str)
  | .zadd key score name, v => v =
    match str2dbl R score, scoresAt (m key) with
    | none, _ => .scalar (.err errBadArg (ascii "expect float"))
    | some _, none => noSet
    | some _, some z => .scalar (.int (if z name = none then 1 else 0))
  | .zrem key name, v => v =
    match scoresAt (m key) with
    | none => noSet
    | some z => .scalar (.int (if (z name).isSome then 1 else 0))
  | .zscore key name, v => v =
    match scoresAt (m key) with
    | none => noSet
    | some z =>
      match z name with
      | none => .scalar .nil
      | some s => .scalar (.dbl s)
  | .zquery key score name offset limit, v =>
    match str2dbl R score, str2int offset, str2int limit, scoresAt (m key) with
    | none, _, _, _ => v = .scalar (.err errBadArg (ascii "expect fp number"))
    | some s, some o, some l, some z =>
      ∃ L, Lists L z ∧ v = .arr ((page L (s, name) o l).flatMap tupleValues)
    | some _, some _, some _, none => v = noSet
    | some _, _, _, _ => v = .scalar (.err errBadArg (ascii "expect int"))
  | .quit, v => v = .scalar (.str (ascii "BYE"))
  | .unknown, v => v = .scalar (.err errUnknown (ascii "Unknown command."))

/-- The dictionary after a sweep: the keys whose deadline has passed are gone. -/
def Dict.expire (now : Nat) (m : Dict) : Dict :=
  fun k => (m k).filter fun v => v.2.all fun d => decide (now ≤ d)

/-- A `zrem` that finds a member leaves another one. -/
def KeepsMember (m : Dict) : Command → Prop
  | .zrem key name => ∀ z, scoresAt (m key) = some z → z name ≠ none →
      ∃ name', name' ≠ name ∧ z name' ≠ none
  | _ => True

/-! ## What an entry stands for -/

/-- The counts in the tree of the set are right. -/
def ZSet.CountsRight (z : ZSet) : Prop := ∀ t, z.root = ptr t → Rooted z.store t → Counted t

/-- A `zquery` is of a set with right counts. -/
def CountsFit (g : GData) (c : Nat) : Command → Prop
  | .zquery key _ _ _ _ => ∀ ent x, Holds g c key ent x → x.type = .zset → x.zset.CountsRight
  | _ => True

/-- An entry and what it stands for. -/
inductive Stands (R : Runtime) :
    Option (Entry × Option Nat) → Option (Held × Option Nat) → Prop
  | absent : Stands R none none
  | str (x : Entry) (d : Option Nat) : x.type = .str → Stands R (some (x, d)) (some (.str x.str, d))
  | zset (x : Entry) (d : Option Nat) (t : AvlTree) (m : Scores) : x.type = .zset →
      x.zset.Scored R t m → Stands R (some (x, d)) (some (.zset m, d))

section

variable {R : Runtime} {v : Option (Entry × Option Nat)} {w : Option (Held × Option Nat)}

namespace Stands

theorem isSome (h : Stands R v w) : v.isSome = w.isSome := by
  cases h <;> rfl

/-- The set of a key and its scores. -/
theorem set_scores {m : Scores} (h : Stands R v w) (hw : scoresAt w = some m) :
    ∃ z t, setAt v = some z ∧ z.Scored R t m := by
  cases h with
  | absent =>
      rw [scoresAt, Option.some.injEq] at hw
      rw [← hw]
      exact ⟨{}, nil, rfl, scored_empty R⟩
  | str x d ht => cases hw
  | zset x d t m' ht hz =>
      rw [scoresAt, Option.some.injEq] at hw
      rw [← hw]
      exact ⟨x.zset, t, if_pos ht, hz⟩

/-- A key that holds no set holds a string. -/
theorem no_scores (h : Stands R v w) (hw : scoresAt w = none) :
    setAt v = none ∧ ∃ x d, v = some (x, d) ∧ x.type ≠ .zset := by
  cases h with
  | absent => cases hw
  | str x d ht =>
      have hne : x.type ≠ .zset := by
        rw [ht]
        decide
      exact ⟨if_neg hne, x, d, rfl, hne⟩
  | zset x d t m ht hz => cases hw

/-- The scores of a set. -/
theorem scores_some (h : Stands R v w) {z : ZSet} (hz : setAt v = some z) :
    ∃ m t, scoresAt w = some m ∧ z.Scored R t m := by
  cases hw : scoresAt w with
  | none =>
      rw [(h.no_scores hw).1] at hz
      cases hz
  | some m =>
      rcases h.set_scores hw with ⟨z', t, hz', hscored⟩
      rw [hz, Option.some.injEq] at hz'
      rw [hz']
      exact ⟨m, t, rfl, hscored⟩

theorem scores_none (h : Stands R v w) (hz : setAt v = none) : scoresAt w = none := by
  cases hw : scoresAt w with
  | none => rfl
  | some m =>
      rcases h.set_scores hw with ⟨z, _, hsome, _⟩
      rw [hz] at hsome
      cases hsome

/-- Every set of the state is sound. -/
theorem sound (h : Stands R v w) {z : ZSet} (hz : setAt v = some z) : ∃ t, z.Sound R t := by
  rcases h.scores_some hz with ⟨m, t, _, hscored⟩
  exact ⟨t, hscored.sound⟩

/-- The deadline is given anew. -/
theorem expires (h : Stands R v w) (d : Option Nat) :
    Stands R (v.map fun x => (x.1, d)) (w.map fun x => (x.1, d)) := by
  cases h with
  | absent => exact .absent
  | str x _ ht => exact .str x d ht
  | zset x _ t m ht hz => exact .zset x d t m ht hz

/-- What has expired is gone. -/
theorem expire (h : Stands R v w) (now : Nat) :
    Stands R (v.filter fun x => x.2.all fun d => decide (now ≤ d))
      (w.filter fun x => x.2.all fun d => decide (now ≤ d)) := by
  cases h with
  | absent => exact .absent
  | str x d ht =>
      rw [Option.filter_some, Option.filter_some]
      split
      · exact .str x d ht
      · exact .absent
  | zset x d t m ht hz =>
      rw [Option.filter_some, Option.filter_some]
      split
      · exact .zset x d t m ht hz
      · exact .absent

/-- The record `zadd` works on. -/
theorem zaddEntry {m : Scores} (h : Stands R v w) (hw : scoresAt w = some m) (c : Nat)
    (key : Bytes) :
    ∃ x t, RedisServer.zaddEntry R c key v = (x, w.bind Prod.snd) ∧ x.type = .zset ∧
      x.zset.Scored R t m := by
  cases h with
  | absent =>
      rw [scoresAt, Option.some.injEq] at hw
      rw [← hw]
      exact ⟨_, nil, rfl, rfl, scored_empty R⟩
  | str x d ht => cases hw
  | zset x d t m' ht hz =>
      rw [scoresAt, Option.some.injEq] at hw
      rw [← hw]
      exact ⟨x, t, rfl, ht, hz⟩

end Stands

end

/-- A command on connection `c`, whose dictionary is `m`, does what the
    reference model says, and nothing to the other connections. -/
def Obeys (R : Runtime) (g : GData) (K : Keyspace) (c now : Nat) (m : Dict) (out : Bytes)
    (o : Command) (r : Result (GData × Bytes)) : Prop :=
  ∃ g' v K', r = .ok (g', out ++ v.encode) ∧ Moved R g g' K K' ∧ o.reply R now m v ∧
    (∀ k, Stands R (K' c k) (o.next R now m k)) ∧ ∀ c', c' ≠ c → K' c' = K c'

section

variable {R : Runtime} {g g' : GData} {K K' : Keyspace} {c now : Nat} {m : Dict} {out : Bytes}
  {o : Command}

/-- A command that changes nothing. -/
theorem Obeys.same {v : Value} {r : Result (GData × Bytes)} (hst : ∀ k, Stands R (K c k) (m k))
    (hrun : r = .ok (g', out ++ v.encode)) (hm : Moved R g g' K K) (hreply : o.reply R now m v)
    (hnext : o.next R now m = m) : Obeys R g K c now m out o r := by
  refine ⟨g', v, K, hrun, hm, hreply, fun k => ?_, fun _ _ => rfl⟩
  rw [hnext]
  exact hst k

/-- A command that changes one key. -/
theorem Obeys.set {v : Value} {r : Result (GData × Bytes)} (hst : ∀ k, Stands R (K c k) (m k))
    {key : Bytes} {x : Option (Entry × Option Nat)} {w : Option (Held × Option Nat)}
    (hrun : r = .ok (g', out ++ v.encode)) (hm : Moved R g g' K (K.set c key x))
    (hreply : o.reply R now m v) (hx : Stands R x w)
    (hnext : o.next R now m = Function.update m key w) : Obeys R g K c now m out o r := by
  refine ⟨g', v, _, hrun, hm, hreply, fun k => ?_, fun c' hc' => ?_⟩
  · rw [hnext]
    by_cases hk : k = key
    · rw [hk, Keyspace.set_same, Function.update_self]
      exact hx
    · rw [Keyspace.set_other K x fun h => hk h.2, Function.update_of_ne hk]
      exact hst k
  · funext k
    exact Keyspace.set_other K x fun h => hc' h.1

end

/-! ## The commands -/

section

variable {R : Runtime} {g : GData} {K : Keyspace} {c : Nat} {conn : Conn} {m : Dict}

/-- A property of a command and of what `do_request` does, one command at a
    time. -/
theorem command_elim {Q : Command → Result (GData × Bytes) → Prop} {cmd : List Bytes} {now : Nat}
    {out : Bytes} (get : Q (.get (arg cmd 1)) (doGet R g c cmd out))
    (set : Q (.set (arg cmd 1) (arg cmd 2)) (doSet R g c cmd out))
    (del : Q (.del (arg cmd 1)) (doDel R g c cmd out))
    (expire : Q (.pexpire (arg cmd 1) (arg cmd 2)) (doExpire R g c cmd now out))
    (ttl : Q (.pttl (arg cmd 1)) (doTtl R g c cmd now out))
    (keys : Q .keys (doKeys g c out))
    (zadd : Q (.zadd (arg cmd 1) (arg cmd 2) (arg cmd 3)) (doZadd R g c cmd out))
    (zrem : Q (.zrem (arg cmd 1) (arg cmd 2)) (doZrem R g c cmd out))
    (zscore : Q (.zscore (arg cmd 1) (arg cmd 2)) (doZscore R g c cmd out))
    (zquery : Q (.zquery (arg cmd 1) (arg cmd 2) (arg cmd 3) (arg cmd 4) (arg cmd 5))
      (doZquery R g c cmd out))
    (quit : Q .quit (.ok (g, outStr out (ascii "BYE"))))
    (unknown : Q .unknown (.ok (g, outErr out errUnknown (ascii "Unknown command.")))) :
    Q (command cmd) (doRequest R g c cmd now out) := by
  unfold command doRequest
  refine ite_both get (ite_both set (ite_both del (ite_both expire (ite_both ttl ?_))))
  refine ite_both keys (ite_both zadd (ite_both zrem (ite_both zscore (ite_both zquery ?_))))
  exact ite_both quit unknown

theorem doGet_obeys (hinv : Inv R g) (hK : Views g K) (hc : g.conns c = some conn)
    (hst : ∀ k, Stands R (K c k) (m k)) (cmd : List Bytes) (now : Nat) (out : Bytes) :
    Obeys R g K c now m out (.get (arg cmd 1)) (doGet R g c cmd out) := by
  rcases doGet_spec hinv hK hc cmd out with ⟨g', hrun, hm⟩
  have hkey := hst (arg cmd 1)
  generalize hv : K c (arg cmd 1) = v at hrun hkey
  generalize hw : m (arg cmd 1) = w at hkey
  cases hkey with
  | absent =>
      rw [getReply, outNil_eq] at hrun
      exact .same hst (v := .scalar .nil) hrun hm (by simp only [Command.reply, hw]) rfl
  | str x d ht =>
      rw [getReply, if_neg (not_not.mpr ht), outStr_eq] at hrun
      exact .same hst (v := .scalar (.str x.str)) hrun hm (by simp only [Command.reply, hw]) rfl
  | zset x d t z ht hz =>
      have hne : x.type ≠ .str := by
        rw [ht]
        decide
      rw [getReply, if_pos hne, outErr_eq] at hrun
      exact .same hst (v := .scalar (.err _ _)) hrun hm (by simp only [Command.reply, hw]) rfl

theorem doSet_obeys (hinv : Inv R g) (hK : Views g K) (hc : g.conns c = some conn)
    (hst : ∀ k, Stands R (K c k) (m k)) (cmd : List Bytes) (now : Nat) (out : Bytes) :
    Obeys R g K c now m out (.set (arg cmd 1) (arg cmd 2)) (doSet R g c cmd out) := by
  rcases doSet_spec hinv hK hc cmd out with ⟨g', hrun, hm⟩
  have hkey := hst (arg cmd 1)
  generalize hv : K c (arg cmd 1) = v at hrun hm hkey
  generalize hw : m (arg cmd 1) = w at hkey
  cases hkey with
  | absent =>
      rw [setReply, outStr_eq] at hrun
      exact .set hst (v := .scalar (.str (ascii "1"))) hrun hm
        (by simp only [Command.reply, hw]) (.str _ none rfl) (by simp only [Command.next, hw]; rfl)
  | str x d ht =>
      rw [setReply, if_neg (not_not.mpr ht), outStr_eq] at hrun
      rw [setValue, if_neg (not_not.mpr ht)] at hm
      exact .set hst (v := .scalar (.str (ascii "1"))) hrun hm
        (by simp only [Command.reply, hw]) (.str _ d ht) (by simp only [Command.next, hw]; rfl)
  | zset x d t z ht hz =>
      have hne : x.type ≠ .str := by
        rw [ht]
        decide
      rw [setReply, if_pos hne, outErr_eq] at hrun
      rw [setValue, if_pos hne, ← hv, Keyspace.set_eq_self] at hm
      exact .same hst (v := .scalar (.err _ _)) hrun hm (by simp only [Command.reply, hw])
        (by simp only [Command.next, hw])

/-- `del` frees what the key holds, and a set that stands for a map can be
    freed. -/
theorem doDel_obeys (hinv : Inv R g) (hK : Views g K) (hc : g.conns c = some conn)
    (hst : ∀ k, Stands R (K c k) (m k)) (cmd : List Bytes) (now : Nat) (out : Bytes) :
    Obeys R g K c now m out (.del (arg cmd 1)) (doDel R g c cmd out) := by
  rcases doDel_spec hinv hK hc cmd out with ⟨g', hrun, hm⟩ | ⟨f, x, d, _, hx, ht, hclear⟩
  · have hreply : delReply out (K c (arg cmd 1)) = out ++
        (Value.scalar (.str (if (m (arg cmd 1)).isSome then ascii "1" else ascii "0"))).encode := by
      rw [delReply, (hst (arg cmd 1)).isSome]
      split
      · exact outStr_eq out _
      · exact outStr_eq out _
    rw [hreply] at hrun
    exact .set hst hrun hm rfl .absent rfl
  · have hset : setAt (K c (arg cmd 1)) = some x.zset := by
      rw [hx, setAt, if_pos ht]
    rcases (hst (arg cmd 1)).sound hset with ⟨t, hsound⟩
    rcases zsetClear_spec hsound.treeOf with ⟨z', hrun, _⟩
    rw [hclear] at hrun
    cases hrun

theorem doExpire_obeys (hinv : Inv R g) (hK : Views g K) (hc : g.conns c = some conn)
    (hst : ∀ k, Stands R (K c k) (m k)) (cmd : List Bytes) {now : Nat} (hnow : now < 2 ^ 63)
    (out : Bytes) :
    Obeys R g K c now m out (.pexpire (arg cmd 1) (arg cmd 2)) (doExpire R g c cmd now out) := by
  cases harg : str2int (arg cmd 2) with
  | none =>
      have hrun : doExpire R g c cmd now out =
          .ok (g, outErr out errBadArg (ascii "expect int64")) := by
        simp only [doExpire, harg]
      rw [outErr_eq] at hrun
      exact .same hst (v := .scalar (.err _ _)) hrun (Moved.refl hinv hK)
        (by simp only [Command.reply, harg]) (by simp only [Command.next, harg])
  | some ttlMs =>
      rcases doExpire_spec hinv hK hc cmd now out harg with ⟨g', hrun, hm⟩
      have hreply : expireReply out (K c (arg cmd 1)) = out ++
          (Value.scalar (.int (if (m (arg cmd 1)).isSome then 1 else 0))).encode := by
        rw [expireReply, (hst (arg cmd 1)).isSome]
        split
        · exact outInt_eq out _
        · exact outInt_eq out _
      rw [hreply] at hrun
      -- the server's deadline is exact
      rw [dueAfter_eq hnow (str2int_range harg).2] at hm
      exact .set hst hrun hm (by simp only [Command.reply, harg])
        ((hst (arg cmd 1)).expires (deadlineFrom now ttlMs)) (by simp only [Command.next, harg])

theorem doTtl_obeys (hinv : Inv R g) (hK : Views g K) (hc : g.conns c = some conn)
    (hst : ∀ k, Stands R (K c k) (m k)) (cmd : List Bytes) (now : Nat) (out : Bytes) :
    Obeys R g K c now m out (.pttl (arg cmd 1)) (doTtl R g c cmd now out) := by
  rcases doTtl_spec hinv hK hc cmd now out with ⟨g', hrun, hm⟩
  have hkey := hst (arg cmd 1)
  -- the reply is read off the deadline, whatever the key holds
  have hreply : ∃ v, ttlReply out now (K c (arg cmd 1)) = out ++ v.encode ∧
      (Command.pttl (arg cmd 1)).reply R now m v := by
    generalize hv : K c (arg cmd 1) = v at hkey
    generalize hw : m (arg cmd 1) = w at hkey
    cases hkey with
    | absent => exact ⟨.scalar (.int _), outInt_eq out _, by simp only [Command.reply, hw]⟩
    | str x d ht =>
        cases d with
        | none => exact ⟨.scalar (.int _), outInt_eq out _, by simp only [Command.reply, hw]⟩
        | some d =>
            rw [ttlReply_eq]
            exact ⟨.scalar (.int _), outInt_eq out _, by simp only [Command.reply, hw]⟩
    | zset x d t z ht hz =>
        cases d with
        | none => exact ⟨.scalar (.int _), outInt_eq out _, by simp only [Command.reply, hw]⟩
        | some d =>
            rw [ttlReply_eq]
            exact ⟨.scalar (.int _), outInt_eq out _, by simp only [Command.reply, hw]⟩
  rcases hreply with ⟨v, hv, hv'⟩
  rw [hv] at hrun
  exact .same hst hrun hm hv' rfl

theorem doKeys_obeys (hinv : Inv R g) (hK : Views g K) (hc : g.conns c = some conn)
    (hst : ∀ k, Stands R (K c k) (m k)) (now : Nat) (out : Bytes) :
    Obeys R g K c now m out .keys (doKeys g c out) := by
  have hrun := doKeys_spec hinv hc out
  rw [outKeys_value] at hrun
  refine .same hst hrun (Moved.refl hinv hK) ⟨keysOf g c, keysOf_nodup hinv.db c, fun k => ?_, rfl⟩
    rfl
  rw [mem_keysOf_iff hinv.db hK, (hst k).isSome]

/-! ### Sorted sets -/

theorem doZadd_obeys (hinv : Inv R g) (hK : Views g K) (hc : g.conns c = some conn)
    (hst : ∀ k, Stands R (K c k) (m k)) (cmd : List Bytes) (now : Nat) (out : Bytes) :
    Obeys R g K c now m out (.zadd (arg cmd 1) (arg cmd 2) (arg cmd 3))
      (doZadd R g c cmd out) := by
  cases harg : str2dbl R (arg cmd 2) with
  | none =>
      have hrun : doZadd R g c cmd out =
          .ok (g, outErr out errBadArg (ascii "expect float")) := by
        simp only [doZadd, harg]
      rw [outErr_eq] at hrun
      exact .same hst (v := .scalar (.err _ _)) hrun (Moved.refl hinv hK)
        (by simp only [Command.reply, harg]) (by simp only [Command.next, harg])
  | some s =>
      have hkey := hst (arg cmd 1)
      cases hw : scoresAt (m (arg cmd 1)) with
      | none =>
          rcases hkey.no_scores hw with ⟨_, x, d, hx, hne⟩
          have hentry : zaddEntry R c (arg cmd 1) (K c (arg cmd 1)) = (x, d) := by
            rw [hx, zaddEntry]
          rcases doZadd_spec hinv hK hc cmd out harg hentry with ⟨_, g', hrun, hm⟩ | ⟨ht, _⟩
          · rw [← hx, Keyspace.set_eq_self] at hm
            rw [outErr_eq] at hrun
            exact .same hst (v := noSet) hrun hm (by simp only [Command.reply, harg, hw])
              (by simp only [Command.next, harg, hw])
          · exact absurd ht hne
      | some z =>
          rcases hkey.zaddEntry hw c (arg cmd 1) with ⟨x, t, hentry, ht, hz⟩
          rcases zsetInsert_scored hz (arg cmd 3) (str2dbl_number harg) with
            ⟨z', t', hins, hz'⟩
          -- the key holds a set and the insertion succeeds, so the first two outcomes are out
          rcases doZadd_spec hinv hK hc cmd out harg hentry with
            ⟨hne, _⟩ | ⟨_, ⟨f, hfault, _⟩ | ⟨z₁, added, g', hok, hrun, hm⟩⟩
          · exact absurd ht hne
          · rw [hins] at hfault
            cases hfault
          · rw [hins, Except.ok.injEq, Prod.mk.injEq] at hok
            rw [← hok.2, outInt_eq] at hrun
            rw [← hok.1] at hm
            refine .set hst (v := .scalar (.int _)) hrun hm ?_ (.zset _ _ t' _ ht hz') ?_
            · simp only [Command.reply, harg, hw, decide_eq_true_eq]
            · simp only [Command.next, harg, hw]

theorem doZrem_obeys (hinv : Inv R g) (hK : Views g K) (hs : StoresOk R (fun _ => True) g)
    (hc : g.conns c = some conn) (hst : ∀ k, Stands R (K c k) (m k)) (cmd : List Bytes) (now : Nat)
    (out : Bytes) (hkeeps : KeepsMember m (.zrem (arg cmd 1) (arg cmd 2))) :
    Obeys R g K c now m out (.zrem (arg cmd 1) (arg cmd 2)) (doZrem R g c cmd out) := by
  have hkey := hst (arg cmd 1)
  rcases doZrem_total hinv hK hs hc cmd out (fun z hz => hkey.sound hz) with
    ⟨hnone, g', hrun, hm⟩ | ⟨z, z', removed, g', hset, hrun, hstep, hm⟩
  · have hw := hkey.scores_none hnone
    rw [outErr_eq] at hrun
    refine .same hst (v := noSet) hrun hm (by simp only [Command.reply, hw]) ?_
    rw [Command.next]
    split
    · rename_i hz
      rw [hz] at hw
      cases hw
    · rfl
  · rcases hkey.scores_some hset with ⟨zm, t, hw, hz⟩
    rcases zrem_scored hz (arg cmd 2) (hkeeps zm hw) with ⟨z₂, t', hstep', hz'⟩
    rw [hstep, Except.ok.injEq, Prod.mk.injEq] at hstep'
    rw [hstep'.2, outInt_eq] at hrun
    rw [hstep'.1] at hm
    have hreply : (Command.zrem (arg cmd 1) (arg cmd 2)).reply R now m
        (.scalar (.int (if (zm (arg cmd 2)).isSome then 1 else 0))) := by
      simp only [Command.reply, hw]
    -- the shared empty set is read where the key is absent
    rw [Keyspace.putSet] at hm
    generalize hv : K c (arg cmd 1) = v at hm hkey
    generalize hmw : m (arg cmd 1) = w at hkey hw
    cases hkey with
    | absent =>
        rw [Option.map_none, ← hv, Keyspace.set_eq_self] at hm
        exact .same hst hrun hm hreply (by simp only [Command.next, hmw])
    | str x d ht => cases hw
    | zset x d t₁ m₁ ht _ =>
        rw [scoresAt, Option.some.injEq] at hw
        refine .set hst hrun hm hreply (.zset _ d t' _ ht hz') ?_
        simp only [Command.next, hmw, hw]

/-- `zscore` may move nodes of the hashtable, and the map is the same. -/
theorem doZscore_obeys (hinv : Inv R g) (hK : Views g K) (hs : StoresOk R (fun _ => True) g)
    (hc : g.conns c = some conn) (hst : ∀ k, Stands R (K c k) (m k)) (cmd : List Bytes) (now : Nat)
    (out : Bytes) :
    Obeys R g K c now m out (.zscore (arg cmd 1) (arg cmd 2)) (doZscore R g c cmd out) := by
  have hkey := hst (arg cmd 1)
  rcases doZscore_total hinv hK hs hc cmd out (fun z hz => hkey.sound hz) with
    ⟨hnone, g', hrun, hm⟩ | ⟨z, hmap, r, g', hset, hr, hrun, hm⟩
  · rw [outErr_eq] at hrun
    exact .same hst (v := noSet) hrun hm (by simp only [Command.reply, hkey.scores_none hnone]) rfl
  · rcases hkey.scores_some hset with ⟨zm, t, hw, hz⟩
    have hscore : zm (arg cmd 2) = r.map fun a => (tupleOf z a).1 := hz.lookup hr
    have hreply : ∃ v, scoreReply z out r = out ++ v.encode ∧
        (Command.zscore (arg cmd 1) (arg cmd 2)).reply R now m v := by
      cases r with
      | none =>
          refine ⟨.scalar .nil, outNil_eq out, ?_⟩
          simp only [Command.reply, hw, hscore, Option.map_none]
      | some a =>
          refine ⟨.scalar (.dbl _), outDbl_eq out _, ?_⟩
          simp only [Command.reply, hw, hscore, Option.map_some]
    have hstores := doZscore_stores hs hrun
    rcases hreply with ⟨v, hv, hv'⟩
    rw [hv] at hrun
    have hviews := hm.views
    rw [Keyspace.putSet] at hm hviews
    generalize hx : K c (arg cmd 1) = x at hm hviews hkey hset
    generalize hmw : m (arg cmd 1) = w at hkey hw
    have hsame : Function.update m (arg cmd 1) w = m := by
      rw [← hmw, Function.update_eq_self]
    cases hkey with
    | absent =>
        rw [Option.map_none, ← hx, Keyspace.set_eq_self] at hm
        exact .same hst hrun hm hv' rfl
    | str x d ht => cases hw
    | zset x d t₁ m₁ ht _ =>
        rw [setAt, if_pos ht, Option.some.injEq] at hset
        rw [scoresAt, Option.some.injEq] at hw
        -- the entry after the lookup has a set that a run left
        have hself := Keyspace.set_same K c (arg cmd 1)
          (some ({ x with zset := { z with hmap := hmap } }, d))
        rcases (hviews c (arg cmd 1) _ _).mp hself with ⟨ent, he, _⟩
        have hkept := (hstores.entries ent _ he.entry).1
        have hsound := hkept.sound_of_root hz.sound.root hz.sound.tree
        have hz' := hz.relaid hsound
        rw [← hw] at hz'
        exact .set hst hrun hm hv' (.zset _ d t m₁ ht hz') hsame.symm

/-- The set of a key that a query may be made of. The shared empty set is
    one. -/
theorem countsRight_of_setAt (hK : Views g K) {key : Bytes} {z : ZSet}
    (hset : setAt (K c key) = some z)
    (h : ∀ ent x, Holds g c key ent x → x.type = .zset → x.zset.CountsRight) : z.CountsRight := by
  cases hv : K c key with
  | none =>
      rw [hv, setAt, Option.some.injEq] at hset
      intro t hroot _
      rw [← hset] at hroot
      rw [ptr_eq_none.mp hroot.symm]
      exact True.intro
  | some v =>
      rw [hv, setAt] at hset
      by_cases ht : v.1.type = .zset
      · rw [if_pos ht, Option.some.injEq] at hset
        rcases (hK c key v.1 v.2).mp hv with ⟨ent, he, _⟩
        rw [← hset]
        exact h ent v.1 he ht
      · rw [if_neg ht] at hset
        cases hset

/-- `zquery` replies with a page of the listing, where the counts are right. -/
theorem doZquery_obeys (hinv : Inv R g) (hK : Views g K) (hs : StoresOk R (fun _ => True) g)
    (hc : g.conns c = some conn) (hst : ∀ k, Stands R (K c k) (m k)) (cmd : List Bytes) (now : Nat)
    (out : Bytes)
    (hfit : CountsFit g c (.zquery (arg cmd 1) (arg cmd 2) (arg cmd 3) (arg cmd 4) (arg cmd 5))) :
    Obeys R g K c now m out
      (.zquery (arg cmd 1) (arg cmd 2) (arg cmd 3) (arg cmd 4) (arg cmd 5))
      (doZquery R g c cmd out) := by
  -- an argument that does not parse is answered by an error
  have herr : ∀ msg, doZquery R g c cmd out = .ok (g, outErr out errBadArg msg) →
      (Command.zquery (arg cmd 1) (arg cmd 2) (arg cmd 3) (arg cmd 4) (arg cmd 5)).reply R now m
        (.scalar (.err errBadArg msg)) → Obeys R g K c now m out
          (.zquery (arg cmd 1) (arg cmd 2) (arg cmd 3) (arg cmd 4) (arg cmd 5))
          (doZquery R g c cmd out) := by
    intro msg hrun hreply
    rw [outErr_eq] at hrun
    exact .same hst hrun (Moved.refl hinv hK) hreply rfl
  cases hscore : str2dbl R (arg cmd 2) with
  | none =>
      exact herr (ascii "expect fp number") (by simp only [doZquery, hscore])
        (by simp only [Command.reply, hscore])
  | some s =>
      cases hoff : str2int (arg cmd 4) with
      | none =>
          exact herr (ascii "expect int") (by simp only [doZquery, hscore, hoff])
            (by simp only [Command.reply, hscore, hoff])
      | some o =>
          cases hlim : str2int (arg cmd 5) with
          | none =>
              exact herr (ascii "expect int") (by simp only [doZquery, hscore, hoff, hlim])
                (by simp only [Command.reply, hscore, hoff, hlim])
          | some l =>
              have hkey := hst (arg cmd 1)
              rcases expectZset_total hinv hK hs hc (arg cmd 1) with
                ⟨hnone, g', hexp, hm⟩ | ⟨z, ref, g', hset, hexp, hget, hm, _⟩
              · have hrun : doZquery R g c cmd out =
                    .ok (g', outErr out errBadTyp (ascii "expect zset")) := by
                  simp only [doZquery, hscore, hoff, hlim, hexp, ok_bind]
                rw [outErr_eq] at hrun
                exact .same hst (v := noSet) hrun hm
                  (by simp only [Command.reply, hscore, hoff, hlim, hkey.scores_none hnone]) rfl
              · rcases hkey.scores_some hset with ⟨zm, t, hw, hz⟩
                have hcounts := countsRight_of_setAt hK hset hfit
                have hrun := doZquery_reply out hscore hoff hlim hexp hget hz.sound.treeOf hz.sorted
                  (hcounts t hz.sound.root hz.sound.tree)
                rw [queryReply_eq] at hrun
                refine .same hst hrun hm ?_ rfl
                simp only [Command.reply, hscore, hoff, hlim, hw]
                exact ⟨_, hz.lists, rfl⟩

/-- Every command does what the reference model says. -/
theorem doRequest_obeys (hinv : Inv R g) (hK : Views g K) (hs : StoresOk R (fun _ => True) g)
    (hc : g.conns c = some conn) (hst : ∀ k, Stands R (K c k) (m k)) (cmd : List Bytes) {now : Nat}
    (hnow : now < 2 ^ 63) (out : Bytes) (hkeeps : KeepsMember m (command cmd))
    (hfit : CountsFit g c (command cmd)) :
    Obeys R g K c now m out (command cmd) (doRequest R g c cmd now out) := by
  revert hkeeps hfit
  refine command_elim (Q := fun o r => KeepsMember m o → CountsFit g c o →
    Obeys R g K c now m out o r) ?get ?set ?del ?expire ?ttl ?keys ?zadd ?zrem ?zscore ?zquery
    ?quit ?unknown
  case get => exact fun _ _ => doGet_obeys hinv hK hc hst cmd now out
  case set => exact fun _ _ => doSet_obeys hinv hK hc hst cmd now out
  case del => exact fun _ _ => doDel_obeys hinv hK hc hst cmd now out
  case expire => exact fun _ _ => doExpire_obeys hinv hK hc hst cmd hnow out
  case ttl => exact fun _ _ => doTtl_obeys hinv hK hc hst cmd now out
  case keys => exact fun _ _ => doKeys_obeys hinv hK hc hst now out
  case zadd => exact fun _ _ => doZadd_obeys hinv hK hc hst cmd now out
  case zrem => exact fun hkeeps _ => doZrem_obeys hinv hK hs hc hst cmd now out hkeeps
  case zscore => exact fun _ _ => doZscore_obeys hinv hK hs hc hst cmd now out
  case zquery => exact fun _ hfit => doZquery_obeys hinv hK hs hc hst cmd now out hfit
  -- no other command looks at the keys
  case quit =>
    exact fun _ _ => .same hst (v := .scalar (.str (ascii "BYE")))
      (congrArg (fun o => Except.ok (g, o)) (outStr_eq out _)) (Moved.refl hinv hK) rfl rfl
  case unknown =>
    exact fun _ _ => .same hst (v := .scalar (.err errUnknown (ascii "Unknown command.")))
      (congrArg (fun o => Except.ok (g, o)) (outErr_eq out _ _)) (Moved.refl hinv hK) rfl rfl

end

end RedisServer
