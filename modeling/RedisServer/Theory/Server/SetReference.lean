import RedisServer.Theory.Server.Entries
import RedisServer.Theory.Server.Pages
import RedisServer.Theory.Server.Refine
import RedisServer.Theory.Zset.Ranked

/-!
# One Key's Sorted Set

The commands `zadd`, `zscore` and `zquery` on one key of one connection, in
any number and order, against a map from names to scores. `zadd` changes the
map, `zscore` reads it, and `zquery` replies with a part of its listing.

The replies are the map's as long as every new score is safe: it can be
written without leaving wrong numbers in the tree, and it is not the old score
with other bits. A member whose node has two children makes it unsafe. The
size that is then wrong sends a later query to another rank, or out of the
tree. The reply has to fit into a message besides, and the members of a set that
is queried have to be fewer than `2 ^ 32`.

## Main definitions

* `SetOp`, `setStep`: The commands, and the server's steps on them.
* `SetOp.Fits`: What is asked of the map at a command.
* `scoreSpec`: The map as a specification.
* `KeepsRanks`: The condition of a command.
* `SetMap`: The states that hold a map at the key.

## Theorems

* `setStep_simulates`: One command.
* `fill_run`: A set takes any number of new members.
* `set_commands_refine_map`: Every sequence of commands.
* `set_rank_lost`: A sequence after which a query misses the members it asks
  for.
-/

namespace RedisServer

open Lib BinaryTree ZSet

/-- The commands on a sorted set, with their arguments as they arrive. -/
inductive SetOp
  | zadd (score name : Bytes)
  | zscore (name : Bytes)
  | zquery (score name offset limit : Bytes)
  deriving DecidableEq, Repr

/-- The argument vector of a command on the key `k`. -/
def SetOp.argv (k : Bytes) : SetOp → List Bytes
  | .zadd score name => [ascii "zadd", k, score, name]
  | .zscore name => [ascii "zscore", k, name]
  | .zquery score name offset limit => [ascii "zquery", k, score, name, offset, limit]

/-- The server's step on a command of connection `c`, with the clock's
    reading. -/
def setStep (R : Runtime) (c : Nat) (k : Bytes) (g : GData) (e : SetOp × Nat) :
    Result (GData × Bytes) :=
  answerStep R g (.request c (e.1.argv k) e.2)

/-- The map after a command. -/
def SetOp.next (R : Runtime) (m : Scores) : SetOp → Scores
  | .zadd score name =>
    match str2dbl R score with
    | none => m
    | some s => Function.update m name (some s)
  | .zscore _ => m
  | .zquery _ _ _ _ => m

/-- The reply to a command. -/
def SetOp.reply (R : Runtime) (m : Scores) : SetOp → Bytes → Prop
  | .zadd score name, r => r =
    match str2dbl R score with
    | none => outErr [] errBadArg (ascii "expect float")
    | some _ => outInt [] (if m name = none then 1 else 0)
  | .zscore name, r => r =
    match m name with
    | none => outNil []
    | some s => outDbl [] s
  | .zquery score name offset limit, r =>
    match str2dbl R score, str2int offset, str2int limit with
    | none, _, _ => r = outErr [] errBadArg (ascii "expect fp number")
    | some s, some o, some l => ∃ L, Lists L m ∧ r = queryReply [] (page L (s, name) o l)
    | some _, _, _ => r = outErr [] errBadArg (ascii "expect int")

/-- The reply is not over the limit of a message, and the members of a set that
    is queried can be counted in 32 bits. -/
def SetOp.Fits (R : Runtime) (m : Scores) (o : SetOp) : Prop :=
  (∀ reply, o.reply R m reply → reply.length ≤ kMaxMsg) ∧
    match o with
    | .zquery _ _ _ _ => ∀ L, Lists L m → L.length < 2 ^ 32
    | _ => True

/-- The map as a specification. A reply is sent in its frame. -/
def scoreSpec (R : Runtime) : Spec Scores (SetOp × Nat) Bytes where
  guard m e := e.1.Fits R m
  next m e := e.1.next R m
  reply m e r := ∃ reply, e.1.reply R m reply ∧ r = responseFrame reply

/-- A `zadd` of a name that the key's set has gives it a score that is safe. -/
def KeepsRanks (R : Runtime) (c : Nat) (k : Bytes) (g : GData) (e : SetOp × Nat) : Prop :=
  match e.1 with
  | .zadd score name => ∀ s, str2dbl R score = some s → ∀ ent x, Holds g c k ent x →
      ∀ a d, x.zset.data a = some d → d.name = name → SafeRescore x.zset a d s
  | _ => True

/-- The connection is there, and its key holds a set that stands for the map.
    An absent key stands for the empty map. -/
structure SetMap (R : Runtime) (P : Nat → Prop) (c : Nat) (k : Bytes) (g : GData) (m : Scores) :
    Prop where
  live : Live g c
  inv : Inv R g P
  stores : StoresOk R (fun _ => True) g
  set : ∃ K z t, Views g K ∧ setAt (K c k) = some z ∧ z.Ranks R t m

section

variable {R : Runtime} {P : Nat → Prop} {c : Nat} {k : Bytes} {g g' : GData} {K : Keyspace}
  {m : Scores} {z : ZSet} {t : AvlTree}

/-- The command's branch of the dispatch. -/
theorem doRequest_setOp (R : Runtime) (g : GData) (c : Nat) (k : Bytes) (o : SetOp) (now : Nat)
    (out : Bytes) :
    doRequest R g c (o.argv k) now out =
      match o with
      | .zadd _ _ => doZadd R g c (o.argv k) out
      | .zscore _ => doZscore R g c (o.argv k) out
      | .zquery _ _ _ _ => doZquery R g c (o.argv k) out := by
  cases o <;> rfl

-- The entry that `zadd` works on has the set of the key.
theorem zaddEntry_of_setAt {v : Option (Entry × Option Nat)} (h : setAt v = some z) :
    ∃ x d, zaddEntry R c k v = (x, d) ∧ x.type = .zset ∧ x.zset = z := by
  cases v with
  | none =>
      rw [setAt, Option.some.injEq] at h
      exact ⟨_, _, rfl, rfl, h⟩
  | some v =>
      rw [setAt] at h
      by_cases ht : v.1.type = .zset
      · rw [if_pos ht, Option.some.injEq] at h
        exact ⟨v.1, v.2, rfl, ht, h⟩
      · rw [if_neg ht] at h
        cases h

-- A node of the key's set belongs to an entry that the key holds.
theorem holds_of_setAt (hK : Views g K) (h : setAt (K c k) = some z) {a : Nat} {d : ZNode}
    (hd : z.data a = some d) : ∃ ent x, Holds g c k ent x ∧ x.zset = z := by
  cases hv : K c k with
  | none =>
      rw [hv, setAt, Option.some.injEq] at h
      rw [← h] at hd
      cases hd
  | some v =>
      rw [hv, setAt] at h
      by_cases ht : v.1.type = .zset
      · rw [if_pos ht, Option.some.injEq] at h
        rcases (hK c k v.1 v.2).mp hv with ⟨ent, he, _⟩
        exact ⟨ent, v.1, he, h⟩
      · rw [if_neg ht] at h
        cases h

theorem Moved.live {K' : Keyspace} (hm : Moved R g g' K K' P) (h : Live g c) : Live g' c :=
  (hm.same.live c).mpr h

/-! ## One command -/

theorem zadd_step (h : SetMap R P c k g m) {score name : Bytes} {now : Nat}
    (hsafe : KeepsRanks R c k g (.zadd score name, now)) :
    ∃ g' r, doZadd R g c ((SetOp.zadd score name).argv k) [] = .ok (g', r) ∧
      (SetOp.zadd score name).reply R m r ∧ SetMap R P c k g' ((SetOp.zadd score name).next R m) := by
  cases harg : str2dbl R score with
  | none =>
      have hread : str2dbl R (arg ((SetOp.zadd score name).argv k) 2) = none := harg
      simp only [SetOp.reply, SetOp.next, harg]
      refine ⟨g, _, ?_, rfl, h⟩
      simp only [doZadd, hread]
  | some s =>
      have hread : str2dbl R (arg ((SetOp.zadd score name).argv k) 2) = some s := harg
      simp only [SetOp.reply, SetOp.next, harg]
      rcases h.set with ⟨K, z, t, hK, hz, hranks⟩
      rcases h.live with ⟨conn, hc⟩
      rcases zaddEntry_of_setAt (R := R) (c := c) (k := k) hz with ⟨x, d, hentry, ht, hxz⟩
      -- what the run promises about the entry, said of its set
      have hsafe' : ∀ a d, z.data a = some d → d.name = name → SafeRescore z a d s := by
        intro a d hd hname
        rcases holds_of_setAt hK hz hd with ⟨ent, y, hy, hyz⟩
        rw [← hyz] at hd ⊢
        exact hsafe s harg ent y hy a d hd hname
      rcases zsetInsert_ranks hranks (str2dbl_number harg) hsafe' with ⟨z', t', hins, hranks'⟩
      -- the key holds a set and the insertion succeeds, so the first two outcomes are out
      rcases doZadd_spec h.inv hK hc ((SetOp.zadd score name).argv k) [] hread hentry with
        ⟨hbad, _⟩ | ⟨_, ⟨f, herr, _⟩ | ⟨z₁, added, g', hok, hrun, hm⟩⟩
      · exact absurd ht hbad
      · have hins' : zsetInsert R x.zset name s = .error f := herr
        rw [hxz, hins] at hins'
        cases hins'
      · have hins' : zsetInsert R x.zset name s = .ok (z₁, added) := hok
        rw [hxz, hins, Except.ok.injEq, Prod.mk.injEq] at hins'
        rw [← hins'.2] at hrun
        rw [← hins'.1] at hm
        refine ⟨g', _, hrun, ?_, hm.live h.live, hm.inv, doZadd_stores h.stores True.intro hrun,
          _, z', t', hm.views, ?_, hranks'⟩
        · simp only [decide_eq_true_eq]
        · have hset : (K.set c k (some ({ x with zset := z' }, d))) c k =
              some ({ x with zset := z' }, d) := Keyspace.set_same K c k _
          show setAt ((K.set c k (some ({ x with zset := z' }, d))) c k) = some z'
          rw [hset, setAt, if_pos ht]

/-- `zscore` may move nodes of the hashtable, and the map is the same. -/
theorem zscore_step (h : SetMap R P c k g m) (name : Bytes) :
    ∃ g' r, doZscore R g c ((SetOp.zscore name).argv k) [] = .ok (g', r) ∧
      (SetOp.zscore name).reply R m r ∧ SetMap R P c k g' m := by
  rcases h.set with ⟨K, z, t, hK, hz, hranks⟩
  rcases h.live with ⟨conn, hc⟩
  -- the set the command reads is the one the state describes
  have hsound : ∀ z', setAt (K c (arg ((SetOp.zscore name).argv k) 1)) = some z' →
      ∃ t, z'.Sound R t := by
    intro z' hz'
    have hsame : some z' = some z := hz'.symm.trans hz
    rw [Option.some.injEq] at hsame
    rw [hsame]
    exact ⟨t, hranks.sound⟩
  rcases doZscore_total h.inv hK h.stores hc ((SetOp.zscore name).argv k) [] hsound with
    ⟨hnone, _⟩ | ⟨z', hmap, r, g', hz', hr, hrun, hm⟩
  · have hsome : setAt (K c k) = none := hnone
    rw [hz] at hsome
    cases hsome
  · have hsame : some z' = some z := hz'.symm.trans hz
    rw [Option.some.injEq] at hsame
    rw [hsame] at hr hrun hm
    have hstores := doZscore_stores h.stores hrun
    refine ⟨g', _, hrun, ?_, hm.live h.live, hm.inv, hstores, ?_⟩
    -- the answer is the score the reference has
    · have hscore : m name = r.map fun a => (tupleOf z a).1 := hranks.lookup hr
      simp only [SetOp.reply, hscore]
      cases r with
      | none => rfl
      | some a => rfl
    -- the lookup left the set with its tables possibly rehashed
    · cases hv : K c k with
      | none =>
          -- The shared empty set is read, and the key stays absent.
          have hput : K.putSet c k { z with hmap := hmap } = K := by
            rw [Keyspace.putSet, hv, Option.map_none, ← hv, Keyspace.set_eq_self]
          exact ⟨K, z, t, hput ▸ hm.views, hz, hranks⟩
      | some v =>
          have hput : K.putSet c k { z with hmap := hmap } c k =
              some ({ v.1 with zset := { z with hmap := hmap } }, v.2) := by
            rw [Keyspace.putSet, hv, Option.map_some, Keyspace.set_same]
          have ht : v.1.type = .zset := by
            by_contra hne
            rw [hv, setAt, if_neg hne] at hz
            cases hz
          rcases (hm.views c k _ _).mp hput with ⟨ent, he, _⟩
          have hkept := (hstores.entries ent _ he.entry).1
          have hsound' := hkept.sound_of_root hranks.sound.root hranks.sound.tree
          refine ⟨_, _, t, hm.views, ?_, hranks.relaid hsound'⟩
          show setAt (K.putSet c k { z with hmap := hmap } c k) = _
          rw [hput, setAt, if_pos ht]

/-- `zquery` replies with a part of the map's listing. -/
theorem zquery_step (h : SetMap R P c k g m) (score name offset limit : Bytes)
    (hsize : ∀ L, Lists L m → L.length < 2 ^ 32) :
    ∃ g' r, doZquery R g c ((SetOp.zquery score name offset limit).argv k) [] = .ok (g', r) ∧
      (SetOp.zquery score name offset limit).reply R m r ∧ SetMap R P c k g' m := by
  -- the arguments by their positions
  obtain ⟨cmd, hcmd⟩ : ∃ cmd, cmd = (SetOp.zquery score name offset limit).argv k := ⟨_, rfl⟩
  have hkey : arg cmd 1 = k := by rw [hcmd]; rfl
  have hname : arg cmd 3 = name := by rw [hcmd]; rfl
  have hscore : str2dbl R (arg cmd 2) = str2dbl R score := by rw [hcmd]; rfl
  have hoff : str2int (arg cmd 4) = str2int offset := by rw [hcmd]; rfl
  have hlim : str2int (arg cmd 5) = str2int limit := by rw [hcmd]; rfl
  rw [← hcmd]
  simp only [SetOp.reply]
  cases hs : str2dbl R score with
  | none =>
      refine ⟨g, _, ?_, rfl, h⟩
      simp only [doZquery, hscore, hs]
  | some s =>
      cases ho : str2int offset with
      | none =>
          refine ⟨g, _, ?_, rfl, h⟩
          simp only [doZquery, hscore, hs, hoff, ho]
      | some o =>
          cases hl : str2int limit with
          | none =>
              refine ⟨g, _, ?_, rfl, h⟩
              simp only [doZquery, hscore, hs, hoff, ho, hlim, hl]
          | some l =>
              rcases h.set with ⟨K, z, t, hK, hz, hranks⟩
              rcases h.live with ⟨conn, hc⟩
              -- the arguments parse, so the set is walked from the pair sought
              rcases expectZset_total h.inv hK h.stores hc (arg cmd 1) with
                ⟨hnone, _⟩ | ⟨z', ref, g', hz', hexp, hget, hm, _⟩
              · rw [hkey, hz] at hnone
                cases hnone
              · rw [hkey, hz, Option.some.injEq] at hz'
                rw [← hz'] at hget
                have hnodes : t.numNodes < 2 ^ 32 := by
                  rw [← length_vals, ← List.length_map (tupleOf z)]
                  exact hsize _ hranks.lists
                have hrun := doZquery_reply [] (hscore.trans hs) (hoff.trans ho) (hlim.trans hl) hexp
                  hget hranks.sound.treeOf hranks.sorted (hranks.avl.exact.counted hnodes)
                rw [hname] at hrun
                exact ⟨g', _, hrun, ⟨_, hranks.lists, rfl⟩, hm.live h.live, hm.inv,
                  h.stores.congr (doZquery_stores hrun), K, z, t, hm.views, hz, hranks⟩

/-- A command whose score is safe is matched by the map. -/
theorem setStep_simulates (R : Runtime) (P : Nat → Prop) (c : Nat) (k : Bytes) :
    Simulates (setStep R c k) (KeepsRanks R c k) (scoreSpec R) (SetMap R P c k) := by
  rintro g m ⟨o, now⟩ h hsafe ⟨hfit, hcount⟩
  -- the reply is the map's, and fits
  obtain ⟨g', r, hrun, hr, h'⟩ : ∃ g' r, doRequest R g c (o.argv k) now [] = .ok (g', r) ∧
      o.reply R m r ∧ SetMap R P c k g' (o.next R m) := by
    rw [doRequest_setOp]
    cases o with
    | zadd score name => exact zadd_step h hsafe
    | zscore name => exact zscore_step h name
    | zquery score name offset limit => exact zquery_step h score name offset limit hcount
  rcases h.live with ⟨conn, hc⟩
  refine ⟨g', responseFrame r, ?_, ⟨r, hr, rfl⟩, h'⟩
  have hsent : framed r = responseFrame r := by
    rw [framed, capped, if_neg (Nat.not_lt.mpr (hfit r hr))]
  rw [setStep, answerStep_request h.inv hc, hrun]
  exact congrArg (fun x => Except.ok (g', x)) hsent

/-- A name that the map has not is written safely. -/
theorem keepsRanks_of_new (h : SetMap R P c k g m) {name : Bytes} (hnew : m name = none)
    (score : Bytes) (now : Nat) : KeepsRanks R c k g (.zadd score name, now) := by
  intro s _ ent x hx a d hd hname
  rcases h.set with ⟨K, z, t, hK, hz, hranks⟩
  rw [hK.eq_some hx, setAt] at hz
  by_cases ht : x.type = .zset
  · rw [if_pos ht, Option.some.injEq] at hz
    rw [hz] at hd
    have hsome := (hranks.scores name d.score).mpr ⟨a, d, hd, hname, rfl⟩
    rw [hnew] at hsome
    cases hsome
  · rw [if_neg ht] at hz
    cases hz

/-- The set of the key has as many members as the map has names. -/
theorem SetMap.large (h : SetMap R P c k g m) {names : List Bytes} (hnd : names.Nodup)
    (hne : names ≠ []) (hin : ∀ name ∈ names, m name ≠ none) :
    ∃ ent x, Holds g c k ent x ∧ x.type = .zset ∧ names.length ≤ hmSize x.zset.hmap := by
  rcases h.set with ⟨K, z, t, hK, hz, hranks⟩
  have hsub : names ⊆ ((vals t).map (tupleOf z)).map Prod.snd := by
    intro name hname
    rcases Option.ne_none_iff_exists'.mp (hin name hname) with ⟨s, hs⟩
    exact List.mem_map_of_mem ((hranks.lists.mem s name).mpr hs)
  have hle : names.length ≤ hmSize z.hmap := by
    have hlen := (hnd.subperm hsub).length_le
    rw [List.length_map, List.length_map] at hlen
    rw [hranks.sound.hmSize_eq]
    exact hlen
  cases hv : K c k with
  | none =>
      rw [hv, setAt, Option.some.injEq] at hz
      rw [← hz] at hle
      exact absurd (List.length_eq_zero_iff.mp (Nat.le_zero.mp hle)) hne
  | some v =>
      rcases (hK c k v.1 v.2).mp hv with ⟨ent, he, _⟩
      rw [hv, setAt] at hz
      by_cases ht : v.1.type = .zset
      · rw [if_pos ht, Option.some.injEq] at hz
        exact ⟨ent, v.1, he, ht, by rw [hz]; exact hle⟩
      · rw [if_neg ht] at hz
        cases hz

/-- A key that is absent. -/
theorem setMap_absent (hinv : Inv R g P) (hstores : StoresOk R (fun _ => True) g) (hlive : Live g c)
    (habsent : ∀ ent x, ¬ Holds g c k ent x) : SetMap R P c k g fun _ => none := by
  rcases exists_views hinv.db with ⟨K, hK⟩
  refine ⟨hlive, hinv, hstores, K, {}, nil, hK, ?_, ranks_empty R⟩
  cases hv : K c k with
  | none => rfl
  | some v =>
      rcases (hK c k v.1 v.2).mp hv with ⟨ent, he, _⟩
      exact absurd he (habsent ent v.1)

/-- A request on connection `c` at the start of the clock, with the reply as
    `do_request` leaves it. -/
def requestStep (R : Runtime) (c : Nat) (g : GData) (cmd : List Bytes) : Result (GData × Bytes) :=
  serverStep R g (.request c cmd 0)

/-- As `requestStep`, with the response frame. -/
def responseStep (R : Runtime) (c : Nat) (g : GData) (cmd : List Bytes) : Result (GData × Bytes) :=
  answerStep R g (.request c cmd 0)

/-- New members for the set of a key, all with one score. -/
def fill (k score : Bytes) (names : List Bytes) : List (List Bytes) :=
  names.map fun name => (SetOp.zadd score name).argv k

/-- A set takes any number of new members, whether the replies are framed or
    not. -/
theorem fill_run {score : Bytes} {v : Double} (hv : str2dbl R score = some v) {names : List Bytes}
    (hnd : names.Nodup) (h : SetMap R P c k g m) (hnew : ∀ name ∈ names, m name = none) :
    ∃ g' m' rs rs',
      run (requestStep R c) g (fill k score names) = .ok (g', rs) ∧
      run (responseStep R c) g (fill k score names) = .ok (g', rs') ∧
      Grown g g' ∧ SetMap R P c k g' m' ∧ (∀ name ∈ names, m' name ≠ none) ∧
      ∀ name, m name ≠ none → m' name ≠ none := by
  induction names generalizing g m with
  | nil =>
      exact ⟨g, m, [], [], rfl, rfl, Grown.refl g, h, fun _ hn => absurd hn List.not_mem_nil,
        fun _ hn => hn⟩
  | cons name names ih =>
      rw [List.nodup_cons] at hnd
      rcases h.live with ⟨conn, hc⟩
      rcases zadd_step h (keepsRanks_of_new h (hnew name List.mem_cons_self) score 0) with
        ⟨g₁, r, hadd, _, h₁⟩
      simp only [SetOp.next, hv] at h₁
      have hdo : doRequest R g c ((SetOp.zadd score name).argv k) 0 [] = .ok (g₁, r) :=
        (doRequest_setOp R g c k (.zadd score name) 0 []).trans hadd
      have hserver : requestStep R c g ((SetOp.zadd score name).argv k) = .ok (g₁, r) := by
        rw [requestStep, serverStep, conn_eq hc, ok_bind, hdo]
      have hanswer : responseStep R c g ((SetOp.zadd score name).argv k) = .ok (g₁, framed r) := by
        rw [responseStep, answerStep_request h.inv hc, hdo]
        rfl
      have hnew₁ : ∀ n ∈ names, Function.update m name (some v) n = none := by
        intro n hn
        rw [Function.update_of_ne (ne_of_mem_of_not_mem hn hnd.1)]
        exact hnew n (List.mem_cons_of_mem _ hn)
      have hnodel : ¬ isCmd ((SetOp.zadd score name).argv k) 2 "del" = true := Bool.false_ne_true
      have hgrown : Grown g g₁ := doRequest_grown h.inv hnodel hdo
      rcases ih hnd.2 h₁ hnew₁ with ⟨g', m', rs, rs', hrun, hrun', hgrown', h', hin, hkept⟩
      rw [fill] at hrun hrun'
      refine ⟨g', m', r :: rs, framed r :: rs', ?_, ?_, hgrown.trans hgrown', h', ?_,
        fun n hn => hkept n ?_⟩
      · rw [fill, List.map_cons, run_cons hserver, hrun]
        rfl
      · rw [fill, List.map_cons, run_cons hanswer, hrun']
        rfl
      · intro n hn
        rcases List.mem_cons.mp hn with rfl | hn
        · refine hkept n ?_
          rw [Function.update_self]
          exact Option.some_ne_none v
        · exact hin n hn
      · by_cases hname : n = name
        · rw [hname, Function.update_self]
          exact Option.some_ne_none v
        · rw [Function.update_of_ne hname]
          exact hn

end

/-- For every sequence of `zadd`, `zscore` and `zquery` commands on a key that
    is absent at the start, in which every score a name gets is safe and every
    reply fits, no command fails and every response is the frame of the map's
    reply. -/
theorem set_commands_refine_map (R : Runtime) (P : Nat → Prop) (c : Nat) (k : Bytes) (g₀ : GData)
    (hinv : Inv R g₀ P) (hstores : StoresOk R (fun _ => True) g₀) (hlive : Live g₀ c)
    (habsent : ∀ ent x, ¬ Holds g₀ c k ent x) (es : List (SetOp × Nat))
    (hsafe : Guarded (setStep R c k) (KeepsRanks R c k) g₀ es)
    (hfits : (scoreSpec R).Admits (fun _ => none) es) :
    ∃ g rs, run (setStep R c k) g₀ es = .ok (g, rs) ∧
      (scoreSpec R).Agrees (fun _ => none) es rs := by
  rcases (setStep_simulates R P c k).run (setMap_absent hinv hstores hlive habsent) hsafe hfits with
    ⟨g, rs, hrun, hrs, _⟩
  exact ⟨g, rs, hrun, hrs⟩

-- Numbers that are equal have the same bits, the two zeros apart.
theorem eq_of_key {x y : Double} (h : x.eq y = true) (hy : y.key ≠ 0) : x = y := by
  have hkey : x.key = y.key := by
    rw [Double.eq, Bool.and_eq_true, beq_iff_eq] at h
    exact h.2
  have hx := x.bits.toNat_lt
  have hy' := y.bits.toNat_lt
  unfold Double.key Double.magnitude Double.negative at hkey hy
  cases x with
  | mk xb =>
      cases y with
      | mk yb =>
          rw [Double.mk.injEq, ← UInt64.toNat_inj]
          simp only [decide_eq_true_eq] at hkey hy hx hy'
          -- only the two zeros share a key, so off zero the sign bits agree
          by_cases hxn : 2 ^ 63 ≤ xb.toNat
          · by_cases hyn : 2 ^ 63 ≤ yb.toNat
            · rw [if_pos hxn, if_pos hyn] at hkey
              omega
            · rw [if_pos hxn, if_neg hyn] at hkey
              rw [if_neg hyn] at hy
              omega
          · by_cases hyn : 2 ^ 63 ≤ yb.toNat
            · rw [if_neg hxn, if_pos hyn] at hkey
              rw [if_pos hyn] at hy
              omega
            · rw [if_neg hxn, if_neg hyn] at hkey
              omega

/-- A test for runs: the key's set has no node with two children. -/
def noTwoChildren (z : ZSet) : Bool :=
  (List.range z.store.next).all fun a =>
    match z.store.cell a with
    | none => true
    | some n => n.left.isNone || n.right.isNone

theorem keepsNumbers_of_noTwoChildren {z : ZSet} (h : noTwoChildren z = true) (a : Nat) :
    KeepsNumbers z (.del a) := by
  intro k x l r _ htree hx
  have hmem : a ∈ vals (plug k (node x l r)) := by
    rw [← hx, vals_plug, vals_node]
    simp only [List.mem_append, List.mem_cons, true_or, or_true]
  have hcell := htree.place.1.1
  rw [hx] at hcell
  rw [noTwoChildren, List.all_eq_true] at h
  have hchild := h a (List.mem_range.mpr (htree.lt a hmem))
  rw [hcell] at hchild
  simp only [Bool.or_eq_true, Option.isNone_iff_eq_none] at hchild
  exact hchild.elim (fun hl => Or.inl (ptr_eq_none.mp hl))
    fun hr => Or.inr (Or.inl (ptr_eq_none.mp hr))

/-- A test for runs: a score is not zero, and the connection's sets have no
    node with two children. -/
def addsSafely (R : Runtime) (c : Nat) (g : GData) (e : SetOp × Nat) : Bool :=
  match e.1 with
  | .zadd score _ =>
    (match str2dbl R score with
      | none => true
      | some s => decide (s.key ≠ 0)) &&
    (nodesOf g c).all fun n =>
      match g.entries n.payload with
      | none => true
      | some x => noTwoChildren x.zset
  | _ => true

theorem keepsRanks_of_addsSafely {R : Runtime} {c : Nat} {k : Bytes} {g : GData} {e : SetOp × Nat}
    (h : addsSafely R c g e = true) : KeepsRanks R c k g e := by
  rcases e with ⟨o, now⟩
  cases o with
  | zscore name => exact True.intro
  | zquery score name offset limit => exact True.intro
  | zadd score name =>
      intro s hs ent x hx a d hd hname
      simp only [addsSafely, hs, Bool.and_eq_true, decide_eq_true_eq, List.all_eq_true] at h
      unfold SafeRescore
      by_cases heq : d.score.eq s = true
      · rw [if_pos heq]
        exact eq_of_key heq h.1
      · rw [if_neg heq]
        rcases hx.stored with ⟨n, hn, hne⟩
        have htest := h.2 n hn
        rw [hne, hx.entry] at htest
        exact keepsNumbers_of_noTwoChildren htest a

-- The state after the first client connected, whatever `strtod` is.
theorem oneClient_setMap (R : Runtime) (k : Bytes) :
    Inv R oneClient ∧ StoresOk R (fun _ => True) oneClient ∧ Live oneClient 0 ∧
      ∀ ent x, ¬ Holds oneClient 0 k ent x := by
  rcases handleAccept_spec (inv_init R) 5 0 with ⟨g, hrun, _, hinv, _⟩
  have hg : oneClient = g := by
    unfold oneClient
    simp only [serverStep, hrun, ok_bind]
  refine ⟨hg ▸ hinv, ?_, ⟨_, rfl⟩, fun ent x hx => ?_⟩
  · rw [hg]
    exact (storesOk_init R _).congr (handleAccept_stores hrun)
  · rcases hx.stored with ⟨n, hn, _⟩
    have hempty : nodesOf oneClient 0 = [] := rfl
    rw [hempty] at hn
    exact absurd hn List.not_mem_nil

/-- As many different names as there are numbers. -/
def numbered (n : Nat) : List Bytes := (List.range n).map le32

theorem numbered_nodup {n : Nat} (hn : n ≤ 2 ^ 32) : (numbered n).Nodup := by
  refine List.Nodup.map_on (fun i hi j hj h => ?_) List.nodup_range
  have hle := congrArg leNat h
  rw [leNat_le32 (Nat.lt_of_lt_of_le (List.mem_range.mp hi) hn),
    leNat_le32 (Nat.lt_of_lt_of_le (List.mem_range.mp hj) hn)] at hle
  exact hle

/-- The first client can fill a set with any number of members. -/
theorem oneClient_fill {n : Nat} (hpos : 0 < n) (hn : n ≤ 2 ^ 32) :
    ∃ g rs rs' ent x,
      run (requestStep readsDigits 0) oneClient (fill (ascii "z") (ascii "1") (numbered n)) =
        .ok (g, rs) ∧
      run (responseStep readsDigits 0) oneClient (fill (ascii "z") (ascii "1") (numbered n)) =
        .ok (g, rs') ∧
      g.queue = [] ∧ Inv readsDigits g ∧ Holds g 0 (ascii "z") ent x ∧ x.type = .zset ∧
      n ≤ hmSize x.zset.hmap := by
  have hlen : (numbered n).length = n := by
    rw [numbered, List.length_map, List.length_range]
  have hne : numbered n ≠ [] := by
    rw [← List.length_pos_iff, hlen]
    exact hpos
  have hone : str2dbl readsDigits (ascii "1") = some ⟨wholeBits 1⟩ := rfl
  rcases oneClient_setMap readsDigits (ascii "z") with ⟨hinv, hstores, hlive, habsent⟩
  rcases fill_run hone (numbered_nodup hn) (setMap_absent hinv hstores hlive habsent)
    fun _ _ => rfl with ⟨g, m, rs, rs', hrun, hrun', hgrown, hset, hin, _⟩
  rcases hset.large (numbered_nodup hn) hne hin with ⟨ent, x, hx, ht, hle⟩
  rw [hlen] at hle
  exact ⟨g, rs, rs', ent, x, hrun, hrun', hgrown.queue, hset.inv, hx, ht, hle⟩

/-- Two members, a new score for the first, and questions. -/
def rescoreAndAsk : List (SetOp × Nat) :=
  [(.zadd (ascii "4") (ascii "d"), 1), (.zadd (ascii "2") (ascii "b"), 2),
    (.zadd (ascii "9") (ascii "d"), 3), (.zscore (ascii "d"), 4),
    (.zquery (ascii "1") [] (ascii "1") (ascii "10"), 5)]

/-- The listing that the query is about. -/
def rescoredListing : List (Double × Bytes) :=
  [(⟨wholeBits 2⟩, ascii "b"), (⟨wholeBits 9⟩, ascii "d")]

theorem rescoredListing_lists : Lists rescoredListing
    ((rescoreAndAsk.take 4).foldl (scoreSpec readsDigits).next fun _ => none) where
  sorted := by decide +kernel
  mem := by
    intro s n
    have hmap : (rescoreAndAsk.take 4).foldl (scoreSpec readsDigits).next (fun _ => none) =
        Function.update (Function.update (Function.update (fun _ => none) [100]
          (some ⟨wholeBits 4⟩)) [98] (some ⟨wholeBits 2⟩)) [100] (some ⟨wholeBits 9⟩) := rfl
    have hlist : rescoredListing = [(⟨wholeBits 2⟩, [98]), (⟨wholeBits 9⟩, [100])] := rfl
    rw [hmap, hlist]
    simp only [Function.update_apply, List.mem_cons, Prod.mk.injEq, List.not_mem_nil, or_false]
    split_ifs with h₁ h₂ <;> simp_all [eq_comm]

-- The replies are short, and the query is about two members.
theorem rescoreAndAsk_fits : (scoreSpec readsDigits).Admits (fun _ => none) rescoreAndAsk := by
  refine ⟨⟨?_, True.intro⟩, ⟨?_, True.intro⟩, ⟨?_, True.intro⟩, ⟨?_, True.intro⟩, ⟨?_, ?_⟩,
    True.intro⟩
  · rintro r rfl
    decide +kernel
  · rintro r rfl
    decide +kernel
  · rintro r rfl
    decide +kernel
  · rintro r rfl
    decide +kernel
  · rintro r ⟨L, hL, rfl⟩
    rw [hL.unique rescoredListing_lists]
    decide +kernel
  · intro L hL
    rw [hL.unique rescoredListing_lists]
    decide

theorem set_commands_refine_map_rescore :
    ∃ g rs, run (setStep readsDigits 0 (ascii "z")) oneClient rescoreAndAsk = .ok (g, rs) ∧
      (scoreSpec readsDigits).Agrees (fun _ => none) rescoreAndAsk rs := by
  rcases oneClient_setMap readsDigits (ascii "z") with ⟨hinv, hstores, hlive, habsent⟩
  have hsafe : Guarded (setStep readsDigits 0 (ascii "z")) (KeepsRanks readsDigits 0 (ascii "z"))
      oneClient rescoreAndAsk :=
    guarded_of_checkRun (fun _ _ => keepsRanks_of_addsSafely) (by decide +kernel)
  exact set_commands_refine_map readsDigits _ 0 (ascii "z") oneClient hinv hstores hlive habsent _
    hsafe rescoreAndAsk_fits

/-- Five members, a new score for one whose node has two children, and a query
    for what comes two ranks before the third. -/
def rescoreAndSeek : List (SetOp × Nat) :=
  [(.zadd (ascii "4") (ascii "d"), 1), (.zadd (ascii "2") (ascii "b"), 2),
    (.zadd (ascii "6") (ascii "f"), 3), (.zadd (ascii "1") (ascii "a"), 4),
    (.zadd (ascii "3") (ascii "c"), 5), (.zadd (ascii "9") (ascii "b"), 6),
    (.zquery (ascii "4") (ascii "d") (ascii "-2") (ascii "2"), 7)]

/-- The listing after these commands. -/
def seekListing : List (Double × Bytes) :=
  [(⟨wholeBits 1⟩, ascii "a"), (⟨wholeBits 3⟩, ascii "c"), (⟨wholeBits 4⟩, ascii "d"),
    (⟨wholeBits 6⟩, ascii "f"), (⟨wholeBits 9⟩, ascii "b")]

theorem seekListing_lists : Lists seekListing
    ((rescoreAndSeek.take 6).foldl (scoreSpec readsDigits).next fun _ => none) where
  sorted := by decide +kernel
  mem := by
    intro s n
    have hmap : (rescoreAndSeek.take 6).foldl (scoreSpec readsDigits).next (fun _ => none) =
        Function.update (Function.update (Function.update (Function.update (Function.update
          (Function.update (fun _ => none) [100] (some ⟨wholeBits 4⟩)) [98] (some ⟨wholeBits 2⟩))
          [102] (some ⟨wholeBits 6⟩)) [97] (some ⟨wholeBits 1⟩)) [99] (some ⟨wholeBits 3⟩))
          [98] (some ⟨wholeBits 9⟩) := rfl
    have hlist : seekListing = [(⟨wholeBits 1⟩, [97]), (⟨wholeBits 3⟩, [99]),
      (⟨wholeBits 4⟩, [100]), (⟨wholeBits 6⟩, [102]), (⟨wholeBits 9⟩, [98])] := rfl
    rw [hmap, hlist]
    simp only [Function.update_apply, List.mem_cons, Prod.mk.injEq, List.not_mem_nil, or_false]
    split_ifs with h₁ h₂ h₃ h₄ h₅ <;> simp_all [eq_comm]

/-- The query gets an empty array for the first member of the listing. -/
theorem set_rank_lost :
    ∃ g rs, run (setStep readsDigits 0 (ascii "z")) oneClient rescoreAndSeek = .ok (g, rs) ∧
      ¬ (scoreSpec readsDigits).Agrees (fun _ => none) rescoreAndSeek rs := by
  have hrs : (run (setStep readsDigits 0 (ascii "z")) oneClient rescoreAndSeek).map Prod.snd =
      .ok ([outInt [] 1, outInt [] 1, outInt [] 1, outInt [] 1, outInt [] 1, outInt [] 0,
        outArr [] 0].map responseFrame) := by decide +kernel
  have hok : ∃ g rs, run (setStep readsDigits 0 (ascii "z")) oneClient rescoreAndSeek =
      .ok (g, rs) := exists_of_isOk (by decide +kernel)
  rcases hok with ⟨g, rs, hrun⟩
  rw [hrun, Except.map, Except.ok.injEq] at hrs
  refine ⟨g, rs, hrun, fun hagrees => ?_⟩
  simp only at hrs
  rw [hrs] at hagrees
  have hlast := hagrees.2.2.2.2.2.2.1
  rcases hlast with ⟨reply, ⟨L, hL, rfl⟩, hreply⟩
  rw [hL.unique seekListing_lists] at hreply
  exact absurd hreply (by decide +kernel)

end RedisServer
