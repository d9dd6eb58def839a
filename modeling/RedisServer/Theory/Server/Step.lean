import RedisServer.Core.Events
import RedisServer.Lib.Run
import RedisServer.Theory.Server.Sweep

/-!
# Every Event

One lemma for each kind of event, put together: an event keeps the invariant,
in full when the connections it destroys have no key with a deadline, and the
deadlines it leaves are the ones it found or the one it set.

## Main definitions

* `dueIn`: The deadline of a key in a keyspace.
* `setsDue`: The deadline an event sets.
* `DestroysClean`: The connections an event destroys have no deadlines.

## Theorems

* `doRequest_moved`: Any command, where it returns.
* `serverStep_moved`: Any event, where it returns and destroys cleanly.
* `serverStep_left`, `serverStep_inv`, `inv_of_run`: Any event, and any run.
* `inv_init`: The initial state.
-/

namespace RedisServer

open Lib

/-- The deadline of a key. A key that is absent has none. -/
def dueIn (K : Keyspace) (c : Nat) (k : Bytes) : Option Nat := (K c k).bind Prod.snd

/-- The deadline of a key after an event, if the key is still there: the one it
    had, unless the event is a `pexpire` of that very key. -/
def setsDue (e : Event) (c : Nat) (k : Bytes) (d : Option Nat) : Option Nat :=
  match e with
  | .request c' cmd now =>
    if isCmd cmd 3 "pexpire" ∧ c = c' ∧ k = arg cmd 1 then
      match str2int (arg cmd 2) with
      | some ttlMs => dueAfter ttlMs now
      | none => d
    else d
  | _ => d

/-- Every key present after an event has the deadline the event leaves. -/
def DuesFollow (e : Event) (K K' : Keyspace) : Prop :=
  ∀ c k x d, K' c k = some (x, d) → d = setsDue e c k (dueIn K c k)

/-- The connections an event destroys have no key with a deadline. -/
def DestroysClean (g : GData) : Event → Prop
  | .close c => NoDeadlines g c
  | .sweep now => IdleNoDeadlines g now
  | _ => True

theorem inv_init (R : Runtime) : Inv R {} where
  db :=
    { wf := nofun
      distinct := fun _ => List.nodup_nil
      entry := fun c n hn => absurd hn List.not_mem_nil
      keys := fun c k e x e' x' h _ => by
        rcases h.stored with ⟨n, hn, _⟩
        exact absurd hn List.not_mem_nil
      fresh := fun _ _ => rfl }
  heap :=
    { indexed := indexed_nil
      owned := nofun
      orphan := fun e he => he.elim }
  loop :=
    { ring := ⟨[], idleRing_init, fun c => by
        simp only [List.not_mem_nil, reduceCtorEq, exists_false]⟩
      fresh := fun _ _ => rfl }

theorem views_init : Views {} fun _ _ => none := by
  intro c k x d
  constructor
  · intro h
    cases h
  · rintro ⟨e, he, _⟩
    rcases he.stored with ⟨n, hn, _⟩
    exact absurd hn List.not_mem_nil

section

variable {R : Runtime} {g g' : GData} {K K' : Keyspace} {P : Nat → Prop}

theorem dueIn_eq {c : Nat} {k : Bytes} {x : Entry} {d : Option Nat} (h : K c k = some (x, d)) :
    dueIn K c k = d := by
  rw [dueIn, h, Option.bind_some]

/-- An event that is no `pexpire` leaves deadlines alone. -/
theorem setsDue_eq {e : Event} (h : ∀ c cmd now, e = .request c cmd now → isCmd cmd 3 "pexpire" = false)
    (c : Nat) (k : Bytes) (d : Option Nat) : setsDue e c k d = d := by
  cases e with
  | request c' cmd now =>
      rw [setsDue, h c' cmd now rfl, if_neg]
      rintro ⟨hf, _⟩
      exact Bool.false_ne_true hf
  | accept => rfl
  | touch => rfl
  | close => rfl
  | sweep => rfl

/-- The keyspace changed at one key, and there to a value with the deadline the
    key had before. -/
theorem duesFollow_set {e : Event}
    (he : ∀ c cmd now, e = .request c cmd now → isCmd cmd 3 "pexpire" = false) {c : Nat} {k : Bytes}
    {v : Option (Entry × Option Nat)} (hv : ∀ x d, v = some (x, d) → d = dueIn K c k) :
    DuesFollow e K (K.set c k v) := by
  intro c' k' x d h
  rw [setsDue_eq he]
  by_cases hck : c' = c ∧ k' = k
  · rw [hck.1, hck.2, Keyspace.set_same] at h
    rw [hck.1, hck.2]
    exact hv x d h
  · rw [Keyspace.set_other K v hck] at h
    exact (dueIn_eq h).symm

theorem duesFollow_self {e : Event}
    (he : ∀ c cmd now, e = .request c cmd now → isCmd cmd 3 "pexpire" = false) :
    DuesFollow e K K := by
  intro c k x d h
  rw [setsDue_eq he, dueIn_eq h]

theorem duesFollow_setZset {e : Event}
    (he : ∀ c cmd now, e = .request c cmd now → isCmd cmd 3 "pexpire" = false) {c : Nat} {k : Bytes}
    (h : K.SetZset c k K') : DuesFollow e K K' := by
  rcases h with rfl | ⟨x, d, z, hx, _, rfl⟩
  · exact duesFollow_self he
  · refine duesFollow_set he fun y d' hy => ?_
    rw [Option.some.injEq, Prod.mk.injEq] at hy
    rw [← hy.2, dueIn_eq hx]

theorem duesFollow_of_sub {e : Event}
    (he : ∀ c cmd now, e = .request c cmd now → isCmd cmd 3 "pexpire" = false)
    (h : ∀ c k, K' c k = K c k ∨ K' c k = none) : DuesFollow e K K' := by
  intro c k x d hx
  rw [setsDue_eq he]
  rcases h c k with hk | hk
  · rw [hk] at hx
    exact (dueIn_eq hx).symm
  · rw [hk] at hx
    cases hx

/-- Where the command returns, it keeps the invariant, and every key has the
    deadline the event `e` leaves. -/
def Follows (R : Runtime) (g : GData) (K : Keyspace) (P : Nat → Prop) (e : Event)
    (r : Result (GData × Bytes)) : Prop :=
  ∀ ⦃g' out'⦄, r = .ok (g', out') → ∃ K', Moved R g g' K K' P ∧ DuesFollow e K K'

theorem Follows.of_ok {e : Event} {r : Result (GData × Bytes)} {out : Bytes} (h : r = .ok (g', out))
    (hm : Moved R g g' K K' P) (hd : DuesFollow e K K') : Follows R g K P e r := by
  intro g₁ out₁ hrun
  rw [h, Except.ok.injEq, Prod.mk.injEq] at hrun
  rw [← hrun.1]
  exact ⟨K', hm, hd⟩

theorem Follows.of_error {e : Event} {r : Result (GData × Bytes)} {f : Fault} (h : r = .error f) :
    Follows R g K P e r := by
  intro g₁ out₁ hrun
  rw [h] at hrun
  cases hrun

section

variable {c : Nat} {conn : Conn}

/-- `pexpire` sets the deadline of its key, if the key is there. -/
theorem doExpire_follows (hinv : Inv R g P) (hK : Views g K) (hc : g.conns c = some conn)
    {cmd : List Bytes} (hcmd : isCmd cmd 3 "pexpire" = true) (now : Nat) (out : Bytes) :
    Follows R g K P (.request c cmd now) (doExpire R g c cmd now out) := by
  cases harg : str2int (arg cmd 2) with
  | none =>
      have hrun : doExpire R g c cmd now out =
          .ok (g, outErr out errBadArg (ascii "expect int64")) := by
        simp only [doExpire, harg]
      refine Follows.of_ok hrun (Moved.refl hinv hK) fun c' k x d hx => ?_
      simp only [setsDue, harg, ite_self, dueIn_eq hx]
  | some ttlMs =>
      rcases doExpire_spec hinv hK hc cmd now out harg with ⟨g₁, hexp, hm⟩
      refine Follows.of_ok hexp hm fun c' k x d hx => ?_
      simp only [setsDue, harg, hcmd, true_and]
      by_cases hck : c' = c ∧ k = arg cmd 1
      · rw [if_pos hck]
        rw [hck.1, hck.2, Keyspace.set_same] at hx
        rcases Option.map_eq_some_iff.mp hx with ⟨v, _, hv⟩
        rw [Prod.mk.injEq] at hv
        exact hv.2.symm
      · rw [if_neg hck]
        rw [Keyspace.set_other K _ hck] at hx
        exact (dueIn_eq hx).symm

theorem doZadd_follows (hinv : Inv R g P) (hK : Views g K) (hc : g.conns c = some conn)
    {cmd : List Bytes} (now : Nat) (out : Bytes)
    (hother : ∀ c' cmd' now', Event.request c cmd now = .request c' cmd' now' →
      isCmd cmd' 3 "pexpire" = false) :
    Follows R g K P (.request c cmd now) (doZadd R g c cmd out) := by
  cases harg : str2dbl R (arg cmd 2) with
  | none =>
      have hrun : doZadd R g c cmd out = .ok (g, outErr out errBadArg (ascii "expect float")) := by
        simp only [doZadd, harg]
      exact Follows.of_ok hrun (Moved.refl hinv hK) (duesFollow_self hother)
  | some score =>
      rcases hv : zaddEntry R c (arg cmd 1) (K c (arg cmd 1)) with ⟨x, d⟩
      have hset : ∀ y, DuesFollow (.request c cmd now) K (K.set c (arg cmd 1) (some (y, d))) := by
        refine fun y => duesFollow_set hother fun y' d' hy => ?_
        rw [Option.some.injEq, Prod.mk.injEq] at hy
        rw [← hy.2]
        exact (congrArg Prod.snd hv).symm.trans (zaddEntry_snd R c _ _)
      rcases doZadd_spec hinv hK hc cmd out harg hv with
        ⟨_, g₁, hadd, hm⟩ | ⟨_, ⟨f, _, hadd⟩ | ⟨z, added, g₁, _, hadd, hm⟩⟩
      · exact Follows.of_ok hadd hm (hset _)
      · exact Follows.of_error hadd
      · exact Follows.of_ok hadd hm (hset _)

/-- Any command, where it returns, keeps the invariant, and every key has the
    deadline the command leaves. -/
theorem doRequest_moved (hinv : Inv R g P) (hK : Views g K) (hc : g.conns c = some conn)
    (cmd : List Bytes) (now : Nat) (out : Bytes) :
    Follows R g K P (.request c cmd now) (doRequest R g c cmd now out) := by
  by_cases hcmd : isCmd cmd 3 "pexpire" = true
  · rw [doRequest_expire hcmd]
    exact doExpire_follows hinv hK hc hcmd now out
  rw [Bool.not_eq_true] at hcmd
  have hother : ∀ c' cmd' now', Event.request c cmd now = .request c' cmd' now' →
      isCmd cmd' 3 "pexpire" = false := by
    intro c' cmd' now' heq
    rw [Event.request.injEq] at heq
    rw [← heq.2.1]
    exact hcmd
  have hsame : ∀ {g₁ out₁}, Moved R g g₁ K K P →
      Follows R g K P (.request c cmd now) (.ok (g₁, out₁)) :=
    fun hm => Follows.of_ok rfl hm (duesFollow_self hother)
  refine doRequest_elim ?get ?set ?del ?expire ?ttl ?keys ?zadd ?zrem ?zscore ?zquery
    (fun _ => hsame (Moved.refl hinv hK)) (hsame (Moved.refl hinv hK))
  case get =>
    intro _
    rcases doGet_spec hinv hK hc cmd out with ⟨g₁, hget, hm⟩
    rw [hget]
    exact hsame hm
  case set =>
    intro _
    rcases doSet_spec hinv hK hc cmd out with ⟨g₁, hset, hm⟩
    refine Follows.of_ok hset hm (duesFollow_set hother fun x d hx => ?_)
    exact (congrArg Prod.snd (Option.some.inj hx)).symm.trans (setValue_snd R c _ _ _)
  case del =>
    intro _
    rcases doDel_spec hinv hK hc cmd out with ⟨g₁, hdel, hm⟩ | ⟨f, x, d, hdel, _⟩
    · exact Follows.of_ok hdel hm (duesFollow_set hother fun x d hx => nomatch hx)
    · exact Follows.of_error hdel
  case expire =>
    intro h
    rw [hcmd] at h
    exact absurd h Bool.false_ne_true
  case ttl =>
    intro _
    rcases doTtl_spec hinv hK hc cmd now out with ⟨g₁, httl, hm⟩
    rw [httl]
    exact hsame hm
  case keys =>
    intro _
    rw [doKeys_spec hinv hc]
    exact hsame (Moved.refl hinv hK)
  case zadd => exact fun _ => doZadd_follows hinv hK hc now out hother
  -- The queries may fail, so their lemmas are about the runs that return.
  case zrem =>
    intro _ g₁ out₁ hrun
    rcases doZrem_spec hinv hK hc cmd out hrun with ⟨K', hm, hz⟩
    exact ⟨K', hm, duesFollow_setZset hother hz⟩
  case zscore =>
    intro _ g₁ out₁ hrun
    rcases doZscore_spec hinv hK hc cmd out hrun with ⟨K', hm, hz⟩
    exact ⟨K', hm, duesFollow_setZset hother hz⟩
  case zquery =>
    intro _ g₁ out₁ hrun
    exact ⟨K, doZquery_spec hinv hK hc cmd out hrun, duesFollow_self hother⟩

end

/-- Destroying a connection leaves the deadlines of the others. -/
theorem duesFollow_drop {e : Event}
    (he : ∀ c cmd now, e = .request c cmd now → isCmd cmd 3 "pexpire" = false) (c : Nat) :
    DuesFollow e K (K.drop c) := by
  refine duesFollow_of_sub he fun c' k => ?_
  rw [Keyspace.drop]
  by_cases hcc : c' = c
  · rw [if_pos hcc]
    exact Or.inr rfl
  · rw [if_neg hcc]
    exact Or.inl rfl

/-- The two loops of a sweep only remove keys. -/
theorem sub_of_swept {K₁ K₂ : Keyspace} {now : Nat} (hsub : ∀ c k, K₁ c k = K c k ∨ K₁ c k = none)
    (hrem : ∀ c k, K₂ c k = K₁ c k ∨
      (K₂ c k = none ∧ ∃ x d, K₁ c k = some (x, some d) ∧ d < now)) (c : Nat) (k : Bytes) :
    K₂ c k = K c k ∨ K₂ c k = none := by
  rcases hrem c k with h | ⟨h, _⟩
  · rw [h]
    exact hsub c k
  · exact Or.inr h

/-- Any event, where it returns and the connections it destroys have no
    deadlines, keeps the invariant. Every key present afterwards has the
    deadline the event leaves. -/
theorem serverStep_moved (hinv : Inv R g) (hK : Views g K) {e : Event} (he : DestroysClean g e)
    {r : Bytes} (hrun : serverStep R g e = .ok (g', r)) :
    ∃ K', Inv R g' ∧ Views g' K' ∧ DuesFollow e K K' := by
  cases e with
  | accept connfd now =>
      rcases handleAccept_spec hinv connfd now with ⟨g₁, hacc, hdata, hinv₁, _⟩
      simp only [serverStep, hacc, ok_bind, Except.ok.injEq, Prod.mk.injEq] at hrun
      rw [← hrun.1]
      exact ⟨K, hinv₁, hdata.views hK, duesFollow_self (fun _ _ _ h => by cases h)⟩
  | touch c now =>
      cases hc : g.conns c with
      | none =>
          simp only [serverStep, connTouch, GData.conn, hc, error_bind, reduceCtorEq] at hrun
      | some conn =>
          rcases connTouch_spec hinv hc now with ⟨g₁, htouch, hdata, hinv₁, _⟩
          simp only [serverStep, htouch, ok_bind, Except.ok.injEq, Prod.mk.injEq] at hrun
          rw [← hrun.1]
          exact ⟨K, hinv₁, hdata.views hK, duesFollow_self (fun _ _ _ h => by cases h)⟩
  | request c cmd now =>
      cases hc : g.conns c with
      | none =>
          simp only [serverStep, GData.conn, hc, error_bind, reduceCtorEq] at hrun
      | some conn =>
          simp only [serverStep, conn_eq hc, ok_bind] at hrun
          rcases doRequest_moved hinv hK hc cmd now [] hrun with ⟨K', hm, hd⟩
          exact ⟨K', hm.inv, hm.views, hd⟩
  | close c =>
      cases hc : g.conns c with
      | none =>
          simp only [serverStep, connDestroy, GData.conn, hc, error_bind, reduceCtorEq] at hrun
      | some conn =>
          rcases connDestroy_spec hinv hc he with ⟨g₁, hdes, hd, hinv₁⟩
          simp only [serverStep, hdes, ok_bind, Except.ok.injEq, Prod.mk.injEq] at hrun
          rw [← hrun.1]
          exact ⟨K.drop c, hinv₁, hd.views hK, duesFollow_drop (fun _ _ _ h => by cases h) c⟩
  | sweep now =>
      rcases hinv.loop.ring with ⟨l, hring, hmem⟩
      rcases idleLoop_spec now (g.nextConn + 1) hinv hring hmem
        (Nat.lt_succ_of_le (length_le_nextConn hinv.loop hring hmem)) he with
        ⟨g₁, hidle, hinv₁, hviews, _⟩
      simp only [serverStep, processTimers, hidle, ok_bind] at hrun
      rcases hviews K hK with ⟨K₁, hK₁, hsub⟩
      rcases ttlLoop_spec now (g₁.heap.length + 1) 0 hinv₁ (Nat.lt_succ_self _) with
        ⟨g₂, es, httl, hsw, _⟩ | ⟨f, _, httl, _⟩
      · simp only [httl, ok_bind, Except.ok.injEq, Prod.mk.injEq] at hrun
        rw [← hrun.1]
        rcases hsw.moved hinv₁ hK₁ with ⟨K₂, hm, hrem⟩
        exact ⟨K₂, hm.inv, hm.views,
          duesFollow_of_sub (fun _ _ _ h => by cases h) (sub_of_swept hsub hrem)⟩
      · simp only [httl, error_bind, reduceCtorEq] at hrun

/-- Any event, where it returns, keeps the invariant up to entries left behind
    in the heap. Every key present afterwards has the deadline the event
    leaves. -/
theorem serverStep_left (hinv : Inv R g P) (hK : Views g K) {e : Event} {r : Bytes}
    (hrun : serverStep R g e = .ok (g', r)) :
    ∃ P' K', Inv R g' P' ∧ Views g' K' ∧ DuesFollow e K K' := by
  cases e with
  | accept connfd now =>
      rcases handleAccept_spec hinv connfd now with ⟨g₁, hacc, hdata, hinv₁, _⟩
      simp only [serverStep, hacc, ok_bind, Except.ok.injEq, Prod.mk.injEq] at hrun
      rw [← hrun.1]
      exact ⟨P, K, hinv₁, hdata.views hK, duesFollow_self (fun _ _ _ h => by cases h)⟩
  | touch c now =>
      cases hc : g.conns c with
      | none =>
          simp only [serverStep, connTouch, GData.conn, hc, error_bind, reduceCtorEq] at hrun
      | some conn =>
          rcases connTouch_spec hinv hc now with ⟨g₁, htouch, hdata, hinv₁, _⟩
          simp only [serverStep, htouch, ok_bind, Except.ok.injEq, Prod.mk.injEq] at hrun
          rw [← hrun.1]
          exact ⟨P, K, hinv₁, hdata.views hK, duesFollow_self (fun _ _ _ h => by cases h)⟩
  | request c cmd now =>
      cases hc : g.conns c with
      | none =>
          simp only [serverStep, GData.conn, hc, error_bind, reduceCtorEq] at hrun
      | some conn =>
          simp only [serverStep, conn_eq hc, ok_bind] at hrun
          rcases doRequest_moved hinv hK hc cmd now [] hrun with ⟨K', hm, hd⟩
          exact ⟨P, K', hm.inv, hm.views, hd⟩
  | close c =>
      cases hc : g.conns c with
      | none =>
          simp only [serverStep, connDestroy, GData.conn, hc, error_bind, reduceCtorEq] at hrun
      | some conn =>
          rcases connDestroy_eq hinv.loop hc with ⟨g₁, hdes, hd⟩
          simp only [serverStep, hdes, ok_bind, Except.ok.injEq, Prod.mk.injEq] at hrun
          rw [← hrun.1]
          exact ⟨_, K.drop c, ⟨hd.dbInv hinv.db,
            hd.heapInv_left hinv.db hinv.heap (hinv.loop.lt_nextConn hc), hd.loopInv hinv.loop hc⟩,
            hd.views hK, duesFollow_drop (fun _ _ _ h => by cases h) c⟩
  | sweep now =>
      rcases hinv.loop.ring with ⟨l, hring, hmem⟩
      rcases idleLoop_ends now (g.nextConn + 1) hinv.loop hring hmem
        (Nat.lt_succ_of_le (length_le_nextConn hinv.loop hring hmem)) with ⟨g₁, hidle, hends⟩
      rcases hends.inv_left hinv with ⟨P₁, hinv₁⟩
      rcases hends.views hK with ⟨K₁, hK₁, hsub⟩
      simp only [serverStep, processTimers, hidle, ok_bind] at hrun
      rcases ttlLoop_cases now (g₁.heap.length + 1) 0 hinv₁ (Nat.lt_succ_self _) with
        ⟨g₂, es, httl, hsw, _⟩ | ⟨f, _, httl, _⟩ | ⟨_, httl⟩
      · simp only [httl, ok_bind, Except.ok.injEq, Prod.mk.injEq] at hrun
        rw [← hrun.1]
        rcases hsw.moved hinv₁ hK₁ with ⟨K₂, hm, hrem⟩
        exact ⟨P₁, K₂, hm.inv, hm.views,
          duesFollow_of_sub (fun _ _ _ h => by cases h) (sub_of_swept hsub hrem)⟩
      · simp only [httl, error_bind, reduceCtorEq] at hrun
      · simp only [httl, error_bind, reduceCtorEq] at hrun

theorem serverStep_inv (hinv : Inv R g P) {e : Event} {r : Bytes}
    (hrun : serverStep R g e = .ok (g', r)) : ∃ P', Inv R g' P' := by
  rcases exists_views hinv.db with ⟨K, hK⟩
  rcases serverStep_left hinv hK hrun with ⟨P', _, hinv', _⟩
  exact ⟨P', hinv'⟩

/-- Every state a run reaches satisfies the invariant, up to entries left
    behind in the heap. -/
theorem inv_of_run {es : List Event} {rs : List Bytes} {P₀ : Nat → Prop} (hinv : Inv R g P₀)
    (hrun : run (serverStep R) g es = .ok (g', rs)) : ∃ P', Inv R g' P' := by
  refine run_invariant (I := fun g => ∃ P', Inv R g P') (G := fun _ _ => True) ?_ ⟨P₀, hinv⟩
    (guarded_of_forall (fun _ _ _ => True.intro) g) hrun
  intro s e s' r h _ hstep
  rcases h with ⟨P, h⟩
  exact serverStep_inv h hstep

end

end RedisServer
