import RedisServer.Theory.Loop.History
import RedisServer.Theory.Loop.Trace
import RedisServer.Theory.Server.Refine
import RedisServer.Theory.Server.Responses

/-!
# Expired Keys

No command looks at the deadline of the key it reads, so a key whose deadline
has passed is there until a sweep removes it. A sweep removes every key that
is due, unless there are more than it may work on, and then every deadline
that is left is at or after the clock's reading in the sweep. A deadline that
is set later is later still, as long as the clock does not go back. So reads
reply as if the keys that were due at the last such sweep were absent. A key
that came due since then is still read.

## Main definitions

* `LoopEvent.time`: What the clock reads.
* `NoneBefore`: No key has a deadline before a time.
* `absentValue`, `Unseen`: The replies that tell of no key.

## Theorems

* `sweep_drained`: A sweep that does not stop at its limit.
* `loopStep_noneBefore`: No step sets a deadline in the past.
* `swept_keys_unseen`: Reads after a sweep.
* `expired_key_served`: A read before it.
-/

namespace RedisServer

open Lib BinaryTree ZSet

/-- What the clock reads during an event, where it is read. -/
def LoopEvent.time : LoopEvent → Option Nat
  | .event (.accept _ now) => some now
  | .event (.touch _ now) => some now
  | .event (.request _ _ now) => some now
  | .event (.sweep now) => some now
  | _ => none

/-- No key has a deadline before `s`. -/
def NoneBefore (K : Keyspace) (s : Nat) : Prop := ∀ c k x d, K c k = some (x, some d) → s ≤ d

/-- The reply to a read of a key that is absent. Bad arguments are found
    first. -/
def absentValue (R : Runtime) (cmd : List Bytes) : Value :=
  if isCmd cmd 2 "pttl" then .scalar (.int (-2))
  else if isCmd cmd 6 "zquery" then
    match str2dbl R (arg cmd 2), str2int (arg cmd 4), str2int (arg cmd 5) with
    | none, _, _ => .scalar (.err errBadArg (ascii "expect fp number"))
    | some _, some _, some _ => .arr []
    | some _, _, _ => .scalar (.err errBadArg (ascii "expect int"))
  else .scalar .nil

/-- The response to a read is one the keys of `K` give: `keys` lists them, and
    the other commands reply as they do to an absent key when theirs is not
    among them. -/
def Unseen (R : Runtime) (K : Keyspace) (c : Nat) (cmd : List Bytes) (frame : Bytes) : Prop :=
  if isCmd cmd 1 "keys" then
    ∃ l : List Bytes, l.Nodup ∧ (∀ k, k ∈ l ↔ (K c k).isSome = true) ∧
      frame = responseFrame (Value.arr (l.map Scalar.str)).sent.encode
  else K c (arg cmd 1) = none → frame = responseFrame (absentValue R cmd).sent.encode

section

variable {R : Runtime} {g g' : GData} {K K' : Keyspace} {P : Nat → Prop} {s : Nat}

/-! ## The sweep -/

theorem IdleEnds.heap {now : Nat} (h : IdleEnds now g g') : g'.heap = g.heap := by
  induction h with
  | refl g => rfl
  | step _ _ hd _ ih => rw [ih, hd.heap]

/-- A sweep that does not stop at its limit leaves no key that is due. -/
theorem sweep_drained (hinv : Inv R g P) (hcount : dueCount g s ≤ kMaxWorks + 1) {r : Bytes}
    (hrun : serverStep R g (.sweep s) = .ok (g', r)) (hK' : Views g' K') : NoneBefore K' s := by
  rcases hinv.loop.ring with ⟨l, hring, hmem⟩
  -- the idle loop leaves the heap as it is, so as many keys are due after it
  rcases idleLoop_ends s (g.nextConn + 1) hinv.loop hring hmem
    (Nat.lt_succ_of_le (length_le_nextConn hinv.loop hring hmem)) with ⟨g₁, hidle, hends⟩
  rcases hends.inv_left hinv with ⟨P₁, hinv₁⟩
  rcases exists_views hinv₁.db with ⟨K₁, hK₁⟩
  have hcount₁ : dueCount g₁ s ≤ kMaxWorks + 1 := by
    rw [dueCount, hends.heap]
    exact hcount
  simp only [serverStep, processTimers, hidle, ok_bind] at hrun
  rcases ttlLoop_cases s (g₁.heap.length + 1) 0 hinv₁ (Nat.lt_succ_self _) with
    ⟨g₂, es, httl, hsw, hend⟩ | ⟨f, _, httl, _⟩ | ⟨_, httl⟩
  · simp only [httl, ok_bind, Except.ok.injEq, Prod.mk.injEq] at hrun
    rw [hrun.1] at hsw hend
    rcases hend with hnone | hcap
    · exact hK'.not_due hnone
    · -- The limit was reached with the last key that was due.
      rcases hsw.moved hinv₁ hK₁ with ⟨K₂, hm, _⟩
      -- more than `kMaxWorks` entries went, and no more than that many were due
      have hleft := hsw.dueCount
      have hzero : dueCount g' s = 0 := by omega
      rw [dueCount, List.countP_eq_zero] at hzero
      refine hK'.not_due fun e d hd => ?_
      have hitem := hzero _ (hm.inv.heap.indexed.deadline_eq_some.mp hd)
      rw [decide_eq_true_eq] at hitem
      exact Nat.le_of_not_lt hitem
  · simp only [httl, error_bind, reduceCtorEq] at hrun
  · simp only [httl, error_bind, reduceCtorEq] at hrun

/-! ## The steps of the loop -/

/-- Any step of the loop keeps the invariant, up to entries left behind in the
    heap, and every key has the deadline the step leaves. -/
theorem loopStep_left (hinv : Inv R g P) (hK : Views g K) {e : LoopEvent} {r : Bytes}
    (hrun : loopStep R g e = .ok (g', r)) :
    ∃ P' K', Inv R g' P' ∧ Views g' K' ∧
      ((∃ e', e = .event e' ∧ DuesFollow e' K K') ∨ K' = K) := by
  cases e with
  | io c x =>
      rcases bind_eq_ok.mp hrun with ⟨conn, hconn, hrun⟩
      rw [Except.ok.injEq, Prod.mk.injEq] at hrun
      rw [← hrun.1]
      have hc := conns_of_conn hconn
      exact ⟨P, K, setIo_inv hinv hc rfl, (setIo_sameData (x := conn.withIo x) hinv hc rfl).views hK,
        Or.inr rfl⟩
  | event e =>
      -- every event but a request is a step of the server that cannot fault in a command
      have hother : serverStep R g e = .ok (g', r) → ∃ P' K', Inv R g' P' ∧ Views g' K' ∧
          ((∃ e', LoopEvent.event e = .event e' ∧ DuesFollow e' K K') ∨ K' = K) := by
        intro h
        rcases serverStep_left hinv hK h with ⟨P', K', hinv', hK', hd⟩
        exact ⟨P', K', hinv', hK', Or.inl ⟨e, rfl, hd⟩⟩
      cases e with
      | request c cmd now =>
          rcases bind_eq_ok.mp hrun with ⟨conn, hconn, hrun⟩
          rcases bind_eq_ok.mp hrun with ⟨⟨g₁, out⟩, hdo, hrun⟩
          rcases bind_eq_ok.mp hrun with ⟨_, _, hrun⟩
          rw [Except.ok.injEq, Prod.mk.injEq] at hrun
          rcases doRequest_moved hinv hK (conns_of_conn hconn) cmd now _ hdo with ⟨K', hm, hd⟩
          rw [← hrun.1]
          exact ⟨P, K', hm.inv, hm.views, Or.inl ⟨_, rfl, hd⟩⟩
      | accept connfd now => exact hother hrun
      | touch c now => exact hother hrun
      | close c => exact hother hrun
      | sweep now => exact hother hrun

/-- A step sets no deadline before what the clock reads. -/
theorem noneBefore_of_follow {e : Event} (h : NoneBefore K s) (hd : DuesFollow e K K')
    (hclock : ∀ c cmd now, e = .request c cmd now → s ≤ now ∧ now < 2 ^ 63) : NoneBefore K' s := by
  intro c k x d hx
  have hset := hd c k x _ hx
  -- a deadline that was there before is not before `s`
  have hkept : some d = dueIn K c k → s ≤ d := by
    intro hold
    rcases hv : K c k with _ | ⟨y, due⟩
    · rw [dueIn, hv] at hold
      exact absurd hold (by simp only [Option.bind_none, reduceCtorEq, not_false_eq_true])
    · rw [dueIn_eq hv] at hold
      rw [← hold] at hv
      exact h c k y d hv
  cases e with
  | request c' cmd now =>
      rw [setsDue] at hset
      split at hset
      · split at hset
        · rename_i ttlMs harg
          rcases hclock c' cmd now rfl with ⟨hs, hnow⟩
          -- a deadline that is set now is the clock plus a time that is not negative
          rw [dueAfter_eq hnow (str2int_range harg).2, deadlineFrom] at hset
          by_cases hneg : ttlMs < 0
          · rw [if_pos hneg] at hset
            cases hset
          · rw [if_neg hneg, Option.some.injEq] at hset
            omega
        · exact hkept hset
      · exact hkept hset
  | accept => exact hkept hset
  | touch => exact hkept hset
  | close => exact hkept hset
  | sweep => exact hkept hset

theorem loopStep_noneBefore (hinv : Inv R g P) (hK : Views g K) (h : NoneBefore K s)
    {e : LoopEvent} {r : Bytes} (hclock : ∀ now ∈ e.time, s ≤ now ∧ now < 2 ^ 63)
    (hrun : loopStep R g e = .ok (g', r)) :
    ∃ P' K', Inv R g' P' ∧ Views g' K' ∧ NoneBefore K' s := by
  rcases loopStep_left hinv hK hrun with ⟨P', K', hinv', hK', ⟨e', rfl, hd⟩ | rfl⟩
  · refine ⟨P', K', hinv', hK', noneBefore_of_follow h hd fun c cmd now he => ?_⟩
    rw [he] at hclock
    exact hclock now rfl
  · exact ⟨P', K', hinv', hK', h⟩

theorem loopStep_stores (h : StoresOk R (fun _ => True) g) {e : LoopEvent} {r : Bytes}
    (hrun : loopStep R g e = .ok (g', r)) : StoresOk R (fun _ => True) g' := by
  cases e with
  | io c x =>
      rcases bind_eq_ok.mp hrun with ⟨conn, _, hrun⟩
      rw [Except.ok.injEq, Prod.mk.injEq] at hrun
      rw [← hrun.1]
      exact h.congr ⟨rfl, rfl⟩
  | event e =>
      -- connections, timers and sweeps store no entry
      have hother : serverStep R g e = .ok (g', r) → StoresOk R (fun _ => True) g' :=
        serverStep_stores h True.intro fun _ _ _ _ _ => True.intro
      cases e with
      | request c cmd now =>
          rcases bind_eq_ok.mp hrun with ⟨conn, _, hrun⟩
          rcases bind_eq_ok.mp hrun with ⟨⟨g₁, out⟩, hdo, hrun⟩
          rcases bind_eq_ok.mp hrun with ⟨_, _, hrun⟩
          rw [Except.ok.injEq, Prod.mk.injEq] at hrun
          rw [← hrun.1]
          exact doRequest_stores h True.intro (fun _ => True.intro) hdo
      | accept connfd now => exact hother hrun
      | touch c now => exact hother hrun
      | close c => exact hother hrun
      | sweep now => exact hother hrun

/-- What every state after the sweep has in common: the server's invariant,
    and no deadline before `s`. -/
def Floored (R : Runtime) (s : Nat) (g : GData) : Prop :=
  (∃ P K, Inv R g P ∧ Views g K ∧ NoneBefore K s) ∧ StoresOk R (fun _ => True) g

theorem loopStep_floored (h : Floored R s g) {e : LoopEvent} {r : Bytes}
    (hclock : ∀ now ∈ e.time, s ≤ now ∧ now < 2 ^ 63) (hrun : loopStep R g e = .ok (g', r)) :
    Floored R s g' := by
  rcases h with ⟨⟨P, K, hinv, hK, hnone⟩, hs⟩
  exact ⟨(loopStep_noneBefore hinv hK hnone hclock hrun).imp fun _ => .imp fun _ h => h,
    loopStep_stores hs hrun⟩

theorem floored_of_run {es : List LoopEvent} {rs : List Bytes} (h : Floored R s g)
    (hclock : ∀ e ∈ es, ∀ now ∈ e.time, s ≤ now ∧ now < 2 ^ 63)
    (hrun : run (loopStep R) g es = .ok (g', rs)) : Floored R s g' := by
  refine run_invariant (I := Floored R s) (G := fun _ e => ∀ now ∈ e.time, s ≤ now ∧ now < 2 ^ 63)
    (fun _ _ _ _ h hclock hstep => loopStep_floored h hclock hstep) h
    (guarded_of_forall (fun e he _ => hclock e he) g) hrun

/-- Every run keeps the invariant. -/
theorem inv_of_loop {es : List LoopEvent} {rs : List Bytes}
    (hrun : run (loopStep R) {} es = .ok (g, rs)) :
    (∃ P, Inv R g P) ∧ StoresOk R (fun _ => True) g := by
  refine run_invariant (I := fun g => (∃ P, Inv R g P) ∧ StoresOk R (fun _ => True) g)
    (G := fun _ _ => True) ?_ ⟨⟨_, inv_init R⟩, storesOk_init R _⟩
    (guarded_of_forall (fun _ _ _ => True.intro) _) hrun
  rintro g e g' r ⟨⟨P, hinv⟩, hs⟩ _ hstep
  rcases exists_views hinv.db with ⟨K, hK⟩
  rcases loopStep_left hinv hK hstep with ⟨P', _, hinv', _⟩
  exact ⟨⟨P', hinv'⟩, loopStep_stores hs hstep⟩

/-! ## Reads -/

/-- A `zquery` of the empty set finds nothing. -/
theorem pageFrom_empty {α : Type} {start : Option Nat} (h : ∀ i ∈ start, i < ([] : List α).length)
    (offset limit : Int) : pageFrom ([] : List α) start offset limit = [] := by
  cases start with
  | none => rfl
  | some i => exact absurd (h i rfl) (Nat.not_lt_zero i)

/-- An absent key has the empty set. -/
theorem counted_of_absent {v : Option (Entry × Option Nat)} (hv : v = none) (z : ZSet)
    (hz : setAt v = some z) : ∃ t, z.Sound R t ∧ Counted t := by
  rw [hv, setAt, Option.some.injEq] at hz
  rw [← hz]
  exact ⟨nil, sound_empty R, True.intro⟩

theorem sound_of_absent {v : Option (Entry × Option Nat)} (hv : v = none) (z : ZSet)
    (hz : setAt v = some z) : ∃ t, z.Sound R t :=
  (counted_of_absent hv z hz).imp fun _ h => h.1

theorem doZscore_absent (hinv : Inv R g P) (hK : Views g K) (hs : StoresOk R (fun _ => True) g)
    {c : Nat} {conn : Conn} (hc : g.conns c = some conn) (cmd : List Bytes)
    (hnone : K c (arg cmd 1) = none) (out : Bytes) :
    ∃ g', doZscore R g c cmd out = .ok (g', outNil out) := by
  have hempty : setAt (K c (arg cmd 1)) = some {} := by
    rw [hnone, setAt]
  rcases doZscore_total hinv hK hs hc cmd out (sound_of_absent hnone) with
    ⟨hno, _⟩ | ⟨z, m, r, g', hz, hr, hrun, _⟩
  · rw [hno] at hempty
    cases hempty
  · rw [hempty, Option.some.injEq] at hz
    cases r with
    | none => exact ⟨g', hrun⟩
    | some a =>
        rcases (hr a).mp rfl with ⟨d, hd, _⟩
        rw [← hz] at hd
        cases hd

theorem doZquery_absent (hinv : Inv R g P) (hK : Views g K) (hs : StoresOk R (fun _ => True) g)
    {c : Nat} {conn : Conn} (hc : g.conns c = some conn) {cmd : List Bytes}
    (hnone : K c (arg cmd 1) = none) (out : Bytes) {score : Double} {offset limit : Int}
    (hscore : str2dbl R (arg cmd 2) = some score) (hoff : str2int (arg cmd 4) = some offset)
    (hlim : str2int (arg cmd 5) = some limit) :
    ∃ g', doZquery R g c cmd out = .ok (g', outArr out 0) := by
  have hempty : setAt (K c (arg cmd 1)) = some {} := by
    rw [hnone, setAt]
  rcases doZquery_total hinv hK hs hc cmd out hscore hoff hlim (counted_of_absent hnone) with
    ⟨g', _, ⟨hno, _⟩ | ⟨z, t, hz, ht, ⟨_, hrun⟩ | ⟨_, start, _, hlt, hrun⟩⟩⟩
  · rw [hno] at hempty
    cases hempty
  · exact ⟨g', hrun⟩
  · rw [hempty, Option.some.injEq] at hz
    have hnil : vals t = [] := by
      have hptr := ht.root
      rw [← hz] at hptr
      rw [ptr_eq_none.mp hptr.symm, vals_nil]
    rw [hnil] at hlt hrun
    rw [pageFrom_empty hlt] at hrun
    exact ⟨g', hrun⟩

/-- A read of an absent key. -/
theorem doRequest_absent (hinv : Inv R g P) (hK : Views g K) (hs : StoresOk R (fun _ => True) g)
    {c : Nat} {conn : Conn} (hc : g.conns c = some conn) {cmd : List Bytes} (hread : ReadOnly cmd)
    (hkeys : ¬ isCmd cmd 1 "keys" = true) (hnone : K c (arg cmd 1) = none) (now : Nat)
    (out : Bytes) :
    ∃ g', doRequest R g c cmd now out = .ok (g', out ++ (absentValue R cmd).encode) := by
  -- one case per command, in the order the server tries them
  rcases hread with h | h | h | h | h
  · rcases doGet_spec hinv hK hc cmd out with ⟨g', hrun, _⟩
    refine ⟨g', ?_⟩
    rw [hnone, getReply, outNil_eq] at hrun
    rw [doRequest_get h, hrun, absentValue, if_neg (isCmd_other h _ _ (by decide)),
      if_neg (isCmd_other h _ _ (by decide))]
    rfl
  · rcases doTtl_spec hinv hK hc cmd now out with ⟨g', hrun, _⟩
    refine ⟨g', ?_⟩
    rw [hnone, ttlReply, outInt_eq] at hrun
    rw [doRequest_ttl h, hrun, absentValue, if_pos h]
    rfl
  · exact absurd h hkeys
  · rcases doZscore_absent hinv hK hs hc cmd hnone out with ⟨g', hrun⟩
    refine ⟨g', ?_⟩
    rw [outNil_eq] at hrun
    rw [doRequest_zscore h, hrun, absentValue, if_neg (isCmd_other h _ _ (by decide)),
      if_neg (isCmd_other h _ _ (by decide))]
    rfl
  · rw [doRequest_zquery h, absentValue, if_neg (isCmd_other h _ _ (by decide)), if_pos h]
    -- an argument that does not parse is answered before the key is looked up
    cases hscore : str2dbl R (arg cmd 2) with
    | none =>
        refine ⟨g, ?_⟩
        simp only [doZquery, hscore]
        exact congrArg (fun o => Except.ok (g, o)) (outErr_eq out _ _)
    | some score =>
        cases hoff : str2int (arg cmd 4) with
        | none =>
            refine ⟨g, ?_⟩
            simp only [doZquery, hscore, hoff]
            exact congrArg (fun o => Except.ok (g, o)) (outErr_eq out _ _)
        | some offset =>
            cases hlim : str2int (arg cmd 5) with
            | none =>
                refine ⟨g, ?_⟩
                simp only [doZquery, hscore, hoff, hlim]
                exact congrArg (fun o => Except.ok (g, o)) (outErr_eq out _ _)
            | some limit =>
                rcases doZquery_absent hinv hK hs hc hnone out hscore hoff hlim with ⟨g', hrun⟩
                refine ⟨g', ?_⟩
                rw [hrun, outArr_eq, Value.encode, encodeAll, List.flatMap_nil, List.append_nil]
                rfl

theorem expire_eq_self (h : NoneBefore K s) : K.expire s = K := by
  funext c k
  rw [Keyspace.expire]
  rcases hv : K c k with _ | ⟨x, _ | d⟩
  · rfl
  · rfl
  · rw [Option.filter_some, Option.all_some, if_pos (decide_eq_true (h c k x d hv))]

/-- A read replies as the keys that are there tell it to. -/
theorem unseen_of_read (hinv : Inv R g P) (hK : Views g K) (hs : StoresOk R (fun _ => True) g)
    {c : Nat} {conn : Conn} (hc : g.conns c = some conn) {cmd : List Bytes} (hread : ReadOnly cmd)
    {now : Nat} {frame : Bytes} (hresp : respond R g c cmd now = .ok (g', frame)) :
    Unseen R K c cmd frame := by
  rw [Unseen]
  by_cases hkeys : isCmd cmd 1 "keys" = true
  · rw [if_pos hkeys]
    have hrun := doKeys_spec hinv hc (responseBegin []).1
    rw [outKeys_value] at hrun
    rw [respond_of_value ((doRequest_keys hkeys).trans hrun), Except.ok.injEq, Prod.mk.injEq] at hresp
    exact ⟨keysOf g c, keysOf_nodup hinv.db c, fun k => mem_keysOf_iff hinv.db hK, hresp.2.symm⟩
  · rw [if_neg hkeys]
    intro hnone
    rcases doRequest_absent hinv hK hs hc hread hkeys hnone now (responseBegin []).1 with
      ⟨g₁, hrun⟩
    rw [respond_of_value hrun, Except.ok.injEq, Prod.mk.injEq] at hresp
    exact hresp.2.symm

/-- After a sweep at `s` that found no more keys due than it may remove, and
    whatever follows it, no key has a deadline before `s`, and a read replies
    as if the keys with one were absent. -/
theorem swept_keys_unseen (R : Runtime) (before after : List LoopEvent) (s : Nat) (g₀ g : GData)
    (rs₀ rs : List Bytes) (hbefore : run (loopStep R) {} before = .ok (g₀, rs₀))
    (hdue : dueCount g₀ s ≤ kMaxWorks + 1)
    (hafter : run (loopStep R) g₀ (.event (.sweep s) :: after) = .ok (g, rs))
    (hclock : ∀ e ∈ after, ∀ now ∈ e.time, s ≤ now ∧ now < 2 ^ 63) (c now : Nat) (cmd : List Bytes)
    (g' : GData) (frame : Bytes) (hread : ReadOnly cmd)
    (hreq : loopStep R g (.event (.request c cmd now)) = .ok (g', frame)) :
    (∀ c k e x d, Holds g c k e x → due g e = some d → s ≤ d) ∧
      ∀ K, Views g K → Unseen R (K.expire s) c cmd frame := by
  rcases inv_of_loop hbefore with ⟨⟨P₀, hinv₀⟩, hs₀⟩
  rcases run_cons_eq_ok hafter with ⟨g₁, r, rs', hsweep, hrest, _⟩
  rcases serverStep_inv (e := .sweep s) hinv₀ hsweep with ⟨P₁, hinv₁⟩
  rcases exists_views hinv₁.db with ⟨K₁, hK₁⟩
  have hfloor : Floored R s g₁ :=
    ⟨⟨P₁, K₁, hinv₁, hK₁, sweep_drained hinv₀ hdue hsweep hK₁⟩, loopStep_stores hs₀ hsweep⟩
  rcases floored_of_run hfloor hclock hrest with ⟨⟨P, K, hinv, hK, hnone⟩, hs⟩
  refine ⟨fun c k e x d he hd => hnone c k x d ?_, fun K' hK' => ?_⟩
  · rw [hK.eq_some he, hd]
  · rw [hK'.unique hK, expire_eq_self hnone]
    rcases bind_eq_ok.mp hreq with ⟨conn, hconn, hresp⟩
    exact unseen_of_read hinv hK hs (conns_of_conn hconn) hread hresp

/-- A key with the deadline 11. -/
def keyTillEleven : List LoopEvent :=
  [.event (.accept 5 0), .event (.request 0 [ascii "set", ascii "k", ascii "v"] 1),
    .event (.request 0 [ascii "pexpire", ascii "k", ascii "10"] 1)]

theorem keyTillEleven_run : endsIn (loopStep noDoubles) (fun g₀ _ =>
    decide (dueCount g₀ 50 ≤ kMaxWorks + 1) && endsIn (loopStep noDoubles) (fun g _ =>
      (loopStep noDoubles g (.event (.request 0 [ascii "get", ascii "k"] 60))).isOk)
      g₀ [.event (.sweep 50)]) {} keyTillEleven = true := by decide

theorem swept_keys_unseen_get :
    ∃ g g' frame, loopStep noDoubles g (.event (.request 0 [ascii "get", ascii "k"] 60)) =
        .ok (g', frame) ∧ ∀ K, Views g K → (K.expire 50) 0 (ascii "k") = none →
      frame = responseFrame (outNil []) := by
  rcases exists_of_endsIn keyTillEleven_run with ⟨g₀, rs₀, hbefore, htest⟩
  rw [Bool.and_eq_true, decide_eq_true_eq] at htest
  rcases exists_of_endsIn htest.2 with ⟨g, rs, hafter, hok⟩
  cases hreq : loopStep noDoubles g (.event (.request 0 [ascii "get", ascii "k"] 60)) with
  | error f =>
      rw [hreq] at hok
      exact absurd hok Bool.false_ne_true
  | ok x =>
      have h := swept_keys_unseen noDoubles keyTillEleven [] 50 g₀ g rs₀ rs hbefore htest.1 hafter
        (fun e he => absurd he List.not_mem_nil) 0 60 [ascii "get", ascii "k"] x.1 x.2
        (Or.inl (by decide)) hreq
      exact ⟨g, x.1, x.2, hreq, fun K hK => (h.2 K hK)⟩

/-! ## A key that is due -/

/-- Bytes that arrive, at a time at which all of them are handled. -/
def readAt (now : Nat) (bytes : Bytes) : Ready where
  pollIn := true
  now := now
  read := .data bytes
  clock := fun _ => now

/-- The frames of a `set` and a `pexpire`. -/
def setAndExpireFrames : Bytes :=
  responseFrame (requestBody [ascii "set", ascii "k", ascii "v"]) ++
    responseFrame (requestBody [ascii "pexpire", ascii "k", ascii "10"])

/-- A client sets a key and gives it ten milliseconds at the time 1, and takes
    the response. -/
def setThenExpire : List PollResult :=
  [.woke { accept := some (5, 0), now := 0 },
    .woke { ready := [some (readAt 1 setAndExpireFrames)], now := 2 },
    .woke { ready := [some { pollOut := true, now := 3, writes := [.wrote 13] }], now := 4 }]

/-- The frame of a `get`. -/
def getFrame : Bytes := responseFrame (requestBody [ascii "get", ascii "k"])

/-- The next request arrives at the time 50, and wakes the loop. -/
def askAtFifty : Wake where
  before := 5
  ready := [some (readAt 50 getFrame)]
  now := 51

/-- The key is in the table of the connection, with its deadline. -/
def holdsTillEleven (g : GData) : Bool :=
  (nodesOf g 0).any (fun n => n.payload == 0) &&
    (g.entries 0).any (fun x => x.key == ascii "k") && due g 0 == some 11

/-- One response goes out, and it is the value. -/
def servedAtFifty (g : GData) : Bool :=
  match iteration noDoubles g (.woke askAtFifty) with
  | .ok (_, [turn]) => decide (turn.served =
      [⟨[ascii "get", ascii "k"], 50, responseFrame (outStr [] (ascii "v"))⟩])
  | _ => false

theorem expired_key_served :
    ∃ g logs x g' turn, run (iteration noDoubles) {} setThenExpire = .ok (g, logs) ∧
      Holds g 0 (ascii "k") 0 x ∧ due g 0 = some 11 ∧
      iteration noDoubles g (.woke askAtFifty) = .ok (g', [turn]) ∧
      turn.served = [⟨[ascii "get", ascii "k"], 50, responseFrame (outStr [] (ascii "v"))⟩] := by
  have hends : endsIn (iteration noDoubles) (fun g _ => holdsTillEleven g && servedAtFifty g) {}
      setThenExpire = true := by
    decide
  rcases exists_of_endsIn hends with ⟨g, logs, hrun, htest⟩
  rw [Bool.and_eq_true, holdsTillEleven, Bool.and_eq_true, Bool.and_eq_true, List.any_eq_true,
    Option.any_eq_true] at htest
  rcases htest with ⟨⟨⟨⟨n, hn, hne⟩, x, hx, hkey⟩, hdue⟩, hserved⟩
  rw [beq_iff_eq] at hne hkey hdue
  rw [servedAtFifty] at hserved
  split at hserved
  · rename_i g' turn hiter
    exact ⟨g, logs, x, g', turn, hrun, ⟨⟨n, hn, hne⟩, hx, hkey⟩, hdue, hiter,
      of_decide_eq_true hserved⟩
  · exact absurd hserved Bool.false_ne_true

end

end RedisServer
