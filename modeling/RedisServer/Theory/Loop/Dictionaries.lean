import RedisServer.Theory.Loop.Expired
import RedisServer.Theory.Server.Dictionary
import RedisServer.Theory.Server.SetReference

/-!
# Every Client Has Its Dictionary

The server, whatever its clients do, against one dictionary for each of them.
A request reads and changes the dictionary of its own connection, a sweep
removes what has expired from all of them, and nothing else touches any. The
frames the server answers with are those of the reference model's replies.

What a run must not do is said in two places. `Orderly` is about the server's
state: a connection goes only when none of its keys has a deadline, a sweep
stays below its limit, and a query is of a set with right counts. The guard of
`dictSpec` is about the dictionaries alone: the clock has not run out of its
range, and no `zrem` removes the last member of a set.

## Main definitions

* `Dicts`: The state stands for these dictionaries.
* `Orderly`: The condition of a step.
* `dictSpec`: The reference model as a specification.

## Theorems

* `loopStep_simulates`: One step.
* `dictionaries_of_run`: Every run.
-/

namespace RedisServer

open Lib BinaryTree

/-- The state stands for these dictionaries, one for each connection. A
    connection that is still to come has an empty one. -/
structure Dicts (R : Runtime) (g : GData) (m : Nat → Dict) : Prop where
  inv : Inv R g
  stores : StoresOk R (fun _ => True) g
  views : ∃ K, Views g K ∧ ∀ c, Live g c → ∀ k, Stands R (K c k) (m c k)
  fresh : ∀ c, g.nextConn ≤ c → m c = fun _ => none

/-- Steps are of connections that are there, and those that go have no
    deadlines. A sweep stays below its limit, and a query is of a set with
    right counts. -/
def Orderly (g : GData) : LoopEvent → Prop
  | .event (.accept _ _) => True
  | .event (.touch c _) => Live g c
  | .event (.request c cmd _) => Live g c ∧ CountsFit g c (command cmd)
  | .event (.close c) => Live g c ∧ NoDeadlines g c
  | .event (.sweep now) => IdleNoDeadlines g now ∧ dueCount g now ≤ kMaxWorks
  | .io c _ => Live g c

/-- The dictionaries as a specification. The dictionary of a connection that is
    gone is not looked at any more. -/
def dictSpec (R : Runtime) : Spec (Nat → Dict) LoopEvent Bytes where
  guard m
    | .event (.request c cmd now) => now < 2 ^ 63 ∧ KeepsMember (m c) (command cmd)
    | _ => True
  next m
    | .event (.request c cmd now) => Function.update m c ((command cmd).next R now (m c))
    | .event (.sweep now) => fun c => (m c).expire now
    | _ => m
  reply m
    | .event (.request c cmd now), r =>
      ∃ v, (command cmd).reply R now (m c) v ∧ r = responseFrame v.sent.encode
    | _, r => r = []

section

variable {R : Runtime} {g g' : GData} {K : Keyspace} {m : Nat → Dict} {c : Nat}

theorem dicts_init (R : Runtime) : Dicts R {} fun _ _ => none where
  inv := inv_init R
  stores := storesOk_init R _
  views := ⟨fun _ _ => none, views_init, fun _ _ _ => .absent⟩
  fresh := fun _ _ => rfl

namespace Dicts

/-- Nothing that a client can tell changed, and no connection came. -/
theorem sameData (h : Dicts R g m) (hdata : SameData g g') (hinv : Inv R g')
    (hs : StoresOk R (fun _ => True) g') (hlive : ∀ c, Live g' c → Live g c)
    (hnext : g.nextConn ≤ g'.nextConn) : Dicts R g' m := by
  rcases h.views with ⟨K, hK, hst⟩
  exact ⟨hinv, hs, ⟨K, hdata.views hK, fun c hc => hst c (hlive c hc)⟩,
    fun c hc => h.fresh c (Nat.le_trans hnext hc)⟩

/-- A connection that is not there yet has no keys. -/
theorem absent (h : Dicts R g m) (hK : Views g K) (hc : g.nextConn ≤ c) (k : Bytes) :
    K c k = none := by
  refine hK.eq_none fun e x he => ?_
  rcases conns_of_stored he.stored with ⟨conn, hconn⟩
  rw [h.inv.loop.fresh c hc] at hconn
  cases hconn

/-- A request. -/
theorem request (h : Dicts R g m) {cmd : List Bytes} {now : Nat} (hlive : Live g c)
    (hfit : CountsFit g c (command cmd)) (hnow : now < 2 ^ 63)
    (hkeeps : KeepsMember (m c) (command cmd)) :
    ∃ g' v, respond R g c cmd now = .ok (g', responseFrame v.sent.encode) ∧
      (command cmd).reply R now (m c) v ∧
      (StoresOk R (fun _ => True) g' →
        Dicts R g' (Function.update m c ((command cmd).next R now (m c)))) := by
  rcases h.views with ⟨K, hK, hst⟩
  rcases hlive with ⟨conn, hc⟩
  rcases doRequest_obeys h.inv hK h.stores hc (hst c ⟨conn, hc⟩) cmd hnow (responseBegin []).1
    hkeeps hfit with ⟨g', v, K', hrun, hm, hreply, hself, hother⟩
  refine ⟨g', v, respond_of_value hrun, hreply, fun hs => ⟨hm.inv, hs, ⟨K', hm.views, ?_⟩, ?_⟩⟩
  · intro c' hc' k
    by_cases hcc : c' = c
    · rw [hcc, Function.update_self]
      exact hself k
    · rw [Function.update_of_ne hcc, hother c' hcc]
      exact hst c' ((hm.same.live c').mp hc') k
  · intro c' hc'
    rw [hm.same.nextConn] at hc'
    have hne : c' ≠ c := by
      rintro rfl
      rw [h.inv.loop.fresh c' hc'] at hc
      cases hc
    rw [Function.update_of_ne hne]
    exact h.fresh c' hc'

/-- A new connection. -/
theorem accept (h : Dicts R g m) (connfd : Int) (now : Nat) :
    ∃ g', handleAccept g connfd now = .ok g' ∧ (StoresOk R (fun _ => True) g' → Dicts R g' m) := by
  rcases handleAccept_spec h.inv connfd now with ⟨g', hrun, hdata, hinv, hconns⟩
  refine ⟨g', hrun, fun hs => ?_⟩
  by_cases hneg : connfd < 0
  · rw [handleAccept_none hrun hneg]
    exact h
  · rcases handleAccept_eq hrun (Int.not_lt.mp hneg) with ⟨idle, _, heq⟩
    have hnext : g'.nextConn = g.nextConn + 1 := by rw [heq]
    rcases h.views with ⟨K, hK, hst⟩
    refine ⟨hinv, hs, ⟨K, hdata.views hK, fun c hc k => ?_⟩, fun c hc => h.fresh c (by omega)⟩
    by_cases hnew : c = g.nextConn
    · rw [h.absent hK (Nat.le_of_eq hnew.symm) k, h.fresh c (Nat.le_of_eq hnew.symm)]
      exact .absent
    · rcases hc with ⟨conn, hc⟩
      rw [hconns, if_neg hneg, Function.update_of_ne hnew] at hc
      exact hst c ⟨conn, hc⟩ k

/-- A connection that goes. -/
theorem destroyed (h : Dicts R g m) (hd : Destroyed g g' c) (hinv : Inv R g')
    (hs : StoresOk R (fun _ => True) g') : Dicts R g' m := by
  rcases h.views with ⟨K, hK, hst⟩
  refine ⟨hinv, hs, ⟨K.drop c, hd.views hK, fun c' hc' k => ?_⟩, fun c' hc' => ?_⟩
  · rcases hc' with ⟨conn, hc'⟩
    by_cases hcc : c' = c
    · rw [hcc, hd.conns_self] at hc'
      cases hc'
    · rw [hd.conns_other hcc] at hc'
      rw [Keyspace.drop, if_neg hcc]
      exact hst c' ⟨conn, hc'⟩ k
  · rw [hd.nextConn] at hc'
    exact h.fresh c' hc'

/-- The first part of a sweep. -/
theorem idleEnds {now : Nat} (hends : IdleEnds now g g') (h : Dicts R g m)
    (hno : IdleNoDeadlines g now) : Dicts R g' m ∧ dueCount g' now = dueCount g now := by
  induction hends with
  | refl g => exact ⟨h, rfl⟩
  | step hc hidle hd _ ih =>
      rename_i g₁ _ _ _ _
      have hinv : Inv R g₁ := ⟨hd.dbInv h.inv.db, hd.heapInv h.inv.heap (hno _ _ hc hidle),
        hd.loopInv h.inv.loop hc⟩
      have h₁ := h.destroyed hd hinv (h.stores.congr ⟨hd.entries, hd.emptyZset⟩)
      -- those that are still to go have no deadlines either
      have hno₁ : IdleNoDeadlines g₁ now := by
        intro c' y hy hidle' e he
        have hs := (hd.stored c' e).mp he
        rw [hd.conns_other hs.1] at hy
        rw [hd.heapIdx]
        exact hno c' y hy hidle' e hs.2
      rcases ih h₁ hno₁ with ⟨h', hcount⟩
      refine ⟨h', hcount.trans ?_⟩
      rw [dueCount, dueCount, hd.heap]

/-- A sweep. A set that stands for a map can be freed, so it does not fail. -/
theorem sweep (h : Dicts R g m) {now : Nat} (hno : IdleNoDeadlines g now)
    (hcap : dueCount g now ≤ kMaxWorks) :
    ∃ g', processTimers g now = .ok g' ∧
      (StoresOk R (fun _ => True) g' → Dicts R g' fun c => (m c).expire now) := by
  rcases h.inv.loop.ring with ⟨l, hring, hmem⟩
  rcases idleLoop_ends now (g.nextConn + 1) h.inv.loop hring hmem
    (Nat.lt_succ_of_le (length_le_nextConn h.inv.loop hring hmem)) with ⟨g₁, hidle, hends⟩
  rcases idleEnds hends h hno with ⟨h₁, hcount⟩
  rcases h₁.views with ⟨K, hK, hst⟩
  simp only [processTimers, hidle, ok_bind]
  rcases ttlLoop_expire h₁.inv hK (hcount.trans_le hcap) with
    ⟨g', es, hrun, _, hm⟩ | ⟨f, x, _, ht, hclear, c, k, d, hx, _⟩
  · refine ⟨g', hrun, fun hs => ⟨hm.inv, hs, ⟨_, hm.views, fun c hc k => ?_⟩, fun c hc => ?_⟩⟩
    · exact (hst c ((hm.same.live c).mp hc) k).expire now
    · rw [hm.same.nextConn] at hc
      rw [h₁.fresh c hc]
      rfl
  · rcases (hK c k x (some d)).mp hx with ⟨e, he, _⟩
    have hset : setAt (K c k) = some x.zset := by
      rw [hx, setAt, if_pos ht]
    rcases (hst c (conns_of_stored he.stored) k).sound hset with ⟨t, hsound⟩
    rcases zsetClear_spec hsound.treeOf with ⟨z', hrun, _⟩
    rw [hclear] at hrun
    cases hrun

end Dicts

/-- A step whose stores are those of a run. -/
theorem matched_step {e : LoopEvent} {r : Bytes} {m' : Nat → Dict} (h : Dicts R g m)
    (hrun : loopStep R g e = .ok (g', r)) (hreply : (dictSpec R).reply m e r)
    (hnext : StoresOk R (fun _ => True) g' → Dicts R g' m') (heq : (dictSpec R).next m e = m') :
    ∃ g' r, loopStep R g e = .ok (g', r) ∧ (dictSpec R).reply m e r ∧
      Dicts R g' ((dictSpec R).next m e) := by
  rw [heq]
  exact ⟨g', r, hrun, hreply, hnext (loopStep_stores h.stores hrun)⟩

/-- A step of the server is matched by the dictionaries. -/
theorem loopStep_simulates (R : Runtime) :
    Simulates (loopStep R) Orderly (dictSpec R) (Dicts R) := by
  intro g m e h hG hguard
  cases e with
  | io c x =>
      rcases hG with ⟨conn, hc⟩
      have hdb : (conn.withIo x).db = conn.db := rfl
      have hrun : loopStep R g (.io c x) = .ok (g.setConn c (conn.withIo x), []) := by
        simp only [loopStep, conn_eq hc, ok_bind]
      refine matched_step h hrun rfl (fun hs => ?_) rfl
      exact h.sameData (setIo_sameData h.inv hc hdb) (setIo_inv h.inv hc hdb) hs
        (fun c' => (setConn_live hc _ c').mp) (Nat.le_refl _)
  | event e =>
      cases e with
      | accept connfd now =>
          rcases h.accept connfd now with ⟨g', hrun, hd⟩
          refine matched_step h ?_ rfl hd rfl
          simp only [loopStep, serverStep, hrun, ok_bind]
      | touch c now =>
          rcases hG with ⟨conn, hc⟩
          rcases connTouch_spec h.inv hc now with ⟨g', hrun, hdata, hinv, hconns⟩
          rcases connTouch_eq hrun with ⟨_, _, _, _, _, _, heq⟩
          have hnext : g'.nextConn = g.nextConn := by rw [heq]; rfl
          have hstep : loopStep R g (.event (.touch c now)) = .ok (g', []) := by
            simp only [loopStep, serverStep, hrun, ok_bind]
          refine matched_step h hstep rfl (fun hs => ?_) rfl
          refine h.sameData hdata hinv hs (fun c' hc' => ?_) (Nat.le_of_eq hnext.symm)
          rcases hc' with ⟨x, hx⟩
          rw [hconns, Function.update_apply] at hx
          by_cases hcc : c' = c
          · exact ⟨conn, hcc ▸ hc⟩
          · rw [if_neg hcc] at hx
            exact ⟨x, hx⟩
      | request c cmd now =>
          rcases h.request hG.1 hG.2 hguard.1 hguard.2 with ⟨g', v, hrun, hreply, hd⟩
          rcases hG.1 with ⟨conn, hc⟩
          refine matched_step h ?_ ⟨v, hreply, rfl⟩ hd rfl
          simp only [loopStep, conn_eq hc, ok_bind, hrun]
      | close c =>
          rcases hG with ⟨⟨conn, hc⟩, hno⟩
          rcases connDestroy_spec h.inv hc hno with ⟨g', hrun, hd, hinv⟩
          have hstep : loopStep R g (.event (.close c)) = .ok (g', []) := by
            simp only [loopStep, serverStep, hrun, ok_bind]
          exact matched_step h hstep rfl (h.destroyed hd hinv) rfl
      | sweep now =>
          rcases h.sweep hG.1 hG.2 with ⟨g', hrun, hd⟩
          refine matched_step h ?_ rfl hd rfl
          simp only [loopStep, serverStep, hrun, ok_bind]

end

/-- For every run of the server, over any number of connections, with any
    commands, accepts, closes and sweeps between them: no step fails, and every
    response is the frame of a reply that the dictionary of its connection
    gives. -/
theorem dictionaries_of_run (R : Runtime) (es : List LoopEvent)
    (horderly : Guarded (loopStep R) Orderly {} es)
    (hguard : (dictSpec R).Admits (fun _ _ => none) es) :
    ∃ g rs, run (loopStep R) {} es = .ok (g, rs) ∧
      (dictSpec R).Agrees (fun _ _ => none) es rs := by
  rcases (loopStep_simulates R).run (dicts_init R) horderly hguard with ⟨g, rs, hrun, hrs, _⟩
  exact ⟨g, rs, hrun, hrs⟩

/-! ## A run with both kinds of values -/

/-- The count stored at a pointer. -/
def cntAt (σ : Store) (p : Option Nat) : Nat := (p.bind σ.cell).elim 0 AVLNode.cnt

/-- A test for runs: every node of the set has the count of its subtree. -/
def countsHold (σ : Store) : Bool :=
  (List.range σ.next).all fun a => (σ.cell a).all fun n =>
    decide (n.cnt = 1 + cntAt σ n.left + cntAt σ n.right ∧ n.cnt < 2 ^ 32)

theorem counted_of_countsHold {σ : Store} (h : countsHold σ = true) {parent : Option Nat}
    {t : AvlTree} (htree : TreeAt σ parent t) (hlt : ∀ a ∈ vals t, a < σ.next) : Counted t := by
  -- the count at the root of a part is the one its parent is tested with
  have hsize : ∀ (s : AvlTree) (parent : Option Nat), TreeAt σ parent s →
      cntAt σ (ptr s) = storedSize s := by
    intro s parent hs
    cases s with
    | nil => rfl
    | node x l r =>
        rw [ptr_node, cntAt, Option.bind_some, hs.1]
        rfl
  induction t generalizing parent with
  | nil => exact True.intro
  | node x l r ihl ihr =>
      rcases htree with ⟨hx, hl, hr⟩
      rw [vals_node] at hlt
      have hcl := ihl hl fun a ha => hlt a (List.mem_append_left _ ha)
      have hcr := ihr hr fun a ha => hlt a (List.mem_append_right _ (List.mem_cons_of_mem _ ha))
      rw [countsHold, List.all_eq_true] at h
      have hnode := h x.val (List.mem_range.mpr (hlt x.val (by
        rw [List.mem_append, List.mem_cons]
        exact Or.inr (Or.inl rfl))))
      rw [hx, Option.all_some, decide_eq_true_eq] at hnode
      simp only at hnode
      rw [hsize l _ hl, hsize r _ hr, hcl.storedSize, hcr.storedSize] at hnode
      exact ⟨hnode, hcl, hcr⟩

/-- A test for runs of accepts and requests. -/
def orderlyCheck (g : GData) : LoopEvent → Bool
  | .event (.accept _ _) => true
  | .event (.request c _ _) => (g.conns c).isSome &&
    (nodesOf g c).all fun n => (g.entries n.payload).all fun x => countsHold x.zset.store
  | _ => false

theorem orderly_of_check (g : GData) (e : LoopEvent) (h : orderlyCheck g e = true) :
    Orderly g e := by
  cases e with
  | io c x => cases h
  | event e =>
      cases e with
      | accept connfd now => exact True.intro
      | touch c now => cases h
      | close c => cases h
      | sweep now => cases h
      | request c cmd now =>
          rw [orderlyCheck, Bool.and_eq_true, Option.isSome_iff_exists, List.all_eq_true] at h
          refine ⟨h.1, ?_⟩
          cases hcmd : command cmd with
          | zquery key score name offset limit =>
              intro ent x hx ht t _ hroot
              rcases hx.stored with ⟨n, hn, rfl⟩
              have htest := h.2 n hn
              rw [hx.entry, Option.all_some] at htest
              exact counted_of_countsHold htest hroot.tree hroot.lt
          | _ => exact True.intro

/-- A string, a set that loses one of its members, and questions. -/
def stringAndSet : List LoopEvent :=
  [.event (.accept 5 0), .event (.request 0 [ascii "set", ascii "k", ascii "v"] 1),
    .event (.request 0 [ascii "zadd", ascii "z", ascii "4", ascii "d"] 2),
    .event (.request 0 [ascii "zadd", ascii "z", ascii "2", ascii "b"] 3),
    .event (.request 0 [ascii "zrem", ascii "z", ascii "b"] 4),
    .event (.request 0 [ascii "zquery", ascii "z", ascii "1", [], ascii "0", ascii "9"] 5),
    .event (.request 0 [ascii "pexpire", ascii "k", ascii "9"] 6),
    .event (.request 0 [ascii "keys"] 7)]

theorem stringAndSet_orderly : Guarded (loopStep readsDigits) Orderly {} stringAndSet := by
  exact guarded_of_checkRun orderly_of_check (by decide +kernel)

theorem stringAndSet_admits : (dictSpec readsDigits).Admits (fun _ _ => none) stringAndSet := by
  refine ⟨True.intro, ⟨by decide, True.intro⟩, ⟨by decide, True.intro⟩, ⟨by decide, True.intro⟩,
    ⟨by decide, fun z hz _ => ⟨ascii "d", by decide, ?_⟩⟩, ⟨by decide, True.intro⟩,
    ⟨by decide, True.intro⟩, ⟨by decide, True.intro⟩, True.intro⟩
  -- the other member is still there
  rw [← Option.some.inj hz]
  exact Option.some_ne_none _

theorem dictionaries_of_run_set :
    ∃ g rs, run (loopStep readsDigits) {} stringAndSet = .ok (g, rs) ∧
      (dictSpec readsDigits).Agrees (fun _ _ => none) stringAndSet rs :=
  dictionaries_of_run readsDigits stringAndSet stringAndSet_orderly stringAndSet_admits

end RedisServer
