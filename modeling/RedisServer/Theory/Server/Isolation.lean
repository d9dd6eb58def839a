import RedisServer.Theory.Server.Layout
import RedisServer.Theory.Server.View
import Mathlib.Data.List.Nodup

/-!
# What One Client Sees of Another

Every connection has its own table, and all of them share one heap. Two runs
that treat a client alike, and differ in what other clients do, are compared
by the replies this client gets.

The client sends any commands. The others may send what they like but `zadd`,
so they hold strings, and none of their commands follows freed memory. Whether
the client's own commands do depends on the client's own events alone.

What the client holds is the same in both runs, so all replies are, up to the
order in which `keys` lists the keys. That order is the layout of the client's
table. It is the same in both runs as well, except that a sweep which removes
several of the client's keys with one deadline removes them in the order the
shared heap has them in, and the migration between two removals lets that
order show.

## Main definitions

* `Undisturbed`: The runs that are compared.
* `Event.seenBy`: The events of one client.
* `ViewOf`: What the client holds in a state.
* `tieFree`: The condition that no sweep removes two of the client's keys with
  one deadline.
* `layoutSpec`: What the client holds, together with the layout of its table.

## Theorems

* `client_simulates`: What a client is replied is read off what it holds.
* `layout_simulates`: And off its layout, when no sweep meets a tie.
* `clients_isolated`: Two runs.
-/

namespace RedisServer

open Lib

/-- Commands run on live connections, those of the clients other than `a` make
    no sorted set, and no connection is destroyed. A sweep does not stop at its
    limit. -/
def Undisturbed (a : Nat) (g : GData) : Event → Prop
  | .accept _ _ => True
  | .touch c _ => Live g c
  | .request c cmd _ => Live g c ∧ (c ≠ a → isCmd cmd 4 "zadd" = false)
  | .close _ => False
  | .sweep now => NoneIdle g now ∧ dueCount g now ≤ kMaxWorks

/-- The events that the client on connection `a` is shown: its own commands,
    and the sweeps. -/
def Event.seenBy (a : Nat) : Event → Option OwnEvent
  | .request c cmd now => if c = a then some (.ask cmd now) else none
  | .sweep now => some (.sweep now)
  | .accept _ _ => none
  | .touch _ _ => none
  | .close _ => none

/-! ## Ties -/

/-- The deadline of a key, if a sweep finds it passed. -/
def View.dueAt (V : View) (now : Nat) (k : Bytes) : Option Nat :=
  ((V k).bind Prod.snd).filter fun d => decide (d < now)

/-- A sweep removes no two keys with one deadline. -/
def View.Untied (V : View) (now : Nat) : Prop :=
  ∀ k k' d, V.dueAt now k = some d → V.dueAt now k' = some d → k = k'

/-- The condition on the client's events that no sweep removes two of its keys
    with one deadline. -/
def tieFree (R : Runtime) : Spec View OwnEvent Bytes where
  guard V
    | .ask _ _ => True
    | .sweep now => V.Untied now
  next := (clientSpec R).next
  reply := (clientSpec R).reply

/-- The keys a sweep removes, with their deadlines. -/
def dueKeys (V : View) (now : Nat) (L : HMap Bytes) : List (Bytes × Nat) :=
  (layoutKeys L).filterMap fun k => (V.dueAt now k).map fun d => (k, d)

/-- The keys a sweep removes, in the order of their deadlines. -/
def expireOrder (V : View) (now : Nat) (L : HMap Bytes) : List Bytes :=
  ((dueKeys V now L).mergeSort fun a b => decide (a.2 ≤ b.2)).map Prod.fst

/-- What the client holds and the layout of its table. -/
def layoutSpec (R : Runtime) : Spec (HMap Bytes × View) OwnEvent Bytes where
  guard t e := (clientSpec R).guard t.2 e ∧ (tieFree R).guard t.2 e
  next t e :=
    (match e with
      | .ask cmd _ => requestLayout R t.1 cmd
      | .sweep now => deleteKeys R t.1 (expireOrder t.2 now t.1),
    (clientSpec R).next t.2 e)
  reply t
    | .ask cmd now, r =>
      ∃ x, clientRequest R t.2 cmd (layoutKeys t.1) now = .ok x ∧ r = framed x.2
    | .sweep _, r => r = []

/-- Two replies to one event, alike up to the order of `keys`. -/
def SameReply : OwnEvent → Bytes → Bytes → Prop
  | .ask cmd _, r, r' =>
    if isCmd cmd 1 "keys" then
      ∃ l l' : List Bytes, l.Perm l' ∧ r = framed (outKeys [] l) ∧ r' = framed (outKeys [] l')
    else r = r'
  | .sweep _, r, r' => r = r'

/-- What the client on connection `a` holds in a state. The other clients hold
    strings only. -/
structure ViewOf (R : Runtime) (a : Nat) (g : GData) (V : View) : Prop where
  inv : Inv R g
  stores : StoresOk R (fun _ => True) g
  views : ∃ K, Views g K ∧ K.view a = V ∧ ∀ c, c ≠ a → (K.view c).Strings

/-- The layout of the client's table, which is empty until it connects. -/
def LayoutOf (a : Nat) (g : GData) (L : HMap Bytes) : Prop :=
  (g.conns a = none ∧ L = {}) ∨ LayoutIs g a L

section

variable {R : Runtime} {a : Nat} {g g' : GData} {V : View} {L : HMap Bytes}

/-! ## What the client holds -/

namespace ViewOf

theorem init (R : Runtime) (a : Nat) : ViewOf R a {} fun _ => none where
  inv := inv_init R
  stores := storesOk_init R _
  views := ⟨fun _ _ => none, views_init, rfl, fun _ _ _ _ h => nomatch h⟩

/-- Accepting a connection changes no key. -/
theorem accept (h : ViewOf R a g V) (connfd : Int) (now : Nat) :
    ∃ g', answerStep R g (.accept connfd now) = .ok (g', []) ∧ ViewOf R a g' V ∧ SameData g g' ∧
      g'.conns = if connfd < 0 then g.conns else Function.update g.conns g.nextConn
        (some { fd := connfd, wantRead := true, lastActiveMs := now }) := by
  rcases h.views with ⟨K, hK, hV, hstr⟩
  rcases handleAccept_spec h.inv connfd now with ⟨g', hrun, hdata, hinv, hconns⟩
  refine ⟨g', ?_, ⟨hinv, h.stores.congr (handleAccept_stores hrun), K, hdata.views hK, hV, hstr⟩,
    hdata, hconns⟩
  simp only [answerStep, serverStep, hrun, ok_bind]

/-- Noting that a connection was active changes no key. -/
theorem touch (h : ViewOf R a g V) {c : Nat} {conn : Conn} (hc : g.conns c = some conn)
    (now : Nat) :
    ∃ g', answerStep R g (.touch c now) = .ok (g', []) ∧ ViewOf R a g' V ∧ SameData g g' ∧
      g'.conns = Function.update g.conns c (some { conn with lastActiveMs := now }) := by
  rcases h.views with ⟨K, hK, hV, hstr⟩
  rcases connTouch_spec h.inv hc now with ⟨g', hrun, hdata, hinv, hconns⟩
  refine ⟨g', ?_, ⟨hinv, h.stores.congr (connTouch_stores hrun), K, hdata.views hK, hV, hstr⟩,
    hdata, hconns⟩
  simp only [answerStep, serverStep, hrun, ok_bind]

/-- A command on a live connection, answered with its frame. -/
theorem answer (h : ViewOf R a g V) {c : Nat} {conn : Conn} (hc : g.conns c = some conn)
    {cmd : List Bytes} {now : Nat} {r : Bytes} (hrun : doRequest R g c cmd now [] = .ok (g', r)) :
    answerStep R g (.request c cmd now) = .ok (g', framed r) ∧ StoresOk R (fun _ => True) g' := by
  rw [answerStep_request h.inv hc, hrun]
  exact ⟨rfl, doRequest_stores h.stores True.intro (fun _ => True.intro) hrun⟩

/-- A command of the client does what it does to what the client holds. -/
theorem own (h : ViewOf R a g V) (hlive : Live g a) {cmd : List Bytes} {now : Nat}
    (hret : ∃ x, clientRequest R V cmd [] now = .ok x) :
    ∃ g' V' r, doRequest R g a cmd now [] = .ok (g', r) ∧
      answerStep R g (.request a cmd now) = .ok (g', framed r) ∧
      clientRequest R V cmd (keysOf g a) now = .ok (V', r) ∧ SameLoop g g' ∧ ViewOf R a g' V' := by
  rcases h.views with ⟨K, hK, hV, hstr⟩
  rcases hlive with ⟨conn, hc⟩
  rcases hret with ⟨⟨V', _⟩, hret⟩
  rcases clientRequest_reorder hret (keysOf g a) with ⟨r, hreq⟩
  have hdoes := doRequest_view h.inv hK h.stores hc cmd now
  rw [hV] at hdoes
  rcases hdoes V' r hreq with ⟨g', K', hrun, hm, hV', hothers⟩
  rcases h.answer hc hrun with ⟨hans, hstores⟩
  refine ⟨g', V', r, hrun, hans, hreq, hm.same, hm.inv, hstores, K', hm.views, hV', fun c hca => ?_⟩
  rw [view_congr (hothers c hca)]
  exact hstr c hca

/-- A command of another client changes nothing that the client holds. -/
theorem other (h : ViewOf R a g V) {c : Nat} (hca : c ≠ a) (hlive : Live g c) {cmd : List Bytes}
    (hcmd : isCmd cmd 4 "zadd" = false) (now : Nat) :
    ∃ g' r, doRequest R g c cmd now [] = .ok (g', r) ∧
      answerStep R g (.request c cmd now) = .ok (g', framed r) ∧ SameLoop g g' ∧
      ViewOf R a g' V := by
  rcases h.views with ⟨K, hK, hV, hstr⟩
  rcases hlive with ⟨conn, hc⟩
  rcases clientRequest_strings (R := R) (hstr c hca) hcmd (keysOf g c) now with
    ⟨W, r, hreq, hW⟩
  rcases doRequest_view h.inv hK h.stores hc cmd now W r hreq with ⟨g', K', hrun, hm, hW', hothers⟩
  rcases h.answer hc hrun with ⟨hans, hstores⟩
  refine ⟨g', r, hrun, hans, hm.same, hm.inv, hstores, K', hm.views, ?_, fun c' hca' => ?_⟩
  · rw [view_congr (hothers a fun heq => hca heq.symm)]
    exact hV
  · by_cases hcc : c' = c
    · rw [hcc, hW']
      exact hW
    · rw [view_congr (hothers c' hcc)]
      exact hstr c' hca'

/-- A sweep removes the keys of the client that are due. -/
theorem sweep (h : ViewOf R a g V) {now : Nat} (hact : NoneIdle g now)
    (hcap : dueCount g now ≤ kMaxWorks) (hfrees : V.Frees now) :
    ∃ g' es K, answerStep R g (.sweep now) = .ok (g', []) ∧ ViewOf R a g' (V.expire now) ∧
      Views g K ∧ K.view a = V ∧ Swept now g es g' ∧ Moved R g g' K (K.expire now) := by
  rcases h.views with ⟨K, hK, hV, hstr⟩
  have hall : ∀ c, (K.view c).Frees now := by
    intro c
    by_cases hca : c = a
    · rw [hca, hV]
      exact hfrees
    · exact (hstr c hca).frees now
  rcases processTimers_view h.inv hK hact hcap hall with ⟨g', es, hrun, hsw, hm⟩
  have hstep : serverStep R g (.sweep now) = .ok (g', []) := by
    simp only [serverStep, hrun, ok_bind]
  have hstores := serverStep_stores h.stores True.intro (fun _ _ _ _ _ => True.intro) hstep
  refine ⟨g', es, K, hstep, ⟨hm.inv, hstores, _, hm.views, ?_, fun c hca => ?_⟩, hK, hV, hsw, hm⟩
  · rw [view_expire, hV]
  · rw [view_expire]
    exact (hstr c hca).expire now

/-- The client's keys are those of what it holds. -/
theorem mem_keysOf (h : ViewOf R a g V) (k : Bytes) : k ∈ keysOf g a ↔ (V k).isSome := by
  rcases h.views with ⟨K, hK, hV, _⟩
  rw [mem_keysOf_iff h.inv.db hK, ← hV, Keyspace.view, Option.isSome_map]

/-- A state determines what the client holds. -/
theorem unique {V' : View} (h : ViewOf R a g V) (h' : ViewOf R a g V') : V = V' := by
  rcases h.views with ⟨K, hK, rfl, _⟩
  rcases h'.views with ⟨K', hK', rfl, _⟩
  rw [hK.unique hK']

end ViewOf

/-- What a client is replied is read off what it holds. -/
theorem client_simulates (R : Runtime) (a : Nat) :
    SimulatesSeen (answerStep R) (Undisturbed a) (Event.seenBy a) (clientSpec R) (ViewOf R a) := by
  intro g V e h hG
  cases e with
  | accept connfd now =>
      rcases h.accept connfd now with ⟨g', hstep, h', _⟩
      exact ⟨fun _ => ⟨g', [], hstep, h'⟩, fun o ho => nomatch ho⟩
  | touch c now =>
      rcases hG with ⟨conn, hc⟩
      rcases h.touch hc now with ⟨g', hstep, h', _⟩
      exact ⟨fun _ => ⟨g', [], hstep, h'⟩, fun o ho => nomatch ho⟩
  | request c cmd now =>
      by_cases hca : c = a
      · subst hca
        refine ⟨fun hne => ?_, fun e he hguard => ?_⟩
        · rw [Event.seenBy, if_pos rfl] at hne
          cases hne
        · rw [Event.seenBy, if_pos rfl, Option.some.injEq] at he
          subst he
          rcases h.own hG.1 hguard with ⟨g', V', r, _, hstep, hreq, _, h'⟩
          refine ⟨g', _, hstep, ⟨_, _, keysOf_nodup h.inv.db c, h.mem_keysOf, hreq, rfl⟩, ?_⟩
          rw [clientSpec_next hreq]
          exact h'
      · -- a command of another client
        rcases h.other hca hG.1 (hG.2 hca) now with ⟨g', r, _, hstep, _, h'⟩
        refine ⟨fun _ => ⟨g', _, hstep, h'⟩, fun e he => ?_⟩
        rw [Event.seenBy, if_neg hca] at he
        cases he
  | close c => exact hG.elim
  | sweep now =>
      -- every client sees the sweep
      refine ⟨fun hne => (nomatch hne), fun e he hguard => ?_⟩
      rw [Event.seenBy, Option.some.injEq] at he
      subst he
      rcases h.sweep hG.1 hG.2 hguard with ⟨g', _, _, hstep, h', _⟩
      exact ⟨g', [], hstep, rfl, h'⟩

/-- Two replies that fit what the client holds are alike. -/
theorem sameReply_of_clientSpec (V : View) (e : OwnEvent) (r r' : Bytes)
    (h : (clientSpec R).reply V e r) (h' : (clientSpec R).reply V e r') : SameReply e r r' := by
  cases e with
  | sweep now => exact h.trans h'.symm
  | ask cmd now =>
      rcases h with ⟨ks, x, hnd, hmem, hreq, rfl⟩
      rcases h' with ⟨ks', x', hnd', hmem', hreq', rfl⟩
      rw [SameReply]
      by_cases hkeys : isCmd cmd 1 "keys" = true
      · rw [clientRequest_keys hkeys, Except.ok.injEq] at hreq hreq'
        rw [if_pos hkeys, ← hreq, ← hreq']
        refine ⟨ks, ks', ?_, rfl, rfl⟩
        rw [List.perm_ext_iff_of_nodup hnd hnd']
        intro k
        rw [hmem, hmem']
      · rw [clientRequest_order hkeys ks' ks, hreq, Except.ok.injEq] at hreq'
        rw [if_neg hkeys, hreq']

/-! ## The client's layout -/

theorem dueAt_eq_some {now : Nat} {k : Bytes} {d : Nat} :
    V.dueAt now k = some d ↔ (∃ x, V k = some (x, some d)) ∧ d < now := by
  rw [View.dueAt, Option.filter_eq_some_iff, Option.bind_eq_some_iff, decide_eq_true_eq]
  constructor
  · rintro ⟨⟨⟨x, d'⟩, hk, hd⟩, hlt⟩
    exact ⟨⟨x, by rw [hk]; exact congrArg (fun d => some (x, d)) hd⟩, hlt⟩
  · rintro ⟨⟨x, hk⟩, hlt⟩
    exact ⟨⟨(x, some d), hk, rfl⟩, hlt⟩

/-- A key that is due is one with that deadline in the keyspace. -/
theorem dueAt_view {K : Keyspace} (now : Nat) (k : Bytes) (d : Nat) :
    (K.view a).dueAt now k = some d ↔ (∃ x, K a k = some (x, some d)) ∧ d < now := by
  rw [dueAt_eq_some]
  refine and_congr_left fun _ => ?_
  constructor
  · rintro ⟨x, hx⟩
    rcases Option.map_eq_some_iff.mp hx with ⟨v, hv, heq⟩
    exact ⟨v.1, by rw [hv]; exact congrArg (fun w => some (v.1, w)) (congrArg Prod.snd heq)⟩
  · rintro ⟨x, hx⟩
    exact ⟨_, by rw [Keyspace.view, hx]; rfl⟩

theorem mem_dueKeys {now : Nat} {b : Bytes × Nat} :
    b ∈ dueKeys V now L ↔ b.1 ∈ layoutKeys L ∧ V.dueAt now b.1 = some b.2 := by
  rw [dueKeys, List.mem_filterMap]
  constructor
  · rintro ⟨k, hk, hb⟩
    rcases Option.map_eq_some_iff.mp hb with ⟨d, hd, rfl⟩
    exact ⟨hk, hd⟩
  · rintro ⟨hk, hd⟩
    exact ⟨b.1, hk, by rw [hd]; rfl⟩

/-- Sorted lists of pairs with one set of members are equal, when no two
    members share the second component. -/
theorem eq_of_sorted_by_snd {l l' : List (Bytes × Nat)} (hp : l.Perm l')
    (huniq : ∀ x ∈ l, ∀ y ∈ l, x.2 = y.2 → x = y) (h : l.Pairwise fun x y => x.2 ≤ y.2)
    (h' : l'.Pairwise fun x y => x.2 ≤ y.2) : l = l' :=
  hp.eq_of_pairwise
    (fun x y hx hy hxy hyx => huniq x hx y (hp.mem_iff.mpr hy) (Nat.le_antisymm hxy hyx)) h h'

/-- A sweep deletes the keys of the client that are due one after the other, by
    their deadlines, and starts with the one at the root of the heap, if that is
    one of them. -/
theorem Swept.due_keys {K : Keyspace} {now : Nat} {es : List (Nat × Nat × Nat)} (hinv : Inv R g)
    (hK : Views g K) (hsw : Swept now g es g') (hm : Moved R g g' K (K.expire now))
    (hL : LayoutIs g a L) :
    ∃ ks : List (Bytes × Nat), LayoutIs g' a (deleteKeys R L (ks.map Prod.fst)) ∧
      ks.Pairwise (fun x y => x.1 ≠ y.1 ∧ x.2 ≤ y.2) ∧
      (∀ x, x ∈ ks ↔ (K.view a).dueAt now x.1 = some x.2) ∧
      ∀ d e, g.heap.head? = some ⟨d, some e⟩ → Stored g a e → ∀ x ∈ ks.head?, x.1 = keyOf g e := by
  rcases hsw.layout hinv hK hL with ⟨ks, hL', hsorted, hdue, hrest, hroot⟩
  refine ⟨ks, hL', hsorted, fun x => ?_, hroot⟩
  rw [dueAt_view]
  refine ⟨fun hx => (hdue x hx).symm, ?_⟩
  rintro ⟨⟨y, hy⟩, hlate⟩
  -- a key that is due and was not swept would still be there
  have hgone : K.expire now a x.1 = none := by
    rw [Keyspace.expire, hy, Option.filter_some, if_neg]
    rw [Option.all_some, decide_eq_true_eq]
    exact Nat.not_le_of_lt hlate
  have hin : x.1 ∈ ks.map Prod.fst := by
    by_contra hnot
    have hkeep := hrest (K.expire now) hm.views x.1 hnot
    rw [hgone, hy] at hkeep
    cases hkeep
  rcases List.mem_map.mp hin with ⟨z, hz, hzx⟩
  rcases (hdue z hz).2 with ⟨w, hw⟩
  rw [hzx, hy, Option.some.injEq, Prod.mk.injEq, Option.some.injEq] at hw
  have heq : x = z := Prod.ext hzx.symm hw.2
  rw [heq]
  exact hz

/-- Without a tie, the keys a sweep deletes and their order are read off what
    the client holds. -/
theorem expireOrder_eq {now : Nat} (h : ViewOf R a g V) (hL : LayoutIs g a L)
    (huntied : V.Untied now) {ks : List (Bytes × Nat)}
    (hsorted : ks.Pairwise fun x y => x.1 ≠ y.1 ∧ x.2 ≤ y.2)
    (hmem : ∀ x, x ∈ ks ↔ V.dueAt now x.1 = some x.2) :
    ks.map Prod.fst = expireOrder V now L := by
  have hmem' : ∀ x, x ∈ ks ↔ x ∈ dueKeys V now L := by
    intro x
    rw [hmem, mem_dueKeys, hL.keys, h.mem_keysOf]
    refine ⟨fun hd => ⟨?_, hd⟩, fun h => h.2⟩
    rcases (dueAt_eq_some.mp hd).1 with ⟨y, hy⟩
    rw [hy]
    rfl
  have hnd : ks.Nodup := hsorted.imp fun h heq => h.1 (congrArg Prod.fst heq)
  have hdistinct : (layoutKeys L).Nodup := by
    rw [hL.keys]
    exact keysOf_nodup h.inv.db a
  have hnd' : (dueKeys V now L).Nodup := by
    refine hdistinct.filterMap fun k k' b hb hb' => ?_
    rcases Option.map_eq_some_iff.mp hb with ⟨_, _, rfl⟩
    rcases Option.map_eq_some_iff.mp hb' with ⟨_, _, heq⟩
    exact (congrArg Prod.fst heq).symm
  -- the same pairs, each once, both sorted by the deadline
  have hp : ks.Perm ((dueKeys V now L).mergeSort fun x y => decide (x.2 ≤ y.2)) :=
    ((List.perm_ext_iff_of_nodup hnd hnd').mpr hmem').trans (List.mergeSort_perm _ _).symm
  have hsort : ((dueKeys V now L).mergeSort fun x y => decide (x.2 ≤ y.2)).Pairwise
      fun x y => x.2 ≤ y.2 := by
    have hle : ((dueKeys V now L).mergeSort fun x y => decide (x.2 ≤ y.2)).Pairwise
        fun x y => decide (x.2 ≤ y.2) = true := by
      refine List.pairwise_mergeSort (fun x y z hxy hyz => ?_) (fun x y => ?_) _
      · rw [decide_eq_true_eq] at hxy hyz ⊢
        exact hxy.trans hyz
      · rw [Bool.or_eq_true, decide_eq_true_eq, decide_eq_true_eq]
        exact Nat.le_total x.2 y.2
    exact hle.imp fun h => of_decide_eq_true h
  rw [expireOrder]
  congr 1
  -- no two deadlines tie, so the order is forced
  refine eq_of_sorted_by_snd hp (fun x hx y hy hxy => ?_) (hsorted.imp fun h => h.2) hsort
  have hxd := (hmem x).mp hx
  have hyd := (hmem y).mp hy
  rw [← hxy] at hyd
  exact Prod.ext (huntied x.1 y.1 x.2 hxd hyd) hxy

/-- A step that leaves the client's connection alone leaves its layout alone. -/
theorem LayoutOf.apart {c : Nat} (h : LayoutOf a g L) (hap : Apart g g' c) (hne : a ≠ c) :
    LayoutOf a g' L := by
  rcases h with ⟨hnone, hL⟩ | hL
  · exact Or.inl ⟨by rw [hap.conns a hne, hnone], hL⟩
  · exact Or.inr (hap.layout hne hL)

theorem LayoutOf.live (h : LayoutOf a g L) (hlive : Live g a) : LayoutIs g a L := by
  rcases h with ⟨hnone, _⟩ | hL
  · rcases hlive with ⟨conn, hc⟩
    rw [hnone] at hc
    cases hc
  · exact hL

/-- Accepting a connection gives it an empty layout, and changes no other. -/
theorem LayoutOf.accept (h : LayoutOf a g L) (hinv : Inv R g) (hdata : SameData g g')
    {connfd : Int} {conn : Conn} (hdb : conn.db = {})
    (hconns : g'.conns = if connfd < 0 then g.conns else
      Function.update g.conns g.nextConn (some conn)) : LayoutOf a g' L := by
  have hkey : keyOf g' = keyOf g := by
    funext e
    rw [keyOf, keyOf, hdata.entries]
  by_cases hnew : ¬ connfd < 0 ∧ a = g.nextConn
  · rw [if_neg hnew.1] at hconns
    have hfresh := hinv.loop.fresh g.nextConn (Nat.le_refl _)
    rcases h with ⟨_, rfl⟩ | ⟨conn', hc', _⟩
    · exact Or.inr ⟨conn, by rw [hconns, hnew.2, Function.update_self], by rw [hdb]; rfl⟩
    · rw [hnew.2, hfresh] at hc'
      cases hc'
  · have hsame : g'.conns a = g.conns a := by
      rw [hconns]
      split
      · rfl
      · rename_i hfd
        rw [Function.update_of_ne fun heq => hnew ⟨hfd, heq⟩]
    rcases h with ⟨hnone, hL⟩ | ⟨conn', hc', hL⟩
    · exact Or.inl ⟨by rw [hsame, hnone], hL⟩
    · exact Or.inr ⟨conn', by rw [hsame, hc'], by rw [hkey, hL]⟩

/-- Noting that a connection was active changes no layout. -/
theorem LayoutOf.touch (h : LayoutOf a g L) (hdata : SameData g g') {c now : Nat} {conn : Conn}
    (hc : g.conns c = some conn)
    (hconns : g'.conns = Function.update g.conns c (some { conn with lastActiveMs := now })) :
    LayoutOf a g' L := by
  have hkey : keyOf g' = keyOf g := by
    funext e
    rw [keyOf, keyOf, hdata.entries]
  by_cases hac : a = c
  · rcases h with ⟨hnone, _⟩ | ⟨conn', hc', hL⟩
    · rw [hac, hc] at hnone
      cases hnone
    · rw [hac, hc, Option.some.injEq] at hc'
      rw [← hc'] at hL
      exact Or.inr ⟨_, by rw [hconns, hac, Function.update_self], by rw [hkey]; exact hL⟩
  · rcases h with ⟨hnone, hL⟩ | ⟨conn', hc', hL⟩
    · exact Or.inl ⟨by rw [hconns, Function.update_of_ne hac, hnone], hL⟩
    · exact Or.inr ⟨conn', by rw [hconns, Function.update_of_ne hac, hc'], by rw [hkey, hL]⟩

/-- A sweep that meets no tie deletes the client's keys in the order that what
    it holds gives. -/
theorem LayoutOf.sweep {K : Keyspace} (h : LayoutOf a g L) (hview : ViewOf R a g V)
    (hK : Views g K) (hV : K.view a = V) {now : Nat} {es : List (Nat × Nat × Nat)}
    (hsw : Swept now g es g') (hm : Moved R g g' K (K.expire now)) (huntied : V.Untied now) :
    LayoutOf a g' (deleteKeys R L (expireOrder V now L)) := by
  rcases h with ⟨hnone, rfl⟩ | hL
  · refine Or.inl ⟨?_, ?_⟩
    · have hio := hm.same.io a
      rw [hnone, Option.map_none, Option.map_eq_none_iff] at hio
      exact hio
    · have hnil : dueKeys V now {} = [] := rfl
      rw [expireOrder, hnil, List.mergeSort_nil]
      rfl
  · rcases hsw.due_keys hview.inv hK hm hL with ⟨ks, hL', hsorted, hmem, _⟩
    rw [hV] at hmem
    rw [← expireOrder_eq hview hL huntied hsorted hmem]
    exact Or.inr hL'

/-- What a client is replied, the order of `keys` included, is read off what it
    holds and its layout, when no sweep meets a tie. -/
theorem layout_simulates (R : Runtime) (a : Nat) :
    SimulatesSeen (answerStep R) (Undisturbed a) (Event.seenBy a) (layoutSpec R)
      fun g t => LayoutOf a g t.1 ∧ ViewOf R a g t.2 := by
  rintro g ⟨L, V⟩ e ⟨hL, h⟩ hG
  cases e with
  | accept connfd now =>
      rcases h.accept connfd now with ⟨g', hstep, h', hdata, hconns⟩
      exact ⟨fun _ => ⟨g', [], hstep, hL.accept h.inv hdata rfl hconns, h'⟩, fun o ho => nomatch ho⟩
  | touch c now =>
      rcases hG with ⟨conn, hc⟩
      rcases h.touch hc now with ⟨g', hstep, h', hdata, hconns⟩
      exact ⟨fun _ => ⟨g', [], hstep, hL.touch hdata hc hconns, h'⟩, fun o ho => nomatch ho⟩
  | request c cmd now =>
      by_cases hca : c = a
      -- its own command: the layout moves by the command alone
      · subst hca
        refine ⟨fun hne => ?_, fun e he hguard => ?_⟩
        · rw [Event.seenBy, if_pos rfl] at hne
          cases hne
        · rw [Event.seenBy, if_pos rfl, Option.some.injEq] at he
          subst he
          have hlive := hL.live hG.1
          rcases h.own hG.1 hguard.1 with ⟨g', V', r, hrun, hstep, hreq, _, h'⟩
          rcases doRequest_layout h.inv hlive cmd now [] g' r hrun with ⟨hL', _⟩
          refine ⟨g', _, hstep, ⟨(V', r), ?_, rfl⟩, Or.inr hL', ?_⟩
          · rw [hlive.keys]
            exact hreq
          · show ViewOf R c g' ((clientSpec R).next V (.ask cmd now))
            rw [clientSpec_next hreq]
            exact h'
      · -- Another client's command.
        rcases h.other hca hG.1 (hG.2 hca) now with ⟨g', r, hrun, hstep, _, h'⟩
        rcases hG.1 with ⟨conn, hc⟩
        have hap := (doRequest_layout h.inv ⟨conn, hc, rfl⟩ cmd now [] g' r hrun).2
        refine ⟨fun _ => ⟨g', _, hstep, hL.apart hap fun heq => hca heq.symm, h'⟩, fun e he => ?_⟩
        rw [Event.seenBy, if_neg hca] at he
        cases he
  | close c => exact hG.elim
  | sweep now =>
      refine ⟨fun hne => (nomatch hne), fun e he hguard => ?_⟩
      rw [Event.seenBy, Option.some.injEq] at he
      subst he
      rcases h.sweep hG.1 hG.2 hguard.1 with ⟨g', es, K, hstep, h', hK, hV, hsw, hm⟩
      exact ⟨g', [], hstep, rfl, hL.sweep h hK hV hsw hm hguard.2, h'⟩

theorem layoutSpec_deterministic (t : HMap Bytes × View) (e : OwnEvent) (r r' : Bytes)
    (h : (layoutSpec R).reply t e r) (h' : (layoutSpec R).reply t e r') : r = r' := by
  cases e with
  | sweep now => exact h.trans h'.symm
  | ask cmd now =>
      rcases h with ⟨x, hx, rfl⟩
      rcases h' with ⟨x', hx', rfl⟩
      rw [hx, Except.ok.injEq] at hx'
      rw [hx']

/-- The conditions on a client's events speak of what it holds alone. -/
theorem layoutSpec_admits (L : HMap Bytes) {os : List OwnEvent} (h : (clientSpec R).Admits V os)
    (htie : (tieFree R).Admits V os) : (layoutSpec R).Admits (L, V) os := by
  induction os generalizing V L with
  | nil => exact True.intro
  | cons o os ih => exact ⟨⟨h.1, htie.1⟩, ih _ h.2 htie.2⟩

end

/-- Two runs with the same commands of one client and the same sweeps, whatever
    the other clients do: if the client's own commands and the sweeps, taken
    alone, follow no freed memory and return, then both runs return, and the
    client gets the same replies up to the order in which `keys` lists its keys,
    and the same replies to the byte when no sweep removes two of its keys with
    one deadline. -/
theorem clients_isolated (R : Runtime) (a a' : Nat) (es es' : List Event)
    (hes : Guarded (answerStep R) (Undisturbed a) {} es)
    (hes' : Guarded (answerStep R) (Undisturbed a') {} es')
    (hsame : observed (Event.seenBy a) es = observed (Event.seenBy a') es')
    (hown : (clientSpec R).Admits (fun _ => none) (observed (Event.seenBy a) es)) :
    ∃ g rs g' rs', run (answerStep R) {} es = .ok (g, rs) ∧
      run (answerStep R) {} es' = .ok (g', rs') ∧
      Matched SameReply (observed (Event.seenBy a) es)
        (observedReplies (Event.seenBy a) es rs) (observedReplies (Event.seenBy a') es' rs') ∧
      ((tieFree R).Admits (fun _ => none) (observed (Event.seenBy a) es) →
        observedReplies (Event.seenBy a) es rs = observedReplies (Event.seenBy a') es' rs') := by
  have hown' := hown
  rw [hsame] at hown'
  rcases (client_simulates R a).run (ViewOf.init R a) hes hown with ⟨g, rs, hrun, hrs, _⟩
  rcases (client_simulates R a').run (ViewOf.init R a') hes' hown' with ⟨g', rs', hrun', hrs', _⟩
  rw [← hsame] at hrs'
  refine ⟨g, rs, g', rs', hrun, hrun', hrs.matched sameReply_of_clientSpec hrs', fun htie => ?_⟩
  -- without ties the layout answers too, and its answers are determined
  have hlayout : ∀ a, LayoutOf a {} ({} : HMap Bytes) := fun _ => Or.inl ⟨rfl, rfl⟩
  have hadmits := layoutSpec_admits {} hown htie
  rcases (layout_simulates R a).run ⟨hlayout a, ViewOf.init R a⟩ hes hadmits with
    ⟨h, qs, hq, hqs, _⟩
  rw [hsame] at hadmits
  rcases (layout_simulates R a').run ⟨hlayout a', ViewOf.init R a'⟩ hes' hadmits with
    ⟨h', qs', hq', hqs', _⟩
  rw [hrun, Except.ok.injEq, Prod.mk.injEq] at hq
  rw [hrun', Except.ok.injEq, Prod.mk.injEq] at hq'
  rw [← hq.2] at hqs
  rw [← hq'.2, ← hsame] at hqs'
  exact (hqs.matched layoutSpec_deterministic hqs').eq

/-- A run without sweeps, tested step by step. -/
def undisturbed (a : Nat) (g : GData) : Event → Bool
  | .accept _ _ => true
  | .request c cmd _ => (g.conns c).isSome && (c == a || !isCmd cmd 4 "zadd")
  | _ => false

theorem undisturbed_spec {a : Nat} {g : GData} {e : Event} (h : undisturbed a g e = true) :
    Undisturbed a g e := by
  cases e with
  | accept connfd now => exact True.intro
  | request c cmd now =>
      rw [undisturbed, Bool.and_eq_true, Bool.or_eq_true, beq_iff_eq, Bool.not_eq_true'] at h
      exact ⟨Option.isSome_iff_exists.mp h.1, fun hca => h.2.resolve_left hca⟩
  | touch c now => cases h
  | close c => cases h
  | sweep now => cases h

/-- Two clients connect. -/
def twoAccepts : List Event := [.accept 5 0, .accept 6 0]

/-- A client fills a sorted set, sets a key, and asks for both. -/
def aloneOps : List Event :=
  [.request 0 [ascii "zadd", ascii "z", ascii "2", ascii "m"] 0,
    .request 0 [ascii "set", ascii "k", ascii "v"] 0, .request 0 [ascii "keys"] 0,
    .request 0 [ascii "zscore", ascii "z", ascii "m"] 0]

/-- Another client sets the same keys in between. -/
def besideOps : List Event :=
  [.request 0 [ascii "zadd", ascii "z", ascii "2", ascii "m"] 0,
    .request 1 [ascii "set", ascii "z", ascii "w"] 0,
    .request 0 [ascii "set", ascii "k", ascii "v"] 0, .request 1 [ascii "del", ascii "k"] 0,
    .request 0 [ascii "keys"] 0, .request 0 [ascii "zscore", ascii "z", ascii "m"] 0]

theorem clients_isolated_beside :
    ∃ g rs g' rs', run (answerStep readsDigits) {} (twoAccepts ++ aloneOps) = .ok (g, rs) ∧
      run (answerStep readsDigits) {} (twoAccepts ++ besideOps) = .ok (g', rs') ∧
      Matched SameReply (observed (Event.seenBy 0) (twoAccepts ++ aloneOps))
        (observedReplies (Event.seenBy 0) (twoAccepts ++ aloneOps) rs)
        (observedReplies (Event.seenBy 0) (twoAccepts ++ besideOps) rs') ∧
      ((tieFree readsDigits).Admits (fun _ => none)
          (observed (Event.seenBy 0) (twoAccepts ++ aloneOps)) →
        observedReplies (Event.seenBy 0) (twoAccepts ++ aloneOps) rs =
          observedReplies (Event.seenBy 0) (twoAccepts ++ besideOps) rs') :=
  clients_isolated readsDigits 0 0 _ _
    (guarded_of_checkRun (fun _ _ => undisturbed_spec) (by decide +kernel))
    (guarded_of_checkRun (fun _ _ => undisturbed_spec) (by decide +kernel)) rfl
    ⟨⟨_, rfl⟩, ⟨_, rfl⟩, ⟨_, rfl⟩, ⟨_, rfl⟩, True.intro⟩

end RedisServer
