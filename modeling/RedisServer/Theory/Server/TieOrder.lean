import RedisServer.Theory.Server.Isolation
import RedisServer.Theory.Server.Refine

/-!
# A Tie in the Shared Heap

Two keys of one client with one deadline are removed by one sweep in the order
in which the heap has them, and another client can turn that order around: a
key it deletes at the root of the heap is replaced by the heap's last item.
Each removal first moves up to 128 nodes of the client's table. Whether a key
is removed before or after such a step decides which other node is the last
one to move, and `keys` lists the nodes in the order of the tables.

The client below has 512 keys, which starts a migration that two removals do
not finish. All of them but one have hash codes that select the first slot of
every table, so that the layout is easy to follow.

## Main definitions

* `setNew`: The layout after a `set` of a new key.
* `tieRun`, `tieRunTurned`: The two runs.

## Theorems

* `foldl_set_new`: Any number of new keys.
* `ViewOf.sweep_two`: A sweep of two keys starts with the one at the root.
* `keys_order_turned`: The replies to `keys` in the two runs differ.
-/

namespace RedisServer

open Lib

/-- The layout after one step of its migration. -/
def helped (L : HMap Bytes) : HMap Bytes :=
  match hmHelpRehashing L with
  | .ok L' => L'
  | .error _ => L

/-- The layout after a `set` of a key that is not there. -/
def setNew (R : Runtime) (L : HMap Bytes) (key : Bytes) : HMap Bytes := insertKey R (helped L) key

section

variable {R : Runtime} {g g' : GData} {a : Nat} {V : View} {L : HMap Bytes}

/-! ## New keys -/

/-- The layout after a string or TTL command. -/
theorem requestLayout_argv (R : Runtime) (L : HMap Bytes) (o : StrOp) :
    requestLayout R L o.argv =
      match o with
      | .get key => (lookupKey R L key).1
      | .set key _ => ensureKey R L key
      | .del key => deleteKey R L key
      | .pexpire key ttl =>
        match str2int ttl with
        | none => L
        | some _ => (lookupKey R L key).1
      | .pttl key => (lookupKey R L key).1
      | .keys => L := by
  cases o <;> rfl

theorem layout_set_new (hwf : L.Wf) {key : Bytes} (hkey : key ∉ layoutKeys L) (val : Bytes) :
    requestLayout R L (StrOp.set key val).argv = setNew R L key ∧ (setNew R L key).Wf ∧
      (layoutKeys (setNew R L key)).Perm (key :: layoutKeys L) := by
  have hans : Answers (keyEq key) (fun k => k == key) (R.strHash key) L.nodes := fun _ _ _ => rfl
  rcases hmLookup_spec hwf hans with ⟨L₁, r, hlook, hwf₁, hp₁, hfound⟩
  have hr : r = none := by
    cases r with
    | none => rfl
    | some n =>
        have hn := eq_of_beq hfound.2.2
        exact absurd (List.mem_map.mpr ⟨n, hfound.1, hn⟩) hkey
  have hhelped : helped L = L₁ := by
    rw [helped, hmLookup_fst hlook]
  rcases hmInsert_spec hwf₁ ⟨R.strHash key, key⟩ with ⟨L₂, hins, hwf₂, hp₂⟩
  have hnew : setNew R L key = L₂ := by
    rw [setNew, insertKey, hhelped, hins]
  refine ⟨?_, by rw [hnew]; exact hwf₂, ?_⟩
  · have hlookup : lookupKey R L key = (L₁, false) := by
      rw [lookupKey, hlook, hr]
      rfl
    rw [requestLayout_argv]
    dsimp only
    rw [ensureKey, hlookup, if_neg Bool.false_ne_true, setNew, hhelped]
  · rw [hnew]
    exact (hp₂.map HNode.payload).trans ((hp₁.map HNode.payload).cons key)

/-- The layout after any number of new keys. -/
theorem foldl_set_new {keys : List Bytes} (hwf : L.Wf) (hnd : keys.Nodup)
    (hnew : ∀ k ∈ keys, k ∉ layoutKeys L) :
    (keys.map fun k => StrOp.set k []).foldl (fun L o => requestLayout R L o.argv) L =
      keys.foldl (setNew R) L := by
  induction keys generalizing L with
  | nil => rfl
  | cons key keys ih =>
      rcases layout_set_new (R := R) hwf (hnew key List.mem_cons_self) [] with ⟨heq, hwf', hp⟩
      rw [List.nodup_cons] at hnd
      rw [List.map_cons, List.foldl_cons, List.foldl_cons, heq]
      refine ih hwf' hnd.2 fun k hk hmem => ?_
      rcases List.mem_cons.mp (hp.mem_iff.mp hmem) with rfl | hmem
      · exact hnd.1 hk
      · exact hnew k (List.mem_cons_of_mem _ hk) hmem

/-! ## The heap under `set` -/

/-- The heap did not change, and no entry lost its key or owner. -/
structure Keeps (g g' : GData) : Prop where
  heap : g'.heap = g.heap
  entries : ∀ e x, g.entries e = some x →
    ∃ x', g'.entries e = some x' ∧ x'.key = x.key ∧ x'.ownerConn = x.ownerConn

theorem Keeps.refl (g : GData) : Keeps g g := ⟨rfl, fun _ x h => ⟨x, h, rfl, rfl⟩⟩

theorem Keeps.trans {g'' : GData} (h : Keeps g g') (h' : Keeps g' g'') : Keeps g g'' where
  heap := h'.heap.trans h.heap
  entries := by
    intro e x hx
    rcases h.entries e x hx with ⟨y, hy, hkey, hown⟩
    rcases h'.entries e y hy with ⟨z, hz, hkey', hown'⟩
    exact ⟨z, hz, hkey'.trans hkey, hown'.trans hown⟩

theorem doSet_keeps (hinv : Inv R g) {c : Nat} {conn : Conn} (hc : g.conns c = some conn)
    {cmd : List Bytes} {out out' : Bytes} (hrun : doSet R g c cmd out = .ok (g', out')) :
    Keeps g g' := by
  rcases dbLookup_spec hinv.db hc (arg cmd 1) with ⟨g₁, r, hlook, hre, hr⟩
  simp only [doSet, hlook, ok_bind] at hrun
  cases r with
  | none =>
      rcases bind_eq_ok.mp hrun with ⟨g₂, hins, hrest⟩
      simp only [dbInsert] at hins
      rcases bind_eq_ok.mp hins with ⟨conn₁, _, hins⟩
      rcases bind_eq_ok.mp hins with ⟨db, _, hins⟩
      rw [Except.ok.injEq] at hins
      rw [Except.ok.injEq, Prod.mk.injEq] at hrest
      rw [← hrest.1, ← hins]
      refine ⟨hre.heap, fun e x hx => ⟨x, ?_, rfl, rfl⟩⟩
      -- the new entry takes a number no old entry has
      have hne : e ≠ g₁.nextEntry := by
        rintro rfl
        rw [hinv.db.fresh _ (Nat.le_of_eq hre.nextEntry.symm)] at hx
        cases hx
      rw [← hre.entries] at hx
      exact (entryNew_other hne _ _ _ _ _).trans hx
  | some s =>
      rcases hr with ⟨y, hy⟩
      have hy₁ := ((hre.holds _ _ _ _).mpr hy).entry
      simp only [entry_eq hy₁, ok_bind] at hrun
      have hre' : Keeps g g₁ := by
        refine ⟨hre.heap, fun e x hx => ⟨x, ?_, rfl, rfl⟩⟩
        rw [hre.entries, hx]
      split at hrun
      · rw [Except.ok.injEq, Prod.mk.injEq] at hrun
        rw [← hrun.1]
        exact hre'
      · rw [Except.ok.injEq, Prod.mk.injEq] at hrun
        rw [← hrun.1]
        refine hre'.trans ⟨rfl, fun e x hx => ?_⟩
        -- only the string of the entry that was found changes
        by_cases hes : e = s
        · rw [hes] at hx ⊢
          rw [hy₁, Option.some.injEq] at hx
          exact ⟨_, Function.update_self _ _ _, by rw [hx], by rw [hx]⟩
        · refine ⟨x, ?_, rfl, rfl⟩
          exact (setEntry_other hes _).trans hx

/-! ## Runs of commands -/

/-- String and TTL commands on live connections. -/
def OpsOn (g : GData) (es : List Event) : Prop :=
  ∀ e ∈ es, ∃ c, ∃ o : StrOp, ∃ now, e = .request c o.argv now ∧ Live g c

theorem argv_not_zadd (o : StrOp) : isCmd o.argv 4 "zadd" = false := by
  cases o <;> rfl

/-- A command of any client, where all of them hold strings. -/
theorem ViewOf.op (h : ViewOf R a g V) (hV : V.Strings) {c : Nat} (hlive : Live g c) (o : StrOp)
    (now : Nat) :
    ∃ g' r V', doRequest R g c o.argv now [] = .ok (g', r) ∧
      answerStep R g (.request c o.argv now) = .ok (g', framed r) ∧ SameLoop g g' ∧
      ViewOf R a g' V' ∧ V'.Strings := by
  by_cases hca : c = a
  · subst hca
    rcases clientRequest_strings (R := R) hV (argv_not_zadd o) [] now with ⟨W, q, hret, hW⟩
    rcases h.own hlive ⟨_, hret⟩ with ⟨g', V', r, hrun, hstep, hreq, hsame, h'⟩
    rcases clientRequest_reorder hreq [] with ⟨q', hreq'⟩
    rw [hret, Except.ok.injEq, Prod.mk.injEq] at hreq'
    rw [← hreq'.1] at h'
    exact ⟨g', r, W, hrun, hstep, hsame, h', hW⟩
  · rcases h.other hca hlive (argv_not_zadd o) now with ⟨g', r, hrun, hstep, hsame, h'⟩
    exact ⟨g', r, V, hrun, hstep, hsame, h', hV⟩

/-- Commands on live connections run, and keep the connections. -/
theorem ops_run {es : List Event} (h : ViewOf R a g V) (hV : V.Strings) (hes : OpsOn g es) :
    Guarded (answerStep R) (Undisturbed a) g es ∧
      ∃ g' rs V', run (answerStep R) g es = .ok (g', rs) ∧ SameLoop g g' ∧ ViewOf R a g' V' ∧
        V'.Strings := by
  induction es generalizing g V with
  | nil => exact ⟨True.intro, g, [], V, rfl, SameLoop.refl g, h, hV⟩
  | cons e es ih =>
      rcases hes e List.mem_cons_self with ⟨c, o, now, rfl, hlive⟩
      rcases h.op hV hlive o now with ⟨g₁, r, V₁, _, hstep, hsame, h₁, hV₁⟩
      have hes₁ : OpsOn g₁ es := by
        intro e he
        rcases hes e (List.mem_cons_of_mem _ he) with ⟨c, o, now, heq, hl⟩
        exact ⟨c, o, now, heq, (hsame.live c).mpr hl⟩
      rcases ih h₁ hV₁ hes₁ with ⟨hG, g', rs, V', hrun, hsame', h', hV'⟩
      refine ⟨⟨⟨hlive, fun _ => argv_not_zadd o⟩, fun s' r' hs => ?_⟩, g', framed r :: rs, V', ?_,
        hsame.trans hsame', h', hV'⟩
      · rw [hstep, Except.ok.injEq, Prod.mk.injEq] at hs
        rw [← hs.1]
        exact hG
      · rw [run_cons hstep, hrun]
        rfl

/-- Any number of `set` commands on one connection leave the heap alone. -/
theorem sets_keep {keys : List Bytes} {now : Nat} {rs : List Bytes} (h : ViewOf R a g V)
    (hV : V.Strings) (hlive : Live g a)
    (hrun : run (answerStep R) g (keys.map fun k => .request a (StrOp.set k []).argv now) =
      .ok (g', rs)) : Keeps g g' := by
  induction keys generalizing g V rs with
  | nil =>
      simp only [List.map_nil, run, Except.ok.injEq, Prod.mk.injEq] at hrun
      rw [hrun.1]
      exact Keeps.refl g'
  | cons key keys ih =>
      rcases run_cons_eq_ok hrun with ⟨g₁, r, rs', hstep, hrest, _⟩
      rcases h.op hV hlive (.set key []) now with ⟨g₂, r₂, V₂, hset, hstep₂, hsame, h₂, hV₂⟩
      have heq := hstep.symm.trans hstep₂
      rw [Except.ok.injEq, Prod.mk.injEq] at heq
      rw [← heq.1] at hset hsame h₂
      rcases hlive with ⟨conn, hc⟩
      exact (doSet_keeps h.inv hc hset).trans (ih h₂ hV₂ ((hsame.live a).mpr ⟨conn, hc⟩) hrest)

/-! ## A sweep of two keys -/

/-- A sweep that finds two keys of the client due, one of them at the root of
    the heap, deletes that one first. -/
theorem ViewOf.sweep_two (h : ViewOf R a g V) {K : Keyspace} (hK : Views g K) (hV : K.view a = V)
    {now d : Nat} {es : List (Nat × Nat × Nat)} (hsw : Swept now g es g')
    (hm : Moved R g g' K (K.expire now)) (hL : LayoutIs g a L) {first second : Bytes}
    (hne : first ≠ second)
    (hdue : ∀ k d', V.dueAt now k = some d' ↔ (k = first ∨ k = second) ∧ d' = d)
    {e : Nat} {x : Entry} (hroot : g.heap.head? = some ⟨d, some e⟩) (hx : g.entries e = some x)
    (hkey : x.key = first) (hown : x.ownerConn = some a) :
    LayoutIs g' a (deleteKeys R L [first, second]) := by
  -- the root goes first, so its key comes first in the list
  rcases hsw.due_keys h.inv hK hm hL with ⟨ks, hL', hsorted, hmem, hhead⟩
  rw [hV] at hmem
  have hstored : Stored g a e := by
    have hitem : g.heap[0]? = some ⟨d, some e⟩ := by
      rw [← List.head?_eq_getElem?, hroot]
    rcases h.inv.heap.indexed.back 0 _ hitem with ⟨e', he', hidx⟩
    rw [Option.some.injEq] at he'
    rw [← he'] at hidx
    rcases h.inv.heap.stored hidx with ⟨c, hs⟩
    have hc := h.inv.db.owner hs hx
    rw [hown, Option.some.injEq] at hc
    rw [hc]
    exact hs
  -- what is swept is the two keys, each once, with the one deadline
  have hin : ∀ y, y ∈ ks ↔ (y.1 = first ∨ y.1 = second) ∧ y.2 = d :=
    fun y => (hmem y).trans (hdue y.1 y.2)
  have hfirst := (hin (first, d)).mpr ⟨Or.inl rfl, rfl⟩
  have hsecond := (hin (second, d)).mpr ⟨Or.inr rfl, rfl⟩
  have hks : ks.map Prod.fst = [first, second] := by
    cases ks with
    | nil => exact absurd hfirst List.not_mem_nil
    | cons b ks =>
        have hb : b.1 = first := by
          rw [hhead d e hroot hstored b rfl, keyOf, hx]
          exact hkey
        rw [List.pairwise_cons] at hsorted
        -- What follows the first key is the second one, once.
        have hrest : ∀ y ∈ ks, y.1 = second := by
          intro y hy
          rcases ((hin y).mp (List.mem_cons_of_mem _ hy)).1 with h | h
          · exact absurd (hb.trans h.symm) (hsorted.1 y hy).1
          · exact h
        cases ks with
        | nil =>
            rw [List.mem_singleton] at hsecond
            rw [← hb, ← hsecond] at hne
            exact absurd rfl hne
        | cons b' ks =>
            cases ks with
            | nil => rw [List.map_cons, List.map_cons, List.map_nil, hb, hrest b' List.mem_cons_self]
            | cons b'' ks =>
                have h' := hrest b' List.mem_cons_self
                have h'' := hrest b'' (List.mem_cons_of_mem _ List.mem_cons_self)
                rw [List.pairwise_cons] at hsorted
                exact absurd (h'.trans h''.symm) (hsorted.2.1 b'' List.mem_cons_self).1
  rw [hks] at hL'
  exact hL'

/-! ## Commands in the client's specification -/

/-- What the client holds, and its layout, after commands. -/
theorem foldl_layoutSpec (R : Runtime) (now : Nat) (os : List StrOp) (t : HMap Bytes × View) :
    (os.map fun o => OwnEvent.ask o.argv now).foldl (layoutSpec R).next t =
      (os.foldl (fun L o => requestLayout R L o.argv) t.1,
        os.foldl (fun V o => (clientSpec R).next V (.ask o.argv now)) t.2) := by
  induction os generalizing t with
  | nil => rfl
  | cons o os ih =>
      rw [List.map_cons, List.foldl_cons, ih]
      rfl

/-- What the client holds after `set` and `pexpire`. -/
theorem next_set (R : Runtime) (V : View) (key val : Bytes) (now : Nat) :
    (clientSpec R).next V (.ask (StrOp.set key val).argv now) =
      Function.update V key (some (unowned (setValue R 0 key val (V key)))) := rfl

theorem next_pexpire (R : Runtime) (V : View) {key ttl : Bytes} {ttlMs : Int}
    (harg : str2int ttl = some ttlMs) (now : Nat) :
    (clientSpec R).next V (.ask (StrOp.pexpire key ttl).argv now) =
      Function.update V key ((V key).map fun v => (v.1, dueAfter ttlMs now)) := by
  have hreq : clientRequest R V (StrOp.pexpire key ttl).argv [] now =
      .ok (clientExpire V (StrOp.pexpire key ttl).argv now) := rfl
  have harg' : str2int (arg (StrOp.pexpire key ttl).argv 2) = some ttlMs := harg
  rw [clientExpire] at hreq
  simp only [harg'] at hreq
  exact clientSpec_next hreq

/-- String and TTL commands on strings return. -/
theorem ops_admits (os : List StrOp) (now : Nat) {V : View} (hV : V.Strings) :
    (clientSpec R).Admits V (os.map fun o => OwnEvent.ask o.argv now) := by
  induction os generalizing V with
  | nil => exact True.intro
  | cons o os ih =>
      rcases clientRequest_strings (R := R) hV (argv_not_zadd o) [] now with ⟨W, q, hret, hW⟩
      refine ⟨⟨_, hret⟩, ?_⟩
      rw [clientSpec_next hret]
      exact ih hW

/-- A `set` keeps every deadline. -/
theorem foldl_set_dueAt (R : Runtime) (keys : List Bytes) (V : View) (t now : Nat) (k : Bytes) :
    View.dueAt ((keys.map fun k => StrOp.set k []).foldl
        (fun V o => (clientSpec R).next V (.ask o.argv t)) V) now k = V.dueAt now k := by
  induction keys generalizing V with
  | nil => rfl
  | cons key keys ih =>
      rw [List.map_cons, List.foldl_cons, ih, View.dueAt, View.dueAt, next_set]
      by_cases hk : k = key
      · have hsnd : (unowned (setValue R 0 key [] (V key))).2 = (V key).bind Prod.snd :=
          setValue_snd R 0 key [] (V key)
        rw [hk, Function.update_self, Option.bind_some, hsnd]
      · rw [Function.update_of_ne hk]

/-! ## The replies to `keys` -/

theorem outKeys_eq (l : List Bytes) :
    outKeys [] l = outArr [] l.length ++ l.flatMap (outStr []) := by
  have hfold : ∀ out : Bytes, l.foldl outStr out = out ++ l.flatMap (outStr []) := by
    induction l with
    | nil => intro out; rw [List.foldl_nil, List.flatMap_nil, List.append_nil]
    | cons k l ih =>
        intro out
        rw [List.foldl_cons, ih, List.flatMap_cons]
        simp only [outStr, List.nil_append, List.append_assoc]
  exact hfold _

/-- Lists of keys with the same encoding are equal. -/
theorem outKeys_injective {l l' : List Bytes} (h : ∀ k ∈ l, k.length < 2 ^ 32)
    (h' : ∀ k ∈ l', k.length < 2 ^ 32) (heq : outKeys [] l = outKeys [] l') : l = l' := by
  rw [outKeys_eq, outKeys_eq] at heq
  have hbody : l.flatMap (outStr []) = l'.flatMap (outStr []) := by
    refine (List.append_inj heq ?_).2
    simp only [outArr, List.length_append, length_le32]
  clear heq
  -- each string carries its length in four bytes, which tells where it ends
  induction l generalizing l' with
  | nil =>
      cases l' with
      | nil => rfl
      | cons k' l' =>
          rw [List.flatMap_nil, List.flatMap_cons] at hbody
          exact absurd hbody (by simp only [outStr, List.nil_append, List.cons_append, reduceCtorEq,
            not_false_eq_true])
  | cons k l ih =>
      cases l' with
      | nil =>
          rw [List.flatMap_nil, List.flatMap_cons] at hbody
          exact absurd hbody (by simp only [outStr, List.nil_append, List.cons_append, reduceCtorEq,
            not_false_eq_true])
      | cons k' l' =>
          simp only [List.flatMap_cons, outStr, List.nil_append, List.cons_append, List.append_assoc,
            List.cons.injEq, true_and] at hbody
          rcases List.append_inj hbody (by rw [length_le32, length_le32]) with ⟨hlen, hrest⟩
          have hk := h k List.mem_cons_self
          have hk' := h' k' List.mem_cons_self
          have hlen' : k.length = k'.length := by
            rw [← leNat_leBytes_of_lt (k := 4) hk, ← leNat_leBytes_of_lt (k := 4) hk']
            exact congrArg leNat hlen
          rcases List.append_inj hrest hlen' with ⟨rfl, htail⟩
          rw [ih (fun x hx => h x (List.mem_cons_of_mem _ hx))
            (fun x hx => h' x (List.mem_cons_of_mem _ hx)) htail]

/-- At most 512 keys, of at most two bytes each. -/
def Short (l : List Bytes) : Prop := l.length ≤ 512 ∧ ∀ k ∈ l, k.length ≤ 2

instance (l : List Bytes) : Decidable (Short l) := inferInstanceAs (Decidable (_ ∧ _))

/-- Few short keys fit in a response. -/
theorem Short.framed {l : List Bytes} (h : Short l) :
    RedisServer.framed (outKeys [] l) = responseFrame (outKeys [] l) := by
  have hsum : ∀ l : List Bytes, (∀ k ∈ l, k.length ≤ 2) →
      (l.map fun k => 5 + k.length).sum ≤ 7 * l.length := by
    intro l hl
    induction l with
    | nil => exact Nat.le_refl 0
    | cons k l ih =>
        have hk := hl k List.mem_cons_self
        have hrest := ih fun k' hk' => hl k' (List.mem_cons_of_mem _ hk')
        rw [List.map_cons, List.sum_cons, List.length_cons]
        omega
  have hlen := h.1
  have hall := hsum l h.2
  rw [RedisServer.framed, capped, if_neg]
  rw [length_outKeys, kMaxMsg]
  omega

/-- So the response shows their order. -/
theorem framed_keys_injective {l l' : List Bytes} (h : Short l) (h' : Short l')
    (heq : framed (outKeys [] l) = framed (outKeys [] l')) : l = l' := by
  rw [h.framed, h'.framed, responseFrame, responseFrame] at heq
  refine outKeys_injective (fun k hk => (h.2 k hk).trans_lt (by decide))
    (fun k hk => (h'.2 k hk).trans_lt (by decide)) (List.append_inj heq ?_).2
  rw [length_le32, length_le32]

/-- A command keeps a layout well formed. -/
theorem layout_wf (hwf : L.Wf) (o : StrOp) : (requestLayout R L o.argv).Wf := by
  -- every command is a lookup, an insertion or a deletion by key
  have hlookup : ∀ key, (lookupKey R L key).1.Wf := by
    intro key
    have hans : Answers (keyEq key) (fun k => k == key) (R.strHash key) L.nodes := fun _ _ _ => rfl
    rcases hmLookup_spec hwf hans with ⟨L₁, r, hlook, hwf₁, _⟩
    rw [lookupKey, hlook]
    exact hwf₁
  have hinsert : ∀ (L' : HMap Bytes) key, L'.Wf → (insertKey R L' key).Wf := by
    intro L' key hwf'
    rcases hmInsert_spec hwf' ⟨R.strHash key, key⟩ with ⟨L₂, hins, hwf₂, _⟩
    rw [insertKey, hins]
    exact hwf₂
  rw [requestLayout_argv]
  cases o with
  | get key => exact hlookup key
  | set key val =>
      dsimp only
      rw [ensureKey]
      split
      · exact hlookup key
      · exact hinsert _ key (hlookup key)
  | del key =>
      have hans : Answers (keyEq key) (fun k => k == key) (R.strHash key) L.nodes :=
        fun _ _ _ => rfl
      rcases hmDelete_spec hwf hans with ⟨L₁, r, hdel, hwf₁, _⟩
      dsimp only
      rw [deleteKey, hdel]
      exact hwf₁
  | pexpire key ttl =>
      dsimp only
      split
      · exact hwf
      · exact hlookup key
  | pttl key => exact hlookup key
  | keys => exact hwf

end

/-! ## Evaluation

A fold over many keys builds a term that is evaluated from the outside. The
folds below evaluate each part of the list before the next one. -/

section

variable {α β γ : Type}

/-- Continue with a list that is evaluated to its end. -/
def forceList : List α → (List α → β) → β
  | [], k => k []
  | a :: l, k => forceList l fun l' => k (a :: l')

/-- Continue with chains that are evaluated to their ends. -/
def forceChains : List (List α) → (List (List α) → β) → β
  | [], k => k []
  | chain :: l, k => forceList chain fun chain' => forceChains l fun l' => k (chain' :: l')

/-- Continue with a number that is evaluated. -/
def forceNat (n : Nat) (k : Nat → β) : β :=
  match n with
  | 0 => k 0
  | n + 1 => k (n + 1)

/-- Continue with a table that is evaluated. -/
def HTab.force (t : HTab α) (k : HTab α → β) : β :=
  forceChains t.tab fun tab => forceNat t.mask fun mask => forceNat t.size fun size =>
    k { tab, mask, size }

/-- Continue with a map that is evaluated. -/
def HMap.force (m : HMap α) (k : HMap α → β) : β :=
  m.newer.force fun newer => m.older.force fun older => forceNat m.migratePos fun migratePos =>
    k { newer, older, migratePos }

/-- A fold in parts, each of which is evaluated before the next one. -/
def foldForced (f : HMap α → γ → HMap α) : List (List γ) → HMap α → (HMap α → β) → β
  | [], m, k => k m
  | part :: parts, m, k => (part.foldl f m).force fun m' => foldForced f parts m' k

theorem forceList_eq (l : List α) (k : List α → β) : forceList l k = k l := by
  induction l generalizing k with
  | nil => rfl
  | cons a l ih => rw [forceList, ih]

theorem forceChains_eq (l : List (List α)) (k : List (List α) → β) : forceChains l k = k l := by
  induction l generalizing k with
  | nil => rfl
  | cons chain l ih => rw [forceChains, forceList_eq, ih]

theorem forceNat_eq (n : Nat) (k : Nat → β) : forceNat n k = k n := by
  cases n with
  | zero => rfl
  | succ n => rfl

theorem HMap.force_eq (m : HMap α) (k : HMap α → β) : m.force k = k m := by
  simp only [HMap.force, HTab.force, forceChains_eq, forceNat_eq]

theorem foldForced_eq (f : HMap α → γ → HMap α) (parts : List (List γ)) (m : HMap α)
    (k : HMap α → β) : foldForced f parts m k = k (parts.flatten.foldl f m) := by
  induction parts generalizing m with
  | nil => rfl
  | cons part parts ih =>
      rw [foldForced, HMap.force_eq, ih, List.flatten_cons, List.foldl_append]

end

/-! ## The two runs -/

/-- Key number `i` of the 512 two-byte keys whose hash code selects slot 0 of
    every table of up to 128 slots: the second byte makes up for the first. -/
def slotKey (i : Nat) : Bytes :=
  [UInt8.ofNat i, UInt8.ofNat (strHash [UInt8.ofNat i] % 128 + 128 * (i / 256))]

/-- The numbers of the client's other keys, in ten parts. -/
def tieParts : List (List Nat) := (List.range 10).map fun i => List.range' (51 * i + 1) 51

/-- The client's keys but the first two. -/
def tieKeys : List Bytes := (tieParts.map fun is => is.map slotKey).flatten

/-- What the client starts with: two keys with one deadline. -/
def tieOps : List StrOp :=
  [.set (ascii "x") [], .set (slotKey 0) [], .pexpire (ascii "x") (ascii "100"),
    .pexpire (slotKey 0) (ascii "100")]

/-- The sweep after the deadline, and the client's last command. -/
def tieEnd : List Event := [.sweep 200, .request 0 StrOp.keys.argv 300]

/-- A run of both clients in which commands `mid` are followed by the rest of
    the first client's commands. -/
def tieWith (mid : List Event) : List Event :=
  twoAccepts ++ (mid ++ tieKeys.map fun k => .request 0 (StrOp.set k []).argv 0) ++ tieEnd

/-- The second client does nothing. -/
def tieMid : List Event := tieOps.map fun o => .request 0 o.argv 0

/-- The second client has a key with an earlier deadline, and deletes it. -/
def tieMidTurned : List Event :=
  [.request 1 (StrOp.set (ascii "b") []).argv 0,
    .request 1 (StrOp.pexpire (ascii "b") (ascii "50")).argv 0] ++ tieMid ++
    [.request 1 (StrOp.del (ascii "b")).argv 0]

/-- The layout of the first client's table before the sweep. -/
def tieLayout : HMap Bytes :=
  tieKeys.foldl (setNew noDoubles) (tieOps.foldl (fun L o => requestLayout noDoubles L o.argv) {})

theorem slotKey_injective {i j : Nat} (hi : i < 512) (hj : j < 512) (h : slotKey i = slotKey j) :
    i = j := by
  simp only [slotKey, List.cons.injEq, and_true] at h
  have hfst : i % 256 = j % 256 := by
    have := congrArg UInt8.toNat h.1
    simpa only [UInt8.toNat_ofNat'] using this
  have hsnd := congrArg UInt8.toNat h.2
  rw [h.1] at hsnd
  simp only [UInt8.toNat_ofNat'] at hsnd
  omega

theorem tieKeys_eq : tieKeys = (List.range' 1 510).map slotKey := by
  have hparts : tieParts.flatten = List.range' 1 510 := by decide +kernel
  rw [tieKeys, ← List.map_flatten, hparts]

theorem tieKeys_nodup : tieKeys.Nodup := by
  rw [tieKeys_eq]
  refine List.Nodup.map_on (fun i hi j hj h => ?_) List.nodup_range'
  rw [List.mem_range'_1] at hi hj
  exact slotKey_injective (by omega) (by omega) h

/-- Which of the two keys a sweep deletes first shows in the order of the rest. -/
theorem tieLayout_orders :
    layoutKeys (deleteKeys noDoubles tieLayout [ascii "x", slotKey 0]) ≠
        layoutKeys (deleteKeys noDoubles tieLayout [slotKey 0, ascii "x"]) ∧
      Short (layoutKeys (deleteKeys noDoubles tieLayout [ascii "x", slotKey 0])) ∧
      Short (layoutKeys (deleteKeys noDoubles tieLayout [slotKey 0, ascii "x"])) := by
  have hrun : foldForced (setNew noDoubles) (tieParts.map fun is => is.map slotKey)
      (tieOps.foldl (fun L o => requestLayout noDoubles L o.argv) {}) (fun L =>
        decide (layoutKeys (deleteKeys noDoubles L [ascii "x", slotKey 0]) ≠
            layoutKeys (deleteKeys noDoubles L [slotKey 0, ascii "x"]) ∧
          Short (layoutKeys (deleteKeys noDoubles L [ascii "x", slotKey 0])) ∧
          Short (layoutKeys (deleteKeys noDoubles L [slotKey 0, ascii "x"])))) = true := by
    decide +kernel
  rw [foldForced_eq] at hrun
  exact of_decide_eq_true hrun

/-- The layout the first client's commands lead to. -/
theorem tieLayout_eq :
    (tieOps ++ tieKeys.map fun k => StrOp.set k []).foldl
      (fun L o => requestLayout noDoubles L o.argv) {} = tieLayout := by
  have hwf : (tieOps.foldl (fun L o => requestLayout noDoubles L o.argv) ({} : HMap Bytes)).Wf :=
    List.foldlRecOn tieOps _ HMap.wf_empty fun L hL o _ => layout_wf hL o
  have hold : ∀ k ∈ layoutKeys (tieOps.foldl (fun L o => requestLayout noDoubles L o.argv) {}),
      k = ascii "x" ∨ k = slotKey 0 := by decide +kernel
  rw [List.foldl_append, tieLayout]
  refine foldl_set_new hwf tieKeys_nodup fun k hk hmem => ?_
  rw [tieKeys_eq, List.mem_map] at hk
  rcases hk with ⟨i, hi, rfl⟩
  rw [List.mem_range'_1] at hi
  rcases hold _ hmem with h | h
  · have hlen : (2 : Nat) = 1 := congrArg List.length h
    omega
  · have := slotKey_injective (by omega) (by omega) h
    omega

/-- The keys of the first client that are due at the sweep. -/
theorem tieView_dueAt (k : Bytes) (d : Nat) :
    View.dueAt ((tieOps ++ tieKeys.map fun k => StrOp.set k []).foldl
        (fun V o => (clientSpec noDoubles).next V (.ask o.argv 0)) fun _ => none) 200 k = some d ↔
      (k = ascii "x" ∨ k = slotKey 0) ∧ d = 100 := by
  rw [List.foldl_append, foldl_set_dueAt]
  have harg : str2int (ascii "100") = some 100 := by decide +kernel
  have hduration : dueAfter 100 0 = some 100 := by decide
  have hne : slotKey 0 ≠ ascii "x" := by decide +kernel
  -- the two keys with a deadline, before the other keys are set
  have hdue : ∀ k, ((tieOps.foldl (fun V o => (clientSpec noDoubles).next V (.ask o.argv 0))
      (fun _ => none : View)) k).bind Prod.snd = if k = ascii "x" ∨ k = slotKey 0 then some 100
        else none := by
    intro k
    simp only [tieOps, List.foldl_cons, List.foldl_nil, next_set, next_pexpire _ _ harg, hduration,
      Function.update_apply, hne, hne.symm, if_true, if_false, Option.map_some]
    by_cases hs : k = slotKey 0
    · rw [if_pos hs, if_pos (Or.inr hs)]
      rfl
    · by_cases hx : k = ascii "x"
      · rw [if_neg hs, if_pos hx, if_pos (Or.inl hx)]
        rfl
      · rw [if_neg hs, if_neg hx, if_neg hs, if_neg hx, if_neg (not_or.mpr ⟨hx, hs⟩)]
        rfl
  rw [View.dueAt, hdue]
  split
  · rename_i hk
    rw [Option.filter_some, if_pos (by decide), Option.some.injEq]
    exact ⟨fun h => ⟨hk, h.symm⟩, fun h => h.2.symm⟩
  · rename_i hk
    rw [Option.filter_none]
    exact ⟨fun h => absurd h.symm (Option.some_ne_none d), fun h => absurd h.1 hk⟩

/-- The server after both clients connected. -/
def twoClients : GData :=
  match run (answerStep noDoubles) {} twoAccepts with
  | .ok (g, _) => g
  | .error _ => {}

theorem twoAccepts_run : run (answerStep noDoubles) {} twoAccepts = .ok (twoClients, [[], []]) :=
  rfl

theorem twoAccepts_guarded : Guarded (answerStep noDoubles) (Undisturbed 0) {} twoAccepts :=
  ⟨True.intro, fun _ _ _ => ⟨True.intro, fun _ _ _ => True.intro⟩⟩

theorem twoClients_view : ∃ V, ViewOf noDoubles 0 twoClients V ∧ V.Strings := by
  rcases (client_simulates noDoubles 0).run (ViewOf.init noDoubles 0) twoAccepts_guarded True.intro
    with ⟨g, rs, h, _, hview⟩
  rw [twoAccepts_run, Except.ok.injEq, Prod.mk.injEq] at h
  rw [h.1]
  exact ⟨_, hview, fun _ _ h => nomatch h⟩

/-- Commands of the two clients. -/
theorem ops_of_mem {es : List Event}
    (h : ∀ e ∈ es, ∃ o : StrOp, e = .request 0 o.argv 0 ∨ e = .request 1 o.argv 0) :
    OpsOn twoClients es := by
  intro e he
  rcases h e he with ⟨o, rfl | rfl⟩
  · exact ⟨0, o, 0, rfl, _, rfl⟩
  · exact ⟨1, o, 0, rfl, _, rfl⟩

theorem twoClients_active (c : Nat) (conn : Conn) (h : twoClients.conns c = some conn) :
    conn.lastActiveMs = 0 := by
  have hall : ∀ c, (twoClients.conns c).map Conn.lastActiveMs = if c < 2 then some 0 else none := by
    intro c
    match c with
    | 0 => rfl
    | 1 => rfl
    | c + 2 => rfl
  have hc := hall c
  rw [h, Option.map_some] at hc
  split at hc
  · exact Option.some.inj hc
  · cases hc

/-- No connection is idle at the sweep. -/
theorem noneIdle_of_sameLoop {g : GData} (h : SameLoop twoClients g) : NoneIdle g 200 := by
  intro c conn hc
  have hio := h.io c
  rw [hc, Option.map_some] at hio
  rcases Option.map_eq_some_iff.mp hio.symm with ⟨conn', hc', heq⟩
  have hlast : conn.io.lastActiveMs = conn'.io.lastActiveMs := by rw [heq]
  have hlast : conn.lastActiveMs = conn'.lastActiveMs := hlast
  rw [Idle, hlast, twoClients_active c conn' hc']
  decide

/-- The sweep deletes the key at the root first, and `keys` shows it. -/
theorem tieEnd_run {g : GData} {V : View} (h : ViewOf noDoubles 0 g V) (hV : V.Strings)
    (hloop : SameLoop twoClients g) (hL : LayoutIs g 0 tieLayout) {first second : Bytes}
    (hne : first ≠ second)
    (hdue : ∀ k d, V.dueAt 200 k = some d ↔ (k = first ∨ k = second) ∧ d = 100)
    {e : Nat} {x : Entry} (hroot : g.heap.head? = some ⟨100, some e⟩)
    (hlen : g.heap.length ≤ kMaxWorks) (hx : g.entries e = some x) (hkey : x.key = first)
    (hown : x.ownerConn = some 0) :
    Guarded (answerStep noDoubles) (Undisturbed 0) g tieEnd ∧
      ∃ g', run (answerStep noDoubles) g tieEnd = .ok (g', [[],
        framed (outKeys [] (layoutKeys (deleteKeys noDoubles tieLayout [first, second])))]) := by
  -- few enough keys are due for one sweep to take them all
  have hcap : dueCount g 200 ≤ kMaxWorks := List.countP_le_length.trans hlen
  rcases h.sweep (noneIdle_of_sameLoop hloop) hcap (hV.frees 200) with
    ⟨g', es, K, hstep, h', hK, hKV, hsw, hm⟩
  rcases h.sweep_two hK hKV hsw hm hL hne hdue hroot hx hkey hown with ⟨conn, hc, hconn⟩
  have hdo : doRequest noDoubles g' 0 StrOp.keys.argv 300 [] = .ok (g', outKeys []
      (layoutKeys (deleteKeys noDoubles tieLayout [first, second]))) := by
    rw [LayoutIs.keys ⟨conn, hc, hconn⟩]
    exact (doRequest_argv noDoubles g' 0 .keys 300 []).trans (doKeys_spec h'.inv hc [])
  have hkeys := (h'.answer hc hdo).1
  refine ⟨⟨⟨noneIdle_of_sameLoop hloop, hcap⟩, fun s r hs => ⟨?_, fun _ _ _ => True.intro⟩⟩,
    g', ?_⟩
  · rw [hstep, Except.ok.injEq, Prod.mk.injEq] at hs
    rw [← hs.1]
    exact ⟨⟨conn, hc⟩, fun h => absurd rfl h⟩
  · rw [tieEnd, run_cons hstep, run_cons hkeys]
    rfl

/-- The run with `mid` as its start, up to the last reply. -/
theorem tieWith_run {mid : List Event} (hmid : OpsOn twoClients mid)
    (hobs : observed (Event.seenBy 0) mid = tieOps.map fun o => OwnEvent.ask o.argv 0)
    {first second : Bytes} (hne : first ≠ second)
    (hkeys : ∀ k, (k = ascii "x" ∨ k = slotKey 0) ↔ (k = first ∨ k = second)) {e : Nat}
    (hroot : ∀ g rs, run (answerStep noDoubles) twoClients mid = .ok (g, rs) →
      g.heap.head? = some ⟨100, some e⟩ ∧ g.heap.length ≤ kMaxWorks ∧
      ∃ x, g.entries e = some x ∧ x.key = first ∧ x.ownerConn = some 0) :
    Guarded (answerStep noDoubles) (Undisturbed 0) {} (tieWith mid) ∧
      ∃ g rs qs, run (answerStep noDoubles) {} (tieWith mid) = .ok (g, rs) ∧
        observedReplies (Event.seenBy 0) (tieWith mid) rs = qs ++ [[],
          framed (outKeys [] (layoutKeys (deleteKeys noDoubles tieLayout [first, second])))] := by
  rcases twoClients_view with ⟨V₀, h₀, hV₀⟩
  -- The commands of both clients, and then the first client's other keys.
  rcases ops_run h₀ hV₀ hmid with ⟨hG₁, g₁, rs₁, V₁, hrun₁, hsame₁, h₁, hV₁⟩
  have hlive₁ : Live g₁ 0 := (hsame₁.live 0).mpr ⟨_, rfl⟩
  have hfill : OpsOn g₁ (tieKeys.map fun k => .request 0 (StrOp.set k []).argv 0) := by
    intro e he
    rcases List.mem_map.mp he with ⟨k, _, rfl⟩
    exact ⟨0, .set k [], 0, rfl, hlive₁⟩
  rcases ops_run h₁ hV₁ hfill with ⟨hG₂, g₂, rs₂, V₂, hrun₂, hsame₂, h₂, hV₂⟩
  have hG : Guarded (answerStep noDoubles) (Undisturbed 0) {}
      (twoAccepts ++ (mid ++ tieKeys.map fun k => .request 0 (StrOp.set k []).argv 0)) := by
    refine guarded_append twoAccepts_guarded fun t rs h => ?_
    rw [twoAccepts_run, Except.ok.injEq, Prod.mk.injEq] at h
    rw [← h.1]
    refine guarded_append hG₁ fun t rs h => ?_
    rw [hrun₁, Except.ok.injEq, Prod.mk.injEq] at h
    rw [← h.1]
    exact hG₂
  have hrun : run (answerStep noDoubles) {}
      (twoAccepts ++ (mid ++ tieKeys.map fun k => .request 0 (StrOp.set k []).argv 0)) =
        .ok (g₂, [[], []] ++ (rs₁ ++ rs₂)) := by
    rw [run_append _ twoAccepts_run, run_append _ hrun₁, hrun₂]
    rfl
  -- What the first client is shown of it determines what it holds and its layout.
  have hseen : observed (Event.seenBy 0)
      (twoAccepts ++ (mid ++ tieKeys.map fun k => .request 0 (StrOp.set k []).argv 0)) =
        (tieOps ++ tieKeys.map fun k => StrOp.set k []).map fun o => OwnEvent.ask o.argv 0 := by
    have hsets : observed (Event.seenBy 0)
        (tieKeys.map fun k => Event.request 0 (StrOp.set k []).argv 0) =
          tieKeys.map fun k => OwnEvent.ask (StrOp.set k []).argv 0 := by
      rw [observed, List.filterMap_map, ← List.filterMap_eq_map]
      rfl
    rw [observed, List.filterMap_append, List.filterMap_append]
    rw [observed] at hobs hsets
    rw [hobs, hsets, List.map_append, List.map_map]
    rfl
  have hadmits : (layoutSpec noDoubles).Admits ({}, fun _ => none)
      (observed (Event.seenBy 0)
        (twoAccepts ++ (mid ++ tieKeys.map fun k => .request 0 (StrOp.set k []).argv 0))) := by
    rw [hseen]
    exact layoutSpec_admits {} (ops_admits _ _ fun _ x h => absurd h.symm (Option.some_ne_none x))
      (Spec.admits_of_forall (fun e he t => by
        rcases List.mem_map.mp he with ⟨o, _, rfl⟩
        exact True.intro) _)
  rcases (layout_simulates noDoubles 0).run ⟨Or.inl ⟨rfl, rfl⟩, ViewOf.init noDoubles 0⟩ hG
    hadmits with ⟨g₃, rs₃, h₃, _, hL, h₃'⟩
  rw [hrun, Except.ok.injEq, Prod.mk.injEq] at h₃
  rw [← h₃.1] at hL h₃'
  rw [hseen, foldl_layoutSpec] at hL h₃'
  dsimp only at hL h₃'
  rw [tieLayout_eq] at hL
  have hloop := hsame₁.trans hsame₂
  have hlive₂ : Live g₂ 0 := (hsame₂.live 0).mpr hlive₁
  -- The root of the heap is as it was before the last keys.
  rcases hroot g₁ rs₁ hrun₁ with ⟨hhead, hlen, x, hx, hkey, hown⟩
  have hkeep := sets_keep h₁ hV₁ hlive₁ hrun₂
  rcases hkeep.entries e x hx with ⟨x', hx', hkey', hown'⟩
  have hV₂' := h₂.unique h₃'
  have hdue : ∀ k d, V₂.dueAt 200 k = some d ↔ (k = first ∨ k = second) ∧ d = 100 := by
    intro k d
    rw [hV₂', ← hkeys]
    exact tieView_dueAt k d
  rcases tieEnd_run h₂ hV₂ hloop (hL.live hlive₂) hne hdue (by rw [hkeep.heap, hhead])
    (by rw [hkeep.heap]; exact hlen) hx' (hkey'.trans hkey) (hown'.trans hown) with
    ⟨hGend, g', hrunend⟩
  have hfull := run_append tieEnd hrun
  rw [hrunend] at hfull
  refine ⟨guarded_append hG fun t rs h => ?_, g', _,
    observedReplies (Event.seenBy 0)
      (twoAccepts ++ (mid ++ tieKeys.map fun k => .request 0 (StrOp.set k []).argv 0))
      ([[], []] ++ (rs₁ ++ rs₂)), hfull, ?_⟩
  · rw [hrun, Except.ok.injEq, Prod.mk.injEq] at h
    rw [← h.1]
    exact hGend
  · rw [tieWith, observedReplies_append _ (length_of_run hrun)]
    rfl

/-- The second client does nothing. -/
def tieRun : List Event := tieWith tieMid

/-- The second client turns the heap around. -/
def tieRunTurned : List Event := tieWith tieMidTurned

theorem tieMid_root (g : GData) (rs : List Bytes)
    (h : run (answerStep noDoubles) twoClients tieMid = .ok (g, rs)) :
    g.heap.head? = some ⟨100, some 0⟩ ∧ g.heap.length ≤ kMaxWorks ∧
      ∃ x, g.entries 0 = some x ∧ x.key = ascii "x" ∧ x.ownerConn = some 0 := by
  have hheap : (run (answerStep noDoubles) twoClients tieMid).toOption.map (fun r => r.1.heap) =
      some [⟨100, some 0⟩, ⟨100, some 1⟩] := by decide +kernel
  have hentry : (run (answerStep noDoubles) twoClients tieMid).toOption.bind
      (fun r => (r.1.entries 0).map fun x => (x.key, x.ownerConn)) =
      some (ascii "x", some 0) := by decide +kernel
  rw [h] at hheap hentry
  rcases Option.map_eq_some_iff.mp hentry with ⟨x, hx, heq⟩
  rw [Prod.mk.injEq] at heq
  rw [show g.heap = _ from Option.some.inj hheap]
  exact ⟨rfl, by decide, x, hx, heq.1, heq.2⟩

theorem tieMidTurned_root (g : GData) (rs : List Bytes)
    (h : run (answerStep noDoubles) twoClients tieMidTurned = .ok (g, rs)) :
    g.heap.head? = some ⟨100, some 2⟩ ∧ g.heap.length ≤ kMaxWorks ∧
      ∃ x, g.entries 2 = some x ∧ x.key = slotKey 0 ∧ x.ownerConn = some 0 := by
  have hheap : (run (answerStep noDoubles) twoClients tieMidTurned).toOption.map (fun r => r.1.heap) =
      some [⟨100, some 2⟩, ⟨100, some 1⟩] := by decide +kernel
  have hentry : (run (answerStep noDoubles) twoClients tieMidTurned).toOption.bind
      (fun r => (r.1.entries 2).map fun x => (x.key, x.ownerConn)) =
      some (slotKey 0, some 0) := by decide +kernel
  rw [h] at hheap hentry
  rcases Option.map_eq_some_iff.mp hentry with ⟨x, hx, heq⟩
  rw [Prod.mk.injEq] at heq
  rw [show g.heap = _ from Option.some.inj hheap]
  exact ⟨rfl, by decide, x, hx, heq.1, heq.2⟩

/-- Two runs that treat the first client alike, in which no connection is
    destroyed and no sweep stops at its limit. The replies to the client's
    `keys` differ. -/
theorem keys_order_turned :
    Guarded (answerStep noDoubles) (Undisturbed 0) {} tieRun ∧
      Guarded (answerStep noDoubles) (Undisturbed 0) {} tieRunTurned ∧
      observed (Event.seenBy 0) tieRun = observed (Event.seenBy 0) tieRunTurned ∧
      ∃ g rs g' rs', run (answerStep noDoubles) {} tieRun = .ok (g, rs) ∧
        run (answerStep noDoubles) {} tieRunTurned = .ok (g', rs') ∧
        observedReplies (Event.seenBy 0) tieRun rs ≠
          observedReplies (Event.seenBy 0) tieRunTurned rs' := by
  have hseen : observed (Event.seenBy 0) tieMid = tieOps.map fun o => OwnEvent.ask o.argv 0 := rfl
  have hseen' : observed (Event.seenBy 0) tieMidTurned =
      tieOps.map fun o => OwnEvent.ask o.argv 0 := rfl
  have hne : ascii "x" ≠ slotKey 0 := by decide +kernel
  -- the second run differs in the other client's commands only
  have hops : OpsOn twoClients tieMid := by
    refine ops_of_mem fun e he => ?_
    rcases List.mem_map.mp he with ⟨o, _, rfl⟩
    exact ⟨o, Or.inl rfl⟩
  have hops' : OpsOn twoClients tieMidTurned := by
    refine ops_of_mem fun e he => ?_
    rw [tieMidTurned, List.mem_append, List.mem_append, List.mem_singleton, List.mem_cons,
      List.mem_singleton] at he
    rcases he with ((rfl | rfl) | he) | rfl
    · exact ⟨_, Or.inr rfl⟩
    · exact ⟨_, Or.inr rfl⟩
    · rcases List.mem_map.mp he with ⟨o, _, rfl⟩
      exact ⟨o, Or.inl rfl⟩
    · exact ⟨_, Or.inr rfl⟩
  rcases tieWith_run hops hseen hne (fun _ => Iff.rfl) tieMid_root with
    ⟨hG, g, rs, qs, hrun, hrs⟩
  rcases tieWith_run hops' hseen' hne.symm (fun _ => Or.comm) tieMidTurned_root with
    ⟨hG', g', rs', qs', hrun', hrs'⟩
  refine ⟨hG, hG', ?_, g, rs, g', rs', hrun, hrun', fun heq => ?_⟩
  · simp only [tieRun, tieRunTurned, tieWith, observed, List.filterMap_append] at hseen hseen' ⊢
    rw [hseen, hseen']
  · -- The last replies are the lists of keys in the two orders.
    rw [tieRun] at heq
    rw [tieRunTurned] at heq
    rw [hrs, hrs'] at heq
    have hlast := congrArg List.getLast? heq
    rw [List.getLast?_append, List.getLast?_append] at hlast
    have hkeys := Option.some.inj hlast
    rcases tieLayout_orders with ⟨hdiff, hshort, hshort'⟩
    exact hdiff (framed_keys_injective hshort hshort' hkeys)

end RedisServer
