import RedisServer.Theory.Server.Step
import RedisServer.Theory.Zset.Kept

/-!
# The Entries of Any Run

What the values of all entries have in common, at every moment of a run:
every sorted set is one that calls which returned have left, the shared empty
set is empty, and every string was given by a `set`. It holds whatever
connections come and go, so it is stated about memory and not about keys.

## Main definitions

* `StoresOk`: The values in memory.
* `WellFormed`: The sorted sets that keys hold are well-formed.

## Theorems

* `doRequest_stores`, `serverStep_stores`, `stores_of_run`: Any command, any
  event and any run.
-/

namespace RedisServer

open Lib

/-- Every sorted set is a set of a run, every string satisfies `Q`, and the
    shared empty set is empty. -/
structure StoresOk (R : Runtime) (Q : Bytes → Prop) (g : GData) : Prop where
  entries : ∀ e x, g.entries e = some x → x.zset.Kept R ∧ Q x.str
  emptyZset : g.emptyZset = {}

/-- Entries and the shared empty set did not change. -/
structure SameStores (g g' : GData) : Prop where
  entries : g'.entries = g.entries
  emptyZset : g'.emptyZset = g.emptyZset

/-- The sorted sets that keys hold are well-formed. -/
def WellFormed (g : GData) : Prop :=
  ∀ c k e x, Holds g c k e x → x.type = .zset → x.zset.WellFormed

section

variable {R : Runtime} {Q : Bytes → Prop} {g g' : GData}

theorem storesOk_init (R : Runtime) (Q : Bytes → Prop) : StoresOk R Q {} where
  entries := nofun
  emptyZset := rfl

theorem SameStores.trans {g'' : GData} (h : SameStores g g') (h' : SameStores g' g'') :
    SameStores g g'' := ⟨h'.entries.trans h.entries, h'.emptyZset.trans h.emptyZset⟩

namespace StoresOk

theorem congr (h : StoresOk R Q g) (hs : SameStores g g') : StoresOk R Q g' where
  entries := by
    rw [hs.entries]
    exact h.entries
  emptyZset := hs.emptyZset.trans h.emptyZset

/-- An entry is written. -/
theorem set (h : StoresOk R Q g) {e : Nat} {x : Entry} (hx : x.zset.Kept R) (hq : Q x.str)
    (hentries : g'.entries = Function.update g.entries e (some x))
    (hempty : g'.emptyZset = g.emptyZset) : StoresOk R Q g' where
  entries := by
    intro s y hy
    rw [hentries, Function.update_apply] at hy
    by_cases hse : s = e
    · rw [if_pos hse, Option.some.injEq] at hy
      rw [← hy]
      exact ⟨hx, hq⟩
    · rw [if_neg hse] at hy
      exact h.entries s y hy
  emptyZset := hempty.trans h.emptyZset

/-- Entries are freed. -/
theorem free (h : StoresOk R Q g)
    (hentries : ∀ e, g'.entries e = none ∨ g'.entries e = g.entries e)
    (hempty : g'.emptyZset = g.emptyZset) : StoresOk R Q g' where
  entries := by
    intro e x hx
    rcases hentries e with hnone | hsame
    · rw [hnone] at hx
      cases hx
    · rw [hsame] at hx
      exact h.entries e x hx
  emptyZset := hempty.trans h.emptyZset

end StoresOk

/-! ## What the helpers do to memory -/

theorem dbLookup_stores {c : Nat} {key : Bytes} {r : Option Nat}
    (hrun : dbLookup R g c key = .ok (g', r)) : SameStores g g' := by
  rcases bind_eq_ok.mp hrun with ⟨conn, _, hrun⟩
  rcases bind_eq_ok.mp hrun with ⟨⟨db, node⟩, _, hrun⟩
  rw [Except.ok.injEq, Prod.mk.injEq] at hrun
  rw [← hrun.1]
  exact ⟨rfl, rfl⟩

theorem dbInsert_stores {c hcode ent : Nat} (hrun : dbInsert g c hcode ent = .ok g') :
    SameStores g g' := by
  rcases bind_eq_ok.mp hrun with ⟨conn, _, hrun⟩
  rcases bind_eq_ok.mp hrun with ⟨db, _, hrun⟩
  rw [Except.ok.injEq] at hrun
  rw [← hrun]
  exact ⟨rfl, rfl⟩

theorem entrySetTtl_stores {ent now : Nat} {ttlMs : Int}
    (hrun : entrySetTtl g ent ttlMs now = .ok g') : SameStores g g' := by
  rcases bind_eq_ok.mp hrun with ⟨x, _, hrun⟩
  by_cases hneg : ttlMs < 0
  · rw [if_pos hneg] at hrun
    cases hi : g.heapIdx ent with
    | none =>
        simp only [hi, Except.ok.injEq] at hrun
        rw [← hrun]
        exact ⟨rfl, rfl⟩
    | some pos =>
        simp only [hi] at hrun
        rcases bind_eq_ok.mp hrun with ⟨⟨heap, refs⟩, _, hrun⟩
        rw [Except.ok.injEq] at hrun
        rw [← hrun]
        exact ⟨rfl, rfl⟩
  · rw [if_neg hneg] at hrun
    rcases bind_eq_ok.mp hrun with ⟨⟨heap, refs⟩, _, hrun⟩
    rw [Except.ok.injEq] at hrun
    rw [← hrun]
    exact ⟨rfl, rfl⟩

theorem StoresOk.entryDel (h : StoresOk R Q g) {ent : Nat} (hrun : entryDel g ent = .ok g') :
    StoresOk R Q g' := by
  rcases bind_eq_ok.mp hrun with ⟨g₁, httl, hrun⟩
  have h₁ := h.congr (entrySetTtl_stores httl)
  rcases bind_eq_ok.mp hrun with ⟨x, _, hrun⟩
  by_cases hlarge : kLargeContainerSize < (if x.type = .zset then hmSize x.zset.hmap else 0)
  · rw [if_pos hlarge, Except.ok.injEq] at hrun
    rw [← hrun]
    exact h₁.congr ⟨rfl, rfl⟩
  · rw [if_neg hlarge] at hrun
    rcases bind_eq_ok.mp hrun with ⟨y, _, hrun⟩
    rcases bind_eq_ok.mp hrun with ⟨z, _, hrun⟩
    rw [Except.ok.injEq] at hrun
    rw [← hrun]
    refine h₁.free (fun e => ?_) rfl
    simp only [Function.update_apply]
    by_cases he : e = ent
    · exact Or.inl (if_pos he)
    · exact Or.inr (if_neg he)

theorem StoresOk.entryNew (h : StoresOk R Q g) (type : ValueType) (c : Nat) (key : Bytes)
    (hcode : Nat) {str : Bytes} (hq : Q str) :
    StoresOk R Q (entryNew g type c key hcode str).1 :=
  h.set (ZSet.kept_empty R) hq rfl rfl

/-! ## Commands -/

theorem expectZset_stores {c : Nat} {key : Bytes} {r : Option ZRef}
    (hrun : expectZset R g c key = .ok (g', r)) : SameStores g g' := by
  rcases bind_eq_ok.mp hrun with ⟨⟨g₁, node⟩, hlook, hrun⟩
  have h₁ := dbLookup_stores hlook
  cases node with
  | none =>
      simp only [Except.ok.injEq, Prod.mk.injEq] at hrun
      rw [← hrun.1]
      exact h₁
  | some ent =>
      rcases bind_eq_ok.mp hrun with ⟨x, _, hrun⟩
      rw [Except.ok.injEq, Prod.mk.injEq] at hrun
      rw [← hrun.1]
      exact h₁

theorem StoresOk.getZset (h : StoresOk R Q g) {ref : ZRef} {z : ZSet}
    (hrun : getZset g ref = .ok z) : z.Kept R ∧ (ref = .empty → z = {}) := by
  cases ref with
  | empty =>
      rw [RedisServer.getZset, Except.ok.injEq, h.emptyZset] at hrun
      rw [← hrun]
      exact ⟨ZSet.kept_empty R, fun _ => rfl⟩
  | entry e =>
      rcases bind_eq_ok.mp hrun with ⟨x, hx, hrun⟩
      rw [Except.ok.injEq] at hrun
      rw [← hrun]
      exact ⟨(h.entries e x (entries_of_entry hx)).1, nofun⟩

theorem StoresOk.setZset (h : StoresOk R Q g) {ref : ZRef} {z : ZSet} (hz : z.Kept R)
    (hempty : ref = .empty → z = {}) (hrun : setZset g z ref = .ok g') : StoresOk R Q g' := by
  cases ref with
  | empty =>
      rw [RedisServer.setZset, Except.ok.injEq] at hrun
      rw [← hrun]
      exact ⟨h.entries, hempty rfl⟩
  | entry e =>
      rcases bind_eq_ok.mp hrun with ⟨x, hx, hrun⟩
      rw [Except.ok.injEq] at hrun
      rw [← hrun]
      exact h.set (x := { x with zset := z }) hz (h.entries e x (entries_of_entry hx)).2 rfl rfl

/-- A lookup in a set of a run. The shared empty set stays empty. -/
theorem zsetLookup_kept {z z' : ZSet} (hz : z.Kept R) {name : Bytes} {r : Option Nat}
    (hrun : zsetLookup R z name = .ok (z', r)) : z'.Kept R ∧ (z = {} → z' = {} ∧ r = none) ∧
      ∀ a, r = some a → ∃ t d, z'.Sound R t ∧ z'.data a = some d := by
  rcases hz.lookup name with ⟨m, r', hlook, h', hr⟩
  rw [hrun, Except.ok.injEq, Prod.mk.injEq] at hlook
  refine ⟨by rw [hlook.1]; exact h', ?_, by rw [hlook.1, hlook.2]; exact hr⟩
  rintro rfl
  have hempty : zsetLookup R {} name = .ok ({}, none) := rfl
  rw [hempty, Except.ok.injEq, Prod.mk.injEq] at hrun
  exact ⟨hrun.1.symm, hrun.2.symm⟩

theorem doSet_stores (h : StoresOk R Q g) {c : Nat} {cmd : List Bytes} (hset : Q (arg cmd 2))
    {out out' : Bytes} (hrun : doSet R g c cmd out = .ok (g', out')) : StoresOk R Q g' := by
  rcases bind_eq_ok.mp hrun with ⟨⟨g₁, node⟩, hlook, hrun⟩
  have h₁ := h.congr (dbLookup_stores hlook)
  cases node with
  | none =>
      rcases bind_eq_ok.mp hrun with ⟨g₂, hins, hrun⟩
      rw [Except.ok.injEq, Prod.mk.injEq] at hrun
      rw [← hrun.1]
      exact (h₁.entryNew .str c (arg cmd 1) _ hset).congr (dbInsert_stores hins)
  | some ent =>
      rcases bind_eq_ok.mp hrun with ⟨x, hx, hrun⟩
      have hz := (h₁.entries ent x (entries_of_entry hx)).1
      by_cases ht : x.type ≠ .str
      · rw [if_pos ht, Except.ok.injEq, Prod.mk.injEq] at hrun
        rw [← hrun.1]
        exact h₁
      · rw [if_neg ht, Except.ok.injEq, Prod.mk.injEq] at hrun
        rw [← hrun.1]
        exact h₁.set (x := { x with str := arg cmd 2 }) hz hset rfl rfl

theorem doZadd_stores (h : StoresOk R Q g) (hq : Q []) {c : Nat} {cmd : List Bytes}
    {out out' : Bytes} (hrun : doZadd R g c cmd out = .ok (g', out')) : StoresOk R Q g' := by
  unfold doZadd at hrun
  cases harg : str2dbl R (arg cmd 2) with
  | none =>
      simp only [harg, Except.ok.injEq, Prod.mk.injEq] at hrun
      rw [← hrun.1]
      exact h
  | some score =>
      simp only [harg] at hrun
      rcases bind_eq_ok.mp hrun with ⟨⟨g₁, node⟩, hlook, hrun⟩
      rcases bind_eq_ok.mp hrun with ⟨⟨g₂, ent⟩, htarget, hrun⟩
      have h₁ := h.congr (dbLookup_stores hlook)
      -- the target is a new entry with an empty set, or the one that was found
      have h₂ : StoresOk R Q g₂ := by
        cases node with
        | none =>
            rcases bind_eq_ok.mp htarget with ⟨g₃, hins, htarget⟩
            rw [Except.ok.injEq, Prod.mk.injEq] at htarget
            rw [← htarget.1]
            exact (h₁.entryNew .zset c (arg cmd 1) _ hq).congr (dbInsert_stores hins)
        | some e =>
            rw [zaddTarget, Except.ok.injEq, Prod.mk.injEq] at htarget
            rw [← htarget.1]
            exact h₁
      rcases bind_eq_ok.mp hrun with ⟨x, hx, hrun⟩
      rcases h₂.entries ent x (entries_of_entry hx) with ⟨hz, hstr⟩
      by_cases ht : x.type ≠ .zset
      · rw [if_pos ht, Except.ok.injEq, Prod.mk.injEq] at hrun
        rw [← hrun.1]
        exact h₂
      · rw [if_neg ht] at hrun
        rcases bind_eq_ok.mp hrun with ⟨⟨z, added⟩, hins, hrun⟩
        rw [Except.ok.injEq, Prod.mk.injEq] at hrun
        rw [← hrun.1]
        -- the set of the entry takes the member, its string stays
        exact h₂.set (x := { x with zset := z }) (hz.insert hins) hstr rfl rfl

theorem doZrem_stores (h : StoresOk R Q g) {c : Nat} {cmd : List Bytes}
    {out out' : Bytes} (hrun : doZrem R g c cmd out = .ok (g', out')) : StoresOk R Q g' := by
  rcases bind_eq_ok.mp hrun with ⟨⟨g₁, zref⟩, hexp, hrun⟩
  have h₁ := h.congr (expectZset_stores hexp)
  cases zref with
  | none =>
      rw [Except.ok.injEq, Prod.mk.injEq] at hrun
      rw [← hrun.1]
      exact h₁
  | some ref =>
      rcases bind_eq_ok.mp hrun with ⟨z, hget, hrun⟩
      rcases bind_eq_ok.mp hrun with ⟨⟨z₁, znode⟩, hlook, hrun⟩
      rcases h₁.getZset hget with ⟨hz, hempty⟩
      rcases zsetLookup_kept hz hlook with ⟨hz₁, hsame, hmember⟩
      cases znode with
      | none =>
          rcases bind_eq_ok.mp hrun with ⟨g₂, hput, hrun⟩
          rw [Except.ok.injEq, Prod.mk.injEq] at hrun
          rw [← hrun.1]
          exact h₁.setZset hz₁ (fun href => (hsame (hempty href)).1) hput
      | some node =>
          rcases bind_eq_ok.mp hrun with ⟨z₂, hdel, hrun⟩
          rcases bind_eq_ok.mp hrun with ⟨g₂, hput, hrun⟩
          rcases hmember node rfl with ⟨t, d, hsound, hd⟩
          rcases hsound.delete hd with ⟨z₃, hdel', hz₃⟩
          rw [hdel, Except.ok.injEq] at hdel'
          rw [Except.ok.injEq, Prod.mk.injEq] at hrun
          rw [← hrun.1]
          -- A member was found, so the set is not the shared one.
          refine h₁.setZset (by rw [hdel']; exact hz₃) (fun href => ?_) hput
          exact absurd (hsame (hempty href)).2 (by simp only [reduceCtorEq, not_false_eq_true])

theorem doZscore_stores (h : StoresOk R Q g) {c : Nat} {cmd : List Bytes}
    {out out' : Bytes} (hrun : doZscore R g c cmd out = .ok (g', out')) : StoresOk R Q g' := by
  rcases bind_eq_ok.mp hrun with ⟨⟨g₁, zref⟩, hexp, hrun⟩
  have h₁ := h.congr (expectZset_stores hexp)
  cases zref with
  | none =>
      rw [Except.ok.injEq, Prod.mk.injEq] at hrun
      rw [← hrun.1]
      exact h₁
  | some ref =>
      rcases bind_eq_ok.mp hrun with ⟨z, hget, hrun⟩
      rcases bind_eq_ok.mp hrun with ⟨⟨z₁, znode⟩, hlook, hrun⟩
      rcases bind_eq_ok.mp hrun with ⟨g₂, hput, hrun⟩
      rcases h₁.getZset hget with ⟨hz, hempty⟩
      rcases zsetLookup_kept hz hlook with ⟨hz₁, hsame, _⟩
      -- the lookup may move the rehash of the set on, which keeps the set
      have h₂ := h₁.setZset hz₁ (fun href => (hsame (hempty href)).1) hput
      cases znode with
      | none =>
          rw [Except.ok.injEq, Prod.mk.injEq] at hrun
          rw [← hrun.1]
          exact h₂
      | some node =>
          rcases bind_eq_ok.mp hrun with ⟨d, _, hrun⟩
          rw [Except.ok.injEq, Prod.mk.injEq] at hrun
          rw [← hrun.1]
          exact h₂

theorem doZquery_stores {c : Nat} {cmd : List Bytes} {out out' : Bytes}
    (hrun : doZquery R g c cmd out = .ok (g', out')) : SameStores g g' := by
  rcases doZquery_state hrun with rfl | ⟨r, hexp⟩
  · exact ⟨rfl, rfl⟩
  · exact expectZset_stores hexp

theorem doGet_stores {c : Nat} {cmd : List Bytes} {out out' : Bytes}
    (hrun : doGet R g c cmd out = .ok (g', out')) : SameStores g g' := by
  rcases bind_eq_ok.mp hrun with ⟨⟨g₁, node⟩, hlook, hrun⟩
  have h₁ := dbLookup_stores hlook
  cases node with
  | none =>
      rw [Except.ok.injEq, Prod.mk.injEq] at hrun
      rw [← hrun.1]
      exact h₁
  | some ent =>
      rcases bind_eq_ok.mp hrun with ⟨x, _, hrun⟩
      by_cases ht : x.type ≠ .str
      · rw [if_pos ht, Except.ok.injEq, Prod.mk.injEq] at hrun
        rw [← hrun.1]
        exact h₁
      · rw [if_neg ht, Except.ok.injEq, Prod.mk.injEq] at hrun
        rw [← hrun.1]
        exact h₁

theorem doTtl_stores {c now : Nat} {cmd : List Bytes} {out out' : Bytes}
    (hrun : doTtl R g c cmd now out = .ok (g', out')) : SameStores g g' := by
  rcases bind_eq_ok.mp hrun with ⟨⟨g₁, node⟩, hlook, hrun⟩
  have h₁ := dbLookup_stores hlook
  cases node with
  | none =>
      rw [Except.ok.injEq, Prod.mk.injEq] at hrun
      rw [← hrun.1]
      exact h₁
  | some ent =>
      rcases bind_eq_ok.mp hrun with ⟨x, _, hrun⟩
      cases hi : g₁.heapIdx ent with
      | none =>
          simp only [hi, Except.ok.injEq, Prod.mk.injEq] at hrun
          rw [← hrun.1]
          exact h₁
      | some pos =>
          simp only [hi] at hrun
          rcases bind_eq_ok.mp hrun with ⟨_, _, hrun⟩
          rw [Except.ok.injEq, Prod.mk.injEq] at hrun
          rw [← hrun.1]
          exact h₁

theorem doKeys_stores {c : Nat} {out out' : Bytes} (hrun : doKeys g c out = .ok (g', out')) :
    SameStores g g' := by
  rcases bind_eq_ok.mp hrun with ⟨conn, _, hrun⟩
  rcases bind_eq_ok.mp hrun with ⟨_, _, hrun⟩
  rcases bind_eq_ok.mp hrun with ⟨_, _, hrun⟩
  rw [Except.ok.injEq, Prod.mk.injEq] at hrun
  rw [← hrun.1]
  exact ⟨rfl, rfl⟩

theorem doExpire_stores {c now : Nat} {cmd : List Bytes} {out out' : Bytes}
    (hrun : doExpire R g c cmd now out = .ok (g', out')) : SameStores g g' := by
  unfold doExpire at hrun
  cases harg : str2int (arg cmd 2) with
  | none =>
      simp only [harg, Except.ok.injEq, Prod.mk.injEq] at hrun
      rw [← hrun.1]
      exact ⟨rfl, rfl⟩
  | some ttlMs =>
      simp only [harg] at hrun
      rcases bind_eq_ok.mp hrun with ⟨⟨g₁, node⟩, hlook, hrun⟩
      have h₁ := dbLookup_stores hlook
      cases node with
      | none =>
          rw [Except.ok.injEq, Prod.mk.injEq] at hrun
          rw [← hrun.1]
          exact h₁
      | some ent =>
          rcases bind_eq_ok.mp hrun with ⟨g₂, httl, hrun⟩
          rw [Except.ok.injEq, Prod.mk.injEq] at hrun
          rw [← hrun.1]
          exact h₁.trans (entrySetTtl_stores httl)

theorem doDel_stores (h : StoresOk R Q g) {c : Nat} {cmd : List Bytes} {out out' : Bytes}
    (hrun : doDel R g c cmd out = .ok (g', out')) : StoresOk R Q g' := by
  rcases bind_eq_ok.mp hrun with ⟨conn, _, hrun⟩
  rcases bind_eq_ok.mp hrun with ⟨⟨db, node⟩, _, hrun⟩
  have h₁ : StoresOk R Q (g.setConn c { conn with db := db }) := h.congr ⟨rfl, rfl⟩
  cases node with
  | none =>
      rw [Except.ok.injEq, Prod.mk.injEq] at hrun
      rw [← hrun.1]
      exact h₁
  | some n =>
      rcases bind_eq_ok.mp hrun with ⟨g₂, hdel, hrun⟩
      rw [Except.ok.injEq, Prod.mk.injEq] at hrun
      rw [← hrun.1]
      exact h₁.entryDel hdel

/-- Any command, where it returns, leaves such values. -/
theorem doRequest_stores (h : StoresOk R Q g) (hq : Q []) {c now : Nat} {cmd : List Bytes}
    (hset : isCmd cmd 3 "set" = true → Q (arg cmd 2)) {out out' : Bytes}
    (hrun : doRequest R g c cmd now out = .ok (g', out')) : StoresOk R Q g' := by
  revert hrun
  refine doRequest_elim (Q := fun r => r = .ok (g', out') → StoresOk R Q g') ?get ?set ?del ?expire
    ?ttl ?keys ?zadd ?zrem ?zscore ?zquery ?quit ?unknown
  -- the commands that only read store nothing
  case get => exact fun _ hrun => h.congr (doGet_stores hrun)
  case set => exact fun hcmd => doSet_stores h (hset hcmd)
  case del => exact fun _ => doDel_stores h
  case expire => exact fun _ hrun => h.congr (doExpire_stores hrun)
  case ttl => exact fun _ hrun => h.congr (doTtl_stores hrun)
  case keys => exact fun _ hrun => h.congr (doKeys_stores hrun)
  case zadd => exact fun _ => doZadd_stores h hq
  case zrem => exact fun _ => doZrem_stores h
  case zscore => exact fun _ => doZscore_stores h
  case zquery => exact fun _ hrun => h.congr (doZquery_stores hrun)
  -- neither of the last two touches the state
  case quit =>
    intro _ hrun
    rw [Except.ok.injEq, Prod.mk.injEq] at hrun
    rw [← hrun.1]
    exact h
  case unknown =>
    intro hrun
    rw [Except.ok.injEq, Prod.mk.injEq] at hrun
    rw [← hrun.1]
    exact h

/-! ## Events -/

theorem connDestroy_stores {c : Nat} (hrun : connDestroy g c = .ok g') : SameStores g g' := by
  rcases bind_eq_ok.mp hrun with ⟨conn, _, hrun⟩
  rcases bind_eq_ok.mp hrun with ⟨idle, _, hrun⟩
  rw [Except.ok.injEq] at hrun
  rw [← hrun]
  exact ⟨rfl, rfl⟩

theorem connTouch_stores {c now : Nat} (hrun : connTouch g c now = .ok g') : SameStores g g' := by
  rcases bind_eq_ok.mp hrun with ⟨conn, _, hrun⟩
  rcases bind_eq_ok.mp hrun with ⟨_, _, hrun⟩
  rcases bind_eq_ok.mp hrun with ⟨_, _, hrun⟩
  rw [Except.ok.injEq] at hrun
  rw [← hrun]
  exact ⟨rfl, rfl⟩

theorem handleAccept_stores {connfd : Int} {now : Nat} (hrun : handleAccept g connfd now = .ok g') :
    SameStores g g' := by
  unfold handleAccept at hrun
  by_cases hneg : connfd < 0
  · rw [if_pos hneg, Except.ok.injEq] at hrun
    rw [← hrun]
    exact ⟨rfl, rfl⟩
  · rw [if_neg hneg] at hrun
    rcases bind_eq_ok.mp hrun with ⟨idle, _, hrun⟩
    rw [Except.ok.injEq] at hrun
    rw [← hrun]
    exact ⟨rfl, rfl⟩

theorem idleLoop_stores {now fuel : Nat} (hrun : idleLoop now fuel g = .ok g') :
    SameStores g g' := by
  induction fuel generalizing g with
  | zero => exact absurd hrun (by simp only [idleLoop, reduceCtorEq, not_false_eq_true])
  | succ fuel ih =>
      rcases bind_eq_ok.mp hrun with ⟨head, _, hrun⟩
      split at hrun
      · cases hrun
      · rw [Except.ok.injEq] at hrun
        rw [← hrun]
        exact ⟨rfl, rfl⟩
      · rcases bind_eq_ok.mp hrun with ⟨conn, _, hrun⟩
        dsimp only at hrun
        split at hrun
        · rw [Except.ok.injEq] at hrun
          rw [← hrun]
          exact ⟨rfl, rfl⟩
        · rcases bind_eq_ok.mp hrun with ⟨g₁, hdes, hrun⟩
          have h₁ := connDestroy_stores hdes
          refine SameStores.trans ?_ (ih hrun)
          split at h₁
          · exact ⟨h₁.entries, h₁.emptyZset⟩
          · exact h₁

/-- A round of the loop ends it, drops an item or deletes one entry. -/
theorem ttlLoop_round {now fuel nworks : Nat} (hrun : ttlLoop now (fuel + 1) nworks g = .ok g') :
    g' = g ∨
      (∃ heap refs, ttlLoop now fuel nworks { g with heap := heap, heapIdx := refs } = .ok g') ∨
      ∃ owner, ∃ conn : Conn, ∃ db ent g₁,
        entryDel (g.setConn owner { conn with db := db }) ent = .ok g₁ ∧
        (g' = g₁ ∨ ttlLoop now fuel (nworks + 1) g₁ = .ok g') := by
  -- an item that belongs to no entry is dropped
  have hdrop : (heapDelete g.heap g.heapIdx 0 >>= fun r =>
      ttlLoop now fuel nworks { g with heap := r.1, heapIdx := r.2 }) = .ok g' →
      ∃ heap refs, ttlLoop now fuel nworks { g with heap := heap, heapIdx := refs } = .ok g' := by
    intro hrun
    rcases bind_eq_ok.mp hrun with ⟨⟨heap, refs⟩, _, hrun⟩
    exact ⟨heap, refs, hrun⟩
  unfold ttlLoop at hrun
  cases hheap : g.heap with
  | nil =>
      simp only [hheap, Except.ok.injEq] at hrun
      exact Or.inl hrun.symm
  | cons item rest =>
      simp only [hheap] at hrun
      by_cases hlate : item.val < now
      · rw [if_pos hlate, ← hheap] at hrun
        refine Or.inr ?_
        cases hitem : item.ref with
        | none =>
            simp only [hitem] at hrun
            exact Or.inl (hdrop hrun)
        | some ent =>
            simp only [hitem] at hrun
            rcases bind_eq_ok.mp hrun with ⟨x, _, hrun⟩
            cases hidx : g.heapIdx ent with
            | none =>
                simp only [hidx] at hrun
                exact Or.inl (hdrop hrun)
            | some pos =>
                cases hown : x.ownerConn with
                | none =>
                    simp only [hidx, hown] at hrun
                    exact Or.inl (hdrop hrun)
                | some owner =>
                    simp only [hidx, hown] at hrun
                    rcases bind_eq_ok.mp hrun with ⟨conn, _, hrun⟩
                    rcases bind_eq_ok.mp hrun with ⟨⟨db, node⟩, _, hrun⟩
                    split at hrun
                    · cases hrun
                    · rcases bind_eq_ok.mp hrun with ⟨g₁, hdel, hrun⟩
                      refine Or.inr ⟨owner, conn, db, ent, g₁, hdel, ?_⟩
                      split at hrun
                      · rw [Except.ok.injEq] at hrun
                        exact Or.inl hrun.symm
                      · exact Or.inr hrun
      · rw [if_neg hlate, Except.ok.injEq] at hrun
        exact Or.inl hrun.symm

theorem ttlLoop_stores (h : StoresOk R Q g) {now fuel nworks : Nat}
    (hrun : ttlLoop now fuel nworks g = .ok g') : StoresOk R Q g' := by
  induction fuel generalizing g nworks with
  | zero => exact absurd hrun (by simp only [ttlLoop, reduceCtorEq, not_false_eq_true])
  | succ fuel ih =>
      rcases ttlLoop_round hrun with
        rfl | ⟨heap, refs, hrest⟩ | ⟨owner, conn, db, ent, g₁, hdel, hrest⟩
      · exact h
      · have h₁ : StoresOk R Q { g with heap := heap, heapIdx := refs } := h.congr ⟨rfl, rfl⟩
        exact ih h₁ hrest
      · have h₀ : StoresOk R Q (g.setConn owner { conn with db := db }) := h.congr ⟨rfl, rfl⟩
        -- the entries left keep what they store
        have h₁ := h₀.entryDel hdel
        rcases hrest with rfl | hrest
        · exact h₁
        · exact ih h₁ hrest

/-- Any event, where it returns, leaves such values. -/
theorem serverStep_stores (h : StoresOk R Q g) (hq : Q []) {e : Event} {r : Bytes}
    (hset : ∀ c cmd now, e = .request c cmd now → isCmd cmd 3 "set" = true → Q (arg cmd 2))
    (hrun : serverStep R g e = .ok (g', r)) : StoresOk R Q g' := by
  cases e with
  | accept connfd now =>
      rcases bind_eq_ok.mp hrun with ⟨g₁, hacc, hrun⟩
      rw [Except.ok.injEq, Prod.mk.injEq] at hrun
      rw [← hrun.1]
      -- connections hold no entry of their own
      exact h.congr (handleAccept_stores hacc)
  | touch c now =>
      rcases bind_eq_ok.mp hrun with ⟨g₁, htouch, hrun⟩
      rw [Except.ok.injEq, Prod.mk.injEq] at hrun
      rw [← hrun.1]
      exact h.congr (connTouch_stores htouch)
  | request c cmd now =>
      rcases bind_eq_ok.mp hrun with ⟨conn, _, hrun⟩
      exact doRequest_stores h hq (hset c cmd now rfl) hrun
  | close c =>
      rcases bind_eq_ok.mp hrun with ⟨g₁, hdes, hrun⟩
      rw [Except.ok.injEq, Prod.mk.injEq] at hrun
      rw [← hrun.1]
      exact h.congr (connDestroy_stores hdes)
  | sweep now =>
      rcases bind_eq_ok.mp hrun with ⟨g₁, hsweep, hrun⟩
      rcases bind_eq_ok.mp hsweep with ⟨g₂, hidle, httl⟩
      rw [Except.ok.injEq, Prod.mk.injEq] at hrun
      rw [← hrun.1]
      exact ttlLoop_stores (h.congr (idleLoop_stores hidle)) httl

/-- Any run leaves such values, when the strings its `set`s give satisfy
    `Q`. -/
theorem stores_of_run (hq : Q []) {es : List Event} {rs : List Bytes}
    (hset : ∀ c cmd now, Event.request c cmd now ∈ es → isCmd cmd 3 "set" = true → Q (arg cmd 2))
    (hrun : run (serverStep R) {} es = .ok (g', rs)) : StoresOk R Q g' := by
  have hguard : Guarded (serverStep R) (fun _ e => ∀ c cmd now, e = .request c cmd now →
      isCmd cmd 3 "set" = true → Q (arg cmd 2)) {} es := by
    refine guarded_of_forall ?_ _
    intro e he _ c cmd now heq
    rw [heq] at he
    exact hset c cmd now he
  exact run_invariant (I := StoresOk R Q)
    (fun s e s' r h hset hstep => serverStep_stores h hq hset hstep) (storesOk_init R Q) hguard hrun

end

end RedisServer
