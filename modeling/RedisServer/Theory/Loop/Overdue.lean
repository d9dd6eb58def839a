import RedisServer.Theory.Loop.Expired
import RedisServer.Theory.Server.Timers

/-!
# Sweeps Catch Up

A sweep removes `k_max_works` keys and one more, and leaves the rest of those
that are due to the next. Meanwhile clients go on setting deadlines. No key has
to wait for ever: deadlines that are set are not in the past, so what was due
at some time is only ever removed or put off, and a sweep takes the earliest
deadlines first.

## Main definitions

* `DueWithin`: So many keys are due, at most.
* `LoopEvent.isSweep`: A sweep.

## Theorems

* `dueWithin_of_heap`: The heap counts the keys that are due.
* `DueWithin.step`: A step of the loop.
* `overdue_keys_end`: After enough sweeps nothing is left.
-/

namespace RedisServer

open Lib

/-- The keyspace without some of its keys. -/
def Keyspace.without (K : Keyspace) (ds : List (Nat × Bytes)) : Keyspace :=
  fun c k => if (c, k) ∈ ds then none else K c k

/-- At most `n` keys have a deadline before `t`. -/
def DueWithin (K : Keyspace) (t n : Nat) : Prop :=
  ∃ ds : List (Nat × Bytes), ds.length ≤ n ∧ NoneBefore (K.without ds) t

def LoopEvent.isSweep : LoopEvent → Bool
  | .event (.sweep _) => true
  | _ => false

section

variable {R : Runtime} {g g' : GData} {K K' : Keyspace} {P : Nat → Prop} {t n now : Nat}

theorem without_of_not_mem {ds : List (Nat × Bytes)} {c : Nat} {k : Bytes} (h : (c, k) ∉ ds) :
    K.without ds c k = K c k := if_neg h

theorem without_eq_some {ds : List (Nat × Bytes)} {c : Nat} {k : Bytes} {v : Entry × Option Nat}
    (h : K.without ds c k = some v) : (c, k) ∉ ds ∧ K c k = some v := by
  rw [Keyspace.without] at h
  by_cases hmem : (c, k) ∈ ds
  · rw [if_pos hmem] at h
    cases h
  · rw [if_neg hmem] at h
    exact ⟨hmem, h⟩

namespace DueWithin

theorem zero_iff : DueWithin K t 0 ↔ NoneBefore K t := by
  have hnil : K.without [] = K := by
    funext c k
    exact without_of_not_mem List.not_mem_nil
  constructor
  · rintro ⟨ds, hlen, h⟩
    rw [List.length_eq_zero_iff.mp (Nat.le_zero.mp hlen), hnil] at h
    exact h
  · intro h
    refine ⟨[], Nat.le_refl 0, ?_⟩
    rw [hnil]
    exact h

theorem mono {m : Nat} (h : DueWithin K t n) (hle : n ≤ m) : DueWithin K t m := by
  rcases h with ⟨ds, hlen, h⟩
  exact ⟨ds, Nat.le_trans hlen hle, h⟩

/-- Fewer keys, with the deadlines they had. -/
theorem sub (h : DueWithin K t n) (hsub : ∀ c k, K' c k = K c k ∨ K' c k = none) :
    DueWithin K' t n := by
  rcases h with ⟨ds, hlen, h⟩
  refine ⟨ds, hlen, fun c k x d hk => ?_⟩
  rcases without_eq_some hk with ⟨hmem, hk⟩
  rcases hsub c k with heq | hnone
  · refine h c k x d ?_
    rw [without_of_not_mem hmem, ← heq]
    exact hk
  · rw [hnone] at hk
    cases hk

/-- An event after `t` sets no deadline before `t`. -/
theorem follow {e : Event} (h : DueWithin K t n) (hd : DuesFollow e K K')
    (hclock : ∀ c cmd now, e = .request c cmd now → t ≤ now ∧ now < 2 ^ 63) : DueWithin K' t n := by
  rcases h with ⟨ds, hlen, h⟩
  -- of the keys that were not due before, none is afterwards
  refine ⟨ds, hlen, noneBefore_of_follow h (fun c k x d hk => ?_) hclock⟩
  rcases without_eq_some hk with ⟨hmem, hk⟩
  rw [dueIn, without_of_not_mem hmem]
  exact hd c k x d hk

/-- A turn of the sweep removes a key that was due before `t`, as long as there
    is one. -/
theorem expiry {c e d : Nat} (h : DueWithin K t n) (hexp : Expiry now g g' c e d)
    (hinv : Inv R g P) (hK : Views g K) (hK' : Views g' K') : DueWithin K' t (n - 1) := by
  rcases hexp.moved hinv hK with ⟨x, hx, _, hm⟩
  rw [hK'.unique hm.views]
  rcases h with ⟨ds, hlen, h⟩
  by_cases hearly : d < t
  · have hmem : (c, x.key) ∈ ds := by
      by_contra hnot
      have hle := h c x.key x d (by rw [without_of_not_mem hnot]; exact hx)
      omega
    refine ⟨ds.erase (c, x.key), ?_, fun c' k' y d' hy => ?_⟩
    · rw [List.length_erase_of_mem hmem]
      omega
    · rcases without_eq_some hy with ⟨hnot, hy⟩
      by_cases hck : c' = c ∧ k' = x.key
      · rw [hck.1, hck.2, Keyspace.set_same] at hy
        cases hy
      · rw [Keyspace.set_other K none hck] at hy
        refine h c' k' y d' ?_
        rw [without_of_not_mem, hy]
        intro hin
        refine hnot ((List.mem_erase_of_ne fun heq => hck ?_).mpr hin)
        rw [Prod.mk.injEq] at heq
        exact heq
  · -- the earliest deadline is not before `t`
    refine (zero_iff.mpr fun c' k' y d' hy => ?_).mono (Nat.zero_le _)
    by_cases hck : c' = c ∧ k' = x.key
    · rw [hck.1, hck.2, Keyspace.set_same] at hy
      cases hy
    · rw [Keyspace.set_other K none hck] at hy
      rcases (hK c' k' y (some d')).mp hy with ⟨s, _, hs⟩
      have hle := hexp.first s d' hs
      omega

/-- A run of turns removes as many as it has turns. -/
theorem swept {es : List (Nat × Nat × Nat)} (h : DueWithin K t n) (hsw : Swept now g es g')
    (hinv : Inv R g P) (hK : Views g K) (hK' : Views g' K') : DueWithin K' t (n - es.length) := by
  induction hsw generalizing K n with
  | refl g =>
      rw [hK'.unique hK]
      exact h
  | step hexp _ ih =>
      rcases hexp.moved hinv hK with ⟨x, _, _, hm⟩
      have hrest := ih (h.expiry hexp hinv hK hm.views) hm.inv hm.views hK'
      rw [List.length_cons, Nat.add_comm, ← Nat.sub_sub]
      exact hrest

/-- A sweep after `t` removes all keys that were due before `t`, or as many as
    it may. -/
theorem sweep {r : Bytes} (h : DueWithin K t n) (hinv : Inv R g P) (hK : Views g K) (hle : t ≤ now)
    (hrun : serverStep R g (.sweep now) = .ok (g', r)) (hK' : Views g' K') :
    DueWithin K' t (n - (kMaxWorks + 1)) := by
  rcases hinv.loop.ring with ⟨l, hring, hmem⟩
  rcases idleLoop_ends now (g.nextConn + 1) hinv.loop hring hmem
    (Nat.lt_succ_of_le (length_le_nextConn hinv.loop hring hmem)) with ⟨g₁, hidle, hends⟩
  rcases hends.inv_left hinv with ⟨P₁, hinv₁⟩
  rcases hends.views hK with ⟨K₁, hK₁, hsub⟩
  simp only [serverStep, processTimers, hidle, ok_bind] at hrun
  rcases ttlLoop_cases now (g₁.heap.length + 1) 0 hinv₁ (Nat.lt_succ_self _) with
    ⟨g₂, es, httl, hsw, hend⟩ | ⟨f, _, httl, _⟩ | ⟨_, httl⟩
  · simp only [httl, ok_bind, Except.ok.injEq, Prod.mk.injEq] at hrun
    rw [hrun.1] at hsw hend
    rcases hend with hnone | hcap
    · refine (zero_iff.mpr fun c k x d hk => ?_).mono (Nat.zero_le _)
      exact hle.trans (hK'.not_due hnone c k x d hk)
    · exact ((h.sub hsub).swept hsw hinv₁ hK₁ hK').mono (by omega)
  · simp only [httl, error_bind, reduceCtorEq] at hrun
  · simp only [httl, error_bind, reduceCtorEq] at hrun

end DueWithin

/-- The keys that are due are no more than the items of the heap that are. -/
theorem dueWithin_of_heap (hinv : Inv R g P) (hK : Views g K) (t : Nat) :
    DueWithin K t (dueCount g t) := by
  refine ⟨(g.heap.filter fun item => decide (item.val < t)).map (ownerKey g), ?_,
    fun c k x d hk => ?_⟩
  · rw [List.length_map, dueCount, List.countP_eq_length_filter]
  · rcases without_eq_some hk with ⟨hnot, hk⟩
    by_contra hlate
    rcases (hK c k x (some d)).mp hk with ⟨e, he, hd⟩
    have hown : x.ownerConn = some c := hinv.db.owner he.stored he.entry
    refine hnot (List.mem_map.mpr ⟨⟨d, some e⟩, List.mem_filter.mpr
      ⟨hinv.heap.indexed.deadline_eq_some.mp hd, decide_eq_true (Nat.lt_of_not_le hlate)⟩, ?_⟩)
    simp only [ownerKey, Option.bind_some, he.entry, hown, Option.getD_some, he.key]

/-- The keys that are due at some time, and are not swept yet. Other steps than
    sweeps leave at most those. -/
theorem DueWithin.step {e : LoopEvent} {r : Bytes} (h : DueWithin K t n) (hinv : Inv R g P)
    (hK : Views g K) (hclock : ∀ now ∈ e.time, t ≤ now ∧ now < 2 ^ 63)
    (hrun : loopStep R g e = .ok (g', r)) :
    ∃ P' K', Inv R g' P' ∧ Views g' K' ∧
      DueWithin K' t (n - if e.isSweep then kMaxWorks + 1 else 0) := by
  rcases loopStep_left hinv hK hrun with ⟨P', K', hinv', hK', hmove⟩
  refine ⟨P', K', hinv', hK', ?_⟩
  cases hsweep : e.isSweep with
  | true =>
      rcases e with (_ | _ | _ | _ | now) | _
      · cases hsweep
      · cases hsweep
      · cases hsweep
      · cases hsweep
      · exact h.sweep hinv hK (hclock now rfl).1 hrun hK'
      · cases hsweep
  | false =>
      rw [if_neg Bool.false_ne_true]
      rcases hmove with ⟨e', rfl, hd⟩ | rfl
      · refine h.follow hd fun c cmd now he => ?_
        rw [he] at hclock
        exact hclock now rfl
      · exact h

theorem DueWithin.run {es : List LoopEvent} {rs : List Bytes} (h : DueWithin K t n)
    (hinv : Inv R g P) (hK : Views g K) (hclock : ∀ e ∈ es, ∀ now ∈ e.time, t ≤ now ∧ now < 2 ^ 63)
    (hrun : run (loopStep R) g es = .ok (g', rs)) :
    ∃ K', Views g' K' ∧ DueWithin K' t (n - es.countP LoopEvent.isSweep * (kMaxWorks + 1)) := by
  induction es generalizing g K P n rs with
  | nil =>
      simp only [Lib.run, Except.ok.injEq, Prod.mk.injEq] at hrun
      rw [← hrun.1]
      exact ⟨K, hK, h.mono (by rw [List.countP_nil]; omega)⟩
  | cons e es ih =>
      rcases run_cons_eq_ok hrun with ⟨g₁, r, rs', hstep, hrest, _⟩
      rcases h.step hinv hK (hclock e List.mem_cons_self) hstep with ⟨P₁, K₁, hinv₁, hK₁, h₁⟩
      rcases ih h₁ hinv₁ hK₁ (fun e he => hclock e (List.mem_cons_of_mem _ he)) hrest with
        ⟨K', hK', hend⟩
      refine ⟨K', hK', hend.mono ?_⟩
      rw [List.countP_cons, Nat.add_mul]
      cases e.isSweep with
      | true => simp only [if_true]; omega
      | false => simp only [Bool.false_eq_true, if_false]; omega

end

/-- In every run, whatever clients do and however many keys are due: when the
    sweeps since some state, all after `t`, may remove as many keys together as
    were due at `t` in that state, no key has a deadline before `t` any more. -/
theorem overdue_keys_end (R : Runtime) (before after : List LoopEvent) (t : Nat) (g₀ g : GData)
    (rs₀ rs : List Bytes) (hbefore : run (loopStep R) {} before = .ok (g₀, rs₀))
    (hafter : run (loopStep R) g₀ after = .ok (g, rs))
    (hclock : ∀ e ∈ after, ∀ now ∈ e.time, t ≤ now ∧ now < 2 ^ 63)
    (henough : dueCount g₀ t ≤ after.countP LoopEvent.isSweep * (kMaxWorks + 1)) (c e : Nat)
    (k : Bytes) (x : Entry) (d : Nat) (he : Holds g c k e x) (hd : due g e = some d) : t ≤ d := by
  rcases (inv_of_loop hbefore).1 with ⟨P₀, hinv₀⟩
  rcases exists_views hinv₀.db with ⟨K₀, hK₀⟩
  rcases (dueWithin_of_heap hinv₀ hK₀ t).run hinv₀ hK₀ hclock hafter with ⟨K, hK, hwithin⟩
  rw [Nat.sub_eq_zero_of_le henough, DueWithin.zero_iff] at hwithin
  refine hwithin c k x d ?_
  rw [hK.eq_some he, hd]

theorem keyTillEleven_sweeps : endsIn (loopStep noDoubles) (fun g₀ _ =>
    decide (dueCount g₀ 50 = 1) && endsIn (loopStep noDoubles) (fun _ _ => true) g₀
      [.event (.request 0 [ascii "set", ascii "l", ascii "w"] 50), .event (.sweep 51)])
    {} keyTillEleven = true := by decide

theorem overdue_keys_end_set :
    ∃ g₀ g rs₀ rs, run (loopStep noDoubles) {} keyTillEleven = .ok (g₀, rs₀) ∧ dueCount g₀ 50 = 1 ∧
      run (loopStep noDoubles) g₀ [.event (.request 0 [ascii "set", ascii "l", ascii "w"] 50),
        .event (.sweep 51)] = .ok (g, rs) ∧
      ∀ c e k x d, Holds g c k e x → due g e = some d → 50 ≤ d := by
  rcases exists_of_endsIn keyTillEleven_sweeps with ⟨g₀, rs₀, hbefore, htest⟩
  rw [Bool.and_eq_true, decide_eq_true_eq] at htest
  rcases exists_of_endsIn htest.2 with ⟨g, rs, hafter, _⟩
  refine ⟨g₀, g, rs₀, rs, hbefore, htest.1, hafter, fun c e k x d he hd =>
    overdue_keys_end noDoubles keyTillEleven _ 50 g₀ g rs₀ rs hbefore hafter (fun e he => ?_) ?_ c e k
      x d he hd⟩
  · simp only [List.mem_cons, List.not_mem_nil, or_false] at he
    rcases he with rfl | rfl
    · rintro _ ⟨⟩
      decide
    · rintro _ ⟨⟩
      decide
  · rw [htest.1]
    decide

end RedisServer
