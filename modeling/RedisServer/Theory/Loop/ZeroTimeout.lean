import RedisServer.Theory.Loop.Timeout
import RedisServer.Theory.Server.Timers

/-!
# A Timeout of Zero

When `next_timer_ms` returns zero, `poll` returns at once and the sweep that
follows is to find something to remove. The two functions do not compare in
the same way. For the timeout a deadline has come when it is not later than
the clock, for the sweep when it is earlier. In the millisecond of a deadline
the loop turns without doing anything, and so it does while the earliest
deadline is a multiple of `2 ^ 32` milliseconds away.

Past that, the sweep removes something if it returns at all. It comes to
entries of connections that are gone, some of which it has ended itself, and
to sets whose root was freed.

## Main definitions

* `Progress`: A connection or a key is gone.
* `ZeroTimeoutProgress`: A timeout of zero is followed by progress.
* `Sweepable`: An entry the sweep can remove.

## Theorems

* `nextTimerMs_eq_zero`: When the timeout is zero.
* `processTimers_ok_iff`: When the sweep returns.
* `processTimers_early`: A sweep before the first deadline.
* `processTimers_progress`: A sweep after it.
* `zero_timeout_progress_iff`: When a timeout of zero is followed by progress.
* `zero_timeout_tie`: The millisecond of a deadline.
-/

namespace RedisServer

open Lib HeapOrder

/-- A connection was ended, or a key of a connection that is still there was
    removed. -/
def Progress (g g' : GData) : Prop :=
  (∃ c conn, g.conns c = some conn ∧ g'.conns c = none) ∨
  ∃ c k e x, Holds g c k e x ∧ (∃ conn, g'.conns c = some conn) ∧ ∀ e' x', ¬ Holds g' c k e' x'

/-- If the timeout is zero, the sweep at the same time removes something. -/
def ZeroTimeoutProgress (g : GData) (now : Nat) : Prop :=
  nextTimerMs g now = .ok 0 → ∃ g', processTimers g now = .ok g' ∧ Progress g g'

/-- An entry that a connection stores which is not idle, and whose value is
    not a set whose root was freed. -/
def Sweepable (g : GData) (now e : Nat) : Prop :=
  (∃ c conn, survivors g now c = some conn ∧ Stored g c e) ∧ ¬ HoldsStale g e

section

variable {R : Runtime} {Q : Bytes → Prop} {P : Nat → Prop} {g g' : GData} {l : List Nat} {now : Nat}

/-! ## The timeout -/

theorem toI32_eq_zero_iff (n : Nat) : toI32 n = 0 ↔ 2 ^ 32 ∣ n := by
  unfold toI32
  by_cases hlt : n % 2 ^ 32 < 2 ^ 31
  · rw [if_pos hlt]
    omega
  · rw [if_neg hlt]
    omega

/-- The timeout is zero when the earliest deadline has come, or when nothing
    is left of the time to it after the truncation. -/
theorem nextTimerMs_eq_zero (h : TimersOk g l) : nextTimerMs g now = .ok 0 ↔
    ∃ d, IsLeast (timers g l) d ∧ (d ≤ now ∨ 2 ^ 32 ∣ d - now) := by
  have hfirst := h.first
  rw [nextTimerMs_spec h]
  cases hr : earlier (idleFirst g l) (keyFirst g) with
  | none =>
    rw [hr] at hfirst
    have hempty : timers g l = ∅ := hfirst
    refine iff_of_false nofun ?_
    rintro ⟨d, hd, _⟩
    rw [hempty] at hd
    exact hd.1
  | some d =>
    rw [hr] at hfirst
    have hleast : IsLeast (timers g l) d := hfirst
    have hzero : (Except.ok (if d ≤ now then 0 else toI32 (d - now)) : Result Int) = .ok 0 ↔
        d ≤ now ∨ 2 ^ 32 ∣ d - now := by
      rw [Except.ok.injEq]
      by_cases hpast : d ≤ now
      · rw [if_pos hpast]
        exact iff_of_true rfl (Or.inl hpast)
      · rw [if_neg hpast, toI32_eq_zero_iff]
        exact (or_iff_right hpast).symm
    rw [hzero]
    constructor
    · exact fun hd => ⟨d, hleast, hd⟩
    · rintro ⟨d', hd', hcome⟩
      rw [hd'.unique hleast] at hcome
      exact hcome

/-! ## When the sweep returns -/

theorem TimersOk.idleOrdered (h : TimersOk g l) (hloop : LoopInv g) : IdleOrdered g l := by
  have hlive : ∀ c, c ∈ l ↔ ∃ conn, g.conns c = some conn := by
    rcases hloop.ring with ⟨l', hring, hlive⟩
    rw [h.ring.unique hring]
    exact hlive
  refine ⟨h.ring, hlive, h.ordered, fun c conn hc => ?_⟩
  have hclock := h.clock c ((hlive c).mpr ⟨conn, hc⟩) conn hc
  unfold kIdleTimeoutMs
  omega

/-- The entries a heap yields have items in it. -/
theorem yields_indexed (now : Nat) : ∀ (n : Nat) {heap : List (HeapItem Nat)} {refs : Refs Nat},
    Indexed heap refs → ∀ e ∈ yields now n heap refs, refs e ≠ none := by
  intro n
  induction n with
  | zero => exact fun _ e he => absurd he List.not_mem_nil
  | succ n ih =>
    intro heap refs h e he
    cases heap with
    | nil => exact absurd he List.not_mem_nil
    | cons item rest =>
      rcases h.back 0 item rfl with ⟨r, href, hidx⟩
      rcases heapDelete_spec h hidx with ⟨heap', refs', _, hdel, _, _, hindexed, _, hother⟩
      simp only [yields, href, hdel] at he
      split_ifs at he
      · rcases List.mem_cons.mp he with rfl | he
        · rw [hidx]
          exact Option.some_ne_none 0
        · -- the deletion gives no entry an item that had none
          have hsome := ih hindexed e he
          have her : e ≠ r := by
            rintro rfl
            exact hsome (Function.update_self ..)
          rw [Ne, ← hindexed.deadline_eq_none, hother e her, h.deadline_eq_none] at hsome
          exact hsome
      · exact absurd he List.not_mem_nil

/-- The sweep returns exactly when it can remove all entries it comes to. -/
theorem processTimers_ok_iff (hinv : Inv R g P) (hstores : StoresOk R Q g) (h : TimersOk g l) :
    (∃ g', processTimers g now = .ok g') ↔
      ∀ e ∈ yields now (kMaxWorks + 1) g.heap g.heapIdx, Sweepable g now e := by
  have hidle := h.idleOrdered hinv.loop
  have hfuel := Nat.lt_succ_of_le (length_le_nextConn hinv.loop hidle.ring hidle.live)
  rcases idleLoop_exact now (g.nextConn + 1) hinv.loop hidle hfuel with ⟨g₁, hrun₁, hends, hconns⟩
  rcases hends.inv_left hinv with ⟨P₁, hinv₁⟩
  rcases hends.memory with ⟨hentries, hheap, hidx⟩
  have hok := ttlLoop_ok_iff now (g₁.heap.length + 1) 0 hinv₁ (hstores.congr (idleLoop_stores hrun₁))
    (Nat.lt_succ_self _) (Nat.zero_le _)
  have hstale : ∀ e, HoldsStale g₁ e ↔ HoldsStale g e := by
    intro e
    rw [HoldsStale, HoldsStale, hentries]
  have hstored := stored_survivors hconns
  have hsweep : processTimers g now = ttlLoop now (g₁.heap.length + 1) 0 g₁ := by
    simp only [processTimers, hrun₁, ok_bind]
  rw [hsweep, hok, Nat.sub_zero, hheap, hidx]
  refine forall₂_congr fun e he => ?_
  rw [hstale, Sweepable]
  refine and_congr_left fun _ => ?_
  -- an entry in the heap was left behind, or a surviving connection stores it
  rcases Option.ne_none_iff_exists'.mp (yields_indexed now _ hinv.heap.indexed e he) with ⟨i, hi⟩
  rw [← hidx] at hi
  constructor
  · intro hleft
    rcases hinv₁.heap.owned e i hi with ⟨c, hs⟩ | hP
    · rcases (hstored c e).mp hs with ⟨⟨conn, hsurv⟩, hst⟩
      exact ⟨c, conn, hsurv, hst⟩
    · exact absurd hP hleft
  · rintro ⟨c, conn, hsurv, hst⟩
    exact hinv₁.not_left ((hstored c e).mpr ⟨⟨conn, hsurv⟩, hst⟩)

/-! ## What it removes -/

theorem not_progress_self (g : GData) : ¬ Progress g g := by
  rintro (⟨c, conn, hc, hnone⟩ | ⟨c, k, e, x, hx, _, hno⟩)
  · rw [hc] at hnone
    cases hnone
  · exact hno e x hx

/-- Before the first deadline there is nothing to remove. -/
theorem processTimers_early (hinv : Inv R g P) (h : TimersOk g l)
    (hearly : ∀ d ∈ timers g l, now ≤ d) : processTimers g now = .ok g := by
  have hidle := h.idleOrdered hinv.loop
  have hact : ∀ c conn, g.conns c = some conn → ¬ Idle now conn := by
    intro c conn hc
    rw [hidle.idle_iff hc, Nat.not_lt]
    exact hearly _ (Or.inl ⟨c, (hidle.live c).mpr ⟨conn, hc⟩, conn, hc, rfl⟩)
  simp only [processTimers, idleLoop_none hinv.loop hact, ok_bind]
  refine ttlLoop_done (fun item hroot => ?_) _ _
  exact hearly _ (Or.inr ⟨item, List.mem_of_head? hroot, rfl⟩)

/-- Its first turn removes a key for good. -/
theorem Swept.key_removed {es : List (Nat × Nat × Nat)} (h : Swept now g es g') (hinv : Inv R g P)
    (hes : es ≠ []) : ∃ c k e x, Holds g c k e x ∧ (∃ conn, g'.conns c = some conn) ∧
      ∀ e' x', ¬ Holds g' c k e' x' := by
  cases h with
  | refl => exact absurd rfl hes
  | step hexp hrest =>
    rename_i g₁ c e d es
    rcases exists_views hinv.db with ⟨K, hK⟩
    rcases hexp.moved hinv hK with ⟨x, _, hx, hm⟩
    rcases hrest.moved hm.inv hm.views with ⟨K', hm', hrem⟩
    have hgone : K' c x.key = none := by
      rcases hrem c x.key with heq | ⟨hnone, _⟩
      · rw [heq, Keyspace.set_same]
      · exact hnone
    rcases conns_of_stored hx.stored with ⟨conn, hc⟩
    have hio := (hm.same.trans hm'.same).io c
    rw [hc, Option.map_some] at hio
    rcases Option.map_eq_some_iff.mp hio with ⟨conn', hc', _⟩
    refine ⟨c, x.key, e, x, hx, ⟨conn', hc'⟩, fun e' x' hx' => ?_⟩
    have hsome := hm'.views.eq_some hx'
    rw [hgone] at hsome
    cases hsome

/-- After the first deadline the sweep removes something, if it returns. -/
theorem processTimers_progress (hinv : Inv R g P) (h : TimersOk g l) {d : Nat}
    (hd : d ∈ timers g l) (hlate : d < now) (hrun : processTimers g now = .ok g') :
    Progress g g' := by
  have hidle := h.idleOrdered hinv.loop
  have hfuel := Nat.lt_succ_of_le (length_le_nextConn hinv.loop hidle.ring hidle.live)
  rcases idleLoop_exact now (g.nextConn + 1) hinv.loop hidle hfuel with ⟨g₁, hrun₁, hends, hconns⟩
  rcases hends.inv_left hinv with ⟨P₁, hinv₁⟩
  rcases hends.memory with ⟨hentries, hheap, _⟩
  simp only [processTimers, hrun₁, ok_bind] at hrun
  -- the loop over the keys returned, so it is a run of turns
  rcases ttlLoop_cases now (g₁.heap.length + 1) 0 hinv₁ (Nat.lt_succ_self _) with
    ⟨g₂, es, hrun₂, hsw, hend⟩ | ⟨f, _, hrun₂, _⟩ | ⟨_, hrun₂⟩
  · rw [hrun, Except.ok.injEq] at hrun₂
    rw [← hrun₂] at hsw hend
    rcases hd with ⟨c, _, conn, hc, hval⟩ | ⟨item, hitem, hval⟩
    · -- the connection was idle
      have hdead : g₁.conns c = none := by
        rw [hconns c, survivors, hc, Option.filter_some, if_neg]
        rw [decide_eq_true_eq]
        omega
      rcases exists_views hinv₁.db with ⟨K, hK⟩
      rcases hsw.moved hinv₁ hK with ⟨_, hm, _⟩
      have hio := hm.same.io c
      rw [hdead, Option.map_none, Option.map_eq_none_iff] at hio
      exact Or.inl ⟨c, conn, hc, hio⟩
    · -- the key was due, so the first turn was taken
      have hes : es ≠ [] := by
        rintro rfl
        have hsame : g' = g₁ := by
          cases hsw
          rfl
        rw [hsame] at hend
        rcases hend with hnone | hmany
        · rw [← hheap] at hitem
          rcases hinv₁.heap.indexed.ref_some hitem with ⟨e, href⟩
          have hdue : due g₁ e = some d := by
            refine hinv₁.heap.indexed.deadline_eq_some.mpr ?_
            rw [← hval, ← href]
            exact hitem
          have hle := hnone e d hdue
          omega
        · exact absurd hmany (Nat.not_lt_zero _)
      rcases hsw.key_removed hinv₁ hes with ⟨c, k, e, x, hx, hlive, hgone⟩
      refine Or.inr ⟨c, k, e, x, ⟨((stored_survivors hconns c e).mp hx.stored).2, ?_, hx.key⟩,
        hlive, hgone⟩
      rw [← hentries]
      exact hx.entry
  · rw [hrun] at hrun₂
    cases hrun₂
  · rw [hrun] at hrun₂
    cases hrun₂

end

/-! ## A timeout of zero -/

/-- A timeout of zero is followed by progress exactly when the earliest
    deadline is before the clock, and the sweep can remove every entry it
    comes to, or when the deadline is after the clock and some of the time to
    it is left after the truncation. -/
theorem zero_timeout_progress_iff {R : Runtime} {Q : Bytes → Prop} {P : Nat → Prop} (g : GData)
    (l : List Nat) (now : Nat) (hinv : Inv R g P) (hstores : StoresOk R Q g) (h : TimersOk g l) :
    ZeroTimeoutProgress g now ↔ ∀ d, IsLeast (timers g l) d →
      (d < now ∧ ∀ e ∈ yields now (kMaxWorks + 1) g.heap g.heapIdx, Sweepable g now e) ∨
      (now < d ∧ ¬ 2 ^ 32 ∣ d - now) := by
  constructor
  · intro hprogress d hd
    by_cases hzero : d ≤ now ∨ 2 ^ 32 ∣ d - now
    · rcases hprogress ((nextTimerMs_eq_zero h).mpr ⟨d, hd, hzero⟩) with ⟨g', hrun, hg'⟩
      by_cases hlate : d < now
      · exact Or.inl ⟨hlate, (processTimers_ok_iff hinv hstores h).mp ⟨g', hrun⟩⟩
      · -- nothing is due for the sweep
        have hearly : ∀ d' ∈ timers g l, now ≤ d' := fun d' hd' =>
          (Nat.not_lt.mp hlate).trans (hd.2 hd')
        rw [processTimers_early hinv h hearly, Except.ok.injEq] at hrun
        rw [← hrun] at hg'
        exact absurd hg' (not_progress_self g)
    · rw [not_or, Nat.not_le] at hzero
      exact Or.inr hzero
  · intro hcond hzero
    rcases (nextTimerMs_eq_zero h).mp hzero with ⟨d, hd, hcome⟩
    rcases hcond d hd with ⟨hlate, hsweep⟩ | ⟨hearly, hleft⟩
    · rcases (processTimers_ok_iff hinv hstores h).mpr hsweep with ⟨g', hrun⟩
      exact ⟨g', hrun, processTimers_progress hinv h hd.1 hlate hrun⟩
    · rcases hcome with hpast | hdvd
      · exact absurd hpast (Nat.not_le.mpr hearly)
      · exact absurd hdvd hleft

/-- One client has set a key with a deadline at 100. -/
theorem setAndExpire_timers : ∃ g rs l, run (serverStep noDoubles) {} setAndExpire = .ok (g, rs) ∧
    Inv noDoubles g ∧ StoresOk noDoubles (fun _ => True) g ∧ TimersOk g l ∧
    IsLeast (timers g l) 100 := by
  have hone : (run (serverStep noDoubles) {} setAndExpire).map
      (fun x => (x.1.nextConn, (x.1.conns 0).map Conn.lastActiveMs)) = .ok (1, some 0) := by
    decide +kernel
  have hroot : (run (serverStep noDoubles) {} setAndExpire).map (fun x => x.1.heap) =
      .ok [⟨100, some 0⟩] := by
    decide +kernel
  have hok : ∃ g rs, run (serverStep noDoubles) {} setAndExpire = .ok (g, rs) :=
    exists_of_isOk (by decide +kernel)
  rcases hok with ⟨g, rs, hrun⟩
  rw [hrun, Except.map, Except.ok.injEq] at hone hroot
  have hclean : ∀ e ∈ setAndExpire, ∀ s, DestroysClean s e := by
    intro e he s
    simp only [setAndExpire, List.mem_cons, List.not_mem_nil, or_false] at he
    rcases he with rfl | rfl | rfl <;> exact True.intro
  rcases state_of_requests hclean hrun with ⟨hinv, hstores⟩
  rcases ordered_of_one hinv hone (m := 100) (by decide) with ⟨⟨l, hidle⟩, _⟩
  have hact : ∀ c conn, g.conns c = some conn → conn.lastActiveMs = 0 := fun _ _ hc =>
    only_connection hinv.loop hone hc
  have htimers : TimersOk g l := by
    refine ⟨hidle.ring, fun c hc => (hidle.live c).mp hc, hidle.ordered, hinv.heap.indexed.ordered,
      fun c _ conn hc => ?_, fun item hitem => ⟨0, 100, by decide, by decide, ?_⟩⟩
    · rw [hact c conn hc]
      decide
    · rw [hroot, List.mem_singleton] at hitem
      rw [hitem]
  refine ⟨g, rs, l, hrun, hinv, hstores, htimers, Or.inr ⟨⟨100, some 0⟩, ?_, rfl⟩, ?_⟩
  · rw [hroot]
    exact List.mem_singleton_self _
  · rintro d (⟨c, _, conn, hc, rfl⟩ | ⟨item, hitem, rfl⟩)
    · rw [hact c conn hc]
      decide
    · rw [hroot, List.mem_singleton] at hitem
      rw [hitem]

theorem zero_timeout_progress_iff_set : ∃ g rs l,
    run (serverStep noDoubles) {} setAndExpire = .ok (g, rs) ∧
      (ZeroTimeoutProgress g 200 ↔ ∀ d, IsLeast (timers g l) d →
        (d < 200 ∧ ∀ e ∈ yields 200 (kMaxWorks + 1) g.heap g.heapIdx, Sweepable g 200 e) ∨
        (200 < d ∧ ¬ 2 ^ 32 ∣ d - 200)) := by
  rcases setAndExpire_timers with ⟨g, rs, l, hrun, hinv, hstores, h, _⟩
  exact ⟨g, rs, l, hrun, zero_timeout_progress_iff g l 200 hinv hstores h⟩

/-- At 100 the timeout is zero, and the sweep leaves the state as it is. -/
theorem zero_timeout_tie : ∃ g rs l, run (serverStep noDoubles) {} setAndExpire = .ok (g, rs) ∧
    Inv noDoubles g ∧ TimersOk g l ∧ nextTimerMs g 100 = .ok 0 ∧ processTimers g 100 = .ok g ∧
    ¬ ZeroTimeoutProgress g 100 := by
  rcases setAndExpire_timers with ⟨g, rs, l, hrun, hinv, _, h, hleast⟩
  have hzero : nextTimerMs g 100 = .ok 0 :=
    (nextTimerMs_eq_zero h).mpr ⟨100, hleast, Or.inl (Nat.le_refl _)⟩
  have hsweep := processTimers_early hinv h fun d hd => hleast.2 hd
  refine ⟨g, rs, l, hrun, hinv, h, hzero, hsweep, fun hprogress => ?_⟩
  rcases hprogress hzero with ⟨g', hrun', hg'⟩
  rw [hsweep, Except.ok.injEq] at hrun'
  rw [← hrun'] at hg'
  exact not_progress_self g hg'

end RedisServer
