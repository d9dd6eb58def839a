import RedisServer.Core.EventLoop
import RedisServer.Core.Events
import RedisServer.Lib.Run
import RedisServer.Theory.Heap.Index
import RedisServer.Theory.IdleList
import RedisServer.Theory.Server.State
import Mathlib.Order.Bounds.Basic

/-!
# The Timeout

What `next_timer_ms` hands to `poll`, for timers of both kinds: the time to the
earliest deadline, as an `int32_t`. The first connection on the idle list and
the root of the heap are all it looks at, and one of them has the earliest
deadline.

The difference is cut to 32 bits. A deadline that is at least `2 ^ 31`
milliseconds away can make the timeout negative, for which `poll` waits
forever, or zero.

## Main definitions

* `timers`: All deadlines.
* `TimersOk`: The idle list and the heap are in order.
* `TimeoutOk`: What the timeout is to be.

## Theorems

* `nextTimerMs_spec`: The timeout in terms of the earliest deadline.
* `timeout_iff`: It is as it is to be for exactly these deadlines.
* `timeout_forever`: A deadline that is not waited for.
-/

namespace RedisServer

open Lib HeapOrder

/-- The deadlines of the connections on the idle list. -/
def idleTimers (g : GData) (l : List Nat) : Set Nat :=
  {d | ∃ c ∈ l, ∃ conn, g.conns c = some conn ∧ conn.lastActiveMs + kIdleTimeoutMs = d}

/-- The deadlines of keys. -/
def keyTimers (g : GData) : Set Nat := {d | ∃ item ∈ g.heap, item.val = d}

/-- All deadlines. -/
def timers (g : GData) (l : List Nat) : Set Nat := idleTimers g l ∪ keyTimers g

/-- The idle list is in the order of the last activity, and the heap in the
    order of its values. A clock that counts milliseconds has not reached
    `2 ^ 63`, and `pexpire` stores what it reads plus an `int64_t` that is not
    negative. -/
structure TimersOk (g : GData) (l : List Nat) : Prop where
  ring : IdleRing g.idleList l
  live : ∀ c ∈ l, ∃ conn, g.conns c = some conn
  ordered : l.Pairwise fun a b => ∀ x y, g.conns a = some x → g.conns b = some y →
    x.lastActiveMs ≤ y.lastActiveMs
  heap : Ordered (keyAt g.heap) g.heap.length
  clock : ∀ c ∈ l, ∀ conn, g.conns c = some conn → conn.lastActiveMs < 2 ^ 63
  stored : ∀ item ∈ g.heap, ∃ clock ttl : Nat, clock < 2 ^ 63 ∧ ttl < 2 ^ 63 ∧
    item.val = clock + ttl

/-- The timeout is what the timers ask for: none without timers, none left if
    the earliest deadline has come, and otherwise a time that is not longer
    than the time to it. -/
structure TimeoutOk (g : GData) (l : List Nat) (now : Nat) (t : Int) : Prop where
  forever : t = -1 ↔ timers g l = ∅
  past : t = 0 ↔ ∃ d, IsLeast (timers g l) d ∧ d ≤ now
  wait : ∀ d, IsLeast (timers g l) d → now < d → 0 < t ∧ t ≤ (d : Int) - now

/-- The value is the first of a set of times, or the set has none. -/
def FirstOf (s : Set Nat) : Option Nat → Prop
  | none => s = ∅
  | some d => IsLeast s d

/-- The earlier of two times, either of which may be missing. -/
def earlier : Option Nat → Option Nat → Option Nat
  | none, r => r
  | some d, none => some d
  | some d, some d' => some (min d d')

theorem FirstOf.union {s s' : Set Nat} {r r' : Option Nat} (h : FirstOf s r) (h' : FirstOf s' r') :
    FirstOf (s ∪ s') (earlier r r') := by
  cases r with
  | none =>
      have hs : s = ∅ := h
      rw [hs, Set.empty_union]
      exact h'
  | some d =>
      cases r' with
      | none =>
          have hs' : s' = ∅ := h'
          rw [hs', Set.union_empty]
          exact h
      | some d' => exact IsLeast.union h h'

variable {g : GData} {l : List Nat}

/-- The deadline of the first connection on the list. -/
def idleFirst (g : GData) : List Nat → Option Nat
  | [] => none
  | c :: _ => (g.conns c).map fun conn => conn.lastActiveMs + kIdleTimeoutMs

/-- The value of the heap's root. -/
def keyFirst (g : GData) : Option Nat := g.heap.head?.map HeapItem.val

namespace TimersOk

-- The first connection on the list has been idle for the longest time.
theorem idle_first (h : TimersOk g l) : FirstOf (idleTimers g l) (idleFirst g l) := by
  cases l with
  | nil =>
      refine Set.eq_empty_iff_forall_notMem.mpr fun d hd => ?_
      rcases hd with ⟨c, hc, _⟩
      exact List.not_mem_nil hc
  | cons c l =>
      rcases h.live c List.mem_cons_self with ⟨conn, hc⟩
      rw [idleFirst, hc, Option.map_some]
      refine ⟨⟨c, List.mem_cons_self, conn, hc, rfl⟩, fun d hd => ?_⟩
      rcases hd with ⟨b, hb, x, hx, rfl⟩
      rcases List.mem_cons.mp hb with rfl | hb
      · rw [hc, Option.some.injEq] at hx
        rw [hx]
      · have hle := (List.pairwise_cons.mp h.ordered).1 b hb conn x hc hx
        omega

-- The root of the heap has the least value.
theorem key_first (h : TimersOk g l) : FirstOf (keyTimers g) (keyFirst g) := by
  unfold keyFirst
  cases hheap : g.heap with
  | nil =>
      refine Set.eq_empty_iff_forall_notMem.mpr fun d hd => ?_
      rcases hd with ⟨item, hitem, _⟩
      rw [hheap] at hitem
      exact List.not_mem_nil hitem
  | cons item rest =>
      have hroot : g.heap[0]? = some item := by rw [hheap, List.getElem?_cons_zero]
      refine ⟨⟨item, List.mem_of_getElem? hroot, rfl⟩, fun d hd => ?_⟩
      rcases hd with ⟨x, hx, rfl⟩
      rcases List.getElem_of_mem hx with ⟨i, hi, hxi⟩
      have hle := h.heap.root_le i hi
      rw [keyAt_eq hroot, keyAt_eq (by rw [List.getElem?_eq_getElem hi, hxi])] at hle
      exact hle

theorem first (h : TimersOk g l) :
    FirstOf (timers g l) (earlier (idleFirst g l) (keyFirst g)) :=
  h.idle_first.union h.key_first

end TimersOk

theorem ite_lt_eq_min (a b : Nat) : (if b < a then b else a) = min a b := by
  by_cases h : b < a
  · rw [if_pos h, min_eq_right (Nat.le_of_lt h)]
  · rw [if_neg h, min_eq_left (Nat.not_lt.mp h)]

/-- The timeout in terms of the earliest deadline. -/
theorem nextTimerMs_spec (h : TimersOk g l) (now : Nat) :
    nextTimerMs g now = .ok (match earlier (idleFirst g l) (keyFirst g) with
      | none => -1
      | some d => if d ≤ now then 0 else toI32 (d - now)) := by
  -- a stored deadline is never the value that stands for no timer
  have hkey : ∀ item rest, g.heap = item :: rest → item.val < 2 ^ 64 - 1 := by
    intro item rest hheap
    rcases h.stored item (by rw [hheap]; exact List.mem_cons_self) with
      ⟨clock, ttl, hclock, httl, hval⟩
    omega
  rcases h.ring.load_head with ⟨d, hload, hnext⟩
  cases l with
  | nil =>
      simp only [nextTimerMs, hload, ok_bind, hnext, List.map_nil, List.headD_nil, idleFirst,
        keyFirst]
      cases hheap : g.heap with
      | nil => rfl
      | cons item rest =>
          have hlt := hkey item rest hheap
          simp only [if_pos hlt, List.head?_cons, Option.map_some, earlier,
            if_neg (Nat.ne_of_lt hlt)]
          split_ifs
          · rfl
          · rfl
  | cons c l =>
      rcases h.live c List.mem_cons_self with ⟨conn, hc⟩
      have hclock := h.clock c List.mem_cons_self conn hc
      have hmod : (conn.lastActiveMs + kIdleTimeoutMs) % 2 ^ 64 =
          conn.lastActiveMs + kIdleTimeoutMs := by
        unfold kIdleTimeoutMs
        omega
      -- nor is the time a connection goes idle
      have hidle : conn.lastActiveMs + kIdleTimeoutMs ≠ 2 ^ 64 - 1 := by
        unfold kIdleTimeoutMs
        omega
      simp only [nextTimerMs, hload, ok_bind, hnext, List.map_cons, List.headD_cons, conn_eq hc,
        hmod, idleFirst, hc, Option.map_some, keyFirst]
      cases hheap : g.heap with
      | nil =>
          simp only [List.head?_nil, Option.map_none, earlier, if_neg hidle]
          split_ifs
          · rfl
          · rfl
      | cons item rest =>
          have hlt := hkey item rest hheap
          -- the two comparisons of the source keep the earlier one
          have hmin : (if item.val < conn.lastActiveMs + kIdleTimeoutMs then item.val
              else conn.lastActiveMs + kIdleTimeoutMs) =
              min (conn.lastActiveMs + kIdleTimeoutMs) item.val := ite_lt_eq_min _ _
          have hne : min (conn.lastActiveMs + kIdleTimeoutMs) item.val ≠ 2 ^ 64 - 1 := by omega
          simp only [hmin, List.head?_cons, Option.map_some, earlier, if_neg hne]
          split_ifs
          · rfl
          · rfl

-- A time that is not zero modulo `2 ^ 32` and below `2 ^ 31` is kept or made
-- shorter. Any other becomes zero or negative.
theorem toI32_bounds {n : Nat} (hn : 0 < n % 2 ^ 32) (hlt : n % 2 ^ 32 < 2 ^ 31) :
    0 < toI32 n ∧ toI32 n ≤ n := by
  unfold toI32
  rw [if_pos hlt]
  omega

theorem toI32_pos {n : Nat} (h : 0 < toI32 n) : 0 < n % 2 ^ 32 ∧ n % 2 ^ 32 < 2 ^ 31 := by
  unfold toI32 at h
  by_cases hlt : n % 2 ^ 32 < 2 ^ 31
  · rw [if_pos hlt] at h
    omega
  · rw [if_neg hlt] at h
    omega

-- A state without connections and with one deadline.
theorem timersOk_alone {g : GData} {v : Nat} (hlist : g.idleList .head =
    some ⟨some .head, some .head⟩) (hheap : g.heap = [⟨v, some 0⟩]) (hv : v < 2 ^ 63) :
    TimersOk g [] ∧ IsLeast (timers g []) v := by
  have hring : IdleRing g.idleList [] := by
    refine ⟨List.nodup_singleton _, List.isChain_pair.mpr ⟨?_, ?_⟩⟩
    · rw [nextOf, hlist]
      rfl
    · rw [prevOf, hlist]
      rfl
  have hok : TimersOk g [] := by
    refine ⟨hring, fun c hc => absurd hc List.not_mem_nil, List.Pairwise.nil, fun i hi hlt => ?_,
      fun c hc => absurd hc List.not_mem_nil, fun item hitem => ?_⟩
    · rw [hheap, List.length_singleton] at hlt
      omega
    · rw [hheap, List.mem_singleton] at hitem
      exact ⟨0, v, by decide, hv, by rw [hitem, Nat.zero_add]⟩
  have hfirst := hok.first
  rw [idleFirst, keyFirst, hheap] at hfirst
  exact ⟨hok, hfirst⟩

/-- One deadline and no connection. -/
def oneTimer : GData where
  heap := [⟨5, some 0⟩]

/-- The timeout is what the timers ask for exactly when none is left, or when
    the time to the earliest deadline, modulo `2 ^ 32`, is from 1 to
    `2 ^ 31 - 1`. -/
theorem timeout_iff (g : GData) (l : List Nat) (h : TimersOk g l) (now : Nat) :
    ∃ t, nextTimerMs g now = .ok t ∧
      (TimeoutOk g l now t ↔ ∀ d, IsLeast (timers g l) d → now < d →
        0 < (d - now) % 2 ^ 32 ∧ (d - now) % 2 ^ 32 < 2 ^ 31) := by
  refine ⟨_, nextTimerMs_spec h now, ?_⟩
  have hfirst := h.first
  cases hr : earlier (idleFirst g l) (keyFirst g) with
  | none =>
      rw [hr] at hfirst
      have hempty : timers g l = ∅ := hfirst
      have hno : ∀ d, ¬ IsLeast (timers g l) d := by
        intro d hd
        rw [hempty] at hd
        exact hd.1
      refine ⟨fun _ d hd => absurd hd (hno d), fun _ => ⟨⟨fun _ => hempty, fun _ => rfl⟩, ?_,
        fun d hd => absurd hd (hno d)⟩⟩
      refine ⟨fun h0 => ?_, fun hex => ?_⟩
      · have h0' : (-1 : Int) = 0 := h0
        exact absurd h0' (by decide)
      rcases hex with ⟨d, hd, _⟩
      exact absurd hd (hno d)
  | some d =>
      rw [hr] at hfirst
      have hd : IsLeast (timers g l) d := hfirst
      have hunique : ∀ d', IsLeast (timers g l) d' → d' = d := fun d' hd' => hd'.unique hd
      have hne : timers g l ≠ ∅ := Set.nonempty_iff_ne_empty.mp ⟨d, hd.1⟩
      -- a timer that is due is answered with 0, whatever the width of the result
      by_cases hpast : d ≤ now
      · simp only [if_pos hpast]
        refine ⟨fun _ d' hd' hlt => ?_, fun _ => ⟨⟨fun h0 => absurd h0 (by decide),
          fun hempty => absurd hempty hne⟩, ⟨fun _ => ⟨d, hd, hpast⟩, fun _ => rfl⟩,
          fun d' hd' hlt => ?_⟩⟩
        · rw [hunique d' hd'] at hlt
          omega
        · rw [hunique d' hd'] at hlt
          omega
      · simp only [if_neg hpast]
        have hlt : now < d := Nat.lt_of_not_le hpast
        constructor
        · intro hok d' hd' _
          rw [hunique d' hd']
          exact toI32_pos (hok.wait d hd hlt).1
        · intro hcond
          -- the wait fits in 31 bits after the truncation, so it is positive and not too long
          rcases toI32_bounds (hcond d hd hlt).1 (hcond d hd hlt).2 with ⟨hpos, hle⟩
          refine ⟨⟨fun h0 => ?_, fun hempty => absurd hempty hne⟩, ⟨fun h0 => ?_, fun hex => ?_⟩,
            fun d' hd' _ => ?_⟩
          · omega
          · omega
          · rcases hex with ⟨d', hd', hle'⟩
            rw [hunique d' hd'] at hle'
            omega
          · rw [hunique d' hd']
            omega

theorem timeout_iff_five :
    ∃ t, nextTimerMs oneTimer 2 = .ok t ∧
      (TimeoutOk oneTimer [] 2 t ↔ ∀ d, IsLeast (timers oneTimer []) d → 2 < d →
        0 < (d - 2) % 2 ^ 32 ∧ (d - 2) % 2 ^ 32 < 2 ^ 31) :=
  timeout_iff oneTimer [] (timersOk_alone rfl rfl (by decide)).1 2

/-- A key gets a deadline, and its connection is closed. -/
def keyLeft (ttl : String) : List Event :=
  [.accept 5 0, .request 0 [ascii "set", ascii "k", ascii "v"] 0,
    .request 0 [ascii "pexpire", ascii "k", ascii ttl] 0, .close 0]

theorem keyLeft_state : (run (serverStep noDoubles) {} (keyLeft "2147483648")).map
    (fun x => (x.1.idleList .head, x.1.heap, nextTimerMs x.1 0)) =
    .ok (some ⟨some .head, some .head⟩, [⟨2 ^ 31, some 0⟩], .ok (-(2 ^ 31))) := by
  decide +kernel

/-- The key of a connection that was closed is due in `2 ^ 31` milliseconds,
    and the timeout is negative. -/
theorem timeout_forever :
    ∃ g rs, run (serverStep noDoubles) {} (keyLeft "2147483648") = .ok (g, rs) ∧
      TimersOk g [] ∧ IsLeast (timers g []) (2 ^ 31) ∧
      nextTimerMs g 0 = .ok (-(2 ^ 31)) ∧ ¬ TimeoutOk g [] 0 (-(2 ^ 31)) := by
  have hstate := keyLeft_state
  rcases hrun : run (serverStep noDoubles) {} (keyLeft "2147483648") with _ | ⟨g, rs⟩
  · rw [hrun] at hstate
    exact absurd hstate (by simp only [Except.map, reduceCtorEq, not_false_eq_true])
  · rw [hrun, Except.map, Except.ok.injEq] at hstate
    simp only [Prod.mk.injEq] at hstate
    rcases hstate with ⟨hlist, hheap, htimeout⟩
    rcases timersOk_alone hlist hheap (by decide) with ⟨hok, hleast⟩
    refine ⟨g, rs, rfl, hok, hleast, htimeout, fun h => ?_⟩
    have hwait := (h.wait _ hleast (by decide)).1
    omega

end RedisServer
