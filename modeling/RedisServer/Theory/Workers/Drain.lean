import Mathlib.Algebra.Order.BigOperators.Group.List
import RedisServer.Lib.Potential
import RedisServer.Theory.Workers.Monitor

/-!
# Every Job Is Done

No wake-up is lost. While there is a job some worker is awake, or the main
thread is about to signal, so when no thread can go on every worker is asleep
and the queue is empty: all jobs were done. And threads that are left to
themselves come to that point: every step of a thread takes one off a
potential, which a job adds to when it is put, and a worker when it wakes up
for no reason.

## Main definitions

* `WorkerAt.rank`, `TheadPool.load`: The potential.
* `TheadPool.Settled`: No thread can go on.

## Theorems

* `poolStep_pays`: One step.
* `Monitor.done`: When no thread can go on.
* `pool_drains`: Threads left to themselves.
-/

namespace RedisServer

open Lib

/-- How many steps a worker has before it sleeps. A job at the front of the queue
    counts for the way around the loop. -/
def WorkerAt.rank {α : Type} : WorkerAt α → Nat
  | .blocked => 0
  | .pop => 1
  | .test => 2
  | .lock => 3
  | .woken => 3
  | .work _ => 4
  | .unlock _ => 5

/-- How many steps the main thread has, and adds to those of `n` workers, before
    it is out of `thread_pool_queue`. -/
def QueueAt.rank {α : Type} (n : Nat) : QueueAt α → Nat
  | .out => 0
  | .unlock => 1
  | .signal => 3 * n + 2
  | .push _ => 3 * n + 8
  | .lock _ => 3 * n + 9

/-- An event that wakes a worker up for no reason. -/
def PoolAct.isSpurious {α : Type} : PoolAct α → Bool
  | .spurious _ => true
  | _ => false

namespace TheadPool

variable {α : Type} {p p' : TheadPool α}

/-- The steps the workers have before they sleep. -/
def ranks (p : TheadPool α) : Nat := (p.threads.map WorkerAt.rank).sum

/-- The potential of the pool. -/
def load (p : TheadPool α) : Nat :=
  p.ranks + 5 * p.queue.length + p.main.rank p.threads.length

/-- No thread can go on. -/
def Settled (p : TheadPool α) : Prop :=
  (∀ wakes, p.queueStep wakes = p) ∧ ∀ i, p.workerStep i = .ok p

theorem ranks_moved {i : Nat} {x : WorkerAt α} (hi : p.threads[i]? = some x) (y : WorkerAt α) :
    (p.moved i y).ranks + x.rank = p.ranks + y.rank := sum_set WorkerAt.rank hi y

/-- A worker that goes on takes one off the potential. -/
theorem worker_pays {i : Nat} (h : WorkerMove p i p') : p' = p ∨ p'.load < p.load := by
  have hlen := h.length
  rw [load, load, hlen]
  cases h with
  | absent _ | asleep _ | contend _ _ _ _ => exact Or.inl rfl
  | lock x hi hx _ =>
      right
      have hranks := ranks_moved hi .test
      have hx' : x.rank = 3 := by
        rcases hx with rfl | rfl <;> rfl
      have hy : (WorkerAt.test : WorkerAt α).rank = 2 := rfl
      rw [hx', hy] at hranks
      change (p.moved i .test).ranks + 5 * p.queue.length + p.main.rank _ < _
      omega
  | block hi _ =>
      right
      have hranks := ranks_moved hi .blocked
      simp only [WorkerAt.rank] at hranks
      change (p.moved i .blocked).ranks + 5 * p.queue.length + p.main.rank _ < _
      omega
  | test hi _ =>
      right
      have hranks := ranks_moved hi .pop
      simp only [WorkerAt.rank] at hranks
      change (p.moved i .pop).ranks + 5 * p.queue.length + p.main.rank _ < _
      omega
  -- the job leaves the queue, and takes its worker once around the loop
  | pop w queue hi hq =>
      right
      have hranks := ranks_moved hi (.unlock w)
      simp only [WorkerAt.rank] at hranks
      rw [hq, List.length_cons]
      change (p.moved i (.unlock w)).ranks + 5 * queue.length + p.main.rank _ < _
      omega
  | unlock w hi =>
      right
      have hranks := ranks_moved hi (.work w)
      simp only [WorkerAt.rank] at hranks
      change (p.moved i (.work w)).ranks + 5 * p.queue.length + p.main.rank _ < _
      omega
  | work w hi =>
      right
      have hranks := ranks_moved hi .lock
      simp only [WorkerAt.rank] at hranks
      change (p.moved i .lock).ranks + 5 * p.queue.length + p.main.rank _ < _
      omega

/-- Threads that wake up have three steps before they sleep again. -/
theorem Roused.ranks (h : Roused p p') : p'.ranks ≤ p.ranks + 3 * p.threads.length := by
  refine sum_le_of_get WorkerAt.rank 3 h.length fun i x y hx hy => ?_
  rcases h.get i with hsame | ⟨hold, hnew⟩
  · rw [hsame, hx, Option.some.injEq] at hy
    rw [hy]
    omega
  · rw [hold, Option.some.injEq] at hx
    rw [hnew, Option.some.injEq] at hy
    rw [← hx, ← hy]
    exact Nat.le_refl _

/-- So does the main thread. -/
theorem queue_pays {wakes : List Nat} (h : QueueMove p wakes p') :
    p' = p ∨ p'.load < p.load := by
  have hlen := h.length
  rw [load, load, hlen]
  cases h with
  | out _ | contend _ _ _ | held _ _ _ _ => exact Or.inl rfl
  | lock w hm _ =>
      right
      rw [hm]
      change p.ranks + 5 * p.queue.length + (3 * p.threads.length + 8) <
        p.ranks + 5 * p.queue.length + (3 * p.threads.length + 9)
      omega
  | push w hm =>
      right
      rw [hm]
      change p.ranks + 5 * (p.queue ++ [w]).length + (3 * p.threads.length + 2) <
        p.ranks + 5 * p.queue.length + (3 * p.threads.length + 8)
      rw [List.length_append, List.length_singleton]
      omega
  | signal q hm hroused _ =>
      right
      have hranks := hroused.ranks
      have hqueue : q.queue = p.queue := by rw [hroused.rest]
      rw [hm]
      change q.ranks + 5 * q.queue.length + 1 <
        p.ranks + 5 * p.queue.length + (3 * p.threads.length + 2)
      rw [hqueue]
      omega
  | unlock hm =>
      right
      rw [hm]
      change p.ranks + 5 * p.queue.length + 0 < p.ranks + 5 * p.queue.length + 1
      omega

theorem wake_load (p : TheadPool α) (i : Nat) : (p.wake i).load ≤ p.load + 3 := by
  rw [wake]
  by_cases hb : (p.threads[i]?).any WorkerAt.isBlocked = true
  · rw [if_pos hb, load, load]
    have hranks := ranks_moved (any_isBlocked.mp hb) .woken
    simp only [WorkerAt.rank] at hranks
    have hlen : (p.moved i .woken).threads.length = p.threads.length := List.length_set
    rw [hlen]
    change (p.moved i .woken).ranks + 5 * p.queue.length + p.main.rank _ ≤ _
    omega
  · rw [if_neg hb]
    omega

/-- A step of the threads, without a call of `thread_pool_queue`, is paid for by
    the potential. A worker that wakes up for no reason adds four. -/
theorem poolStep_pays [DecidableEq α] (h : p.Monitor) {act : PoolAct α}
    (hcall : ∀ w, act ≠ .call w) {u : Unit} (hrun : p.poolStep act = .ok (p', u)) :
    p'.load + (if p' = p then 0 else 1) ≤ p.load + if act.isSpurious then 4 else 0 := by
  -- what a step that goes on takes off pays for counting it
  have hpays : p' = p ∨ p'.load < p.load → p'.load + (if p' = p then 0 else 1) ≤ p.load := by
    rintro (hsame | hless)
    · rw [if_pos hsame, hsame]
      exact Nat.le_refl _
    · split <;> omega
  cases act with
  | call w => exact absurd rfl (hcall w)
  | main wakes =>
      rw [poolStep, Except.ok.injEq, Prod.mk.injEq] at hrun
      rw [← hrun.1] at hpays ⊢
      exact hpays (queue_pays (queueStep_cases p wakes))
  | worker i =>
      rcases workerStep_cases p i (h.front i) with ⟨q, hq, hmove⟩
      rw [poolStep, hq, ok_bind, Except.ok.injEq, Prod.mk.injEq] at hrun
      rw [← hrun.1] at hpays ⊢
      exact hpays (worker_pays hmove)
  | spurious i =>
      rw [poolStep, Except.ok.injEq, Prod.mk.injEq] at hrun
      have hload := wake_load p i
      rw [hrun.1] at hload
      change _ ≤ p.load + 4
      split <;> omega

/-! ## When no thread can go on -/

theorem moved_ne {i : Nat} {x y : WorkerAt α} (hi : p.threads[i]? = some x) (hne : y ≠ x)
    (h : p'.threads = (p.moved i y).threads) : p' ≠ p := by
  intro heq
  have hget := Monitor.moved_self hi y
  rw [← h, heq, hi, Option.some.injEq] at hget
  exact hne hget.symm

/-- A worker that does not go on sleeps, or waits for the mutex. -/
theorem WorkerMove.stuck {i : Nat} {x : WorkerAt α} (h : WorkerMove p i p') (heq : p' = p)
    (hi : p.threads[i]? = some x) : x = .blocked ∨ (x.holds = false ∧ p.mu ≠ none) := by
  cases h with
  | absent hnone =>
      rw [hi] at hnone
      cases hnone
  | asleep hb =>
      rw [hi, Option.some.injEq] at hb
      exact Or.inl hb
  | contend y hy hwaits hmu =>
      rw [hi, Option.some.injEq] at hy
      refine Or.inr ⟨?_, hmu⟩
      rw [hy]
      rcases hwaits with rfl | rfl <;> rfl
  | lock y hy hwaits _ =>
      have hne : WorkerAt.test ≠ y := by
        rcases hwaits with rfl | rfl <;> simp only [ne_eq, reduceCtorEq, not_false_eq_true]
      exact absurd heq (moved_ne hy hne rfl)
  | block hy _ | test hy _ | pop _ _ hy _ | unlock _ hy | work _ hy =>
      refine absurd heq (moved_ne hy ?_ rfl)
      simp only [ne_eq, reduceCtorEq, not_false_eq_true]

/-- The main thread, when it does not go on whomever it wakes, is outside of
    `thread_pool_queue` or waits for the mutex. -/
theorem queue_stuck (h : ∀ wakes, p.queueStep wakes = p) :
    p.main = .out ∨ (p.main.holds = false ∧ p.mu ≠ none) := by
  have hmove := queueStep_cases p (List.range p.threads.length)
  have heq := h (List.range p.threads.length)
  -- every step changes where the main thread is
  have hmain := congrArg TheadPool.main heq
  generalize p.queueStep (List.range p.threads.length) = q at hmove heq hmain
  cases hmove with
  | out hm => exact Or.inl hm
  | contend w hm hmu => exact Or.inr ⟨by rw [hm]; rfl, hmu⟩
  | held i hm hi hno =>
      exact absurd (List.mem_range.mpr (List.getElem?_eq_some_iff.mp hi).1) hno
  | lock _ hm _ | push _ hm | signal _ hm _ _ | unlock hm =>
      rw [hm] at hmain
      cases hmain

/-- Threads that sleep have nothing to do. -/
theorem settled_of_asleep (hout : p.main = .out) (hasleep : ∀ x ∈ p.threads, x = .blocked) :
    p.Settled := by
  refine ⟨fun wakes => ?_, fun i => ?_⟩
  · rw [queueStep, hout]
  · rw [workerStep]
    cases hi : p.threads[i]? with
    | none => rfl
    | some x => rw [hasleep x (List.mem_of_getElem? hi)]

namespace Monitor

/-- The owner of the mutex can always go on. -/
theorem free (h : p.Monitor) (hs : p.Settled) : p.mu = none := by
  cases hmu : p.mu with
  | none => rfl
  | some t =>
      have hthere : p.holds t = true := (h.guards t).mp hmu
      cases t with
      | main =>
          rcases queue_stuck hs.1 with hout | ⟨hwaits, _⟩
          · rw [holds, hout] at hthere
            cases hthere
          · rw [holds, hwaits] at hthere
            cases hthere
      | worker i =>
          rw [holds, Option.any_eq_true] at hthere
          rcases hthere with ⟨x, hi, hx⟩
          rcases workerStep_cases p i (h.front i) with ⟨q, hq, hmove⟩
          rw [hs.2 i, Except.ok.injEq] at hq
          rcases hmove.stuck hq.symm hi with hb | ⟨hwaits, _⟩
          · rw [hb] at hx
            cases hx
          · rw [hwaits] at hx
            cases hx

/-- When no thread can go on, all workers sleep, the main thread is outside of
    `thread_pool_queue`, and no job is left. -/
theorem done (h : p.Monitor) (hs : p.Settled) :
    p.main = .out ∧ (∀ x ∈ p.threads, x = .blocked) ∧ p.queue = [] := by
  have hfree := h.free hs
  have hout : p.main = .out := by
    rcases queue_stuck hs.1 with hout | ⟨_, hmu⟩
    · exact hout
    · exact absurd hfree hmu
  have hasleep : ∀ (i : Nat) (x : WorkerAt α), p.threads[i]? = some x → x = .blocked := by
    intro i x hi
    rcases workerStep_cases p i (h.front i) with ⟨q, hq, hmove⟩
    rw [hs.2 i, Except.ok.injEq] at hq
    rcases hmove.stuck hq.symm hi with hb | ⟨_, hmu⟩
    · exact hb
    · exact absurd hfree hmu
  refine ⟨hout, fun x hx => ?_, ?_⟩
  · rcases List.getElem?_of_mem hx with ⟨i, hi⟩
    exact hasleep i x hi
  -- a job that is left keeps somebody awake
  · by_contra hne
    rcases h.awake hne with hsig | ⟨i, x, hi, hx⟩
    · rw [hout] at hsig
      cases hsig
    · exact hx (hasleep i x hi)

end Monitor

theorem rank_le (x : WorkerAt α) : x.rank ≤ 5 := by
  cases x <;> simp only [WorkerAt.rank] <;> omega

theorem load_le (p : TheadPool α) :
    p.load ≤ 5 * p.queue.length + 8 * p.threads.length + 9 := by
  have hranks : p.ranks ≤ p.threads.length * 5 := by
    have hall : ∀ r ∈ p.threads.map WorkerAt.rank, r ≤ 5 := by
      intro r hr
      rcases List.mem_map.mp hr with ⟨x, _, rfl⟩
      exact rank_le x
    have hsum := List.sum_le_card_nsmul _ 5 hall
    rw [List.length_map] at hsum
    exact hsum
  have hmain : p.main.rank p.threads.length ≤ 3 * p.threads.length + 9 := by
    cases p.main <;> simp only [QueueAt.rank] <;> omega
  rw [load]
  omega

/-- What the events of a run add to the potential. -/
theorem cost_eq (acts : List (PoolAct α)) :
    (acts.map fun act => if act.isSpurious then 4 else 0).sum =
      4 * acts.countP PoolAct.isSpurious := by
  induction acts with
  | nil => rfl
  | cons act acts ih =>
      rw [List.map_cons, List.sum_cons, List.countP_cons, ih]
      split <;> omega

theorem step_pays [DecidableEq α] (p : TheadPool α) (act : PoolAct α) (p' : TheadPool α) (u : Unit)
    (h : p.Monitor) (hcall : ∀ w, act ≠ .call w) (hrun : p.poolStep act = .ok (p', u)) :
    p'.Monitor ∧
      p'.load + (if p' = p then 0 else 1) ≤ p.load + if act.isSpurious then 4 else 0 := by
  rcases poolStep_spec h act with ⟨q, hq, hmon, _⟩
  have hsame : p' = q := by
    rw [hq, Except.ok.injEq, Prod.mk.injEq] at hrun
    exact hrun.1.symm
  rw [← hsame] at hmon
  exact ⟨hmon, poolStep_pays h hcall hrun⟩

/-- When every worker sleeps and the queue is empty, what was put was taken and
    finished. -/
theorem all_finished (h : p.jobs.Conserved) (hasleep : ∀ x ∈ p.threads, x = .blocked)
    (hqueue : p.queue = []) : p.taken.map Prod.snd = p.put ∧ p.finished.Perm p.put := by
  have htaken : p.taken.map Prod.snd = p.put := by
    have hfifo : p.put = p.taken.map Prod.snd ++ p.queue := h.fifo
    rw [hfifo, hqueue, List.append_nil]
  have hidle : p.jobs.held.reduceOption = [] := by
    have hnone : p.jobs.held = List.replicate p.threads.length none := by
      refine List.eq_replicate_iff.mpr ⟨List.length_map _, fun o ho => ?_⟩
      rcases List.mem_map.mp ho with ⟨x, hx, rfl⟩
      rw [hasleep x hx]
      rfl
    rw [hnone, List.reduceOption_replicate_none]
  have hplaced : (p.taken.map Prod.snd).Perm (p.jobs.held.reduceOption ++ p.finished) := h.placed
  rw [hidle, List.nil_append, htaken] at hplaced
  exact ⟨htaken, hplaced.symm⟩

end TheadPool

/-- Threads that are left to themselves, however they interleave, go on for a
    number of steps that the jobs in the queue and the workers bound, and each
    worker that wakes up for no reason adds four. When none can go on every
    worker sleeps, the queue is empty, and every job that was put was taken in
    its turn and is finished. -/
theorem pool_drains {α : Type} [DecidableEq α] {n : Nat} (hn : 0 < n)
    (acts acts' : List (PoolAct α)) (hcall : ∀ w, PoolAct.call w ∉ acts') :
    ∃ p₀ p us p' us', threadPoolInit n = .ok p₀ ∧
      run TheadPool.poolStep p₀ acts = .ok (p, us) ∧
      run TheadPool.poolStep p acts' = .ok (p', us') ∧
      stepsMoved TheadPool.poolStep (fun p p' => p' = p) p acts' ≤
        5 * p.queue.length + 8 * n + 9 + 4 * acts'.countP PoolAct.isSpurious ∧
      (p'.Settled → p'.main = .out ∧ (∀ x ∈ p'.threads, x = .blocked) ∧ p'.queue = [] ∧
        p'.taken.map Prod.snd = p'.put ∧ p'.finished.Perm p'.put) := by
  have hinit : (threadPoolInit n : Result (TheadPool α)) =
      .ok { threads := List.replicate n .lock } := if_neg (Nat.ne_of_gt hn)
  rcases TheadPool.monitor_init hinit with ⟨h, hstart, hn'⟩
  rcases TheadPool.poolRun_spec h acts with ⟨p, us, hrun, hp, hlen, ops, hops⟩
  rcases TheadPool.poolRun_spec hp acts' with ⟨p', us', hrun', hp', _, ops', hops'⟩
  refine ⟨_, p, us, p', us', hinit, hrun, hrun', ?_, fun hs => ?_⟩
  · have hG : Guarded TheadPool.poolStep (fun _ act => ∀ w, act ≠ PoolAct.call w) p acts' := by
      refine guarded_of_forall (fun act hact _ w heq => ?_) p
      rw [heq] at hact
      exact hcall w hact
    have hsteps : stepsMoved TheadPool.poolStep (fun p p' => p' = p) p acts' ≤
        p.load + (acts'.map fun act => if act.isSpurious then 4 else 0).sum :=
      stepsMoved_le TheadPool.step_pays hp hG
    have hload := p.load_le
    have hcost := TheadPool.cost_eq acts'
    rw [hlen, hn'] at hload
    omega
  · have hconserved : p'.jobs.Conserved := by
      rw [hops', hops, hstart]
      exact TheadPool.conserved_ops (TheadPool.conserved_ops (WorkPool.conserved_start n) ops) ops'
    rcases hp'.done hs with ⟨hout, hasleep, hqueue⟩
    rcases TheadPool.all_finished hconserved hasleep hqueue with ⟨htaken, hfinished⟩
    exact ⟨hout, hasleep, hqueue, htaken, hfinished⟩

/-- Two workers fall asleep, and two jobs are put before one of them is done. -/
def drainStart : List (PoolAct Nat) :=
  [.worker 0, .worker 0, .worker 1, .worker 1, .call 7, .main [], .main [], .main [0], .main [],
    .call 8, .main [], .main [], .main [1], .main []]

/-- Both workers come for a job, and go to sleep again. -/
def drainRest : List (PoolAct Nat) :=
  [.worker 1, .worker 0, .worker 1, .worker 1, .worker 1, .worker 0, .worker 1, .worker 0,
    .worker 0, .worker 0, .worker 0, .worker 1, .worker 1, .worker 0, .worker 0]

/-- The two jobs are finished. -/
theorem pool_drains_two :
    ∃ p₀ p us p' us', threadPoolInit 2 = .ok p₀ ∧
      run TheadPool.poolStep p₀ drainStart = .ok (p, us) ∧
      run TheadPool.poolStep p drainRest = .ok (p', us') ∧
      stepsMoved TheadPool.poolStep (fun p p' => p' = p) p drainRest ≤ 5 * p.queue.length + 25 ∧
      p'.put = [7, 8] ∧ p'.finished.Perm [7, 8] := by
  rcases pool_drains (n := 2) (by decide) drainStart drainRest
      (by simp only [drainRest, List.mem_cons, reduceCtorEq, List.not_mem_nil, or_self,
        not_false_eq_true, implies_true]) with
    ⟨p₀, p, us, p', us', hinit, hrun, hrun', hsteps, hdone⟩
  have hends : endsIn TheadPool.poolStep (fun p' _ =>
      (p'.main = .out ∧ ∀ x ∈ p'.threads, x = .blocked) ∧ p'.put = [7, 8]) p drainRest = true := by
    have hstart : endsIn TheadPool.poolStep (fun p _ => endsIn TheadPool.poolStep (fun p' _ =>
        (p'.main = .out ∧ ∀ x ∈ p'.threads, x = .blocked) ∧ p'.put = [7, 8]) p drainRest)
        p₀ drainStart = true := by
      rw [threadPoolInit, if_neg (by decide), Except.ok.injEq] at hinit
      rw [← hinit]
      decide
    rw [endsIn, hrun] at hstart
    exact hstart
  rw [endsIn, hrun', decide_eq_true_iff] at hends
  rcases hends with ⟨⟨hout, hasleep⟩, hput⟩
  rcases hdone (TheadPool.settled_of_asleep hout hasleep) with ⟨-, -, -, -, hfinished⟩
  rw [hput] at hfinished
  exact ⟨p₀, p, us, p', us', hinit, hrun, hrun', hsteps, hput, hfinished⟩

end RedisServer
