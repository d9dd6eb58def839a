import RedisServer.Core.Workers
import RedisServer.Lib.Run

/-!
# The Queue Under the Mutex

Only the thread that has the mutex looks at the queue, so a worker that found
the queue not empty finds a job at its front, and the steps of `thread_pool.cpp`
come to those of the pool whose steps are atomic: a job is put when it is pushed,
taken when it is popped, and finished when its function returns. At every other
step that pool stands still.

## Main definitions

* `TheadPool.holds`: Who is where only the owner of the mutex may be.
* `WorkerMove`: What a step of a worker can do.
* `TheadPool.jobs`, `PoolOp`: The atomic pool.
* `Monitor`: The invariant.

## Theorems

* `workerStep_cases`: Which step it is.
* `Monitor.worker`, `Monitor.queue`: The steps keep the invariant.
* `pool_refines`: Every run is one of the atomic pool.
-/

namespace RedisServer

open Lib

namespace WorkerAt

variable {α : Type}

/-- The worker is between taking and releasing the mutex. -/
def holds : WorkerAt α → Bool
  | .test => true
  | .pop => true
  | .unlock _ => true
  | _ => false

end WorkerAt

/-- The main thread is between taking and releasing the mutex. -/
def QueueAt.holds {α : Type} : QueueAt α → Bool
  | .push _ => true
  | .signal => true
  | .unlock => true
  | _ => false

/-- A step of the atomic pool. -/
inductive PoolOp (α : Type)
  | push (w : α)
  | take (i : Nat)
  | finish (i : Nat)

/-- The atomic pool after a step. -/
def PoolOp.apply {α : Type} (p : WorkPool α) : PoolOp α → WorkPool α
  | .push w => p.push w
  | .take i => p.take i
  | .finish i => p.finish i

namespace TheadPool

variable {α : Type}

/-- A thread is between taking and releasing the mutex. -/
def holds (p : TheadPool α) : Owner → Bool
  | .main => p.main.holds
  | .worker i => (p.threads[i]?).any WorkerAt.holds

/-- The atomic pool: the queue, the jobs the workers hold, and the history. -/
def jobs (p : TheadPool α) : WorkPool α :=
  { queue := p.queue, held := p.threads.map WorkerAt.job, put := p.put, taken := p.taken,
    finished := p.finished }

/-- What a step of a worker can do: it is not there, it sleeps, it waits for the
    mutex, or it goes on. -/
inductive WorkerMove (p : TheadPool α) (i : Nat) : TheadPool α → Prop
  | absent : p.threads[i]? = none → WorkerMove p i p
  | asleep : p.threads[i]? = some .blocked → WorkerMove p i p
  | contend (x : WorkerAt α) : p.threads[i]? = some x → x = .lock ∨ x = .woken → p.mu ≠ none →
      WorkerMove p i p
  | lock (x : WorkerAt α) : p.threads[i]? = some x → x = .lock ∨ x = .woken → p.mu = none →
      WorkerMove p i { p.moved i .test with mu := some (.worker i) }
  | block : p.threads[i]? = some .test → p.queue = [] →
      WorkerMove p i { p.moved i .blocked with mu := none }
  | test : p.threads[i]? = some .test → p.queue ≠ [] → WorkerMove p i (p.moved i .pop)
  | pop (w : α) (queue : List α) : p.threads[i]? = some .pop → p.queue = w :: queue →
      WorkerMove p i { p.moved i (.unlock w) with queue := queue, taken := p.taken ++ [(i, w)] }
  | unlock (w : α) : p.threads[i]? = some (.unlock w) →
      WorkerMove p i { p.moved i (.work w) with mu := none }
  | work (w : α) : p.threads[i]? = some (.work w) →
      WorkerMove p i { p.moved i .lock with finished := p.finished ++ [w] }

/-- A worker takes one of these steps, unless it looks for the front of an empty
    queue. -/
theorem workerStep_cases (p : TheadPool α) (i : Nat)
    (hpop : p.threads[i]? = some .pop → p.queue ≠ []) :
    ∃ p', p.workerStep i = .ok p' ∧ WorkerMove p i p' := by
  rw [workerStep]
  cases hi : p.threads[i]? with
  | none => exact ⟨p, rfl, .absent hi⟩
  | some x =>
      cases x with
      | lock =>
          by_cases hmu : p.mu = none
          · exact ⟨_, if_pos hmu, .lock .lock hi (Or.inl rfl) hmu⟩
          · exact ⟨_, if_neg hmu, .contend .lock hi (Or.inl rfl) hmu⟩
      | woken =>
          by_cases hmu : p.mu = none
          · exact ⟨_, if_pos hmu, .lock .woken hi (Or.inr rfl) hmu⟩
          · exact ⟨_, if_neg hmu, .contend .woken hi (Or.inr rfl) hmu⟩
      | test =>
          by_cases hq : p.queue = []
          · exact ⟨_, if_pos (List.isEmpty_iff.mpr hq), .block hi hq⟩
          · exact ⟨_, if_neg (fun h => hq (List.isEmpty_iff.mp h)), .test hi hq⟩
      | blocked => exact ⟨p, rfl, .asleep hi⟩
      | pop =>
          cases hq : p.queue with
          | nil => exact absurd hq (hpop hi)
          | cons w queue => exact ⟨_, rfl, .pop w queue hi hq⟩
      | unlock w => exact ⟨_, rfl, .unlock w hi⟩
      | work w => exact ⟨_, rfl, .work w hi⟩

/-! ## Who has the mutex -/

variable {p p' : TheadPool α}

/-- Exactly the owner of the mutex is between taking and releasing it. -/
def Guards (p : TheadPool α) : Prop := ∀ t, p.mu = some t ↔ p.holds t = true

theorem holds_moved {i : Nat} {x : WorkerAt α} (hi : p.threads[i]? = some x) (y : WorkerAt α)
    (t : Owner) : (p.moved i y).holds t = if t = .worker i then y.holds else p.holds t := by
  have hlt := (List.getElem?_eq_some_iff.mp hi).1
  cases t with
  | main => rfl
  | worker j =>
      simp only [holds, moved]
      by_cases hij : j = i
      · rw [if_pos (by rw [hij]), hij, List.getElem?_set_self hlt]
        rfl
      · rw [if_neg (fun h => hij (Owner.worker.inj h)), List.getElem?_set_ne (Ne.symm hij)]

theorem holds_worker {i : Nat} {x : WorkerAt α} (hi : p.threads[i]? = some x) :
    p.holds (.worker i) = x.holds := by
  rw [holds, hi]
  rfl

namespace Guards

/-- Nobody enters or leaves. -/
theorem same (h : p.Guards) (hmu : p'.mu = p.mu) (hholds : ∀ t, p'.holds t = p.holds t) :
    p'.Guards := by
  intro t
  rw [hmu, hholds]
  exact h t

/-- A thread takes the mutex. -/
theorem acquire (h : p.Guards) {t₀ : Owner} (hfree : p.mu = none) (hmu : p'.mu = some t₀)
    (hself : p'.holds t₀ = true) (hother : ∀ t, t ≠ t₀ → p'.holds t = p.holds t) :
    p'.Guards := by
  intro t
  rw [hmu, Option.some.injEq]
  by_cases ht : t = t₀
  · rw [ht, hself]
    exact ⟨fun _ => rfl, fun _ => rfl⟩
  · rw [hother t ht, ← h t, hfree]
    exact ⟨fun heq => absurd heq.symm ht, fun hnone => (by cases hnone)⟩

/-- A thread releases the mutex. -/
theorem release (h : p.Guards) {t₀ : Owner} (hold : p.holds t₀ = true) (hmu : p'.mu = none)
    (hself : p'.holds t₀ = false) (hother : ∀ t, t ≠ t₀ → p'.holds t = p.holds t) :
    p'.Guards := by
  intro t
  rw [hmu]
  by_cases ht : t = t₀
  · rw [ht, hself]
    exact ⟨fun hnone => (by cases hnone), fun hfalse => absurd hfalse Bool.false_ne_true⟩
  · rw [hother t ht, ← h t, (h t₀).mpr hold, Option.some.injEq]
    exact ⟨fun hnone => (by cases hnone), fun heq => absurd heq.symm ht⟩

/-- Two threads are never both there. -/
theorem exclusive (h : p.Guards) {t t' : Owner} (ht : p.holds t = true)
    (ht' : p.holds t' = true) : t = t' :=
  Option.some.inj (((h t).mpr ht).symm.trans ((h t').mpr ht'))

end Guards

/-! ## Waking up -/

theorem isBlocked_iff {x : WorkerAt α} : x.isBlocked = true ↔ x = .blocked := by
  cases x <;> simp only [WorkerAt.isBlocked, Bool.false_eq_true, reduceCtorEq]

theorem any_isBlocked {o : Option (WorkerAt α)} :
    o.any WorkerAt.isBlocked = true ↔ o = some .blocked := by
  cases o with
  | none => simp only [Option.any_none, Bool.false_eq_true, reduceCtorEq]
  | some x => rw [Option.any_some, isBlocked_iff, Option.some.injEq]

/-- A worker that is blocked and wakes up, and all others. -/
theorem wake_get (p : TheadPool α) (i j : Nat) :
    (p.wake i).threads[j]? =
      if j = i ∧ (p.threads[j]?).any WorkerAt.isBlocked then some .woken else p.threads[j]? := by
  rw [wake]
  by_cases hb : (p.threads[i]?).any WorkerAt.isBlocked = true
  · rw [if_pos hb]
    by_cases hij : j = i
    · rw [hij, if_pos ⟨rfl, hb⟩]
      exact List.getElem?_set_self (List.getElem?_eq_some_iff.mp (any_isBlocked.mp hb)).1
    · have hno : ¬ (j = i ∧ (p.threads[j]?).any WorkerAt.isBlocked = true) := fun h => hij h.1
      rw [if_neg hno]
      exact List.getElem?_set_ne (Ne.symm hij)
  · have hno : ¬ (j = i ∧ (p.threads[j]?).any WorkerAt.isBlocked = true) := by
      rintro ⟨rfl, hj⟩
      exact hb hj
    rw [if_neg hb, if_neg hno]

theorem wake_eq (p : TheadPool α) (i : Nat) : p.wake i = { p with threads := (p.wake i).threads } := by
  rw [wake]
  by_cases hb : (p.threads[i]?).any WorkerAt.isBlocked = true
  · rw [if_pos hb]
    rfl
  · rw [if_neg hb]

/-- The workers a signal wakes, and all others. -/
theorem rouse_get (wakes : List Nat) (p : TheadPool α) (j : Nat) :
    (wakes.foldl wake p).threads[j]? =
      if j ∈ wakes ∧ (p.threads[j]?).any WorkerAt.isBlocked then some .woken
      else p.threads[j]? := by
  induction wakes generalizing p with
  | nil => rw [List.foldl_nil, if_neg (fun h => List.not_mem_nil h.1)]
  | cons i wakes ih =>
      rw [List.foldl_cons, ih, wake_get]
      by_cases hb : (p.threads[j]?).any WorkerAt.isBlocked = true
      · by_cases hij : j = i
        -- awake after the first, and then left alone
        · rw [hij] at hb ⊢
          simp only [hb, and_self, if_true, List.mem_cons, true_or, Option.any_some,
            WorkerAt.isBlocked, Bool.false_eq_true, and_false, if_false]
        · simp only [hb, hij, false_and, if_false, List.mem_cons, false_or]
      · simp only [hb, Bool.false_eq_true, and_false, if_false]

theorem rouse_eq (wakes : List Nat) (p : TheadPool α) :
    wakes.foldl wake p = { p with threads := (wakes.foldl wake p).threads } := by
  induction wakes generalizing p with
  | nil => rfl
  | cons i wakes ih =>
      rw [List.foldl_cons, ih, wake_eq]

theorem length_rouse (wakes : List Nat) (p : TheadPool α) :
    (wakes.foldl wake p).threads.length = p.threads.length := by
  induction wakes generalizing p with
  | nil => rfl
  | cons i wakes ih =>
      rw [List.foldl_cons, ih, wake]
      by_cases hb : (p.threads[i]?).any WorkerAt.isBlocked = true
      · rw [if_pos hb]
        exact List.length_set
      · rw [if_neg hb]

/-- Threads that woke up hold nothing and have no job, as before. -/
structure Roused (p p' : TheadPool α) : Prop where
  rest : p' = { p with threads := p'.threads }
  length : p'.threads.length = p.threads.length
  get : ∀ j : Nat, p'.threads[j]? = p.threads[j]? ∨
    (p.threads[j]? = some .blocked ∧ p'.threads[j]? = some .woken)

theorem roused (wakes : List Nat) (p : TheadPool α) : Roused p (wakes.foldl wake p) := by
  refine ⟨rouse_eq wakes p, length_rouse wakes p, fun j => ?_⟩
  rw [rouse_get]
  by_cases h : j ∈ wakes ∧ (p.threads[j]?).any WorkerAt.isBlocked = true
  · rw [if_pos h]
    exact Or.inr ⟨any_isBlocked.mp h.2, rfl⟩
  · rw [if_neg h]
    exact Or.inl rfl

namespace Roused

theorem holds (h : Roused p p') (t : Owner) : p'.holds t = p.holds t := by
  cases t with
  | main =>
      rw [TheadPool.holds, h.rest]
      rfl
  | worker j =>
      rw [TheadPool.holds, TheadPool.holds]
      rcases h.get j with hsame | ⟨hold, hnew⟩
      · rw [hsame]
      · rw [hold, hnew]
        rfl

theorem jobs (h : Roused p p') : p'.jobs = p.jobs := by
  have hmap : p'.threads.map WorkerAt.job = p.threads.map WorkerAt.job := by
    refine List.ext_getElem? fun j => ?_
    rw [List.getElem?_map, List.getElem?_map]
    rcases h.get j with hsame | ⟨hold, hnew⟩
    · rw [hsame]
    · rw [hold, hnew]
      rfl
  rw [TheadPool.jobs, hmap, h.rest]
  rfl

theorem pop (h : Roused p p') {j : Nat} (hj : p'.threads[j]? = some .pop) :
    p.threads[j]? = some .pop := by
  rcases h.get j with hsame | ⟨_, hnew⟩
  · rw [← hsame, hj]
  · rw [hj] at hnew
    cases hnew

/-- Nobody falls asleep. -/
theorem up (h : Roused p p') {j : Nat} {x : WorkerAt α} (hj : p.threads[j]? = some x)
    (hx : x ≠ .blocked) : p'.threads[j]? = some x := by
  rcases h.get j with hsame | ⟨hold, _⟩
  · rw [hsame, hj]
  · rw [hj, Option.some.injEq] at hold
    exact absurd hold hx

end Roused

/-! ## The invariant -/

/-- What holds between two steps of the threads: the mutex guards the queue, a
    worker at the front of the queue finds a job there, and while there is a job
    somebody is awake, or is about to be woken. -/
structure Monitor (p : TheadPool α) : Prop where
  guards : p.Guards
  front : ∀ i : Nat, p.threads[i]? = some .pop → p.queue ≠ []
  awake : p.queue ≠ [] → p.main = .signal ∨ ∃ (i : Nat) (x : WorkerAt α), p.threads[i]? = some x ∧ x ≠ .blocked
  staffed : p.threads ≠ []

theorem monitor_init {n : Nat} {p : TheadPool α} (h : threadPoolInit n = .ok p) :
    p.Monitor ∧ p.jobs = WorkPool.start n ∧ p.threads.length = n := by
  rw [threadPoolInit] at h
  by_cases hn : n = 0
  · rw [if_pos hn] at h
    cases h
  · rw [if_neg hn, Except.ok.injEq] at h
    rw [← h]
    have hget : ∀ (i : Nat) (x : WorkerAt α),
        (List.replicate n WorkerAt.lock)[i]? = some x → x = .lock := by
      intro i x hx
      rw [List.getElem?_replicate] at hx
      split at hx
      · exact (Option.some.inj hx).symm
      · cases hx
    refine ⟨⟨fun t => ?_, fun i hi => ?_, fun hq => absurd rfl hq, ?_⟩, ?_, List.length_replicate⟩
    · cases t with
      | main => exact ⟨fun h => (by cases h), fun h => (by cases h)⟩
      | worker j =>
          refine ⟨fun h => (by cases h), fun h => ?_⟩
          simp only [holds, Option.any_eq_true] at h
          rcases h with ⟨x, hx, hholds⟩
          rw [hget j x hx] at hholds
          cases hholds
    · exact absurd (hget i _ hi) (by simp only [reduceCtorEq, not_false_eq_true])
    · simp only [ne_eq, List.replicate_eq_nil_iff]
      exact hn
    · rw [jobs, WorkPool.start]
      simp only [List.map_replicate]
      rfl

/-- What a step of `thread_pool_queue` can do. A signal is held back while the
    choice of whom it wakes is not one. -/
inductive QueueMove (p : TheadPool α) (wakes : List Nat) : TheadPool α → Prop
  | out : p.main = .out → QueueMove p wakes p
  | contend (w : α) : p.main = .lock w → p.mu ≠ none → QueueMove p wakes p
  | lock (w : α) : p.main = .lock w → p.mu = none →
      QueueMove p wakes { p with mu := some .main, main := .push w }
  | push (w : α) : p.main = .push w →
      QueueMove p wakes { p with queue := p.queue ++ [w], main := .signal, put := p.put ++ [w] }
  | held (i : Nat) : p.main = .signal → p.threads[i]? = some .blocked → i ∉ wakes →
      QueueMove p wakes p
  | signal (p' : TheadPool α) : p.main = .signal → Roused p p' →
      ((∀ i : Nat, p.threads[i]? ≠ some .blocked) ∨ ∃ i : Nat, p'.threads[i]? = some .woken) →
      QueueMove p wakes { p' with main := .unlock }
  | unlock : p.main = .unlock → QueueMove p wakes { p with mu := none, main := .out }

theorem queueStep_cases (p : TheadPool α) (wakes : List Nat) :
    QueueMove p wakes (p.queueStep wakes) := by
  rw [queueStep]
  cases hm : p.main with
  | out => exact .out hm
  | lock w =>
      by_cases hmu : p.mu = none
      · simp only [if_pos hmu]
        exact .lock w hm hmu
      · simp only [if_neg hmu]
        exact .contend w hm hmu
  | push w => exact .push w hm
  | unlock => exact .unlock hm
  | signal =>
      simp only
      by_cases hsome : p.threads.any WorkerAt.isBlocked = true
      · by_cases hwakes : wakes.any (fun i => (p.threads[i]?).any WorkerAt.isBlocked) = true
        · rw [if_neg (fun h => h.2 hwakes)]
          rcases List.any_eq_true.mp hwakes with ⟨i, hi, hb⟩
          refine .signal _ hm (roused wakes p) (Or.inr ⟨i, ?_⟩)
          rw [rouse_get, if_pos ⟨hi, hb⟩]
        · rw [if_pos ⟨hsome, hwakes⟩]
          rcases List.any_eq_true.mp hsome with ⟨x, hx, hb⟩
          rcases List.getElem?_of_mem hx with ⟨i, hi⟩
          rw [isBlocked_iff.mp hb] at hi
          refine .held i hm hi fun hmem => hwakes ?_
          exact List.any_eq_true.mpr ⟨i, hmem, any_isBlocked.mpr hi⟩
      · rw [if_neg (fun h => hsome h.1)]
        refine .signal _ hm (roused wakes p) (Or.inl fun i hi => hsome ?_)
        exact List.any_eq_true.mpr ⟨_, List.mem_of_getElem? hi, rfl⟩

namespace Monitor

theorem get_moved {i j : Nat} {x y z : WorkerAt α} (hi : p.threads[i]? = some x)
    (hj : (p.moved i y).threads[j]? = some z) : (j = i ∧ z = y) ∨ (j ≠ i ∧ p.threads[j]? = some z) := by
  have hlt := (List.getElem?_eq_some_iff.mp hi).1
  rw [moved] at hj
  by_cases hij : j = i
  · rw [hij, List.getElem?_set_self hlt, Option.some.injEq] at hj
    exact Or.inl ⟨hij, hj.symm⟩
  · rw [List.getElem?_set_ne (Ne.symm hij)] at hj
    exact Or.inr ⟨hij, hj⟩

theorem moved_self {i : Nat} {x : WorkerAt α} (hi : p.threads[i]? = some x) (y : WorkerAt α) :
    (p.moved i y).threads[i]? = some y :=
  List.getElem?_set_self (List.getElem?_eq_some_iff.mp hi).1

theorem staffed_moved (h : p.Monitor) (i : Nat) (y : WorkerAt α) : (p.moved i y).threads ≠ [] := by
  intro hnil
  have hlen := congrArg List.length hnil
  rw [moved, List.length_set, List.length_nil] at hlen
  exact h.staffed (List.length_eq_zero_iff.mp hlen)

/-- A step of a worker. -/
theorem worker (h : p.Monitor) {i : Nat} (hmove : WorkerMove p i p') : p'.Monitor := by
  cases hmove with
  | absent _ => exact h
  | asleep _ => exact h
  | contend _ _ _ _ => exact h
  | lock x hi hx hfree =>
      refine ⟨h.guards.acquire hfree rfl ?_ fun t ht => ?_, fun j hj => ?_, fun _ => Or.inr ?_,
        h.staffed_moved i _⟩
      · exact (holds_moved hi .test (.worker i)).trans (if_pos rfl)
      · exact (holds_moved hi .test t).trans (if_neg ht)
      · rcases get_moved hi hj with ⟨_, hz⟩ | ⟨_, hold⟩
        · cases hz
        · exact h.front j hold
      · exact ⟨i, .test, moved_self hi _, by simp only [ne_eq, reduceCtorEq, not_false_eq_true]⟩
  | block hi hempty =>
      have hold : p.holds (.worker i) = true := holds_worker hi
      refine ⟨h.guards.release hold rfl ?_ fun t ht => ?_,
        fun j hj => ?_, fun hne => absurd hempty hne, h.staffed_moved i _⟩
      · exact (holds_moved hi .blocked (.worker i)).trans (if_pos rfl)
      · exact (holds_moved hi .blocked t).trans (if_neg ht)
      · rcases get_moved hi hj with ⟨_, hz⟩ | ⟨_, hold⟩
        · cases hz
        · exact h.front j hold
  | test hi hne =>
      refine ⟨h.guards.same rfl fun t => ?_, fun _ _ => hne, fun _ => Or.inr ?_,
        h.staffed_moved i _⟩
      · rw [holds_moved hi]
        by_cases ht : t = .worker i
        · rw [if_pos ht, ht, holds_worker hi]
          rfl
        · rw [if_neg ht]
      · exact ⟨i, .pop, moved_self hi _, by simp only [ne_eq, reduceCtorEq, not_false_eq_true]⟩
  | pop w queue hi hq =>
      refine ⟨h.guards.same rfl fun t => ?_, fun j hj => ?_, fun _ => Or.inr ?_,
        h.staffed_moved i _⟩
      · refine (holds_moved hi (.unlock w) t).trans ?_
        by_cases ht : t = .worker i
        · rw [if_pos ht, ht, holds_worker hi]
          rfl
        · rw [if_neg ht]
      -- two workers are never at the front of the queue
      · rcases get_moved hi hj with ⟨_, hz⟩ | ⟨hji, hold⟩
        · cases hz
        · have hthere : p.holds (.worker j) = true := holds_worker hold
          have hhere : p.holds (.worker i) = true := holds_worker hi
          exact absurd (Owner.worker.inj (h.guards.exclusive hthere hhere)) hji
      · exact ⟨i, .unlock w, moved_self hi _, by
          simp only [ne_eq, reduceCtorEq, not_false_eq_true]⟩
  | unlock w hi =>
      have hold : p.holds (.worker i) = true := holds_worker hi
      refine ⟨h.guards.release hold rfl ?_ fun t ht => ?_,
        fun j hj => ?_, fun _ => Or.inr ?_, h.staffed_moved i _⟩
      · exact (holds_moved hi (.work w) (.worker i)).trans (if_pos rfl)
      · exact (holds_moved hi (.work w) t).trans (if_neg ht)
      · rcases get_moved hi hj with ⟨_, hz⟩ | ⟨_, hold⟩
        · cases hz
        · exact h.front j hold
      · exact ⟨i, .work w, moved_self hi _, by
          simp only [ne_eq, reduceCtorEq, not_false_eq_true]⟩
  | work w hi =>
      refine ⟨h.guards.same rfl fun t => ?_, fun j hj => ?_, fun _ => Or.inr ?_,
        h.staffed_moved i _⟩
      · refine (holds_moved hi .lock t).trans ?_
        by_cases ht : t = .worker i
        · rw [if_pos ht, ht, holds_worker hi]
          rfl
        · rw [if_neg ht]
      · rcases get_moved hi hj with ⟨_, hz⟩ | ⟨_, hold⟩
        · cases hz
        · exact h.front j hold
      · exact ⟨i, .lock, moved_self hi _, by simp only [ne_eq, reduceCtorEq, not_false_eq_true]⟩

/-- Who is where, when only the main thread moved. -/
theorem holds_main (hthreads : p'.threads = p.threads) (t : Owner) (ht : t ≠ .main) :
    p'.holds t = p.holds t := by
  cases t with
  | main => exact absurd rfl ht
  | worker j => rw [holds, holds, hthreads]

/-- A step of the main thread. -/
theorem queue (h : p.Monitor) {wakes : List Nat} (hmove : QueueMove p wakes p') : p'.Monitor := by
  have hmain : p.holds .main = p.main.holds := rfl
  cases hmove with
  | out _ => exact h
  | contend _ _ _ => exact h
  | held _ _ _ _ => exact h
  | lock w hm hfree =>
      refine ⟨h.guards.acquire hfree rfl rfl (holds_main rfl), h.front, fun hne => ?_, h.staffed⟩
      rcases h.awake hne with hsig | hawake
      · rw [hm] at hsig
        cases hsig
      · exact Or.inr hawake
  | push w hm =>
      refine ⟨h.guards.same rfl fun t => ?_, fun _ _ => ?_, fun _ => Or.inl rfl, h.staffed⟩
      · cases t with
        | main => rw [hmain, hm]; rfl
        | worker j => rfl
      · exact List.append_ne_nil_of_right_ne_nil _ (List.cons_ne_nil _ _)
  | signal q hm hroused hwho =>
      refine ⟨h.guards.same ?_ fun t => ?_, fun i hi => ?_, fun _ => Or.inr ?_, ?_⟩
      · rw [hroused.rest]
      · rw [← hroused.holds]
        cases t with
        | main =>
            change true = q.main.holds
            rw [hroused.rest, hm]
            rfl
        | worker j => rfl
      · have hfront := h.front i (hroused.pop hi)
        rw [hroused.rest]
        exact hfront
      -- somebody was woken, or nobody slept
      · rcases hwho with hnone | ⟨i, hi⟩
        · rcases List.exists_mem_of_ne_nil _ h.staffed with ⟨x, hx⟩
          rcases List.getElem?_of_mem hx with ⟨i, hi⟩
          have hne : x ≠ .blocked := fun hb => hnone i (by rw [hi, hb])
          exact ⟨i, x, hroused.up hi hne, hne⟩
        · exact ⟨i, .woken, hi, by simp only [ne_eq, reduceCtorEq, not_false_eq_true]⟩
      · rcases List.exists_mem_of_ne_nil _ h.staffed with ⟨x, hx⟩
        rcases List.getElem?_of_mem hx with ⟨i, hi⟩
        intro hnil
        change q.threads = [] at hnil
        rcases hroused.get i with hsame | ⟨_, hnew⟩
        · rw [hnil, hi] at hsame
          cases hsame
        · rw [hnil] at hnew
          cases hnew
  | unlock hm =>
      have hold : p.holds .main = true := by
        rw [hmain, hm]
        rfl
      refine ⟨h.guards.release hold rfl rfl (holds_main rfl), h.front, fun hne => ?_, h.staffed⟩
      rcases h.awake hne with hsig | hawake
      · rw [hm] at hsig
        cases hsig
      · exact Or.inr hawake

/-- A call of `thread_pool_queue`. -/
theorem call (h : p.Monitor) (hm : p.main = .out) (w : α) :
    ({ p with main := .lock w } : TheadPool α).Monitor := by
  refine ⟨h.guards.same rfl fun t => ?_, h.front, fun hne => ?_, h.staffed⟩
  · cases t with
    | main =>
        change false = p.main.holds
        rw [hm]
        rfl
    | worker j => rfl
  · rcases h.awake hne with hsig | hawake
    · rw [hm] at hsig
      cases hsig
    · exact Or.inr hawake

/-- A worker that wakes up for no reason. -/
theorem wake (h : p.Monitor) (i : Nat) : (p.wake i).Monitor := by
  have hroused : Roused p (p.wake i) := roused [i] p
  refine ⟨h.guards.same ?_ hroused.holds, fun j hj => ?_, fun hne => ?_, ?_⟩
  · rw [hroused.rest]
  · have hfront := h.front j (hroused.pop hj)
    rw [hroused.rest]
    exact hfront
  · have hqueue : (p.wake i).queue = p.queue := by rw [hroused.rest]
    have hmain : (p.wake i).main = p.main := by rw [hroused.rest]
    rw [hqueue] at hne
    rw [hmain]
    rcases h.awake hne with hsig | ⟨j, x, hj, hx⟩
    · exact Or.inl hsig
    · exact Or.inr ⟨j, x, hroused.up hj hx, hx⟩
  · rw [TheadPool.wake]
    by_cases hb : (p.threads[i]?).any WorkerAt.isBlocked = true
    · rw [if_pos hb]
      exact h.staffed_moved i _
    · rw [if_neg hb]
      exact h.staffed

end Monitor

/-! ## The atomic pool -/

theorem jobs_moved (p : TheadPool α) (i : Nat) (y : WorkerAt α) :
    (p.moved i y).jobs = { p.jobs with held := p.jobs.held.set i y.job } := by
  rw [jobs, jobs, moved]
  simp only [List.map_set]

/-- A worker that holds the same as before. -/
theorem jobs_same {i : Nat} {x : WorkerAt α} (hi : p.threads[i]? = some x) {y : WorkerAt α}
    (hjob : y.job = x.job) : (p.moved i y).jobs = p.jobs := by
  have hset : p.jobs.held.set i y.job = p.jobs.held := by
    refine List.ext_getElem? fun j => ?_
    by_cases hij : j = i
    · rw [hij, hjob, jobs]
      simp only [List.getElem?_set, List.length_map, List.getElem?_map, hi,
        (List.getElem?_eq_some_iff.mp hi).1, if_true, Option.map_some]
    · rw [List.getElem?_set_ne (Ne.symm hij)]
  rw [jobs_moved, hset]

/-- The worker's job in the atomic pool. -/
theorem held_eq {i : Nat} {x : WorkerAt α} (hi : p.threads[i]? = some x) :
    p.jobs.held[i]? = some x.job := by
  rw [jobs]
  simp only [List.getElem?_map, hi, Option.map_some]

/-- To the atomic pool a step of a worker is a step, or nothing. -/
theorem WorkerMove.jobs {i : Nat} (h : WorkerMove p i p') :
    p'.jobs = p.jobs ∨ ∃ op : PoolOp α, p'.jobs = op.apply p.jobs := by
  cases h with
  | absent _ => exact Or.inl rfl
  | asleep _ => exact Or.inl rfl
  | contend _ _ _ _ => exact Or.inl rfl
  | lock x hi hx _ =>
      refine Or.inl (jobs_same hi ?_)
      rcases hx with rfl | rfl <;> rfl
  | block hi _ => exact Or.inl (jobs_same hi rfl)
  | test hi _ => exact Or.inl (jobs_same hi rfl)
  | pop w queue hi hq =>
      refine Or.inr ⟨.take i, ?_⟩
      have hqueue : p.jobs.queue = w :: queue := hq
      rw [PoolOp.apply, WorkPool.take, held_eq hi, hqueue]
      have hmoved := jobs_moved p i (.unlock w)
      rw [TheadPool.jobs, TheadPool.jobs, WorkPool.mk.injEq] at hmoved
      rw [TheadPool.jobs, TheadPool.jobs, WorkPool.mk.injEq]
      exact ⟨rfl, hmoved.2.1, rfl, rfl, rfl⟩
  | unlock w hi => exact Or.inl (jobs_same hi rfl)
  | work w hi =>
      refine Or.inr ⟨.finish i, ?_⟩
      have hjob : p.jobs.job i = some w := by
        rw [WorkPool.job_eq_some, held_eq hi]
        rfl
      rw [PoolOp.apply, WorkPool.finish, hjob]
      have hmoved := jobs_moved p i .lock
      rw [TheadPool.jobs, TheadPool.jobs, WorkPool.mk.injEq] at hmoved
      rw [TheadPool.jobs, TheadPool.jobs, WorkPool.mk.injEq]
      exact ⟨rfl, hmoved.2.1, rfl, rfl, rfl⟩

theorem QueueMove.jobs {wakes : List Nat} (h : QueueMove p wakes p') :
    p'.jobs = p.jobs ∨ ∃ op : PoolOp α, p'.jobs = op.apply p.jobs := by
  cases h with
  | out _ => exact Or.inl rfl
  | contend _ _ _ => exact Or.inl rfl
  | lock _ _ _ => exact Or.inl rfl
  | push w _ => exact Or.inr ⟨.push w, rfl⟩
  | held _ _ _ _ => exact Or.inl rfl
  | signal q _ hroused _ => exact Or.inl hroused.jobs
  | unlock _ => exact Or.inl rfl

theorem WorkerMove.length {i : Nat} (h : WorkerMove p i p') :
    p'.threads.length = p.threads.length := by
  cases h with
  | absent _ | asleep _ | contend _ _ _ _ => rfl
  | lock _ _ _ _ | block _ _ | test _ _ | pop _ _ _ _ | unlock _ _ | work _ _ =>
      exact List.length_set

theorem QueueMove.length {wakes : List Nat} (h : QueueMove p wakes p') :
    p'.threads.length = p.threads.length := by
  cases h with
  | signal q _ hroused _ => exact hroused.length
  | out _ | contend _ _ _ | lock _ _ _ | push _ _ | held _ _ _ _ | unlock _ => rfl

/-- Every step of a thread goes through, keeps the invariant, and is a step of
    the atomic pool or nothing to it. -/
theorem poolStep_spec (h : p.Monitor) (act : PoolAct α) :
    ∃ p', p.poolStep act = .ok (p', ()) ∧ p'.Monitor ∧ p'.threads.length = p.threads.length ∧
      (p'.jobs = p.jobs ∨ ∃ op : PoolOp α, p'.jobs = op.apply p.jobs) := by
  cases act with
  | call w =>
      rw [poolStep]
      cases hm : p.main with
      | out => exact ⟨_, rfl, h.call hm w, rfl, Or.inl rfl⟩
      | lock _ | push _ | signal | unlock => exact ⟨p, rfl, h, rfl, Or.inl rfl⟩
  | main wakes =>
      have hmove := queueStep_cases p wakes
      exact ⟨_, rfl, h.queue hmove, hmove.length, hmove.jobs⟩
  | worker i =>
      rcases workerStep_cases p i (h.front i) with ⟨p', hrun, hmove⟩
      refine ⟨p', ?_, h.worker hmove, hmove.length, hmove.jobs⟩
      rw [poolStep, hrun, ok_bind]
  | spurious i =>
      have hroused : Roused p (p.wake i) := roused [i] p
      exact ⟨_, rfl, h.wake i, hroused.length, Or.inl hroused.jobs⟩

/-- Every run goes through, keeps the invariant, and is a run of the atomic
    pool. -/
theorem poolRun_spec (h : p.Monitor) (acts : List (PoolAct α)) :
    ∃ p' us, run poolStep p acts = .ok (p', us) ∧ p'.Monitor ∧
      p'.threads.length = p.threads.length ∧
      ∃ ops : List (PoolOp α), p'.jobs = ops.foldl PoolOp.apply p.jobs := by
  induction acts generalizing p with
  | nil => exact ⟨p, [], rfl, h, rfl, [], rfl⟩
  | cons act acts ih =>
      rcases poolStep_spec h act with ⟨p₁, hstep, h₁, hlen₁, hop⟩
      rcases ih h₁ with ⟨p', us, hrun, h', hlen, ops, hops⟩
      refine ⟨p', () :: us, ?_, h', hlen.trans hlen₁, ?_⟩
      · rw [run_cons hstep, hrun]
        rfl
      · rcases hop with hsame | ⟨op, hop⟩
        · exact ⟨ops, by rw [hops, hsame]⟩
        · exact ⟨op :: ops, by rw [hops, hop, List.foldl_cons]⟩

theorem conserved_apply {q : WorkPool α} (h : q.Conserved) (op : PoolOp α) :
    (op.apply q).Conserved := by
  cases op with
  | push w => exact h.push w
  | take i => exact h.take i
  | finish i => exact h.finish i

theorem conserved_ops {q : WorkPool α} (h : q.Conserved) (ops : List (PoolOp α)) :
    (ops.foldl PoolOp.apply q).Conserved := by
  induction ops generalizing q with
  | nil => exact h
  | cons op ops ih => exact ih (conserved_apply h op)

end TheadPool

/-- However the threads of the pool interleave, whomever a signal wakes and
    whoever wakes up for no reason: nobody looks for the front of an empty
    queue, two threads are never both between taking and releasing the mutex,
    and what happens to the jobs is a run of the atomic pool, so that none is
    lost, taken twice or out of order. -/
theorem pool_refines {α : Type} {n : Nat} (hn : 0 < n) (acts : List (PoolAct α)) :
    ∃ p₀ p us, threadPoolInit n = .ok p₀ ∧ run TheadPool.poolStep p₀ acts = .ok (p, us) ∧
      (∀ t t', p.holds t = true → p.holds t' = true → t = t') ∧
      (∃ ops : List (PoolOp α), p.jobs = ops.foldl PoolOp.apply (WorkPool.start n)) ∧
      p.jobs.Conserved := by
  have hinit : (threadPoolInit n : Result (TheadPool α)) =
      .ok { threads := List.replicate n .lock } := if_neg (Nat.ne_of_gt hn)
  rcases TheadPool.monitor_init hinit with ⟨h, hstart, _⟩
  rcases TheadPool.poolRun_spec h acts with ⟨p, us, hrun, hp, _, ops, hops⟩
  rw [hstart] at hops
  refine ⟨_, p, us, hinit, hrun, fun t t' => hp.guards.exclusive, ⟨ops, hops⟩, ?_⟩
  rw [hops]
  exact TheadPool.conserved_ops (WorkPool.conserved_start n) ops

/-- A job on its way through a pool of two. -/
theorem pool_refines_two :
    ∃ p₀ p us, threadPoolInit 2 = .ok p₀ ∧
      run TheadPool.poolStep p₀ [.worker 0, .worker 0, .call 7, .main [], .main [], .main [0],
        .main [], .worker 0, .worker 0, .worker 0] = .ok (p, us) ∧ p.jobs.Conserved := by
  rcases pool_refines (α := Nat) (n := 2) (by decide) [.worker 0, .worker 0, .call 7, .main [],
    .main [], .main [0], .main [], .worker 0, .worker 0, .worker 0] with
    ⟨p₀, p, us, hinit, hrun, _, _, hjobs⟩
  exact ⟨p₀, p, us, hinit, hrun, hjobs⟩

end RedisServer
