import Mathlib.Data.List.Basic

/-!
# Runs and Simulations

Runs of a machine whose steps may fail, and the two arguments by which a fact
about one step becomes a fact about all runs.

A machine is its step function: it takes a state and an event, and returns
the next state with a reply, or a failure. A specification is another machine
whose state is mathematical, whose next state is a function, and whose reply
is a relation, so that it may leave an order open. `guard` says which events
its user may submit.

## Main definitions

* `run`: A machine fed a list of events, with the replies it gave.
* `Spec`: What a machine is compared with.
* `Spec.Admits`: Every event meets the guard in the state it arrives in.
* `Spec.Agrees`: Every reply is one the specification allows.
* `Guarded`: Every step of a run meets a condition on the machine's own state.
* `Simulates`: One step of the machine against one step of the specification.
* `observed`, `observedReplies`, `SimulatesSeen`: The part of a run that one
  observer is shown.

## Theorems

* `run_append`: A run over two lists is a run over the first, then the second.
* `run_lift`: A run of one machine is a run of another it is a part of.
* `run_invariant`: An invariant extends from steps to guarded runs.
* `run_total`: A guarded run that maintains an invariant never fails.
* `Simulates.run`, `SimulatesSeen.run`: A simulation extends from steps to
  runs.
* `Spec.Agrees.seen`: What one observer is shown of a run.
-/

namespace Lib

section

variable {σ τ ε ρ φ : Type}

/-- Feed a list of events to a machine and collect its replies. -/
def run (step : σ → ε → Except φ (σ × ρ)) : σ → List ε → Except φ (σ × List ρ)
  | s, [] => .ok (s, [])
  | s, e :: es =>
    match step s e with
    | .error err => .error err
    | .ok (s', r) =>
      match run step s' es with
      | .error err => .error err
      | .ok (s'', rs) => .ok (s'', r :: rs)

theorem run_cons {step : σ → ε → Except φ (σ × ρ)} {s s' : σ} {e : ε} {r : ρ}
    (h : step s e = .ok (s', r)) (es : List ε) :
    run step s (e :: es) = (run step s' es).map fun x => (x.1, r :: x.2) := by
  simp only [run, h]
  cases run step s' es with
  | ok x => rfl
  | error err => rfl

/-- A run that returns took a first step and returned from there. -/
theorem run_cons_eq_ok {step : σ → ε → Except φ (σ × ρ)} {s t : σ} {e : ε} {es : List ε}
    {rs : List ρ} (h : run step s (e :: es) = .ok (t, rs)) :
    ∃ s' r rs', step s e = .ok (s', r) ∧ run step s' es = .ok (t, rs') ∧ rs = r :: rs' := by
  cases hstep : step s e with
  | error err =>
      simp only [run, hstep, reduceCtorEq] at h
  | ok x =>
      rcases x with ⟨s', r⟩
      rw [run_cons hstep] at h
      cases hrest : run step s' es with
      | error err =>
          rw [hrest] at h
          exact absurd h (by simp only [Except.map, reduceCtorEq, not_false_eq_true])
      | ok y =>
          rw [hrest] at h
          simp only [Except.map, Except.ok.injEq, Prod.mk.injEq] at h
          exact ⟨s', r, y.2, rfl, by rw [← h.1]; exact hrest, h.2.symm⟩

theorem run_append {step : σ → ε → Except φ (σ × ρ)} {s t : σ} {es : List ε} {rs : List ρ}
    (es' : List ε) (h : run step s es = .ok (t, rs)) :
    run step s (es ++ es') = (run step t es').map fun x => (x.1, rs ++ x.2) := by
  induction es generalizing s rs with
  | nil =>
      simp only [run, Except.ok.injEq, Prod.mk.injEq] at h
      rw [h.1, ← h.2, List.nil_append]
      cases run step t es' with
      | ok x => rfl
      | error err => rfl
  | cons e es ih =>
      rcases run_cons_eq_ok h with ⟨s', r, rs', hstep, hrest, rfl⟩
      rw [List.cons_append, run_cons hstep, ih hrest]
      cases run step t es' with
      | ok x => rfl
      | error err => rfl

/-- If each step of a machine is a step of another machine, of which it is a
    part, each run is a run. -/
theorem run_lift {σ' ε' ρ' φ' : Type} {step : σ → ε → Except φ (σ × ρ)}
    {step' : σ' → ε' → Except φ' (σ' × ρ')} (part : σ → σ') (f : ε → ε') {es : List ε}
    (hstep : ∀ e ∈ es, ∀ s s' r, step s e = .ok (s', r) →
      ∃ r', step' (part s) (f e) = .ok (part s', r'))
    {s t : σ} {rs : List ρ} (hrun : run step s es = .ok (t, rs)) :
    ∃ rs', run step' (part s) (es.map f) = .ok (part t, rs') := by
  induction es generalizing s rs with
  | nil =>
      simp only [run, Except.ok.injEq, Prod.mk.injEq] at hrun
      rw [← hrun.1]
      exact ⟨[], rfl⟩
  | cons e es ih =>
      rcases run_cons_eq_ok hrun with ⟨s', r, rs₁, hfirst, hrest, -⟩
      rcases hstep e List.mem_cons_self s s' r hfirst with ⟨r', hfirst'⟩
      rcases ih (fun a ha => hstep a (List.mem_cons_of_mem e ha)) hrest with ⟨rs', hrest'⟩
      refine ⟨r' :: rs', ?_⟩
      rw [List.map_cons, run_cons hfirst', hrest']
      rfl

/-- A run gives one reply to each event. -/
theorem length_of_run {step : σ → ε → Except φ (σ × ρ)} {s t : σ} {es : List ε} {rs : List ρ}
    (h : run step s es = .ok (t, rs)) : es.length = rs.length := by
  induction es generalizing s rs with
  | nil =>
      simp only [run, Except.ok.injEq, Prod.mk.injEq] at h
      rw [← h.2]
      rfl
  | cons e es ih =>
      rcases run_cons_eq_ok h with ⟨s', r, rs', _, hrest, rfl⟩
      rw [List.length_cons, List.length_cons, ih hrest]

/-- A run that is seen to return has a last state and replies. -/
theorem exists_of_isOk {step : σ → ε → Except φ (σ × ρ)} {s : σ} {es : List ε}
    (h : (run step s es).isOk = true) : ∃ t rs, run step s es = .ok (t, rs) := by
  cases hrun : run step s es with
  | ok x => exact ⟨x.1, x.2, rfl⟩
  | error err =>
      rw [hrun] at h
      exact absurd h Bool.false_ne_true

/-- The run returns, and its last state and replies pass a test. -/
def endsIn (step : σ → ε → Except φ (σ × ρ)) (test : σ → List ρ → Bool) (s : σ) (es : List ε) :
    Bool :=
  match run step s es with
  | .ok (t, rs) => test t rs
  | .error _ => false

theorem exists_of_endsIn {step : σ → ε → Except φ (σ × ρ)} {test : σ → List ρ → Bool} {s : σ}
    {es : List ε} (h : endsIn step test s es = true) :
    ∃ t rs, run step s es = .ok (t, rs) ∧ test t rs = true := by
  unfold endsIn at h
  cases hrun : run step s es with
  | ok x =>
      rw [hrun] at h
      exact ⟨x.1, x.2, rfl, h⟩
  | error err =>
      rw [hrun] at h
      exact absurd h Bool.false_ne_true

/-! ## Specifications -/

/-- What a machine is compared with: which events may be submitted, the state
    after each, and the replies allowed. -/
structure Spec (τ ε ρ : Type) where
  guard : τ → ε → Prop
  next : τ → ε → τ
  reply : τ → ε → ρ → Prop

namespace Spec

/-- Every event meets the guard in the state it arrives in. -/
def Admits (S : Spec τ ε ρ) : τ → List ε → Prop
  | _, [] => True
  | t, e :: es => S.guard t e ∧ S.Admits (S.next t e) es

/-- The replies, one for each event, are replies the specification allows. -/
def Agrees (S : Spec τ ε ρ) : τ → List ε → List ρ → Prop
  | _, [], rs => rs = []
  | _, _ :: _, [] => False
  | t, e :: es, r :: rs => S.reply t e r ∧ S.Agrees (S.next t e) es rs

/-- A guard that does not look at the state. -/
theorem admits_of_forall {S : Spec τ ε ρ} {es : List ε} (h : ∀ e ∈ es, ∀ t, S.guard t e) (t : τ) :
    S.Admits t es := by
  induction es generalizing t with
  | nil => exact True.intro
  | cons e es ih =>
      exact ⟨h e List.mem_cons_self t, ih (fun e' he' => h e' (List.mem_cons_of_mem _ he')) _⟩

end Spec

/-! ## Invariants -/

/-- Every step of the run from `s` meets the condition `G` in the state it is
    taken in. -/
def Guarded (step : σ → ε → Except φ (σ × ρ)) (G : σ → ε → Prop) : σ → List ε → Prop
  | _, [] => True
  | s, e :: es => G s e ∧ ∀ s' r, step s e = .ok (s', r) → Guarded step G s' es

theorem guarded_of_forall {step : σ → ε → Except φ (σ × ρ)} {G : σ → ε → Prop} {es : List ε}
    (h : ∀ e ∈ es, ∀ s, G s e) (s : σ) : Guarded step G s es := by
  induction es generalizing s with
  | nil => exact True.intro
  | cons e es ih =>
      exact ⟨h e List.mem_cons_self s, fun s' _ _ =>
        ih (fun e' he' => h e' (List.mem_cons_of_mem _ he')) s'⟩

/-- Run the events and test each of them in the state it arrives in. -/
def checkRun (step : σ → ε → Except φ (σ × ρ)) (check : σ → ε → Bool) : σ → List ε → Bool
  | _, [] => true
  | s, e :: es => check s e &&
    match step s e with
    | .error _ => true
    | .ok (s', _) => checkRun step check s' es

/-- A run whose steps meet two conditions meets both. -/
theorem guarded_and {step : σ → ε → Except φ (σ × ρ)} {G G' : σ → ε → Prop} {s : σ} {es : List ε}
    (h : Guarded step G s es) (h' : Guarded step G' s es) :
    Guarded step (fun s e => G s e ∧ G' s e) s es := by
  induction es generalizing s with
  | nil => exact True.intro
  | cons e es ih =>
      exact ⟨⟨h.1, h'.1⟩, fun s' r hstep => ih (h.2 s' r hstep) (h'.2 s' r hstep)⟩

/-- A condition that follows from a test is met by a run that passes it. -/
theorem guarded_of_checkRun {step : σ → ε → Except φ (σ × ρ)} {check : σ → ε → Bool}
    {G : σ → ε → Prop} (hG : ∀ s e, check s e = true → G s e) {s : σ} {es : List ε}
    (h : checkRun step check s es = true) : Guarded step G s es := by
  induction es generalizing s with
  | nil => exact True.intro
  | cons e es ih =>
      rw [checkRun, Bool.and_eq_true] at h
      refine ⟨hG s e h.1, fun s' r hstep => ih ?_⟩
      have hrest := h.2
      rw [hstep] at hrest
      exact hrest

/-- A run is guarded when its first part is, and its second part from the
    state the first one reaches. -/
theorem guarded_append {step : σ → ε → Except φ (σ × ρ)} {G : σ → ε → Prop} {s : σ}
    {es es' : List ε} (h : Guarded step G s es)
    (h' : ∀ t rs, run step s es = .ok (t, rs) → Guarded step G t es') :
    Guarded step G s (es ++ es') := by
  induction es generalizing s with
  | nil => exact h' s [] rfl
  | cons e es ih =>
      refine ⟨h.1, fun s' r hstep => ih (h.2 s' r hstep) fun t rs hrun => ?_⟩
      refine h' t (r :: rs) ?_
      rw [run_cons hstep, hrun]
      rfl

/-- The parts of a guarded run are guarded. -/
theorem guarded_split {step : σ → ε → Except φ (σ × ρ)} {G : σ → ε → Prop} {s : σ}
    {es es' : List ε} (h : Guarded step G s (es ++ es')) :
    Guarded step G s es ∧ ∀ t rs, run step s es = .ok (t, rs) → Guarded step G t es' := by
  induction es generalizing s with
  | nil =>
      refine ⟨True.intro, fun t rs hrun => ?_⟩
      simp only [run, Except.ok.injEq, Prod.mk.injEq] at hrun
      rw [← hrun.1]
      exact h
  | cons e es ih =>
      refine ⟨⟨h.1, fun s' r hstep => (ih (h.2 s' r hstep)).1⟩, fun t rs hrun => ?_⟩
      rcases run_cons_eq_ok hrun with ⟨s', r, rs', hstep, hrest, -⟩
      exact (ih (h.2 s' r hstep)).2 t rs' hrest

/-- An invariant kept by every step that meets `G` holds after every run whose
    steps all do. -/
theorem run_invariant {step : σ → ε → Except φ (σ × ρ)} {G : σ → ε → Prop} {I : σ → Prop}
    (hstep : ∀ s e s' r, I s → G s e → step s e = .ok (s', r) → I s')
    {s t : σ} (hI : I s) {es : List ε} {rs : List ρ} (hG : Guarded step G s es)
    (hrun : run step s es = .ok (t, rs)) : I t := by
  induction es generalizing s rs with
  | nil =>
      simp only [run, Except.ok.injEq, Prod.mk.injEq] at hrun
      rw [← hrun.1]
      exact hI
  | cons e es ih =>
      rcases run_cons_eq_ok hrun with ⟨s', r, rs', hs', hrest, -⟩
      exact ih (hstep s e s' r hI hG.1 hs') (hG.2 s' r hs') hrest

/-- If no step that meets `G` fails from a state of the invariant, no run whose
    steps all meet `G` fails. -/
theorem run_total {step : σ → ε → Except φ (σ × ρ)} {G : σ → ε → Prop} {I : σ → Prop}
    (hstep : ∀ s e, I s → G s e → ∃ s' r, step s e = .ok (s', r) ∧ I s')
    {s : σ} (hI : I s) {es : List ε} (hG : Guarded step G s es) :
    ∃ t rs, run step s es = .ok (t, rs) ∧ I t := by
  induction es generalizing s with
  | nil => exact ⟨s, [], rfl, hI⟩
  | cons e es ih =>
      rcases hstep s e hI hG.1 with ⟨s', r, hs', hI'⟩
      rcases ih hI' (hG.2 s' r hs') with ⟨t, rs, hrun, hIt⟩
      exact ⟨t, r :: rs, by rw [run_cons hs', hrun]; rfl, hIt⟩

/-! ## Simulations -/

/-- One step of the machine is matched by one step of the specification: from
    related states, an event that both conditions admit does not fail, its
    reply is allowed, and the states are related again. -/
def Simulates (step : σ → ε → Except φ (σ × ρ)) (G : σ → ε → Prop) (S : Spec τ ε ρ)
    (R : σ → τ → Prop) : Prop :=
  ∀ s t e, R s t → G s e → S.guard t e →
    ∃ s' r, step s e = .ok (s', r) ∧ S.reply t e r ∧ R s' (S.next t e)

/-- A simulation extends from steps to runs. -/
theorem Simulates.run {step : σ → ε → Except φ (σ × ρ)} {G : σ → ε → Prop} {S : Spec τ ε ρ}
    {R : σ → τ → Prop} (hsim : Simulates step G S R) {s : σ} {t : τ} (hR : R s t) {es : List ε}
    (hG : Guarded step G s es) (hes : S.Admits t es) :
    ∃ s' rs, Lib.run step s es = .ok (s', rs) ∧ S.Agrees t es rs ∧ R s' (es.foldl S.next t) := by
  induction es generalizing s t with
  | nil => exact ⟨s, [], rfl, rfl, hR⟩
  | cons e es ih =>
      rcases hes with ⟨hg, hes⟩
      rcases hsim s t e hR hG.1 hg with ⟨s', r, hstep, hr, hR'⟩
      rcases ih hR' (hG.2 s' r hstep) hes with ⟨s'', rs, hrun, hrs, hR''⟩
      exact ⟨s'', r :: rs, by rw [run_cons hstep, hrun]; rfl, ⟨hr, hrs⟩, hR''⟩

/-! ## Observers -/

variable {ο : Type}

/-- The events of a run that an observer is shown, in the observer's terms. -/
def observed (obs : ε → Option ο) (es : List ε) : List ο := es.filterMap obs

/-- The replies to the events an observer is shown. -/
def observedReplies (obs : ε → Option ο) : List ε → List ρ → List ρ
  | e :: es, r :: rs =>
    match obs e with
    | none => observedReplies obs es rs
    | some _ => r :: observedReplies obs es rs
  | _, _ => []

theorem observedReplies_append (obs : ε → Option ο) {es es' : List ε} {rs rs' : List ρ}
    (hlen : es.length = rs.length) :
    observedReplies obs (es ++ es') (rs ++ rs') =
      observedReplies obs es rs ++ observedReplies obs es' rs' := by
  -- replies are paired with events, so both lists are split at one place
  induction es generalizing rs with
  | nil =>
      cases rs with
      | nil => rfl
      | cons r rs => exact absurd hlen (by simp only [List.length_nil, List.length_cons,
          not_false_eq_true, Nat.zero_ne_add_one])
  | cons e es ih =>
      cases rs with
      | nil => exact absurd hlen (by simp only [List.length_nil, List.length_cons,
          Nat.add_one_ne_zero, not_false_eq_true])
      | cons r rs =>
          rw [List.length_cons, List.length_cons, Nat.add_right_cancel_iff] at hlen
          simp only [List.cons_append, observedReplies, ih hlen]
          cases obs e with
          | none => rfl
          | some o => rfl

/-- As `Simulates`, where the specification has the events of one observer. An
    event the observer is not shown leaves the specification where it is. -/
def SimulatesSeen (step : σ → ε → Except φ (σ × ρ)) (G : σ → ε → Prop) (obs : ε → Option ο)
    (S : Spec τ ο ρ) (R : σ → τ → Prop) : Prop :=
  ∀ s t e, R s t → G s e →
    (obs e = none → ∃ s' r, step s e = .ok (s', r) ∧ R s' t) ∧
    ∀ o, obs e = some o → S.guard t o →
      ∃ s' r, step s e = .ok (s', r) ∧ S.reply t o r ∧ R s' (S.next t o)

/-- A simulation of what an observer is shown extends from steps to runs. -/
theorem SimulatesSeen.run {step : σ → ε → Except φ (σ × ρ)} {G : σ → ε → Prop}
    {obs : ε → Option ο} {S : Spec τ ο ρ} {R : σ → τ → Prop} (hsim : SimulatesSeen step G obs S R)
    {s : σ} {t : τ} (hR : R s t) {es : List ε} (hG : Guarded step G s es)
    (hes : S.Admits t (observed obs es)) :
    ∃ s' rs, Lib.run step s es = .ok (s', rs) ∧
      S.Agrees t (observed obs es) (observedReplies obs es rs) ∧
      R s' ((observed obs es).foldl S.next t) := by
  induction es generalizing s t with
  | nil => exact ⟨s, [], rfl, rfl, hR⟩
  | cons e es ih =>
      rcases hsim s t e hR hG.1 with ⟨hunseen, hseen⟩
      -- an event that is not observed leaves the state of the specification
      cases hobs : obs e with
      | none =>
          rw [observed, List.filterMap_cons_none hobs] at hes ⊢
          rcases hunseen hobs with ⟨s', r, hstep, hR'⟩
          rcases ih hR' (hG.2 s' r hstep) hes with ⟨s'', rs, hrun, hrs, hR''⟩
          refine ⟨s'', r :: rs, by rw [run_cons hstep, hrun]; rfl, ?_, hR''⟩
          simp only [observedReplies, hobs]
          exact hrs
      | some o =>
          rw [observed, List.filterMap_cons_some hobs] at hes ⊢
          rcases hes with ⟨hg, hes⟩
          rcases hseen o hobs hg with ⟨s', r, hstep, hr, hR'⟩
          rcases ih hR' (hG.2 s' r hstep) hes with ⟨s'', rs, hrun, hrs, hR''⟩
          refine ⟨s'', r :: rs, by rw [run_cons hstep, hrun]; rfl, ?_, hR''⟩
          simp only [observedReplies, hobs]
          exact ⟨hr, hrs⟩

/-- What an observer is shown of a run that agrees with a specification agrees
    with the observer's own, when the events the observer is not shown leave the
    observer's part of the state where it is. -/
theorem Spec.Agrees.seen {τ' : Type} {S : Spec τ ε ρ} {S' : Spec τ' ο ρ} {obs : ε → Option ο}
    {t : τ} {es : List ε} {rs : List ρ} (h : S.Agrees t es rs) (part : τ → τ')
    (hunseen : ∀ t e, obs e = none → part (S.next t e) = part t)
    (hseen : ∀ t e o, obs e = some o → part (S.next t e) = S'.next (part t) o ∧
      ∀ r, S.reply t e r → S'.reply (part t) o r) :
    S'.Agrees (part t) (observed obs es) (observedReplies obs es rs) := by
  induction es generalizing t rs with
  | nil => rfl
  | cons e es ih =>
      cases rs with
      | nil => exact h.elim
      | cons r rs =>
          have hrest := ih h.2
          cases hobs : obs e with
          | none =>
              rw [hunseen t e hobs] at hrest
              simp only [observed, List.filterMap_cons_none hobs, observedReplies, hobs]
              exact hrest
          | some o =>
              rcases hseen t e o hobs with ⟨hnext, hreply⟩
              rw [hnext] at hrest
              simp only [observed, List.filterMap_cons_some hobs, observedReplies, hobs]
              exact ⟨hreply r h.1, hrest⟩

/-- Two lists of replies to the same events match, pair by pair. -/
def Matched (Q : ο → ρ → ρ → Prop) : List ο → List ρ → List ρ → Prop
  | [], rs, rs' => rs = [] ∧ rs' = []
  | o :: os, r :: rs, r' :: rs' => Q o r r' ∧ Matched Q os rs rs'
  | _ :: _, _, _ => False

/-- Replies that agree with one specification match, where the specification
    allows only matching replies. -/
theorem Spec.Agrees.matched {S : Spec τ ο ρ} {Q : ο → ρ → ρ → Prop}
    (hQ : ∀ t o r r', S.reply t o r → S.reply t o r' → Q o r r') {t : τ} {os : List ο}
    {rs rs' : List ρ} (h : S.Agrees t os rs) (h' : S.Agrees t os rs') : Matched Q os rs rs' := by
  induction os generalizing t rs rs' with
  | nil => exact ⟨h, h'⟩
  | cons o os ih =>
      cases rs with
      | nil => exact h.elim
      | cons r rs =>
          cases rs' with
          | nil => exact h'.elim
          | cons r' rs' => exact ⟨hQ t o r r' h.1 h'.1, ih h.2 h'.2⟩

theorem Matched.eq {os : List ο} {rs rs' : List ρ} (h : Matched (fun _ r r' => r = r') os rs rs') :
    rs = rs' := by
  induction os generalizing rs rs' with
  | nil => rw [h.1, h.2]
  | cons o os ih =>
      cases rs with
      | nil => exact h.elim
      | cons r rs =>
          cases rs' with
          | nil => exact h.elim
          | cons r' rs' => rw [h.1, ih h.2]

end

end Lib
