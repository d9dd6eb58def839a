import RedisServer.Theory.Hashtable.Pace

/-!
# The Migration Cursor

The loop of `hm_help_rehashing` has no bound on its cursor. It stays in the
table because the size is exact and nothing is ever put back behind it: an
insertion goes to the newer table, a deletion only empties slots, and a resize
starts again from a table that no slot of was passed.

What the loop does is spoken of turn by turn, so that it covers the states in
the middle of a batch.

## Main definitions

* `CursorOk`: A node left in the older table is at the cursor or ahead of it.
* `Turning`: The states of one run of the loop.
* `HelpSafe`: A call of `hm_help_rehashing` stays in the table and ends.

## Theorems

* `Turning.wf`: The invariant holds at every turn.
* `HMap.Wf.helpSafe`: A call on a well-formed map.
* `migration_cursor_safe`: After every sequence of operations.
-/

namespace RedisServer

open Lib

variable {α : Type}

/-- A node is left only in a slot that the migration has yet to come to. -/
structure CursorOk (m : HMap α) : Prop where
  ahead : 0 < m.older.size →
    ∃ i chain, m.migratePos ≤ i ∧ m.older.tab[i]? = some chain ∧ chain ≠ []
  behind : ∀ (i : Nat) chain, i < m.migratePos → m.older.tab[i]? = some chain → chain = []

theorem HMap.Wf.cursorOk {m : HMap α} (hwf : m.Wf) : CursorOk m where
  ahead := by
    intro hsize
    have hne : m.older.tab.flatten ≠ [] := by
      intro hnil
      rw [hwf.older.size, HTab.nodes, hnil, List.length_nil] at hsize
      exact Nat.lt_irrefl 0 hsize
    rcases exists_slot_of_flatten_ne_nil hne with ⟨i, chain, hi, hc⟩
    refine ⟨i, chain, ?_, hi, hc⟩
    by_contra hlt
    exact hc (hwf.passed i (Nat.lt_of_not_le hlt) chain hi)
  behind := fun i chain hi hc => hwf.passed i hi chain hc

/-- The states of a run of the loop, each with the nodes moved so far. -/
inductive Turning (m : HMap α) : Nat → HMap α → Prop
  | start : Turning m 0 m
  | turn {nwork nwork' : Nat} {m₁ m₂ : HMap α} : Turning m nwork m₁ → nwork < kRehasingWork →
      0 < m₁.older.size → helpTurn nwork m₁ = .ok (nwork', m₂) → Turning m nwork' m₂

/-- No turn breaks the invariant or loses a node. -/
theorem Turning.wf {m m' : HMap α} {nwork : Nat} (hwf : m.Wf) (h : Turning m nwork m') :
    m'.Wf ∧ m'.nodes.Perm m.nodes := by
  induction h with
  | start => exact ⟨hwf, List.Perm.refl _⟩
  | turn _ hwork hsize hturn ih =>
    rcases helpTurn_spec ih.1 hwork hsize with ⟨_, _, hturn', hwf', hperm, _⟩
    rw [hturn] at hturn'
    cases hturn'
    exact ⟨hwf', hperm.trans ih.2⟩

/-- The loop goes from one of its states to the next, and ends in one where
    there is nothing left to do. -/
theorem Turning.loop {m m₁ m' : HMap α} {fuel nwork : Nat} (h : Turning m nwork m₁)
    (hloop : helpRehashingLoop fuel nwork m₁ = .ok m') :
    ∃ nwork', Turning m nwork' m' ∧ ¬ (nwork' < kRehasingWork ∧ 0 < m'.older.size) := by
  induction fuel generalizing nwork m₁ with
  | zero => nomatch hloop
  | succ fuel ih =>
    by_cases hwork : nwork < kRehasingWork ∧ 0 < m₁.older.size
    · rw [helpRehashingLoop_turn hwork] at hloop
      rcases bind_eq_ok.mp hloop with ⟨⟨nwork', m₂⟩, hturn, hrest⟩
      exact ih (.turn h hwork.1 hwork.2 hturn) hrest
    · rw [helpRehashingLoop, if_neg hwork] at hloop
      cases hloop
      exact ⟨nwork, h, hwork⟩

/-- A call of `hm_help_rehashing`: at every turn the cursor is in order, and
    where the loop reads the table it is within the mask. The call returns,
    with the nodes it was given, and it has freed the older table only where
    the loop left no node in it. -/
structure HelpSafe (m : HMap α) : Prop where
  cursor : ∀ nwork m', Turning m nwork m' → CursorOk m'
  inMask : ∀ nwork m', Turning m nwork m' → nwork < kRehasingWork → 0 < m'.older.size →
    m'.migratePos ≤ m'.older.mask ∧ ∃ chain, m'.older.tab[m'.migratePos]? = some chain
  returns : ∃ nwork m₁ m', Turning m nwork m₁ ∧ hmHelpRehashing m = .ok m' ∧
    m'.nodes.Perm m.nodes ∧
    (m' = m₁ ∨ m' = { m₁ with older := {} } ∧ m₁.older.nodes = [])

theorem HMap.Wf.helpSafe {m : HMap α} (hwf : m.Wf) : HelpSafe m where
  cursor := fun _ _ h => (h.wf hwf).1.cursorOk
  inMask := by
    intro nwork m' h _ hsize
    have hwf' := (h.wf hwf).1
    have hlt := hwf'.migratePos_lt hsize
    have hne : m'.older.tab ≠ [] := List.ne_nil_of_length_pos (Nat.zero_lt_of_lt hlt)
    rw [hwf'.older.length_eq hne] at hlt
    exact ⟨Nat.le_of_lt_succ hlt, _, List.getElem?_eq_getElem (hwf'.migratePos_lt hsize)⟩
  returns := by
    rcases helpRehashingLoop_spec (kRehasingWork + m.older.tab.length + 1) 0 hwf (by omega) with
      ⟨m₁, hloop, hwf₁, hperm₁, _⟩
    rcases hmHelpRehashing_spec hwf with ⟨m', hrun, _, hperm, _⟩
    rcases Turning.start.loop hloop with ⟨nwork, hturning, _⟩
    refine ⟨nwork, m₁, m', hturning, hrun, hperm, ?_⟩
    simp only [hmHelpRehashing, hloop, ok_bind] at hrun
    by_cases hdone : m₁.older.size = 0 ∧ ¬ m₁.older.tab.isEmpty
    · rw [if_pos hdone] at hrun
      cases hrun
      refine Or.inr ⟨rfl, ?_⟩
      rw [← List.length_eq_zero_iff, ← hwf₁.older.size]
      exact hdone.1
    · rw [if_neg hdone] at hrun
      cases hrun
      exact Or.inl rfl

/-- After every sequence of operations from the empty map a node left in the
    older table is at the cursor or ahead of it, and every slot behind the
    cursor is empty. The next operation calls `hm_help_rehashing` on this map,
    or on what `hm_insert` has made of it, and either call stays within the
    mask, ends, and frees the older table only once it is empty. -/
theorem migration_cursor_safe (ops : List (MapOp α)) :
    ∃ m replies, run hmStep ({} : HMap α) ops = .ok (m, replies) ∧ CursorOk m ∧ HelpSafe m ∧
      ∀ n, ∃ m₁, insertNode m n = .ok m₁ ∧ CursorOk m₁ ∧ HelpSafe m₁ := by
  rcases run_paced ops with ⟨m, replies, hrun, hwf, _⟩
  refine ⟨m, replies, hrun, hwf.cursorOk, hwf.helpSafe, fun n => ?_⟩
  rcases insertNode_spec hwf n with ⟨m₁, hins, hwf₁, _⟩
  exact ⟨m₁, hins, hwf₁.cursorOk, hwf₁.helpSafe⟩

end RedisServer
