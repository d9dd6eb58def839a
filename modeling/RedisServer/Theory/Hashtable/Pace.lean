import RedisServer.Theory.Hashtable.Refine

/-!
# The Pace of the Migration

A migration ends before the table it fills is full. Every operation moves up
to 128 nodes and adds at most one, so of the `8 * n` nodes that a table of `n`
slots held when the migration began all are moved long before as many again
have been added.

The proof is an account. With `n` slots in the older table, each node in the
map is charged 128, each node still to be moved one more, and what the account
may hold is `1032 * n`: the charge of the `8 * n` nodes at the start. A node
added costs 128, and the 128 nodes that are moved in the same operation pay
for it.

## Main definitions

* `Drained`: Some nodes have gone from the older table to the newer one.
* `Charged`: The account of a map is covered.
* `Paced`: It is covered with one insertion to spare.

## Theorems

* `helpRehashingLoop_drained`: How many nodes are moved.
* `hmHelpRehashing_paced`: The migration step earns the next insertion.
* `hmStep_paced`: One operation.
* `resize_never_skipped`: Every sequence of operations.
-/

namespace RedisServer

open Lib

variable {α : Type}

/-! ## What an operation does to the sizes -/

theorem hInit_size {t : HTab α} {n : Nat} (h : hInit n = .ok t) :
    t.size = 0 ∧ t.mask + 1 = n ∧ t.tab.length = n := by
  unfold hInit at h
  by_cases hpow : 0 < n ∧ (n - 1) &&& n = 0
  · rw [if_pos hpow, Except.ok.injEq] at h
    rw [← h]
    exact ⟨rfl, Nat.sub_add_cancel hpow.1, List.length_replicate⟩
  · rw [if_neg hpow] at h
    cases h

theorem hInsert_size {t t' : HTab α} {n : HNode α} (h : hInsert t n = .ok t') :
    t'.size = t.size + 1 ∧ t'.mask = t.mask ∧ t'.tab.length = t.tab.length := by
  unfold hInsert at h
  cases hslot : t.tab[n.hcode &&& t.mask]? with
  | none => simp only [hslot, reduceCtorEq] at h
  | some chain =>
      simp only [hslot, Except.ok.injEq] at h
      rw [← h]
      exact ⟨rfl, rfl, List.length_set⟩

theorem hDetach_size {t t' : HTab α} {link : Link} {n : HNode α}
    (h : hDetach t link = .ok (n, t')) :
    t'.size = t.size - 1 ∧ t'.mask = t.mask ∧ t'.tab.length = t.tab.length := by
  unfold hDetach at h
  cases hslot : t.tab[link.slot]? with
  | none => simp only [hslot, reduceCtorEq] at h
  | some chain =>
      cases hnode : chain[link.depth]? with
      | none => simp only [hslot, hnode, reduceCtorEq] at h
      | some k =>
          simp only [hslot, hnode, Except.ok.injEq, Prod.mk.injEq] at h
          rw [← h.2]
          exact ⟨rfl, rfl, List.length_set⟩

/-- `k` nodes have gone from the older table to the newer one. -/
structure Drained (m m' : HMap α) (k : Nat) : Prop where
  newer : m'.newer.size = m.newer.size + k
  older : m'.older.size + k = m.older.size
  newer_mask : m'.newer.mask = m.newer.mask
  older_mask : m'.older.mask = m.older.mask
  newer_tab : m'.newer.tab.length = m.newer.tab.length
  older_tab : m'.older.tab.length = m.older.tab.length

theorem Drained.trans {m m' m'' : HMap α} {j k : Nat} (h : Drained m m' j) (h' : Drained m' m'' k) :
    Drained m m'' (j + k) where
  newer := by rw [h'.newer, h.newer, Nat.add_assoc]
  older := by rw [← h.older, ← h'.older, Nat.add_assoc, Nat.add_comm k j]
  newer_mask := h'.newer_mask.trans h.newer_mask
  older_mask := h'.older_mask.trans h.older_mask
  newer_tab := h'.newer_tab.trans h.newer_tab
  older_tab := h'.older_tab.trans h.older_tab

/-- A turn does as much work as it moves nodes, which is at most one. -/
theorem helpTurn_drained {nwork nwork' : Nat} {m m' : HMap α}
    (hsize : 0 < m.older.size) (h : helpTurn nwork m = .ok (nwork', m')) :
    ∃ k, k ≤ 1 ∧ nwork' = nwork + k ∧ Drained m m' k := by
  unfold helpTurn at h
  cases hslot : m.older.tab[m.migratePos]? with
  | none => simp only [hslot, reduceCtorEq] at h
  | some chain =>
      cases chain with
      | nil =>
          simp only [hslot, Except.ok.injEq, Prod.mk.injEq] at h
          rcases h with ⟨rfl, rfl⟩
          exact ⟨0, Nat.zero_le 1, rfl, ⟨rfl, rfl, rfl, rfl, rfl, rfl⟩⟩
      | cons n rest =>
          simp only [hslot] at h
          rcases bind_eq_ok.mp h with ⟨⟨node, older⟩, hdet, h⟩
          rcases bind_eq_ok.mp h with ⟨newer, hins, h⟩
          rcases hDetach_size hdet with ⟨hosize, homask, hotab⟩
          rcases hInsert_size hins with ⟨hnsize, hnmask, hntab⟩
          simp only [Except.ok.injEq, Prod.mk.injEq] at h
          rcases h with ⟨rfl, rfl⟩
          have hleft : older.size + 1 = m.older.size := by
            rw [hosize, Nat.sub_add_cancel hsize]
          exact ⟨1, Nat.le_refl 1, rfl, ⟨hnsize, hleft, hnmask, homask, hntab, hotab⟩⟩

-- The loop ends when the work is used up or the older table is empty. Passing
-- an empty slot changes no size, so the induction is on the turns.
theorem helpRehashingLoop_drained {fuel nwork : Nat} {m m' : HMap α}
    (hwork : nwork ≤ kRehasingWork) (h : helpRehashingLoop fuel nwork m = .ok m') :
    ∃ k, Drained m m' k ∧ (m'.older.size = 0 ∨ nwork + k = kRehasingWork) := by
  induction fuel generalizing nwork m with
  | zero => exact absurd h (by simp only [helpRehashingLoop, reduceCtorEq, not_false_eq_true])
  | succ fuel ih =>
      by_cases hgo : nwork < kRehasingWork ∧ 0 < m.older.size
      · rw [helpRehashingLoop_turn hgo] at h
        rcases bind_eq_ok.mp h with ⟨⟨nwork', m₁⟩, hturn, h⟩
        rcases helpTurn_drained hgo.2 hturn with ⟨j, hj, rfl, hd₁⟩
        have hwork' : nwork + j ≤ kRehasingWork := by omega
        rcases ih hwork' h with ⟨k, hd, hend⟩
        refine ⟨j + k, hd₁.trans hd, ?_⟩
        rw [← Nat.add_assoc]
        exact hend
      · rw [helpRehashingLoop, if_neg hgo, Except.ok.injEq] at h
        subst h
        refine ⟨0, ⟨rfl, rfl, rfl, rfl, rfl, rfl⟩, ?_⟩
        omega

/-! ## The account -/

/-- The account of a map is covered: without a migration the table is not
    full, and during one the newer table is twice as long, and a charge of 128
    for each node and one for each node to be moved stays within what the
    older table was full with. -/
structure Charged (m : HMap α) (spare : Nat) : Prop where
  idle : m.newer.tab ≠ [] → m.older.tab = [] →
    m.newer.size < (m.newer.mask + 1) * kMaxLoadFactor
  double : m.older.tab ≠ [] → m.newer.mask + 1 = 2 * (m.older.mask + 1)
  account : m.older.tab ≠ [] → kRehasingWork * hmSize m + m.older.size + spare ≤
    kMaxLoadFactor * (kRehasingWork + 1) * (m.older.mask + 1)

/-- The account is covered, with one insertion to spare. -/
def Paced (m : HMap α) : Prop := Charged m kRehasingWork

variable {m m' : HMap α}

theorem paced_empty : Paced ({} : HMap α) where
  idle := fun h => absurd rfl h
  double := fun h => absurd rfl h
  account := fun h => absurd rfl h

/-- An allocated newer table is below its threshold, and during a migration it
    is still below it after one more insertion. -/
theorem Paced.below (h : Paced m) (hne : m.newer.tab ≠ []) :
    m.newer.size < (m.newer.mask + 1) * kMaxLoadFactor ∧
      (m.older.tab ≠ [] → m.newer.size + 1 < (m.newer.mask + 1) * kMaxLoadFactor) := by
  have hbusy : m.older.tab ≠ [] → m.newer.size + 1 < (m.newer.mask + 1) * kMaxLoadFactor := by
    intro hold
    have hdouble := h.double hold
    have haccount := h.account hold
    unfold hmSize kRehasingWork kMaxLoadFactor at haccount
    unfold kMaxLoadFactor
    omega
  refine ⟨?_, hbusy⟩
  by_cases hold : m.older.tab = []
  · exact h.idle hne hold
  · exact Nat.lt_of_succ_lt (hbusy hold)

-- The migration step moves 128 nodes, which earns an insertion, or it ends the
-- migration, and then all nodes are in the newer table.
theorem hmHelpRehashing_paced (hnull : m.older.tab = [] → m.older.size = 0) (hc : Charged m 0)
    (h : hmHelpRehashing m = .ok m') : Paced m' := by
  unfold hmHelpRehashing at h
  rcases bind_eq_ok.mp h with ⟨m₁, hloop, h⟩
  rcases helpRehashingLoop_drained (Nat.zero_le _) hloop with ⟨k, hd, hend⟩
  have hnewer : m₁.newer.tab = [] ↔ m.newer.tab = [] := by
    rw [← List.length_eq_zero_iff, hd.newer_tab, List.length_eq_zero_iff]
  have holder : m₁.older.tab = [] ↔ m.older.tab = [] := by
    rw [← List.length_eq_zero_iff, hd.older_tab, List.length_eq_zero_iff]
  by_cases hold : m.older.tab = []
  · -- Without a migration nothing moves.
    have hzero := hnull hold
    rw [if_neg (by rw [List.isEmpty_iff.mpr (holder.mpr hold)]; exact fun hn => hn.2 rfl),
      Except.ok.injEq] at h
    subst h
    refine ⟨fun hne _ => ?_, fun hne => absurd (holder.mpr hold) hne,
      fun hne => absurd (holder.mpr hold) hne⟩
    have hidle := hc.idle (mt hnewer.mpr hne) hold
    have hsize := hd.newer
    have hsame := hd.older
    rw [hd.newer_mask]
    omega
  · have hdouble := hc.double hold
    have haccount := hc.account hold
    unfold hmSize kRehasingWork kMaxLoadFactor at haccount
    have hn := hd.newer
    have ho := hd.older
    -- the older table was emptied and is freed, or the whole allowance was used
    by_cases hdone : m₁.older.size = 0 ∧ ¬ m₁.older.tab.isEmpty
    · rw [if_pos hdone, Except.ok.injEq] at h
      subst h
      refine ⟨fun _ _ => ?_, fun hne => absurd rfl hne, fun hne => absurd rfl hne⟩
      have hmask := hd.newer_mask
      simp only [kMaxLoadFactor]
      omega
    · rw [if_neg hdone, Except.ok.injEq] at h
      subst h
      have hleft : m₁.older.size ≠ 0 := fun hzero => hdone ⟨hzero, by
        rw [List.isEmpty_iff]
        exact mt holder.mp hold⟩
      have hall : 0 + k = kRehasingWork := hend.resolve_left hleft
      refine ⟨fun _ hnil => absurd (holder.mp hnil) hold, fun _ => ?_, fun _ => ?_⟩
      · rw [hd.newer_mask, hd.older_mask]
        exact hdouble
      · rw [hd.older_mask]
        unfold hmSize
        unfold kRehasingWork at hall ⊢
        unfold kMaxLoadFactor
        omega

theorem Charged.spend {spare spare' : Nat} (h : Charged m spare) (hle : spare' ≤ spare) :
    Charged m spare' :=
  ⟨h.idle, h.double, fun hold => Nat.le_trans (Nat.add_le_add_left hle _) (h.account hold)⟩

/-! ## The start of a migration -/

theorem HMap.Wf.older_null (hwf : m.Wf) (h : m.older.tab = []) : m.older.size = 0 := by
  rw [hwf.older.size, HTab.nodes, h, List.flatten_nil, List.length_nil]

-- A full table becomes the older one, and its nodes are all that the account
-- may hold.
theorem hmTriggerRehashing_charged (h : hmTriggerRehashing m = .ok m')
    (hsize : m.newer.size ≤ (m.newer.mask + 1) * kMaxLoadFactor) :
    Charged m' 0 ∧ m'.older = m.newer := by
  unfold hmTriggerRehashing at h
  by_cases hold : m.older.tab.isEmpty
  · rw [if_pos hold] at h
    rcases bind_eq_ok.mp h with ⟨newer, hinit, h⟩
    rw [Except.ok.injEq] at h
    subst h
    rcases hInit_size hinit with ⟨hzero, hmask, _⟩
    refine ⟨⟨fun _ _ => ?_, fun _ => ?_, fun _ => ?_⟩, rfl⟩
    · simp only [hzero, kMaxLoadFactor]
      omega
    · simp only [hmask]
      omega
    · unfold hmSize kRehasingWork kMaxLoadFactor
      unfold kMaxLoadFactor at hsize
      simp only [hzero]
      omega
  · rw [if_neg hold] at h
    cases h

/-- The newer table that an insertion uses, which it allocates on first use, is
    below its threshold. -/
theorem insertNewer_below (hwf : m.Wf) (hp : Paced m) {t : HTab α}
    (h : (if m.newer.tab.isEmpty then hInit 4 else .ok m.newer) = .ok t) :
    t.size < (t.mask + 1) * kMaxLoadFactor ∧ t.tab ≠ [] ∧ (m.older.tab ≠ [] → t = m.newer) := by
  by_cases hnil : m.newer.tab = []
  · rw [if_pos (List.isEmpty_iff.mpr hnil)] at h
    rcases hInit_size h with ⟨hzero, hmask, hlen⟩
    refine ⟨?_, fun hempty => ?_, fun hold => absurd hnil (hwf.alloc hold)⟩
    · rw [hzero, hmask]
      decide
    · rw [hempty] at hlen
      exact absurd hlen (Nat.succ_ne_zero 3).symm
  · rw [if_neg (mt List.isEmpty_iff.mp hnil), Except.ok.injEq] at h
    subst h
    exact ⟨(hp.below hnil).1, hnil, fun _ => rfl⟩

/-! ## The operations -/

-- An insertion costs 128 of the account, which is what was to spare.
theorem hmInsert_paced (hwf : m.Wf) (hp : Paced m) {n : HNode α} (h : hmInsert m n = .ok m') :
    Paced m' := by
  unfold hmInsert at h
  rcases bind_eq_ok.mp h with ⟨t, halloc, h⟩
  rcases bind_eq_ok.mp h with ⟨newer, hins, h⟩
  rcases bind_eq_ok.mp h with ⟨m₁, htrig, hhelp⟩
  rcases insertNewer_below hwf hp halloc with ⟨hbelow, hne, hsame⟩
  rcases hInsert_size hins with ⟨hsize, hmask, htab⟩
  have hfull : newer.size ≤ (newer.mask + 1) * kMaxLoadFactor := by
    rw [hsize, hmask]
    exact hbelow
  -- a resize starts a new account, otherwise the old one is charged for one node
  by_cases hload : m.older.tab.isEmpty ∧ (newer.mask + 1) * kMaxLoadFactor ≤ newer.size
  · rw [if_pos hload] at htrig
    rcases hmTriggerRehashing_charged htrig hfull with ⟨hcharged, hold⟩
    refine hmHelpRehashing_paced (fun hempty => ?_) hcharged hhelp
    rw [hold] at hempty
    rw [hempty, List.length_nil, eq_comm, List.length_eq_zero_iff] at htab
    exact absurd htab hne
  · rw [if_neg hload, Except.ok.injEq] at htrig
    subst htrig
    refine hmHelpRehashing_paced (m := ⟨newer, m.older, m.migratePos⟩) hwf.older_null
      ⟨fun _ hold => ?_, fun hold => ?_, fun hold => ?_⟩ hhelp
    · rw [not_and, Nat.not_le] at hload
      exact hload (List.isEmpty_iff.mpr hold)
    · rw [hmask, hsame hold]
      exact hp.double hold
    · have haccount := hp.account hold
      rw [hsame hold] at hsize
      unfold hmSize kRehasingWork kMaxLoadFactor at haccount ⊢
      simp only [hsize]
      omega

theorem hmLookup_paced (hwf : m.Wf) (hp : Paced m) {hcode : Nat} {eq : α → Result Bool}
    {r : Option (HNode α)} (h : hmLookup m hcode eq = .ok (m', r)) : Paced m' :=
  hmHelpRehashing_paced hwf.older_null (hp.spend (Nat.zero_le _)) (hmLookup_fst h)

theorem Paced.detach_newer (h : Paced m) {link : Link} {n : HNode α} {t : HTab α}
    (hdet : hDetach m.newer link = .ok (n, t)) : Paced { m with newer := t } := by
  rcases hDetach_size hdet with ⟨hsize, hmask, htab⟩
  refine ⟨fun hne hold => ?_, fun hold => ?_, fun hold => ?_⟩
  · have hidle := h.idle (fun hnil => hne ?_) hold
    · rw [hmask, hsize]
      omega
    · rwa [← List.length_eq_zero_iff, ← htab, List.length_eq_zero_iff] at hnil
  · rw [hmask]
    exact h.double hold
  · have haccount := h.account hold
    unfold hmSize kRehasingWork kMaxLoadFactor at haccount ⊢
    simp only [hsize]
    omega

theorem Paced.detach_older (h : Paced m) {link : Link} {n : HNode α} {t : HTab α}
    (hdet : hDetach m.older link = .ok (n, t)) : Paced { m with older := t } := by
  rcases hDetach_size hdet with ⟨hsize, hmask, htab⟩
  have hold : t.tab = [] ↔ m.older.tab = [] := by
    rw [← List.length_eq_zero_iff, htab, List.length_eq_zero_iff]
  refine ⟨fun hne hnil => h.idle hne (hold.mp hnil), fun hne => ?_, fun hne => ?_⟩
  · rw [hmask]
    exact h.double (mt hold.mpr hne)
  · have haccount := h.account (mt hold.mpr hne)
    unfold hmSize kRehasingWork kMaxLoadFactor at haccount ⊢
    simp only [hsize, hmask]
    omega

-- A node detached from either table is no longer charged.
theorem hmDelete_paced (hwf : m.Wf) (hp : Paced m) {hcode : Nat} {eq : α → Result Bool}
    {r : Option (HNode α)} (h : hmDelete m hcode eq = .ok (m', r)) : Paced m' := by
  unfold hmDelete at h
  rcases bind_eq_ok.mp h with ⟨m₁, hhelp, h⟩
  have hpaced := hmHelpRehashing_paced hwf.older_null (hp.spend (Nat.zero_le _)) hhelp
  rcases bind_eq_ok.mp h with ⟨found, _, h⟩
  cases found with
  | some link =>
      rcases bind_eq_ok.mp h with ⟨⟨n, t⟩, hdet, h⟩
      rw [Except.ok.injEq, Prod.mk.injEq] at h
      rw [← h.1]
      exact hpaced.detach_newer hdet
  | none =>
      rcases bind_eq_ok.mp h with ⟨found', _, h⟩
      cases found' with
      | some link =>
          rcases bind_eq_ok.mp h with ⟨⟨n, t⟩, hdet, h⟩
          rw [Except.ok.injEq, Prod.mk.injEq] at h
          rw [← h.1]
          exact hpaced.detach_older hdet
      | none =>
          rw [Except.ok.injEq, Prod.mk.injEq] at h
          rw [← h.1]
          exact hpaced

/-- One operation, on any well-formed map. -/
theorem hmStep_paced (hwf : m.Wf) (hp : Paced m) (op : MapOp α) :
    ∃ m' r, hmStep m op = .ok (m', r) ∧ m'.Wf ∧ Paced m' := by
  have hans (hcode : Nat) (eq : α → Bool) :
      Answers (fun a => .ok (eq a)) eq hcode m.nodes := fun _ _ _ => rfl
  cases op with
  | insert n =>
      rcases hmInsert_spec hwf n with ⟨m', hins, hwf', _⟩
      exact ⟨m', .done, by simp only [hmStep, hins, ok_bind], hwf', hmInsert_paced hwf hp hins⟩
  | lookup hcode eq =>
      rcases hmLookup_spec hwf (hans hcode eq) with ⟨m', r, hlook, hwf', _⟩
      exact ⟨m', .node r, by simp only [hmStep, hlook, ok_bind], hwf', hmLookup_paced hwf hp hlook⟩
  | delete hcode eq =>
      rcases hmDelete_spec hwf (hans hcode eq) with ⟨m', r, hdel, hwf', _⟩
      exact ⟨m', .node r, by simp only [hmStep, hdel, ok_bind], hwf', hmDelete_paced hwf hp hdel⟩
  | size => exact ⟨m, _, rfl, hwf, hp⟩
  | foreach =>
      have hwalk := hmForeach_eq (f := fun a s => (true, s ++ [a])) (fun s a => s ++ [a])
        (fun _ _ => rfl) hwf ([] : List α)
      exact ⟨m, _, by simp only [hmStep, hwalk, ok_bind]; rfl, hwf, hp⟩

/-- Every sequence of operations from the empty map. -/
theorem run_paced (ops : List (MapOp α)) :
    ∃ m replies, run hmStep ({} : HMap α) ops = .ok (m, replies) ∧ m.Wf ∧ Paced m := by
  have hstep : ∀ (m : HMap α) (op : MapOp α), m.Wf ∧ Paced m → True →
      ∃ m' r, hmStep m op = .ok (m', r) ∧ m'.Wf ∧ Paced m' := by
    intro m op hm _
    exact hmStep_paced hm.1 hm.2 op
  have hG : Guarded hmStep (fun _ _ => True) ({} : HMap α) ops :=
    guarded_of_forall (fun _ _ _ => True.intro) _
  exact run_total hstep ⟨HMap.wf_empty, paced_empty⟩ hG

/-- After every sequence of operations from the empty map the newer table, if
    it is allocated, is below its threshold. During a migration it has twice
    the slots of the older table, and the next insertion leaves it below the
    threshold, so the test that is skipped then would not have succeeded. -/
theorem resize_never_skipped (ops : List (MapOp α)) :
    ∃ m replies, run hmStep ({} : HMap α) ops = .ok (m, replies) ∧
      (m.newer.tab ≠ [] → m.newer.size < (m.newer.mask + 1) * kMaxLoadFactor) ∧
      (m.older.tab ≠ [] →
        m.newer.tab.length = 2 * m.older.tab.length ∧
        m.newer.mask + 1 = m.newer.tab.length ∧
        ∀ n newer, hInsert m.newer n = .ok newer →
          newer.size < (newer.mask + 1) * kMaxLoadFactor) := by
  rcases run_paced ops with ⟨m, replies, hrun, hwf, hp⟩
  refine ⟨m, replies, hrun, fun hne => (hp.below hne).1, fun hold => ?_⟩
  have hne := hwf.alloc hold
  refine ⟨?_, (hwf.newer.length_eq hne).symm, fun n newer hins => ?_⟩
  · rw [hwf.newer.length_eq hne, hwf.older.length_eq hold]
    exact hp.double hold
  · rcases hInsert_size hins with ⟨hsize, hmask, _⟩
    rw [hsize, hmask]
    exact (hp.below hne).2 hold

end RedisServer
