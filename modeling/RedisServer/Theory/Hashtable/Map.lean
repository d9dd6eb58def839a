import RedisServer.Theory.Hashtable.Table

/-!
# The Map and its Migration

The two tables of a map together, in any stage of a migration. `HMap.Wf` says
that both tables are well formed and that the migration cursor has nothing
behind it: the slots of the older table below the cursor are empty. That last
clause is what keeps the cursor inside the array, since a table with a node
left has a slot at or above the cursor.

An operation first moves some nodes, so each specification speaks about
`HMap.nodes`, the contents of both tables, up to order.

## Main definitions

* `HMap.nodes`: Everything the map holds.
* `HMap.Wf`: The invariant of a map.
* `helpTurn`: One turn of the migration's loop.
* `insertNode`: An insertion before its migration step.
* `Found`: What a lookup may answer.

## Theorems

* `helpTurn_spec`: A turn never faults and leaves less to do.
* `hmHelpRehashing_spec`: The migration keeps the contents and never faults.
* `hmLookup_spec`: A lookup answers from the contents and keeps them.
* `hmInsert_spec`: An insertion adds its node.
* `hmDelete_spec`: A deletion removes the node it returns, and no other.
* `hmSize_eq`: The size counts the contents.
* `hmForeach_eq`: The walk visits the contents in order.
-/

namespace RedisServer

open Lib

variable {α σ : Type}

namespace HMap

/-- Everything the map holds, the newer table first. -/
def nodes (m : HMap α) : List (HNode α) := m.newer.nodes ++ m.older.nodes

/-- Both tables are well formed, an older table stands behind a newer one, and
    the slots the migration has passed are empty. -/
structure Wf (m : HMap α) : Prop where
  newer : m.newer.Wf
  older : m.older.Wf
  alloc : m.older.tab ≠ [] → m.newer.tab ≠ []
  passed : ∀ i < m.migratePos, ∀ c, m.older.tab[i]? = some c → c = []

theorem wf_empty : (({} : HMap α)).Wf where
  newer := HTab.wf_null
  older := HTab.wf_null
  alloc := fun h => absurd rfl h
  passed := by
    intro i hi
    exact absurd hi (Nat.not_lt_zero i)

@[simp] theorem nodes_empty : (({} : HMap α)).nodes = [] := rfl

theorem mem_nodes {m : HMap α} {n : HNode α} :
    n ∈ m.nodes ↔ n ∈ m.newer.nodes ∨ n ∈ m.older.nodes := List.mem_append

/-- While the older table holds a node, the cursor is at one of its slots. -/
theorem Wf.migratePos_lt {m : HMap α} (hwf : m.Wf) (hpos : 0 < m.older.size) :
    m.migratePos < m.older.tab.length := by
  have hne : m.older.tab.flatten ≠ [] := by
    intro h
    rw [hwf.older.size, HTab.nodes, h, List.length_nil] at hpos
    exact Nat.lt_irrefl 0 hpos
  rcases exists_slot_of_flatten_ne_nil hne with ⟨i, c, hi, hc⟩
  have hle : m.migratePos ≤ i := by
    by_contra hlt
    exact hc (hwf.passed i (Nat.lt_of_not_le hlt) c hi)
  exact Nat.lt_of_le_of_lt hle (lt_length_of_getElem? hi)

end HMap

/-! ## Migration -/

/-- The body of the loop: the nodes moved so far, and the map. -/
def helpTurn (nwork : Nat) (m : HMap α) : Result (Nat × HMap α) :=
  match m.older.tab[m.migratePos]? with
  | none => .error .outOfBounds
  | some [] => .ok (nwork, { m with migratePos := m.migratePos + 1 })
  | some (_ :: _) => do
    let (node, older) ← hDetach m.older ⟨m.migratePos, 0⟩
    let newer ← hInsert m.newer node
    .ok (nwork + 1, { m with newer := newer, older := older })

theorem helpRehashingLoop_turn {fuel nwork : Nat} {m : HMap α}
    (hwork : nwork < kRehasingWork ∧ 0 < m.older.size) :
    helpRehashingLoop (fuel + 1) nwork m =
      (helpTurn nwork m >>= fun r => helpRehashingLoop fuel r.1 r.2) := by
  rw [helpRehashingLoop, if_pos hwork, helpTurn]
  cases m.older.tab[m.migratePos]? with
  | none => rfl
  | some chain =>
    cases chain with
    | nil => rfl
    | cons n rest =>
      cases hDetach m.older ⟨m.migratePos, 0⟩ with
      | error e => rfl
      | ok r =>
        simp only [ok_bind]
        cases hInsert m.newer r.1 with
        | error e => rfl
        | ok newer => rfl

/-- A turn at a table that holds a node passes an empty slot or moves a node,
    and leaves less to do: less work, or fewer slots ahead of the cursor. -/
theorem helpTurn_spec {nwork : Nat} {m : HMap α} (hwf : m.Wf) (hwork : nwork < kRehasingWork)
    (hsize : 0 < m.older.size) :
    ∃ nwork' m', helpTurn nwork m = .ok (nwork', m') ∧ m'.Wf ∧ m'.nodes.Perm m.nodes ∧
      (m.newer.tab ≠ [] → m'.newer.tab ≠ []) ∧
      (kRehasingWork - nwork') + (m'.older.tab.length - m'.migratePos) <
        (kRehasingWork - nwork) + (m.older.tab.length - m.migratePos) := by
  have hlt := hwf.migratePos_lt hsize
  have hget := List.getElem?_eq_getElem hlt
  have hne : m.older.tab ≠ [] := by
    intro h
    rw [h, List.length_nil] at hlt
    exact absurd hlt (Nat.not_lt_zero _)
  rw [helpTurn]
  -- a node is left, so the cursor is in the table
  cases hslot : m.older.tab[m.migratePos] with
  | nil =>
      rw [hslot] at hget
      rw [hget]
      refine ⟨nwork, _, rfl, ⟨hwf.newer, hwf.older, hwf.alloc, ?_⟩, List.Perm.refl _, id, ?_⟩
      · intro i hi c hc
        rcases Nat.lt_succ_iff_lt_or_eq.mp hi with hi | rfl
        · exact hwf.passed i hi c hc
        · simp only [hget, Option.some.injEq] at hc
          exact hc.symm
      · simp only []
        omega
  | cons n rest =>
      rw [hslot] at hget
      rw [hget]
      rcases hDetach_spec hwf.older ⟨m.migratePos, 0⟩ hget rfl with
        ⟨older', hdet, hwf', hperm, _, htab, _⟩
      simp only [hdet, ok_bind, hInsert_eq hwf.newer (hwf.alloc hne) n]
      refine ⟨nwork + 1, _, rfl, ⟨hwf.newer.push (hwf.alloc hne) n, hwf', fun _ =>
        HTab.push_tab_ne_nil (hwf.alloc hne) n, ?_⟩, ?_, fun h => HTab.push_tab_ne_nil h n, ?_⟩
      · -- the slots behind the cursor stay empty
        intro i hi c hc
        simp only [htab] at hc
        rw [List.getElem?_set_ne (Nat.ne_of_gt hi)] at hc
        exact hwf.passed i hi c hc
      · -- the node left the older table and entered the newer one
        have hpush := (hwf.newer.nodes_push (hwf.alloc hne) n).append_right older'.nodes
        refine hpush.trans ?_
        rw [List.cons_append]
        exact List.perm_middle.symm.trans (hperm.symm.append_left m.newer.nodes)
      · simp only [htab, List.length_set]
        omega

/-- The loop ends before its fuel: every turn leaves less to do. -/
theorem helpRehashingLoop_spec : ∀ (fuel nwork : Nat) {m : HMap α}, m.Wf →
    (kRehasingWork - nwork) + (m.older.tab.length - m.migratePos) < fuel →
    ∃ m', helpRehashingLoop fuel nwork m = .ok m' ∧ m'.Wf ∧ m'.nodes.Perm m.nodes ∧
      (m.newer.tab ≠ [] → m'.newer.tab ≠ []) := by
  intro fuel
  induction fuel with
  | zero =>
      intro nwork m _ hfuel
      exact absurd hfuel (Nat.not_lt_zero _)
  | succ fuel ih =>
      intro nwork m hwf hfuel
      by_cases hwork : nwork < kRehasingWork ∧ 0 < m.older.size
      · rcases helpTurn_spec hwf hwork.1 hwork.2 with
          ⟨nwork', m₁, hturn, hwf₁, hperm₁, hnewer₁, hless⟩
        rcases ih nwork' hwf₁ (by omega) with ⟨m', hrun, hwf', hperm, hnewer⟩
        rw [helpRehashingLoop_turn hwork, hturn, ok_bind]
        exact ⟨m', hrun, hwf', hperm.trans hperm₁, fun h => hnewer (hnewer₁ h)⟩
      · rw [helpRehashingLoop, if_neg hwork]
        exact ⟨m, rfl, hwf, List.Perm.refl _, id⟩

/-- The migration step of every operation: no fault, the same contents. -/
theorem hmHelpRehashing_spec {m : HMap α} (hwf : m.Wf) :
    ∃ m', hmHelpRehashing m = .ok m' ∧ m'.Wf ∧ m'.nodes.Perm m.nodes ∧
      (m.newer.tab ≠ [] → m'.newer.tab ≠ []) := by
  rcases helpRehashingLoop_spec (kRehasingWork + m.older.tab.length + 1) 0 hwf (by omega) with
    ⟨m', hrun, hwf', hperm, hnewer⟩
  simp only [hmHelpRehashing, hrun, ok_bind]
  by_cases hdone : m'.older.size = 0 ∧ ¬ m'.older.tab.isEmpty
  · rw [if_pos hdone]
    have hempty : m'.older.nodes = [] := by
      rw [← List.length_eq_zero_iff, ← hwf'.older.size]
      exact hdone.1
    refine ⟨{ m' with older := {} }, rfl, ⟨hwf'.newer, HTab.wf_null, fun h => absurd rfl h, ?_⟩,
      ?_, hnewer⟩
    · intro i _ c hc
      simp only [List.getElem?_nil, reduceCtorEq] at hc
    · rw [HMap.nodes, hempty] at hperm
      exact hperm
  · rw [if_neg hdone]
    exact ⟨m', rfl, hwf', hperm, hnewer⟩

/-! ## Lookup -/

/-- What a lookup may answer: a node that answers the key, or that there is
    none. -/
def Found (l : List (HNode α)) (hcode : Nat) (p : α → Bool) : Option (HNode α) → Prop
  | none => ∀ n ∈ l, ¬ Hit hcode p n
  | some n => n ∈ l ∧ Hit hcode p n

/-- The two lookups of an operation, one table after the other: a node found
    in the newer table, in the older one, or nowhere. -/
theorem hLookup_both {m : HMap α} (hwf : m.Wf) {eq : α → Result Bool} {p : α → Bool} {hcode : Nat}
    (hp : Answers eq p hcode m.nodes) :
    (∃ link n chain, hLookup m.newer hcode eq = .ok (some link) ∧
      m.newer.tab[link.slot]? = some chain ∧ chain[link.depth]? = some n ∧ Hit hcode p n) ∨
    hLookup m.newer hcode eq = .ok none ∧
      ((∃ link n chain, hLookup m.older hcode eq = .ok (some link) ∧
        m.older.tab[link.slot]? = some chain ∧ chain[link.depth]? = some n ∧ Hit hcode p n) ∨
      hLookup m.older hcode eq = .ok none ∧ ∀ n ∈ m.nodes, ¬ Hit hcode p n) := by
  have hpn := Answers.mono m.newer.nodes hp fun n hn => HMap.mem_nodes.mpr (Or.inl hn)
  have hpo := Answers.mono m.older.nodes hp fun n hn => HMap.mem_nodes.mpr (Or.inr hn)
  rcases hLookup_spec hwf.newer hpn with ⟨hnone, hnot⟩ | hfound
  · refine Or.inr ⟨hnone, ?_⟩
    rcases hLookup_spec hwf.older hpo with ⟨hnone', hnot'⟩ | hfound
    · refine Or.inr ⟨hnone', fun n hn => ?_⟩
      rcases HMap.mem_nodes.mp hn with hn | hn
      · exact hnot n hn
      · exact hnot' n hn
    · exact Or.inl hfound
  · exact Or.inl hfound

/-- A lookup leaves the map as its migration step does. -/
theorem hmLookup_fst {m m' : HMap α} {hcode : Nat} {eq : α → Result Bool} {r : Option (HNode α)}
    (h : hmLookup m hcode eq = .ok (m', r)) : hmHelpRehashing m = .ok m' := by
  rcases bind_eq_ok.mp h with ⟨m₁, hhelp, h⟩
  rcases bind_eq_ok.mp h with ⟨r₁, _, h⟩
  cases r₁ with
  | some link =>
      rcases bind_eq_ok.mp h with ⟨n, _, h⟩
      rw [Except.ok.injEq, Prod.mk.injEq] at h
      rw [hhelp, h.1]
  | none =>
      rcases bind_eq_ok.mp h with ⟨r₂, _, h⟩
      cases r₂ with
      | some link =>
          rcases bind_eq_ok.mp h with ⟨n, _, h⟩
          rw [Except.ok.injEq, Prod.mk.injEq] at h
          rw [hhelp, h.1]
      | none =>
          rw [Except.ok.injEq, Prod.mk.injEq] at h
          rw [hhelp, h.1]

/-- A lookup moves nodes, keeps the contents, and answers from them. -/
theorem hmLookup_spec {m : HMap α} (hwf : m.Wf) {eq : α → Result Bool} {p : α → Bool} {hcode : Nat}
    (hp : Answers eq p hcode m.nodes) :
    ∃ m' r, hmLookup m hcode eq = .ok (m', r) ∧ m'.Wf ∧ m'.nodes.Perm m.nodes ∧
      Found m.nodes hcode p r := by
  rcases hmHelpRehashing_spec hwf with ⟨m', hhelp, hwf', hperm, _⟩
  have hp' := Answers.mono m'.nodes hp fun n hn => hperm.mem_iff.mp hn
  simp only [hmLookup, hhelp, ok_bind]
  rcases hLookup_both hwf' hp' with ⟨link, n, chain, hlook, hs, hd, hhit⟩ | ⟨hnone, h⟩
  · have hmem : n ∈ m'.nodes := HMap.mem_nodes.mpr
      (Or.inl (HTab.mem_nodes_of_slot hs (List.mem_of_getElem? hd)))
    simp only [hlook, ok_bind, hDeref_eq hs hd]
    exact ⟨m', some n, rfl, hwf', hperm, hperm.mem_iff.mp hmem, hhit⟩
  · rcases h with ⟨link, n, chain, hlook, hs, hd, hhit⟩ | ⟨hnone', hnot⟩
    · have hmem : n ∈ m'.nodes := HMap.mem_nodes.mpr
        (Or.inr (HTab.mem_nodes_of_slot hs (List.mem_of_getElem? hd)))
      simp only [hnone, ok_bind, hlook, hDeref_eq hs hd]
      exact ⟨m', some n, rfl, hwf', hperm, hperm.mem_iff.mp hmem, hhit⟩
    · simp only [hnone, ok_bind, hnone']
      exact ⟨m', none, rfl, hwf', hperm, fun n hn => hnot n (hperm.mem_iff.mpr hn)⟩

/-! ## Insertion and deletion -/

theorem hmTriggerRehashing_spec {m : HMap α} (hwf : m.Wf) (hnewer : m.newer.tab ≠ [])
    (holder : m.older.tab = []) :
    ∃ m', hmTriggerRehashing m = .ok m' ∧ m'.Wf ∧ m'.nodes.Perm m.nodes := by
  rcases hwf.newer.shape with ⟨hnil, _⟩ | ⟨k, hk, hlen, hmask⟩
  · exact absurd hnil hnewer
  · have hpos := Nat.two_pow_pos k
    have hdouble : (m.newer.mask + 1) * 2 = 2 ^ (k + 1) := by
      rw [hmask, Nat.sub_add_cancel hpos, Nat.pow_succ]
    have hwf' := hInit_wf (α := α) (k + 1) (by omega)
    refine ⟨⟨⟨List.replicate (2 ^ (k + 1)) [], 2 ^ (k + 1) - 1, 0⟩, m.newer, 0⟩, ?_,
      ⟨hwf', hwf.newer, fun _ => ?_, ?_⟩, ?_⟩
    · rw [hmTriggerRehashing, holder, hdouble, hInit_eq]
      rfl
    · intro h
      have hlen' := congrArg List.length h
      rw [List.length_replicate, List.length_nil] at hlen'
      exact absurd hlen' (Nat.ne_of_gt (Nat.two_pow_pos _))
    · intro i hi
      exact absurd hi (Nat.not_lt_zero i)
    · simp only [HMap.nodes, HTab.nodes, holder, List.flatten_replicate_nil, List.nil_append,
        List.flatten_nil, List.append_nil]
      exact List.Perm.refl _

/-- `hm_insert` up to its call of `hm_help_rehashing`. -/
def insertNode (m : HMap α) (node : HNode α) : Result (HMap α) := do
  let newer ← (if m.newer.tab.isEmpty then hInit 4 else .ok m.newer)
  let newer ← hInsert newer node
  if m.older.tab.isEmpty ∧ (newer.mask + 1) * kMaxLoadFactor ≤ newer.size then
    hmTriggerRehashing { m with newer := newer }
  else .ok { m with newer := newer }

theorem hmInsert_eq (m : HMap α) (node : HNode α) :
    hmInsert m node = (insertNode m node >>= hmHelpRehashing) := by
  rw [hmInsert, insertNode]
  cases (if m.newer.tab.isEmpty then hInit 4 else .ok m.newer : Result (HTab α)) with
  | error e => rfl
  | ok t =>
    simp only [ok_bind]
    cases hInsert t node with
    | error e => rfl
    | ok newer => rfl

/-- The node is added, and a resize may have started. -/
theorem insertNode_spec {m : HMap α} (hwf : m.Wf) (n : HNode α) :
    ∃ m', insertNode m n = .ok m' ∧ m'.Wf ∧ m'.nodes.Perm (n :: m.nodes) := by
  -- The newer table, allocated on first use.
  have halloc : ∃ t : HTab α, (if m.newer.tab.isEmpty then hInit 4 else .ok m.newer) = .ok t ∧
      t.Wf ∧ t.tab ≠ [] ∧ t.nodes = m.newer.nodes := by
    by_cases hnil : m.newer.tab = []
    · refine ⟨⟨List.replicate (2 ^ 2) [], 2 ^ 2 - 1, 0⟩, ?_, hInit_wf 2 (Nat.le_refl 2), ?_, ?_⟩
      · rw [hnil, List.isEmpty_nil, if_pos rfl]
        exact hInit_eq 2
      · exact List.cons_ne_nil _ _
      · rw [HTab.nodes, HTab.nodes, hnil, List.flatten_replicate_nil, List.flatten_nil]
    · refine ⟨m.newer, ?_, hwf.newer, hnil, rfl⟩
      rw [if_neg (by rw [List.isEmpty_iff]; exact hnil)]
  rcases halloc with ⟨t, hinit, ht, hne, hnodes⟩
  simp only [insertNode, hinit, ok_bind, hInsert_eq ht hne n]
  have hwf1 : (HMap.mk (t.push n) m.older m.migratePos).Wf :=
    ⟨ht.push hne n, hwf.older, fun _ => HTab.push_tab_ne_nil hne n, hwf.passed⟩
  have hperm1 : (HMap.mk (t.push n) m.older m.migratePos).nodes.Perm (n :: m.nodes) := by
    have := (ht.nodes_push hne n).append_right m.older.nodes
    rw [hnodes, List.cons_append] at this
    exact this
  by_cases hload : m.older.tab.isEmpty ∧
      ((t.push n).mask + 1) * kMaxLoadFactor ≤ (t.push n).size
  · rw [if_pos hload]
    rcases hmTriggerRehashing_spec hwf1 (HTab.push_tab_ne_nil hne n)
      (List.isEmpty_iff.mp hload.1) with ⟨m2, htrig, hwf2, hperm2⟩
    exact ⟨m2, htrig, hwf2, hperm2.trans hperm1⟩
  · rw [if_neg hload]
    exact ⟨_, rfl, hwf1, hperm1⟩

/-- An insertion adds its node, whatever the stage of the migration. -/
theorem hmInsert_spec {m : HMap α} (hwf : m.Wf) (n : HNode α) :
    ∃ m', hmInsert m n = .ok m' ∧ m'.Wf ∧ m'.nodes.Perm (n :: m.nodes) := by
  rcases insertNode_spec hwf n with ⟨m₁, hins, hwf₁, hperm₁⟩
  rcases hmHelpRehashing_spec hwf₁ with ⟨m', hhelp, hwf', hperm, _⟩
  refine ⟨m', ?_, hwf', hperm.trans hperm₁⟩
  rw [hmInsert_eq, hins, ok_bind, hhelp]

/-- A deletion removes the node it returns, and no other. -/
theorem hmDelete_spec {m : HMap α} (hwf : m.Wf) {eq : α → Result Bool} {p : α → Bool} {hcode : Nat}
    (hp : Answers eq p hcode m.nodes) :
    ∃ m' r, hmDelete m hcode eq = .ok (m', r) ∧ m'.Wf ∧ m.nodes.Perm (r.toList ++ m'.nodes) ∧
      Found m.nodes hcode p r := by
  rcases hmHelpRehashing_spec hwf with ⟨m', hhelp, hwf', hperm, _⟩
  have hp' := Answers.mono m'.nodes hp fun n hn => hperm.mem_iff.mp hn
  simp only [hmDelete, hhelp, ok_bind]
  -- in the newer table, in the older one, or in neither
  rcases hLookup_both hwf' hp' with ⟨link, n, chain, hlook, hs, hd, hhit⟩ | ⟨hnone, h⟩
  · have hmem : n ∈ m'.nodes := HMap.mem_nodes.mpr
      (Or.inl (HTab.mem_nodes_of_slot hs (List.mem_of_getElem? hd)))
    rcases hDetach_spec hwf'.newer _ hs hd with ⟨t, hdet, ht, hpermt, _, htab, _⟩
    simp only [hlook, ok_bind, hdet]
    refine ⟨{ m' with newer := t }, some n, rfl, ⟨ht, hwf'.older, fun h => ?_, hwf'.passed⟩,
      hperm.symm.trans ?_, hperm.mem_iff.mp hmem, hhit⟩
    · simp only [htab]
      intro hnil
      have hlen := congrArg List.length hnil
      rw [List.length_set, List.length_nil] at hlen
      exact hwf'.alloc h (List.length_eq_zero_iff.mp hlen)
    · exact hpermt.append_right m'.older.nodes
  · rcases h with ⟨link, n, chain, hlook, hs, hd, hhit⟩ | ⟨hnone', hnot⟩
    · have hmem : n ∈ m'.nodes := HMap.mem_nodes.mpr
        (Or.inr (HTab.mem_nodes_of_slot hs (List.mem_of_getElem? hd)))
      rcases hDetach_spec hwf'.older _ hs hd with ⟨t, hdet, ht, hpermt, _, htab, _⟩
      simp only [hnone, ok_bind, hlook, hdet]
      refine ⟨{ m' with older := t }, some n, rfl, ⟨hwf'.newer, ht, fun h => ?_, ?_⟩,
        hperm.symm.trans ?_, hperm.mem_iff.mp hmem, hhit⟩
      · refine hwf'.alloc fun hnil => h ?_
        rw [htab, hnil, List.set_nil]
      · intro i hi c hc
        simp only [htab, List.getElem?_set] at hc
        split at hc
        · rename_i hslot
          -- The slot the node came from is not behind the cursor.
          rw [hslot] at hs
          have := hwf'.passed i hi chain hs
          rw [this, List.getElem?_nil] at hd
          cases hd
        · exact hwf'.passed i hi c hc
      · exact (hpermt.append_left m'.newer.nodes).trans List.perm_middle
    · simp only [hnone, ok_bind, hnone']
      exact ⟨m', none, rfl, hwf', hperm.symm, fun n hn => hnot n (hperm.mem_iff.mpr hn)⟩

/-! ## Size and walk -/

/-- The size counts the contents. -/
theorem hmSize_eq {m : HMap α} (hwf : m.Wf) : hmSize m = m.nodes.length := by
  rw [hmSize, HMap.nodes, List.length_append, hwf.newer.size, hwf.older.size]

/-- The walk visits the contents in order. -/
theorem hmForeach_eq {f : α → σ → Bool × σ} (step : σ → α → σ)
    (hf : ∀ a s, f a s = (true, step s a)) {m : HMap α} (hwf : m.Wf) (s : σ) :
    hmForeach m f s = .ok (m.nodes.foldl (fun s n => step s n.payload) s) := by
  simp only [hmForeach, hForeach_eq hf hwf.newer, hForeach_eq hf hwf.older, ok_bind, HMap.nodes,
    List.foldl_append]

end RedisServer
