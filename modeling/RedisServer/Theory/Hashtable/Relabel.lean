import RedisServer.Theory.Hashtable.Map
import Mathlib.Data.List.InsertIdx

/-!
# Relabelling a Map

The map never looks into a payload except through the callback of a lookup. So
every operation commutes with a change of payloads that the callbacks respect,
and the layout of a table is a function of the hash codes and of the
operations alone. The records a node leads to are stored at addresses, and an
address is exactly such a payload.

## Main definitions

* `HNode.map`, `HTab.map`, `HMap.map`: Other payloads in the same places.

## Theorems

* `hmLookup_map`, `hmInsert_map`, `hmDelete_map`: The operations commute with
  a relabelling.
* `HMap.map_congr`: Only the payloads a map holds matter.
-/

namespace RedisServer

variable {α β : Type}

/-- A node with another payload. -/
def HNode.map (f : α → β) (n : HNode α) : HNode β := { hcode := n.hcode, payload := f n.payload }

/-- A table with other payloads. -/
def HTab.map (f : α → β) (t : HTab α) : HTab β :=
  { tab := t.tab.map (List.map (HNode.map f)), mask := t.mask, size := t.size }

/-- A map with other payloads. -/
def HMap.map (f : α → β) (m : HMap α) : HMap β :=
  { newer := m.newer.map f, older := m.older.map f, migratePos := m.migratePos }

@[simp] theorem HNode.map_hcode (f : α → β) (n : HNode α) : (n.map f).hcode = n.hcode := rfl

@[simp] theorem HTab.map_mask (f : α → β) (t : HTab α) : (t.map f).mask = t.mask := rfl

@[simp] theorem HTab.map_size (f : α → β) (t : HTab α) : (t.map f).size = t.size := rfl

@[simp] theorem HTab.map_empty (f : α → β) : ({} : HTab α).map f = {} := rfl

@[simp] theorem HMap.map_newer (f : α → β) (m : HMap α) : (m.map f).newer = m.newer.map f := rfl

@[simp] theorem HMap.map_older (f : α → β) (m : HMap α) : (m.map f).older = m.older.map f := rfl

@[simp] theorem HMap.map_migratePos (f : α → β) (m : HMap α) :
    (m.map f).migratePos = m.migratePos := rfl

@[simp] theorem HTab.isEmpty_map (f : α → β) (t : HTab α) :
    (t.map f).tab.isEmpty = t.tab.isEmpty := by
  rw [HTab.map, List.isEmpty_map]

theorem HTab.getElem?_map (f : α → β) (t : HTab α) (i : Nat) :
    (t.map f).tab[i]? = t.tab[i]?.map (List.map (HNode.map f)) := by
  rw [HTab.map, List.getElem?_map]

theorem HTab.nodes_map (f : α → β) (t : HTab α) :
    (t.map f).nodes = t.nodes.map (HNode.map f) := by
  rw [HTab.nodes, HTab.nodes, HTab.map, List.map_flatten]

theorem HMap.nodes_map (f : α → β) (m : HMap α) :
    (m.map f).nodes = m.nodes.map (HNode.map f) := by
  rw [HMap.nodes, HMap.nodes, List.map_append, HMap.map_newer, HMap.map_older, HTab.nodes_map,
    HTab.nodes_map]

/-- Only the payloads a table holds matter. -/
theorem HTab.map_congr {f f' : α → β} {t : HTab α}
    (h : ∀ n ∈ t.nodes, f n.payload = f' n.payload) : t.map f = t.map f' := by
  have hchains : t.tab.map (List.map (HNode.map f)) = t.tab.map (List.map (HNode.map f')) := by
    refine List.map_congr_left fun chain hc => List.map_congr_left fun n hn => ?_
    rw [HNode.map, HNode.map, h n (List.mem_flatten.mpr ⟨chain, hc, hn⟩)]
  rw [HTab.map, HTab.map, hchains]

theorem HMap.map_congr {f f' : α → β} {m : HMap α}
    (h : ∀ n ∈ m.nodes, f n.payload = f' n.payload) : m.map f = m.map f' := by
  rw [HMap.map, HMap.map, HTab.map_congr fun n hn => h n (HMap.mem_nodes.mpr (Or.inl hn)),
    HTab.map_congr fun n hn => h n (HMap.mem_nodes.mpr (Or.inr hn))]

/-! ## One table -/

theorem hInit_map (f : α → β) (n : Nat) :
    (hInit n : Result (HTab β)) = (hInit n : Result (HTab α)).map (HTab.map f) := by
  rw [hInit, hInit]
  split
  · simp only [Except.map, HTab.map, List.map_replicate, List.map_nil]
  · rfl

theorem hInsert_map (f : α → β) (t : HTab α) (n : HNode α) :
    hInsert (t.map f) (n.map f) = (hInsert t n).map (HTab.map f) := by
  simp only [hInsert, HNode.map_hcode, HTab.map_mask, HTab.getElem?_map]
  cases t.tab[n.hcode &&& t.mask]? with
  | none => rfl
  | some next => simp only [Option.map_some, Except.map, HTab.map, List.map_set, List.map_cons]

theorem hDetach_map (f : α → β) (t : HTab α) (link : Link) :
    hDetach (t.map f) link = (hDetach t link).map fun x => (x.1.map f, x.2.map f) := by
  simp only [hDetach, HTab.getElem?_map]
  cases t.tab[link.slot]? with
  | none => rfl
  | some chain =>
      simp only [Option.map_some, List.getElem?_map]
      cases chain[link.depth]? with
      | none => rfl
      | some n => simp only [Option.map_some, Except.map, HTab.map, List.map_set, List.eraseIdx_map]

theorem hDeref_map (f : α → β) (t : HTab α) (link : Link) :
    hDeref (t.map f) link = (hDeref t link).map (HNode.map f) := by
  simp only [hDeref, HTab.getElem?_map]
  cases t.tab[link.slot]? with
  | none => rfl
  | some chain =>
      simp only [Option.map_some, List.getElem?_map]
      cases chain[link.depth]? with
      | none => rfl
      | some n => rfl

/-- The callbacks of two lookups agree on the payloads a lookup may show
    them. -/
def Respects (f : α → β) (hcode : Nat) (eq : α → Result Bool) (eq' : β → Result Bool)
    (l : List (HNode α)) : Prop :=
  ∀ n ∈ l, n.hcode = hcode → eq' (f n.payload) = eq n.payload

section

variable {f : α → β} {hcode : Nat} {eq : α → Result Bool} {eq' : β → Result Bool}

theorem chainFind_map {chain : List (HNode α)} (h : Respects f hcode eq eq' chain) :
    chainFind hcode eq' (chain.map (HNode.map f)) = chainFind hcode eq chain := by
  induction chain with
  | nil => rfl
  | cons n chain ih =>
      have hrest := ih fun m hm => h m (List.mem_cons_of_mem _ hm)
      have hhere : (if (n.map f).hcode = hcode then eq' (n.map f).payload else .ok false) =
          if n.hcode = hcode then eq n.payload else .ok false := by
        rw [HNode.map_hcode]
        by_cases hc : n.hcode = hcode
        · rw [if_pos hc, if_pos hc]
          exact h n List.mem_cons_self hc
        · rw [if_neg hc, if_neg hc]
      rw [List.map_cons, chainFind, chainFind, hhere, hrest]

theorem hLookup_map {t : HTab α} (h : Respects f hcode eq eq' t.nodes) :
    hLookup (t.map f) hcode eq' = hLookup t hcode eq := by
  simp only [hLookup, HTab.isEmpty_map, HTab.map_mask, HTab.getElem?_map]
  cases hslot : t.tab[hcode &&& t.mask]? with
  | none => rfl
  | some chain =>
      simp only [Option.map_some]
      rw [chainFind_map fun n hn => h n (HTab.mem_nodes_of_slot hslot hn)]

end

/-! ## The map -/

theorem helpRehashingLoop_map (f : α → β) (fuel : Nat) : ∀ (nwork : Nat) (m : HMap α),
    helpRehashingLoop fuel nwork (m.map f) =
      (helpRehashingLoop fuel nwork m).map (HMap.map f) := by
  induction fuel with
  | zero => intro nwork m; rfl
  | succ fuel ih =>
      intro nwork m
      simp only [helpRehashingLoop, HMap.map_older, HTab.map_size, HMap.map_migratePos,
        HTab.getElem?_map, HMap.map_newer]
      -- relabelling keeps the sizes and the slots, so both sides take the same branch
      by_cases hwork : nwork < kRehasingWork ∧ 0 < m.older.size
      · rw [if_pos hwork, if_pos hwork]
        cases hslot : m.older.tab[m.migratePos]? with
        | none => rfl
        | some chain =>
            cases chain with
            | nil => exact ih nwork { m with migratePos := m.migratePos + 1 }
            | cons n chain =>
                simp only [Option.map_some, List.map_cons, hDetach_map]
                cases hdet : hDetach m.older ⟨m.migratePos, 0⟩ with
                | error e => rfl
                | ok x =>
                    simp only [Except.map, ok_bind, hInsert_map]
                    cases hins : hInsert m.newer x.1 with
                    | error e => rfl
                    | ok t =>
                        simp only [ok_bind]
                        exact ih (nwork + 1) { m with newer := t, older := x.2 }
      · rw [if_neg hwork, if_neg hwork]
        rfl

theorem hmHelpRehashing_map (f : α → β) (m : HMap α) :
    hmHelpRehashing (m.map f) = (hmHelpRehashing m).map (HMap.map f) := by
  have hlen : (m.map f).older.tab.length = m.older.tab.length := by
    rw [HMap.map_older, HTab.map, List.length_map]
  simp only [hmHelpRehashing, hlen, helpRehashingLoop_map]
  cases helpRehashingLoop (kRehasingWork + m.older.tab.length + 1) 0 m with
  | error e => rfl
  | ok m' =>
      simp only [Except.map, ok_bind, HMap.map_older, HTab.map_size, HTab.isEmpty_map]
      split
      · rfl
      · rfl

theorem hmTriggerRehashing_map (f : α → β) (m : HMap α) :
    hmTriggerRehashing (m.map f) = (hmTriggerRehashing m).map (HMap.map f) := by
  simp only [hmTriggerRehashing, HMap.map_older, HTab.isEmpty_map, HMap.map_newer, HTab.map_mask,
    hInit_map f]
  split
  · cases (hInit ((m.newer.mask + 1) * 2) : Result (HTab α)) with
    | error e => rfl
    | ok t => rfl
  · rfl

theorem hmInsert_map (f : α → β) (m : HMap α) (n : HNode α) :
    hmInsert (m.map f) (n.map f) = (hmInsert m n).map (HMap.map f) := by
  have hinit : (if (m.map f).newer.tab.isEmpty = true then hInit 4 else .ok (m.map f).newer) =
      (if m.newer.tab.isEmpty = true then hInit 4 else .ok m.newer : Result (HTab α)).map
        (HTab.map f) := by
    rw [HMap.map_newer, HTab.isEmpty_map]
    split
    · exact hInit_map f 4
    · rfl
  simp only [hmInsert, hinit]
  cases (if m.newer.tab.isEmpty = true then hInit 4 else .ok m.newer : Result (HTab α)) with
  | error e => rfl
  | ok t =>
      simp only [Except.map, ok_bind, hInsert_map]
      cases hInsert t n with
      | error e => rfl
      | ok t' =>
          simp only [ok_bind]
          -- the load is the same on both sides, so both resize or neither does
          have htrig : (if (m.map f).older.tab.isEmpty = true ∧
                ((t'.map f).mask + 1) * kMaxLoadFactor ≤ (t'.map f).size then
              hmTriggerRehashing { m.map f with newer := t'.map f }
            else .ok { m.map f with newer := t'.map f }) =
              (if m.older.tab.isEmpty = true ∧ (t'.mask + 1) * kMaxLoadFactor ≤ t'.size then
                hmTriggerRehashing { m with newer := t' }
              else .ok { m with newer := t' } : Result (HMap α)).map (HMap.map f) := by
            rw [HMap.map_older, HTab.isEmpty_map, HTab.map_mask, HTab.map_size]
            split
            · exact hmTriggerRehashing_map f { m with newer := t' }
            · rfl
          rw [htrig]
          cases (if m.older.tab.isEmpty = true ∧ (t'.mask + 1) * kMaxLoadFactor ≤ t'.size then
                hmTriggerRehashing { m with newer := t' }
              else .ok { m with newer := t' } : Result (HMap α)) with
          | error e => rfl
          | ok m' => exact hmHelpRehashing_map f m'

section

variable {f : α → β} {hcode : Nat} {eq : α → Result Bool} {eq' : β → Result Bool}

/-- What a lookup or a deletion returns, relabelled. -/
def mapFound (f : α → β) (x : HMap α × Option (HNode α)) : HMap β × Option (HNode β) :=
  (x.1.map f, x.2.map (HNode.map f))

/-- The callbacks still agree on the contents after a migration step. -/
theorem respects_helped {m m' : HMap α} (hp : m'.nodes.Perm m.nodes)
    (h : Respects f hcode eq eq' m.nodes) :
    Respects f hcode eq eq' m'.newer.nodes ∧ Respects f hcode eq eq' m'.older.nodes :=
  ⟨fun n hn => h n (hp.mem_iff.mp (HMap.mem_nodes.mpr (Or.inl hn))),
    fun n hn => h n (hp.mem_iff.mp (HMap.mem_nodes.mpr (Or.inr hn)))⟩

theorem hmLookup_map {m : HMap α} (hwf : m.Wf) (h : Respects f hcode eq eq' m.nodes) :
    hmLookup (m.map f) hcode eq' = (hmLookup m hcode eq).map (mapFound f) := by
  rcases hmHelpRehashing_spec hwf with ⟨m', hhelp, _, hp, _⟩
  -- after the help both tables still hold nodes the two tests agree on
  rcases respects_helped hp h with ⟨hnewer, holder⟩
  simp only [hmLookup, hmHelpRehashing_map, hhelp, Except.map, ok_bind, HMap.map_newer,
    HMap.map_older, hLookup_map hnewer, hLookup_map holder, hDeref_map]
  cases hLookup m'.newer hcode eq with
  | error e => rfl
  | ok r =>
      cases r with
      | some link =>
          simp only [ok_bind]
          cases hDeref m'.newer link with
          | error e => rfl
          | ok n => rfl
      | none =>
          simp only [ok_bind]
          cases hLookup m'.older hcode eq with
          | error e => rfl
          | ok r =>
              cases r with
              | none => rfl
              | some link =>
                  simp only [ok_bind]
                  cases hDeref m'.older link with
                  | error e => rfl
                  | ok n => rfl

theorem hmDelete_map {m : HMap α} (hwf : m.Wf) (h : Respects f hcode eq eq' m.nodes) :
    hmDelete (m.map f) hcode eq' = (hmDelete m hcode eq).map (mapFound f) := by
  rcases hmHelpRehashing_spec hwf with ⟨m', hhelp, _, hp, _⟩
  -- after the help both tables still hold nodes the two tests agree on
  rcases respects_helped hp h with ⟨hnewer, holder⟩
  simp only [hmDelete, hmHelpRehashing_map, hhelp, Except.map, ok_bind, HMap.map_newer,
    HMap.map_older, hLookup_map hnewer, hLookup_map holder, hDetach_map]
  cases hLookup m'.newer hcode eq with
  | error e => rfl
  | ok r =>
      cases r with
      | some link =>
          simp only [ok_bind]
          cases hDetach m'.newer link with
          | error e => rfl
          | ok x => rfl
      | none =>
          simp only [ok_bind]
          cases hLookup m'.older hcode eq with
          | error e => rfl
          | ok r =>
              cases r with
              | none => rfl
              | some link =>
                  simp only [ok_bind]
                  cases hDetach m'.older link with
                  | error e => rfl
                  | ok x => rfl

end

end RedisServer
