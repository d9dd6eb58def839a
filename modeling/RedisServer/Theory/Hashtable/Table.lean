import RedisServer.Core.Hashtable
import RedisServer.Lib.Slots
import Mathlib.Data.Nat.Bitwise

/-!
# One Table

What a single table holds and what its four operations do to it. `HTab.Wf`
is the invariant: a power-of-two array whose mask matches, every node in the
slot of its hash code, and a size that counts the nodes. The slot of a node
is a function of its hash code and the mask alone, so a lookup that inspects
one chain has seen every node it could have matched.

A lookup's callback may fault. The specifications ask only that it does not
fault on the nodes of the table that share the key's hash code, and that it
agrees there with a predicate; a lookup calls it on no other node.

## Main definitions

* `HTab.nodes`: Everything a table holds, in the order of the slots.
* `HTab.Wf`: The invariant of a table.
* `HTab.push`: The table after an insertion.
* `Hit`: A node answers a key.

## Theorems

* `hInit_wf`: A new table is well formed and empty.
* `hInsert_eq`: An insertion never faults and pushes the node.
* `hLookup_spec`: A lookup finds a node that answers the key, or there is
  none.
* `hDetach_spec`: Detaching a found node removes exactly that node.
* `hForeach_eq`: The walk with a callback that never stops is a fold.
-/

namespace RedisServer

open Lib

variable {α σ : Type}

namespace HTab

/-- Everything the table holds, slot by slot. -/
def nodes (t : HTab α) : List (HNode α) := t.tab.flatten

/-- The table is `NULL`, or its array has a power-of-two length of at least
    four and its mask selects a slot. Every node sits in the slot of its hash
    code, and the size is exact. -/
structure Wf (t : HTab α) : Prop where
  shape : (t.tab = [] ∧ t.mask = 0) ∨ ∃ k, 2 ≤ k ∧ t.tab.length = 2 ^ k ∧ t.mask = 2 ^ k - 1
  slots : ∀ (i : Nat) (chain : List (HNode α)), t.tab[i]? = some chain →
    ∀ n ∈ chain, n.hcode &&& t.mask = i
  size : t.size = t.nodes.length

theorem wf_null : (({} : HTab α)).Wf where
  shape := Or.inl ⟨rfl, rfl⟩
  slots := by
    intro i chain h
    simp only [List.getElem?_nil, reduceCtorEq] at h
  size := rfl

/-- An allocated table has a slot for every hash code. -/
theorem Wf.slot_lt {t : HTab α} (hwf : t.Wf) (hne : t.tab ≠ []) (hcode : Nat) :
    hcode &&& t.mask < t.tab.length := by
  rcases hwf.shape with ⟨hnil, _⟩ | ⟨k, _, hlen, hmask⟩
  · exact absurd hnil hne
  · rw [hmask, hlen, Nat.and_two_pow_sub_one_eq_mod]
    exact Nat.mod_lt _ (Nat.two_pow_pos k)

theorem Wf.length_eq {t : HTab α} (hwf : t.Wf) (hne : t.tab ≠ []) :
    t.tab.length = t.mask + 1 := by
  rcases hwf.shape with ⟨hnil, _⟩ | ⟨k, _, hlen, hmask⟩
  · exact absurd hnil hne
  · have := Nat.two_pow_pos k
    omega

theorem Wf.mask_ne_zero {t : HTab α} (hwf : t.Wf) (hne : t.tab ≠ []) : t.mask ≠ 0 := by
  rcases hwf.shape with ⟨hnil, _⟩ | ⟨k, hk, _, hmask⟩
  · exact absurd hnil hne
  · have : 2 ^ 2 ≤ 2 ^ k := Nat.pow_le_pow_right (by decide) hk
    omega

/-- A node of the table stands in the chain of its own slot. -/
theorem Wf.mem_slot {t : HTab α} (hwf : t.Wf) {n : HNode α} (hn : n ∈ t.nodes) :
    ∃ chain, t.tab[n.hcode &&& t.mask]? = some chain ∧ n ∈ chain := by
  rcases List.mem_flatten.mp hn with ⟨chain, hc, hnc⟩
  rcases List.getElem_of_mem hc with ⟨i, hi, hic⟩
  have hget : t.tab[i]? = some chain := by rw [List.getElem?_eq_getElem hi, hic]
  refine ⟨chain, ?_, hnc⟩
  rw [hwf.slots i chain hget n hnc]
  exact hget

theorem mem_nodes_of_slot {t : HTab α} {i : Nat} {chain : List (HNode α)}
    (h : t.tab[i]? = some chain) {n : HNode α} (hn : n ∈ chain) : n ∈ t.nodes :=
  List.mem_flatten.mpr ⟨chain, List.mem_of_getElem? h, hn⟩

/-- The table with a node pushed on the chain of its slot. -/
def push (t : HTab α) (n : HNode α) : HTab α :=
  { t with
    tab := t.tab.set (n.hcode &&& t.mask) (n :: (t.tab[n.hcode &&& t.mask]?).getD [])
    size := t.size + 1 }

@[simp] theorem push_mask (t : HTab α) (n : HNode α) : (t.push n).mask = t.mask := rfl

@[simp] theorem push_size (t : HTab α) (n : HNode α) : (t.push n).size = t.size + 1 := rfl

@[simp] theorem length_push_tab (t : HTab α) (n : HNode α) :
    (t.push n).tab.length = t.tab.length := by
  simp only [push, List.length_set]

theorem push_tab_ne_nil {t : HTab α} (hne : t.tab ≠ []) (n : HNode α) : (t.push n).tab ≠ [] := by
  intro h
  have hlen := length_push_tab t n
  rw [h, List.length_nil] at hlen
  exact hne (List.length_eq_zero_iff.mp hlen.symm)

theorem Wf.nodes_push {t : HTab α} (hwf : t.Wf) (hne : t.tab ≠ []) (n : HNode α) :
    (t.push n).nodes.Perm (n :: t.nodes) := by
  have hslot := hwf.slot_lt hne n.hcode
  have hget := List.getElem?_eq_getElem hslot
  simp only [nodes, push, hget, Option.getD_some]
  exact perm_flatten_set_cons hget n

theorem Wf.push {t : HTab α} (hwf : t.Wf) (hne : t.tab ≠ []) (n : HNode α) : (t.push n).Wf where
  shape := by
    rcases hwf.shape with ⟨hnil, _⟩ | ⟨k, hk, hlen, hmask⟩
    · exact absurd hnil hne
    · exact Or.inr ⟨k, hk, by rw [length_push_tab, hlen], hmask⟩
  slots := by
    intro i chain hi m hm
    simp only [HTab.push, List.getElem?_set] at hi
    split at hi
    · rename_i hpos
      rw [if_pos (hwf.slot_lt hne n.hcode), Option.some.injEq] at hi
      rw [← hi] at hm
      rcases List.mem_cons.mp hm with rfl | hm
      · exact hpos
      · rw [← hpos]
        have hget := List.getElem?_eq_getElem (hwf.slot_lt hne n.hcode)
        rw [hget, Option.getD_some] at hm
        exact hwf.slots _ _ hget m hm
    · exact hwf.slots i chain hi m hm
  size := by
    rw [push_size, (hwf.nodes_push hne n).length_eq, List.length_cons, hwf.size]

end HTab

/-! ## Creation and insertion -/

theorem hInit_eq (k : Nat) : (hInit (2 ^ k) : Result (HTab α)) =
    .ok { tab := List.replicate (2 ^ k) [], mask := 2 ^ k - 1, size := 0 } := by
  have hand : (2 ^ k - 1) &&& 2 ^ k = 0 := by
    rw [Nat.and_comm, Nat.and_two_pow_sub_one_eq_mod, Nat.mod_self]
  rw [hInit, if_pos ⟨Nat.two_pow_pos k, hand⟩]

theorem hInit_wf (k : Nat) (hk : 2 ≤ k) :
    (HTab.mk (List.replicate (2 ^ k) []) (2 ^ k - 1) 0 : HTab α).Wf where
  shape := Or.inr ⟨k, hk, List.length_replicate, rfl⟩
  slots := by
    intro i chain h
    rw [List.getElem?_replicate] at h
    split at h
    · rw [Option.some.injEq] at h
      rw [← h]
      intro n hn
      exact absurd hn List.not_mem_nil
    · cases h
  size := by
    simp only [HTab.nodes, List.flatten_replicate_nil, List.length_nil]

theorem hInsert_eq {t : HTab α} (hwf : t.Wf) (hne : t.tab ≠ []) (n : HNode α) :
    hInsert t n = .ok (t.push n) := by
  have hget := List.getElem?_eq_getElem (hwf.slot_lt hne n.hcode)
  simp only [hInsert, HTab.push, hget, Option.getD_some]

/-! ## Lookup -/

/-- A node answers a key: same hash code, and the callback says so. -/
def Hit (hcode : Nat) (p : α → Bool) (n : HNode α) : Prop := n.hcode = hcode ∧ p n.payload = true

instance (hcode : Nat) (p : α → Bool) (n : HNode α) : Decidable (Hit hcode p n) :=
  inferInstanceAs (Decidable (_ ∧ _))

/-- The callback does not fault on the nodes a lookup may show it, and agrees
    there with a predicate. -/
def Answers (eq : α → Result Bool) (p : α → Bool) (hcode : Nat) (l : List (HNode α)) : Prop :=
  ∀ n ∈ l, n.hcode = hcode → eq n.payload = .ok (p n.payload)

theorem Answers.mono {eq : α → Result Bool} {p : α → Bool} {hcode : Nat} {l : List (HNode α)}
    (l' : List (HNode α)) (h : Answers eq p hcode l) (hsub : ∀ n ∈ l', n ∈ l) : Answers eq p hcode l' :=
  fun n hn hc => h n (hsub n hn) hc

theorem chainFind_eq {eq : α → Result Bool} {p : α → Bool} {hcode : Nat} :
    ∀ {chain : List (HNode α)}, Answers eq p hcode chain →
      chainFind hcode eq chain = .ok (chain.findIdx? fun n => decide (Hit hcode p n)) := by
  intro chain
  induction chain with
  | nil => intro _; rfl
  | cons cur next ih =>
      intro h
      have hnext := ih (h.mono next fun n hn => List.mem_cons_of_mem _ hn)
      by_cases hc : cur.hcode = hcode
      · by_cases hp : p cur.payload = true
        · have hhit : decide (Hit hcode p cur) = true := decide_eq_true ⟨hc, hp⟩
          simp only [chainFind, if_pos hc, h cur List.mem_cons_self hc, hp, ok_bind, if_true,
            List.findIdx?_cons, hhit]
        · have hhit : decide (Hit hcode p cur) = false := decide_eq_false fun hh => hp hh.2
          rw [Bool.not_eq_true] at hp
          simp only [chainFind, if_pos hc, h cur List.mem_cons_self hc, hp, ok_bind,
            Bool.false_eq_true, if_false, hnext, List.findIdx?_cons, hhit]
      · have hhit : decide (Hit hcode p cur) = false := decide_eq_false fun hh => hc hh.1
        simp only [chainFind, if_neg hc, ok_bind, Bool.false_eq_true, if_false, hnext,
          List.findIdx?_cons, hhit]

/-- A lookup finds the owning pointer of a node that answers the key, or no
    node of the table does. -/
theorem hLookup_spec {t : HTab α} (hwf : t.Wf) {eq : α → Result Bool} {p : α → Bool} {hcode : Nat}
    (hp : Answers eq p hcode t.nodes) :
    (hLookup t hcode eq = .ok none ∧ ∀ n ∈ t.nodes, ¬ Hit hcode p n) ∨
    ∃ link n chain, hLookup t hcode eq = .ok (some link) ∧ t.tab[link.slot]? = some chain ∧
      chain[link.depth]? = some n ∧ Hit hcode p n := by
  by_cases hnil : t.tab = []
  · refine Or.inl ⟨by rw [hLookup, hnil]; rfl, fun n hn => ?_⟩
    rw [HTab.nodes, hnil] at hn
    exact absurd hn List.not_mem_nil
  · obtain ⟨chain, hget⟩ : ∃ chain, t.tab[hcode &&& t.mask]? = some chain :=
      ⟨_, List.getElem?_eq_getElem (hwf.slot_lt hnil hcode)⟩
    have hans : Answers eq p hcode chain :=
      hp.mono chain fun n hn => HTab.mem_nodes_of_slot hget hn
    -- the walk of the chain is the search for the first node that answers
    have hrun : hLookup t hcode eq =
        .ok ((chain.findIdx? fun n => decide (Hit hcode p n)).map (Link.mk (hcode &&& t.mask))) := by
      have hemp : t.tab.isEmpty = false := by
        cases htab : t.tab with
        | nil => exact absurd htab hnil
        | cons a b => rfl
      simp only [hLookup, hemp, Bool.false_eq_true, if_false, hget, chainFind_eq hans, ok_bind]
    cases hfind : chain.findIdx? fun n => decide (Hit hcode p n) with
    | none =>
        refine Or.inl ⟨by rw [hrun, hfind]; rfl, fun n hn hhit => ?_⟩
        -- A node that answers the key shares its hash code, hence its slot.
        rcases hwf.mem_slot hn with ⟨chain', hget', hn'⟩
        rw [hhit.1, hget, Option.some.injEq] at hget'
        rw [← hget'] at hn'
        have := List.findIdx?_eq_none_iff.mp hfind n hn'
        rw [decide_eq_false_iff_not] at this
        exact this hhit
    | some d =>
        rcases List.findIdx?_eq_some_iff_getElem.mp hfind with ⟨hd, hhit, _⟩
        exact Or.inr ⟨⟨hcode &&& t.mask, d⟩, chain[d], chain, by rw [hrun, hfind]; rfl, hget,
          List.getElem?_eq_getElem hd, of_decide_eq_true hhit⟩

theorem hDeref_eq {t : HTab α} {link : Link} {chain : List (HNode α)} {n : HNode α}
    (hs : t.tab[link.slot]? = some chain) (hd : chain[link.depth]? = some n) :
    hDeref t link = .ok n := by
  simp only [hDeref, hs, hd]

/-! ## Removal -/

/-- Detaching the node a link points to removes it and keeps the invariant. -/
theorem hDetach_spec {t : HTab α} (hwf : t.Wf) (link : Link) {chain : List (HNode α)} {n : HNode α}
    (hs : t.tab[link.slot]? = some chain) (hd : chain[link.depth]? = some n) :
    ∃ t', hDetach t link = .ok (n, t') ∧ t'.Wf ∧ t.nodes.Perm (n :: t'.nodes) ∧
      t'.mask = t.mask ∧ t'.tab = t.tab.set link.slot (chain.eraseIdx link.depth) ∧
      t'.size + 1 = t.size := by
  -- one node less in the one slot, every other slot as it was
  have hperm := flatten_set_eraseIdx_perm hs hd
  refine ⟨{ t with tab := t.tab.set link.slot (chain.eraseIdx link.depth), size := t.size - 1 },
    by simp only [hDetach, hs, hd], ?_, hperm, rfl, rfl, ?_⟩
  · constructor
    · rcases hwf.shape with ⟨hnil, _⟩ | ⟨k, hk, hlen, hmask⟩
      · rw [hnil, List.getElem?_nil] at hs
        cases hs
      · exact Or.inr ⟨k, hk, by rw [List.length_set, hlen], hmask⟩
    · intro i c hi m hm
      simp only [List.getElem?_set] at hi
      split at hi
      · rename_i hpos
        rw [if_pos (lt_length_of_getElem? hs), Option.some.injEq] at hi
        rw [← hi] at hm
        rw [← hpos]
        exact hwf.slots _ _ hs m (List.mem_of_mem_eraseIdx hm)
      · exact hwf.slots i c hi m hm
    · have hlen := hperm.length_eq
      rw [List.length_cons] at hlen
      simp only [HTab.nodes]
      rw [hwf.size, HTab.nodes, hlen, Nat.add_sub_cancel]
  · have hlen := hperm.length_eq
    rw [List.length_cons] at hlen
    simp only [hwf.size, HTab.nodes]
    omega

/-! ## The walk -/

/-- A callback that never stops the walk, as a fold step. -/
theorem chainForeach_eq {f : α → σ → Bool × σ} {step : σ → α → σ}
    (hf : ∀ a s, f a s = (true, step s a)) :
    ∀ (chain : List (HNode α)) (s : σ),
      chainForeach f chain s = (true, chain.foldl (fun s n => step s n.payload) s) := by
  intro chain
  induction chain with
  | nil => intro s; rfl
  | cons n next ih =>
      intro s
      simp only [chainForeach, hf, List.foldl_cons]
      exact ih _

theorem slotForeach_eq {f : α → σ → Bool × σ} {step : σ → α → σ}
    (hf : ∀ a s, f a s = (true, step s a)) (t : HTab α) :
    ∀ (n i : Nat) (s : σ), i + n = t.tab.length →
      slotForeach t f n i s =
        .ok (true, (t.tab.drop i).flatten.foldl (fun s n => step s n.payload) s) := by
  intro n
  induction n with
  | zero =>
      intro i s hi
      rw [List.drop_eq_nil_of_le (by omega)]
      rfl
  | succ n ih =>
      intro i s hi
      have hlt : i < t.tab.length := by omega
      rw [List.drop_eq_getElem_cons hlt, List.flatten_cons, List.foldl_append]
      simp only [slotForeach, List.getElem?_eq_getElem hlt, chainForeach_eq hf]
      exact ih (i + 1) _ (by omega)

/-- The walk over a table visits its nodes in order. -/
theorem hForeach_eq {f : α → σ → Bool × σ} {step : σ → α → σ}
    (hf : ∀ a s, f a s = (true, step s a)) {t : HTab α} (hwf : t.Wf) (s : σ) :
    hForeach t f s = .ok (true, t.nodes.foldl (fun s n => step s n.payload) s) := by
  by_cases hnil : t.tab = []
  · have hmask : t.mask = 0 := by
      rcases hwf.shape with ⟨_, hmask⟩ | ⟨k, _, hlen, _⟩
      · exact hmask
      · rw [hnil, List.length_nil] at hlen
        have := Nat.two_pow_pos k
        omega
    rw [hForeach, if_neg (not_not.mpr hmask), HTab.nodes, hnil]
    rfl
  · rw [hForeach, if_pos (hwf.mask_ne_zero hnil), slotForeach_eq hf t _ 0 s
      (by rw [hwf.length_eq hnil, Nat.zero_add])]
    rfl

end RedisServer
