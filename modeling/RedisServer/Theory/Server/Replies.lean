import RedisServer.Theory.Protocol.Value
import RedisServer.Theory.Server.SetCommands

/-!
# The Reply to Every Command

A command on a state whose sorted sets are well-formed returns, and appends one
value to the output. A command that replies an error, or only reads, leaves
the keyspace as it was, up to the layout of hashtables.

## Main definitions

* `ReadOnly`, `Value.IsErr`: The commands and replies that change nothing.
* `Keyspace.Relaid`: Hashtables of sorted sets changed their layout.
* `Replied`: What a command does.

## Theorems

* `doRequest_replied`: Every command.
-/

namespace RedisServer

open Lib BinaryTree ZSet

/-- The commands that only read. -/
def ReadOnly (cmd : List Bytes) : Prop :=
  isCmd cmd 2 "get" = true ∨ isCmd cmd 2 "pttl" = true ∨ isCmd cmd 1 "keys" = true ∨
    isCmd cmd 3 "zscore" = true ∨ isCmd cmd 6 "zquery" = true

/-- The commands that reply with a list of any length. -/
def RepliesList (cmd : List Bytes) : Prop := isCmd cmd 1 "keys" = true ∨ isCmd cmd 6 "zquery" = true

/-- The value is an error. -/
def Value.IsErr (v : Value) : Prop := ∃ code msg, v = .scalar (.err code msg)

/-- Nothing changed but the layout of the hashtables of sorted sets. -/
def Keyspace.Relaid (K K' : Keyspace) : Prop :=
  ∀ c k, K' c k = K c k ∨ ∃ x d m, K c k = some (x, d) ∧
    K' c k = some ({ x with zset := { x.zset with hmap := m } }, d)

/-- What a command does: it appends the value `v`, keeps the invariant, and
    leaves the keyspace `K'`. -/
structure Replied (R : Runtime) (g : GData) (cmd : List Bytes) (K : Keyspace) (P : Nat → Prop)
    (g' : GData) (v : Value) (K' : Keyspace) : Prop where
  moved : Moved R g g' K K' P
  quiet : v.IsErr ∨ ReadOnly cmd → K.Relaid K'
  small : RepliesList cmd ∨ v.encode.length ≤ 64 ∨
    (isCmd cmd 2 "get" = true ∧ ∃ e x, g.entries e = some x ∧ v = .scalar (.str x.str))

section

variable {R : Runtime} {Q : Bytes → Prop} {g g' : GData} {K K' : Keyspace} {P : Nat → Prop}

theorem Keyspace.Relaid.refl (K : Keyspace) : K.Relaid K := fun _ _ => Or.inl rfl

/-- Another layout of the set of a key. -/
theorem relaid_putSet {c : Nat} {k : Bytes} {z : ZSet} (hz : setAt (K c k) = some z) (m : HMap Nat) :
    K.Relaid (K.putSet c k { z with hmap := m }) := by
  intro c' k'
  by_cases hck : c' = c ∧ k' = k
  · rw [hck.1, hck.2, Keyspace.putSet, Keyspace.set_same]
    cases hv : K c k with
    | none => exact Or.inl rfl
    | some v =>
        rcases v with ⟨x, d⟩
        rw [hv, setAt] at hz
        by_cases ht : x.type = .zset
        · rw [if_pos ht, Option.some.injEq] at hz
          refine Or.inr ⟨x, d, m, rfl, ?_⟩
          rw [Option.map_some, hz]
        · rw [if_neg ht] at hz
          cases hz
  · rw [Keyspace.putSet, Keyspace.set_other K _ hck]
    exact Or.inl rfl

/-- A command that keeps the keyspace. -/
theorem Replied.same {cmd : List Bytes} {v : Value} (h : Moved R g g' K K P)
    (hsmall : RepliesList cmd ∨ v.encode.length ≤ 64 ∨
      (isCmd cmd 2 "get" = true ∧ ∃ e x, g.entries e = some x ∧ v = .scalar (.str x.str))) :
    Replied R g cmd K P g' v K := ⟨h, fun _ => Keyspace.Relaid.refl K, hsmall⟩

/-- A command that changes a key and replies no error. -/
theorem Replied.change {cmd : List Bytes} {v : Value} {name : String} {n : Nat}
    (h : Moved R g g' K K' P) (hcmd : isCmd cmd n name = true)
    (hname : ∀ name' ∈ ["get", "pttl", "keys", "zscore", "zquery"], ascii name ≠ ascii name')
    (hv : ¬ v.IsErr) (hsmall : v.encode.length ≤ 64) : Replied R g cmd K P g' v K' := by
  refine ⟨h, fun hquiet => ?_, Or.inr (Or.inl hsmall)⟩
  rcases hquiet with herr | hget | httl | hkeys | hscore | hquery
  · exact absurd herr hv
  · exact absurd hget (isCmd_other hcmd _ _ (hname _ (by decide)))
  · exact absurd httl (isCmd_other hcmd _ _ (hname _ (by decide)))
  · exact absurd hkeys (isCmd_other hcmd _ _ (hname _ (by decide)))
  · exact absurd hscore (isCmd_other hcmd _ _ (hname _ (by decide)))
  · exact absurd hquery (isCmd_other hcmd _ _ (hname _ (by decide)))

/-- The set of a key is sound when the sets in memory are those of a run and
    well-formed. -/
theorem setAt_sound (hs : StoresOk R Q g) (hwf : WellFormed g) (hK : Views g K) {c : Nat} {k : Bytes}
    {z : ZSet} (hz : setAt (K c k) = some z) : ∃ t, z.Sound R t ∧ Counted t := by
  cases hv : K c k with
  | none =>
      rw [hv, setAt, Option.some.injEq] at hz
      rw [← hz]
      exact ⟨nil, sound_empty R, True.intro⟩
  | some v =>
      rcases v with ⟨x, d⟩
      rw [hv, setAt] at hz
      by_cases ht : x.type = .zset
      · rw [if_pos ht, Option.some.injEq] at hz
        rcases (hK c k x d).mp hv with ⟨e, he, _⟩
        rw [← hz]
        exact (hs.entries e x he.entry).1.sound (hwf c k e x he ht)
      · rw [if_neg ht] at hz
        cases hz

theorem not_isErr_of_int (n : Int) : ¬ (Value.scalar (.int n)).IsErr := by
  rintro ⟨code, msg, h⟩
  cases h

theorem not_isErr_of_str (s : Bytes) : ¬ (Value.scalar (.str s)).IsErr := by
  rintro ⟨code, msg, h⟩
  cases h

theorem length_int (n : Int) : (Value.scalar (.int n)).encode.length ≤ 64 := by
  simp only [Value.encode, Scalar.encode, outInt, List.length_append, List.length_cons,
    List.length_nil, length_le64]
  omega

theorem length_str (s : Bytes) : (Value.scalar (.str s)).encode.length = 5 + s.length := by
  simp only [Value.encode, Scalar.encode, outStr, List.length_append, List.length_cons,
    List.length_nil, length_le32]

/-! ## The commands -/

theorem length_nil_le : (Value.scalar .nil).encode.length ≤ 64 := by decide

theorem doGet_replied (hinv : Inv R g P) (hK : Views g K) {c : Nat} {conn : Conn}
    (hc : g.conns c = some conn) {cmd : List Bytes} (hcmd : isCmd cmd 2 "get" = true) (out : Bytes) :
    ∃ g' v, doGet R g c cmd out = .ok (g', out ++ v.encode) ∧ Replied R g cmd K P g' v K := by
  rcases doGet_spec hinv hK hc cmd out with ⟨g', hrun, hm⟩
  cases hv : K c (arg cmd 1) with
  | none =>
      rw [hv, getReply, outNil_eq] at hrun
      exact ⟨g', .scalar .nil, hrun, Replied.same hm (Or.inr (Or.inl length_nil_le))⟩
  | some v =>
      rcases v with ⟨x, d⟩
      rw [hv, getReply] at hrun
      by_cases ht : x.type = .str
      · rw [if_neg (not_not.mpr ht), outStr_eq] at hrun
        rcases (hK c (arg cmd 1) x d).mp hv with ⟨e, he, _⟩
        exact ⟨g', .scalar (.str x.str), hrun,
          Replied.same hm (Or.inr (Or.inr ⟨hcmd, e, x, he.entry, rfl⟩))⟩
      · rw [if_pos ht, outErr_eq] at hrun
        exact ⟨g', .scalar (.err errBadTyp (ascii "not a string value")), hrun,
          Replied.same hm (Or.inr (Or.inl (by decide)))⟩

theorem doSet_replied (hinv : Inv R g P) (hK : Views g K) {c : Nat} {conn : Conn}
    (hc : g.conns c = some conn) {cmd : List Bytes} (hcmd : isCmd cmd 3 "set" = true) (out : Bytes) :
    ∃ g' v K', doSet R g c cmd out = .ok (g', out ++ v.encode) ∧ Replied R g cmd K P g' v K' := by
  rcases doSet_spec hinv hK hc cmd out with ⟨g', hrun, hm⟩
  have hdone : doSet R g c cmd out = .ok (g', outStr out (ascii "1")) →
      ∃ g' v K', doSet R g c cmd out = .ok (g', out ++ v.encode) ∧ Replied R g cmd K P g' v K' := by
    intro hrun
    rw [outStr_eq] at hrun
    exact ⟨g', .scalar (.str (ascii "1")), _, hrun,
      Replied.change hm hcmd (by decide) (not_isErr_of_str _) (by decide)⟩
  cases hv : K c (arg cmd 1) with
  | none =>
      rw [hv, setReply] at hrun
      exact hdone hrun
  | some v =>
      rcases v with ⟨x, d⟩
      rw [hv, setReply] at hrun
      by_cases ht : x.type = .str
      · rw [if_neg (not_not.mpr ht)] at hrun
        exact hdone hrun
      · rw [if_pos ht, outErr_eq] at hrun
        rw [hv, setValue, if_pos ht, ← hv, Keyspace.set_eq_self] at hm
        exact ⟨g', .scalar (.err errBadTyp (ascii "a non-string value exists")), K, hrun,
          Replied.same hm (Or.inr (Or.inl (by decide)))⟩

theorem doDel_replied (hinv : Inv R g P) (hK : Views g K) (hs : StoresOk R Q g) (hwf : WellFormed g)
    {c : Nat} {conn : Conn} (hc : g.conns c = some conn) {cmd : List Bytes}
    (hcmd : isCmd cmd 2 "del" = true) (out : Bytes) :
    ∃ g' v K', doDel R g c cmd out = .ok (g', out ++ v.encode) ∧ Replied R g cmd K P g' v K' := by
  rcases doDel_spec hinv hK hc cmd out with ⟨g', hrun, hm⟩ | ⟨f, x, d, _, hx, ht, hclear⟩
  · rw [delReply] at hrun
    by_cases hv : (K c (arg cmd 1)).isSome = true
    · rw [if_pos hv, outStr_eq] at hrun
      exact ⟨g', .scalar (.str (ascii "1")), _, hrun,
        Replied.change hm hcmd (by decide) (not_isErr_of_str _) (by decide)⟩
    · rw [if_neg hv, outStr_eq] at hrun
      exact ⟨g', .scalar (.str (ascii "0")), _, hrun,
        Replied.change hm hcmd (by decide) (not_isErr_of_str _) (by decide)⟩
  · have hset : setAt (K c (arg cmd 1)) = some x.zset := by
      rw [hx, setAt, if_pos ht]
    rcases setAt_sound hs hwf hK hset with ⟨t, hsound, _⟩
    rcases zsetClear_spec hsound.treeOf with ⟨z', hrun, _, _⟩
    rw [hclear] at hrun
    cases hrun

theorem doExpire_replied (hinv : Inv R g P) (hK : Views g K) {c : Nat} {conn : Conn}
    (hc : g.conns c = some conn) {cmd : List Bytes} (hcmd : isCmd cmd 3 "pexpire" = true)
    (now : Nat) (out : Bytes) :
    ∃ g' v K', doExpire R g c cmd now out = .ok (g', out ++ v.encode) ∧
      Replied R g cmd K P g' v K' := by
  cases harg : str2int (arg cmd 2) with
  | none =>
      refine ⟨g, .scalar (.err errBadArg (ascii "expect int64")), K, ?_,
        Replied.same (Moved.refl hinv hK) (Or.inr (Or.inl (by decide)))⟩
      simp only [doExpire, harg]
      exact congrArg (fun o => Except.ok (g, o)) (outErr_eq out _ _)
  | some ttlMs =>
      rcases doExpire_spec hinv hK hc cmd now out harg with ⟨g', hrun, hm⟩
      rw [expireReply] at hrun
      by_cases hv : (K c (arg cmd 1)).isSome = true
      · rw [if_pos hv, outInt_eq] at hrun
        exact ⟨g', .scalar (.int 1), _, hrun,
          Replied.change hm hcmd (by decide) (not_isErr_of_int _) (length_int _)⟩
      · rw [if_neg hv, outInt_eq] at hrun
        exact ⟨g', .scalar (.int 0), _, hrun,
          Replied.change hm hcmd (by decide) (not_isErr_of_int _) (length_int _)⟩

theorem doTtl_replied (hinv : Inv R g P) (hK : Views g K) {c : Nat} {conn : Conn}
    (hc : g.conns c = some conn) (cmd : List Bytes) (now : Nat) (out : Bytes) :
    ∃ g' v, doTtl R g c cmd now out = .ok (g', out ++ v.encode) ∧ Replied R g cmd K P g' v K := by
  rcases doTtl_spec hinv hK hc cmd now out with ⟨g', hrun, hm⟩
  have hint : ∀ n, doTtl R g c cmd now out = .ok (g', outInt out n) →
      ∃ g' v, doTtl R g c cmd now out = .ok (g', out ++ v.encode) ∧ Replied R g cmd K P g' v K := by
    intro n hrun
    rw [outInt_eq] at hrun
    exact ⟨g', .scalar (.int n), hrun, Replied.same hm (Or.inr (Or.inl (length_int n)))⟩
  rcases hv : K c (arg cmd 1) with _ | ⟨x, _ | d⟩
  · rw [hv, ttlReply] at hrun
    exact hint _ hrun
  · rw [hv, ttlReply] at hrun
    exact hint _ hrun
  · rw [hv, ttlReply] at hrun
    exact hint _ hrun

/-- The keys are written as an array of strings. -/
theorem outKeys_value (out : Bytes) (l : List Bytes) :
    outKeys out l = out ++ (Value.arr (l.map Scalar.str)).encode := by
  have hfold : ∀ (l : List Bytes) (out : Bytes),
      l.foldl outStr out = out ++ encodeAll (l.map Scalar.str) := by
    intro l
    induction l with
    | nil => exact fun out => (List.append_nil out).symm
    | cons k l ih =>
        intro out
        rw [List.foldl_cons, ih, outStr_eq, List.map_cons, encodeAll, encodeAll, List.flatMap_cons,
          List.append_assoc]
  rw [outKeys, hfold, outArr_eq, Value.encode, List.length_map, List.append_assoc]

theorem doKeys_replied (hinv : Inv R g P) (hK : Views g K) {c : Nat} {conn : Conn}
    (hc : g.conns c = some conn) {cmd : List Bytes} (hcmd : isCmd cmd 1 "keys" = true) (out : Bytes) :
    ∃ g' v, doKeys g c out = .ok (g', out ++ v.encode) ∧ Replied R g cmd K P g' v K := by
  have hrun := doKeys_spec hinv hc out
  rw [outKeys_value] at hrun
  exact ⟨g, .arr _, hrun, Replied.same (Moved.refl hinv hK) (Or.inl (Or.inl hcmd))⟩

/-- `zadd` with a number, on a set of a run that is well-formed. -/
theorem doZadd_replied (hinv : Inv R g P) (hK : Views g K) (hs : StoresOk R Q g) (hwf : WellFormed g)
    {c : Nat} {conn : Conn} (hc : g.conns c = some conn) {cmd : List Bytes}
    (hcmd : isCmd cmd 4 "zadd" = true) (out : Bytes) :
    ∃ g' v K', doZadd R g c cmd out = .ok (g', out ++ v.encode) ∧ Replied R g cmd K P g' v K' := by
  cases harg : str2dbl R (arg cmd 2) with
  | none =>
      refine ⟨g, .scalar (.err errBadArg (ascii "expect float")), K, ?_,
        Replied.same (Moved.refl hinv hK) (Or.inr (Or.inl (by decide)))⟩
      simp only [doZadd, harg]
      exact congrArg (fun o => Except.ok (g, o)) (outErr_eq out _ _)
  | some score =>
      rcases hentry : zaddEntry R c (arg cmd 1) (K c (arg cmd 1)) with ⟨x, d⟩
      rcases doZadd_spec hinv hK hc cmd out harg hentry with
        ⟨ht, g', hrun, hm⟩ | ⟨ht, ⟨f, hfault, _⟩ | ⟨z, added, g', _, hrun, hm⟩⟩
      · -- The key is there, and holds a string.
        have hkey : K c (arg cmd 1) = some (x, d) := by
          cases hv : K c (arg cmd 1) with
          | none =>
              rw [hv, zaddEntry, Prod.mk.injEq] at hentry
              exact absurd (congrArg Entry.type hentry.1).symm ht
          | some v =>
              rw [hv, zaddEntry] at hentry
              rw [hentry]
        rw [← hkey, Keyspace.set_eq_self] at hm
        rw [outErr_eq] at hrun
        exact ⟨g', .scalar (.err errBadTyp (ascii "expect zset")), K, hrun,
          Replied.same hm (Or.inr (Or.inl (by decide)))⟩
      · have hset : setAt (K c (arg cmd 1)) = some x.zset := by
          cases hv : K c (arg cmd 1) with
          | none =>
              rw [hv, zaddEntry, Prod.mk.injEq] at hentry
              rw [← hentry.1, setAt]
          | some v =>
              rw [hv, zaddEntry] at hentry
              rw [hentry, setAt, if_pos ht]
        -- a stored set is sound, so the insertion does not fault
        rcases setAt_sound hs hwf hK hset with ⟨t, hsound, _⟩
        rcases zsetInsert_sound hsound (arg cmd 3) score with ⟨z, r, _, hok, _⟩
        rw [hfault] at hok
        cases hok
      · rw [outInt_eq] at hrun
        exact ⟨g', .scalar (.int _), _, hrun,
          Replied.change hm hcmd (by decide) (not_isErr_of_int _) (length_int _)⟩

theorem doZrem_replied (hinv : Inv R g P) (hK : Views g K) (hs : StoresOk R Q g) (hwf : WellFormed g)
    {c : Nat} {conn : Conn} (hc : g.conns c = some conn) {cmd : List Bytes}
    (hcmd : isCmd cmd 3 "zrem" = true) (out : Bytes) :
    ∃ g' v K', doZrem R g c cmd out = .ok (g', out ++ v.encode) ∧ Replied R g cmd K P g' v K' := by
  rcases doZrem_total hinv hK hs hc cmd out
    (fun z hz => (setAt_sound hs hwf hK hz).imp fun t h => h.1) with
    ⟨_, g', hrun, hm⟩ | ⟨z, z', removed, g', _, hrun, _, hm⟩
  · rw [outErr_eq] at hrun
    exact ⟨g', .scalar (.err errBadTyp (ascii "expect zset")), K, hrun,
      Replied.same hm (Or.inr (Or.inl (by decide)))⟩
  · rw [outInt_eq] at hrun
    exact ⟨g', .scalar (.int _), _, hrun,
      Replied.change hm hcmd (by decide) (not_isErr_of_int _) (length_int _)⟩

theorem doZscore_replied (hinv : Inv R g P) (hK : Views g K) (hs : StoresOk R Q g)
    (hwf : WellFormed g) {c : Nat} {conn : Conn} (hc : g.conns c = some conn) (cmd : List Bytes)
    (out : Bytes) :
    ∃ g' v K', doZscore R g c cmd out = .ok (g', out ++ v.encode) ∧
      Replied R g cmd K P g' v K' := by
  rcases doZscore_total hinv hK hs hc cmd out
    (fun z hz => (setAt_sound hs hwf hK hz).imp fun t h => h.1) with
    ⟨_, g', hrun, hm⟩ | ⟨z, m, r, g', hz, _, hrun, hm⟩
  · rw [outErr_eq] at hrun
    exact ⟨g', .scalar (.err errBadTyp (ascii "expect zset")), K, hrun,
      Replied.same hm (Or.inr (Or.inl (by decide)))⟩
  · have hquiet : K.Relaid (K.putSet c (arg cmd 1) { z with hmap := m }) := relaid_putSet hz m
    cases r with
    | none =>
        rw [scoreReply, outNil_eq] at hrun
        exact ⟨g', .scalar .nil, _, hrun, hm, fun _ => hquiet, Or.inr (Or.inl length_nil_le)⟩
    | some a =>
        rw [scoreReply, outDbl_eq] at hrun
        refine ⟨g', .scalar (.dbl _), _, hrun, hm, fun _ => hquiet, Or.inr (Or.inl ?_)⟩
        simp only [Value.encode, Scalar.encode, outDbl, List.length_append, List.length_cons,
          List.length_nil, length_leDouble]
        omega

/-- The two values of a tuple. -/
def tupleValues (x : Double × Bytes) : List Scalar := [.str x.2, .dbl x.1]

theorem encodeAll_append (l l' : List Scalar) : encodeAll (l ++ l') = encodeAll l ++ encodeAll l' :=
  List.flatMap_append

theorem encodeAll_tuple (x : Double × Bytes) :
    encodeAll (tupleValues x) = (Scalar.str x.2).encode ++ (Scalar.dbl x.1).encode := by
  rw [tupleValues, encodeAll, List.flatMap_cons, List.flatMap_cons, List.flatMap_nil,
    List.append_nil]

/-- The tuples of a query are written as an array of names and scores. -/
theorem queryReply_eq (out : Bytes) (l : List (Double × Bytes)) :
    queryReply out l = out ++ (Value.arr (l.flatMap tupleValues)).encode := by
  have hfold : ∀ (l : List (Double × Bytes)) (out : Bytes),
      outTuples out l = out ++ encodeAll (l.flatMap tupleValues) := by
    intro l
    induction l with
    | nil => exact fun out => (List.append_nil out).symm
    | cons x l ih =>
        intro out
        unfold outTuples at ih ⊢
        rw [List.foldl_cons, ih, outDbl_eq, outStr_eq, List.flatMap_cons, encodeAll_append,
          encodeAll_tuple]
        simp only [List.append_assoc]
  have hlen : (l.flatMap tupleValues).length = 2 * l.length := by
    induction l with
    | nil => rfl
    | cons x l ih =>
        rw [List.flatMap_cons, List.length_append, ih, List.length_cons, tupleValues,
          List.length_cons, List.length_cons, List.length_nil]
        omega
  rw [queryReply, hfold, outArr_eq, Value.encode, hlen, List.append_assoc]

theorem doZquery_replied (hinv : Inv R g P) (hK : Views g K) (hs : StoresOk R Q g)
    (hwf : WellFormed g) {c : Nat} {conn : Conn} (hc : g.conns c = some conn) {cmd : List Bytes}
    (hcmd : isCmd cmd 6 "zquery" = true) (out : Bytes) :
    ∃ g' v, doZquery R g c cmd out = .ok (g', out ++ v.encode) ∧ Replied R g cmd K P g' v K := by
  -- an argument that does not parse is answered by an error
  have herr : ∀ code msg, doZquery R g c cmd out = .ok (g, outErr out code msg) →
      ∃ g' v, doZquery R g c cmd out = .ok (g', out ++ v.encode) ∧ Replied R g cmd K P g' v K := by
    intro code msg hrun
    rw [outErr_eq] at hrun
    exact ⟨g, .scalar (.err code msg), hrun,
      Replied.same (Moved.refl hinv hK) (Or.inl (Or.inr hcmd))⟩
  cases hscore : str2dbl R (arg cmd 2) with
  | none => exact herr errBadArg (ascii "expect fp number") (by simp only [doZquery, hscore])
  | some score =>
      cases hoff : str2int (arg cmd 4) with
      | none => exact herr errBadArg (ascii "expect int") (by simp only [doZquery, hscore, hoff])
      | some offset =>
          cases hlim : str2int (arg cmd 5) with
          | none =>
              exact herr errBadArg (ascii "expect int") (by simp only [doZquery, hscore, hoff, hlim])
          | some limit =>
              rcases doZquery_total hinv hK hs hc cmd out hscore hoff hlim
                (fun z hz => setAt_sound hs hwf hK hz) with ⟨g', hm, hcases⟩
              have hsmall : ∀ v : Value, RepliesList cmd ∨ v.encode.length ≤ 64 ∨
                  (isCmd cmd 2 "get" = true ∧ ∃ e x, g.entries e = some x ∧
                    v = .scalar (.str x.str)) := fun _ => Or.inl (Or.inr hcmd)
              -- no set at the key, no positive limit, or the page of the set
              rcases hcases with ⟨_, hrun⟩ | ⟨z, t, _, _, ⟨_, hrun⟩ | ⟨_, start, _, _, hrun⟩⟩
              · rw [outErr_eq] at hrun
                exact ⟨g', .scalar (.err _ _), hrun, Replied.same hm (hsmall _)⟩
              · rw [outArr_eq] at hrun
                refine ⟨g', .arr [], ?_, Replied.same hm (hsmall _)⟩
                rw [hrun, Value.encode, encodeAll, List.flatMap_nil, List.append_nil]
                rfl
              · rw [queryReply_eq] at hrun
                exact ⟨g', .arr _, hrun, Replied.same hm (hsmall _)⟩

/-- Every command on a state whose sorted sets are well-formed returns, and
    appends one value to the output. -/
theorem doRequest_replied (hinv : Inv R g P) (hK : Views g K) (hs : StoresOk R Q g)
    (hwf : WellFormed g) {c : Nat} {conn : Conn} (hc : g.conns c = some conn) (cmd : List Bytes)
    (now : Nat) (out : Bytes) :
    ∃ g' v K', doRequest R g c cmd now out = .ok (g', out ++ v.encode) ∧
      Replied R g cmd K P g' v K' := by
  refine doRequest_elim (Q := fun r => ∃ g' v K', r = .ok (g', out ++ v.encode) ∧
    Replied R g cmd K P g' v K') ?get ?set ?del ?expire ?ttl ?keys ?zadd ?zrem ?zscore ?zquery
    ?quit ?unknown
  case get => exact fun hcmd => (doGet_replied hinv hK hc hcmd out).imp fun _ => .imp fun _ h => ⟨K, h⟩
  case set => exact fun hcmd => doSet_replied hinv hK hc hcmd out
  case del => exact fun hcmd => doDel_replied hinv hK hs hwf hc hcmd out
  case expire => exact fun hcmd => doExpire_replied hinv hK hc hcmd now out
  case ttl => exact fun _ => (doTtl_replied hinv hK hc cmd now out).imp fun _ => .imp fun _ h => ⟨K, h⟩
  case keys =>
    exact fun hcmd => (doKeys_replied hinv hK hc hcmd out).imp fun _ => .imp fun _ h => ⟨K, h⟩
  case zadd => exact fun hcmd => doZadd_replied hinv hK hs hwf hc hcmd out
  case zrem => exact fun hcmd => doZrem_replied hinv hK hs hwf hc hcmd out
  case zscore => exact fun _ => doZscore_replied hinv hK hs hwf hc cmd out
  case zquery =>
    exact fun hcmd => (doZquery_replied hinv hK hs hwf hc hcmd out).imp fun _ => .imp fun _ h => ⟨K, h⟩
  case quit =>
    intro _
    refine ⟨g, .scalar (.str (ascii "BYE")), K, ?_,
      Replied.same (Moved.refl hinv hK) (Or.inr (Or.inl (by decide)))⟩
    exact congrArg (fun o => Except.ok (g, o)) (outStr_eq out _)
  case unknown =>
    refine ⟨g, .scalar (.err errUnknown (ascii "Unknown command.")), K, ?_,
      Replied.same (Moved.refl hinv hK) (Or.inr (Or.inl (by decide)))⟩
    exact congrArg (fun o => Except.ok (g, o)) (outErr_eq out _ _)

end

end RedisServer
