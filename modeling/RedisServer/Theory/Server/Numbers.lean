import RedisServer.Theory.Protocol.Response
import Mathlib.Data.List.Induction
import Mathlib.Data.List.TakeWhile
import Mathlib.Data.Nat.Digits.Defs

/-!
# Written Numbers

Which strings `str2int` takes for a number, and for which. `strtoll` reads
white space, a sign and digits, and stops at the first byte that fits none of
them, be it a zero byte. `str2int` compares the place it stopped at with the
end of the string. That rules out what follows a number, but two things get
by. Without a digit `strtoll` stops where it started, which is also the end of
an empty string. And a number that is too large is consumed like any other,
while its value is brought into range.

## Main definitions

* `Denotes`: A string writes a number.
* `IntArg`: It writes one that an `int64_t` holds.
* `Parts`: A string as `strtoll` goes through it.
* `Faithful`: It is not one of the strings that get by.
* `expireWith`, `zqueryWith`: The commands, once they have their numbers.
* `ExpireAsWritten`, `ZqueryAsWritten`: A command acts on the written numbers.

## Theorems

* `exists_parts`, `strtoll_parts`: What `strtoll` takes off a string.
* `str2int_eq_some_iff`: What `str2int` accepts.
* `str2int_exact_iff`: When that is the written number.
* `expire_as_written_iff`, `zquery_as_written_iff`: When the commands act on it.
-/

namespace RedisServer

/-- The sign of a number. -/
inductive Sign
  | absent
  | plus
  | minus
  deriving DecidableEq, Repr

/-- How it is written. -/
def Sign.text : Sign → Bytes
  | .absent => []
  | .plus => [43]
  | .minus => [45]

/-- The number with this sign. -/
def Sign.value : Sign → Nat → Int
  | .absent, n => n
  | .plus, n => n
  | .minus, n => -n

/-- The number a string of decimal digits stands for. -/
def decimal (digits : Bytes) : Nat := Nat.ofDigits 10 (digits.reverse.map fun b => b.toNat - 48)

/-- A string is a number with white space before it and nothing after. -/
inductive Denotes : Bytes → Int → Prop
  | mk (ws : Bytes) (sign : Sign) (digits : Bytes) : (∀ b ∈ ws, isSpace b = true) → digits ≠ [] →
      (∀ b ∈ digits, isDigit b = true) → Denotes (ws ++ (sign.text ++ digits)) (sign.value (decimal digits))

/-- The range of an `int64_t`. -/
def FitsInt64 (v : Int) : Prop := -(2 ^ 63) ≤ v ∧ v < 2 ^ 63

/-- The values of an integer argument. -/
def IntArg (s : Bytes) (v : Int) : Prop := Denotes s v ∧ FitsInt64 v

/-- The string is not empty, and no number out of range. -/
def Faithful (s : Bytes) : Prop := s ≠ [] ∧ ∀ v, Denotes s v → FitsInt64 v

theorem digitsVal_eq (digits : Bytes) : digitsVal digits = decimal digits := by
  induction digits using List.reverseRecOn with
  | nil => rfl
  | append_singleton digits b ih =>
    rw [digitsVal, List.foldl_append, ← digitsVal, ih, List.foldl_cons, List.foldl_nil]
    simp only [decimal, List.reverse_append, List.reverse_singleton, List.singleton_append,
      List.map_cons, Nat.ofDigits_cons]
    omega

theorem isDigit_cases {b : UInt8} (h : isDigit b = true) :
    isSpace b = false ∧ b ≠ 43 ∧ b ≠ 45 := by
  simp only [isDigit, Bool.and_eq_true, decide_eq_true_eq, UInt8.le_iff_toNat_le] at h
  have hne : ∀ c : UInt8, c.toNat < 48 → b ≠ c := by
    intro c hc heq
    rw [heq] at h
    have h48 : (48 : UInt8).toNat = 48 := rfl
    omega
  refine ⟨?_, hne 43 (by decide), hne 45 (by decide)⟩
  have h48 : (48 : UInt8).toNat = 48 := rfl
  have h13 : (13 : UInt8).toNat = 13 := rfl
  simp only [isSpace, hne 32 (by decide), decide_false, Bool.false_or, Bool.and_eq_false_iff,
    decide_eq_false_iff_not, UInt8.le_iff_toNat_le]
  omega

/-- A string, as `strtoll` goes through it: white space, a sign, and the
    rest, which the sign could not have been taken from. -/
structure Parts (s ws : Bytes) (sign : Sign) (body : Bytes) : Prop where
  split : s = ws ++ (sign.text ++ body)
  spaces : ∀ b ∈ ws, isSpace b = true
  start : ∀ b ∈ (sign.text ++ body).head?, isSpace b = false
  unsigned : sign = .absent → ∀ b ∈ body.head?, b ≠ 43 ∧ b ≠ 45

theorem dropWhile_eq_self {p : UInt8 → Bool} {s : Bytes} (h : ∀ b ∈ s.head?, p b = false) :
    s.dropWhile p = s := by
  cases s with
  | nil => rfl
  | cons b s =>
    rw [List.dropWhile_cons_of_neg]
    rw [h b rfl]
    exact Bool.false_ne_true

theorem Parts.dropWhile {s ws body : Bytes} {sign : Sign} (h : Parts s ws sign body) :
    s.dropWhile isSpace = sign.text ++ body := by
  rw [h.split, List.dropWhile_append_of_pos h.spaces, dropWhile_eq_self h.start]

/-- What `strtoll` makes of these parts. -/
theorem strtoll_parts {s ws body : Bytes} {sign : Sign} (h : Parts s ws sign body) :
    strtoll s =
      if body.takeWhile isDigit = [] then (0, 0)
      else (saturate (sign.value (decimal (body.takeWhile isDigit))),
        ws.length + sign.text.length + (body.takeWhile isDigit).length) := by
  have hlen : s.length - (sign.text ++ body).length = ws.length := by
    rw [h.split, List.length_append]
    omega
  rw [strtoll, h.dropWhile, hlen]
  cases sign with
  | plus =>
    simp only [Sign.text, List.singleton_append, List.drop_one, List.tail_cons, List.isEmpty_iff,
      digitsVal_eq]
    rfl
  | minus =>
    simp only [Sign.text, List.singleton_append, List.drop_one, List.tail_cons, List.isEmpty_iff,
      digitsVal_eq]
    rfl
  | absent =>
    cases body with
    | nil => rfl
    | cons b body =>
      have hb := h.unsigned rfl b rfl
      simp only [Sign.text, List.nil_append, List.isEmpty_iff, digitsVal_eq]
      split
      · exact absurd (List.cons.inj ‹_›).1 hb.2
      · exact absurd (List.cons.inj ‹_›).1 hb.1
      · rfl

/-- Every string has these parts. -/
theorem exists_parts (s : Bytes) : ∃ ws sign body, Parts s ws sign body := by
  have hsplit : s = s.takeWhile isSpace ++ s.dropWhile isSpace := List.takeWhile_append_dropWhile.symm
  have hspaces : ∀ b ∈ s.takeWhile isSpace, isSpace b = true := fun b hb => List.mem_takeWhile_imp hb
  have hstart : ∀ b ∈ (s.dropWhile isSpace).head?, isSpace b = false := by
    intro b hb
    have hnot := List.head?_dropWhile_not isSpace s
    rw [Option.mem_def.mp hb] at hnot
    simpa using hnot
  generalize s.dropWhile isSpace = rest at hsplit hstart
  cases rest with
  | nil => exact ⟨_, .absent, [], hsplit, hspaces, hstart, fun _ b hb => nomatch hb⟩
  | cons b body =>
    by_cases hplus : b = 43
    · rw [hplus] at hsplit hstart
      exact ⟨_, .plus, body, hsplit, hspaces, hstart, nofun⟩
    by_cases hminus : b = 45
    · rw [hminus] at hsplit hstart
      exact ⟨_, .minus, body, hsplit, hspaces, hstart, nofun⟩
    · refine ⟨_, .absent, b :: body, hsplit, hspaces, hstart, fun _ c hc => ?_⟩
      rw [List.head?_cons, Option.mem_some_iff] at hc
      rw [← hc]
      exact ⟨hplus, hminus⟩

/-- They are determined by the string. -/
theorem Parts.unique {s ws ws' body body' : Bytes} {sign sign' : Sign} (h : Parts s ws sign body)
    (h' : Parts s ws' sign' body') : sign = sign' ∧ body = body' := by
  have heq : sign.text ++ body = sign'.text ++ body' := h.dropWhile.symm.trans h'.dropWhile
  -- a sign cannot be the start of a rest that has none
  have hplus := h.unsigned
  have hplus' := h'.unsigned
  cases sign <;> cases sign' <;> simp only [Sign.text, List.nil_append, List.singleton_append] at heq
  case absent.absent => exact ⟨rfl, heq⟩
  case plus.plus => exact ⟨rfl, (List.cons.inj heq).2⟩
  case minus.minus => exact ⟨rfl, (List.cons.inj heq).2⟩
  case absent.plus => exact absurd rfl (hplus rfl 43 (heq ▸ rfl)).1
  case absent.minus => exact absurd rfl (hplus rfl 45 (heq ▸ rfl)).2
  case plus.absent => exact absurd rfl (hplus' rfl 43 (heq ▸ rfl)).1
  case minus.absent => exact absurd rfl (hplus' rfl 45 (heq ▸ rfl)).2
  case plus.minus => exact absurd (List.cons.inj heq).1 (by decide)
  case minus.plus => exact absurd (List.cons.inj heq).1 (by decide)

/-- In a written number the rest is all digits. -/
theorem denotes_iff {s ws body : Bytes} {sign : Sign} (h : Parts s ws sign body) {v : Int} :
    Denotes s v ↔ body ≠ [] ∧ body.takeWhile isDigit = body ∧ v = sign.value (decimal body) := by
  constructor
  · intro hv
    cases hv with
    | mk ws' sign' digits hspaces hne hdigits =>
      have hstart : ∀ b ∈ digits.head?, isSpace b = false ∧ b ≠ 43 ∧ b ≠ 45 := fun b hb =>
        isDigit_cases (hdigits b (List.mem_of_mem_head? hb))
      have h' : Parts (ws' ++ (sign'.text ++ digits)) ws' sign' digits := by
        refine ⟨rfl, hspaces, fun b hb => ?_, fun _ b hb => (hstart b hb).2⟩
        cases sign' with
        | absent => exact (hstart b hb).1
        | plus => exact Option.some.inj hb ▸ rfl
        | minus => exact Option.some.inj hb ▸ rfl
      rcases h.unique h' with ⟨rfl, rfl⟩
      exact ⟨hne, List.takeWhile_eq_self_iff.mpr hdigits, rfl⟩
  · rintro ⟨hne, hall, rfl⟩
    rw [h.split]
    exact .mk ws sign body h.spaces hne (List.takeWhile_eq_self_iff.mp hall)

/-- A string writes one number at most. -/
theorem Denotes.unique {s : Bytes} {u v : Int} (hu : Denotes s u) (hv : Denotes s v) : u = v := by
  rcases exists_parts s with ⟨ws, sign, body, h⟩
  exact ((denotes_iff h).mp hu).2.2.trans ((denotes_iff h).mp hv).2.2.symm

theorem not_denotes_nil (v : Int) : ¬ Denotes [] v := by
  intro hv
  have h : Parts [] [] .absent [] := ⟨rfl, nofun, nofun, nofun⟩
  exact ((denotes_iff h).mp hv).1 rfl

/-- What `str2int` accepts: the empty string, as zero, and every written
    number, brought into range. -/
theorem str2int_eq_some_iff (s : Bytes) (v : Int) :
    str2int s = some v ↔ (s = [] ∧ v = 0) ∨ ∃ u, Denotes s u ∧ v = saturate u := by
  rcases exists_parts s with ⟨ws, sign, body, h⟩
  have hlen : s.length = ws.length + sign.text.length + body.length := by
    rw [h.split, List.length_append, List.length_append, Nat.add_assoc]
  simp only [str2int, strtoll_parts h]
  by_cases hnone : body.takeWhile isDigit = []
  · -- no digit: the end of the string is where `strtoll` stops only if it is empty
    have hno : ∀ u, ¬ Denotes s u := by
      intro u hu
      rcases (denotes_iff h).mp hu with ⟨hne, hall, _⟩
      exact hne (hall.symm.trans hnone)
    simp only [if_pos hnone, hno, false_and, exists_false, or_false]
    by_cases hs : s = []
    · rw [hs, if_pos List.length_nil.symm, Option.some.injEq]
      exact ⟨fun hv => ⟨rfl, hv.symm⟩, fun hv => hv.2.symm⟩
    · rw [if_neg (Ne.symm (List.length_pos_of_ne_nil hs).ne')]
      exact ⟨nofun, fun hv => absurd hv.1 hs⟩
  · have hsome : body ≠ [] := fun hb => hnone (by rw [hb, List.takeWhile_nil])
    simp only [if_neg hnone]
    have hs : s ≠ [] := by
      intro hs
      have hpos := List.length_pos_of_ne_nil hsome
      rw [hs, List.length_nil] at hlen
      omega
    have hstop : ws.length + sign.text.length + (body.takeWhile isDigit).length = s.length ↔
        body.takeWhile isDigit = body := by
      rw [hlen, Nat.add_left_cancel_iff]
      exact ⟨(List.takeWhile_prefix isDigit).eq_of_length, congrArg List.length⟩
    simp only [hstop, denotes_iff h, hs, false_and, false_or]
    by_cases hall : body.takeWhile isDigit = body
    · rw [if_pos hall, hall, Option.some.injEq]
      constructor
      · exact fun hv => ⟨_, ⟨hsome, rfl, rfl⟩, hv.symm⟩
      · rintro ⟨u, ⟨_, _, rfl⟩, hv⟩
        exact hv.symm
    · rw [if_neg hall]
      exact ⟨nofun, fun ⟨u, hu, _⟩ => absurd hu.2.1 hall⟩

theorem saturate_eq_iff {v : Int} : saturate v = v ↔ FitsInt64 v := by
  unfold saturate FitsInt64
  omega

/-- `str2int` says which number the string writes. -/
def Str2intExact (s : Bytes) : Prop := ∀ v, str2int s = some v ↔ IntArg s v

/-- That holds of all but the strings that get by. -/
theorem str2int_exact_iff (s : Bytes) : Str2intExact s ↔ Faithful s := by
  constructor
  · intro hexact
    refine ⟨?_, fun v hv => ?_⟩
    · rintro rfl
      exact not_denotes_nil 0 ((hexact 0).mp rfl).1
    · have hsat := (hexact (saturate v)).mp ((str2int_eq_some_iff s _).mpr (Or.inr ⟨v, hv, rfl⟩))
      rw [hv.unique hsat.1]
      exact hsat.2
  · intro hs v
    rw [str2int_eq_some_iff]
    constructor
    · rintro (⟨rfl, _⟩ | ⟨u, hu, rfl⟩)
      · exact absurd rfl hs.1
      · rw [saturate_eq_iff.mpr (hs.2 u hu)]
        exact ⟨hu, hs.2 u hu⟩
    · intro hv
      exact Or.inr ⟨v, hv.1, (saturate_eq_iff.mpr hv.2).symm⟩

section

variable (R : Runtime)

/-- `do_expire`, once it has its number. -/
def expireWith (g : GData) (c : Nat) (key : Bytes) (ttlMs : Int) (now : Nat) (out : Bytes) :
    Result (GData × Bytes) := do
  let (g, node) ← dbLookup R g c key
  match node with
  | some ent => do
    let g ← entrySetTtl g ent ttlMs now
    .ok (g, outInt out 1)
  | none => .ok (g, outInt out 0)

/-- `do_zquery`, once it has its numbers. -/
def zqueryWith (g : GData) (c : Nat) (key : Bytes) (score : Double) (name : Bytes)
    (offset limit : Int) (out : Bytes) : Result (GData × Bytes) := do
  let (g, zset) ← expectZset R g c key
  match zset with
  | none => .ok (g, outErr out errBadTyp (ascii "expect zset"))
  | some ref =>
    if limit ≤ 0 then .ok (g, outArr out 0)
    else do
      let z ← getZset g ref
      let znode ← zsetSeekge z score name
      let znode ← znodeOffset z znode offset
      let (out, ctx) := outBeginArr out
      let (n, out) ← zqueryLoop z limit (limit.toNat + 1) znode 0 out
      let out ← outEndArr out ctx n.toNat
      .ok (g, out)

variable {R}

theorem doExpire_none {g : GData} {c now : Nat} {cmd : List Bytes} {out : Bytes}
    (h : str2int (arg cmd 2) = none) :
    doExpire R g c cmd now out = .ok (g, outErr out errBadArg (ascii "expect int64")) := by
  simp only [doExpire, h]

theorem doExpire_some {g : GData} {c now : Nat} {cmd : List Bytes} {out : Bytes} {ttlMs : Int}
    (h : str2int (arg cmd 2) = some ttlMs) :
    doExpire R g c cmd now out = expireWith R g c (arg cmd 1) ttlMs now out := by
  rw [doExpire, h]
  rfl

theorem doZquery_none {g : GData} {c : Nat} {cmd : List Bytes} {out : Bytes} {score : Double}
    (hscore : str2dbl R (arg cmd 2) = some score)
    (h : str2int (arg cmd 4) = none ∨ str2int (arg cmd 5) = none) :
    doZquery R g c cmd out = .ok (g, outErr out errBadArg (ascii "expect int")) := by
  rcases h with hoff | hlim
  · simp only [doZquery, hscore, hoff]
  · cases hoff : str2int (arg cmd 4) with
    | none => simp only [doZquery, hscore, hoff]
    | some offset => simp only [doZquery, hscore, hoff, hlim]

theorem doZquery_some {g : GData} {c : Nat} {cmd : List Bytes} {out : Bytes} {score : Double}
    {offset limit : Int} (hscore : str2dbl R (arg cmd 2) = some score)
    (hoff : str2int (arg cmd 4) = some offset) (hlim : str2int (arg cmd 5) = some limit) :
    doZquery R g c cmd out =
      zqueryWith R g c (arg cmd 1) score (arg cmd 3) offset limit out := by
  simp only [doZquery, hscore, hoff, hlim]
  rfl

theorem getElem?_outErr (out : Bytes) (code : Nat) (msg : Bytes) :
    (outErr out code msg)[out.length]? = some tagErr := by
  rw [outErr, List.append_assoc, List.append_assoc, List.append_assoc, List.singleton_append,
    List.getElem?_append_right (Nat.le_refl _), Nat.sub_self, List.getElem?_cons_zero]

/-- `out_end_arr` asserts the tag and writes after it. -/
theorem getElem?_outEndArr {out out' : Bytes} {ctx n : Nat} (h : outEndArr out (ctx + 1) n = .ok out') :
    out'[ctx]? = some tagArr := by
  rw [outEndArr, Nat.add_sub_cancel] at h
  cases htag : out[ctx]? with
  | none =>
    rw [htag] at h
    cases h
  | some tag =>
    simp only [htag] at h
    by_cases heq : tag = tagArr
    · rw [if_pos heq, memcpyAt] at h
      by_cases hfit : ctx + 1 + (le32 n).length ≤ out.length
      · rw [if_pos hfit, Except.ok.injEq] at h
        have hlt : ctx < (out.take (ctx + 1)).length := by
          rw [List.length_take]
          omega
        rw [← h, List.append_assoc, List.getElem?_append_left hlt,
          List.getElem?_take_of_lt (Nat.lt_succ_self _), htag, heq]
      · rw [if_neg hfit] at h
        cases h
    · rw [if_neg heq] at h
      cases h

/-- A command that has its number does not complain about it. -/
theorem expireWith_ne_badArg {g g' : GData} {c now : Nat} {key out msg : Bytes} {ttlMs : Int} :
    expireWith R g c key ttlMs now out ≠ .ok (g', outErr out errBadArg msg) := by
  intro h
  have hint : ∀ v, outInt out v ≠ outErr out errBadArg msg := by
    intro v heq
    have htag := getElem?_outErr out errBadArg msg
    rw [← heq, outInt, List.append_assoc, List.singleton_append,
      List.getElem?_append_right (Nat.le_refl _), Nat.sub_self, List.getElem?_cons_zero] at htag
    exact absurd (Option.some.inj htag) (by decide)
  rcases bind_eq_ok.mp h with ⟨⟨g₁, node⟩, _, h⟩
  cases node with
  | none =>
    simp only [Except.ok.injEq, Prod.mk.injEq] at h
    exact hint 0 h.2
  | some ent =>
    rcases bind_eq_ok.mp h with ⟨g₂, _, h⟩
    simp only [Except.ok.injEq, Prod.mk.injEq] at h
    exact hint 1 h.2

theorem zqueryWith_ne_badArg {g g' : GData} {c : Nat} {key name out : Bytes} {score : Double}
    {offset limit : Int} :
    zqueryWith R g c key score name offset limit out ≠
      .ok (g', outErr out errBadArg (ascii "expect int")) := by
  intro h
  have htag := getElem?_outErr out errBadArg (ascii "expect int")
  rcases bind_eq_ok.mp h with ⟨⟨g₁, zset⟩, _, h⟩
  cases zset with
  | none =>
    simp only [Except.ok.injEq, Prod.mk.injEq] at h
    have herr := h.2
    rw [outErr_eq, outErr_eq out errBadArg] at herr
    exact absurd (List.append_cancel_left herr) (by decide)
  | some ref =>
    by_cases hlim : limit ≤ 0
    · simp only [if_pos hlim, Except.ok.injEq, Prod.mk.injEq] at h
      rw [← h.2, outArr, List.append_assoc, List.singleton_append,
        List.getElem?_append_right (Nat.le_refl _), Nat.sub_self, List.getElem?_cons_zero] at htag
      exact absurd (Option.some.inj htag) (by decide)
    · simp only [if_neg hlim] at h
      rcases bind_eq_ok.mp h with ⟨z, _, h⟩
      rcases bind_eq_ok.mp h with ⟨first, _, h⟩
      rcases bind_eq_ok.mp h with ⟨znode, _, h⟩
      rcases bind_eq_ok.mp h with ⟨⟨n, buf⟩, _, h⟩
      rcases bind_eq_ok.mp h with ⟨buf', hend, h⟩
      have hctx : (out ++ [tagArr] ++ le32 0).length - 4 = out.length + 1 := by
        rw [List.length_append, List.length_append, List.length_singleton, length_le32]
        omega
      simp only [outBeginArr, hctx] at hend
      simp only [Except.ok.injEq, Prod.mk.injEq] at h
      rw [← h.2, getElem?_outEndArr hend] at htag
      exact absurd (Option.some.inj htag) (by decide)

/-- `pexpire` acts on the number that its argument writes, and on nothing if
    there is none. -/
def ExpireAsWritten (R : Runtime) (g : GData) (c : Nat) (cmd : List Bytes) (now : Nat)
    (out : Bytes) : Prop :=
  (∃ ttlMs, IntArg (arg cmd 2) ttlMs ∧
    doExpire R g c cmd now out = expireWith R g c (arg cmd 1) ttlMs now out) ∨
  ((∀ v, ¬ IntArg (arg cmd 2) v) ∧
    doExpire R g c cmd now out = .ok (g, outErr out errBadArg (ascii "expect int64")))

/-- `zquery` with a score acts on the numbers that its last two arguments
    write, and on nothing if one of them is missing. -/
def ZqueryAsWritten (R : Runtime) (g : GData) (c : Nat) (cmd : List Bytes) (out : Bytes) : Prop :=
  ∀ score, str2dbl R (arg cmd 2) = some score →
    (∃ offset limit, IntArg (arg cmd 4) offset ∧ IntArg (arg cmd 5) limit ∧
      doZquery R g c cmd out = zqueryWith R g c (arg cmd 1) score (arg cmd 3) offset limit out) ∨
    (((∀ v, ¬ IntArg (arg cmd 4) v) ∨ ∀ v, ¬ IntArg (arg cmd 5) v) ∧
      doZquery R g c cmd out = .ok (g, outErr out errBadArg (ascii "expect int")))

/-- A string that is not empty and writes no number. -/
def NoNumber (s : Bytes) : Prop := s ≠ [] ∧ ∀ v, ¬ Denotes s v

theorem IntArg.faithful {s : Bytes} {v : Int} (h : IntArg s v) : Faithful s := by
  refine ⟨?_, fun u hu => ?_⟩
  · rintro rfl
    exact not_denotes_nil v h.1
  · rw [hu.unique h.1]
    exact h.2

theorem str2int_eq_none_iff (s : Bytes) : str2int s = none ↔ NoNumber s := by
  constructor
  · intro hnone
    have hno : ∀ v, str2int s ≠ some v := fun v hv => nomatch hnone.symm.trans hv
    refine ⟨?_, fun v hv => ?_⟩
    · rintro rfl
      exact hno 0 rfl
    · exact hno _ ((str2int_eq_some_iff s _).mpr (Or.inr ⟨v, hv, rfl⟩))
  · intro hs
    cases hv : str2int s with
    | none => rfl
    | some v =>
      rcases (str2int_eq_some_iff s v).mp hv with ⟨hnil, _⟩ | ⟨u, hu, _⟩
      · exact absurd hnil hs.1
      · exact absurd hu (hs.2 u)

theorem NoNumber.faithful {s : Bytes} (h : NoNumber s) : Faithful s :=
  ⟨h.1, fun v hv => absurd hv (h.2 v)⟩

theorem expire_as_written_iff (g : GData) (c : Nat) (cmd : List Bytes) (now : Nat) (out : Bytes) :
    ExpireAsWritten R g c cmd now out ↔ Faithful (arg cmd 2) := by
  constructor
  · rintro (⟨ttlMs, harg, _⟩ | ⟨_, herr⟩)
    · exact harg.faithful
    · cases hv : str2int (arg cmd 2) with
      | none => exact ((str2int_eq_none_iff _).mp hv).faithful
      | some v => exact absurd ((doExpire_some hv).symm.trans herr) expireWith_ne_badArg
  · intro hs
    have hexact := (str2int_exact_iff _).mpr hs
    cases hv : str2int (arg cmd 2) with
    | none =>
      have hno : ∀ v, ¬ IntArg (arg cmd 2) v := fun v h => nomatch hv.symm.trans ((hexact v).mpr h)
      exact Or.inr ⟨hno, doExpire_none hv⟩
    | some v => exact Or.inl ⟨v, (hexact v).mp hv, doExpire_some hv⟩

theorem zquery_as_written_iff (g : GData) (c : Nat) (cmd : List Bytes) (out : Bytes) :
    ZqueryAsWritten R g c cmd out ↔ str2dbl R (arg cmd 2) = none ∨
      (Faithful (arg cmd 4) ∧ Faithful (arg cmd 5)) ∨ NoNumber (arg cmd 4) ∨ NoNumber (arg cmd 5) := by
  cases hscore : str2dbl R (arg cmd 2) with
  | none =>
    exact ⟨fun _ => Or.inl rfl, fun _ score h => nomatch hscore.symm.trans h⟩
  | some score =>
    constructor
    · intro h
      refine Or.inr ?_
      rcases h score hscore with ⟨offset, limit, hoff, hlim, _⟩ | ⟨_, herr⟩
      · exact Or.inl ⟨hoff.faithful, hlim.faithful⟩
      · -- the error is the reply only if one of them was refused
        cases hoff : str2int (arg cmd 4) with
        | none => exact Or.inr (Or.inl ((str2int_eq_none_iff _).mp hoff))
        | some offset =>
          cases hlim : str2int (arg cmd 5) with
          | none => exact Or.inr (Or.inr ((str2int_eq_none_iff _).mp hlim))
          | some limit =>
            exact absurd ((doZquery_some hscore hoff hlim).symm.trans herr) zqueryWith_ne_badArg
    · intro hargs score' hscore'
      have hrefused : NoNumber (arg cmd 4) ∨ NoNumber (arg cmd 5) →
          ((∀ v, ¬ IntArg (arg cmd 4) v) ∨ ∀ v, ¬ IntArg (arg cmd 5) v) ∧
            doZquery R g c cmd out = .ok (g, outErr out errBadArg (ascii "expect int")) := by
        intro hno
        refine ⟨hno.imp (fun h v hv => h.2 v hv.1) (fun h v hv => h.2 v hv.1), ?_⟩
        exact doZquery_none hscore (hno.imp (str2int_eq_none_iff _).mpr (str2int_eq_none_iff _).mpr)
      rcases hargs with hnone | ⟨h4, h5⟩ | hno
      · nomatch hnone
      · cases hoff : str2int (arg cmd 4) with
        | none => exact Or.inr (hrefused (Or.inl ((str2int_eq_none_iff _).mp hoff)))
        | some offset =>
          cases hlim : str2int (arg cmd 5) with
          | none => exact Or.inr (hrefused (Or.inr ((str2int_eq_none_iff _).mp hlim)))
          | some limit =>
            exact Or.inl ⟨offset, limit, ((str2int_exact_iff _).mpr h4 offset).mp hoff,
              ((str2int_exact_iff _).mpr h5 limit).mp hlim, doZquery_some hscore' hoff hlim⟩
      · exact Or.inr (hrefused hno)

end

/-- A string argument is read as the number it writes exactly when it is not
    empty and its number is in range, and the commands act on what was written
    exactly then, or when `zquery` refuses one of its arguments anyway. -/
theorem integer_arguments_iff (R : Runtime) :
    (∀ s, Str2intExact s ↔ Faithful s) ∧
    (∀ g c cmd now out, ExpireAsWritten R g c cmd now out ↔ Faithful (arg cmd 2)) ∧
    (∀ g c cmd out, ZqueryAsWritten R g c cmd out ↔ str2dbl R (arg cmd 2) = none ∨
      (Faithful (arg cmd 4) ∧ Faithful (arg cmd 5)) ∨
        NoNumber (arg cmd 4) ∨ NoNumber (arg cmd 5)) :=
  ⟨str2int_exact_iff, expire_as_written_iff, zquery_as_written_iff⟩

/-- The empty string is read as zero, and `2 ^ 63` as one less. -/
theorem str2int_inexact :
    ¬ Str2intExact [] ∧ ¬ Str2intExact [57, 50, 50, 51, 51, 55, 50, 48, 51, 54, 56, 53, 52, 55, 55, 53, 56, 48, 56] := by
  constructor
  · intro hexact
    exact not_denotes_nil 0 ((hexact 0).mp rfl).1
  · intro hexact
    have hread := (hexact (2 ^ 63 - 1)).mp (by decide)
    have hwrites := Denotes.mk [] .absent
      [57, 50, 50, 51, 51, 55, 50, 48, 51, 54, 56, 53, 52, 55, 55, 53, 56, 48, 56]
      nofun (List.cons_ne_nil _ _) (List.all_eq_true.mp (by decide))
    exact absurd (hread.1.unique hwrites) (by decide)

end RedisServer
