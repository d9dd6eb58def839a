import RedisServer.Core.Printer
import RedisServer.Lib.Lines
import RedisServer.Theory.Protocol.Truncated
import RedisServer.Theory.Server.Numbers
import Mathlib.Data.List.Forall2

/-!
# Replies on the Screen

What a user sees of a reply. The client prints a value as lines, an array with
a line before and after its elements, and nothing is lost of it but what
`printf` drops: the bytes of a string after its first zero byte, and the digits
that `%g` does not write. As long as no string has a newline in it, two replies
look the same only if they are the same but for that.

## Main definitions

* `Prints`: The bytes of a value, nested to any depth, and its text.
* `Scalar.line`, `Value.lines`, `Value.text`: The text of a reply.
* `Value.LooksLike`: The same but for what is not printed.
* `Value.OneLine`: No string has a newline that is printed.

## Theorems

* `printResponseText_fst`: Printing or not, the client returns the same.
* `printResponseTextLoop_prints`: A value is printed as its text.
* `readResponseText_frame`: The client prints the reply it was sent.
* `printed_iff`: What is printed of any buffer.
* `text_eq_iff`: When two replies look the same.
* `shown_iff`: When two users see the same.
-/

namespace RedisServer

open Lib

/-! ## The same results -/

section

variable {fmt : Double → Bytes} {fuel : Nat} {data : Bytes}

theorem printfText_eq (text : Bytes) (len : Nat) : printfText text len =
    (printfStr text len).map fun _ => cstr (if 0 ≤ toI32 len then text.take len else text) := by
  rw [printfText]
  cases printfStr text len with
  | ok x => rfl
  | error err => rfl

theorem printElemsText_fst {elem : Bytes → Result (Int × Bytes)} {elem' : Bytes → Result Int}
    (h : ∀ d, (elem d).map Prod.fst = elem' d) (data : Bytes) (n arrBytes : Nat) (out : Bytes) :
    (printElemsText elem data n arrBytes out).map Prod.fst = printElems elem' data n arrBytes := by
  induction n generalizing arrBytes out with
  | zero => rfl
  | succ n ih =>
      rw [printElemsText, printElems, ← h]
      cases elem (data.drop arrBytes) with
      | error err => rfl
      | ok r =>
          simp only [Except.map, ok_bind]
          by_cases hneg : r.1 < 0
          · rw [if_pos hneg, if_pos hneg]
          · rw [if_neg hneg, if_neg hneg, ← ih _ (out ++ r.2)]
            rfl

theorem map_ite {p : Prop} [Decidable p] {x y : Result (Int × Bytes)} {x' y' : Result Int}
    (hx : x.map Prod.fst = x') (hy : y.map Prod.fst = y') :
    (if p then x else y).map Prod.fst = if p then x' else y' := by
  rw [apply_ite (Except.map Prod.fst), hx, hy]

/-- The two cases with a text that has a length. -/
theorem textItem_fst (text : Bytes) (len : Nat) (rv : Int) (f : Bytes → Bytes) :
    (printfText text len >>= fun s => (.ok (rv, f s) : Result (Int × Bytes))).map Prod.fst =
      printfStr text len >>= fun _ => .ok rv := by
  rw [printfText_eq]
  cases printfStr text len with
  | ok x => rfl
  | error err => rfl

/-- Printing does not change what is returned, nor how the client fails. -/
theorem printResponseTextLoop_fst (fmt : Double → Bytes) (fuel : Nat) (data : Bytes) :
    (printResponseTextLoop fmt fuel data).map Prod.fst = printResponseLoop fuel data := by
  induction fuel generalizing data with
  | zero => rfl
  | succ fuel ih =>
      cases data with
      | nil => rfl
      | cons tag tail =>
          unfold printResponseTextLoop printResponseLoop
          simp only
          -- one tag after the other, each with its test of the size
          refine map_ite rfl (map_ite ?_ (map_ite ?_ (map_ite ?_ (map_ite ?_ (map_ite ?_ rfl)))))
          · exact map_ite rfl (map_ite rfl (textItem_fst _ _ _ _))
          · exact map_ite rfl (map_ite rfl (textItem_fst _ _ _ _))
          · exact map_ite rfl rfl
          · exact map_ite rfl rfl
          · exact map_ite rfl (printElemsText_fst ih _ _ _ _)

theorem printResponseText_fst (fmt : Double → Bytes) (data : Bytes) :
    (printResponseText fmt data).map Prod.fst = printResponse data :=
  printResponseTextLoop_fst fmt _ data

/-- So does `read_response`. -/
theorem readResponseText_fst (fmt : Double → Bytes) (rs : List SockRead) :
    (readResponseText fmt rs).map Prod.fst = readResponse rs := by
  unfold readResponseText readResponse
  simp only
  refine map_ite rfl (map_ite rfl (map_ite rfl ?_))
  rw [← printResponseText_fst fmt]
  cases printResponseText fmt (zeroFill (readFull (readFull rs 4 []).2.2
      (leNat (zeroFill (readFull rs 4 []).2.1 4)) []).2.1
      (leNat (zeroFill (readFull rs 4 []).2.1 4))) with
  | error err => rfl
  | ok r => exact map_ite rfl rfl

/-! ## Values and their texts -/

/-- The bytes of a value, and what is printed of it. -/
inductive Prints (fmt : Double → Bytes) : Bytes → Bytes → Prop
  | nil : Prints fmt [tagNil] (ascii "(nil)\n")
  | err (code msg : Bytes) : code.length = 4 → msg.length < 2 ^ 32 →
      Prints fmt (tagErr :: (code ++ (le32 msg.length ++ msg)))
        (ascii "(err) " ++ intText (toI32 (leNat code)) ++ 32 :: cstr msg ++ [10])
  | str (s : Bytes) : s.length < 2 ^ 32 →
      Prints fmt (tagStr :: (le32 s.length ++ s)) (ascii "(str) " ++ cstr s ++ [10])
  | int (v : Bytes) : v.length = 8 →
      Prints fmt (tagInt :: v) (ascii "(int) " ++ intText (toI64 v) ++ [10])
  | dbl (v : Bytes) : v.length = 8 →
      Prints fmt (tagDbl :: v) (ascii "(dbl) " ++ fmt (toDouble v) ++ [10])
  | arr (elems : List (Bytes × Bytes)) : elems.length < 2 ^ 32 → (∀ e ∈ elems, Prints fmt e.1 e.2) →
      Prints fmt (outArr [] elems.length ++ (elems.map Prod.fst).flatten)
        (ascii "(arr) len=" ++ natText elems.length ++ [10] ++ (elems.map Prod.snd).flatten ++
          ascii "(arr) end\n")

/-- Every value has a text. -/
theorem IsValue.prints {v : Bytes} (h : IsValue v) (fmt : Double → Bytes) : ∃ t, Prints fmt v t := by
  induction h with
  | nil => exact ⟨_, .nil⟩
  | err code msg hcode hmsg => exact ⟨_, .err code msg hcode hmsg⟩
  | str s hs => exact ⟨_, .str s hs⟩
  | int v hv => exact ⟨_, .int v hv⟩
  | dbl v hv => exact ⟨_, .dbl v hv⟩
  | arr elems hn _ ih =>
      choose f hf using ih
      have hfst : (elems.attach.map fun e => (e.1, f e.1 e.2)).map Prod.fst = elems := by
        rw [List.map_map]
        exact List.attach_map_subtype_val elems
      have hlen : (elems.attach.map fun e => (e.1, f e.1 e.2)).length = elems.length := by
        rw [List.length_map, List.length_attach]
      have hall := @Prints.arr fmt (elems.attach.map fun e => (e.1, f e.1 e.2))
        (by rw [hlen]; exact hn) fun x hx => by
          rcases List.mem_map.mp hx with ⟨e, _, rfl⟩
          exact hf e.1 e.2
      rw [hfst, hlen] at hall
      exact ⟨_, hall⟩

theorem printfText_exact {s : Bytes} (h : s.length < 2 ^ 31) (rest : Bytes) :
    printfText (s ++ rest) s.length = .ok (cstr s) := by
  rw [printfText, printfStr_ok h (by rw [List.length_append]; omega), ok_bind, toI32_of_lt h,
    if_pos (Int.natCast_nonneg _), List.take_left]

theorem textLoop_err (tail : Bytes) : printResponseTextLoop fmt (fuel + 1) (tagErr :: tail) =
    if (tagErr :: tail).length < 9 then .ok (-1, [])
    else if (tagErr :: tail).length < (9 + leNat (((tagErr :: tail).drop 5).take 4)) % 2 ^ 32 then
      .ok (-1, [])
    else printfText ((tagErr :: tail).drop 9) (leNat (((tagErr :: tail).drop 5).take 4)) >>=
      fun msg => .ok (toI32 (9 + leNat (((tagErr :: tail).drop 5).take 4)), ascii "(err) " ++
        intText (toI32 (leNat (((tagErr :: tail).drop 1).take 4))) ++ 32 :: msg ++ [10]) := by
  rw [printResponseTextLoop, if_neg (by decide), if_pos rfl]

theorem textLoop_str (tail : Bytes) : printResponseTextLoop fmt (fuel + 1) (tagStr :: tail) =
    if (tagStr :: tail).length < 5 then .ok (-1, [])
    else if (tagStr :: tail).length < (5 + leNat (((tagStr :: tail).drop 1).take 4)) % 2 ^ 32 then
      .ok (-1, [])
    else printfText ((tagStr :: tail).drop 5) (leNat (((tagStr :: tail).drop 1).take 4)) >>=
      fun s => .ok (toI32 (5 + leNat (((tagStr :: tail).drop 1).take 4)),
        ascii "(str) " ++ s ++ [10]) := by
  rw [printResponseTextLoop, if_neg (by decide), if_neg (by decide), if_pos rfl]

theorem textLoop_int (tail : Bytes) : printResponseTextLoop fmt (fuel + 1) (tagInt :: tail) =
    if (tagInt :: tail).length < 9 then .ok (-1, [])
    else .ok (9, ascii "(int) " ++ intText (toI64 (((tagInt :: tail).drop 1).take 8)) ++ [10]) := by
  rw [printResponseTextLoop, if_neg (by decide), if_neg (by decide), if_neg (by decide), if_pos rfl]

theorem textLoop_dbl (tail : Bytes) : printResponseTextLoop fmt (fuel + 1) (tagDbl :: tail) =
    if (tagDbl :: tail).length < 9 then .ok (-1, [])
    else .ok (9, ascii "(dbl) " ++ fmt (toDouble (((tagDbl :: tail).drop 1).take 8)) ++ [10]) := by
  rw [printResponseTextLoop, if_neg (by decide), if_neg (by decide), if_neg (by decide),
    if_neg (by decide), if_pos rfl]

theorem textLoop_arr (tail : Bytes) : printResponseTextLoop fmt (fuel + 1) (tagArr :: tail) =
    if (tagArr :: tail).length < 5 then .ok (-1, [])
    else printElemsText (printResponseTextLoop fmt fuel) (tagArr :: tail)
      (leNat (((tagArr :: tail).drop 1).take 4)) 5
      (ascii "(arr) len=" ++ natText (leNat (((tagArr :: tail).drop 1).take 4)) ++ [10]) := by
  rw [printResponseTextLoop, if_neg (by decide), if_neg (by decide), if_neg (by decide),
    if_neg (by decide), if_neg (by decide), if_pos rfl]

/-- The elements of an array, when each of them is printed as its text. -/
theorem printElemsText_values (elem : Bytes → Result (Int × Bytes)) (elems : List (Bytes × Bytes))
    (pre rest out : Bytes)
    (helem : ∀ e ∈ elems, ∀ rest : Bytes, (e.1 ++ rest).length < 2 ^ 31 →
      elem (e.1 ++ rest) = .ok (e.1.length, e.2))
    (hlen : (pre ++ ((elems.map Prod.fst).flatten ++ rest)).length < 2 ^ 31) :
    printElemsText elem (pre ++ ((elems.map Prod.fst).flatten ++ rest)) elems.length pre.length out =
      .ok ((pre ++ (elems.map Prod.fst).flatten).length,
        out ++ (elems.map Prod.snd).flatten ++ ascii "(arr) end\n") := by
  induction elems generalizing pre out with
  | nil =>
      simp only [List.map_nil, List.flatten_nil, List.append_nil]
      rw [List.length_append] at hlen
      rw [List.length_nil, printElemsText, toI32_of_lt (by omega)]
  | cons e elems ih =>
      have hrest := ih (pre ++ e.1) (out ++ e.2) fun e' he' => helem e' (List.mem_cons_of_mem e he')
      simp only [List.map_cons, List.flatten_cons, List.append_assoc] at hlen hrest ⊢
      have hfirst := helem e List.mem_cons_self ((elems.map Prod.fst).flatten ++ rest) (by
        rw [List.length_append] at hlen
        omega)
      rw [List.length_cons, printElemsText, List.drop_left, hfirst, ok_bind, if_neg (by simp only; omega)]
      simp only [Int.toNat_natCast, ← List.length_append]
      exact hrest hlen

/-- A value is printed as its text, whatever follows it. -/
theorem printResponseTextLoop_prints {v t : Bytes} (h : Prints fmt v t) (hfuel : v.length < fuel)
    (rest : Bytes) (hlen : (v ++ rest).length < 2 ^ 31) :
    printResponseTextLoop fmt fuel (v ++ rest) = .ok (v.length, t) := by
  -- one case per tag, as the decoder's own proof has it
  induction h generalizing fuel rest with
  | nil =>
      cases fuel with
      | zero => exact absurd hfuel (Nat.not_lt_zero _)
      | succ fuel => rfl
  | err code msg hcode hmsg =>
      cases fuel with
      | zero => exact absurd hfuel (Nat.not_lt_zero _)
      | succ fuel =>
          have hword := word_after (p := tagErr :: code) hmsg (msg ++ rest) (i := 5)
            (by rw [List.length_cons, hcode])
          have hnum : (((tagErr :: (code ++ (le32 msg.length ++ (msg ++ rest)))).drop 1).take 4) =
              code := List.take_left' hcode
          have hmsg9 : (tagErr :: (code ++ (le32 msg.length ++ (msg ++ rest)))).drop 9 =
              msg ++ rest := by
            rw [← List.cons_append, ← List.append_assoc, List.drop_left']
            rw [List.length_append, List.length_cons, hcode, length_le32]
          have hsize : (tagErr :: (code ++ (le32 msg.length ++ (msg ++ rest)))).length =
              9 + msg.length + rest.length := by
            simp only [List.length_cons, List.length_append, hcode, length_le32]
            omega
          simp only [List.cons_append, List.append_assoc] at hlen hword ⊢
          rw [hsize] at hlen
          rw [textLoop_err, hword, hnum, hmsg9, hsize, if_neg (by omega),
            Nat.mod_eq_of_lt (by omega), if_neg (by omega), printfText_exact (by omega), ok_bind,
            toI32_of_lt (by omega)]
          simp only [List.length_cons, List.length_append, hcode, length_le32, List.append_assoc,
            List.cons_append]
          congr 3
          omega
  | str s hs =>
      cases fuel with
      | zero => exact absurd hfuel (Nat.not_lt_zero _)
      | succ fuel =>
          have hword := word_after (p := [tagStr]) hs (s ++ rest) (i := 1) rfl
          have hstr5 : (tagStr :: (le32 s.length ++ (s ++ rest))).drop 5 = s ++ rest :=
            List.drop_left' (length_le32 _)
          have hsize : (tagStr :: (le32 s.length ++ (s ++ rest))).length =
              5 + s.length + rest.length := by
            simp only [List.length_cons, List.length_append, length_le32]
            omega
          simp only [List.cons_append, List.nil_append, List.append_assoc] at hlen hword ⊢
          rw [hsize] at hlen
          rw [textLoop_str, hword, hstr5, hsize, if_neg (by omega), Nat.mod_eq_of_lt (by omega),
            if_neg (by omega), printfText_exact (by omega), ok_bind, toI32_of_lt (by omega)]
          simp only [List.length_cons, List.length_append, length_le32, List.append_assoc]
          congr 3
          omega
  | int v hv =>
      cases fuel with
      | zero => exact absurd hfuel (Nat.not_lt_zero _)
      | succ fuel =>
          have hword : (((tagInt :: (v ++ rest)).drop 1).take 8) = v := List.take_left' hv
          rw [List.cons_append, textLoop_int, hword,
            if_neg (by rw [List.length_cons, List.length_append]; omega), List.length_cons, hv]
          rfl
  | dbl v hv =>
      cases fuel with
      | zero => exact absurd hfuel (Nat.not_lt_zero _)
      | succ fuel =>
          have hword : (((tagDbl :: (v ++ rest)).drop 1).take 8) = v := List.take_left' hv
          rw [List.cons_append, textLoop_dbl, hword,
            if_neg (by rw [List.length_cons, List.length_append]; omega), List.length_cons, hv]
          rfl
  | arr elems hn _ ih =>
      cases fuel with
      | zero => exact absurd hfuel (Nat.not_lt_zero _)
      | succ fuel =>
          have hwidth := length_outArr elems.length
          -- an element is shorter than the array it is in, so its own call has fuel
          have hfuel' : ∀ e ∈ elems, e.1.length < fuel := by
            intro e he
            have hle := length_le_flatten (List.mem_map_of_mem (f := Prod.fst) he)
            rw [List.length_append] at hfuel
            omega
          rw [List.append_assoc] at hlen ⊢
          have helems := printElemsText_values (printResponseTextLoop fmt fuel) elems
            (outArr [] elems.length) rest (ascii "(arr) len=" ++ natText elems.length ++ [10])
            (fun e he rest' => ih e he (hfuel' e he) rest') hlen
          have hword := word_after (p := [tagArr]) hn ((elems.map Prod.fst).flatten ++ rest)
            (i := 1) rfl
          have hdata : outArr [] elems.length ++ ((elems.map Prod.fst).flatten ++ rest) =
              tagArr :: (le32 elems.length ++ ((elems.map Prod.fst).flatten ++ rest)) := rfl
          rw [hwidth] at helems
          rw [List.length_append, hwidth] at hlen
          rw [hdata] at helems ⊢
          rw [List.singleton_append] at hword
          rw [textLoop_arr, hword, if_neg, helems]
          rw [← hdata, List.length_append, hwidth]
          omega

/-- A positive result is the length of a value, and its text was printed, as
    long as no length wraps. -/
theorem printResponseText_sound {n : Int} {t : Bytes} (hlen : data.length < 2 ^ 31)
    (hno : ∀ d, Visits data d → ¬ Wraps d) (h : printResponseText fmt data = .ok (n, t))
    (hn : n ≠ -1) : ∃ v rest, data = v ++ rest ∧ Prints fmt v t ∧ n = v.length := by
  have hfst := printResponseText_fst fmt data
  rw [h] at hfst
  rcases printResponseLoop_sound (Nat.lt_succ_self _) hlen hno with hbad | ⟨v, rest, hsplit, hv, hok⟩
  · rw [printResponse, hbad] at hfst
    exact absurd (Except.ok.inj hfst) hn
  · rcases hv.prints fmt with ⟨t', ht'⟩
    have hfuel : v.length < data.length + 1 := by
      rw [hsplit, List.length_append]
      omega
    have hrun := printResponseTextLoop_prints ht' hfuel rest (by rw [← hsplit]; exact hlen)
    rw [← hsplit, ← printResponseText, h, Except.ok.injEq, Prod.mk.injEq] at hrun
    exact ⟨v, rest, hsplit, hrun.2 ▸ ht', hrun.1⟩

end

/-! ## Numbers -/

section

variable {n : Nat} {v v' : Int}

theorem natText_spec (n : Nat) : natText n ≠ [] ∧ (∀ b ∈ natText n, isDigit b = true) ∧
    decimal (natText n) = n := by
  unfold natText
  by_cases hn : n = 0
  · rw [if_pos hn, hn]
    refine ⟨List.cons_ne_nil _ _, fun b hb => ?_, rfl⟩
    rw [List.mem_singleton.mp hb]
    rfl
  · rw [if_neg hn]
    have hdigit : ∀ d ∈ Nat.digits 10 n, (UInt8.ofNat (48 + d)).toNat = 48 + d := by
      intro d hd
      have hlt := Nat.digits_lt_base (by decide) hd
      rw [UInt8.toNat_ofNat']
      omega
    refine ⟨?_, fun b hb => ?_, ?_⟩
    · rw [ne_eq, List.map_eq_nil_iff, List.reverse_eq_nil_iff, Nat.digits_eq_nil_iff_eq_zero]
      exact hn
    · rcases List.mem_map.mp hb with ⟨d, hd, rfl⟩
      rw [List.mem_reverse] at hd
      have hlt := Nat.digits_lt_base (by decide) hd
      have h48 : (48 : UInt8).toNat = 48 := rfl
      have h57 : (57 : UInt8).toNat = 57 := rfl
      simp only [isDigit, Bool.and_eq_true, decide_eq_true_eq, UInt8.le_iff_toNat_le, hdigit d hd]
      omega
    · -- taking the digits back off the bytes
      have hback : (Nat.digits 10 n).map (fun d => (UInt8.ofNat (48 + d)).toNat - 48) =
          Nat.digits 10 n := by
        conv_rhs => rw [← List.map_id (Nat.digits 10 n)]
        refine List.map_congr_left fun d hd => ?_
        rw [hdigit d hd, Nat.add_sub_cancel_left, id]
      rw [decimal, ← List.map_reverse, List.reverse_reverse, List.map_map]
      exact (congrArg (Nat.ofDigits 10) hback).trans (Nat.ofDigits_digits 10 n)

/-- A printed number is the number, to those who read it as `strtoll` does. -/
theorem denotes_intText (v : Int) : Denotes (intText v) v := by
  rcases natText_spec v.natAbs with ⟨hne, hdigits, hval⟩
  unfold intText
  by_cases hneg : v < 0
  · have h := Denotes.mk [] .minus (natText v.natAbs) (fun b hb => absurd hb List.not_mem_nil) hne
      hdigits
    rw [hval, Sign.value, Sign.text, List.nil_append, List.singleton_append] at h
    rw [if_pos hneg]
    have habs : -(v.natAbs : Int) = v := by omega
    rw [habs] at h
    exact h
  · have h := Denotes.mk [] .absent (natText v.natAbs) (fun b hb => absurd hb List.not_mem_nil) hne
      hdigits
    rw [hval, Sign.value, Sign.text, List.nil_append, List.nil_append] at h
    rw [if_neg hneg]
    have habs : (v.natAbs : Int) = v := by omega
    rw [habs] at h
    exact h

theorem intText_inj : intText v = intText v' ↔ v = v' := by
  refine ⟨fun h => ?_, fun h => h ▸ rfl⟩
  have hv := denotes_intText v
  rw [h] at hv
  exact hv.unique (denotes_intText v')

/-- A byte below the digits, and not a minus sign, is not in a number. -/
theorem not_mem_intText {b : UInt8} (h : isDigit b = false) (hminus : b ≠ 45) : b ∉ intText v := by
  have hdigits : b ∉ natText v.natAbs := by
    intro hb
    rw [(natText_spec v.natAbs).2.1 b hb] at h
    cases h
  unfold intText
  by_cases hneg : v < 0
  · rw [if_pos hneg, List.mem_cons, not_or]
    exact ⟨hminus, hdigits⟩
  · rw [if_neg hneg]
    exact hdigits

end

/-! ## Replies and their texts -/

/-- The line that a scalar is printed as. -/
def Scalar.line (fmt : Double → Bytes) : Scalar → Bytes
  | .nil => ascii "(nil)"
  | .err code msg => ascii "(err) " ++ (intText (toI32 code) ++ 32 :: cstr msg)
  | .str s => ascii "(str) " ++ cstr s
  | .int v => ascii "(int) " ++ intText (v.bmod (2 ^ 64))
  | .dbl d => ascii "(dbl) " ++ fmt d

/-- The lines that a reply is printed as. -/
def Value.lines (fmt : Double → Bytes) : Value → List Bytes
  | .scalar s => [s.line fmt]
  | .arr elems =>
    (ascii "(arr) len=" ++ natText elems.length) ::
      (elems.map (Scalar.line fmt) ++ [ascii "(arr) end"])

/-- The text of a reply. -/
def Value.text (fmt : Double → Bytes) (v : Value) : Bytes := unlines 10 (v.lines fmt)

/-- Scalars that are the same but for what is not printed: what comes after a
    zero byte, and the digits that `%g` leaves out. -/
def Scalar.LooksLike (fmt : Double → Bytes) : Scalar → Scalar → Prop
  | .nil, .nil => True
  | .err code msg, .err code' msg' => toI32 code = toI32 code' ∧ cstr msg = cstr msg'
  | .str s, .str s' => cstr s = cstr s'
  | .int v, .int v' => v.bmod (2 ^ 64) = v'.bmod (2 ^ 64)
  | .dbl d, .dbl d' => fmt d = fmt d'
  | _, _ => False

/-- Replies that are the same but for that. -/
def Value.LooksLike (fmt : Double → Bytes) : Value → Value → Prop
  | .scalar s, .scalar s' => s.LooksLike fmt s'
  | .arr elems, .arr elems' => List.Forall₂ (Scalar.LooksLike fmt) elems elems'
  | _, _ => False

/-- No newline is printed in the scalar. -/
def Scalar.OneLine : Scalar → Prop
  | .err _ msg => 10 ∉ cstr msg
  | .str s => 10 ∉ cstr s
  | _ => True

/-- No newline is printed in any part of the reply. -/
def Value.OneLine : Value → Prop
  | .scalar s => s.OneLine
  | .arr elems => ∀ s ∈ elems, s.OneLine

section

variable {fmt : Double → Bytes} {s s' : Scalar} {v v' : Value}

theorem toI32_mod (n : Nat) : toI32 (n % 2 ^ 32) = toI32 n := by
  rw [toI32, toI32, Nat.mod_mod]

theorem toI64_le64 (v : Int) : toI64 (le64 v) = v.bmod (2 ^ 64) := by
  have hnat : ((v % 2 ^ 64).toNat : Int) = v % ((2 ^ 64 : Nat) : Int) := by omega
  unfold toI64 le64
  rw [leNat_leBytes_of_lt (by omega), hnat, Int.emod_bmod]

theorem toDouble_leDouble (d : Double) : toDouble (leDouble d) = d := by
  have hlt := d.bits.toNat_lt
  rw [toDouble, leDouble, leNat_leBytes_of_lt (by omega), UInt64.ofNat_toNat]

/-- A scalar is printed as its line. -/
theorem Scalar.prints (h : s.encode.length < 2 ^ 31) : Prints fmt s.encode (s.line fmt ++ [10]) := by
  cases s with
  | nil => exact .nil
  | err code msg =>
      have henc : (Scalar.err code msg).encode =
          tagErr :: (le32 code ++ (le32 msg.length ++ msg)) := by
        simp only [Scalar.encode, outErr, List.append_assoc, List.nil_append, List.cons_append]
      rw [henc] at h ⊢
      simp only [List.length_cons, List.length_append] at h
      have hshow := @Prints.err fmt (le32 code) msg (length_le32 _) (by omega)
      have hcode : toI32 (leNat (le32 code)) = toI32 code := by
        rw [le32, leNat_leBytes]
        exact toI32_mod code
      rw [hcode] at hshow
      rw [Scalar.line, ← List.append_assoc]
      exact hshow
  | str s =>
      have henc : (Scalar.str s).encode = tagStr :: (le32 s.length ++ s) := by
        simp only [Scalar.encode, outStr, List.nil_append, List.cons_append]
      rw [henc] at h ⊢
      simp only [List.length_cons, List.length_append] at h
      exact Prints.str s (by omega)
  | int v =>
      have hshow := @Prints.int fmt (le64 v) (length_le64 v)
      rw [toI64_le64] at hshow
      exact hshow
  | dbl d =>
      have hshow := @Prints.dbl fmt (leDouble d) (length_leDouble d)
      rw [toDouble_leDouble] at hshow
      exact hshow

/-- A reply is printed as its text. -/
theorem Value.prints (h : v.encode.length < 2 ^ 31) : Prints fmt v.encode (v.text fmt) := by
  cases v with
  | scalar s =>
      rw [Value.text, Value.lines, unlines_cons, unlines_nil]
      exact s.prints h
  | arr elems =>
      have hle := length_le_encodeAll elems
      rw [Value.encode, List.length_append, length_outArr] at h
      have hall := @Prints.arr fmt (elems.map fun s => (s.encode, s.line fmt ++ [10]))
        (by rw [List.length_map]; omega) fun x hx => by
          rcases List.mem_map.mp hx with ⟨s, hs, rfl⟩
          have hshort := length_le_flatten (List.mem_map_of_mem (f := Scalar.encode) hs)
          rw [← List.flatMap_def, ← encodeAll] at hshort
          exact s.prints (by omega)
      rw [List.length_map, List.map_map, List.map_map] at hall
      have htext : (Value.arr elems).text fmt = ascii "(arr) len=" ++ natText elems.length ++ [10] ++
          (elems.map fun s => s.line fmt ++ [10]).flatten ++ ascii "(arr) end\n" := by
        have hend : ascii "(arr) end\n" = unlines 10 [ascii "(arr) end"] := by decide
        rw [Value.text, Value.lines, unlines_cons, unlines_append, hend, unlines, List.flatMap_map,
          List.flatMap_def]
        simp only [List.append_assoc, List.cons_append, List.nil_append]
      rw [htext, Value.encode, encodeAll, List.flatMap_def]
      exact hall

/-- The two parts of a frame, as `read_full` stores them. -/
theorem readFull_frame {payload rest : Bytes} {rs : List SockRead} (hrs : Delivering rs)
    (hbytes : rs.flatMap SockRead.bytes = responseFrame payload ++ rest) :
    ∃ rs₁ rs₂, readFull rs 4 [] = (0, le32 payload.length, rs₁) ∧
      readFull rs₁ payload.length [] = (0, payload, rs₂) := by
  have hframe : rs.flatMap SockRead.bytes = le32 payload.length ++ (payload ++ rest) := by
    rw [hbytes, responseFrame, List.append_assoc]
  rcases readFull_full rs [] 4 [] hrs (by rw [hframe, List.length_append, length_le32]; omega) with
    ⟨rs₁, hhead, hrs₁, hrest₁⟩
  rw [hframe, List.take_left' (length_le32 _), List.nil_append, List.append_nil,
    List.append_nil] at hhead
  rw [hframe, List.drop_left' (length_le32 _)] at hrest₁
  rcases readFull_full rs₁ [] payload.length [] hrs₁
    (by rw [hrest₁, List.length_append]; omega) with ⟨rs₂, hbody, _⟩
  rw [hrest₁, List.take_left, List.nil_append, List.append_nil, List.append_nil] at hbody
  exact ⟨rs₁, rs₂, hhead, hbody⟩

/-- The client prints the reply it was sent, however it arrives. -/
theorem readResponseText_frame (hv : v.encode.length ≤ kMaxMsg) {rs : List SockRead} {rest : Bytes}
    (hrs : Delivering rs) (hbytes : rs.flatMap SockRead.bytes = responseFrame v.encode ++ rest) :
    readResponseText fmt rs = .ok (v.encode.length, v.text fmt) := by
  have hlt : v.encode.length < 2 ^ 32 := Nat.lt_of_le_of_lt hv (by decide)
  have hsmall : v.encode.length < 2 ^ 31 := Nat.lt_of_le_of_lt hv (by decide)
  rcases readFull_frame hrs hbytes with ⟨rs₁, rs₂, hhead, hbody⟩
  have hshow : Prints fmt v.encode (v.text fmt) := v.prints hsmall
  have hprint := printResponseTextLoop_prints hshow (Nat.lt_succ_self _) []
    (by rw [List.append_nil]; exact hsmall)
  rw [List.append_nil, ← printResponseText] at hprint
  simp only [readResponseText, hhead, zeroFill_full (length_le32 _), leNat_le32 hlt, hbody,
    zeroFill_full, hprint, ok_bind]
  rw [if_neg (by decide), if_neg (Nat.not_lt.mpr hv), if_neg (by decide), if_neg]
  rintro ⟨_, hne⟩
  exact hne rfl

/-! ## Replies that look the same -/

/-- The first four bytes of a line. -/
def Scalar.word : Scalar → Bytes
  | .nil => ascii "(nil"
  | .err _ _ => ascii "(err"
  | .str _ => ascii "(str"
  | .int _ => ascii "(int"
  | .dbl _ => ascii "(dbl"

theorem take_line (fmt : Double → Bytes) (s : Scalar) : (s.line fmt).take 4 = s.word := by
  cases s <;> rfl

/-- Two scalars are printed alike when they are the same but for what is not
    printed. -/
theorem line_eq_iff : s.line fmt = s'.line fmt ↔ s.LooksLike fmt s' := by
  -- the first four bytes of a line tell the kinds of values apart
  have hword : s.word ≠ s'.word → s.line fmt ≠ s'.line fmt := by
    intro hne h
    rw [← take_line fmt s, h, take_line] at hne
    exact hne rfl
  cases s with
  | nil =>
      cases s' with
      | nil => exact ⟨fun _ => True.intro, fun _ => rfl⟩
      | _ => exact iff_of_false (hword (by simp only [Scalar.word]; decide)) id
  | err code msg =>
      cases s' with
      | err code' msg' =>
          simp only [Scalar.line, List.append_cancel_left_eq]
          -- a space ends the number
          rw [append_stop_inj (not_mem_intText (by decide) (by decide))
            (not_mem_intText (by decide) (by decide)), intText_inj]
          exact Iff.rfl
      | _ => exact iff_of_false (hword (by simp only [Scalar.word]; decide)) id
  | str s =>
      cases s' with
      | str s' =>
          simp only [Scalar.line, List.append_cancel_left_eq]
          exact Iff.rfl
      | _ => exact iff_of_false (hword (by simp only [Scalar.word]; decide)) id
  | int v =>
      cases s' with
      | int v' =>
          simp only [Scalar.line, List.append_cancel_left_eq, intText_inj]
          exact Iff.rfl
      | _ => exact iff_of_false (hword (by simp only [Scalar.word]; decide)) id
  | dbl d =>
      cases s' with
      | dbl d' =>
          simp only [Scalar.line, List.append_cancel_left_eq]
          exact Iff.rfl
      | _ => exact iff_of_false (hword (by simp only [Scalar.word]; decide)) id

theorem lines_eq_iff : v.lines fmt = v'.lines fmt ↔ v.LooksLike fmt v' := by
  cases v with
  | scalar s =>
      cases v' with
      | scalar s' =>
          simp only [Value.lines, List.cons.injEq, and_true]
          exact line_eq_iff
      | arr elems' =>
          refine iff_of_false (fun h => ?_) id
          have hlen := congrArg List.length h
          simp only [Value.lines, List.length_cons, List.length_append, List.length_nil] at hlen
          omega
  | arr elems =>
      cases v' with
      | scalar s' =>
          refine iff_of_false (fun h => ?_) id
          have hlen := congrArg List.length h
          simp only [Value.lines, List.length_cons, List.length_append, List.length_nil] at hlen
          omega
      | arr elems' =>
          have helems : elems.map (Scalar.line fmt) = elems'.map (Scalar.line fmt) ↔
              List.Forall₂ (Scalar.LooksLike fmt) elems elems' := by
            rw [← List.forall₂_eq_eq_eq, List.forall₂_map_left_iff, List.forall₂_map_right_iff]
            simp only [line_eq_iff]
          simp only [Value.lines, List.cons.injEq, List.append_cancel_right_eq, helems]
          refine ⟨And.right, fun h => ⟨?_, h⟩⟩
          rw [h.length_eq]

/-- No line of a reply has a newline in it. -/
theorem newline_not_mem (hfmt : ∀ d, 10 ∉ fmt d) (h : v.OneLine) : ∀ l ∈ v.lines fmt, 10 ∉ l := by
  have hline : ∀ s : Scalar, s.OneLine → 10 ∉ s.line fmt := by
    intro s hs
    cases s with
    | nil =>
        rw [Scalar.line]
        decide
    | err code msg =>
        rw [Scalar.line, List.mem_append, List.mem_append, List.mem_cons, not_or, not_or, not_or]
        exact ⟨by decide, not_mem_intText (by decide) (by decide), by decide, hs⟩
    | str s =>
        rw [Scalar.line, List.mem_append, not_or]
        exact ⟨by decide, hs⟩
    | int v =>
        rw [Scalar.line, List.mem_append, not_or]
        exact ⟨by decide, not_mem_intText (by decide) (by decide)⟩
    | dbl d =>
        rw [Scalar.line, List.mem_append, not_or]
        exact ⟨by decide, hfmt d⟩
  intro l hl
  cases v with
  | scalar s =>
      rw [Value.lines, List.mem_singleton] at hl
      rw [hl]
      exact hline s h
  | arr elems =>
      rw [Value.lines, List.mem_cons, List.mem_append, List.mem_singleton] at hl
      rcases hl with rfl | hl | rfl
      · rw [List.mem_append, not_or]
        exact ⟨by decide, fun hd => absurd ((natText_spec elems.length).2.1 10 hd) (by decide)⟩
      · rcases List.mem_map.mp hl with ⟨s, hs, rfl⟩
        exact hline s (h s hs)
      · decide

/-- Replies without newlines have the same text when they are the same but for
    what is not printed. -/
theorem text_eq_iff (hfmt : ∀ d, 10 ∉ fmt d) (h : v.OneLine) (h' : v'.OneLine) :
    v.text fmt = v'.text fmt ↔ v.LooksLike fmt v' := by
  rw [← lines_eq_iff]
  refine ⟨fun heq => ?_, fun heq => by rw [Value.text, heq, Value.text]⟩
  exact unlines_inj (newline_not_mem hfmt h) (newline_not_mem hfmt h') heq

end

/-- However two replies arrive, the client prints the text of each and returns
    its length. If no newline is printed in a string or a number, the texts are
    equal exactly when the replies are the same but for what comes after a zero
    byte in a string and for the digits that `%g` leaves out. -/
theorem shown_iff (fmt : Double → Bytes) (v v' : Value) (hv : v.encode.length ≤ kMaxMsg)
    (hv' : v'.encode.length ≤ kMaxMsg) (rs rs' : List SockRead) (hrs : Delivering rs)
    (hrs' : Delivering rs') (rest rest' : Bytes)
    (hbytes : rs.flatMap SockRead.bytes = responseFrame v.encode ++ rest)
    (hbytes' : rs'.flatMap SockRead.bytes = responseFrame v'.encode ++ rest') :
    readResponseText fmt rs = .ok (v.encode.length, v.text fmt) ∧
      readResponseText fmt rs' = .ok (v'.encode.length, v'.text fmt) ∧
      ((∀ d, 10 ∉ fmt d) → v.OneLine → v'.OneLine →
        (v.text fmt = v'.text fmt ↔ v.LooksLike fmt v')) :=
  ⟨readResponseText_frame hv hrs hbytes, readResponseText_frame hv' hrs' hbytes',
    fun hfmt hone hone' => text_eq_iff hfmt hone hone'⟩

/-- `%g` on the number two, and on zero. -/
def printsTwo (d : Double) : Bytes :=
  if d.bits = 0x4000000000000000 then ascii "2" else ascii "0"

/-- A page with one member. -/
def pageOf (name : Bytes) : Value := .arr [.str name, .dbl ⟨0x4000000000000000⟩]

/-- What the test of the commands expects of such a page. -/
example : (pageOf (ascii "n2")).text printsTwo =
    ascii "(arr) len=2\n(str) n2\n(dbl) 2\n(arr) end\n" := by decide +kernel

/-- Two names that differ after a zero byte. -/
theorem shown_iff_page :
    readResponseText printsTwo [.data (responseFrame (pageOf [110, 50]).encode)] =
        .ok ((pageOf [110, 50]).encode.length, (pageOf [110, 50]).text printsTwo) ∧
      readResponseText printsTwo [.data (responseFrame (pageOf [110, 50, 0, 7]).encode)] =
        .ok ((pageOf [110, 50, 0, 7]).encode.length, (pageOf [110, 50, 0, 7]).text printsTwo) ∧
      ((pageOf [110, 50]).text printsTwo = (pageOf [110, 50, 0, 7]).text printsTwo ↔
        (pageOf [110, 50]).LooksLike printsTwo (pageOf [110, 50, 0, 7])) := by
  have hone : ∀ name : Bytes, 10 ∉ cstr name → (pageOf name).OneLine := by
    intro name hname s hs
    simp only [List.mem_cons, List.not_mem_nil, or_false] at hs
    rcases hs with rfl | rfl
    · exact hname
    · exact True.intro
  have hfmt : ∀ d, 10 ∉ printsTwo d := by
    intro d
    unfold printsTwo
    split <;> decide
  rcases shown_iff printsTwo (pageOf [110, 50]) (pageOf [110, 50, 0, 7]) (by decide) (by decide)
    [.data (responseFrame (pageOf [110, 50]).encode)]
    [.data (responseFrame (pageOf [110, 50, 0, 7]).encode)]
    (fun r hr => Or.inr ⟨_, _, List.mem_singleton.mp hr⟩)
    (fun r hr => Or.inr ⟨_, _, List.mem_singleton.mp hr⟩) [] [] rfl rfl with ⟨h, h', hiff⟩
  exact ⟨h, h', hiff hfmt (hone _ (by decide)) (hone _ (by decide))⟩

/-- What is printed of any buffer within the limit in which no length wraps, with
    arrays nested to any depth: the client returns something else than `-1`
    exactly when the buffer starts with a value, and then it returns the length
    of that value and has printed its text. -/
theorem printed_iff (fmt : Double → Bytes) (data : Bytes) (hsize : data.length ≤ kMaxMsg)
    (hno : ∀ d, Visits data d → ¬ Wraps d) (n : Int) (t : Bytes) :
    (printResponseText fmt data = .ok (n, t) ∧ n ≠ -1) ↔
      ∃ v rest, data = v ++ rest ∧ Prints fmt v t ∧ n = v.length := by
  have hlen : data.length < 2 ^ 31 := Nat.lt_of_le_of_lt hsize (by decide)
  constructor
  · intro h
    exact printResponseText_sound hlen hno h.1 h.2
  · intro h
    rcases h with ⟨v, rest, rfl, hv, rfl⟩
    refine ⟨printResponseTextLoop_prints hv ?_ rest hlen, by omega⟩
    rw [List.length_append]
    omega

theorem printed_iff_page :
    (printResponseText printsTwo (pageOf (ascii "n2")).encode =
        .ok (21, ascii "(arr) len=2\n(str) n2\n(dbl) 2\n(arr) end\n") ∧ (21 : Int) ≠ -1) ↔
      ∃ v rest, (pageOf (ascii "n2")).encode = v ++ rest ∧
        Prints printsTwo v (ascii "(arr) len=2\n(str) n2\n(dbl) 2\n(arr) end\n") ∧
        (21 : Int) = v.length := by
  refine printed_iff printsTwo _ (by decide) (fun d hd => ?_) 21 _
  -- the whole of a reply is a part of it with no zeros added
  refine cutAt_value_exact (pageOf (ascii "n2")) (by decide) 21 0 ?_
  exact hd

end RedisServer
