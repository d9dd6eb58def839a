import RedisServer.Core.Client
import RedisServer.Theory.Protocol.Response

/-!
# The Decoder on Any Bytes

What `print_response` does with a buffer that nobody vouches for. A value is
described by its bytes, nested to any depth, and the decoder is to return the
length of the value a buffer starts with, or `-1` when it starts with none.

The length of a string is added to the size of its header in 32 bits. A length
just below `2 ^ 32` wraps to a few bytes, passes the test against the size of
the buffer and is handed to `printf`, which takes it for no limit at all. The
decoder does what it is to do as long as it comes to no such string.

## Main definitions

* `IsValue`: The bytes of a value.
* `Visits`: The buffers that the decoder is called with.
* `Wraps`: A buffer starts with a length that wraps.
* `DecoderOk`: What the decoder is to do.

## Theorems

* `printResponseLoop_value`: A value is decoded to its end.
* `printResponseLoop_sound`: What is decoded is a value.
* `decoder_iff`: The buffers that are decoded as they are to be.
* `decoder_overrun`: A buffer that is left.
-/

namespace RedisServer

open Lib

/-- The bytes of one value. Lengths are 32-bit numbers, and an array holds the
    values of its elements in a row. -/
inductive IsValue : Bytes → Prop
  | nil : IsValue [tagNil]
  | err (code msg : Bytes) : code.length = 4 → msg.length < 2 ^ 32 →
      IsValue (tagErr :: (code ++ (le32 msg.length ++ msg)))
  | str (s : Bytes) : s.length < 2 ^ 32 → IsValue (tagStr :: (le32 s.length ++ s))
  | int (v : Bytes) : v.length = 8 → IsValue (tagInt :: v)
  | dbl (v : Bytes) : v.length = 8 → IsValue (tagDbl :: v)
  | arr (elems : List Bytes) : elems.length < 2 ^ 32 → (∀ e ∈ elems, IsValue e) →
      IsValue (outArr [] elems.length ++ elems.flatten)

/-- A buffer starts with a value of this many bytes. -/
def StartsWith (data : Bytes) (n : Nat) : Prop :=
  ∃ v rest, data = v ++ rest ∧ IsValue v ∧ v.length = n

/-- The decoder is called with the buffer itself and, when it starts with the
    header of an array, with what comes after any of the first elements, as
    long as these are values and not all of them. -/
inductive Visits : Bytes → Bytes → Prop
  | here (data : Bytes) : Visits data data
  | elem (n : Nat) (elems : List Bytes) (rest d : Bytes) : elems.length < n → n < 2 ^ 32 →
      (∀ e ∈ elems, IsValue e) → Visits rest d →
      Visits (outArr [] n ++ (elems.flatten ++ rest)) d

/-- The buffer starts with an error or a string whose length, added to the size
    of the header, is `2 ^ 32` or more. -/
def Wraps (data : Bytes) : Prop :=
  (data.head? = some tagErr ∧ 9 ≤ data.length ∧
    2 ^ 32 ≤ 9 + leNat ((data.drop 5).take 4)) ∨
  (data.head? = some tagStr ∧ 5 ≤ data.length ∧
    2 ^ 32 ≤ 5 + leNat ((data.drop 1).take 4))

/-- The decoder stays in the buffer and returns `-1` or the exact length of the
    value at its start, and a positive number when there is one. -/
def DecoderOk (data : Bytes) : Prop :=
  ∃ r, printResponse data = .ok r ∧
    (r = -1 ∨ ∃ n : Nat, r = n ∧ 1 ≤ n ∧ n ≤ data.length ∧ StartsWith data n) ∧
    (0 < r ↔ ∃ n, StartsWith data n)

/-! ## Words and lengths -/

theorem toI32_of_lt {n : Nat} (h : n < 2 ^ 31) : toI32 n = n := by
  unfold toI32
  omega

theorem printfStr_ok {text : Bytes} {len : Nat} (hlen : len < 2 ^ 31) (h : len ≤ text.length) :
    printfStr text len = .ok () := by
  rw [printfStr, toI32_of_lt hlen, if_pos (Int.natCast_nonneg _), if_pos (Or.inl h)]

/-- The word after a prefix. -/
theorem word_after {p : Bytes} {n : Nat} (hn : n < 2 ^ 32) (rest : Bytes) {i : Nat}
    (hi : p.length = i) : leNat (((p ++ (le32 n ++ rest)).drop i).take 4) = n := by
  rw [List.drop_left' hi, List.take_left' (length_le32 n), leNat_le32 hn]

theorem length_outArr (n : Nat) : (outArr [] n).length = 5 := by
  simp only [outArr, List.length_append, List.length_cons, List.length_nil, length_le32]

variable {v data rest : Bytes} {fuel : Nat}

/-! ## One call -/

/-- The common end of the two cases with a length: the test against the size of
    the buffer, the text and the return value. -/
def strItem (data : Bytes) (header len : Nat) : Result Int :=
  if data.length < (header + len) % 2 ^ 32 then .ok (-1)
  else do
    printfStr (data.drop header) len
    .ok (toI32 (header + len))

theorem loop_err (tail : Bytes) : printResponseLoop (fuel + 1) (tagErr :: tail) =
    if (tagErr :: tail).length < 9 then .ok (-1)
    else strItem (tagErr :: tail) 9 (leNat (((tagErr :: tail).drop 5).take 4)) := by
  rw [printResponseLoop, if_neg (by decide), if_pos rfl]
  rfl

theorem loop_str (tail : Bytes) : printResponseLoop (fuel + 1) (tagStr :: tail) =
    if (tagStr :: tail).length < 5 then .ok (-1)
    else strItem (tagStr :: tail) 5 (leNat (((tagStr :: tail).drop 1).take 4)) := by
  rw [printResponseLoop, if_neg (by decide), if_neg (by decide), if_pos rfl]
  rfl

theorem loop_int (tail : Bytes) : printResponseLoop (fuel + 1) (tagInt :: tail) =
    if (tagInt :: tail).length < 9 then .ok (-1) else .ok 9 := by
  rw [printResponseLoop, if_neg (by decide), if_neg (by decide), if_neg (by decide), if_pos rfl]

theorem loop_dbl (tail : Bytes) : printResponseLoop (fuel + 1) (tagDbl :: tail) =
    if (tagDbl :: tail).length < 9 then .ok (-1) else .ok 9 := by
  rw [printResponseLoop, if_neg (by decide), if_neg (by decide), if_neg (by decide),
    if_neg (by decide), if_pos rfl]

theorem loop_arr (tail : Bytes) : printResponseLoop (fuel + 1) (tagArr :: tail) =
    if (tagArr :: tail).length < 5 then .ok (-1)
    else printElems (printResponseLoop fuel) (tagArr :: tail)
      (leNat (((tagArr :: tail).drop 1).take 4)) 5 := by
  rw [printResponseLoop, if_neg (by decide), if_neg (by decide), if_neg (by decide),
    if_neg (by decide), if_neg (by decide), if_pos rfl]

theorem loop_other {tag : UInt8} (tail : Bytes) (h : tag ∉ [tagNil, tagErr, tagStr, tagInt, tagDbl,
    tagArr]) : printResponseLoop (fuel + 1) (tag :: tail) = .ok (-1) := by
  simp only [List.mem_cons, List.not_mem_nil, or_false, not_or] at h
  rcases h with ⟨hnil, herr, hstr, hint, hdbl, harr⟩
  rw [printResponseLoop, if_neg hnil, if_neg herr, if_neg hstr, if_neg hint, if_neg hdbl,
    if_neg harr]

-- Without a wrap the test is exact, and `printf` stays in the text.
theorem strItem_exact (data : Bytes) (header len : Nat) (hdata : data.length < 2 ^ 31)
    (hlen : header + len < 2 ^ 32) :
    strItem data header len = if data.length < header + len then .ok (-1)
      else .ok ((header + len : Nat) : Int) := by
  unfold strItem
  rw [Nat.mod_eq_of_lt hlen]
  by_cases hshort : data.length < header + len
  · rw [if_pos hshort, if_pos hshort]
  · have htext : len ≤ (data.drop header).length := by
      rw [List.length_drop]
      omega
    rw [if_neg hshort, if_neg hshort, printfStr_ok (by omega) htext, ok_bind,
      toI32_of_lt (by omega)]

-- With a wrap the test passes, and the result is neither an error nor the
-- length of an item.
theorem strItem_wrapped {header len : Nat} (hheader : header ≤ data.length) (hsmall : header ≤ 9)
    (hlen : len < 2 ^ 32) (hwrap : 2 ^ 32 ≤ header + len) {r : Int}
    (h : strItem data header len = .ok r) : 0 ≤ r ∧ r < header := by
  unfold strItem at h
  rw [if_neg (by omega)] at h
  rcases bind_eq_ok.mp h with ⟨_, _, h⟩
  rw [Except.ok.injEq] at h
  unfold toI32 at h
  rw [if_pos (by omega)] at h
  omega

/-! ## Values are decoded -/

theorem IsValue.length_pos (h : IsValue v) : 0 < v.length := by
  cases h with
  | nil => exact Nat.zero_lt_one
  | err code msg _ _ => exact Nat.succ_pos _
  | str s _ => exact Nat.succ_pos _
  | int v _ => exact Nat.succ_pos _
  | dbl v _ => exact Nat.succ_pos _
  | arr elems _ _ =>
      rw [List.length_append, length_outArr]
      omega

theorem length_le_flatten {elems : List Bytes} {e : Bytes} (h : e ∈ elems) :
    e.length ≤ elems.flatten.length := (List.sublist_flatten_of_mem h).length_le

/-- The elements of an array, when each of them is decoded to its end. -/
theorem printElems_values (elem : Bytes → Result Int) (elems : List Bytes) (pre rest : Bytes)
    (helem : ∀ e ∈ elems, ∀ rest : Bytes, (e ++ rest).length < 2 ^ 31 →
      elem (e ++ rest) = .ok e.length)
    (hlen : (pre ++ (elems.flatten ++ rest)).length < 2 ^ 31) :
    printElems elem (pre ++ (elems.flatten ++ rest)) elems.length pre.length =
      .ok (pre ++ elems.flatten).length := by
  induction elems generalizing pre with
  | nil =>
      rw [List.flatten_nil, List.append_nil]
      rw [List.length_append] at hlen
      rw [List.length_nil, printElems, toI32_of_lt (by omega)]
  | cons e elems ih =>
      have hrest := ih (pre ++ e) fun e' he' => helem e' (List.mem_cons_of_mem e he')
      simp only [List.flatten_cons, List.append_assoc] at hlen hrest ⊢
      have hfirst := helem e List.mem_cons_self (elems.flatten ++ rest) (by
        rw [List.length_append] at hlen
        omega)
      rw [List.length_cons, printElems, List.drop_left, hfirst, ok_bind, if_neg (by omega),
        Int.toNat_natCast, ← List.length_append]
      exact hrest hlen

-- Each nested array is shorter than the one around it, so the fuel is enough.
theorem printResponseLoop_value (h : IsValue v) (hfuel : v.length < fuel) (rest : Bytes)
    (hlen : (v ++ rest).length < 2 ^ 31) : printResponseLoop fuel (v ++ rest) = .ok v.length := by
  -- one case per tag, each reading the header the encoder wrote
  induction h generalizing fuel rest with
  | nil =>
      cases fuel with
      | zero => exact absurd hfuel (Nat.not_lt_zero _)
      | succ fuel => rfl
  | err code msg hcode hmsg =>
      cases fuel with
      | zero => exact absurd hfuel (Nat.not_lt_zero _)
      | succ fuel =>
          have hword := word_after (p := tagErr :: code) hmsg (msg ++ rest) (i := 5)
            (by rw [List.length_cons, hcode])
          have hsize : (tagErr :: (code ++ (le32 msg.length ++ (msg ++ rest)))).length =
              9 + msg.length + rest.length := by
            simp only [List.length_cons, List.length_append, hcode, length_le32]
            omega
          simp only [List.cons_append, List.append_assoc] at hlen hword ⊢
          rw [hsize] at hlen
          have hitem := strItem_exact (tagErr :: (code ++ (le32 msg.length ++ (msg ++ rest)))) 9
            msg.length (by omega) (by omega)
          rw [loop_err, hword, hitem, hsize, if_neg (by omega), if_neg (by omega)]
          simp only [List.length_cons, List.length_append, hcode, length_le32]
          congr 1
          omega
  | str s hs =>
      cases fuel with
      | zero => exact absurd hfuel (Nat.not_lt_zero _)
      | succ fuel =>
          have hword := word_after (p := [tagStr]) hs (s ++ rest) (i := 1) rfl
          have hsize : (tagStr :: (le32 s.length ++ (s ++ rest))).length =
              5 + s.length + rest.length := by
            simp only [List.length_cons, List.length_append, length_le32]
            omega
          simp only [List.cons_append, List.nil_append, List.append_assoc] at hlen hword ⊢
          rw [hsize] at hlen
          have hitem := strItem_exact (tagStr :: (le32 s.length ++ (s ++ rest))) 5 s.length
            (by omega) (by omega)
          rw [loop_str, hword, hitem, hsize, if_neg (by omega), if_neg (by omega)]
          simp only [List.length_cons, List.length_append, length_le32]
          congr 1
          omega
  | int v hv =>
      cases fuel with
      | zero => exact absurd hfuel (Nat.not_lt_zero _)
      | succ fuel =>
          rw [List.cons_append, loop_int, if_neg (by rw [List.length_cons, List.length_append]; omega),
            List.length_cons, hv]
          rfl
  | dbl v hv =>
      cases fuel with
      | zero => exact absurd hfuel (Nat.not_lt_zero _)
      | succ fuel =>
          rw [List.cons_append, loop_dbl, if_neg (by rw [List.length_cons, List.length_append]; omega),
            List.length_cons, hv]
          rfl
  | arr elems hn _ ih =>
      cases fuel with
      | zero => exact absurd hfuel (Nat.not_lt_zero _)
      | succ fuel =>
          have hwidth := length_outArr elems.length
          -- an element is shorter than the array it is in, so its own call has fuel
          have hfuel' : ∀ e ∈ elems, e.length < fuel := by
            intro e he
            have hle := length_le_flatten he
            rw [List.length_append] at hfuel
            omega
          rw [List.append_assoc] at hlen ⊢
          have helems := printElems_values (printResponseLoop fuel) elems
            (outArr [] elems.length) rest (fun e he rest' => ih e he (hfuel' e he) rest') hlen
          have hword := word_after (p := [tagArr]) hn (elems.flatten ++ rest) (i := 1) rfl
          have hdata : outArr [] elems.length ++ (elems.flatten ++ rest) =
              tagArr :: (le32 elems.length ++ (elems.flatten ++ rest)) := rfl
          rw [hwidth] at helems
          rw [List.length_append, hwidth] at hlen
          rw [hdata] at helems ⊢
          rw [List.singleton_append] at hword
          rw [loop_arr, hword, if_neg, helems]
          rw [← hdata, List.length_append, hwidth]
          omega

/-! ## What is decoded is a value -/

/-- A call returns `-1`, or the length of the value the buffer starts with. -/
def Decodes (elem : Bytes → Result Int) (data : Bytes) : Prop :=
  elem data = .ok (-1) ∨
    ∃ v rest, data = v ++ rest ∧ IsValue v ∧ elem data = .ok v.length

/-- The elements of an array: one that is no value ends the loop, and otherwise
    all of them are values. -/
theorem printElems_sound {elem : Bytes → Result Int} (n : Nat) (pre rest : Bytes)
    (helem : ∀ (more : List Bytes) (rest' : Bytes), rest = more.flatten ++ rest' → more.length < n →
      (∀ e ∈ more, IsValue e) → Decodes elem rest')
    (hlen : (pre ++ rest).length < 2 ^ 31) :
    printElems elem (pre ++ rest) n pre.length = .ok (-1) ∨
      ∃ (more : List Bytes) (rest' : Bytes), more.length = n ∧ (∀ e ∈ more, IsValue e) ∧
        rest = more.flatten ++ rest' ∧
        printElems elem (pre ++ rest) n pre.length = .ok (pre ++ more.flatten).length := by
  -- the position is the length of what was read, with the elements so far in it
  induction n generalizing pre rest with
  | zero =>
      refine Or.inr ⟨[], rest, rfl, fun e he => absurd he List.not_mem_nil, rfl, ?_⟩
      rw [List.length_append] at hlen
      rw [printElems, toI32_of_lt (by omega), List.flatten_nil, List.append_nil]
  | succ n ih =>
      unfold printElems
      rw [List.drop_left]
      rcases helem [] rest rfl (Nat.succ_pos n) (fun e he => absurd he List.not_mem_nil) with
        hbad | ⟨v, tail, hrest, hv, hrun⟩
      · left
        rw [hbad, ok_bind, if_pos (by decide)]
      · rw [hrun, ok_bind, if_neg (by omega), Int.toNat_natCast, ← List.length_append]
        subst hrest
        rw [← List.append_assoc] at hlen ⊢
        rcases ih (pre ++ v) tail (fun more rest' hmore hlt hvals => helem (v :: more) rest'
          (by rw [hmore, List.flatten_cons, List.append_assoc]) (Nat.succ_lt_succ hlt)
          (fun e he => (List.mem_cons.mp he).elim (fun h => h ▸ hv) (hvals e))) hlen with
          hbad | ⟨more, rest', hcount, hvals, hsplit, hrun'⟩
        · exact Or.inl hbad
        · refine Or.inr ⟨v :: more, rest', by rw [List.length_cons, hcount], fun e he => ?_, ?_, ?_⟩
          · rcases List.mem_cons.mp he with rfl | he
            · exact hv
            · exact hvals e he
          · rw [hsplit, List.flatten_cons, List.append_assoc]
          · rw [hrun', List.flatten_cons, List.append_assoc]

-- A word of the buffer is a 32-bit number.
theorem word_lt (data : Bytes) (i : Nat) : leNat ((data.drop i).take 4) < 2 ^ 32 := by
  have hlt := leNat_lt ((data.drop i).take 4)
  have hle : ((data.drop i).take 4).length ≤ 4 := List.length_take_le 4 _
  exact Nat.lt_of_lt_of_le hlt (Nat.pow_le_pow_right (by decide) hle)

/-- The text of a string or of an error comes after the word with its length. -/
theorem strItem_sound {data : Bytes} {i : Nat} (hlen : data.length < 2 ^ 31)
    (hlong : i + 4 ≤ data.length) (hfit : i + 4 + leNat ((data.drop i).take 4) < 2 ^ 32) :
    strItem data (i + 4) (leNat ((data.drop i).take 4)) = .ok (-1) ∨
      ∃ s rest, data.drop i = le32 s.length ++ (s ++ rest) ∧ s.length < 2 ^ 32 ∧
        strItem data (i + 4) (leNat ((data.drop i).take 4)) =
          .ok ((i + 4 + s.length : Nat) : Int) := by
  rw [strItem_exact _ _ _ hlen hfit]
  have hsplit := drop_eq_word hlong
  obtain ⟨len, hword⟩ : ∃ len, len = leNat ((data.drop i).take 4) := ⟨_, rfl⟩
  rw [← hword] at hsplit hfit ⊢
  by_cases hend : data.length < i + 4 + len
  · exact Or.inl (if_pos hend)
  · right
    have hs : ((data.drop (i + 4)).take len).length = len := by
      rw [List.length_take, List.length_drop]
      omega
    refine ⟨(data.drop (i + 4)).take len, (data.drop (i + 4)).drop len, ?_, by omega, ?_⟩
    · rw [hs, List.take_append_drop]
      exact hsplit
    · rw [if_neg hend, hs]

theorem err_sound (tail : Bytes) (hlen : (tagErr :: tail).length < 2 ^ 31)
    (hno : ¬ Wraps (tagErr :: tail)) :
    Decodes (printResponseLoop (fuel + 1)) (tagErr :: tail) := by
  unfold Decodes
  rw [loop_err]
  by_cases hshort : (tagErr :: tail).length < 9
  · exact Or.inl (if_pos hshort)
  · rw [if_neg hshort]
    have hlong : 5 + 4 ≤ (tagErr :: tail).length := Nat.not_lt.mp hshort
    have hfit := Nat.lt_of_not_le fun hge => hno (Or.inl ⟨rfl, hlong, hge⟩)
    rcases strItem_sound hlen hlong hfit with hbad | ⟨msg, rest, hsplit, hmsg, hrun⟩
    · exact Or.inl hbad
    · -- The code is the four bytes between the tag and the length.
      have hcode : (tail.take 4).length = 4 := by
        rw [List.length_cons] at hlong
        rw [List.length_take]
        omega
      rw [List.drop_succ_cons] at hsplit
      refine Or.inr ⟨_, rest, ?_, IsValue.err (tail.take 4) msg hcode hmsg, ?_⟩
      · rw [List.cons_append, List.append_assoc, List.append_assoc, ← hsplit,
          List.take_append_drop]
      · refine hrun.trans ?_
        congr 2
        simp only [List.length_cons, List.length_append, hcode, length_le32]
        omega

theorem str_sound (tail : Bytes) (hlen : (tagStr :: tail).length < 2 ^ 31)
    (hno : ¬ Wraps (tagStr :: tail)) :
    Decodes (printResponseLoop (fuel + 1)) (tagStr :: tail) := by
  unfold Decodes
  rw [loop_str]
  by_cases hshort : (tagStr :: tail).length < 5
  · exact Or.inl (if_pos hshort)
  · rw [if_neg hshort]
    have hlong : 1 + 4 ≤ (tagStr :: tail).length := Nat.not_lt.mp hshort
    have hfit := Nat.lt_of_not_le fun hge => hno (Or.inr ⟨rfl, hlong, hge⟩)
    rcases strItem_sound hlen hlong hfit with hbad | ⟨text, rest, hsplit, htext, hrun⟩
    · exact Or.inl hbad
    · rw [List.drop_succ_cons, List.drop_zero] at hsplit
      refine Or.inr ⟨_, rest, ?_, IsValue.str text htext, ?_⟩
      · rw [List.cons_append, List.append_assoc, ← hsplit]
      · refine hrun.trans ?_
        congr 2
        simp only [List.length_cons, List.length_append, length_le32]
        omega

-- A number has eight bytes, of either kind.
theorem number_sound {tag : UInt8} (tail : Bytes)
    (hval : ∀ v : Bytes, v.length = 8 → IsValue (tag :: v))
    (hrun : printResponseLoop (fuel + 1) (tag :: tail) =
      if (tag :: tail).length < 9 then .ok (-1) else .ok 9) :
    Decodes (printResponseLoop (fuel + 1)) (tag :: tail) := by
  unfold Decodes
  rw [hrun]
  by_cases hshort : (tag :: tail).length < 9
  · exact Or.inl (if_pos hshort)
  · right
    rw [if_neg hshort]
    rw [List.length_cons] at hshort
    have hv : (tail.take 8).length = 8 := by
      rw [List.length_take]
      omega
    refine ⟨tag :: tail.take 8, tail.drop 8, ?_, hval _ hv, ?_⟩
    · rw [List.cons_append, List.take_append_drop]
    · rw [List.length_cons, hv]
      rfl

-- The elements are decoded by calls the decoder makes.
theorem arr_sound (tail : Bytes) (hlen : (tagArr :: tail).length < 2 ^ 31)
    (hcalls : ∀ d : Bytes, d.length < (tagArr :: tail).length →
      (∀ d', Visits d d' → Visits (tagArr :: tail) d') → Decodes (printResponseLoop fuel) d) :
    Decodes (printResponseLoop (fuel + 1)) (tagArr :: tail) := by
  unfold Decodes
  rw [loop_arr]
  by_cases hshort : (tagArr :: tail).length < 5
  · exact Or.inl (if_pos hshort)
  · rw [if_neg hshort]
    have hn := word_lt (tagArr :: tail) 1
    have hsplit : (tagArr :: tail).drop 1 =
        le32 (leNat (((tagArr :: tail).drop 1).take 4)) ++ (tagArr :: tail).drop 5 :=
      drop_eq_word (by omega)
    obtain ⟨n, hword⟩ : ∃ n, n = leNat (((tagArr :: tail).drop 1).take 4) := ⟨_, rfl⟩
    rw [← hword] at hn hsplit ⊢
    rw [List.drop_succ_cons, List.drop_zero, List.drop_succ_cons] at hsplit
    have hdata : tagArr :: tail = outArr [] n ++ tail.drop 4 := by
      have hhead : outArr [] n ++ tail.drop 4 = tagArr :: (le32 n ++ tail.drop 4) := rfl
      rw [hhead, ← hsplit]
    have hwidth := length_outArr n
    rw [hdata] at hlen hcalls ⊢
    -- the elements are decoded by the calls the header makes
    have helems := printElems_sound n (outArr [] n) (tail.drop 4)
      (fun more rest' hmore hlt hvals => hcalls rest' ?_ fun d' hd' => ?_) hlen
    · rw [hwidth] at helems
      rcases helems with hbad | ⟨more, rest', hcount, hvals, hmore, hrun⟩
      · exact Or.inl hbad
      · refine Or.inr ⟨outArr [] n ++ more.flatten, rest', ?_, ?_, hrun⟩
        · rw [hmore, List.append_assoc]
        · rw [← hcount] at hn ⊢
          exact IsValue.arr more hn hvals
    · rw [hmore, List.length_append, List.length_append, hwidth]
      omega
    · rw [hmore]
      exact Visits.elem n more rest' d' hlt hn hvals hd'

/-- Where no length wraps in any call, the decoder returns `-1` or the length
    of the value the buffer starts with. -/
theorem printResponseLoop_sound (hfuel : data.length < fuel) (hlen : data.length < 2 ^ 31)
    (hno : ∀ d, Visits data d → ¬ Wraps d) : Decodes (printResponseLoop fuel) data := by
  induction fuel generalizing data with
  | zero => exact absurd hfuel (Nat.not_lt_zero _)
  | succ fuel ih =>
      cases data with
      | nil => exact Or.inl rfl
      | cons tag tail =>
          -- the tags in the order the decoder tries them
          by_cases hnil : tag = tagNil
          · subst hnil
            exact Or.inr ⟨[tagNil], tail, rfl, IsValue.nil, rfl⟩
          by_cases herr : tag = tagErr
          · subst herr
            exact err_sound tail hlen (hno _ (Visits.here _))
          by_cases hstr : tag = tagStr
          · subst hstr
            exact str_sound tail hlen (hno _ (Visits.here _))
          by_cases hint : tag = tagInt
          · subst hint
            exact number_sound tail IsValue.int (loop_int tail)
          by_cases hdbl : tag = tagDbl
          · subst hdbl
            exact number_sound tail IsValue.dbl (loop_dbl tail)
          by_cases harr : tag = tagArr
          · subst harr
            exact arr_sound tail hlen fun d hd hvisits =>
              ih (by omega) (by omega) fun d' hd' => hno d' (hvisits d' hd')
          · refine Or.inl (loop_other tail ?_)
            simp only [List.mem_cons, List.not_mem_nil, or_false, not_or]
            exact ⟨hnil, herr, hstr, hint, hdbl, harr⟩

/-! ## The buffers that are decoded as they are to be -/

theorem Visits.length_le {d : Bytes} (h : Visits data d) : d.length ≤ data.length := by
  induction h with
  | here data => exact Nat.le_refl _
  | elem n elems rest d _ _ _ _ ih =>
      rw [List.length_append, List.length_append]
      omega

theorem Visits.trans {d d' : Bytes} (h : Visits data d) (h' : Visits d d') : Visits data d' := by
  induction h with
  | here data => exact h'
  | elem n elems rest d hlt hn hvals _ ih => exact Visits.elem n elems rest d' hlt hn hvals (ih h')

/-- The decoder returns the length of the value a buffer starts with, so there
    is one such length. -/
theorem printResponse_startsWith {n : Nat} (hlen : data.length < 2 ^ 31) (h : StartsWith data n) :
    printResponse data = .ok n := by
  rcases h with ⟨v, rest, rfl, hv, rfl⟩
  refine printResponseLoop_value hv ?_ rest hlen
  rw [List.length_append]
  omega

theorem decoderOk_of_exact (hlen : data.length < 2 ^ 31) (hno : ∀ d, Visits data d → ¬ Wraps d) :
    DecoderOk data := by
  rcases printResponseLoop_sound (Nat.lt_succ_self data.length) hlen hno with
    hrun | ⟨v, rest, hsplit, hv, hrun⟩
  · refine ⟨-1, hrun, Or.inl rfl, fun h => absurd h (by decide), fun h => ?_⟩
    rcases h with ⟨n, hn⟩
    have hrun' := printResponse_startsWith hlen hn
    have hsame : (-1 : Int) = n := Except.ok.inj (hrun.symm.trans hrun')
    omega
  · have hstarts : StartsWith data v.length := ⟨v, rest, hsplit, hv, rfl⟩
    have hpos := hv.length_pos
    refine ⟨v.length, hrun, Or.inr ⟨v.length, rfl, hpos, ?_, hstarts⟩,
      fun _ => ⟨v.length, hstarts⟩, fun _ => Int.natCast_pos.mpr hpos⟩
    rw [hsplit, List.length_append]
    omega

-- An error has nine bytes or more, and a string five.
theorem IsValue.header_le (h : IsValue v) :
    (v.head? = some tagErr → 9 ≤ v.length) ∧ (v.head? = some tagStr → 5 ≤ v.length) := by
  cases h with
  | nil => exact ⟨fun h => absurd h (by decide), fun h => absurd h (by decide)⟩
  | err code msg hcode _ =>
      have hlen : (tagErr :: (code ++ (le32 msg.length ++ msg))).length = 9 + msg.length := by
        simp only [List.length_cons, List.length_append, hcode, length_le32]
        omega
      exact ⟨fun _ => by omega, fun _ => by omega⟩
  | str s _ =>
      have hlen : (tagStr :: (le32 s.length ++ s)).length = 5 + s.length := by
        simp only [List.length_cons, List.length_append, length_le32]
        omega
      exact ⟨fun h => absurd (Option.some.inj h) (by decide), fun _ => by omega⟩
  | int v _ =>
      exact ⟨fun h => absurd (Option.some.inj h) (by decide),
        fun h => absurd (Option.some.inj h) (by decide)⟩
  | dbl v _ =>
      exact ⟨fun h => absurd (Option.some.inj h) (by decide),
        fun h => absurd (Option.some.inj h) (by decide)⟩
  | arr elems _ _ =>
      exact ⟨fun h => absurd (Option.some.inj h) (by decide),
        fun h => absurd (Option.some.inj h) (by decide)⟩

theorem StartsWith.head {n : Nat} (h : StartsWith data n) :
    (data.head? = some tagErr → 9 ≤ n) ∧ (data.head? = some tagStr → 5 ≤ n) := by
  rcases h with ⟨v, rest, rfl, hv, rfl⟩
  have hhead : (v ++ rest).head? = v.head? := by
    cases v with
    | nil => exact absurd hv.length_pos (Nat.lt_irrefl 0)
    | cons b v => rfl
  rw [hhead]
  exact hv.header_le

/-- A length that wraps is fatal: the decoder leaves the buffer, or returns
    fewer bytes than the header has. -/
theorem not_decoderOk_of_wraps (h : Wraps data) : ¬ DecoderOk data := by
  intro hok
  rcases hok with ⟨r, hrun, hres, _⟩
  cases data with
  | nil => rcases h with ⟨hhead, _⟩ | ⟨hhead, _⟩ <;> exact absurd hhead (by decide)
  | cons tag tail =>
      rcases h with ⟨hhead, hsize, hwrap⟩ | ⟨hhead, hsize, hwrap⟩
      · obtain rfl : tag = tagErr := Option.some.inj hhead
        rw [printResponse, loop_err, if_neg (Nat.not_lt.mpr hsize)] at hrun
        rcases strItem_wrapped hsize (Nat.le_refl 9) (word_lt _ 5) hwrap hrun with ⟨hpos, hlt⟩
        rcases hres with hres | ⟨n, hn, _, _, hstarts⟩
        · omega
        · have hle := hstarts.head.1 rfl
          omega
      · obtain rfl : tag = tagStr := Option.some.inj hhead
        rw [printResponse, loop_str, if_neg (Nat.not_lt.mpr hsize)] at hrun
        rcases strItem_wrapped hsize (by decide) (word_lt _ 1) hwrap hrun with ⟨hpos, hlt⟩
        rcases hres with hres | ⟨n, hn, _, _, hstarts⟩
        · omega
        · have hle := hstarts.head.2 rfl
          omega

/-- The decoder does what it is to do, in the call it gets and in all calls it
    makes, exactly when it comes to no length that wraps. -/
theorem decoder_iff (data : Bytes) (hsize : data.length ≤ kMaxMsg) :
    (∀ d, Visits data d → DecoderOk d) ↔ ∀ d, Visits data d → ¬ Wraps d := by
  constructor
  · intro hok d hd hwraps
    exact not_decoderOk_of_wraps hwraps (hok d hd)
  · intro hno d hd
    have hlen := Nat.le_trans hd.length_le hsize
    exact decoderOk_of_exact (Nat.lt_of_le_of_lt hlen (by decide))
      fun d' hd' => hno d' (hd.trans hd')

theorem decoder_iff_nested :
    (∀ d, Visits [5, 1, 0, 0, 0, 5, 1, 0, 0, 0, 0] d → DecoderOk d) ↔
      ∀ d, Visits [5, 1, 0, 0, 0, 5, 1, 0, 0, 0, 0] d → ¬ Wraps d :=
  decoder_iff [5, 1, 0, 0, 0, 5, 1, 0, 0, 0, 0] (by decide)

/-- Nine bytes with the header of an error whose message is `2 ^ 32 - 1` bytes
    long: `printf` begins to read behind the buffer. -/
theorem decoder_overrun :
    printResponse [1, 0, 0, 0, 0, 255, 255, 255, 255] = .error .outOfBounds ∧
      ¬ DecoderOk [1, 0, 0, 0, 0, 255, 255, 255, 255] := by
  have hrun : printResponse [1, 0, 0, 0, 0, 255, 255, 255, 255] = .error .outOfBounds := by
    decide +kernel
  refine ⟨hrun, fun hok => ?_⟩
  rcases hok with ⟨r, hr, _⟩
  rw [hrun] at hr
  cases hr

end RedisServer
