import RedisServer.Theory.Protocol.Value

/-!
# Truncated Responses

The client's reads when the connection ends before a response is complete.
`read_full` returns zero at the end of the stream, however much is missing,
and the buffers are zero-initialised, so the client goes on with what it has,
followed by zeros. An error of `read()` is reported, the end of the stream as
such is not.

It is noticed when the bytes with the zeros are refused: when the length in the
header becomes one that a buffer of zeros does not fill with a value, or when
the payload becomes something else than one value.

## Main definitions

* `Ends`: The two ways the reads stop.
* `CutPayload`: A part of some scalars, and zeros.

## Theorems

* `readFull_short`: Reads that bring too little.
* `CutPayload.exact`: No length wraps in a payload that was cut.
* `truncated_iff`: The truncations that are reported.
* `truncated_accepted`: One that is not.
-/

namespace RedisServer

open Lib

/-- A read that brings no data and does not go away: the end of the stream, or
    an error. -/
def Ends (r : SockRead) : Prop := r = .eof ∨ r = .error

/-! ## The reads -/

/-- Reads that deliver too little: an error is returned, the end of the stream
    is not. -/
theorem readFull_short (rs more : List SockRead) {last : SockRead} (hlast : Ends last) (n : Nat)
    (got : Bytes) (h : Delivering rs) (hn : (rs.flatMap SockRead.bytes).length < n) :
    ∃ rs', readFull (rs ++ last :: more) n got =
      (if last = .error then -1 else 0, got ++ rs.flatMap SockRead.bytes, rs') ∧
      (last = .eof → rs' = .eof :: more) := by
  -- every read delivers some bytes, or is repeated
  induction rs generalizing n got with
  | nil =>
      cases n with
      | zero => exact absurd hn (Nat.lt_irrefl 0)
      | succ n =>
          rw [List.nil_append, List.flatMap_nil, List.append_nil]
          rcases hlast with rfl | rfl
          · exact ⟨.eof :: more, rfl, fun _ => rfl⟩
          · exact ⟨more, rfl, fun h => absurd h (by decide)⟩
  | cons r rs ih =>
      have hrest : Delivering rs := fun r' hr' => h r' (List.mem_cons_of_mem r hr')
      cases n with
      | zero => exact absurd hn (Nat.not_lt_zero _)
      | succ n =>
          rcases h r List.mem_cons_self with rfl | ⟨b, bs, rfl⟩
          · rw [List.cons_append, readFull]
            exact ih (n + 1) got hrest hn
          · have hflat : ((SockRead.data (b :: bs) :: rs).flatMap SockRead.bytes) =
                b :: bs ++ rs.flatMap SockRead.bytes := List.flatMap_cons
            rw [hflat, List.length_append, List.length_cons] at hn
            rw [hflat, List.cons_append, readFull, if_pos (by omega), ← List.append_assoc]
            exact ih (n - bs.length) (got ++ b :: bs) hrest (by omega)

/-! ## Zeros -/

theorem leNat_zeros (bs : Bytes) (k : Nat) : leNat (bs ++ List.replicate k 0) = leNat bs := by
  induction bs with
  | nil =>
      rw [List.nil_append]
      induction k with
      | zero => rfl
      | succ k ih =>
          simp only [List.replicate_succ, leNat, ih]
          rfl
  | cons b bs ih => rw [List.cons_append, leNat, ih, leNat]

theorem leNat_take_le (bs : Bytes) (k : Nat) : leNat (bs.take k) ≤ leNat bs := by
  induction bs generalizing k with
  | nil =>
      rw [List.take_nil]
  | cons b bs ih =>
      cases k with
      | zero => exact Nat.zero_le _
      | succ k =>
          have hle := ih k
          rw [List.take_succ_cons, leNat, leNat]
          omega

/-- A byte string that is cut, with zeros in the place of the rest. -/
def cutAt (xs : Bytes) (j k : Nat) : Bytes := xs.take j ++ List.replicate k 0

theorem drop_cutAt (xs : Bytes) (i j k : Nat) :
    ∃ k', (cutAt xs j k).drop i = cutAt (xs.drop i) (j - i) k' := by
  refine ⟨k - (i - (xs.take j).length), ?_⟩
  rw [cutAt, cutAt, List.drop_append, List.drop_take, List.drop_replicate]

-- A word that is cut is a smaller number, and one that is not is itself.
theorem word_cutAt_le (xs : Bytes) (j k : Nat) :
    leNat ((cutAt xs j k).take 4) ≤ leNat (xs.take 4) := by
  have htake : (xs.take j).take 4 = (xs.take 4).take j := by
    rw [List.take_take, List.take_take, Nat.min_comm]
  rw [cutAt, List.take_append, List.take_replicate, htake, leNat_zeros]
  exact leNat_take_le _ j

theorem word_cutAt_eq {xs : Bytes} {j : Nat} (hj : 4 ≤ j) (hxs : 4 ≤ xs.length) (k : Nat) :
    (cutAt xs j k).take 4 = xs.take 4 := by
  rw [cutAt, List.take_append_of_le_length (by rw [List.length_take]; omega), List.take_take,
    Nat.min_eq_left hj]

theorem cutAt_zero (xs : Bytes) (k : Nat) : cutAt xs 0 k = List.replicate k 0 := rfl

theorem head_cutAt {xs : Bytes} {j : Nat} (hj : 0 < j) (hxs : xs ≠ []) (k : Nat) :
    (cutAt xs j k).head? = xs.head? := by
  cases xs with
  | nil => exact absurd rfl hxs
  | cons b xs =>
      cases j with
      | zero => exact absurd hj (Nat.lt_irrefl 0)
      | succ j => rfl

/-! ## Items that are cut -/

/-- How long the header of a scalar says it is. -/
def itemLength (data : Bytes) : Nat :=
  if data.head? = some tagErr then 9 + leNat ((data.drop 5).take 4)
  else if data.head? = some tagStr then 5 + leNat ((data.drop 1).take 4)
  else if data.head? = some tagNil then 1
  else 9

theorem Wraps.le_itemLength {data : Bytes} (h : Wraps data) : 2 ^ 32 ≤ itemLength data := by
  unfold itemLength
  rcases h with ⟨hhead, _, hwrap⟩ | ⟨hhead, _, hwrap⟩
  · rw [if_pos hhead]
    exact hwrap
  · rw [if_neg (by rw [hhead]; decide), if_pos hhead]
    exact hwrap

theorem itemLength_value {e : Bytes} (h : IsValue e) (harr : e.head? ≠ some tagArr)
    (rest : Bytes) : itemLength (e ++ rest) = e.length := by
  cases h with
  | nil => rfl
  | err code msg hcode hmsg =>
      have hword := word_after (p := tagErr :: code) hmsg (msg ++ rest) (i := 5)
        (by rw [List.length_cons, hcode])
      simp only [List.cons_append, List.append_assoc] at hword ⊢
      rw [itemLength, List.head?_cons, if_pos rfl, hword]
      simp only [List.length_cons, List.length_append, hcode, length_le32]
      omega
  | str s hs =>
      have hword := word_after (p := [tagStr]) hs (s ++ rest) (i := 1) rfl
      simp only [List.cons_append, List.nil_append, List.append_assoc] at hword ⊢
      rw [itemLength, List.head?_cons, if_neg (by decide), if_pos rfl, hword]
      simp only [List.length_cons, List.length_append, length_le32]
      omega
  | int v hv =>
      rw [List.cons_append, itemLength, List.head?_cons, if_neg (by decide), if_neg (by decide),
        if_neg (by decide), List.length_cons, hv]
  | dbl v hv =>
      rw [List.cons_append, itemLength, List.head?_cons, if_neg (by decide), if_neg (by decide),
        if_neg (by decide), List.length_cons, hv]
  | arr elems _ _ => exact absurd rfl harr

-- What a header says after a cut: not more than before, and not less than what
-- is left of the scalar.
theorem itemLength_cutAt {e : Bytes} (h : IsValue e) (harr : e.head? ≠ some tagArr) {j : Nat}
    (hj : 0 < j) (hle : j ≤ e.length) (k : Nat) :
    j ≤ itemLength (cutAt e j k) ∧ itemLength (cutAt e j k) ≤ e.length := by
  have hne : e ≠ [] := List.length_pos_iff.mp h.length_pos
  have hlen := itemLength_value h harr []
  rw [List.append_nil] at hlen
  unfold itemLength at hlen ⊢
  rw [head_cutAt hj hne]
  by_cases herr : e.head? = some tagErr
  · rw [if_pos herr] at hlen ⊢
    rcases drop_cutAt e 5 j k with ⟨k', hdrop⟩
    -- a cut length is not larger than the whole one
    have hword := word_cutAt_le (e.drop 5) (j - 5) k'
    rw [hdrop]
    by_cases hhead : 9 ≤ j
    · rw [word_cutAt_eq (by omega) (by rw [List.length_drop]; omega), hlen]
      exact ⟨hle, Nat.le_refl _⟩
    · omega
  · rw [if_neg herr] at hlen ⊢
    by_cases hstr : e.head? = some tagStr
    · rw [if_pos hstr] at hlen ⊢
      rcases drop_cutAt e 1 j k with ⟨k', hdrop⟩
      have hword := word_cutAt_le (e.drop 1) (j - 1) k'
      rw [hdrop]
      by_cases hhead : 5 ≤ j
      · rw [word_cutAt_eq (by omega) (by rw [List.length_drop]; omega), hlen]
        exact ⟨hle, Nat.le_refl _⟩
      · omega
    · rw [if_neg hstr] at hlen ⊢
      rw [hlen]
      exact ⟨hle, Nat.le_refl _⟩

/-- A part of some scalars in a row, and zeros. -/
def CutPayload (data : Bytes) : Prop :=
  ∃ (elems : List Scalar) (j k : Nat), (encodeAll elems).length < 2 ^ 31 ∧
    data = cutAt (encodeAll elems) j k

theorem cutPayload_zeros (k : Nat) : CutPayload (List.replicate k 0) :=
  ⟨[], 0, k, by decide, rfl⟩

theorem itemLength_zeros (k : Nat) : itemLength (List.replicate k 0) ≤ 9 := by
  cases k with
  | zero => exact Nat.le_refl 9
  | succ k => exact Nat.le_of_lt (by decide : 1 < 9)

/-- What stands at the start of a cut payload is no array, and how long it says
    it is, is how much of the payload it takes. -/
def StepsOn (data : Bytes) : Prop :=
  itemLength data < 2 ^ 32 ∧ data.head? ≠ some tagArr ∧ CutPayload (data.drop (itemLength data))

theorem stepsOn_zeros (k : Nat) : StepsOn (List.replicate k 0) := by
  refine ⟨Nat.lt_of_le_of_lt (itemLength_zeros k) (by decide), ?_, ?_⟩
  · cases k with
    | zero => exact fun h => absurd h (by simp only [List.replicate_zero, List.head?_nil,
        reduceCtorEq, not_false_eq_true])
    | succ k => exact fun h => absurd (Option.some.inj h) (by decide)
  · rw [List.drop_replicate]
    exact cutPayload_zeros _

-- The first scalar is complete, or it is cut, and only zeros come after it.
theorem CutPayload.stepsOn {data : Bytes} (h : CutPayload data) : StepsOn data := by
  rcases h with ⟨elems, j, k, hlen, rfl⟩
  cases elems with
  | nil =>
      have hnil : cutAt (encodeAll []) j k = List.replicate k 0 := by
        rw [encodeAll, List.flatMap_nil, cutAt, List.take_nil, List.nil_append]
      rw [hnil]
      exact stepsOn_zeros k
  | cons s elems =>
      have henc : encodeAll (s :: elems) = s.encode ++ encodeAll elems := List.flatMap_cons
      rw [henc, List.length_append] at hlen
      rw [henc]
      rcases s.isValue (by omega) with ⟨hval, harr⟩
      have hne : s.encode ≠ [] := List.length_pos_iff.mp hval.length_pos
      -- cut before the first element, after it, or inside it
      rcases Nat.eq_zero_or_pos j with rfl | hj
      · rw [cutAt_zero]
        exact stepsOn_zeros k
      · by_cases hfull : s.encode.length ≤ j
        · have hcut : cutAt (s.encode ++ encodeAll elems) j k =
              s.encode ++ cutAt (encodeAll elems) (j - s.encode.length) k := by
            rw [cutAt, cutAt, List.take_append, List.take_of_length_le hfull, List.append_assoc]
          have hitem := itemLength_value hval harr (cutAt (encodeAll elems) (j - s.encode.length) k)
          unfold StepsOn
          rw [hcut, hitem, List.drop_left, List.head?_append_of_ne_nil _ hne]
          exact ⟨by omega, harr, elems, _, k, by omega, rfl⟩
        · have hlt := Nat.lt_of_not_le hfull
          have hcut : cutAt (s.encode ++ encodeAll elems) j k = cutAt s.encode j k := by
            rw [cutAt, cutAt, List.take_append_of_le_length (Nat.le_of_lt hlt)]
          rcases itemLength_cutAt hval harr hj (Nat.le_of_lt hlt) k with ⟨hge, hle⟩
          rcases drop_cutAt s.encode (itemLength (cutAt s.encode j k)) j k with ⟨k', hdrop⟩
          unfold StepsOn
          rw [hcut, head_cutAt hj hne, hdrop, Nat.sub_eq_zero_of_le hge, cutAt_zero]
          exact ⟨by omega, harr, cutPayload_zeros k'⟩

/-- A value at the start of a cut payload leaves a cut payload. -/
theorem CutPayload.rest {e rest : Bytes} (h : CutPayload (e ++ rest)) (he : IsValue e) :
    CutPayload rest := by
  rcases h.stepsOn with ⟨_, harr, hrest⟩
  have hne : e ≠ [] := List.length_pos_iff.mp he.length_pos
  rw [List.head?_append_of_ne_nil _ hne] at harr
  rw [itemLength_value he harr, List.drop_left] at hrest
  exact hrest

theorem CutPayload.rest_all {elems : List Bytes} {rest : Bytes}
    (h : CutPayload (elems.flatten ++ rest)) (helems : ∀ e ∈ elems, IsValue e) :
    CutPayload rest := by
  induction elems with
  | nil => exact h
  | cons e elems ih =>
      rw [List.flatten_cons, List.append_assoc] at h
      exact ih (h.rest (helems e List.mem_cons_self))
        fun e' he' => helems e' (List.mem_cons_of_mem e he')

/-- No length wraps in a payload that was cut. -/
theorem CutPayload.exact {data d : Bytes} (h : CutPayload data) (hd : Visits data d) :
    ¬ Wraps d := by
  cases hd with
  | here =>
      intro hwraps
      exact absurd hwraps.le_itemLength (Nat.not_le.mpr h.stepsOn.1)
  | elem n elems rest d _ _ _ _ => exact absurd rfl h.stepsOn.2.1

/-- The same for a reply, which may be an array. -/
theorem cutAt_value_exact (v : Value) (hv : v.encode.length < 2 ^ 31) (j k : Nat) {d : Bytes}
    (hd : Visits (cutAt v.encode j k) d) : ¬ Wraps d := by
  cases v with
  | scalar s =>
      refine CutPayload.exact ⟨[s], j, k, ?_, ?_⟩ hd
      · rw [encodeAll, List.flatMap_singleton]
        exact hv
      · rw [encodeAll, List.flatMap_singleton]
        rfl
  | arr elems =>
      have hwidth := length_outArr elems.length
      rw [Value.encode, List.length_append] at hv
      rcases drop_cutAt (Value.arr elems).encode 5 j k with ⟨k', hdrop⟩
      rw [Value.encode, List.drop_left' hwidth] at hdrop
      -- behind the header of the array is a cut row of scalars
      have hpayload : CutPayload ((cutAt (Value.arr elems).encode j k).drop 5) :=
        ⟨elems, j - 5, k', by omega, hdrop⟩
      generalize hdata : cutAt (Value.arr elems).encode j k = data at hd hpayload
      cases hd with
      | here =>
          -- The buffer starts with the tag of an array, or with a zero.
          intro hwraps
          rcases Nat.eq_zero_or_pos j with rfl | hj
          · rw [← hdata, cutAt_zero] at hwraps
            exact absurd hwraps.le_itemLength (Nat.not_le.mpr (stepsOn_zeros k).1)
          · have hne : (Value.arr elems).encode ≠ [] :=
              List.length_pos_iff.mp (Value.arr elems).length_pos
            have hhead : (cutAt (Value.arr elems).encode j k).head? = some tagArr :=
              head_cutAt hj hne k
            rw [hdata] at hhead
            rcases hwraps with ⟨h, _⟩ | ⟨h, _⟩
            · rw [hhead] at h
              exact absurd (Option.some.inj h) (by decide)
            · rw [hhead] at h
              exact absurd (Option.some.inj h) (by decide)
      | elem n more rest d _ _ hmore hd' =>
          rw [List.drop_left' (length_outArr n)] at hpayload
          exact (hpayload.rest_all hmore).exact hd'

/-! ## The response that is cut -/

/-- The reads bring the beginning of the frame of a reply, and then the stream
    ends or fails before the rest of it. -/
structure CutFrame (v : Value) (rs : List SockRead) (last : SockRead) : Prop where
  delivering : Delivering rs
  ends : Ends last
  begins : rs.flatMap SockRead.bytes <+: responseFrame v.encode
  proper : (rs.flatMap SockRead.bytes).length < (responseFrame v.encode).length

/-- The truncation is reported: the client returns a negative number. -/
def Reported (rs : List SockRead) : Prop := ∃ r, readResponse rs = .ok r ∧ r < 0

/-- The bytes that were received show it: a header that is cut gives another
    length than one, or a payload that is cut is, with zeros for the rest, not
    one value. -/
def Noticeable (v : Value) (got : Bytes) : Prop :=
  if got.length < 4 then leNat got ≠ 1
  else ¬ IsValue (cutAt v.encode (got.length - 4) (v.encode.length - (got.length - 4)))

section

variable {v : Value} {rs : List SockRead} {last : SockRead}

theorem CutFrame.eq_take (h : CutFrame v rs last) : rs.flatMap SockRead.bytes =
    (responseFrame v.encode).take (rs.flatMap SockRead.bytes).length :=
  List.prefix_iff_eq_take.mp h.begins

-- A header that is cut spells a smaller length.
theorem CutFrame.header_le (h : CutFrame v rs last) (hv : v.encode.length ≤ kMaxMsg)
    (hshort : (rs.flatMap SockRead.bytes).length < 4) :
    leNat (rs.flatMap SockRead.bytes) ≤ v.encode.length := by
  have htake := h.eq_take
  rw [responseFrame, List.take_append_of_le_length (by rw [length_le32]; omega)] at htake
  have hle := leNat_take_le (le32 v.encode.length) (rs.flatMap SockRead.bytes).length
  rw [← htake, leNat_le32 (Nat.lt_of_le_of_lt hv (by decide))] at hle
  exact hle

theorem CutFrame.payload (h : CutFrame v rs last) (hlong : 4 ≤ (rs.flatMap SockRead.bytes).length) :
    (rs.flatMap SockRead.bytes).take 4 = le32 v.encode.length ∧
      (rs.flatMap SockRead.bytes).drop 4 =
        v.encode.take ((rs.flatMap SockRead.bytes).length - 4) := by
  have htake := h.eq_take
  rw [responseFrame, List.take_append, length_le32, List.take_of_length_le
    (by rw [length_le32]; exact hlong)] at htake
  constructor
  · rw [htake]
    exact List.take_left' (length_le32 _)
  · conv_lhs => rw [htake]
    exact List.drop_left' (length_le32 _)

/-- With a complete header the client goes on to read the payload. -/
theorem CutFrame.body (h : CutFrame v rs last)
    (hlong : 4 ≤ (rs.flatMap SockRead.bytes).length) (more : List SockRead) :
    ∃ rs', readFull (rs ++ last :: more) 4 [] =
        (0, le32 v.encode.length, rs' ++ last :: more) ∧
      ∃ rs'', readFull (rs' ++ last :: more) v.encode.length [] =
        (if last = .error then -1 else 0,
          v.encode.take ((rs.flatMap SockRead.bytes).length - 4), rs'') := by
  rcases h.payload hlong with ⟨hhead, hbody⟩
  rcases readFull_full rs (last :: more) 4 [] h.delivering hlong with ⟨rs', hrun, hd, hdrop⟩
  rw [hhead, List.nil_append] at hrun
  rw [hbody] at hdrop
  have hlt : (rs'.flatMap SockRead.bytes).length < v.encode.length := by
    have hproper := h.proper
    rw [responseFrame, List.length_append, length_le32] at hproper
    rw [hdrop, List.length_take]
    omega
  rcases readFull_short rs' more h.ends v.encode.length [] hd hlt with ⟨rs'', hrun', _⟩
  rw [hdrop, List.nil_append] at hrun'
  exact ⟨rs', hrun, rs'', hrun'⟩

theorem readResponse_error (h : CutFrame v rs .error) (hv : v.encode.length ≤ kMaxMsg)
    (more : List SockRead) : readResponse (rs ++ .error :: more) = .ok (-1) := by
  by_cases hshort : (rs.flatMap SockRead.bytes).length < 4
  · rcases readFull_short rs more h.ends 4 [] h.delivering hshort with ⟨rs', hrun, _⟩
    simp only [readResponse, hrun]
    rfl
  · rcases h.body (Nat.not_lt.mp hshort) more with ⟨rs', hrun, rs'', hrun'⟩
    have hlt : v.encode.length < 2 ^ 32 := Nat.lt_of_le_of_lt hv (by decide)
    simp only [readResponse, hrun, zeroFill_full (length_le32 _), leNat_le32 hlt, hrun']
    rw [if_neg (by decide), if_neg (Nat.not_lt.mpr hv)]
    rfl

theorem readResponse_eof_header (h : CutFrame v rs .eof) (hv : v.encode.length ≤ kMaxMsg)
    (hshort : (rs.flatMap SockRead.bytes).length < 4) (more : List SockRead) :
    readResponse (rs ++ .eof :: more) =
      .ok (if leNat (rs.flatMap SockRead.bytes) = 1 then 1 else -1) := by
  have hle := Nat.le_trans (h.header_le hv hshort) hv
  rcases readFull_short rs more h.ends 4 [] h.delivering hshort with ⟨rs', hrun, hrest⟩
  rw [hrest rfl, List.nil_append] at hrun
  have hlen : leNat (zeroFill (rs.flatMap SockRead.bytes) 4) = leNat (rs.flatMap SockRead.bytes) :=
    leNat_zeros _ _
  simp only [readResponse, hrun, hlen]
  rw [if_neg (by decide), if_neg (Nat.not_lt.mpr hle)]
  cases hzero : leNat (rs.flatMap SockRead.bytes) with
  | zero => rfl
  | succ n =>
      -- Nothing more arrives, and a zero is the tag of a value of one byte.
      have hone : printResponse (zeroFill [] (n + 1)) = .ok 1 := rfl
      have hread : readFull (.eof :: more) (n + 1) [] = (0, [], .eof :: more) := rfl
      simp only [hread, hone, ok_bind]
      rw [if_neg (by decide)]
      by_cases hn : n + 1 = 1
      · rw [if_pos hn, if_neg (by omega)]
      · rw [if_neg hn, if_pos (by omega)]

theorem readResponse_eof_payload (h : CutFrame v rs .eof) (hv : v.encode.length ≤ kMaxMsg)
    (hlong : 4 ≤ (rs.flatMap SockRead.bytes).length) (more : List SockRead) :
    readResponse (rs ++ .eof :: more) = (do
      let rv ← printResponse (cutAt v.encode ((rs.flatMap SockRead.bytes).length - 4)
        (v.encode.length - ((rs.flatMap SockRead.bytes).length - 4)))
      if 0 < rv ∧ rv ≠ v.encode.length then .ok (-1) else .ok rv) := by
  rcases h.body hlong more with ⟨rs', hrun, rs'', hrun'⟩
  have hlt : v.encode.length < 2 ^ 32 := Nat.lt_of_le_of_lt hv (by decide)
  have hproper := h.proper
  rw [responseFrame, List.length_append, length_le32] at hproper
  have hfill : ∀ m < v.encode.length, zeroFill (v.encode.take m) v.encode.length =
      cutAt v.encode m (v.encode.length - m) := by
    intro m hm
    rw [zeroFill, cutAt, List.length_take, Nat.min_eq_left (Nat.le_of_lt hm)]
  simp only [readResponse, hrun, zeroFill_full (length_le32 _), leNat_le32 hlt, hrun']
  rw [if_neg (by decide), if_neg (Nat.not_lt.mpr hv), hfill _ (by omega)]
  rfl

end

/-- Without a wrapping length, the decoder takes a buffer to its end exactly
    when the buffer is one value. -/
theorem printResponse_all_iff {data : Bytes} (hlen : data.length < 2 ^ 31)
    (hno : ∀ d, Visits data d → ¬ Wraps d) :
    ∃ r, printResponse data = .ok r ∧ (r < 0 ∨ 0 < r) ∧ (r = data.length ∧ 0 < r ↔ IsValue data) := by
  rcases decoderOk_of_exact hlen hno with ⟨r, hrun, hres, hpos⟩
  refine ⟨r, hrun, ?_, ?_⟩
  · rcases hres with hres | ⟨n, hn, hone, _⟩
    · left
      omega
    · right
      omega
  · constructor
    · intro hr
      rcases hres with hres | ⟨n, hn, _, _, v, rest, hsplit, hv, hvlen⟩
      · omega
      · have hall : rest = [] := by
          have hsum := congrArg List.length hsplit
          rw [List.length_append] at hsum
          exact List.length_eq_zero_iff.mp (by omega)
        rw [hsplit, hall, List.append_nil]
        exact hv
    · intro hv
      have hstarts : StartsWith data data.length := ⟨data, [], (List.append_nil _).symm, hv, rfl⟩
      have hrun' := printResponse_startsWith hlen hstarts
      exact ⟨Except.ok.inj (hrun.symm.trans hrun'), hpos.mpr ⟨_, hstarts⟩⟩

/-- A response that is cut is reported exactly when the stream fails, or when
    the bytes that were received show it. -/
theorem truncated_iff (v : Value) (hv : v.encode.length ≤ kMaxMsg) (rs : List SockRead)
    (last : SockRead) (h : CutFrame v rs last) (more : List SockRead) :
    Reported (rs ++ last :: more) ↔ last = .error ∨ Noticeable v (rs.flatMap SockRead.bytes) := by
  rcases h.ends with rfl | rfl
  · unfold Reported Noticeable
    rw [or_iff_right (by decide)]
    -- the header itself is cut, or it is whole and the payload is cut
    by_cases hshort : (rs.flatMap SockRead.bytes).length < 4
    · rw [if_pos hshort, readResponse_eof_header h hv hshort]
      by_cases hone : leNat (rs.flatMap SockRead.bytes) = 1
      · rw [if_pos hone]
        refine ⟨fun hrep => ?_, fun hne => absurd hone hne⟩
        rcases hrep with ⟨r, hr, hneg⟩
        rw [Except.ok.injEq] at hr
        omega
      · rw [if_neg hone]
        exact ⟨fun _ => hone, fun _ => ⟨-1, rfl, by decide⟩⟩
    · rw [if_neg hshort, readResponse_eof_payload h hv (Nat.not_lt.mp hshort)]
      have hproper := h.proper
      rw [responseFrame, List.length_append, length_le32] at hproper
      obtain ⟨m, hm⟩ : ∃ m, m = (rs.flatMap SockRead.bytes).length - 4 := ⟨_, rfl⟩
      rw [← hm]
      have hsize : (cutAt v.encode m (v.encode.length - m)).length = v.encode.length := by
        rw [cutAt, List.length_append, List.length_take, List.length_replicate]
        omega
      have hsmall : v.encode.length < 2 ^ 31 := Nat.lt_of_le_of_lt hv (by decide)
      rcases printResponse_all_iff (by rw [hsize]; exact hsmall)
        (fun d hd => cutAt_value_exact v hsmall m _ hd) with ⟨r, hrun, hsign, hiff⟩
      rw [hsize] at hiff
      rw [hrun, ok_bind, ← hiff]
      -- a length other than the payload's is reported, and so is a negative one
      by_cases hother : 0 < r ∧ r ≠ v.encode.length
      · rw [if_pos hother]
        exact ⟨fun _ hr => hother.2 hr.1, fun _ => ⟨-1, rfl, by decide⟩⟩
      · rw [if_neg hother]
        constructor
        · intro hrep hr
          rcases hrep with ⟨r', hr', hneg⟩
          rw [Except.ok.injEq] at hr'
          omega
        · intro hnot
          refine ⟨r, rfl, ?_⟩
          omega
  · rw [or_iff_left_of_imp fun _ => rfl]
    exact ⟨fun _ => rfl, fun _ => ⟨-1, readResponse_error h hv more, by decide⟩⟩

/-- The header and the tag of the response "hi". -/
def hiCut : List SockRead := [.data [7, 0], .eintr, .data [0, 0, 2]]

theorem hiCut_cutFrame {last : SockRead} (hlast : Ends last) :
    CutFrame (.scalar (.str (ascii "hi"))) hiCut last where
  delivering := by
    intro r hr
    simp only [hiCut, List.mem_cons, List.not_mem_nil, or_false] at hr
    rcases hr with rfl | rfl | rfl
    · exact Or.inr ⟨7, [0], rfl⟩
    · exact Or.inl rfl
    · exact Or.inr ⟨0, [0, 2], rfl⟩
  ends := hlast
  begins := by decide
  proper := by decide

/-- The stream ends, or fails, after the tag. At the end of the stream the
    zeros in the buffer spell an empty string, which is shorter than the
    payload. -/
theorem truncated_iff_hi :
    ((Reported (hiCut ++ [.eof]) ↔ SockRead.eof = .error ∨
        Noticeable (.scalar (.str (ascii "hi"))) (hiCut.flatMap SockRead.bytes)) ∧
      Reported (hiCut ++ [.eof])) ∧
    (Reported (hiCut ++ [.error]) ↔ SockRead.error = .error ∨
      Noticeable (.scalar (.str (ascii "hi"))) (hiCut.flatMap SockRead.bytes)) :=
  ⟨⟨truncated_iff _ (by decide) _ _ (hiCut_cutFrame (Or.inl rfl)) [], -1, rfl, by decide⟩,
    truncated_iff _ (by decide) _ _ (hiCut_cutFrame (Or.inr rfl)) []⟩

/-- The header of a nil response, and the end of the stream before its tag
    arrives: the client takes the zero in its buffer for the tag. -/
theorem truncated_accepted :
    CutFrame (.scalar .nil) [.data [1, 0, 0, 0]] .eof ∧
      readResponse [.data [1, 0, 0, 0], .eof] = .ok 1 ∧
      ¬ Reported [.data [1, 0, 0, 0], .eof] := by
  have hrun : readResponse [.data [1, 0, 0, 0], .eof] = .ok 1 := rfl
  refine ⟨⟨fun r hr => ?_, Or.inl rfl, by decide, by decide⟩, hrun, fun hrep => ?_⟩
  · rw [List.mem_singleton] at hr
    exact Or.inr ⟨1, [0, 0, 0], hr⟩
  · rcases hrep with ⟨r, hr, hneg⟩
    rw [hrun, Except.ok.injEq] at hr
    omega

end RedisServer
