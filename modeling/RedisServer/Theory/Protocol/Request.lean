import RedisServer.Core.Request

/-!
# The Request Format

The two ends of the request format against one description of it. The body of
a request is a count and then every argument with its length before it.
`send_request` lays out exactly that, and `parse_req` accepts exactly that: no
other byte string decodes, and the decoder never reads outside its buffer.

Both ends are bounded, in different ways. The client adds up the body's length
in 32 bits and checks the total; the server checks the total and the number of
arguments.

## Main definitions

* `encodeArgs`, `requestBody`: The format.

## Theorems

* `parseReq_cases`: What the decoder accepts, and that it never faults.
* `sendRequest_iff`: What the encoder lays out.
* `parse_req_exact`: The decoder accepts what the encoder lays out.
-/

namespace RedisServer

open Lib

/-- Every argument with its length before it. -/
def encodeArgs : List Bytes → Bytes
  | [] => []
  | arg :: args => le32 arg.length ++ arg ++ encodeArgs args

/-- The body of a request: the number of arguments, and the arguments. -/
def requestBody (args : List Bytes) : Bytes := le32 args.length ++ encodeArgs args

theorem length_requestBody (args : List Bytes) :
    (requestBody args).length = 4 + (encodeArgs args).length := by
  rw [requestBody, List.length_append, length_le32]

/-- A word of the buffer is a number that reads back. -/
theorem le32_leNat {bs : Bytes} (h : bs.length = 4) : le32 (leNat bs) = bs := by
  have := leBytes_leNat bs
  rw [h] at this
  exact this

theorem leNat_le32 {n : Nat} (h : n < 2 ^ 32) : leNat (le32 n) = n :=
  leNat_leBytes_of_lt (k := 4) (by omega)

/-! ## The decoder -/

theorem loadBytes_eq {data : Bytes} {cur n : Nat} (h : cur + n ≤ data.length) :
    loadBytes data cur n = .ok ((data.drop cur).take n) := by
  rw [loadBytes, if_pos h]

theorem readU32_of_lt {data : Bytes} {cur : Nat} (h : data.length < cur + 4) :
    readU32 data cur data.length = .ok none := by
  rw [readU32, if_pos h]

theorem readU32_of_le {data : Bytes} {cur : Nat} (h : cur + 4 ≤ data.length) :
    readU32 data cur data.length = .ok (some (leNat ((data.drop cur).take 4), cur + 4)) := by
  rw [readU32, if_neg (Nat.not_lt.mpr h), loadBytes_eq h, ok_bind]

theorem readStr_of_lt {data : Bytes} {cur n : Nat} (h : data.length < cur + n) :
    readStr data cur data.length n = .ok none := by
  rw [readStr, if_pos h]

theorem readStr_of_le {data : Bytes} {cur n : Nat} (h : cur + n ≤ data.length) :
    readStr data cur data.length n = .ok (some ((data.drop cur).take n, cur + n)) := by
  rw [readStr, if_neg (Nat.not_lt.mpr h), loadBytes_eq h, ok_bind]

/-- A word that has arrived is the encoding of the number it spells. -/
theorem drop_eq_word {data : Bytes} {cur : Nat} (h : cur + 4 ≤ data.length) :
    data.drop cur = le32 (leNat ((data.drop cur).take 4)) ++ data.drop (cur + 4) := by
  have hlen : ((data.drop cur).take 4).length = 4 := by
    rw [List.length_take, List.length_drop]
    omega
  rw [le32_leNat hlen, ← List.drop_drop, List.take_append_drop]

/-- The encoding of an argument shows its length and what follows it. -/
theorem word_arg_inj {len : Nat} {xs arg ys : Bytes} (hlen : len < 2 ^ 32) (hxs : xs.length < 2 ^ 32)
    (h : le32 len ++ xs = le32 arg.length ++ arg ++ ys) : len = arg.length ∧ xs = arg ++ ys := by
  rw [List.append_assoc] at h
  have hwidth : (le32 len).length = (le32 arg.length).length := by
    rw [length_le32, length_le32]
  have htail := List.append_inj_right h hwidth
  have harg : arg.length < 2 ^ 32 := by
    rw [htail, List.length_append] at hxs
    omega
  have hword := congrArg leNat (List.append_inj_left h hwidth)
  rw [leNat_le32 hlen, leNat_le32 harg] at hword
  exact ⟨hword, htail⟩

/-- Two lists of arguments with one encoding are equal, and so is what follows
    them. -/
theorem encodeArgs_inj {args args' : List Bytes} {rest rest' : Bytes}
    (hlen : args.length = args'.length) (hsmall : (encodeArgs args ++ rest).length < 2 ^ 32)
    (h : encodeArgs args ++ rest = encodeArgs args' ++ rest') : args = args' ∧ rest = rest' := by
  induction args generalizing args' with
  | nil =>
      rw [List.length_nil, eq_comm, List.length_eq_zero_iff] at hlen
      subst hlen
      exact ⟨rfl, h⟩
  | cons a args ih =>
      rcases List.length_eq_succ_iff.mp hlen.symm with ⟨b, bs, rfl, hbs⟩
      rw [encodeArgs] at hsmall h
      rw [encodeArgs] at h
      simp only [List.append_assoc, List.length_append, length_le32] at hsmall
      rw [List.append_assoc, List.append_assoc, List.append_assoc (le32 b.length ++ b)] at h
      rcases word_arg_inj (by omega) (by simp only [List.length_append]; omega) h with ⟨hab, htail⟩
      have hhead := List.append_inj_left htail hab
      rcases ih hbs.symm (by rw [List.length_append]; omega)
        (List.append_inj_right htail hab) with ⟨hargs, hrest⟩
      rw [hhead, hargs]
      exact ⟨rfl, hrest⟩

/-- A body determines its arguments. -/
theorem requestBody_inj {args args' : List Bytes} (hmax : args.length ≤ kMaxArgs)
    (hmax' : args'.length ≤ kMaxArgs) (h : requestBody args = requestBody args')
    (hsmall : (requestBody args).length < 2 ^ 32) : args = args' := by
  rw [length_requestBody] at hsmall
  rw [requestBody, requestBody] at h
  have hwidth : (le32 args.length).length = (le32 args'.length).length := by
    rw [length_le32, length_le32]
  have hcount := congrArg leNat (List.append_inj_left h hwidth)
  rw [leNat_le32 (Nat.lt_of_le_of_lt hmax (by decide)),
    leNat_le32 (Nat.lt_of_le_of_lt hmax' (by decide))] at hcount
  have hargs := List.append_inj_right h hwidth
  have hnil : encodeArgs args ++ [] = encodeArgs args' ++ [] := by
    rw [List.append_nil, List.append_nil, hargs]
  exact (encodeArgs_inj hcount (by rw [List.append_nil]; omega) hnil).1

/-- The loop over the arguments succeeds exactly on their encoding, and never
    faults. -/
theorem parseArgs_cases {data : Bytes} (hdata : data.length < 2 ^ 32) (n cur : Nat)
    (out : List Bytes) (hcur : cur ≤ data.length) :
    (∃ args cur', parseArgs data data.length n cur out = .ok (some cur', out ++ args) ∧
      args.length = n ∧ cur' ≤ data.length ∧ data.drop cur = encodeArgs args ++ data.drop cur') ∨
    ((∃ out', parseArgs data data.length n cur out = .ok (none, out')) ∧
      ∀ args rest, args.length = n → data.drop cur ≠ encodeArgs args ++ rest) := by
  -- each argument is a word and as many bytes, read while they are there
  induction n generalizing cur out with
  | zero => exact Or.inl ⟨[], cur, by rw [parseArgs, List.append_nil], rfl, hcur, rfl⟩
  | succ n ih =>
      unfold parseArgs
      by_cases hword : cur + 4 ≤ data.length
      · rw [readU32_of_le hword, ok_bind]
        have hsplit := drop_eq_word hword
        have hlt : leNat ((data.drop cur).take 4) < 2 ^ 32 := by
          have := leNat_lt ((data.drop cur).take 4)
          rwa [List.length_take, List.length_drop, min_eq_left (by omega)] at this
        have htail : (data.drop (cur + 4)).length < 2 ^ 32 := by
          rw [List.length_drop]
          omega
        obtain ⟨len, hlen⟩ : ∃ len, len = leNat ((data.drop cur).take 4) := ⟨_, rfl⟩
        rw [← hlen] at hsplit hlt ⊢
        by_cases hstr : cur + 4 + len ≤ data.length
        · simp only [readStr_of_le hstr, ok_bind]
          obtain ⟨s, hs⟩ : ∃ s, s = (data.drop (cur + 4)).take len := ⟨_, rfl⟩
          have hslen : s.length = len := by
            rw [hs, List.length_take, List.length_drop]
            omega
          have hrest : data.drop (cur + 4) = s ++ data.drop (cur + 4 + len) := by
            rw [hs, ← List.drop_drop (i := len) (j := cur + 4), List.take_append_drop]
          rw [← hs]
          rcases ih (cur + 4 + len) (out ++ [s]) hstr with
            ⟨args, cur', hrun, hargs, hcur', henc⟩ | ⟨⟨out', hrun⟩, hno⟩
          · refine Or.inl ⟨s :: args, cur', ?_, by rw [List.length_cons, hargs], hcur', ?_⟩
            · rw [hrun, List.append_assoc]
              rfl
            · rw [hsplit, hrest, henc, encodeArgs, hslen]
              simp only [List.append_assoc]
          · refine Or.inr ⟨⟨out', hrun⟩, fun args rest hargs henc => ?_⟩
            rcases List.length_eq_succ_iff.mp hargs with ⟨a, args, rfl, hargs'⟩
            rw [hsplit, encodeArgs, List.append_assoc] at henc
            rcases word_arg_inj hlt htail henc with ⟨hla, htl⟩
            rw [hrest] at htl
            exact hno args rest hargs' (List.append_inj_right htl (hslen.trans hla))
        · simp only [readStr_of_lt (Nat.lt_of_not_le hstr), ok_bind]
          refine Or.inr ⟨⟨_, rfl⟩, fun args rest hargs henc => ?_⟩
          rcases List.length_eq_succ_iff.mp hargs with ⟨a, args, rfl, _⟩
          rw [hsplit, encodeArgs, List.append_assoc] at henc
          rcases word_arg_inj hlt htail henc with ⟨hla, htl⟩
          have hsum := congrArg List.length htl
          rw [List.length_append, List.length_drop] at hsum
          omega
      · rw [readU32_of_lt (Nat.lt_of_not_le hword), ok_bind]
        refine Or.inr ⟨⟨_, rfl⟩, fun args rest hargs henc => ?_⟩
        rcases List.length_eq_succ_iff.mp hargs with ⟨a, args, rfl, _⟩
        have hsum := congrArg List.length henc
        simp only [encodeArgs, List.length_append, List.length_drop, length_le32] at hsum
        omega

/-- What the decoder accepts. On every other byte string it returns `-1`, and
    it never faults. -/
theorem parseReq_cases {d : Bytes} (hdata : d.length < 2 ^ 32) :
    (∃ args, parseReq d d.length [] = .ok (0, args) ∧ d = requestBody args ∧
      args.length ≤ kMaxArgs) ∨
    ((∃ out, parseReq d d.length [] = .ok (-1, out)) ∧
      ∀ args, args.length ≤ kMaxArgs → d ≠ requestBody args) := by
  unfold parseReq
  by_cases hword : 0 + 4 ≤ d.length
  · rw [readU32_of_le hword, ok_bind]
    have hsplit := drop_eq_word hword
    have hlt : leNat ((d.drop 0).take 4) < 2 ^ 32 := by
      have := leNat_lt ((d.drop 0).take 4)
      rwa [List.length_take, List.length_drop, min_eq_left (by omega)] at this
    obtain ⟨nstr, hnstr⟩ : ∃ nstr, nstr = leNat ((d.drop 0).take 4) := ⟨_, rfl⟩
    rw [← hnstr] at hsplit hlt ⊢
    rw [List.drop_zero] at hsplit
    have hcount : ∀ args : List Bytes, args.length ≤ kMaxArgs → d = requestBody args →
        nstr = args.length ∧ d.drop (0 + 4) = encodeArgs args := by
      intro args hargs hbody
      rw [hsplit, requestBody] at hbody
      have hword := congrArg leNat (List.append_inj_left hbody (by rw [length_le32, length_le32]))
      rw [leNat_le32 hlt, leNat_le32 (Nat.lt_of_le_of_lt hargs (by decide))] at hword
      exact ⟨hword, List.append_inj_right hbody (by rw [length_le32, length_le32])⟩
    by_cases hmax : kMaxArgs < nstr
    · simp only [if_pos hmax]
      refine Or.inr ⟨⟨_, rfl⟩, fun args hargs hbody => ?_⟩
      rw [(hcount args hargs hbody).1] at hmax
      exact absurd hargs (Nat.not_le.mpr hmax)
    · simp only [if_neg hmax, List.length_nil, Nat.sub_zero]
      rcases parseArgs_cases hdata nstr (0 + 4) [] hword with
        ⟨args, cur, hrun, hargs, hcur, henc⟩ | ⟨⟨out, hrun⟩, hno⟩
      · simp only [hrun, ok_bind, List.nil_append]
        by_cases hend : cur = d.length
        · rw [if_neg (not_not.mpr hend)]
          refine Or.inl ⟨args, rfl, ?_, by rw [hargs]; exact Nat.le_of_not_lt hmax⟩
          rw [hend, List.drop_length, List.append_nil] at henc
          rw [requestBody, hargs, ← henc]
          exact hsplit
        · rw [if_pos hend]
          refine Or.inr ⟨⟨_, rfl⟩, fun args' hargs' hbody => ?_⟩
          rcases hcount args' hargs' hbody with ⟨hn, htail⟩
          have htail' : encodeArgs args' ++ [] = encodeArgs args ++ d.drop cur := by
            rw [List.append_nil, ← htail, henc]
          have hsmall : (encodeArgs args' ++ []).length < 2 ^ 32 := by
            rw [List.append_nil, ← htail, List.length_drop]
            omega
          have hsame := encodeArgs_inj (hn.symm.trans hargs.symm) hsmall htail'
          have hlen := congrArg List.length hsame.2
          rw [List.length_nil, List.length_drop] at hlen
          omega
      · simp only [hrun, ok_bind]
        refine Or.inr ⟨⟨_, rfl⟩, fun args hargs hbody => ?_⟩
        rcases hcount args hargs hbody with ⟨hn, htail⟩
        exact hno args [] hn.symm (by rw [htail, List.append_nil])
  · rw [readU32_of_lt (Nat.lt_of_not_le hword), ok_bind]
    refine Or.inr ⟨⟨_, rfl⟩, fun args _ hbody => ?_⟩
    have hlen := length_requestBody args
    rw [← hbody] at hlen
    omega

/-! ## The encoder -/

/-- A copy into a buffer, where what was written before it is `pre`. -/
theorem memcpyAt_append {p r s : Bytes} (h : s.length ≤ r.length) :
    memcpyAt (p ++ r) p.length s = .ok (p ++ s ++ r.drop s.length) := by
  rw [memcpyAt, if_pos (by rw [List.length_append]; omega), List.take_left, List.drop_append,
    List.drop_of_length_le (Nat.le_add_right _ _), Nat.add_sub_cancel_left, List.nil_append]

theorem length_of_memcpyAt {buf buf' src : Bytes} {pos : Nat} (h : memcpyAt buf pos src = .ok buf') :
    buf'.length = buf.length ∧ pos + src.length ≤ buf.length := by
  rw [memcpyAt] at h
  by_cases hfit : pos + src.length ≤ buf.length
  · rw [if_pos hfit, Except.ok.injEq] at h
    rw [← h]
    simp only [List.length_append, List.length_take, List.length_drop]
    omega
  · rw [if_neg hfit] at h
    cases h

theorem memcpyAt_overflow {buf src : Bytes} {pos : Nat} (h : buf.length < pos + src.length) :
    memcpyAt buf pos src = .error .outOfBounds := by
  rw [memcpyAt, if_neg (Nat.not_le.mpr h)]

/-- The serialization loop lays out the arguments, and leaves the buffer when
    they do not fit. -/
theorem sendArgs_eq (cmd : List Bytes) (pre rest : Bytes) :
    sendArgs cmd (pre ++ rest) pre.length =
      if (encodeArgs cmd).length ≤ rest.length then
        .ok (pre ++ encodeArgs cmd ++ rest.drop (encodeArgs cmd).length)
      else .error .outOfBounds := by
  -- what was written so far is `pre`, what the buffer has left is `rest`
  induction cmd generalizing pre rest with
  | nil =>
      rw [sendArgs, encodeArgs, List.length_nil, if_pos (Nat.zero_le _), List.append_nil,
        List.drop_zero]
  | cons arg cmd ih =>
      have hlen : (encodeArgs (arg :: cmd)).length = 4 + arg.length + (encodeArgs cmd).length := by
        rw [encodeArgs, List.length_append, List.length_append, length_le32]
      rw [sendArgs, hlen]
      by_cases hword : 4 ≤ rest.length
      · rw [memcpyAt_append (by rw [length_le32]; exact hword), ok_bind, length_le32]
        have hpos : pre.length + 4 = (pre ++ le32 arg.length).length := by
          rw [List.length_append, length_le32]
        rw [hpos]
        by_cases harg : 4 + arg.length ≤ rest.length
        · rw [memcpyAt_append (by rw [List.length_drop]; omega), ok_bind, ← List.length_append, ih,
            List.length_drop, List.length_drop, List.drop_drop, List.drop_drop, encodeArgs]
          by_cases hfit : 4 + arg.length + (encodeArgs cmd).length ≤ rest.length
          · rw [if_pos (by omega), if_pos hfit]
            simp only [List.append_assoc, Nat.add_assoc]
          · rw [if_neg (by omega), if_neg hfit]
        · rw [memcpyAt_overflow (by
            simp only [List.length_append, List.length_drop, length_le32]
            omega), error_bind, if_neg (by omega)]
      · rw [memcpyAt_overflow (by rw [List.length_append, length_le32]; omega), error_bind,
          if_neg (by omega)]

theorem msgLen_eq (cmd : List Bytes) : msgLen cmd = (requestBody cmd).length % 2 ^ 32 := by
  have hfold : ∀ len, len < 2 ^ 32 →
      cmd.foldl (fun len arg => (len + (4 + arg.length)) % 2 ^ 32) len =
        (len + (encodeArgs cmd).length) % 2 ^ 32 := by
    induction cmd with
    | nil =>
        intro len hlen
        exact (Nat.mod_eq_of_lt hlen).symm
    | cons arg cmd ih =>
        intro len _
        rw [List.foldl_cons, ih _ (Nat.mod_lt _ (by decide)), encodeArgs, List.length_append,
          List.length_append, length_le32, Nat.mod_add_mod, Nat.add_assoc]
  rw [msgLen, hfold 4 (by decide), length_requestBody]

/-- What `send_request` lays out. It returns a frame exactly when the body is
    no longer than the limit; a body that is only short modulo `2 ^ 32` leaves
    the buffer. -/
theorem sendRequest_iff (cmd : List Bytes) (frame : Bytes) :
    sendRequest cmd = .ok (some frame) ↔ (requestBody cmd).length ≤ kMaxMsg ∧
      frame = le32 (requestBody cmd).length ++ requestBody cmd := by
  have hbody := length_requestBody cmd
  rw [sendRequest, msgLen_eq]
  by_cases hfit : (requestBody cmd).length ≤ kMaxMsg
  · have hmod : (requestBody cmd).length % 2 ^ 32 = (requestBody cmd).length :=
      Nat.mod_eq_of_lt (Nat.lt_of_le_of_lt hfit (by decide))
    rw [hmod, if_neg (Nat.not_lt.mpr hfit)]
    -- the frame is written over zeros: its length, the count, the arguments
    have hzero : List.replicate (4 + (requestBody cmd).length) (0 : UInt8) =
        [] ++ List.replicate (4 + (requestBody cmd).length) 0 := rfl
    have hfirst := memcpyAt_append (p := []) (s := le32 (requestBody cmd).length)
      (r := List.replicate (4 + (requestBody cmd).length) 0) (by
        rw [length_le32, List.length_replicate]
        omega)
    rw [List.length_nil, ← hzero, List.nil_append, length_le32, List.drop_replicate,
      Nat.add_sub_cancel_left] at hfirst
    have hsecond := memcpyAt_append (p := le32 (requestBody cmd).length)
      (s := le32 cmd.length) (r := List.replicate (requestBody cmd).length 0) (by
        rw [length_le32, List.length_replicate]
        omega)
    rw [length_le32, length_le32, List.drop_replicate] at hsecond
    have hthird := sendArgs_eq cmd (le32 (requestBody cmd).length ++ le32 cmd.length)
      (List.replicate ((requestBody cmd).length - 4) 0)
    rw [List.length_append, length_le32, length_le32, List.length_replicate, if_pos (by omega),
      List.drop_replicate, hbody, Nat.add_sub_cancel_left, Nat.sub_self, List.replicate_zero,
      List.append_nil, ← hbody] at hthird
    simp only [hfirst, ok_bind, hsecond]
    rw [hbody, Nat.add_sub_cancel_left, ← hbody, hthird, ok_bind, Except.ok.injEq,
      Option.some.injEq, requestBody, List.append_assoc, eq_comm]
    exact (and_iff_right hfit).symm
  · refine ⟨fun h => ?_, fun h => absurd h.1 hfit⟩
    by_cases hlong : kMaxMsg < (requestBody cmd).length % 2 ^ 32
    · rw [if_pos hlong] at h
      exact absurd h (by simp only [Except.ok.injEq, reduceCtorEq, not_false_eq_true])
    · rw [if_neg hlong] at h
      rcases bind_eq_ok.mp h with ⟨buf₁, hfirst, h⟩
      rcases bind_eq_ok.mp h with ⟨buf₂, hsecond, h⟩
      rcases bind_eq_ok.mp h with ⟨buf₃, hthird, _⟩
      have hlen₁ := length_of_memcpyAt hfirst
      have hlen₂ := length_of_memcpyAt hsecond
      rw [List.length_replicate] at hlen₁
      rw [length_le32, hlen₁.1] at hlen₂
      have hmod := Nat.mod_le (requestBody cmd).length (2 ^ 32)
      -- the arguments do not fit into a buffer of the truncated length
      rw [← List.take_append_drop 8 buf₂] at hthird
      have hpos : (buf₂.take 8).length = 8 := by
        rw [List.length_take]
        omega
      have hsend := sendArgs_eq cmd (buf₂.take 8) (buf₂.drop 8)
      rw [hpos, hthird, if_neg (by rw [List.length_drop]; omega)] at hsend
      cases hsend

/-- The bodies the decoder accepts. -/
theorem parse_body_iff {data : Bytes} (hdata : data.length ≤ kMaxMsg) {args : List Bytes} :
    parseReq data data.length [] = .ok (0, args) ↔
      data = requestBody args ∧ args.length ≤ kMaxArgs := by
  have hsmall := Nat.lt_of_le_of_lt hdata (by decide : kMaxMsg < 2 ^ 32)
  rcases parseReq_cases hsmall with ⟨args', hrun, hbody, hmax⟩ | ⟨⟨out, hrun⟩, hno⟩
  · rw [hrun, Except.ok.injEq, Prod.mk.injEq]
    refine ⟨fun h => by rw [← h.2]; exact ⟨hbody, hmax⟩, fun h => ⟨rfl, ?_⟩⟩
    exact requestBody_inj hmax h.2 (hbody.symm.trans h.1) (by rw [← hbody]; exact hsmall)
  · rw [hrun, Except.ok.injEq, Prod.mk.injEq]
    exact ⟨fun h => absurd h.1 (by decide), fun h => absurd h.1 (hno args h.2)⟩

/-- The decoder accepts exactly the bodies that `send_request` lays out for at
    most `k_max_args` arguments. Everything else it refuses with `-1`, and it
    reads no byte outside the body. -/
theorem parse_req_exact (data : Bytes) (hdata : data.length ≤ kMaxMsg) :
    (∀ args, parseReq data data.length [] = .ok (0, args) ↔
      sendRequest args = .ok (some (le32 data.length ++ data)) ∧ args.length ≤ kMaxArgs) ∧
    ((∀ args, ¬ (sendRequest args = .ok (some (le32 data.length ++ data)) ∧
      args.length ≤ kMaxArgs)) → ∃ out, parseReq data data.length [] = .ok (-1, out)) := by
  have hframe : ∀ args, sendRequest args = .ok (some (le32 data.length ++ data)) ↔
      data = requestBody args := by
    intro args
    rw [sendRequest_iff]
    constructor
    · rintro ⟨_, h⟩
      exact List.append_inj_right h (by rw [length_le32, length_le32])
    · intro h
      rw [← h]
      exact ⟨hdata, rfl⟩
  simp only [hframe]
  refine ⟨fun args => parse_body_iff hdata, fun hno => ?_⟩
  rcases parseReq_cases (Nat.lt_of_le_of_lt hdata (by decide)) with
    ⟨args, _, hbody, hmax⟩ | ⟨hrun, _⟩
  · exact absurd ⟨hbody, hmax⟩ (hno args)
  · exact hrun

theorem parse_req_exact_empty_arg :
    parseReq (requestBody [ascii "get", []]) 15 [] = .ok (0, [ascii "get", []]) :=
  ((parse_req_exact (requestBody [ascii "get", []]) (by decide)).1 [ascii "get", []]).mpr
    ⟨rfl, by decide⟩

end RedisServer
