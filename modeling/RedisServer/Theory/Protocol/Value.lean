import RedisServer.Theory.Protocol.Decoder

/-!
# Values on the Wire

What a reply is made of. A reply is one value, a scalar or an array of
scalars, as the server does not nest arrays. The client's decoder accepts
exactly the bytes of a value, whatever follows them.

The length of a string and the size of an array are written in 32 bits. A
value within the limit of a message has no longer ones.

## Main definitions

* `Scalar`, `Value`: Replies.
* `Scalar.encode`, `Value.encode`: Their bytes.
* `Delivering`: Reads that bring data.

## Theorems

* `printResponse_encode`: The client decodes a value to its end.
* `readFull_full`: The client's reads.
* `readResponse_frame`: The client accepts the frame of a value.
-/

namespace RedisServer

open Lib

/-- A value that is not an array. -/
inductive Scalar
  | nil
  | err (code : Nat) (msg : Bytes)
  | str (s : Bytes)
  | int (v : Int)
  | dbl (v : Double)
  deriving DecidableEq, Repr

/-- A reply. -/
inductive Value
  | scalar (s : Scalar)
  | arr (elems : List Scalar)
  deriving DecidableEq, Repr

/-- The bytes of a scalar. -/
def Scalar.encode : Scalar → Bytes
  | .nil => outNil []
  | .err code msg => outErr [] code msg
  | .str s => outStr [] s
  | .int v => outInt [] v
  | .dbl v => outDbl [] v

/-- The bytes of scalars in a row. -/
def encodeAll (elems : List Scalar) : Bytes := elems.flatMap Scalar.encode

/-- The bytes of a reply: an array has its size before its elements. -/
def Value.encode : Value → Bytes
  | .scalar s => s.encode
  | .arr elems => outArr [] elems.length ++ encodeAll elems

/-! ## Appending -/

theorem outNil_eq (out : Bytes) : outNil out = out ++ Scalar.nil.encode := by
  rw [Scalar.encode, outNil, outNil, List.nil_append]

theorem outStr_eq (out s : Bytes) : outStr out s = out ++ (Scalar.str s).encode := by
  simp only [Scalar.encode, outStr, List.append_assoc, List.nil_append]

theorem outInt_eq (out : Bytes) (v : Int) : outInt out v = out ++ (Scalar.int v).encode := by
  simp only [Scalar.encode, outInt, List.append_assoc, List.nil_append]

theorem outDbl_eq (out : Bytes) (v : Double) : outDbl out v = out ++ (Scalar.dbl v).encode := by
  simp only [Scalar.encode, outDbl, List.append_assoc, List.nil_append]

theorem outArr_eq (out : Bytes) (n : Nat) : outArr out n = out ++ outArr [] n := by
  simp only [outArr, List.append_assoc, List.nil_append]

/-! ## Decoding -/

/-- A scalar takes a byte or more. -/
theorem Scalar.length_pos (s : Scalar) : 0 < s.encode.length := by
  cases s with
  | nil => exact Nat.zero_lt_one
  | err code msg =>
      simp only [Scalar.encode, outErr, List.length_append, List.length_cons]
      omega
  | str s =>
      simp only [Scalar.encode, outStr, List.length_append, List.length_cons]
      omega
  | int v =>
      simp only [Scalar.encode, outInt, List.length_append, List.length_cons]
      omega
  | dbl v =>
      simp only [Scalar.encode, outDbl, List.length_append, List.length_cons]
      omega

theorem length_le_encodeAll (elems : List Scalar) : elems.length ≤ (encodeAll elems).length := by
  induction elems with
  | nil => exact Nat.le_refl _
  | cons s elems ih =>
      have hs := s.length_pos
      rw [encodeAll, List.flatMap_cons, List.length_append, List.length_cons, ← encodeAll]
      omega

/-- A scalar is a value, and not an array. -/
theorem Scalar.isValue (s : Scalar) (h : s.encode.length < 2 ^ 31) :
    IsValue s.encode ∧ s.encode.head? ≠ some tagArr := by
  cases s with
  | nil => exact ⟨IsValue.nil, by decide⟩
  | err code msg =>
      have henc : (Scalar.err code msg).encode = tagErr :: (le32 code ++ (le32 msg.length ++ msg)) := by
        simp only [Scalar.encode, outErr, List.append_assoc, List.nil_append, List.cons_append]
      rw [henc] at h ⊢
      simp only [List.length_cons, List.length_append] at h
      exact ⟨IsValue.err _ msg (length_le32 _) (by omega),
        fun h => absurd (Option.some.inj h) (by decide)⟩
  | str s =>
      have henc : (Scalar.str s).encode = tagStr :: (le32 s.length ++ s) := by
        simp only [Scalar.encode, outStr, List.nil_append, List.cons_append]
      rw [henc] at h ⊢
      simp only [List.length_cons, List.length_append] at h
      exact ⟨IsValue.str s (by omega), fun h => absurd (Option.some.inj h) (by decide)⟩
  | int v =>
      exact ⟨IsValue.int _ (length_le64 v), fun h => absurd (Option.some.inj h) (by decide)⟩
  | dbl v =>
      exact ⟨IsValue.dbl _ (length_leDouble v), fun h => absurd (Option.some.inj h) (by decide)⟩

theorem Value.isValue (v : Value) (h : v.encode.length < 2 ^ 31) : IsValue v.encode := by
  cases v with
  | scalar s => exact (s.isValue h).1
  | arr elems =>
      have hle := length_le_encodeAll elems
      rw [Value.encode, List.length_append, length_outArr] at h
      -- an element is shorter than the reply, so its length is written as it is
      have hvals : ∀ e ∈ elems.map Scalar.encode, IsValue e := by
        intro e he
        have hshort := length_le_flatten he
        rw [← List.flatMap_def, ← encodeAll] at hshort
        rcases List.mem_map.mp he with ⟨s, _, rfl⟩
        exact (s.isValue (by omega)).1
      have hall := IsValue.arr _ (by rw [List.length_map]; omega) hvals
      rw [List.length_map, ← List.flatMap_def] at hall
      exact hall

/-- The client decodes a value within the limit to its end. -/
theorem printResponse_encode (v : Value) (h : v.encode.length ≤ kMaxMsg) :
    printResponse v.encode = .ok v.encode.length := by
  have hsmall : v.encode.length < 2 ^ 31 := Nat.lt_of_le_of_lt h (by decide)
  have hrun := printResponseLoop_value (v.isValue hsmall) (Nat.lt_succ_self _) []
    (by rw [List.append_nil]; exact hsmall)
  rw [List.append_nil] at hrun
  exact hrun

/-! ## The frame of a value -/

/-- A value is not empty. -/
theorem Value.length_pos (v : Value) : 0 < v.encode.length := by
  cases v with
  | scalar s => exact s.length_pos
  | arr elems =>
      rw [Value.encode, List.length_append, length_outArr]
      omega

/-- What a `read()` delivers. -/
def SockRead.bytes : SockRead → Bytes
  | .data bs => bs
  | _ => []

/-- The reads deliver data, or are interrupted, but do not fail or end. -/
def Delivering (rs : List SockRead) : Prop :=
  ∀ r ∈ rs, r = .eintr ∨ ∃ b bs, r = .data (b :: bs)

/-- `read_full` stores the next `n` bytes that arrive. What comes after reads
    that deliver enough does not matter. -/
theorem readFull_full (rs tail : List SockRead) (n : Nat) (got : Bytes) (h : Delivering rs)
    (hn : n ≤ (rs.flatMap SockRead.bytes).length) :
    ∃ rs', readFull (rs ++ tail) n got =
        (0, got ++ (rs.flatMap SockRead.bytes).take n, rs' ++ tail) ∧
      Delivering rs' ∧ rs'.flatMap SockRead.bytes = (rs.flatMap SockRead.bytes).drop n := by
  -- each read takes some of the `n` bytes, the last one no more than are left of them
  induction rs generalizing n got with
  | nil =>
      have hzero : n = 0 := Nat.le_zero.mp hn
      rw [hzero, List.nil_append]
      refine ⟨[], ?_, h, rfl⟩
      cases tail with
      | nil => rw [readFull, List.take_zero, List.append_nil]; rfl
      | cons r tail => rw [readFull, List.take_zero, List.append_nil]; rfl
  | cons r rs ih =>
      have hrest : Delivering rs := fun r' hr' => h r' (List.mem_cons_of_mem r hr')
      cases n with
      | zero =>
          refine ⟨r :: rs, ?_, h, rfl⟩
          rw [List.cons_append, readFull, List.take_zero, List.append_nil]
      | succ n =>
          rcases h r List.mem_cons_self with rfl | ⟨b, bs, rfl⟩
          · rw [List.cons_append, readFull]
            exact ih (n + 1) got hrest hn
          · have hflat : ((SockRead.data (b :: bs) :: rs).flatMap SockRead.bytes) =
                b :: bs ++ rs.flatMap SockRead.bytes := List.flatMap_cons
            rw [hflat] at hn ⊢
            rw [List.cons_append, readFull]
            by_cases hle : bs.length ≤ n
            · rw [if_pos hle]
              have hmore : n - bs.length ≤ (rs.flatMap SockRead.bytes).length := by
                rw [List.length_append, List.length_cons] at hn
                omega
              rcases ih (n - bs.length) (got ++ b :: bs) hrest hmore with ⟨rs', hrun, hd, hdrop⟩
              have hcut : n + 1 = (b :: bs).length + (n - bs.length) := by
                rw [List.length_cons]
                omega
              refine ⟨rs', ?_, hd, ?_⟩
              · rw [hrun, hcut, List.take_length_add_append, ← List.append_assoc]
              · rw [hdrop, hcut, List.drop_length_add_append]
            · rw [if_neg hle]
              have hlt : n < bs.length := Nat.lt_of_not_le hle
              refine ⟨.data (bs.drop n) :: rs, ?_, fun r hr => ?_, ?_⟩
              · rw [List.cons_append, List.take_succ_cons,
                  List.take_append_of_le_length (Nat.le_of_lt hlt), List.cons_append]
              · rcases List.mem_cons.mp hr with rfl | hr
                · rw [List.drop_eq_getElem_cons hlt]
                  exact Or.inr ⟨_, _, rfl⟩
                · exact hrest r hr
              · rw [List.flatMap_cons, SockRead.bytes, List.cons_append, List.drop_succ_cons,
                  List.drop_append_of_le_length (Nat.le_of_lt hlt)]

theorem zeroFill_full {got : Bytes} {n : Nat} (h : got.length = n) : zeroFill got n = got := by
  rw [zeroFill, h, Nat.sub_self, List.replicate_zero, List.append_nil]

/-- The client accepts the frame of a value within the limit, however it
    arrives. -/
theorem readResponse_frame (v : Value) (hv : v.encode.length ≤ kMaxMsg) {rs : List SockRead}
    {rest : Bytes} (hrs : Delivering rs)
    (hbytes : rs.flatMap SockRead.bytes = responseFrame v.encode ++ rest) :
    readResponse rs = .ok v.encode.length := by
  have hlt : v.encode.length < 2 ^ 32 := Nat.lt_of_le_of_lt hv (by decide)
  have hframe : rs.flatMap SockRead.bytes = le32 v.encode.length ++ (v.encode ++ rest) := by
    rw [hbytes, responseFrame, List.append_assoc]
  rcases readFull_full rs [] 4 [] hrs (by rw [hframe, List.length_append, length_le32]; omega) with
    ⟨rs₁, hhead, hrs₁, hrest₁⟩
  rw [hframe, List.take_left' (length_le32 _), List.nil_append, List.append_nil,
    List.append_nil] at hhead
  rw [hframe, List.drop_left' (length_le32 _)] at hrest₁
  rcases readFull_full rs₁ [] v.encode.length [] hrs₁
    (by rw [hrest₁, List.length_append]; omega) with ⟨rs₂, hbody, _⟩
  rw [hrest₁, List.take_left, List.nil_append, List.append_nil, List.append_nil] at hbody
  have hpos := v.length_pos
  simp only [readResponse, hhead, zeroFill_full (length_le32 _), leNat_le32 hlt, hbody,
    zeroFill_full, printResponse_encode v hv, ok_bind]
  rw [if_neg (by decide), if_neg (Nat.not_lt.mpr hv), if_neg (by decide), if_neg]
  rintro ⟨_, hne⟩
  exact hne rfl

end RedisServer
