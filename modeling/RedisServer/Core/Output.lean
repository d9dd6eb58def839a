import RedisServer.Core.Base

/-!
# Serialized Values

The `out_*` functions of `server.cpp`, which append one tagged value to a
buffer, and the two functions that put a response into a frame.

An array whose length is not known in advance is written with a placeholder
that `out_end_arr` patches. A response is framed the same way: its length is
patched in at the end, and a response over `k_max_msg` is replaced by an
error before that.

## Main definitions

* `outNil`, `outStr`, `outInt`, `outDbl`, `outErr`, `outArr`: One value.
* `outBeginArr`, `outEndArr`: An array of unknown length.
* `responseBegin`, `responseEnd`: The frame.
-/

namespace RedisServer

/-- `k_max_msg`: 32 MB. -/
def kMaxMsg : Nat := 33554432

/-- `ERR_UNKNOWN`: unknown command. -/
def errUnknown : Nat := 1
/-- `ERR_TOO_BIG`: response too big. -/
def errTooBig : Nat := 2
/-- `ERR_BAD_TYP`: unexpected value type. -/
def errBadTyp : Nat := 3
/-- `ERR_BAD_ARG`: bad arguments. -/
def errBadArg : Nat := 4
/-- `ERR_BAD_REQ`: bad request. -/
def errBadReq : Nat := 5

/-- `TAG_NIL`. -/
def tagNil : UInt8 := 0
/-- `TAG_ERR`: error code and message. -/
def tagErr : UInt8 := 1
/-- `TAG_STR`: string. -/
def tagStr : UInt8 := 2
/-- `TAG_INT`: `int64_t`. -/
def tagInt : UInt8 := 3
/-- `TAG_DBL`: `double`. -/
def tagDbl : UInt8 := 4
/-- `TAG_ARR`: array. -/
def tagArr : UInt8 := 5

/-- `out_nil`. -/
def outNil (out : Bytes) : Bytes := out ++ [tagNil]

/-- `out_str`. -/
def outStr (out s : Bytes) : Bytes := out ++ [tagStr] ++ le32 s.length ++ s

/-- `out_int`. -/
def outInt (out : Bytes) (val : Int) : Bytes := out ++ [tagInt] ++ le64 val

/-- `out_dbl`. -/
def outDbl (out : Bytes) (val : Double) : Bytes := out ++ [tagDbl] ++ leDouble val

/-- `out_err`. -/
def outErr (out : Bytes) (code : Nat) (msg : Bytes) : Bytes :=
  out ++ [tagErr] ++ le32 code ++ le32 msg.length ++ msg

/-- `out_arr`. -/
def outArr (out : Bytes) (n : Nat) : Bytes := out ++ [tagArr] ++ le32 n

/-- `memcpy` into a buffer. -/
def memcpyAt (out : Bytes) (pos : Nat) (src : Bytes) : Result Bytes :=
  if pos + src.length ≤ out.length then
    .ok (out.take pos ++ src ++ out.drop (pos + src.length))
  else .error .outOfBounds

/-- `out_begin_arr`: the buffer and the place of the length. -/
def outBeginArr (out : Bytes) : Bytes × Nat :=
  let out := out ++ [tagArr] ++ le32 0
  (out, out.length - 4)

/-- `out_end_arr`: patch the length. -/
def outEndArr (out : Bytes) (ctx n : Nat) : Result Bytes :=
  -- the assertion looks at the tag before the length
  match out[ctx - 1]? with
  | none => .error .outOfBounds
  | some tag => if tag = tagArr then memcpyAt out ctx (le32 n) else .error .assertFailed

/-- `response_begin`: reserve the frame's header. -/
def responseBegin (out : Bytes) : Bytes × Nat := (out ++ le32 0, out.length)

/-- `response_size`. -/
def responseSize (out : Bytes) (header : Nat) : Nat := out.length - header - 4

/-- `response_end`: replace a response that is too big, and patch the
    header. -/
def responseEnd (out : Bytes) (header : Nat) : Result Bytes :=
  let out :=
    -- what was written so far is cut off and replaced by an error
    if kMaxMsg < responseSize out header then
      outErr (out.take (header + 4)) errTooBig (ascii "response is too big")
    else out
  memcpyAt out header (le32 (responseSize out header))

end RedisServer
