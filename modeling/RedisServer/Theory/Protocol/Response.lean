import RedisServer.Core.Commands
import RedisServer.Theory.Protocol.Request

/-!
# The Response Frame

`response_begin` reserves a header at the end of the outgoing buffer and
`response_end` fills it in. Whatever was in the buffer before stays, and what
is added is one frame: the length of the payload, and the payload, or an error
in its place when it is over the limit.

## Main definitions

* `responseFrame`: A payload with its length.
* `capped`: The payload that is sent.

## Theorems

* `responseEnd_eq`: A frame is appended.
* `respond_ne_nil`: A response is not empty.
-/

namespace RedisServer

/-- A payload with its length before it. -/
def responseFrame (payload : Bytes) : Bytes := le32 payload.length ++ payload

/-- The error that takes the place of a payload over the limit. -/
def tooBig : Bytes := outErr [] errTooBig (ascii "response is too big")

/-- The payload that is sent. -/
def capped (payload : Bytes) : Bytes := if kMaxMsg < payload.length then tooBig else payload

theorem outErr_eq (out : Bytes) (code : Nat) (msg : Bytes) :
    outErr out code msg = out ++ outErr [] code msg := by
  simp only [outErr, List.append_assoc, List.nil_append]

/-- `response_end` appends the frame of the payload to what was in the buffer
    at `response_begin`. -/
theorem responseEnd_eq (pre payload : Bytes) :
    responseEnd (pre ++ le32 0 ++ payload) pre.length = .ok (pre ++ responseFrame (capped payload)) := by
  have hsize : ∀ payload : Bytes,
      responseSize (pre ++ le32 0 ++ payload) pre.length = payload.length := by
    intro payload
    rw [responseSize, List.length_append, List.length_append, length_le32]
    omega
  have htake : (pre ++ le32 0 ++ payload).take (pre.length + 4) = pre ++ le32 0 :=
    List.take_left' (by rw [List.length_append, length_le32])
  have hcopy : ∀ payload : Bytes,
      memcpyAt (pre ++ le32 0 ++ payload) pre.length (le32 payload.length) =
        .ok (pre ++ responseFrame payload) := by
    intro payload
    rw [List.append_assoc, memcpyAt_append (by rw [List.length_append, length_le32, length_le32]; omega),
      length_le32, List.drop_left' (length_le32 0), responseFrame, List.append_assoc]
  rw [responseEnd, hsize, htake, outErr_eq, ← tooBig]
  by_cases hbig : kMaxMsg < payload.length
  · rw [if_pos hbig, hsize, hcopy, capped, if_pos hbig]
  · rw [if_neg hbig, hsize, hcopy, capped, if_neg hbig]

/-- A response is not empty. -/
theorem respond_ne_nil {R : Runtime} {g g' : GData} {c now : Nat} {cmd : List Bytes} {out : Bytes}
    (h : respond R g c cmd now = .ok (g', out)) : out ≠ [] := by
  rcases bind_eq_ok.mp h with ⟨⟨g₁, out₁⟩, _, h⟩
  rcases bind_eq_ok.mp h with ⟨out₂, hend, h⟩
  rw [Except.ok.injEq, Prod.mk.injEq] at h
  rw [← h.2]
  intro hnil
  rcases length_of_memcpyAt hend with ⟨hlen, hfit⟩
  rw [hnil] at hlen
  rw [← hlen, length_le32, List.length_nil] at hfit
  omega

end RedisServer
