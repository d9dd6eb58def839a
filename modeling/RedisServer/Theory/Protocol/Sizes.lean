import RedisServer.Theory.Protocol.Request

/-!
# The Arithmetic of the Encoder

`send_request` adds up the size of a body in 32 bits, tests the sum, allocates
a buffer of that size and copies the arguments with their full lengths. The
test says something about the size only as long as the sum has not wrapped.

## Main definitions

* `bodySize`: The size of a body, as a number.
* `EncoderOk`: The request is refused, or its sizes are exact and the copies
  fill the buffer.

## Theorems

* `sendRequest_wraps`: A sum that wrapped to a small one overruns the buffer.
* `encoder_iff`: The sizes for which the arithmetic is right.
-/

namespace RedisServer

open Lib

/-- The size of a body: the count, and every argument with its length. -/
def bodySize (cmd : List Bytes) : Nat := 4 + (cmd.map fun arg => 4 + arg.length).sum

/-- The request is refused before anything is laid out. Or the size computed is
    the size of the body, every length written is the length of its argument,
    and the copies stay inside the buffer and fill it: what it holds in the end
    is the frame, from the first byte to the last. -/
def EncoderOk (cmd : List Bytes) : Prop :=
  sendRequest cmd = .ok none ∨
    (msgLen cmd = bodySize cmd ∧ (∀ arg ∈ cmd, leNat (le32 arg.length) = arg.length) ∧
      ∃ frame, sendRequest cmd = .ok (some frame) ∧ frame.length = 4 + msgLen cmd ∧
        frame = le32 (bodySize cmd) ++ le32 cmd.length ++ encodeArgs cmd)

variable {cmd : List Bytes}

theorem length_encodeArgs (cmd : List Bytes) :
    (encodeArgs cmd).length = (cmd.map fun arg => 4 + arg.length).sum := by
  induction cmd with
  | nil => rfl
  | cons arg cmd ih =>
      rw [encodeArgs, List.length_append, List.length_append, length_le32, ih, List.map_cons,
        List.sum_cons]

theorem length_requestBody_eq (cmd : List Bytes) : (requestBody cmd).length = bodySize cmd := by
  rw [length_requestBody, length_encodeArgs, bodySize]

theorem arg_lt_bodySize {arg : Bytes} (h : arg ∈ cmd) : arg.length < bodySize cmd := by
  unfold bodySize
  induction cmd with
  | nil => exact absurd h List.not_mem_nil
  | cons arg' cmd ih =>
      rw [List.map_cons, List.sum_cons]
      rcases List.mem_cons.mp h with rfl | h
      · omega
      · have hlt := ih h
        omega

theorem sendRequest_none : sendRequest cmd = .ok none ↔ kMaxMsg < msgLen cmd := by
  unfold sendRequest
  by_cases hlong : kMaxMsg < msgLen cmd
  · rw [if_pos hlong]
    exact ⟨fun _ => hlong, fun _ => rfl⟩
  · rw [if_neg hlong]
    refine ⟨fun h => ?_, fun h => absurd h hlong⟩
    rcases bind_eq_ok.mp h with ⟨buf₁, _, h⟩
    rcases bind_eq_ok.mp h with ⟨buf₂, _, h⟩
    rcases bind_eq_ok.mp h with ⟨buf₃, _, h⟩
    exact absurd h (by simp only [Except.ok.injEq, reduceCtorEq, not_false_eq_true])

-- Every copy is within the buffer or fails, so a failure is an overrun.
theorem memcpyAt_cases (buf : Bytes) (pos : Nat) (src : Bytes) :
    (∃ buf', memcpyAt buf pos src = .ok buf') ∨ memcpyAt buf pos src = .error .outOfBounds := by
  unfold memcpyAt
  by_cases hfit : pos + src.length ≤ buf.length
  · rw [if_pos hfit]
    exact Or.inl ⟨_, rfl⟩
  · rw [if_neg hfit]
    exact Or.inr rfl

theorem sendArgs_cases (cmd : List Bytes) (buf : Bytes) (p : Nat) :
    (∃ buf', sendArgs cmd buf p = .ok buf') ∨ sendArgs cmd buf p = .error .outOfBounds := by
  induction cmd generalizing buf p with
  | nil => exact Or.inl ⟨buf, rfl⟩
  | cons arg cmd ih =>
      rw [sendArgs]
      rcases memcpyAt_cases buf p (le32 arg.length) with ⟨buf₁, h₁⟩ | h₁
      · rw [h₁, ok_bind]
        rcases memcpyAt_cases buf₁ (p + 4) arg with ⟨buf₂, h₂⟩ | h₂
        · rw [h₂, ok_bind]
          exact ih buf₂ (p + 4 + arg.length)
        · rw [h₂, error_bind]
          exact Or.inr rfl
      · rw [h₁, error_bind]
        exact Or.inr rfl

/-- A size that wrapped to one within the limit: the buffer is too small, and a
    copy leaves it. -/
theorem sendRequest_wraps (hsize : 2 ^ 32 ≤ bodySize cmd)
    (hwrap : bodySize cmd % 2 ^ 32 ≤ kMaxMsg) : sendRequest cmd = .error .outOfBounds := by
  have hmsg : msgLen cmd = bodySize cmd % 2 ^ 32 := by
    rw [msgLen_eq, length_requestBody_eq]
  have hno : ∀ frame, sendRequest cmd ≠ .ok (some frame) := by
    intro frame h
    have hfit := ((sendRequest_iff cmd frame).mp h).1
    rw [length_requestBody_eq] at hfit
    exact absurd (Nat.lt_of_le_of_lt hfit (by decide)) (Nat.not_lt.mpr hsize)
  unfold sendRequest at hno ⊢
  rw [hmsg, if_neg (Nat.not_lt.mpr hwrap)] at hno ⊢
  rcases memcpyAt_cases (List.replicate (4 + bodySize cmd % 2 ^ 32) 0) 0
    (le32 (bodySize cmd % 2 ^ 32)) with ⟨buf₁, h₁⟩ | h₁
  · simp only [h₁, ok_bind] at hno ⊢
    rcases memcpyAt_cases buf₁ 4 (le32 cmd.length) with ⟨buf₂, h₂⟩ | h₂
    · simp only [h₂, ok_bind] at hno ⊢
      rcases sendArgs_cases cmd buf₂ 8 with ⟨buf₃, h₃⟩ | h₃
      · simp only [h₃, ok_bind] at hno
        exact absurd rfl (hno buf₃)
      · rw [h₃, error_bind]
    · rw [h₂, error_bind]
  · simp only [h₁, error_bind]

/-- The arithmetic is right exactly for the bodies whose size has not wrapped,
    and for those whose wrapped size is still over the limit. -/
theorem encoder_iff (cmd : List Bytes) :
    EncoderOk cmd ↔ bodySize cmd < 2 ^ 32 ∨ kMaxMsg < bodySize cmd % 2 ^ 32 := by
  have hmsg : msgLen cmd = bodySize cmd % 2 ^ 32 := by
    rw [msgLen_eq, length_requestBody_eq]
  unfold EncoderOk
  rw [sendRequest_none, hmsg]
  by_cases hlong : kMaxMsg < bodySize cmd % 2 ^ 32
  · exact ⟨fun _ => Or.inr hlong, fun _ => Or.inl hlong⟩
  · constructor
    · intro h
      rcases h with h | ⟨h, _⟩
      · exact absurd h hlong
      · left
        rw [← h]
        exact Nat.mod_lt _ (by decide)
    · intro h
      -- the size was not truncated, so what is written is the whole body
      have hsmall := h.resolve_right hlong
      have hmod := Nat.mod_eq_of_lt hsmall
      rw [hmod, Nat.not_lt] at hlong
      refine Or.inr ⟨hmod, fun arg harg => ?_, le32 (bodySize cmd) ++ requestBody cmd, ?_, ?_, ?_⟩
      · exact leNat_le32 ((arg_lt_bodySize harg).trans hsmall)
      · rw [sendRequest_iff, length_requestBody_eq]
        exact ⟨hlong, rfl⟩
      · rw [List.length_append, length_le32, length_requestBody_eq, hmod]
      · rw [requestBody, List.append_assoc]

/-- One argument of `2 ^ 32 - 4` bytes: the size wraps to 4, and the copy of
    the argument's length leaves the buffer of 8 bytes. -/
theorem encoder_overrun :
    ¬ EncoderOk [List.replicate (2 ^ 32 - 4) 0] ∧
      msgLen [List.replicate (2 ^ 32 - 4) 0] = 4 ∧
      sendRequest [List.replicate (2 ^ 32 - 4) 0] = .error .outOfBounds := by
  -- Only the length of the argument matters.
  obtain ⟨arg, harg⟩ : ∃ arg : Bytes, arg = List.replicate (2 ^ 32 - 4) 0 := ⟨_, rfl⟩
  have hlen : arg.length = 2 ^ 32 - 4 := by rw [harg, List.length_replicate]
  rw [← harg]
  have hsize : bodySize [arg] = 2 ^ 32 + 4 := by
    rw [bodySize, List.map_singleton, List.sum_singleton, hlen]
    omega
  have hmsg : msgLen [arg] = 4 := by
    rw [msgLen_eq, length_requestBody_eq, hsize]
    omega
  have hmax : kMaxMsg = 33554432 := rfl
  have herror := sendRequest_wraps (Nat.le_of_lt (by omega : 2 ^ 32 < bodySize [arg])) (by omega)
  refine ⟨fun hok => ?_, hmsg, herror⟩
  rcases hok with h | ⟨h, _⟩
  · rw [herror] at h
    cases h
  · omega

end RedisServer
