import Mathlib.Data.List.Basic
import Mathlib.Tactic.Common

/-!
# Framed Streams

A stream cut into items by a decoder that looks at the front of what has
arrived. It asks for more, rejects the stream, or accepts an item and says how
much of the stream the item takes. What makes the stream's meaning independent
of how it arrives is one property: a verdict that is not a request for more
stands whatever arrives later.

`decode` takes every item off the front of a stream. Decoding in pieces, each
time with the rest the last piece left, gives the items of the whole stream.

## Main definitions

* `Verdict`: What a decoder says about the front of a stream.
* `Framer`: A decoder whose verdicts stand.
* `Framer.Splits`: A stream is a list of items followed by a rest.
* `Framer.decode`: The items at the front of a stream, and the rest.

## Theorems

* `decode_splits`, `decode_rest`: The items are the longest list there is.
* `Splits.unique`, `Splits.longest`: It is the only one of that kind, and the
  longest of all.
* `decode_append`: Decoding in pieces.
* `decode_stuck`: After a rejection nothing is decoded.
-/

namespace Lib

/-- What a decoder says about the front of a stream: it needs more of it,
    rejects it, or finds an item that takes `n` elements. -/
inductive Verdict (β : Type)
  | more
  | reject
  | accept (b : β) (n : Nat)
  deriving DecidableEq, Repr

/-- A decoder whose verdicts stand when the stream grows, and whose items are
    not empty and have arrived. -/
structure Framer (α β : Type) where
  next : List α → Verdict β
  bound : ∀ {xs b n}, next xs = .accept b n → 0 < n ∧ n ≤ xs.length
  stands : ∀ {xs} (ys : List α), next xs ≠ .more → next (xs ++ ys) = next xs

namespace Framer

variable {α β : Type} {F : Framer α β}

/-- The stream is these items, one after the other, and a rest. -/
inductive Splits (F : Framer α β) : List α → List β → List α → Prop
  | nil (xs : List α) : Splits F xs [] xs
  | cons {xs rest : List α} {b : β} {n : Nat} {bs : List β} : F.next xs = .accept b n →
      Splits F (xs.drop n) bs rest → Splits F xs (b :: bs) rest

/-- Take items off the front, at most `fuel` of them. -/
def decodeLoop (F : Framer α β) : Nat → List α → List β × List α
  | 0, xs => ([], xs)
  | fuel + 1, xs =>
    match F.next xs with
    | .accept b n => (b :: (F.decodeLoop fuel (xs.drop n)).1, (F.decodeLoop fuel (xs.drop n)).2)
    | _ => ([], xs)

/-- The items at the front of a stream, and the rest. An item takes an element
    or more, so there are no more items than elements. -/
def decode (F : Framer α β) (xs : List α) : List β × List α := F.decodeLoop xs.length xs

theorem length_drop_lt {xs : List α} {b : β} {n : Nat} (h : F.next xs = .accept b n) :
    (xs.drop n).length < xs.length := by
  have hb := F.bound h
  rw [List.length_drop]
  omega

theorem decodeLoop_splits (fuel : Nat) (xs : List α) :
    F.Splits xs (F.decodeLoop fuel xs).1 (F.decodeLoop fuel xs).2 := by
  induction fuel generalizing xs with
  | zero => exact Splits.nil xs
  | succ fuel ih =>
      unfold decodeLoop
      cases h : F.next xs with
      | more => exact Splits.nil xs
      | reject => exact Splits.nil xs
      | accept b n => exact Splits.cons h (ih (xs.drop n))

/-- A stream is the items decoded from it, and the rest. -/
theorem decode_splits (xs : List α) : F.Splits xs (F.decode xs).1 (F.decode xs).2 :=
  decodeLoop_splits xs.length xs

theorem decodeLoop_rest {fuel : Nat} {xs : List α} (hfuel : xs.length ≤ fuel) (b : β) (n : Nat) :
    F.next (F.decodeLoop fuel xs).2 ≠ .accept b n := by
  induction fuel generalizing xs with
  | zero =>
      intro h
      have hb := F.bound h
      simp only [decodeLoop] at hb
      omega
  | succ fuel ih =>
      unfold decodeLoop
      cases h : F.next xs with
      | more => simp only [h, ne_eq, reduceCtorEq, not_false_eq_true]
      | reject => simp only [h, ne_eq, reduceCtorEq, not_false_eq_true]
      | accept b' n' =>
          have hlt := length_drop_lt h
          exact ih (by omega)

/-- No item is left in the rest. -/
theorem decode_rest (xs : List α) (b : β) (n : Nat) : F.next (F.decode xs).2 ≠ .accept b n :=
  decodeLoop_rest (Nat.le_refl _) b n

/-- A stream splits in one way into items and a rest without an item. -/
theorem Splits.unique {xs rest rest' : List α} {bs bs' : List β} (h : F.Splits xs bs rest)
    (h' : F.Splits xs bs' rest') (hrest : ∀ b n, F.next rest ≠ .accept b n)
    (hrest' : ∀ b n, F.next rest' ≠ .accept b n) : bs = bs' ∧ rest = rest' := by
  induction h generalizing bs' with
  | nil xs =>
      cases h' with
      | nil => exact ⟨rfl, rfl⟩
      | cons hnext _ => exact absurd hnext (hrest _ _)
  | cons hnext hsplit ih =>
      cases h' with
      | nil => exact absurd hnext (hrest' _ _)
      | cons hnext' hsplit' =>
          rw [hnext, Verdict.accept.injEq] at hnext'
          rw [← hnext'.2] at hsplit'
          rcases ih hsplit' hrest with ⟨hbs, hr⟩
          rw [hnext'.1, hbs]
          exact ⟨rfl, hr⟩

theorem Splits.length_le {xs rest : List α} {bs : List β} (h : F.Splits xs bs rest) :
    rest.length ≤ xs.length := by
  induction h with
  | nil xs => exact Nat.le_refl _
  | cons hnext _ ih => exact Nat.le_trans ih (Nat.le_of_lt (length_drop_lt hnext))

/-- What a stream is decoded to. -/
theorem decode_eq_iff {xs rest : List α} {bs : List β} :
    F.decode xs = (bs, rest) ↔ F.Splits xs bs rest ∧ ∀ b n, F.next rest ≠ .accept b n := by
  constructor
  · intro h
    have hs := decode_splits (F := F) xs
    have hr := decode_rest (F := F) xs
    rw [h] at hs hr
    exact ⟨hs, hr⟩
  · rintro ⟨hs, hr⟩
    rcases (decode_splits xs).unique hs (decode_rest xs) hr with ⟨h₁, h₂⟩
    rw [← h₁, ← h₂]

theorem Splits.trans {xs mid rest : List α} {bs bs' : List β} (h : F.Splits xs bs mid)
    (h' : F.Splits mid bs' rest) : F.Splits xs (bs ++ bs') rest := by
  induction h with
  | nil xs => exact h'
  | cons hnext _ ih => exact Splits.cons hnext (ih h')

/-- A stream that grows keeps its items. -/
theorem Splits.append {xs rest : List α} {bs : List β} (h : F.Splits xs bs rest) (ys : List α) :
    F.Splits (xs ++ ys) bs (rest ++ ys) := by
  induction h with
  | nil xs => exact Splits.nil _
  | cons hnext _ ih =>
      rename_i xs rest b n bs _
      refine Splits.cons (b := b) (n := n) ?_ ?_
      · rw [F.stands ys (by rw [hnext]; exact fun h => by cases h), hnext]
      · rw [List.drop_append_of_le_length (F.bound hnext).2]
        exact ih

/-- The items of a stream are the longest series there is at its front. -/
theorem Splits.longest {xs rest rest' : List α} {bs bs' : List β} (h : F.Splits xs bs rest)
    (hrest : ∀ b n, F.next rest ≠ .accept b n) (h' : F.Splits xs bs' rest') :
    bs' <+: bs ∧ rest.length ≤ rest'.length := by
  have hs := decode_splits (F := F) rest'
  rcases h.unique (h'.trans hs) hrest (decode_rest rest') with ⟨hbs, hr⟩
  rw [hbs, hr]
  exact ⟨List.prefix_append _ _, hs.length_le⟩

/-- Decoding a stream in two pieces. -/
theorem decode_append (xs ys : List α) :
    F.decode (xs ++ ys) = ((F.decode xs).1 ++ (F.decode ((F.decode xs).2 ++ ys)).1,
      (F.decode ((F.decode xs).2 ++ ys)).2) :=
  decode_eq_iff.mpr ⟨((decode_splits xs).append ys).trans (decode_splits _), decode_rest _⟩

/-- A stream that asks for more has no item. -/
theorem decode_of_not_accept {xs : List α} (h : ∀ b n, F.next xs ≠ .accept b n) :
    F.decode xs = ([], xs) := decode_eq_iff.mpr ⟨Splits.nil xs, h⟩

theorem decode_of_accept {xs : List α} {b : β} {n : Nat} (h : F.next xs = .accept b n) :
    F.decode xs = (b :: (F.decode (xs.drop n)).1, (F.decode (xs.drop n)).2) :=
  decode_eq_iff.mpr ⟨Splits.cons h (decode_splits _), decode_rest _⟩

/-- After a rejection nothing is decoded. -/
theorem decode_stuck {xs : List α} (h : F.next xs = .reject) (ys : List α) :
    F.decode (xs ++ ys) = ([], xs ++ ys) := by
  refine decode_of_not_accept fun b n => ?_
  rw [F.stands ys (by rw [h]; exact fun h => by cases h), h]
  exact fun h => by cases h

end Framer

end Lib
