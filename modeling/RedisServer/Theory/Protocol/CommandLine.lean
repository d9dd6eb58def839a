import RedisServer.Core.Tokenizer

/-!
# Splitting a Command Line

What the client makes of a line. Its loop is at some suffix of the line, and a
turn takes one piece off it: a space, an argument in quotes, or an argument
that ends at the next space or with the line. A quote that is never closed is
the exception. It is reported and left where it is, so the loop comes to it
again at every turn.

Whether a line holds such a quote is a matter of reading it from left to
right: `Reading` tells spaces, bare arguments and arguments in quotes apart,
and the line is at fault when it ends in the last.

## Main definitions

* `Takes`: What one turn takes off the suffix.
* `Reading`, `EndsQuoted`: The reading of a line.
* `Written`, `Rendered`: The ways to write arguments on a line.

## Theorems

* `tokenLoop_takes`: What a turn of the loop takes off the line.
* `tokenLoop_returns`: The loop ends on a line whose quotes are closed.
* `tokenLoop_stuck`: It never ends on another.
* `tokenize_rendered`: The arguments come back as they were written.
-/

namespace RedisServer

/-- The bytes of an argument that is not in quotes. -/
structure Bare (arg : Bytes) : Prop where
  nonempty : arg ≠ []
  no_space : space ∉ arg
  head : arg.head? ≠ some quote

/-- What one turn takes off the suffix it is at: what is left, and the
    arguments it adds. -/
inductive Takes : Bytes → Bytes → List Bytes → Prop
  | blank (rest : Bytes) : Takes (space :: rest) rest []
  | unmatched (rest : Bytes) : quote ∉ rest → Takes (quote :: rest) (quote :: rest) []
  | quoted (arg rest : Bytes) : quote ∉ arg → Takes (quote :: (arg ++ quote :: rest)) rest [arg]
  | bare (arg rest : Bytes) : Bare arg → Takes (arg ++ space :: rest) (space :: rest) [arg]
  | last (arg : Bytes) : Bare arg → Takes arg [] [arg]

/-- The suffix of the line at a cursor. -/
def suffixAt (line : Bytes) : Option Nat → Bytes
  | none => []
  | some pos => line.drop pos

theorem drop_succ {line : Bytes} {pos : Nat} {b : UInt8} {rest : Bytes}
    (h : line.drop pos = b :: rest) : line.drop (pos + 1) = rest := by
  rw [← List.drop_drop, h, List.drop_one, List.tail_cons]

theorem lt_of_drop_cons {line : Bytes} {pos : Nat} {b : UInt8} {rest : Bytes}
    (h : line.drop pos = b :: rest) : pos < line.length := by
  have hlen := congrArg List.length h
  rw [List.length_drop, List.length_cons] at hlen
  omega

/-- `find` reports the first occurrence. -/
theorem findFrom_found {line pre rest : Bytes} {pos : Nat} {b : UInt8}
    (h : line.drop pos = pre ++ b :: rest) (hpre : b ∉ pre) :
    findFrom line b pos = some (pos + pre.length) := by
  have hidx : (pre ++ b :: rest).idxOf? b = some pre.length := by
    refine List.idxOf?_eq_some_iff.mpr ⟨by rw [List.length_append, List.length_cons]; omega, ?_, ?_⟩
    · simp only [List.getElem_append_right (Nat.le_refl _), Nat.sub_self, List.getElem_cons_zero]
    · intro j hj heq
      rw [List.getElem_append_left hj] at heq
      exact hpre (heq ▸ List.getElem_mem hj)
  rw [findFrom, h, hidx, Option.map_some]

theorem findFrom_npos {line : Bytes} {pos : Nat} {b : UInt8} (h : b ∉ line.drop pos) :
    findFrom line b pos = none := by
  rw [findFrom, List.idxOf?_eq_none_iff.mpr h, Option.map_none]

/-- `substr` of what stands at the position. -/
theorem substr_prefix {line arg rest : Bytes} {pos : Nat} (hpos : pos ≤ line.length)
    (h : line.drop pos = arg ++ rest) : substr line pos (some arg.length) = .ok arg := by
  simp only [substr, if_pos hpos, h, List.take_left]

theorem substr_npos {line : Bytes} {pos : Nat} (hpos : pos ≤ line.length) :
    substr line pos none = .ok (line.drop pos) := by
  simp only [substr, if_pos hpos]

/-- A turn at a byte of the line. -/
theorem tokenLoop_cons {input : Bytes} {pos : Nat} {b : UInt8} {rest : Bytes}
    (h : input.drop pos = b :: rest) (fuel : Nat) (cmd : List Bytes) :
    tokenLoop input (fuel + 1) (some pos) cmd =
      (tokenTurn input pos b cmd >>= fun r => tokenLoop input fuel r.1 r.2) := by
  have hget : input[pos]? = some b := by
    rw [← List.head?_drop, h, List.head?_cons]
  simp only [tokenLoop, hget]

/-- At the end of the line the loop is done, wherever its cursor stands. -/
theorem tokenLoop_nil {input : Bytes} {cursor : Option Nat} (h : suffixAt input cursor = [])
    (fuel : Nat) (cmd : List Bytes) : tokenLoop input (fuel + 1) cursor cmd = .ok cmd := by
  cases cursor with
  | none => rfl
  | some pos =>
    have hdrop : input.drop pos = [] := h
    have hget : input[pos]? = none := by
      rw [← List.head?_drop, hdrop, List.head?_nil]
    simp only [tokenLoop, hget]

/-- A bare argument starts with neither of the two bytes the loop looks for. -/
theorem Bare.cons {arg : Bytes} (h : Bare arg) :
    ∃ b tail, arg = b :: tail ∧ b ≠ space ∧ b ≠ quote := by
  cases arg with
  | nil => exact absurd rfl h.nonempty
  | cons b tail =>
    refine ⟨b, tail, rfl, ?_, ?_⟩
    · intro hb
      exact h.no_space (hb ▸ List.mem_cons_self)
    · intro hb
      exact h.head (congrArg some hb)

/-- One turn of the loop takes one piece off the suffix it is at. -/
theorem tokenLoop_takes {line rest : Bytes} {args : List Bytes} {cursor : Option Nat}
    (h : Takes (suffixAt line cursor) rest args) :
    ∃ cursor', suffixAt line cursor' = rest ∧ ∀ fuel cmd,
      tokenLoop line (fuel + 1) cursor cmd = tokenLoop line fuel cursor' (cmd ++ args) := by
  cases cursor with
  | none =>
    -- no piece starts at the end of the line
    exfalso
    generalize hnil : suffixAt line none = piece at h
    cases h with
    | blank => nomatch hnil
    | unmatched => nomatch hnil
    | quoted => nomatch hnil
    | bare arg _ _ => exact absurd hnil.symm (List.append_ne_nil_of_right_ne_nil arg (List.cons_ne_nil _ _))
    | last _ harg => exact harg.nonempty hnil.symm
  | some pos =>
    generalize hdrop : suffixAt line (some pos) = piece at h
    rw [suffixAt] at hdrop
    cases h with
    | blank =>
      refine ⟨some (pos + 1), drop_succ hdrop, fun fuel cmd => ?_⟩
      rw [tokenLoop_cons hdrop, tokenTurn, if_pos rfl, ok_bind, List.append_nil]
    | unmatched tail hq =>
      refine ⟨some pos, hdrop, fun fuel cmd => ?_⟩
      have hnpos : findFrom line quote (pos + 1) = none :=
        findFrom_npos ((drop_succ hdrop).symm ▸ hq)
      rw [tokenLoop_cons hdrop, tokenTurn, if_neg (by decide), if_pos rfl, hnpos, List.append_nil]
      rfl
    | quoted arg _ hq =>
      have hbody := drop_succ hdrop
      have hlen := lt_of_drop_cons hdrop
      refine ⟨some (pos + 1 + arg.length + 1), ?_, fun fuel cmd => ?_⟩
      · rw [suffixAt]
        refine drop_succ (b := quote) ?_
        rw [← List.drop_drop, hbody, List.drop_left]
      · have hsub : substr line (pos + 1) (some (pos + 1 + arg.length - pos - 1)) = .ok arg := by
          rw [show pos + 1 + arg.length - pos - 1 = arg.length by omega]
          exact substr_prefix hlen hbody
        rw [tokenLoop_cons hdrop, tokenTurn, if_neg (by decide), if_pos rfl, findFrom_found hbody hq]
        simp only [hsub, ok_bind]
    | bare arg _ harg =>
      rcases harg.cons with ⟨b, tail, hcons, hb, hq⟩
      have hhead := hdrop
      rw [hcons, List.cons_append] at hhead
      have hlen := lt_of_drop_cons hhead
      refine ⟨some (pos + arg.length), ?_, fun fuel cmd => ?_⟩
      · rw [suffixAt, ← List.drop_drop, hdrop, List.drop_left]
      · rw [tokenLoop_cons hhead, tokenTurn, if_neg hb, if_neg hq]
        simp only [findFrom_found hdrop harg.no_space, Option.map_some, Nat.add_sub_cancel_left,
          substr_prefix (Nat.le_of_lt hlen) hdrop, ok_bind]
    | last _ harg =>
      rcases harg.cons with ⟨b, tail, hcons, hb, hq⟩
      have hhead : line.drop pos = b :: tail := hdrop.trans hcons
      have hlen := lt_of_drop_cons hhead
      refine ⟨none, rfl, fun fuel cmd => ?_⟩
      rw [tokenLoop_cons hhead, tokenTurn, if_neg hb, if_neg hq]
      simp only [findFrom_npos (hdrop.symm ▸ harg.no_space), Option.map_none,
        substr_npos (Nat.le_of_lt hlen), ok_bind, hdrop]

/-- At every suffix but the empty one there is a piece to take. -/
theorem exists_takes {piece : Bytes} (hne : piece ≠ []) : ∃ rest args, Takes piece rest args := by
  cases piece with
  | nil => exact absurd rfl hne
  | cons b tail =>
    by_cases hb : b = space
    · rw [hb]
      exact ⟨_, _, .blank tail⟩
    by_cases hq : b = quote
    · rw [hq]
      by_cases hclosed : quote ∈ tail
      · rcases List.eq_append_cons_of_mem hclosed with ⟨arg, rest, htail, harg⟩
        rw [htail]
        exact ⟨_, _, .quoted arg rest harg⟩
      · exact ⟨_, _, .unmatched tail hclosed⟩
    · have hhead : ∀ more, (b :: more).head? ≠ some quote := fun more heq =>
        hq (Option.some.inj heq)
      by_cases hsp : space ∈ b :: tail
      · rcases List.eq_append_cons_of_mem hsp with ⟨arg, rest, htail, harg⟩
        cases arg with
        | nil => exact absurd (List.cons.inj htail).1 hb
        | cons c more =>
          have hc : b = c := (List.cons.inj htail).1
          rw [htail]
          exact ⟨_, _, .bare _ rest ⟨List.cons_ne_nil _ _, harg, hc ▸ hhead more⟩⟩
      · exact ⟨_, _, .last _ ⟨List.cons_ne_nil _ _, hsp, hhead tail⟩⟩

/-- How a line is read from left to right. -/
inductive Reading
  | between
  | word
  | quoted
  deriving DecidableEq, Repr

/-- The reading after one more byte. A quote opens an argument only where one
    can start. -/
def Reading.next : Reading → UInt8 → Reading
  | .between, b => if b = space then .between else if b = quote then .quoted else .word
  | .word, b => if b = space then .between else .word
  | .quoted, b => if b = quote then .between else .quoted

/-- The reading of a line that starts between two arguments. -/
def reading (line : Bytes) : Reading := line.foldl Reading.next .between

/-- The line ends inside an argument whose quote is not closed. -/
def EndsQuoted (line : Bytes) : Prop := reading line = .quoted

theorem foldl_word {s : Bytes} (h : space ∉ s) : s.foldl Reading.next .word = .word := by
  induction s with
  | nil => rfl
  | cons b s ih =>
    rw [List.mem_cons, not_or] at h
    rw [List.foldl_cons, Reading.next, if_neg (Ne.symm h.1), ih h.2]

theorem foldl_quoted {s : Bytes} (h : quote ∉ s) : s.foldl Reading.next .quoted = .quoted := by
  induction s with
  | nil => rfl
  | cons b s ih =>
    rw [List.mem_cons, not_or] at h
    rw [List.foldl_cons, Reading.next, if_neg (Ne.symm h.1), ih h.2]

theorem reading_bare {arg : Bytes} (h : Bare arg) : reading arg = .word := by
  rcases h.cons with ⟨b, tail, rfl, hb, hq⟩
  rw [reading, List.foldl_cons, Reading.next, if_neg hb, if_neg hq,
    foldl_word (fun hmem => h.no_space (List.mem_cons_of_mem _ hmem))]

/-- What a turn takes off does not open a quote, or it is one. -/
theorem Takes.endsQuoted_iff {piece rest : Bytes} {args : List Bytes} (h : Takes piece rest args) :
    EndsQuoted piece ↔ EndsQuoted rest := by
  cases h with
  | blank => exact Iff.rfl
  | unmatched => exact Iff.rfl
  | quoted arg rest harg =>
    have hread : reading (quote :: (arg ++ quote :: rest)) = reading rest := by
      rw [reading, List.foldl_cons, List.foldl_append, List.foldl_cons,
        show Reading.next .between quote = .quoted from rfl, foldl_quoted harg]
      rfl
    rw [EndsQuoted, EndsQuoted, hread]
  | bare arg rest harg =>
    have hread : reading (arg ++ space :: rest) = reading (space :: rest) := by
      rw [reading, List.foldl_append, ← reading, reading_bare harg]
      rfl
    rw [EndsQuoted, EndsQuoted, hread]
  | last _ harg =>
    rw [EndsQuoted, EndsQuoted, reading_bare harg]
    exact ⟨nofun, nofun⟩

/-- The suffix gets shorter, unless the turn is at a quote that is not
    closed. -/
theorem Takes.length_lt {piece rest : Bytes} {args : List Bytes} (h : Takes piece rest args)
    (hclosed : ¬ EndsQuoted piece) : rest.length < piece.length := by
  cases h with
  | blank => exact Nat.lt_succ_self _
  | unmatched rest hq => exact absurd (foldl_quoted hq) hclosed
  | quoted arg rest harg =>
    rw [List.length_cons, List.length_append, List.length_cons]
    omega
  | bare arg rest harg =>
    rw [List.length_append]
    exact Nat.lt_add_of_pos_left (List.length_pos_of_ne_nil harg.nonempty)
  | last _ harg => exact List.length_pos_of_ne_nil harg.nonempty

/-- The loop ends on a line whose quotes are closed, after at most as many
    turns as there are bytes, and one to see the end. -/
theorem tokenLoop_returns {line : Bytes} {fuel : Nat} (cursor : Option Nat) {cmd : List Bytes}
    (hclosed : ¬ EndsQuoted (suffixAt line cursor)) (hfuel : (suffixAt line cursor).length < fuel) :
    ∃ args, tokenLoop line fuel cursor cmd = .ok args := by
  induction fuel generalizing cursor cmd with
  | zero => omega
  | succ fuel ih =>
    by_cases hnil : suffixAt line cursor = []
    · exact ⟨_, tokenLoop_nil hnil fuel cmd⟩
    · rcases exists_takes hnil with ⟨rest, args, hturn⟩
      rcases tokenLoop_takes hturn with ⟨cursor', hrest, hloop⟩
      rw [hloop]
      refine ih cursor' ?_ ?_
      · rw [hrest, ← hturn.endsQuoted_iff]
        exact hclosed
      · have hlt := hturn.length_lt hclosed
        rw [hrest]
        omega

/-- On another line it never ends. -/
theorem tokenLoop_stuck {line : Bytes} (cursor : Option Nat) {cmd : List Bytes}
    (hopen : EndsQuoted (suffixAt line cursor)) (fuel : Nat) :
    tokenLoop line fuel cursor cmd = .error .noProgress := by
  induction fuel generalizing cursor cmd with
  | zero => rfl
  | succ fuel ih =>
    have hne : suffixAt line cursor ≠ [] := by
      intro hnil
      rw [hnil] at hopen
      nomatch hopen
    rcases exists_takes hne with ⟨rest, args, hturn⟩
    rcases tokenLoop_takes hturn with ⟨cursor', hrest, hloop⟩
    rw [hloop]
    refine ih cursor' ?_
    rw [hrest, ← hturn.endsQuoted_iff]
    exact hopen

/-- The loop comes to its end on a line. -/
def TokenizerEnds (line : Bytes) : Prop :=
  ∃ fuel args, tokenLoop line fuel (some 0) [] = .ok args

/-- The client splits a line exactly when the line does not end inside an
    argument in quotes. -/
theorem tokenizer_ends_iff (line : Bytes) : TokenizerEnds line ↔ ¬ EndsQuoted line := by
  constructor
  · rintro ⟨fuel, args, h⟩ hopen
    have hstuck : tokenLoop line fuel (some 0) [] = .error .noProgress :=
      tokenLoop_stuck (some 0) hopen fuel
    rw [h] at hstuck
    nomatch hstuck
  · intro hclosed
    have hends : ∃ args, tokenLoop line (line.length + 1) (some 0) [] = .ok args :=
      tokenLoop_returns (some 0) hclosed (Nat.lt_succ_self _)
    exact ⟨_, hends⟩

/-- `get "a` is never split. -/
theorem unclosed_quote_never_ends : ¬ TokenizerEnds [103, 101, 116, 32, 34, 97] := by
  rintro ⟨fuel, args, h⟩
  have hopen : EndsQuoted [103, 101, 116, 32, 34, 97] := by
    rw [EndsQuoted]
    decide
  have hstuck : tokenLoop [103, 101, 116, 32, 34, 97] fuel (some 0) [] = .error .noProgress :=
    tokenLoop_stuck (some 0) hopen fuel
  exact nomatch h.symm.trans hstuck

/-- The ways to write an argument: in quotes, or bare. -/
inductive Written (arg : Bytes) : Bytes → Prop
  | quoted : quote ∉ arg → Written arg (quote :: arg ++ [quote])
  | bare : arg ≠ [] → space ∉ arg → arg.head? ≠ some quote → Written arg arg

/-- The lines that say these arguments: one or more spaces between two of
    them, and any number before the first and after the last. -/
inductive Rendered : List Bytes → Bytes → Prop
  | nil : Rendered [] []
  | blank {args : List Bytes} {line : Bytes} : Rendered args line → Rendered args (space :: line)
  | last {arg text : Bytes} : Written arg text → Rendered [arg] text
  | cons {arg text : Bytes} {args : List Bytes} {line : Bytes} :
      Written arg text → Rendered args line → Rendered (arg :: args) (text ++ space :: line)

/-- From this suffix on, the loop adds these arguments and ends. -/
def SplitsInto (text : Bytes) (args : List Bytes) : Prop :=
  ∀ line cursor fuel cmd, suffixAt line cursor = text → text.length < fuel →
    tokenLoop line fuel cursor cmd = .ok (cmd ++ args)

theorem splits_nil : SplitsInto [] [] := by
  intro line cursor fuel cmd hnil hfuel
  cases fuel with
  | zero => omega
  | succ fuel => rw [tokenLoop_nil hnil, List.append_nil]

/-- A turn comes before the arguments of what it leaves. -/
theorem Takes.splits {text rest : Bytes} {args more : List Bytes} (h : Takes text rest args)
    (hlt : rest.length < text.length) (hrest : SplitsInto rest more) : SplitsInto text (args ++ more) := by
  intro line cursor fuel cmd htext hfuel
  cases fuel with
  | zero => omega
  | succ fuel =>
    rw [← htext] at h
    rcases tokenLoop_takes h with ⟨cursor', hcursor, hloop⟩
    rw [hloop, hrest line cursor' fuel _ hcursor (by omega), List.append_assoc]

theorem splits_blank {text : Bytes} {args : List Bytes} (h : SplitsInto text args) :
    SplitsInto (space :: text) args :=
  (Takes.blank text).splits (Nat.lt_succ_self _) h

/-- A written argument is taken off the line as a whole, up to the space after
    it. -/
theorem Written.splits_append {arg text line : Bytes} {args : List Bytes} (h : Written arg text)
    (hrest : SplitsInto (space :: line) args) : SplitsInto (text ++ space :: line) (arg :: args) := by
  cases h with
  | quoted hq =>
    have hturn := Takes.quoted arg (space :: line) hq
    rw [List.append_assoc, List.cons_append, List.singleton_append]
    refine hturn.splits ?_ hrest
    simp only [List.length_cons, List.length_append]
    omega
  | bare hne hsp hhead =>
    have hturn := Takes.bare _ line ⟨hne, hsp, hhead⟩
    refine hturn.splits ?_ hrest
    rw [List.length_append]
    exact Nat.lt_add_of_pos_left (List.length_pos_of_ne_nil hne)

/-- It may also be the last thing on the line. -/
theorem Written.splits {arg text : Bytes} (h : Written arg text) : SplitsInto text [arg] := by
  cases h with
  | quoted hq => exact (Takes.quoted arg [] hq).splits (Nat.zero_lt_succ _) splits_nil
  | bare hne hsp hhead =>
    exact (Takes.last _ ⟨hne, hsp, hhead⟩).splits (List.length_pos_of_ne_nil hne) splits_nil

theorem Rendered.splits {args : List Bytes} {line : Bytes} (h : Rendered args line) :
    SplitsInto line args := by
  induction h with
  | nil => exact splits_nil
  | blank _ ih => exact splits_blank ih
  | last harg => exact harg.splits
  | cons harg _ ih => exact harg.splits_append (splits_blank ih)

/-- Splitting a line gives back the arguments that were written on it. -/
theorem tokenize_rendered {args : List Bytes} {line : Bytes} (h : Rendered args line) :
    tokenize line = .ok args :=
  h.splits line (some 0) _ [] rfl (Nat.lt_succ_self _)

/-- `  set "a b" "" x"y ` is four arguments. -/
theorem tokenize_rendered_mixed :
    tokenize (space :: space :: ([115, 101, 116] ++ space :: ((quote :: [97, 32, 98] ++ [quote]) ++
        space :: ((quote :: [] ++ [quote]) ++ space :: ([120, 34, 121] ++ space :: []))))) =
      .ok [[115, 101, 116], [97, 32, 98], [], [120, 34, 121]] :=
  tokenize_rendered <| .blank <| .blank <|
    .cons (.bare (by decide) (by decide) (by decide)) <| .cons (.quoted (by decide)) <|
    .cons (.quoted (by decide)) <| .cons (.bare (by decide) (by decide) (by decide)) .nil

end RedisServer
