import RedisServer.Core.Events
import RedisServer.Theory.Server.Replies

/-!
# Replies Inside Frames

A command appends its reply to the outgoing buffer and reads nothing of what
is there already. So the payload of its response frame is what it writes into
an empty buffer, or the error that takes its place when it is over the limit.
What is known about the reply to a command is thereby known about the frame.

## Main definitions

* `Appends`: A command that appends to the buffer.
* `framed`: The frame a reply is sent in.

## Theorems

* `doRequest_appends`: Every command appends.
* `respond_eq`: The response frame of any command.
-/

namespace RedisServer

open Lib

/-- What is written does not depend on what the buffer holds, and is appended
    to it. -/
def Appends {α : Type} (f : Bytes → Result (α × Bytes)) : Prop :=
  ∀ out, f out = (f []).map fun x => (x.1, out ++ x.2)

/-- The frame a reply is sent in. -/
def framed (reply : Bytes) : Bytes := responseFrame (capped reply)

namespace Appends

variable {α β : Type}

theorem ok (a : α) {f : Bytes → Bytes} (h : ∀ out, f out = out ++ f []) :
    Appends fun out => .ok (a, f out) := by
  intro out
  show Except.ok (a, f out) = Except.ok (a, out ++ f [])
  rw [h]

theorem error (f : Fault) : Appends fun _ => (.error f : Result (α × Bytes)) := fun _ => rfl

theorem bind (x : Result β) {f : β → Bytes → Result (α × Bytes)} (h : ∀ b, Appends (f b)) :
    Appends fun out => x >>= fun b => f b out := by
  cases x with
  | ok b => exact h b
  | error e => exact error e

theorem ite (p : Prop) [Decidable p] {f f' : Bytes → Result (α × Bytes)} (h : Appends f)
    (h' : Appends f') : Appends fun out => if p then f out else f' out := by
  by_cases hp : p
  · simp only [if_pos hp]
    exact h
  · simp only [if_neg hp]
    exact h'

end Appends

section

variable (R : Runtime) (g : GData) (c : Nat) (cmd : List Bytes) (now : Nat)

/-! ## The commands -/

theorem doGet_appends : Appends fun out => doGet R g c cmd out := by
  refine Appends.bind _ fun x => ?_
  rcases x with ⟨g₁, _ | ent⟩
  · exact Appends.ok g₁ outNil_eq
  · exact Appends.bind _ fun e => Appends.ite _ (Appends.ok g₁ fun out => outErr_eq out _ _)
      (Appends.ok g₁ fun out => outStr_eq out _)

theorem doSet_appends : Appends fun out => doSet R g c cmd out := by
  refine Appends.bind _ fun x => ?_
  rcases x with ⟨g₁, _ | ent⟩
  · exact Appends.bind _ fun g₂ => Appends.ok g₂ fun out => outStr_eq out _
  · exact Appends.bind _ fun e => Appends.ite _ (Appends.ok g₁ fun out => outErr_eq out _ _)
      (Appends.ok _ fun out => outStr_eq out _)

theorem doDel_appends : Appends fun out => doDel R g c cmd out := by
  refine Appends.bind _ fun conn => Appends.bind _ fun x => ?_
  rcases x with ⟨db, _ | node⟩
  · exact Appends.ok _ fun out => outStr_eq out _
  · exact Appends.bind _ fun g₂ => Appends.ok g₂ fun out => outStr_eq out _

theorem doExpire_appends : Appends fun out => doExpire R g c cmd now out := by
  unfold doExpire
  cases str2int (arg cmd 2) with
  | none => exact Appends.ok g fun out => outErr_eq out _ _
  | some ttlMs =>
      refine Appends.bind _ fun x => ?_
      rcases x with ⟨g₁, _ | ent⟩
      · exact Appends.ok g₁ fun out => outInt_eq out _
      · exact Appends.bind _ fun g₂ => Appends.ok g₂ fun out => outInt_eq out _

theorem doTtl_appends : Appends fun out => doTtl R g c cmd now out := by
  refine Appends.bind _ fun x => ?_
  rcases x with ⟨g₁, _ | ent⟩
  · exact Appends.ok g₁ fun out => outInt_eq out _
  · refine Appends.bind _ fun e => ?_
    cases g₁.heapIdx ent with
    | none => exact Appends.ok g₁ fun out => outInt_eq out _
    | some pos => exact Appends.bind _ fun d => Appends.ok g₁ fun out => outInt_eq out _

theorem doZadd_appends : Appends fun out => doZadd R g c cmd out := by
  unfold doZadd
  cases str2dbl R (arg cmd 2) with
  | none => exact Appends.ok g fun out => outErr_eq out _ _
  | some score =>
      exact Appends.bind _ fun x => Appends.bind _ fun y => Appends.bind _ fun e =>
        Appends.ite _ (Appends.ok _ fun out => outErr_eq out _ _)
          (Appends.bind _ fun z => Appends.ok _ fun out => outInt_eq out _)

theorem doZrem_appends : Appends fun out => doZrem R g c cmd out := by
  refine Appends.bind _ fun x => ?_
  rcases x with ⟨g₁, _ | ref⟩
  · exact Appends.ok g₁ fun out => outErr_eq out _ _
  · refine Appends.bind _ fun z => Appends.bind _ fun y => ?_
    rcases y with ⟨z₁, _ | node⟩
    · exact Appends.bind _ fun g₂ => Appends.ok g₂ fun out => outInt_eq out _
    · exact Appends.bind _ fun z₂ => Appends.bind _ fun g₂ =>
        Appends.ok g₂ fun out => outInt_eq out _

theorem doZscore_appends : Appends fun out => doZscore R g c cmd out := by
  refine Appends.bind _ fun x => ?_
  rcases x with ⟨g₁, _ | ref⟩
  · exact Appends.ok g₁ fun out => outErr_eq out _ _
  · refine Appends.bind _ fun z => Appends.bind _ fun y => Appends.bind _ fun g₂ => ?_
    rcases y with ⟨z₁, _ | node⟩
    · exact Appends.ok g₂ outNil_eq
    · exact Appends.bind _ fun n => Appends.ok g₂ fun out => outDbl_eq out _

theorem zqueryLoop_appends (z : ZSet) (limit : Int) (fuel : Nat) (node : Option Nat) (n : Int) :
    Appends fun out => zqueryLoop z limit fuel node n out := by
  induction fuel generalizing node n with
  | zero => exact Appends.error _
  | succ fuel ih =>
      cases node with
      | none => exact Appends.ok n fun out => (List.append_nil out).symm
      | some a =>
          refine Appends.ite _ (Appends.bind _ fun znode => Appends.bind _ fun next => ?_)
            (Appends.ok n fun out => (List.append_nil out).symm)
          -- the rest of the loop appends to the tuple that is written here
          intro out
          have hrest : ∀ out, zqueryLoop z limit fuel next (n + 2) out =
              (zqueryLoop z limit fuel next (n + 2) []).map fun x => (x.1, out ++ x.2) :=
            ih next (n + 2)
          dsimp only
          rw [hrest (outDbl (outStr out _) _), hrest (outDbl (outStr [] _) _), outDbl_eq,
            outStr_eq out, outDbl_eq (outStr [] _)]
          cases zqueryLoop z limit fuel next (n + 2) [] with
          | ok x => simp only [Except.map, List.append_assoc, Scalar.encode]
          | error f => rfl

theorem doZquery_appends : Appends fun out => doZquery R g c cmd out := by
  unfold doZquery
  cases str2dbl R (arg cmd 2) with
  | none => exact Appends.ok g fun out => outErr_eq out _ _
  | some score =>
      cases str2int (arg cmd 4) with
      | none => exact Appends.ok g fun out => outErr_eq out _ _
      | some offset =>
          cases str2int (arg cmd 5) with
          | none => exact Appends.ok g fun out => outErr_eq out _ _
          | some limit =>
              refine Appends.bind _ fun x => ?_
              rcases x with ⟨g₁, _ | ref⟩
              · exact Appends.ok g₁ fun out => outErr_eq out _ _
              · refine Appends.ite _ (Appends.ok g₁ fun out => outArr_eq out 0)
                  (Appends.bind _ fun z => Appends.bind _ fun znode => Appends.bind _ fun node => ?_)
                -- the size is patched into the placeholder, wherever that is
                intro out
                have hloop : ∀ out, zqueryLoop z limit (limit.toNat + 1) node 0 out =
                    (zqueryLoop z limit (limit.toNat + 1) node 0 []).map
                      fun x => (x.1, out ++ x.2) :=
                  zqueryLoop_appends z limit (limit.toNat + 1) node 0
                dsimp only
                rw [hloop (outBeginArr out).1, hloop (outBeginArr []).1]
                cases zqueryLoop z limit (limit.toNat + 1) node 0 [] with
                | error f => rfl
                | ok x =>
                    simp only [Except.map, ok_bind, outEndArr_eq]
                    rw [outArr_eq out, List.append_assoc]

end

/-! ## The frame -/

section

variable {R : Runtime} {g : GData} {P : Nat → Prop} {c : Nat} {conn : Conn}

/-- Every command appends its reply to the buffer. -/
theorem doRequest_appends (hinv : Inv R g P) (hc : g.conns c = some conn) (cmd : List Bytes)
    (now : Nat) : Appends fun out => doRequest R g c cmd now out := by
  have hkeys : Appends fun out => doKeys g c out := by
    intro out
    dsimp only
    rw [doKeys_spec hinv hc, doKeys_spec hinv hc, outKeys_value, outKeys_value []]
    rfl
  unfold doRequest
  refine Appends.ite _ (doGet_appends R g c cmd) ?_
  refine Appends.ite _ (doSet_appends R g c cmd) ?_
  refine Appends.ite _ (doDel_appends R g c cmd) ?_
  refine Appends.ite _ (doExpire_appends R g c cmd now) ?_
  refine Appends.ite _ (doTtl_appends R g c cmd now) ?_
  refine Appends.ite _ hkeys ?_
  refine Appends.ite _ (doZadd_appends R g c cmd) ?_
  refine Appends.ite _ (doZrem_appends R g c cmd) ?_
  refine Appends.ite _ (doZscore_appends R g c cmd) ?_
  refine Appends.ite _ (doZquery_appends R g c cmd) ?_
  exact Appends.ite _ (Appends.ok g fun out => outStr_eq out _)
    (Appends.ok g fun out => outErr_eq out _ _)

/-- A command is answered with the frame of what it writes into an empty
    buffer. -/
theorem respond_eq (hinv : Inv R g P) (hc : g.conns c = some conn) (cmd : List Bytes) (now : Nat) :
    respond R g c cmd now = (doRequest R g c cmd now []).map fun x => (x.1, framed x.2) := by
  have happ : ∀ out, doRequest R g c cmd now out =
      (doRequest R g c cmd now []).map fun x => (x.1, out ++ x.2) :=
    doRequest_appends hinv hc cmd now
  unfold respond
  dsimp only
  rw [happ]
  cases doRequest R g c cmd now [] with
  | error f => rfl
  | ok x =>
      have hend := responseEnd_eq [] x.2
      rw [List.nil_append, List.nil_append] at hend
      exact bind_eq_ok.mpr ⟨(x.1, _), rfl, bind_eq_ok.mpr ⟨_, hend, rfl⟩⟩

/-- An event is answered as it is by `serverStep`, with the reply in a frame. -/
theorem answerStep_request (hinv : Inv R g P) (hc : g.conns c = some conn) (cmd : List Bytes)
    (now : Nat) :
    answerStep R g (.request c cmd now) =
      (doRequest R g c cmd now []).map fun x => (x.1, framed x.2) := by
  rw [answerStep, conn_eq hc, ok_bind, respond_eq hinv hc]

end

end RedisServer
