import RedisServer.Theory.Loop.Dictionaries
import RedisServer.Theory.Server.View

/-!
# Clients Apart

What one client is shown of a run of the server: its own commands, and the
sweeps. Its replies are those of its own dictionary, and nothing that the other
clients do is in them. The commands are all of the server's, so this is about
strings, deadlines and sorted sets together.

A reply is determined by the dictionary but for the order in which `keys` lists
the keys, which is that of a hashtable and depends on its history. A page of a
sorted set is determined, since a map has one listing.

## Main definitions

* `LoopEvent.seenBy`: The events that a client is shown.
* `ownSpec`: Its dictionary as a specification.
* `AlikeReply`: Equal replies, up to the order of the keys.

## Theorems

* `own_of_dicts`: What a client is shown of a run.
* `clients_apart`: Two runs.
-/

namespace RedisServer

open Lib

/-- The events that the client on connection `c` is shown. -/
def LoopEvent.seenBy (c : Nat) : LoopEvent → Option OwnEvent
  | .event (.request c' cmd now) => if c' = c then some (.ask cmd now) else none
  | .event (.sweep now) => some (.sweep now)
  | .event (.accept _ _) => none
  | .event (.touch _ _) => none
  | .event (.close _) => none
  | .io _ _ => none

/-- The dictionary of one client as a specification. -/
def ownSpec (R : Runtime) : Spec Dict OwnEvent Bytes where
  guard _ _ := True
  next m
    | .ask cmd now => (command cmd).next R now m
    | .sweep now => m.expire now
  reply m
    | .ask cmd now, r => ∃ v, (command cmd).reply R now m v ∧ r = responseFrame v.sent.encode
    | .sweep _, r => r = []

/-- Replies that are equal, or list the same keys. -/
def AlikeReply : OwnEvent → Bytes → Bytes → Prop
  | .ask cmd _, r, r' => r = r' ∨ command cmd = .keys ∧ ∃ l l' : List Bytes, l.Perm l' ∧
      r = responseFrame (Value.arr (l.map .str)).sent.encode ∧
      r' = responseFrame (Value.arr (l'.map .str)).sent.encode
  | .sweep _, r, r' => r = r'

section

variable {R : Runtime} {now : Nat} {m : Dict} {v v' : Value}

/-- A command has one reply, but for the order of the keys. -/
theorem Command.reply_alike (op : Command) (h : op.reply R now m v) (h' : op.reply R now m v') :
    v = v' ∨ op = .keys ∧ ∃ l l' : List Bytes, l.Perm l' ∧ v = .arr (l.map .str) ∧
      v' = .arr (l'.map .str) := by
  cases op with
  | keys =>
      rcases h with ⟨l, hnd, hmem, rfl⟩
      rcases h' with ⟨l', hnd', hmem', rfl⟩
      refine Or.inr ⟨rfl, l, l', ?_, rfl, rfl⟩
      rw [List.perm_ext_iff_of_nodup hnd hnd']
      exact fun k => (hmem k).trans (hmem' k).symm
  | zquery key score name offset limit =>
      left
      simp only [Command.reply] at h h'
      -- one case for each argument that is refused, and a page at the end
      cases hs : str2dbl R score with
      | none =>
          rw [hs] at h h'
          exact h.trans h'.symm
      | some s =>
          cases ho : str2int offset with
          | none =>
              rw [hs, ho] at h h'
              exact h.trans h'.symm
          | some o =>
              cases hl : str2int limit with
              | none =>
                  rw [hs, ho, hl] at h h'
                  exact h.trans h'.symm
              | some l =>
                  cases hz : scoresAt (m key) with
                  | none =>
                      rw [hs, ho, hl, hz] at h h'
                      exact h.trans h'.symm
                  | some z =>
                      rw [hs, ho, hl, hz] at h h'
                      rcases h with ⟨L, hL, rfl⟩
                      rcases h' with ⟨L', hL', rfl⟩
                      rw [hL.unique hL']
  | _ => exact Or.inl (h.trans h'.symm)

theorem alike_of_ownSpec (m : Dict) (e : OwnEvent) (r r' : Bytes)
    (h : (ownSpec R).reply m e r) (h' : (ownSpec R).reply m e r') : AlikeReply e r r' := by
  cases e with
  | sweep now => exact h.trans h'.symm
  | ask cmd now =>
      rcases h with ⟨v, hv, rfl⟩
      rcases h' with ⟨v', hv', rfl⟩
      rcases (command cmd).reply_alike hv hv' with rfl | ⟨hkeys, l, l', hperm, rfl, rfl⟩
      · exact Or.inl rfl
      · exact Or.inr ⟨hkeys, l, l', hperm, rfl, rfl⟩

/-- What a client is shown of a run of all dictionaries is a run of its own. -/
theorem own_of_dicts {ms : Nat → Dict} {es : List LoopEvent} {rs : List Bytes} (c : Nat)
    (h : (dictSpec R).Agrees ms es rs) :
    (ownSpec R).Agrees (ms c) (observed (LoopEvent.seenBy c) es)
      (observedReplies (LoopEvent.seenBy c) es rs) := by
  refine h.seen (fun ms => ms c) ?_ ?_
  · intro ms e hnone
    rcases e with (_ | _ | ⟨c', cmd, now⟩ | _ | now) | _
    · rfl
    · rfl
    · -- a command of another client
      refine Function.update_of_ne (fun heq => ?_) _ _
      rw [LoopEvent.seenBy, if_pos heq.symm] at hnone
      cases hnone
    · rfl
    · cases hnone
    · rfl
  · intro ms e o hsome
    rcases e with (_ | _ | ⟨c', cmd, now⟩ | _ | now) | _
    · cases hsome
    · cases hsome
    · rw [LoopEvent.seenBy] at hsome
      by_cases hc : c' = c
      · rw [if_pos hc, Option.some.injEq] at hsome
        rw [← hsome, ← hc]
        exact ⟨Function.update_self _ _ _, fun r hr => hr⟩
      · rw [if_neg hc] at hsome
        cases hsome
    · cases hsome
    · rw [LoopEvent.seenBy, Option.some.injEq] at hsome
      rw [← hsome]
      exact ⟨rfl, fun r hr => hr⟩
    · cases hsome

end

/-- Two runs of the server in which a client sends the same commands at the
    same times and the sweeps are the same, whatever the other clients are and
    do: neither run fails, and the client gets the same replies, except that
    `keys` may list its keys in another order. -/
theorem clients_apart (R : Runtime) (c c' : Nat) (es es' : List LoopEvent)
    (horderly : Guarded (loopStep R) Orderly {} es)
    (hguard : (dictSpec R).Admits (fun _ _ => none) es)
    (horderly' : Guarded (loopStep R) Orderly {} es')
    (hguard' : (dictSpec R).Admits (fun _ _ => none) es')
    (hsame : observed (LoopEvent.seenBy c) es = observed (LoopEvent.seenBy c') es') :
    ∃ g rs g' rs', run (loopStep R) {} es = .ok (g, rs) ∧
      run (loopStep R) {} es' = .ok (g', rs') ∧
      Matched AlikeReply (observed (LoopEvent.seenBy c) es)
        (observedReplies (LoopEvent.seenBy c) es rs)
        (observedReplies (LoopEvent.seenBy c') es' rs') := by
  rcases (loopStep_simulates R).run (dicts_init R) horderly hguard with ⟨g, rs, hrun, hrs, _⟩
  rcases (loopStep_simulates R).run (dicts_init R) horderly' hguard' with ⟨g', rs', hrun', hrs', _⟩
  have hown := own_of_dicts c hrs
  have hown' := own_of_dicts c' hrs'
  rw [← hsame] at hown'
  exact ⟨g, rs, g', rs', hrun, hrun', hown.matched alike_of_ownSpec hown'⟩

/-- The run of `stringAndSet`, with another client that uses the same keys. -/
def stringAndSetBeside : List LoopEvent :=
  [.event (.accept 5 0), .event (.accept 6 0),
    .event (.request 1 [ascii "zadd", ascii "k", ascii "4", ascii "d"] 0),
    .event (.request 0 [ascii "set", ascii "k", ascii "v"] 1),
    .event (.request 0 [ascii "zadd", ascii "z", ascii "4", ascii "d"] 2),
    .event (.request 1 [ascii "set", ascii "z", ascii "v"] 3),
    .event (.request 0 [ascii "zadd", ascii "z", ascii "2", ascii "b"] 3),
    .event (.request 0 [ascii "zrem", ascii "z", ascii "b"] 4),
    .event (.request 0 [ascii "zquery", ascii "z", ascii "1", [], ascii "0", ascii "9"] 5),
    .event (.request 0 [ascii "pexpire", ascii "k", ascii "9"] 6),
    .event (.request 1 [ascii "pexpire", ascii "k", ascii "0"] 6),
    .event (.request 0 [ascii "keys"] 7)]

theorem clients_apart_beside :
    ∃ g rs g' rs', run (loopStep readsDigits) {} stringAndSet = .ok (g, rs) ∧
      run (loopStep readsDigits) {} stringAndSetBeside = .ok (g', rs') ∧
      Matched AlikeReply (observed (LoopEvent.seenBy 0) stringAndSet)
        (observedReplies (LoopEvent.seenBy 0) stringAndSet rs)
        (observedReplies (LoopEvent.seenBy 0) stringAndSetBeside rs') := by
  refine clients_apart readsDigits 0 0 stringAndSet stringAndSetBeside stringAndSet_orderly
    stringAndSet_admits (guarded_of_checkRun orderly_of_check (by decide +kernel)) ?_ rfl
  refine ⟨True.intro, True.intro, ⟨by decide, True.intro⟩, ⟨by decide, True.intro⟩,
    ⟨by decide, True.intro⟩, ⟨by decide, True.intro⟩, ⟨by decide, True.intro⟩,
    ⟨by decide, fun z hz _ => ⟨ascii "d", by decide, ?_⟩⟩, ⟨by decide, True.intro⟩,
    ⟨by decide, True.intro⟩, ⟨by decide, True.intro⟩, ⟨by decide, True.intro⟩, True.intro⟩
  rw [← Option.some.inj hz]
  exact Option.some_ne_none _

end RedisServer
