import RedisServer.Theory.Loop.Apart
import RedisServer.Theory.Protocol.Screen
import RedisServer.Theory.Session.Lockstep

/-!
# Conversations

What a user gets out of the whole system. The processes of `client.cpp` and the
server run beside each other, with bytes in every buffer between them; and yet
each user talks to a dictionary. The commands that were answered are the first
of those the user sent, the reply to each is the dictionary's at that time, and
what is on the screen is the text of that reply. Only the sweeps come in
between, which take from the dictionary the keys that have expired.

The session is put together from its parts: that client and server stay in
step, that the server is one run of events, that a run shows each client its
own dictionary, and that a reply is printed as its text.

## Main definitions

* `asked`, `asks`: The commands among the events that a client is shown.
* `Conversed`: Replies of a dictionary to the commands.
* `Conversation`: A client against its dictionary.

## Theorems

* `servedIn_seen`: The requests of one connection in a run.
* `conversed_of_own`: The replies to them.
* `conversation_of_run`: Every session.
-/

namespace RedisServer

open Lib

/-- The commands among the events that a client is shown. -/
def asked : List OwnEvent → List (List Bytes)
  | [] => []
  | .ask cmd _ :: os => cmd :: asked os
  | .sweep _ :: os => asked os

/-- The same with the responses to them. -/
def asks : List OwnEvent → List Bytes → List Served
  | .ask cmd now :: os, r :: rs => ⟨cmd, now, r⟩ :: asks os rs
  | .sweep _ :: os, _ :: rs => asks os rs
  | _, _ => []

/-- The dictionary replies to the commands with these values, and the sweeps
    come in between. -/
def Conversed (R : Runtime) : Dict → List OwnEvent → List Value → Prop
  | _, [], vs => vs = []
  | m, .ask cmd now :: os, v :: vs =>
    (command cmd).reply R now m v ∧ Conversed R ((command cmd).next R now m) os vs
  | _, .ask _ _ :: _, [] => False
  | m, .sweep now :: os, vs => Conversed R (m.expire now) os vs

/-- A client against its dictionary, which starts empty. `vs` are the replies to
    the commands that were executed. -/
structure Conversation (R : Runtime) (fmt : Double → Bytes) (os : List OwnEvent) (k : Client)
    (vs : List Value) : Prop where
  /-- The replies are the dictionary's. -/
  replies : Conversed R (fun _ => none) os vs
  /-- The commands are the first of those the user sent. -/
  sent : asked os <+: k.issued
  /-- What was read is the frame of the reply. However its bytes arrived, the
      screen shows the text of the reply. -/
  heard : ∀ (i : Nat) (a : Response), k.answers[i]? = some a → ∃ v, vs[i]? = some v ∧
    a.bytes = responseFrame v.sent.encode ∧
    ∀ reads, Delivering reads → reads.flatMap SockRead.bytes = a.bytes →
      readResponseText fmt reads = .ok (a.rv, v.sent.text fmt)
  /-- A client that waits for its user, or is gone, has read all of them. -/
  done : k.stage = .ready ∨ k.stage = .gone →
    asked os = k.issued ∧ k.answers.length = vs.length

/-! ## The requests of one connection -/

/-- The requests of one connection in a run are those that its client is
    shown. -/
theorem servedIn_seen (c : Nat) (es : List LoopEvent) (rs : List Bytes) :
    ((servedIn es rs).filter fun x => decide (x.1 = c)).map Prod.snd =
      asks (observed (LoopEvent.seenBy c) es) (observedReplies (LoopEvent.seenBy c) es rs) := by
  induction es generalizing rs with
  | nil => rfl
  | cons e es ih =>
      cases rs with
      | nil =>
          -- without replies nothing was served
          have hnil : ∀ os : List OwnEvent, asks os [] = [] := by
            intro os
            rcases os with _ | ⟨_ | _, os⟩ <;> rfl
          rcases e with (_ | _ | _ | _ | _) | _ <;> exact (hnil _).symm
      | cons r rs =>
          have hrest := ih rs
          rcases e with (_ | _ | ⟨c', cmd, now⟩ | _ | now) | _
          · exact hrest
          · exact hrest
          · by_cases hc : c' = c
            · have hseen : LoopEvent.seenBy c (.event (.request c' cmd now)) =
                  some (.ask cmd now) := if_pos hc
              simp only [servedIn, observed, List.filterMap_cons_some hseen, observedReplies, hseen,
                asks]
              rw [List.filter_cons_of_pos (by simpa only [decide_eq_true_eq] using hc),
                List.map_cons, hrest]
              rfl
            · have hseen : LoopEvent.seenBy c (.event (.request c' cmd now)) = none := if_neg hc
              simp only [servedIn, observed, List.filterMap_cons_none hseen, observedReplies, hseen]
              rw [List.filter_cons_of_neg (by simpa only [decide_eq_true_eq] using hc), hrest]
              rfl
          · exact hrest
          · exact hrest
          · exact hrest

/-- The same in the turns of a session. -/
theorem served_turnsOf (log : List Turn) (c : Nat) :
    served (turnsOf log c) =
      ((servedOf log).filter fun x => decide (x.1 = c)).map Prod.snd := by
  induction log with
  | nil => rfl
  | cons turn log ih =>
      rw [turnsOf_cons, servedOf, List.flatMap_cons, List.filter_append, List.map_append,
        ← servedOf, ← ih]
      -- a turn serves one connection
      by_cases hc : turn.conn = c
      · rw [if_pos hc, served, served, List.flatMap_cons, List.filter_eq_self.mpr, List.map_map]
        · congr 1
          exact (List.map_id _).symm
        · intro x hx
          rcases List.mem_map.mp hx with ⟨s, _, rfl⟩
          exact decide_eq_true hc
      · rw [if_neg hc, List.filter_eq_nil_iff.mpr]
        · rfl
        · intro x hx
          rcases List.mem_map.mp hx with ⟨s, _, rfl⟩
          rw [decide_eq_true_eq]
          exact hc

section

variable {R : Runtime} {fmt : Double → Bytes}

/-- What agrees with a client's dictionary is a list of its replies. -/
theorem conversed_of_own {m : Dict} {os : List OwnEvent} {qs : List Bytes}
    (h : (ownSpec R).Agrees m os qs) :
    ∃ vs, Conversed R m os vs ∧ (asks os qs).map Served.cmd = asked os ∧
      (asks os qs).map Served.response = vs.map fun v => responseFrame v.sent.encode := by
  induction os generalizing m qs with
  | nil => exact ⟨[], rfl, rfl, rfl⟩
  | cons o os ih =>
      cases qs with
      | nil => exact h.elim
      | cons q qs =>
          rcases ih h.2 with ⟨vs, hvs, hcmds, hresps⟩
          cases o with
          | sweep now => exact ⟨vs, hvs, hcmds, hresps⟩
          | ask cmd now =>
              rcases h.1 with ⟨v, hv, rfl⟩
              refine ⟨v :: vs, ⟨hv, hvs⟩, ?_, ?_⟩
              · rw [asks, List.map_cons, hcmds, asked]
              · rw [asks, List.map_cons, hresps, List.map_cons]

theorem conversation_of_lockstep {g : GData} {stamps : List Nat} {log : List Turn} {c : Nat}
    {k : Client} {os : List OwnEvent} {vs : List Value} (h : Lockstep (turnsOf log c) k)
    (hist : History R stamps log g) (hvs : Conversed R (fun _ => none) os vs)
    (hcmds : (served (turnsOf log c)).map Served.cmd = asked os)
    (hresps : (served (turnsOf log c)).map Served.response =
      vs.map fun v => responseFrame v.sent.encode) : Conversation R fmt os k vs where
  replies := hvs
  sent := hcmds ▸ h.served_prefix hist
  heard := by
    intro i a ha
    have hlt : i < k.answers.length := (List.getElem?_eq_some_iff.mp ha).1
    have hheard := h.heard
    rw [List.map_take, hresps, ← List.map_take] at hheard
    have hi := congrArg (fun l : List Bytes => l[i]?) hheard
    simp only [List.getElem?_map, ha, List.getElem?_take_of_lt hlt, Option.map_some] at hi
    cases hv : vs[i]? with
    | none =>
        rw [hv] at hi
        cases hi
    | some v =>
        rw [hv, Option.map_some, Option.some.injEq] at hi
        refine ⟨v, rfl, hi, fun reads hreads hbytes => ?_⟩
        have hframe : reads.flatMap SockRead.bytes = responseFrame v.sent.encode ++ [] := by
          rw [hbytes, hi, List.append_nil]
        have htext : readResponseText fmt reads = .ok (v.sent.encode.length, v.sent.text fmt) :=
          readResponseText_frame v.length_sent hreads hframe
        -- what is returned is what the client noted down
        have hrv := readResponseText_fst fmt reads
        rw [htext, h.said a (List.mem_of_getElem? ha) reads hreads hbytes] at hrv
        rw [htext, ← Except.ok.inj hrv]
  done := by
    intro hidle
    have hall : k.issued.length = k.answers.length := by
      have hstaged := h.staged
      rw [Client.Staged] at hstaged
      rcases hidle with hready | hgone
      · rw [hready] at hstaged
        exact hstaged
      · rw [hgone] at hstaged
        exact hstaged
    -- as many are executed as were sent, so all were
    have hle := h.answered_le
    have hge := h.served_le hist
    have hlen := congrArg List.length hresps
    rw [List.length_map, List.length_map] at hlen
    refine ⟨(hcmds ▸ h.served_prefix hist).eq_of_length ?_, by omega⟩
    rw [← hcmds, List.length_map]
    omega

/-- However many clients there are, and however their steps and the server's
    interleave: a run of the server's events that serves what the session
    served, and is one that the dictionaries describe, explains every client for
    which nothing went wrong. The client has talked to a dictionary of its own,
    from an empty one on; the commands that were executed are the first that its
    user sent; what it has read are the replies to them, in order; and its
    screen shows their texts. -/
theorem conversation_of_run (R : Runtime) (fmt : Double → Bytes) {moves : List Move} {s : Session}
    {logs : List (List Turn)} (hrun : run (sessionStep R) {} moves = .ok (s, logs))
    {es : List LoopEvent} {g : GData} {rs : List Bytes} (hevents : run (loopStep R) {} es = .ok (g, rs))
    (hserved : servedIn es rs = servedOf logs.flatten)
    (horderly : Guarded (loopStep R) Orderly {} es)
    (hguard : (dictSpec R).Admits (fun _ _ => none) es) (c : Nat)
    (hnet : Guarded (sessionStep R) (Network R c) {} moves)
    (hb : (s.clients c).broken = false) :
    ∃ vs, Conversation R fmt (observed (LoopEvent.seenBy c) es) (s.clients c) vs := by
  have hinv := (sessionInv_init R c).run hnet hrun
  rcases hinv.history with ⟨stamps, hist⟩
  have hlock := hinv.client hb
  rw [List.nil_append] at hist hlock
  -- the events' replies are those of the dictionaries
  rcases (loopStep_simulates R).run (dicts_init R) horderly hguard with ⟨g', rs', hrun', hrs, _⟩
  rw [hevents, Except.ok.injEq, Prod.mk.injEq] at hrun'
  rw [← hrun'.2] at hrs
  rcases conversed_of_own (own_of_dicts c hrs) with ⟨vs, hvs, hcmds, hresps⟩
  rw [← servedIn_seen, hserved, ← served_turnsOf] at hcmds hresps
  exact ⟨vs, conversation_of_lockstep hlock hist hvs hcmds hresps⟩

end

/-! ## Two commands -/

/-- A client sends a command and reads the reply. -/
def exchange (c : Nat) (cmd : List Bytes) (now : Nat) : List Move :=
  [.query c cmd, .write c 100,
    .serve (.woke { ready := [some { pollIn := true, now := now,
                                     read := .data (requestFrame cmd) }],
                    now := now }),
    .serve (.woke { ready := [some { pollOut := true, now := now, writes := [.wrote 100] }],
                    now := now }),
    .read c 100, .read c 100]

/-- A string is set and got. -/
def talkMoves : List Move :=
  exchange 0 [ascii "set", ascii "k", ascii "v"] 2 ++ exchange 0 [ascii "get", ascii "k"] 3

/-- Both, after the server accepted the client. -/
def talkSession : List Move := .serve (.woke { accept := some (5, 1), now := 1 }) :: talkMoves

/-- What the server did. -/
def talkEvents : List LoopEvent :=
  [.event (.accept 5 1), .event (.request 0 [ascii "set", ascii "k", ascii "v"] 0),
    .event (.request 0 [ascii "get", ascii "k"] 0)]

/-- The commands with their responses. -/
def talkServed : List (Nat × Served) :=
  [(0, ⟨[ascii "set", ascii "k", ascii "v"], 0, responseFrame (Value.scalar (.str (ascii "1"))).encode⟩),
    (0, ⟨[ascii "get", ascii "k"], 0, responseFrame (Value.scalar (.str (ascii "v"))).encode⟩)]

theorem talkSession_network :
    Guarded (sessionStep noDoubles) (Network noDoubles 0) {} talkSession :=
  network_of_first (by decide +kernel)

theorem conversation_of_run_talk :
    ∃ s logs, run (sessionStep noDoubles) {} talkSession = .ok (s, logs) ∧
      (s.clients 0).answers.length = 2 ∧
      ∃ vs, Conversation noDoubles printsTwo (observed (LoopEvent.seenBy 0) talkEvents)
        (s.clients 0) vs := by
  have hsession : endsIn (sessionStep noDoubles) (fun s logs =>
      decide ((s.clients 0).answers.length = 2 ∧ (s.clients 0).broken = false ∧
        servedOf logs.flatten = talkServed)) {} talkSession = true := by
    decide +kernel
  have hevents : endsIn (loopStep noDoubles) (fun _ rs =>
      decide (servedIn talkEvents rs = talkServed)) {} talkEvents = true := by
    decide +kernel
  rcases exists_of_endsIn hsession with ⟨s, logs, hrun, htest⟩
  rcases exists_of_endsIn hevents with ⟨g, rs, hloop, hserved⟩
  have hdone := of_decide_eq_true htest
  refine ⟨s, logs, hrun, hdone.1, conversation_of_run noDoubles printsTwo hrun hloop
    ((of_decide_eq_true hserved).trans hdone.2.2.symm)
    (guarded_of_checkRun orderly_of_check (by decide +kernel)) ?_ 0 talkSession_network hdone.2.1⟩
  exact ⟨True.intro, ⟨by decide, True.intro⟩, ⟨by decide, True.intro⟩, True.intro⟩

end RedisServer
