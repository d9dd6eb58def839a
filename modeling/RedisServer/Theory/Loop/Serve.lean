import RedisServer.Theory.Protocol.Stream
import RedisServer.Theory.Server.Step

/-!
# Serving the Input

What the loop over `try_one_request` does to a connection. It executes the
requests of the incoming buffer, each once and in order, and stops where no
complete frame is left or where the input is refused. In between, the outgoing
buffer holds the response to the last request and nothing before it.

The loop ends by itself. If it faults, a command of the input did.

## Main definitions

* `OnlyConn`: The connections did not change, but for one.
* `lastResponse`: What a series of requests leaves in the outgoing buffer.
* `Settles`: The connection after its input was served.

## Theorems

* `setIo_inv`: Buffers and flags are no concern of the keyspace.
* `requestLoop_spec`: The loop over the input.
-/

namespace RedisServer

open Lib

/-- Nothing changed about the connections but the tables and what concerns
    the connection `c`. -/
structure OnlyConn (g g' : GData) (c : Nat) : Prop where
  idleList : g'.idleList = g.idleList
  fd2conn : g'.fd2conn = g.fd2conn
  nextConn : g'.nextConn = g.nextConn
  io : ∀ c', c' ≠ c → (g'.conns c').map Conn.io = (g.conns c').map Conn.io

/-- The outgoing buffer after a series of requests: the response to the last
    one, or what was there before. -/
def lastResponse : List Served → Bytes → Bytes
  | [], out => out
  | s :: rest, _ => lastResponse rest s.response

/-- The connection, apart from its table, after its input was served. `rest`
    is the input no request was found in, and `out` is the output so far. -/
inductive Settles (rest out : Bytes) (conn conn' : Conn) : Prop
  | waiting : nextRequest rest = .more →
      conn'.io = { conn.io with incoming := rest, outgoing := out } → Settles rest out conn conn'
  | refused (n : Nat) (msg : Bytes) : nextRequest rest = .reject →
      conn'.io = RedisServer.refused { conn.io with incoming := rest, outgoing := out } n msg →
      Settles rest out conn conn'

theorem OnlyConn.refl (g : GData) (c : Nat) : OnlyConn g g c := ⟨rfl, rfl, rfl, fun _ _ => rfl⟩

theorem OnlyConn.trans {g g' g'' : GData} {c : Nat} (h : OnlyConn g g' c)
    (h' : OnlyConn g' g'' c) : OnlyConn g g'' c where
  idleList := h'.idleList.trans h.idleList
  fd2conn := h'.fd2conn.trans h.fd2conn
  nextConn := h'.nextConn.trans h.nextConn
  io := fun c' hc' => (h'.io c' hc').trans (h.io c' hc')

theorem SameLoop.onlyConn {g g' : GData} (h : SameLoop g g') (c : Nat) : OnlyConn g g' c :=
  ⟨h.idleList, h.fd2conn, h.nextConn, fun c' _ => h.io c'⟩

section

variable {R : Runtime} {g g' : GData} {c : Nat} {conn : Conn} {P : Nat → Prop}

theorem setConn_self (g : GData) (c : Nat) (x : Conn) : (g.setConn c x).conns c = some x :=
  Function.update_self _ _ _

theorem setConn_onlyConn (g : GData) (c : Nat) (x : Conn) : OnlyConn g (g.setConn c x) c where
  idleList := rfl
  fd2conn := rfl
  nextConn := rfl
  io := fun c' hc' => by rw [setConn_conns, if_neg hc']

/-- A connection whose record is assigned is as live as before. -/
theorem setConn_live (hc : g.conns c = some conn) (x : Conn) (c' : Nat) :
    (∃ y, (g.setConn c x).conns c' = some y) ↔ ∃ y, g.conns c' = some y := by
  rw [setConn_conns]
  by_cases h : c' = c
  · rw [if_pos h, h, hc]
    exact ⟨fun _ => ⟨conn, rfl⟩, fun _ => ⟨x, rfl⟩⟩
  · rw [if_neg h]

/-- Buffers and flags of a connection are no concern of the keyspace. -/
theorem setIo_sameData (hinv : Inv R g P) (hc : g.conns c = some conn) {x : Conn}
    (hdb : x.db = conn.db) : SameData g (g.setConn c x) :=
  setConn_sameData hinv.db (by rw [hdb]; exact hinv.db.wf c conn hc)
    (by rw [hdb, nodesOf_eq hc]) rfl rfl rfl rfl rfl

theorem setIo_inv (hinv : Inv R g P) (hc : g.conns c = some conn) {x : Conn}
    (hdb : x.db = conn.db) : Inv R (g.setConn c x) P := by
  have hlive := setConn_live hc x
  have hdead : ∀ c', g.conns c' = none → (g.setConn c x).conns c' = none := by
    intro c' hc'
    cases hx : (g.setConn c x).conns c' with
    | none => rfl
    | some y =>
        rcases (hlive c').mp ⟨y, hx⟩ with ⟨z, hz⟩
        rw [hc'] at hz
        cases hz
  refine (setIo_sameData hinv hc hdb).inv hinv (fun c' hc' hlt => ⟨hdead c' hc', hlt⟩) ⟨?_, ?_⟩
  · rcases hinv.loop.ring with ⟨l, hl, hmem⟩
    exact ⟨l, hl, fun c' => (hmem c').trans (hlive c').symm⟩
  · exact fun c' hc' => hdead c' (hinv.loop.fresh c' hc')

/-- A connection after a change of tables. -/
theorem SameLoop.record (h : SameLoop g g') (hc : g.conns c = some conn) :
    ∃ conn', g'.conns c = some conn' ∧ conn'.io = conn.io := by
  have hio := h.io c
  rw [hc, Option.map_some, Option.map_eq_some_iff] at hio
  exact hio

/-- A response, where it is computed, keeps the invariant and the
    connections. -/
theorem respond_moved (hinv : Inv R g P) (hc : g.conns c = some conn) {cmd : List Bytes} {now : Nat}
    {out : Bytes} (h : respond R g c cmd now = .ok (g', out)) : SameLoop g g' ∧ Inv R g' P := by
  rcases bind_eq_ok.mp h with ⟨⟨g₁, out₁⟩, hrun, h⟩
  rcases bind_eq_ok.mp h with ⟨out₂, _, h⟩
  rw [Except.ok.injEq, Prod.mk.injEq] at h
  rcases exists_views hinv.db with ⟨K, hK⟩
  rcases doRequest_moved hinv hK hc cmd now _ hrun with ⟨K', hm, _⟩
  rw [← h.1]
  exact ⟨hm.same, hm.inv⟩

/-- The loop over the incoming buffer executes its requests in order and
    settles the connection. It faults only in a command of the input. -/
theorem requestLoop_spec (clock : Nat → Nat) (fuel i : Nat) (hinv : Inv R g P)
    (hc : g.conns c = some conn) (hfuel : conn.incoming.length < fuel) :
    (∃ g' served conn', requestLoop R c clock fuel i g = .ok (g', served) ∧ Inv R g' P ∧
      OnlyConn g g' c ∧ g'.conns c = some conn' ∧
      served.map Served.cmd = (requests.decode conn.incoming).1 ∧
      (∀ s ∈ served, s.response ≠ []) ∧
      Settles (requests.decode conn.incoming).2 (lastResponse served conn.outgoing) conn conn') ∨
    ∃ f g₁ cmd now, requestLoop R c clock fuel i g = .error f ∧
      cmd ∈ (requests.decode conn.incoming).1 ∧ respond R g₁ c cmd now = .error f := by
  -- each request takes at least its header off the input, which bounds the loop
  induction fuel generalizing g conn i with
  | zero => exact absurd hfuel (Nat.not_lt_zero _)
  | succ fuel ih =>
      unfold requestLoop
      cases hnext : nextRequest conn.incoming with
      | more =>
          have hdec : requests.decode conn.incoming = ([], conn.incoming) :=
            Framer.decode_of_not_accept fun b n h => by
              change nextRequest conn.incoming = _ at h
              rw [hnext] at h
              cases h
          rw [tryOneRequest_more hc hnext, ok_bind, hdec]
          exact Or.inl ⟨g, [], conn, rfl, hinv, OnlyConn.refl g c, hc, rfl,
            fun s hs => absurd hs List.not_mem_nil, .waiting hnext rfl⟩
      | reject =>
          have hdec : requests.decode conn.incoming = ([], conn.incoming) :=
            Framer.decode_of_not_accept fun b n h => by
              change nextRequest conn.incoming = _ at h
              rw [hnext] at h
              cases h
          rcases tryOneRequest_reject (R := R) hc hnext (clock i) with ⟨n, msg, hrun⟩
          rw [hrun, ok_bind, hdec]
          exact Or.inl ⟨_, [], refused conn n msg, rfl, setIo_inv hinv hc rfl,
            setConn_onlyConn g c _, setConn_self g c _, rfl,
            fun s hs => absurd hs List.not_mem_nil, .refused n msg hnext rfl⟩
      | accept cmd n =>
          have hdec := Framer.decode_of_accept (F := requests) hnext
          rw [tryOneRequest_accept hc hnext, hdec]
          cases hresp : respond R g c cmd (clock i) with
          | error f =>
              simp only [error_bind]
              exact Or.inr ⟨f, g, cmd, clock i, rfl, List.mem_cons_self, hresp⟩
          | ok x =>
              rcases x with ⟨g₁, out⟩
              rcases respond_moved hinv hc hresp with ⟨hsame, hinv₁⟩
              rcases hsame.record hc with ⟨conn₁, hc₁, hio⟩
              simp only [ok_bind, conn_eq hc₁]
              have hin : conn₁.incoming = conn.incoming :=
                (congrArg Conn.incoming hio : conn₁.io.incoming = conn.io.incoming)
              have hbound := requests.bound hnext
              -- the record the next round starts from
              obtain ⟨conn₂, hconn₂⟩ : ∃ conn₂, conn₂ = ({ conn₁ with
                  outgoing := out, incoming := conn₁.incoming.drop n } : Conn) := ⟨_, rfl⟩
              have hin₂ : conn₂.incoming = conn.incoming.drop n := by
                rw [hconn₂, hin]
              have hout₂ : conn₂.outgoing = out := by
                rw [hconn₂]
              have hio₂ : ∀ rest out', ({ conn₂.io with incoming := rest, outgoing := out' } : Conn) =
                  { conn.io with incoming := rest, outgoing := out' } := by
                intro rest out'
                rw [← hio, hconn₂]
                rfl
              have hdb : conn₂.db = conn₁.db := by
                rw [hconn₂]
              rw [← hconn₂]
              have honly := (hsame.onlyConn c).trans (setConn_onlyConn g₁ c conn₂)
              rcases ih (i + 1) (setIo_inv hinv₁ hc₁ hdb) (setConn_self g₁ c conn₂) (by
                  rw [hin₂, List.length_drop]
                  omega) with
                ⟨g', served, conn', hrun, hinv', honly', hc', hcmds, hne, hsettles⟩ |
                ⟨f, g', cmd', now, hrun, hmem, hfail⟩
              · rw [hin₂] at hcmds hsettles
                refine Or.inl ⟨g', ⟨cmd, clock i, out⟩ :: served, conn', ?_, hinv',
                  honly.trans honly', hc', ?_, ?_, ?_⟩
                · rw [hrun, ok_bind]
                · rw [List.map_cons, hcmds]
                · intro s hs
                  rcases List.mem_cons.mp hs with rfl | hs
                  · exact respond_ne_nil hresp
                  · exact hne s hs
                -- the response replaces what was queued, so only the last one is left
                · rw [lastResponse, ← hout₂]
                  cases hsettles with
                  | waiting hmore hw => exact .waiting hmore (hw.trans (hio₂ _ _))
                  | refused n' msg hrej hr => exact .refused n' msg hrej (by rw [hr, hio₂])
              · rw [hin₂] at hmem
                refine Or.inr ⟨f, g', cmd', now, ?_, List.mem_cons_of_mem _ hmem, hfail⟩
                rw [hrun, error_bind]

end

end RedisServer
