import RedisServer.Theory.Loop.Serve

/-!
# One Turn of a Connection

What a connection looks like between two turns, and what a turn does to it.
Between turns it either waits for input and has nothing to send, or has
something to send and does not look at its input; in both cases no complete
frame waits in its input. A turn reads or writes, never both, because `poll`
is asked for one of the two.

## Main definitions

* `Settled`: A connection between two turns.
* `Ready.Fails`: The socket failed, or the stream ended.
* `Reads`, `Writes`: What the handlers do to a connection.
* `Turned`, `TurnMoves`: What a turn does to a connection and to the state.

## Theorems

* `handleRead_spec`, `handleWrite_spec`: The handlers.
* `connReady_spec`: A turn.
-/

namespace RedisServer

open Lib

/-- A connection between two turns: it is not to be closed, no request or bad
    frame waits in its input, and it wants to read when there is nothing to
    write and to write otherwise. -/
structure Settled (conn : Conn) : Prop where
  stays : conn.wantClose = false
  input : nextRequest conn.incoming = .more
  intent : (conn.wantRead = true ∧ conn.wantWrite = false ∧ conn.outgoing = []) ∨
    (conn.wantRead = false ∧ conn.wantWrite = true ∧ conn.outgoing ≠ [])

/-- The read failed or reached the end of the stream. -/
def ReadResult.Ends (rv : ReadResult) : Prop := rv = .error ∨ rv = .data []

/-- The write failed. -/
def WriteResult.Fails (rv : WriteResult) : Prop := rv = .error ∨ rv = .wrote 0

/-- What `poll` reported leads to a failure of the socket or the end of its
    stream. -/
def Ready.Fails (ready : Ready) : Prop :=
  ready.pollErr = true ∨ (ready.pollIn = true ∧ ready.read.Ends) ∨
    (ready.pollOut = true ∧ ∃ rv ∈ ready.writes, rv.Fails)

/-- The requests in the input after `bs` arrived. -/
def arrived (conn : Conn) (bs : Bytes) : List (List Bytes) × Bytes :=
  requests.decode (conn.incoming ++ bs)

/-- What `handle_read` does to a connection that waits for input. -/
structure Reads (conn conn' : Conn) (rv : ReadResult) (served : List Served) : Prop where
  fd : conn'.fd = conn.fd
  lastActiveMs : conn'.lastActiveMs = conn.lastActiveMs
  cmds : served.map Served.cmd = (arrived conn rv.bytes).1
  response : ∀ s ∈ served, s.response ≠ []
  closes : conn'.wantClose = true ↔ rv.Ends ∨ nextRequest (arrived conn rv.bytes).2 = .reject
  unsent : nextRequest (arrived conn rv.bytes).2 = .reject → conn'.outgoing ≠ []
  stays : conn'.wantClose = false → Settled conn' ∧ conn'.incoming = (arrived conn rv.bytes).2 ∧
    conn'.outgoing = lastResponse served []

/-- What `handle_write` does to a connection: it drained the output, the socket
    is not ready, or it failed. -/
inductive Writes (writes : List WriteResult) (conn conn' : Conn) : Prop
  | drained : conn'.io = { conn.io with outgoing := [], wantWrite := false, wantRead := true } →
      Writes writes conn conn'
  | pending (out : Bytes) : out ≠ [] → conn'.io = { conn.io with outgoing := out } →
      Writes writes conn conn'
  | failed (out : Bytes) : (∃ rv ∈ writes, rv.Fails) → out ≠ [] →
      conn'.io = { conn.io with outgoing := out, wantClose := true } → Writes writes conn conn'

/-- What a turn does to a settled connection, up to the decision to destroy
    it: `conn'` is the record that decision looks at. -/
structure Turned (conn : Conn) (turn : Turn) (conn' : Conn) : Prop where
  fd : conn'.fd = conn.fd
  lastActiveMs : conn'.lastActiveMs = turn.ready.now
  oneWay : turn.ready.pollIn = true → turn.ready.pollOut = false
  cmds : turn.served.map Served.cmd = (arrived conn turn.received).1
  response : ∀ s ∈ turn.served, s.response ≠ []
  closes : conn'.wantClose = true →
    turn.ready.Fails ∨ nextRequest (arrived conn turn.received).2 = .reject
  refusal : nextRequest (arrived conn turn.received).2 = .reject →
    conn'.wantClose = true ∧ conn'.outgoing ≠ []
  stays : conn'.wantClose = false → Settled conn' ∧
    conn'.incoming = (arrived conn turn.received).2 ∧
    turn.sent ++ conn'.outgoing = conn.outgoing ++ lastResponse turn.served []
  front : turn.sent <+: conn.outgoing

/-- What a turn does to the state. The connection is touched, its handlers
    run, and then it is kept or destroyed. -/
structure TurnMoves (R : Runtime) (g g' : GData) (c : Nat) (conn conn' : Conn) (turn : Turn)
    (P : Nat → Prop) : Prop where
  turned : Turned conn turn conn'
  given : turn.conn = c
  found : turn.found = conn
  moves : ∃ g₀ g₁, connTouch g c turn.ready.now = .ok g₀ ∧ OnlyConn g₀ g₁ c ∧ Inv R g₁ P ∧
    g₁.conns c = some conn' ∧
    ((turn.closed = none ∧ turn.ready.pollErr = false ∧ conn'.wantClose = false ∧ g' = g₁) ∨
      (turn.closed = some conn' ∧ (turn.ready.pollErr = true ∨ conn'.wantClose = true) ∧
        Destroyed g₁ g' c))

/-- The fault arose in a command. -/
def CommandFault (R : Runtime) (f : Fault) : Prop :=
  ∃ g c cmd now, respond R g c cmd now = .error f

/-- Nothing arrives in an input that waits for more. -/
theorem arrived_nil {conn : Conn} (h : nextRequest conn.incoming = .more) :
    arrived conn [] = ([], conn.incoming) := by
  rw [arrived, List.append_nil]
  refine Framer.decode_of_not_accept fun b n hnext => ?_
  change nextRequest conn.incoming = _ at hnext
  rw [h] at hnext
  cases hnext

/-- A connection whose input was refused has something to send. -/
theorem refused_ne_nil (conn : Conn) (n : Nat) (msg : Bytes) : (refused conn n msg).outgoing ≠ [] := by
  intro h
  rw [refused, List.append_eq_nil_iff, responseFrame, List.append_eq_nil_iff] at h
  have := length_le32 (outErr [] errBadReq msg).length
  rw [h.2.1, List.length_nil] at this
  omega

/-- The members of a record that is known up to its table. -/
theorem Conn.members {x y : Conn} (h : x.io = y) : x.fd = y.fd ∧ x.wantRead = y.wantRead ∧
    x.wantWrite = y.wantWrite ∧ x.wantClose = y.wantClose ∧ x.incoming = y.incoming ∧
    x.outgoing = y.outgoing ∧ x.lastActiveMs = y.lastActiveMs := by
  rw [← h]
  exact ⟨rfl, rfl, rfl, rfl, rfl, rfl, rfl⟩

section

variable {R : Runtime} {g : GData} {c : Nat} {conn : Conn} {P : Nat → Prop}

/-- A flag of a connection is assigned. -/
theorem setClose_reads (hset : Settled conn) {rv : ReadResult} (hends : rv.Ends) :
    Reads conn { conn with wantClose := true } rv [] := by
  have hbytes : rv.bytes = [] := by
    rcases hends with rfl | rfl <;> rfl
  have hnothing := arrived_nil hset.input
  refine ⟨rfl, rfl, ?_, fun s hs => absurd hs List.not_mem_nil, ?_, ?_, ?_⟩
  · rw [hbytes, hnothing]
    rfl
  · exact ⟨fun _ => Or.inl hends, fun _ => rfl⟩
  · rw [hbytes, hnothing, hset.input]
    exact nofun
  · exact nofun

/-- A connection that wants to read has nothing to write. -/
theorem Settled.reading (h : Settled conn) (hread : conn.wantRead = true) :
    conn.wantWrite = false ∧ conn.outgoing = [] := by
  rcases h.intent with h | h
  · exact h.2
  · rw [h.1] at hread
    exact absurd hread Bool.false_ne_true

/-- Nothing was read. -/
theorem eagain_reads (hset : Settled conn) (hread : conn.wantRead = true) :
    Reads conn conn .eagain [] := by
  have hbytes : ReadResult.eagain.bytes = [] := rfl
  have hnothing := arrived_nil hset.input
  refine ⟨rfl, rfl, ?_, fun s hs => absurd hs List.not_mem_nil, ?_, ?_,
    fun _ => ⟨hset, ?_, (hset.reading hread).2⟩⟩
  · rw [hbytes, hnothing]
    rfl
  · rw [hbytes, hnothing, hset.input, hset.stays]
    constructor
    · exact fun h => absurd h Bool.false_ne_true
    · rintro ((h | h) | h)
      · cases h
      · cases h
      · cases h
  · rw [hbytes, hnothing, hset.input]
    exact nofun
  · rw [hbytes, hnothing]

/-- Bytes were read and the requests among them served: the connection turns
    to writing when there is something to write. -/
theorem Settles.reads {conn₂ : Conn} {b : UInt8} {bs : Bytes} {served : List Served}
    (h : Settles (arrived conn (b :: bs)).2 (lastResponse served [])
      { conn with incoming := conn.incoming ++ b :: bs } conn₂)
    (hset : Settled conn) (hread : conn.wantRead = true)
    (hcmds : served.map Served.cmd = (arrived conn (b :: bs)).1)
    (hne : ∀ s ∈ served, s.response ≠ []) :
    Reads conn (if 0 < conn₂.outgoing.length then
      { conn₂ with wantRead := false, wantWrite := true } else conn₂) (.data (b :: bs)) served := by
  -- bytes are not an end of the input
  have hnotEnds : ¬ (ReadResult.data (b :: bs)).Ends := by
    rintro (h | h)
    · cases h
    · cases h
  cases h with
  | waiting hmore hio =>
      have hio' : conn₂.io = { conn.io with
          incoming := (arrived conn (b :: bs)).2, outgoing := lastResponse served [] } := hio
      rcases Conn.members hio' with ⟨hfd, hr, hw, hcl, hin₂, hout₂, hlastMs⟩
      have hcl₂ : conn₂.wantClose = false := hcl.trans hset.stays
      have hrej : nextRequest (arrived conn (b :: bs)).2 ≠ .reject := by
        rw [hmore]
        exact fun h => by cases h
      have hcloses : ∀ x : Conn, x.wantClose = false → (x.wantClose = true ↔
          (ReadResult.data (b :: bs)).Ends ∨
            nextRequest (arrived conn (b :: bs)).2 = .reject) := by
        intro x hx
        rw [hx]
        constructor
        · exact fun h => absurd h Bool.false_ne_true
        · rintro (h | h)
          · exact absurd h hnotEnds
          · exact absurd h hrej
      -- with responses queued the connection turns to writing, without any it goes on reading
      by_cases hpos : 0 < conn₂.outgoing.length
      · rw [if_pos hpos]
        exact ⟨hfd, hlastMs, hcmds, hne, hcloses _ hcl₂, fun h => absurd h hrej,
          fun _ => ⟨⟨hcl₂, (congrArg nextRequest hin₂).trans hmore,
            Or.inr ⟨rfl, rfl, List.ne_nil_of_length_pos hpos⟩⟩, hin₂, hout₂⟩⟩
      · rw [if_neg hpos]
        have hnil := List.eq_nil_of_length_eq_zero (Nat.eq_zero_of_not_pos hpos)
        exact ⟨hfd, hlastMs, hcmds, hne, hcloses _ hcl₂, fun h => absurd h hrej,
          fun _ => ⟨⟨hcl₂, (congrArg nextRequest hin₂).trans hmore,
            Or.inl ⟨hr.trans hread, hw.trans (hset.reading hread).1, hnil⟩⟩, hin₂, hout₂⟩⟩
  | refused n msg hrej hio =>
      have hio' : conn₂.io = RedisServer.refused { conn.io with
          incoming := (arrived conn (b :: bs)).2, outgoing := lastResponse served [] } n msg := hio
      rcases Conn.members hio' with ⟨hfd, _, _, hcl₂, _, hout₂, hlastMs⟩
      -- the refusal itself is queued
      have hpos : conn₂.outgoing ≠ [] := by
        rw [hout₂]
        exact refused_ne_nil _ n msg
      rw [if_pos (List.length_pos_of_ne_nil hpos)]
      refine ⟨hfd, hlastMs, hcmds, hne, ⟨fun _ => Or.inr hrej, fun _ => hcl₂⟩, fun _ => hpos,
        fun h => ?_⟩
      exact absurd (h.symm.trans hcl₂) Bool.false_ne_true

/-- `handle_read` on a connection that waits for input. -/
theorem handleRead_spec (rv : ReadResult) (clock : Nat → Nat) (hinv : Inv R g P)
    (hc : g.conns c = some conn) (hset : Settled conn) (hread : conn.wantRead = true) :
    (∃ g' served conn', handleRead R g c rv clock = .ok (g', served) ∧ Inv R g' P ∧
      OnlyConn g g' c ∧ g'.conns c = some conn' ∧ Reads conn conn' rv served) ∨
    ∃ f, handleRead R g c rv clock = .error f ∧ CommandFault R f := by
  -- an error and the end of the input both ask for the close
  have hclose : ∀ rv : ReadResult, rv.Ends →
      ∃ g' served conn', (.ok (g.setConn c { conn with wantClose := true }, []) : Result _) =
          .ok (g', served) ∧ Inv R g' P ∧ OnlyConn g g' c ∧ g'.conns c = some conn' ∧
        Reads conn conn' rv served := by
    intro rv hends
    exact ⟨_, [], _, rfl, setIo_inv hinv hc rfl, setConn_onlyConn g c _, setConn_self g c _,
      setClose_reads hset hends⟩
  rw [handleRead, conn_eq hc, ok_bind]
  match rv with
  | .error => exact Or.inl (hclose .error (Or.inl rfl))
  | .data [] => exact Or.inl (hclose (.data []) (Or.inr rfl))
  | .eagain =>
      exact Or.inl ⟨g, [], conn, rfl, hinv, OnlyConn.refl g c, hc, eagain_reads hset hread⟩
  | .data (b :: bs) =>
      simp only
      -- the record with the bytes appended, from which the request loop starts
      obtain ⟨conn₁, hconn₁⟩ : ∃ conn₁, conn₁ = ({ conn with
        incoming := conn.incoming ++ b :: bs } : Conn) := ⟨_, rfl⟩
      have hin₁ : conn₁.incoming = conn.incoming ++ b :: bs := by rw [hconn₁]
      have hout₁ : conn₁.outgoing = [] := by rw [hconn₁]; exact (hset.reading hread).2
      have harr : requests.decode conn₁.incoming = arrived conn (b :: bs) := by
        rw [arrived, hin₁]
      rw [← hconn₁, ← hin₁]
      rcases requestLoop_spec (R := R) clock (conn₁.incoming.length + 1) 0
        (setIo_inv hinv hc (x := conn₁) (by rw [hconn₁])) (setConn_self g c conn₁)
        (Nat.lt_succ_self _) with
        ⟨g₂, served, conn₂, hrun, hinv₂, honly₂, hc₂, hcmds, hne, hsettles⟩ |
        ⟨f, g₂, cmd, now, hrun, _, hfail⟩
      · rw [harr] at hcmds hsettles
        rw [hout₁, hconn₁] at hsettles
        have hreads := hsettles.reads hset hread hcmds hne
        have honly := (setConn_onlyConn g c conn₁).trans honly₂
        rw [hrun, ok_bind]
        simp only [conn_eq hc₂, ok_bind]
        by_cases hpos : 0 < conn₂.outgoing.length
        · rw [if_pos hpos] at hreads ⊢
          exact Or.inl ⟨_, served, _, rfl, setIo_inv hinv₂ hc₂ rfl,
            honly.trans (setConn_onlyConn g₂ c _), setConn_self g₂ c _, hreads⟩
        · rw [if_neg hpos] at hreads ⊢
          exact Or.inl ⟨g₂, served, conn₂, rfl, hinv₂, honly, hc₂, hreads⟩
      · refine Or.inr ⟨f, ?_, g₂, c, cmd, now, hfail⟩
        rw [hrun, error_bind]

/-- `handle_write`: what it sent, followed by what is left, is what there was
    to send. -/
theorem handleWrite_spec (writes : List WriteResult) (hinv : Inv R g P)
    (hc : g.conns c = some conn) :
    ∃ g' sent conn', handleWrite g c writes = .ok (g', sent) ∧ Inv R g' P ∧ OnlyConn g g' c ∧
      g'.conns c = some conn' ∧ sent ++ conn'.outgoing = conn.outgoing ∧ Writes writes conn conn' := by
  -- everything is written: back to reading
  have hdone : ∀ writes, conn.outgoing = [] →
      Writes writes conn { conn with wantWrite := false, wantRead := true } := by
    intro writes hout
    refine .drained ?_
    rw [← hout]
    rfl
  -- each write drops what it wrote off the front of the outgoing bytes
  induction writes generalizing g conn with
  | nil =>
      rw [handleWrite, conn_eq hc, ok_bind]
      by_cases hout : conn.outgoing = []
      · rw [if_pos (List.isEmpty_iff.mpr hout)]
        exact ⟨_, [], _, rfl, setIo_inv hinv hc rfl, setConn_onlyConn g c _, setConn_self g c _,
          List.nil_append _, hdone [] hout⟩
      · rw [if_neg (fun h => hout (List.isEmpty_iff.mp h))]
        exact ⟨g, [], conn, rfl, hinv, OnlyConn.refl g c, hc, List.nil_append _,
          .pending conn.outgoing hout rfl⟩
  | cons rv rvs ih =>
      rw [handleWrite, conn_eq hc, ok_bind]
      by_cases hout : conn.outgoing = []
      · rw [if_pos (List.isEmpty_iff.mpr hout)]
        exact ⟨_, [], _, rfl, setIo_inv hinv hc rfl, setConn_onlyConn g c _, setConn_self g c _,
          List.nil_append _, hdone (rv :: rvs) hout⟩
      rw [if_neg (fun h => hout (List.isEmpty_iff.mp h))]
      -- a write that fails, or writes nothing, asks for the close
      have hfail : ∀ rv : WriteResult, rv.Fails →
          Writes (rv :: rvs) conn { conn with wantClose := true } := by
        intro rv hrv
        exact .failed conn.outgoing ⟨rv, List.mem_cons_self, hrv⟩ hout rfl
      cases rv with
      | eagain =>
          exact ⟨g, [], conn, rfl, hinv, OnlyConn.refl g c, hc, List.nil_append _,
            .pending conn.outgoing hout rfl⟩
      | error =>
          exact ⟨_, [], _, rfl, setIo_inv hinv hc rfl, setConn_onlyConn g c _, setConn_self g c _,
            List.nil_append _, hfail .error (Or.inl rfl)⟩
      | wrote n =>
          simp only
          by_cases hn : n = 0
          · rw [if_pos hn, hn]
            exact ⟨_, [], _, rfl, setIo_inv hinv hc rfl, setConn_onlyConn g c _, setConn_self g c _,
              List.nil_append _, hfail (.wrote 0) (Or.inr rfl)⟩
          rw [if_neg hn]
          obtain ⟨conn₁, hconn₁⟩ : ∃ conn₁, conn₁ = ({ conn with
            outgoing := conn.outgoing.drop n } : Conn) := ⟨_, rfl⟩
          rw [← hconn₁]
          have hio₁ : ∀ out, ({ conn₁.io with outgoing := out } : Conn) =
              { conn.io with outgoing := out } := by
            intro out
            rw [hconn₁]
            rfl
          rcases ih (setIo_inv hinv hc (x := conn₁) (by rw [hconn₁])) (setConn_self g c conn₁)
            (fun writes hnil => .drained (by
              rw [← hnil]
              rfl)) with
            ⟨g', sent, conn', hrun, hinv', honly, hc', hsent, hw⟩
          refine ⟨g', conn.outgoing.take n ++ sent, conn', by rw [hrun, ok_bind], hinv',
            (setConn_onlyConn g c conn₁).trans honly, hc', ?_, ?_⟩
          · rw [List.append_assoc, hsent, hconn₁, List.take_append_drop]
          · cases hw with
            | drained hio =>
                refine .drained (hio.trans ?_)
                rw [hconn₁]
                rfl
            | pending out hne hio => exact .pending out hne (hio.trans (hio₁ out))
            | failed out hex hne hio =>
                rcases hex with ⟨rv, hrv, hf⟩
                refine .failed out ⟨rv, List.mem_cons_of_mem _ hrv, hf⟩ hne (hio.trans ?_)
                rw [hconn₁]
                rfl

/-- A settled connection is still settled when it was touched. -/
theorem Settled.touch (h : Settled conn) (now : Nat) :
    Settled { conn with lastActiveMs := now } := ⟨h.stays, h.input, h.intent⟩

/-- A settled connection whose turn neither reads nor writes. -/
theorem turned_idle (hset : Settled conn) {turn : Turn} (hin : turn.ready.pollIn = false)
    (hserved : turn.served = []) (hsent : turn.sent = []) :
    Turned conn turn { conn with lastActiveMs := turn.ready.now } := by
  have hrecv : turn.received = [] := by
    rw [Turn.received, hin, if_neg Bool.false_ne_true]
  have hnothing := arrived_nil hset.input
  refine ⟨rfl, rfl, ?_, ?_, ?_, ?_, ?_, fun _ => ⟨hset.touch _, ?_, ?_⟩, hsent ▸ List.nil_prefix⟩
  · rw [hin]
    exact fun h => absurd h Bool.false_ne_true
  · rw [hrecv, hnothing, hserved]
    rfl
  · rw [hserved]
    exact fun s hs => absurd hs List.not_mem_nil
  · exact fun h => absurd (hset.stays.symm.trans h) Bool.false_ne_true
  · rw [hrecv, hnothing, hset.input]
    exact nofun
  · rw [hrecv, hnothing]
  · rw [hsent, hserved, lastResponse, List.append_nil, List.nil_append]

/-- A turn that reads. -/
theorem turned_read {conn' : Conn} {turn : Turn} (hout : conn.outgoing = [])
    (hin : turn.ready.pollIn = true) (hno : turn.ready.pollOut = false) (hsent : turn.sent = [])
    (h : Reads { conn with lastActiveMs := turn.ready.now } conn' turn.ready.read turn.served) :
    Turned conn turn conn' := by
  have hrecv : turn.received = turn.ready.read.bytes := by
    rw [Turn.received, hin, if_pos rfl]
  refine ⟨h.fd, h.lastActiveMs, fun _ => hno, ?_, h.response, fun hcl => ?_, fun hrej => ?_,
    fun hst => ?_, hsent ▸ List.nil_prefix⟩
  · rw [hrecv]
    exact h.cmds
  · rw [hrecv]
    exact (h.closes.mp hcl).imp_left fun he => Or.inr (Or.inl ⟨hin, he⟩)
  · rw [hrecv] at hrej
    exact ⟨h.closes.mpr (Or.inr hrej), h.unsent hrej⟩
  · rcases h.stays hst with ⟨hset', hin', hout'⟩
    rw [hrecv, hsent, hout, List.nil_append, List.nil_append]
    exact ⟨hset', hin', hout'⟩

/-- A turn that writes. -/
theorem turned_write {conn' : Conn} {turn : Turn} (hset : Settled conn)
    (hread : conn.wantRead = false) (hwrite : conn.wantWrite = true)
    (hin : turn.ready.pollIn = false) (hpoll : turn.ready.pollOut = true)
    (hserved : turn.served = []) (hsent : turn.sent ++ conn'.outgoing = conn.outgoing)
    (h : Writes turn.ready.writes { conn with lastActiveMs := turn.ready.now } conn') :
    Turned conn turn conn' := by
  have hrecv : turn.received = [] := by
    rw [Turn.received, hin, if_neg Bool.false_ne_true]
  -- a turn that only writes reads no bytes, so what was undecoded stays so
  have hnothing := arrived_nil hset.input
  have hcmds : turn.served.map Served.cmd = (arrived conn turn.received).1 := by
    rw [hrecv, hnothing, hserved]
    rfl
  have hresp : ∀ s ∈ turn.served, s.response ≠ [] := by
    rw [hserved]
    exact fun s hs => absurd hs List.not_mem_nil
  have hrej : nextRequest (arrived conn turn.received).2 = .reject →
      conn'.wantClose = true ∧ conn'.outgoing ≠ [] := by
    rw [hrecv, hnothing, hset.input]
    exact nofun
  have honeway : turn.ready.pollIn = true → turn.ready.pollOut = false := by
    rw [hin]
    exact fun h => absurd h Bool.false_ne_true
  have hstay : turn.sent ++ conn'.outgoing = conn.outgoing ++ lastResponse turn.served [] := by
    rw [hserved, lastResponse, List.append_nil, hsent]
  have hfront : turn.sent <+: conn.outgoing := ⟨_, hsent⟩
  cases h with
  | drained hio =>
      rcases Conn.members hio with ⟨hfd, hr, hw, hcl, hi, ho, hl⟩
      refine ⟨hfd, hl, honeway, hcmds, hresp, fun h => ?_, hrej, fun _ => ⟨⟨hcl.trans hset.stays, ?_,
        Or.inl ⟨hr, hw, ho⟩⟩, ?_, hstay⟩, hfront⟩
      · exact absurd ((hcl.trans hset.stays).symm.trans h) Bool.false_ne_true
      · exact (congrArg nextRequest hi).trans hset.input
      · rw [hrecv, hnothing]
        exact hi
  | pending out hne hio =>
      rcases Conn.members hio with ⟨hfd, hr, hw, hcl, hi, ho, hl⟩
      refine ⟨hfd, hl, honeway, hcmds, hresp, fun h => ?_, hrej, fun _ => ⟨⟨hcl.trans hset.stays, ?_,
        Or.inr ⟨hr.trans hread, hw.trans hwrite, ?_⟩⟩, ?_, hstay⟩, hfront⟩
      · exact absurd ((hcl.trans hset.stays).symm.trans h) Bool.false_ne_true
      · exact (congrArg nextRequest hi).trans hset.input
      · rw [ho]
        exact hne
      · rw [hrecv, hnothing]
        exact hi
  | failed out hex hne hio =>
      rcases Conn.members hio with ⟨hfd, hr, hw, hcl, hi, ho, hl⟩
      refine ⟨hfd, hl, honeway, hcmds, hresp, fun _ => Or.inl (Or.inr (Or.inr ⟨hpoll, hex⟩)), hrej,
        fun h => ?_, hfront⟩
      exact absurd (h.symm.trans hcl) Bool.false_ne_true

/-- A turn of a settled connection, given only events it wants. It faults only
    in a command. -/
theorem connReady_spec (hinv : Inv R g P) (hc : g.conns c = some conn) (hset : Settled conn)
    (polled : Nat) {ready : Ready} (hin : ready.pollIn = true → conn.wantRead = true)
    (hout : ready.pollOut = true → conn.wantWrite = true) :
    (∃ g' turn conn', connReady R g c polled ready = .ok (g', turn) ∧ turn.polled = polled ∧
      turn.ready = ready ∧ TurnMoves R g g' c conn conn' turn P) ∨
    ∃ f, connReady R g c polled ready = .error f ∧ CommandFault R f := by
  rcases connTouch_spec hinv hc ready.now with ⟨g₀, htouch, _, hinv₀, hconns₀⟩
  have hc₀ : g₀.conns c = some { conn with lastActiveMs := ready.now } := by
    rw [hconns₀, Function.update_self]
  -- What the handlers left, and the decision that follows them.
  have hdecide : ∀ g₁ conn' served sent, Inv R g₁ P → OnlyConn g₀ g₁ c → g₁.conns c = some conn' →
      Turned conn ⟨c, conn, polled, ready, served, sent, none⟩ conn' →
      ∃ g' turn conn', (do
        let last ← g₁.conn c
        let g ← (if ready.pollErr ∨ last.wantClose then connDestroy g₁ c else .ok g₁)
        (.ok (g, ⟨c, conn, polled, ready, served, sent,
          if ready.pollErr ∨ last.wantClose then some last else none⟩) : Result (GData × Turn))) =
          .ok (g', turn) ∧ turn.polled = polled ∧ turn.ready = ready ∧
        TurnMoves R g g' c conn conn' turn P := by
    intro g₁ conn' served sent hinv₁ honly hc₁ hturned
    have hkeep : ∀ closed, Turned conn ⟨c, conn, polled, ready, served, sent, closed⟩ conn' :=
      fun closed => ⟨hturned.fd, hturned.lastActiveMs, hturned.oneWay, hturned.cmds, hturned.response,
        hturned.closes, hturned.refusal, hturned.stays, hturned.front⟩
    rw [conn_eq hc₁, ok_bind]
    by_cases hcl : ready.pollErr = true ∨ conn'.wantClose = true
    · rcases connDestroy_eq hinv₁.loop hc₁ with ⟨g', hdes, hd⟩
      simp only [if_pos hcl, hdes, ok_bind]
      exact ⟨g', _, conn', rfl, rfl, rfl, hkeep _, rfl, rfl, g₀, g₁, htouch, honly, hinv₁, hc₁,
        Or.inr ⟨rfl, hcl, hd⟩⟩
    · simp only [if_neg hcl, ok_bind]
      rw [not_or, Bool.not_eq_true, Bool.not_eq_true] at hcl
      exact ⟨g₁, _, conn', rfl, rfl, rfl, hkeep _, rfl, rfl, g₀, g₁, htouch, honly, hinv₁, hc₁,
        Or.inl ⟨rfl, hcl.1, hcl.2, rfl⟩⟩
  rw [connReady, conn_eq hc, ok_bind, htouch, ok_bind]
  by_cases hi : ready.pollIn = true
  · have hread := hin hi
    rcases hset.reading hread with ⟨hwrite, hempty⟩
    -- A connection that reads is not asked about writing.
    have hno : ready.pollOut = false := by
      rw [← Bool.not_eq_true]
      intro ho
      rw [hout ho] at hwrite
      cases hwrite
    rw [if_pos hi]
    rcases handleRead_spec (R := R) ready.read ready.clock hinv₀ hc₀ (hset.touch ready.now) hread with
      ⟨g₁, served, conn', hrun, hinv₁, honly, hc₁, hreads⟩ | ⟨f, hrun, hfault⟩
    · simp only [hrun, ok_bind, hno, if_neg Bool.false_ne_true]
      exact Or.inl (hdecide g₁ conn' served [] hinv₁ honly hc₁
        (turned_read hempty hi hno rfl hreads))
    · exact Or.inr ⟨f, by rw [hrun, error_bind], hfault⟩
  · rw [if_neg hi, ok_bind]
    rw [Bool.not_eq_true] at hi
    by_cases ho : ready.pollOut = true
    · have hwrite := hout ho
      have hread : conn.wantRead = false := by
        rcases hset.intent with h | h
        · rw [h.2.1] at hwrite
          cases hwrite
        · exact h.1
      simp only [if_pos ho]
      rcases handleWrite_spec (R := R) ready.writes hinv₀ hc₀ with
        ⟨g₁, sent, conn', hrun, hinv₁, honly, hc₁, hsent, hwrites⟩
      simp only [hrun, ok_bind]
      exact Or.inl (hdecide g₁ conn' [] sent hinv₁ honly hc₁
        (turned_write hset hread hwrite hi ho rfl hsent hwrites))
    · simp only [if_neg ho, ok_bind]
      exact Or.inl (hdecide g₀ _ [] [] hinv₀ (OnlyConn.refl g₀ c) hc₀ (turned_idle hset hi rfl rfl))

end

end RedisServer
