import RedisServer.Theory.Protocol.Stream
import RedisServer.Theory.Protocol.Value
import RedisServer.Theory.Server.Replies

/-!
# The Response to Every Command

The frame a command is answered with carries the encoding of one value, the
client decodes it to its end, and only the commands that reply with a list can
have their reply replaced because it is too big. The value of a key came in a
request, which was within the same limit, so the reply to a `get` fits.

A command that is answered with an error, or that only reads, leaves what a
client can tell of the state as it was.

## Main definitions

* `Requested`: A state reached by requests that arrived in frames.
* `Value.tag`, `Value.sent`: The first byte of a value, and what is sent of it.
* `Shown`, `Shows`: What a client can tell of a key.
* `SameLogical`: Two states no client can tell apart.

## Theorems

* `respond_replied`: The response frame of any command.
* `response_of_command`: It is one value, which the client decodes.
* `unchanged_of_error`: Errors and reads change nothing.
-/

namespace RedisServer

open Lib BinaryTree ZSet

/-- The state is reached by requests whose commands arrived in frames. -/
def Requested (R : Runtime) (g : GData) : Prop :=
  ∃ es rs, run (serverStep R) {} es = .ok (g, rs) ∧
    ∀ c cmd now, Event.request c cmd now ∈ es → ∃ frame, IsFrame frame cmd

/-- What a client can tell of a key: the type and the string of its value, the
    members of its sorted set in order, and its deadline. -/
structure Shown where
  type : ValueType
  str : Bytes
  members : Result (List (Double × Bytes))
  due : Option Nat

/-- A record and its deadline, as a client sees them. -/
def shown (v : Entry × Option Nat) : Shown := ⟨v.1.type, v.1.str, v.1.zset.members, v.2⟩

/-- The connection has the key, and this is what a client can tell of it. -/
def Shows (g : GData) (c : Nat) (k : Bytes) (v : Shown) : Prop :=
  ∃ e x, Holds g c k e x ∧ v = shown (x, due g e)

/-- The logical state is the same: the connections, what clients can tell of
    their keys, and the shared empty set. Sorted sets are still well-formed, so
    their hashtables hold the members that their trees list. -/
structure SameLogical (g g' : GData) : Prop where
  live : ∀ c, (∃ conn, g'.conns c = some conn) ↔ ∃ conn, g.conns c = some conn
  keys : ∀ c k v, Shows g' c k v ↔ Shows g c k v
  emptyZset : g'.emptyZset = g.emptyZset
  wellFormed : WellFormed g'

/-- The value that is sent: an error takes the place of one over the limit. -/
def Value.sent (v : Value) : Value :=
  if kMaxMsg < v.encode.length then .scalar (.err errTooBig (ascii "response is too big")) else v

theorem Value.encode_sent (v : Value) : v.sent.encode = capped v.encode := by
  unfold Value.sent capped
  by_cases hbig : kMaxMsg < v.encode.length
  · rw [if_pos hbig, if_pos hbig]
    rfl
  · rw [if_neg hbig, if_neg hbig]

theorem Value.length_sent (v : Value) : v.sent.encode.length ≤ kMaxMsg := by
  unfold Value.sent
  by_cases hbig : kMaxMsg < v.encode.length
  · rw [if_pos hbig]
    decide
  · rw [if_neg hbig]
    exact Nat.le_of_not_lt hbig

/-- The first byte of a value. -/
def Value.tag : Value → UInt8
  | .scalar .nil => tagNil
  | .scalar (.err _ _) => tagErr
  | .scalar (.str _) => tagStr
  | .scalar (.int _) => tagInt
  | .scalar (.dbl _) => tagDbl
  | .arr _ => tagArr

theorem Value.encode_head (v : Value) : v.encode[0]? = some v.tag := by
  cases v with
  | arr elems => rfl
  | scalar s => cases s <;> rfl

theorem Value.tag_eq_err (v : Value) : v.tag = tagErr ↔ v.IsErr := by
  constructor
  · intro htag
    rcases v with (_ | ⟨code, msg⟩ | s | n | x) | elems
    · exact absurd htag (by decide)
    · exact ⟨code, msg, rfl⟩
    · exact absurd htag (by decide : tagStr ≠ tagErr)
    · exact absurd htag (by decide : tagInt ≠ tagErr)
    · exact absurd htag (by decide : tagDbl ≠ tagErr)
    · exact absurd htag (by decide : tagArr ≠ tagErr)
  · rintro ⟨code, msg, rfl⟩
    rfl

/-- The frame of a value replies an error: its first byte is the tag of
    one. -/
theorem frame_tag (v : Value) : (responseFrame v.encode)[4]? = some tagErr ↔ v.IsErr := by
  rw [responseFrame, List.getElem?_append_right (by rw [length_le32]), length_le32, v.encode_head,
    Option.some.injEq, v.tag_eq_err]

section

variable {R : Runtime} {Q : Bytes → Prop} {g g' : GData} {K K' : Keyspace} {P : Nat → Prop}

/-- A command that appends one value is answered with its frame. -/
theorem respond_of_value {c : Nat} {cmd : List Bytes} {now : Nat} {v : Value}
    (h : doRequest R g c cmd now (responseBegin []).1 = .ok (g', (responseBegin []).1 ++ v.encode)) :
    respond R g c cmd now = .ok (g', responseFrame v.sent.encode) := by
  have hend := responseEnd_eq [] v.encode
  rw [List.nil_append, List.nil_append] at hend
  unfold respond
  rw [v.encode_sent]
  simp only [h, ok_bind]
  exact bind_eq_ok.mpr ⟨_, hend, rfl⟩

/-- Any command on a state whose sorted sets are well-formed is answered with
    the frame of one value. -/
theorem respond_replied (hinv : Inv R g P) (hK : Views g K) (hs : StoresOk R Q g)
    (hwf : WellFormed g) {c : Nat} {conn : Conn} (hc : g.conns c = some conn) (cmd : List Bytes)
    (now : Nat) :
    ∃ g' v K', doRequest R g c cmd now (responseBegin []).1 =
        .ok (g', (responseBegin []).1 ++ v.encode) ∧
      respond R g c cmd now = .ok (g', responseFrame v.sent.encode) ∧ Replied R g cmd K P g' v K' := by
  rcases doRequest_replied hinv hK hs hwf hc cmd now (responseBegin []).1 with ⟨g', v, K', hrun, hv⟩
  exact ⟨g', v, K', hrun, respond_of_value hrun, hv⟩

/-! ## The limit -/

/-- The value a `set` stores came in a frame, with nineteen other bytes. -/
theorem length_of_set {frame : Bytes} {cmd : List Bytes} (h : IsFrame frame cmd)
    (hcmd : isCmd cmd 3 "set" = true) : (arg cmd 2).length + 19 ≤ kMaxMsg := by
  rcases h with ⟨body, _, hmax, hparse⟩
  have hbody := ((parse_body_iff hmax).mp hparse).1
  rw [isCmd, Bool.and_eq_true, decide_eq_true_eq, beq_iff_eq] at hcmd
  rcases List.length_eq_three.mp hcmd.1 with ⟨name, key, value, rfl⟩
  have hname : name.length = 3 := by
    have hset := hcmd.2
    simp only [arg, List.getD_cons_zero] at hset
    rw [hset]
    rfl
  rw [hbody, length_requestBody] at hmax
  simp only [encodeArgs, List.length_append, List.length_nil, length_le32, hname] at hmax
  simp only [arg, List.getD_cons_succ, List.getD_cons_zero]
  omega

theorem Requested.inv (h : Requested R g) : ∃ P, Inv R g P := by
  rcases h with ⟨es, rs, hrun, _⟩
  exact inv_of_run (inv_init R) hrun

/-- The strings of such a state fit in a response. -/
theorem Requested.stores (h : Requested R g) :
    StoresOk R (fun s => s.length + 19 ≤ kMaxMsg) g := by
  rcases h with ⟨es, rs, hrun, hframes⟩
  refine stores_of_run (Q := fun s => s.length + 19 ≤ kMaxMsg) (by decide) ?_ hrun
  intro c cmd now he hset
  rcases hframes c cmd now he with ⟨frame, hframe⟩
  exact length_of_set hframe hset

/-- Only a list can be over the limit. -/
theorem Replied.fits {cmd : List Bytes} {v : Value} (h : Replied R g cmd K P g' v K')
    (hs : StoresOk R (fun s => s.length + 19 ≤ kMaxMsg) g) :
    RepliesList cmd ∨ v.encode.length ≤ kMaxMsg := by
  rcases h.small with hlist | hsmall | ⟨_, e, x, hx, rfl⟩
  · exact Or.inl hlist
  · exact Or.inr (Nat.le_trans hsmall (by decide))
  · have hstr := (hs.entries e x hx).2
    refine Or.inr ?_
    rw [length_str]
    omega

/-- The response to any command is one frame. Its length is that of its
    payload, within the limit, and its payload is one value, in which the size
    of an array is the number of its elements. The client decodes the payload
    to its end, so it accepts the response however it arrives. Only the replies
    of `keys` and `zquery` can be replaced because they are too big. -/
theorem response_of_command (R : Runtime) (g : GData) (hreach : Requested R g)
    (hwf : WellFormed g) (c : Nat) (conn : Conn) (hc : g.conns c = some conn) (cmd : List Bytes)
    (now : Nat) :
    ∃ g' reply, ∃ v : Value, doRequest R g c cmd now (responseBegin []).1 =
        .ok (g', (responseBegin []).1 ++ reply) ∧
      respond R g c cmd now = .ok (g', le32 v.encode.length ++ v.encode) ∧
      v.encode.length ≤ kMaxMsg ∧ leNat (le32 v.encode.length) = v.encode.length ∧
      (∀ elems, v = .arr elems → v.encode = tagArr :: le32 elems.length ++ encodeAll elems ∧
        leNat (le32 elems.length) = elems.length) ∧
      0 < v.encode.length ∧ printResponse v.encode = .ok v.encode.length ∧
      (∀ reads rest, Delivering reads →
        reads.flatMap SockRead.bytes = le32 v.encode.length ++ v.encode ++ rest →
        readResponse reads = .ok v.encode.length) ∧
      (v.encode ≠ reply → v = .scalar (.err errTooBig (ascii "response is too big")) ∧
        kMaxMsg < reply.length ∧ (isCmd cmd 1 "keys" = true ∨ isCmd cmd 6 "zquery" = true)) := by
  rcases hreach.inv with ⟨P, hinv⟩
  rcases exists_views hinv.db with ⟨K, hK⟩
  rcases respond_replied hinv hK hreach.stores hwf hc cmd now with ⟨g', v, K', hrun, hresp, hv⟩
  have hmax := v.length_sent
  -- the lengths fit in the four bytes they are written in
  have hword : ∀ n, n ≤ kMaxMsg → leNat (le32 n) = n := fun n hn =>
    leNat_le32 (Nat.lt_of_le_of_lt hn (by decide))
  refine ⟨g', v.encode, v.sent, hrun, hresp, hmax, hword _ hmax, ?_, v.sent.length_pos,
    printResponse_encode v.sent hmax, fun reads rest hreads hbytes =>
      readResponse_frame v.sent hmax hreads hbytes, ?_⟩
  · intro elems helems
    rw [helems] at hmax ⊢
    have hle := length_le_encodeAll elems
    rw [Value.encode, List.length_append, length_outArr] at hmax
    refine ⟨?_, hword _ (by omega)⟩
    rw [Value.encode, outArr, List.nil_append, List.singleton_append]
  · intro hne
    -- only `keys` and `zquery` can answer with more than the limit
    by_cases hbig : kMaxMsg < v.encode.length
    · rcases hv.fits hreach.stores with hlist | hfits
      · exact ⟨by rw [Value.sent, if_pos hbig], hbig, hlist⟩
      · exact absurd hfits (Nat.not_le.mpr hbig)
    · rw [Value.sent, if_neg hbig] at hne
      exact absurd rfl hne

/-- A connection that holds one key with a string. -/
def oneString : List Event :=
  [.accept 5 0, .request 0 [ascii "set", ascii "k", ascii "v"] 0]

/-- Connection 0 is there and all values are strings. -/
def onlyStrings (g : GData) (_ : List Bytes) : Bool :=
  (g.conns 0).isSome &&
    (List.range g.nextEntry).all fun e => (g.entries e).all fun x => decide (x.type = .str)

theorem oneString_run : endsIn (serverStep noDoubles) onlyStrings {} oneString = true := by decide

theorem wellFormed_of_onlyStrings {rs : List Bytes} (hinv : Inv R g P)
    (h : onlyStrings g rs = true) : WellFormed g ∧ ∃ conn, g.conns 0 = some conn := by
  rw [onlyStrings, Bool.and_eq_true, Option.isSome_iff_exists, List.all_eq_true] at h
  refine ⟨fun c k e x he ht => ?_, h.1⟩
  have hlt : e < g.nextEntry := by
    refine Nat.lt_of_not_le fun hle => ?_
    have hnone := hinv.db.fresh e hle
    rw [he.entry] at hnone
    cases hnone
  have hstr := h.2 e (List.mem_range.mpr hlt)
  rw [he.entry, Option.all_some, decide_eq_true_eq, ht] at hstr
  exact absurd hstr (by decide)

theorem isFrame_of_mem {c now : Nat} {cmd : List Bytes} (h : Event.request c cmd now ∈ oneString) :
    ∃ frame, IsFrame frame cmd := by
  have hcmd : cmd = [ascii "set", ascii "k", ascii "v"] := by
    simp only [oneString, List.mem_cons, reduceCtorEq, Event.request.injEq, List.not_mem_nil,
      or_false, false_or] at h
    exact h.2.1
  rw [hcmd]
  exact ⟨_, requestBody [ascii "set", ascii "k", ascii "v"], rfl, by decide, by decide⟩

theorem response_of_command_get :
    ∃ g g', ∃ v : Value, respond noDoubles g 0 [ascii "get", ascii "k"] 0 =
        .ok (g', le32 v.encode.length ++ v.encode) ∧
      printResponse v.encode = .ok v.encode.length := by
  rcases exists_of_endsIn oneString_run with ⟨g, rs, hrun, htest⟩
  have hreach : Requested noDoubles g := ⟨oneString, rs, hrun, fun _ _ _ h => isFrame_of_mem h⟩
  rcases hreach.inv with ⟨P, hinv⟩
  rcases wellFormed_of_onlyStrings hinv htest with ⟨hwf, conn, hc⟩
  rcases response_of_command noDoubles g hreach hwf 0 conn hc [ascii "get", ascii "k"] 0 with
    ⟨g', _, v, _, hresp, _, _, _, _, hprint, _⟩
  exact ⟨g, g', v, hresp, hprint⟩

/-! ## Errors and reads -/

theorem shows_iff (hK : Views g K) {c : Nat} {k : Bytes} {v : Shown} :
    Shows g c k v ↔ (K c k).map shown = some v := by
  rw [Option.map_eq_some_iff]
  constructor
  · rintro ⟨e, x, he, rfl⟩
    exact ⟨(x, due g e), hK.eq_some he, rfl⟩
  · rintro ⟨⟨x, d⟩, hx, rfl⟩
    rcases (hK c k x d).mp hx with ⟨e, he, rfl⟩
    exact ⟨e, x, he, rfl⟩

/-- Another layout of its hashtable does not show. -/
theorem Keyspace.Relaid.shown (h : K.Relaid K') (c : Nat) (k : Bytes) :
    (K' c k).map shown = (K c k).map shown := by
  rcases h c k with heq | ⟨x, d, m, hx, hx'⟩
  · rw [heq]
  · rw [hx, hx', Option.map_some, Option.map_some, RedisServer.shown, RedisServer.shown,
      members_withHmap]

theorem Keyspace.Relaid.wellFormed (h : K.Relaid K') (hK : Views g K) (hK' : Views g' K')
    (hs' : StoresOk R Q g') (hwf : WellFormed g) : WellFormed g' := by
  intro c k e x he ht
  have hx := hK'.eq_some he
  rcases h c k with heq | ⟨y, d, m, hy, hy'⟩
  · rw [heq] at hx
    rcases (hK c k x _).mp hx with ⟨e₀, he₀, _⟩
    exact hwf c k e₀ x he₀ ht
  · rw [hx, Option.some.injEq, Prod.mk.injEq] at hy'
    rcases (hK c k y d).mp hy with ⟨e₀, he₀, _⟩
    have hkept := (hs'.entries e x he.entry).1
    rw [hy'.1] at hkept ht ⊢
    exact (hwf c k e₀ y he₀ ht).relaid hkept

/-- A reply that is an error, or that takes the place of a list, is to a
    command that changed no more than layouts. -/
theorem Replied.quiet_of_error {cmd : List Bytes} {v : Value} (h : Replied R g cmd K P g' v K')
    (hquiet : v.sent.IsErr ∨ ReadOnly cmd) : K.Relaid K' := by
  rcases hquiet with herr | hread
  · by_cases hbig : kMaxMsg < v.encode.length
    · refine h.quiet (Or.inr ?_)
      rcases h.small with (hkeys | hquery) | hsmall | ⟨hget, _⟩
      · exact Or.inr (Or.inr (Or.inl hkeys))
      · exact Or.inr (Or.inr (Or.inr (Or.inr hquery)))
      · exact absurd (Nat.le_trans hsmall (by decide)) (Nat.not_le.mpr hbig)
      · exact Or.inl hget
    · rw [Value.sent, if_neg hbig] at herr
      exact h.quiet (Or.inl herr)
  · exact h.quiet (Or.inr hread)

/-- A command that is answered with an error, or that only reads, leaves the
    logical state as it was. -/
theorem unchanged_of_error (R : Runtime) (es : List Event) (g : GData) (rs : List Bytes)
    (hrun : run (serverStep R) {} es = .ok (g, rs)) (hwf : WellFormed g) (c : Nat) (conn : Conn)
    (hc : g.conns c = some conn) (cmd : List Bytes) (now : Nat) :
    ∃ g' frame, respond R g c cmd now = .ok (g', frame) ∧
      (frame[4]? = some tagErr ∨ ReadOnly cmd → SameLogical g g') := by
  rcases inv_of_run (inv_init R) hrun with ⟨P, hinv⟩
  rcases exists_views hinv.db with ⟨K, hK⟩
  have hs : StoresOk R (fun _ => True) g :=
    stores_of_run True.intro (fun _ _ _ _ _ => True.intro) hrun
  rcases respond_replied hinv hK hs hwf hc cmd now with ⟨g', v, K', hdo, hresp, hv⟩
  have hs' : StoresOk R (fun _ => True) g' :=
    doRequest_stores hs True.intro (fun _ => True.intro) hdo
  refine ⟨g', responseFrame v.sent.encode, hresp, fun hquiet => ?_⟩
  rw [frame_tag] at hquiet
  have hrelaid := hv.quiet_of_error hquiet
  refine ⟨hv.moved.same.live, fun c k v => ?_, hs'.emptyZset.trans hs.emptyZset.symm,
    hrelaid.wellFormed hK hv.moved.views hs' hwf⟩
  rw [shows_iff hv.moved.views, shows_iff hK, hrelaid.shown]

theorem unchanged_of_error_get :
    ∃ g g' frame, respond noDoubles g 0 [ascii "get", ascii "k"] 0 = .ok (g', frame) ∧
      SameLogical g g' := by
  rcases exists_of_endsIn oneString_run with ⟨g, rs, hrun, htest⟩
  rcases inv_of_run (inv_init noDoubles) hrun with ⟨P, hinv⟩
  rcases wellFormed_of_onlyStrings hinv htest with ⟨hwf, conn, hc⟩
  rcases unchanged_of_error noDoubles oneString g rs hrun hwf 0 conn hc
    [ascii "get", ascii "k"] 0 with ⟨g', frame, hresp, hsame⟩
  exact ⟨g, g', frame, hresp, hsame (Or.inr (Or.inl (by decide)))⟩

end

end RedisServer
