import CoreCommon.ServerClose

/-! How the bytes of a request arrive. The line loop over more bytes is the loop over the first of
them and then over the rest; what depends on the deliveries is where the body begins to be read as
content. -/
namespace CoreCommon.Server

/-! ### Lines -/

lemma readln_eq_some {input line rest : List Char} : readln input = some (line, rest) ↔
    ∃ l, '\n' ∉ l ∧ input = l ++ '\n' :: rest ∧
      line = if l.getLast? = some '\r' then l.dropLast else l := by
  have hsplit : ∀ l t : List Char, '\n' ∉ l → readln (l ++ '\n' :: t) =
      some (if l.getLast? = some '\r' then l.dropLast else l, t) := by
    intro l t hl
    have hpos : ∀ c ∈ l, decide (c ≠ '\n') = true := fun c hc => decide_eq_true fun h => hl (h ▸ hc)
    have hline : (l ++ '\n' :: t).takeWhile (· ≠ '\n') = l := by
      rw [List.takeWhile_append_of_pos hpos]
      simp
    unfold readln
    dsimp only
    rw [hline]
    simp
  constructor
  · intro h
    by_cases hmem : '\n' ∈ input
    · obtain ⟨l, t, rfl, hl⟩ := List.eq_append_cons_of_mem hmem
      rw [hsplit l t hl] at h
      cases h
      exact ⟨l, hl, rfl, rfl⟩
    · have hpos : ∀ c ∈ input, decide (c ≠ '\n') = true :=
        fun c hc => decide_eq_true fun h => hmem (h ▸ hc)
      unfold readln at h
      dsimp only at h
      rw [List.takeWhile_eq_self_iff.2 hpos, if_neg (lt_irrefl _)] at h
      cases h
  · rintro ⟨l, hl, rfl, rfl⟩
    exact hsplit l rest hl

lemma readln_eq_none {input : List Char} : readln input = none ↔ '\n' ∉ input := by
  constructor
  · intro h hmem
    obtain ⟨l, t, rfl, hl⟩ := List.eq_append_cons_of_mem hmem
    rw [readln_eq_some.2 ⟨l, hl, rfl, rfl⟩] at h
    cases h
  · intro hmem
    cases h : readln input with
    | none => rfl
    | some r =>
      obtain ⟨l, -, rfl, -⟩ := readln_eq_some.1 h
      simp at hmem

lemma readln_append {input line rest : List Char} (h : readln input = some (line, rest))
    (bytes : List Char) : readln (input ++ bytes) = some (line, rest ++ bytes) := by
  obtain ⟨l, hl, rfl, rfl⟩ := readln_eq_some.1 h
  exact readln_eq_some.2 ⟨l, hl, by simp, rfl⟩

/-- The first line of some bytes with more behind them, before those arrive. -/
lemma readln_prefix {input bytes line rest : List Char}
    (h : readln (input ++ bytes) = some (line, rest)) :
    readln input = none ∨ ∃ r, readln input = some (line, r) ∧ rest = r ++ bytes := by
  cases hline : readln input with
  | none => exact .inl rfl
  | some r =>
    cases (readln_append hline bytes).symm.trans h
    exact .inr ⟨r.2, rfl, rfl⟩

lemma readln_length {input line rest : List Char} (h : readln input = some (line, rest)) :
    rest.length < input.length := by
  obtain ⟨l, -, rfl, -⟩ := readln_eq_some.1 h
  simp
  omega

/-! ### The line loop -/

section loop
variable (reads : List Call → Bool) (hash : List Char → UInt64) (fuel : ℕ)

/-- The line loop with as many passes as it can need. -/
def loop (c : Conn) : Run (Conn × Bool) := lineLoop reads hash fuel (c.input.length + 1) c

variable {reads hash fuel} {c c' : Conn} {line rest : List Char} {err : Bool}

lemma lineLoop_eq_loop {steps : ℕ} (h : c.input.length < steps) :
    lineLoop reads hash fuel steps c = loop reads hash fuel c := by
  have hsteps : ∀ n m (c : Conn), c.input.length < n → c.input.length < m →
      lineLoop reads hash fuel n c = lineLoop reads hash fuel m c := by
    intro n
    induction n with
    | zero => exact fun m c h => absurd h (Nat.not_lt_zero _)
    | succ n ih =>
      intro m c hn hm
      cases m with
      | zero => exact absurd hm (Nat.not_lt_zero _)
      | succ m =>
        unfold lineLoop
        cases hline : readln c.input with
        | none => rfl
        | some r =>
          have hlen := readln_length hline
          have hrest : ∀ req, lineLoop reads hash fuel n ((c.take r.2).withReq req) =
              lineLoop reads hash fuel m ((c.take r.2).withReq req) := by
            intro req
            exact ih m _ (by simp only [Conn.withReq, Conn.take]; omega)
              (by simp only [Conn.withReq, Conn.take]; omega)
          simp only [hrest]
  exact hsteps _ _ c h (Nat.lt_succ_self _)

lemma loop_none (h : '\n' ∉ c.input) : loop reads hash fuel c = .ok (c, false) := by
  unfold loop lineLoop
  rw [readln_eq_none.2 h]

lemma loop_some (h : readln c.input = some (line, rest)) : loop reads hash fuel c =
    readLine reads hash fuel (Config.cStr line) c.req >>= fun r =>
      if r.2 then .ok ((c.take rest).withReq r.1, true)
      else loop reads hash fuel ((c.take rest).withReq r.1) := by
  have hlen := readln_length h
  conv_lhs => unfold loop lineLoop
  simp only [h]
  have hrest : ∀ req, lineLoop reads hash fuel c.input.length ((c.take rest).withReq req) =
      loop reads hash fuel ((c.take rest).withReq req) := fun req => lineLoop_eq_loop hlen
  simp only [hrest]

lemma take_more (bytes : List Char) (req : Request) :
    ((c.more bytes).take (rest ++ bytes)).withReq req = ((c.take rest).withReq req).more bytes := by
  simp [Conn.more, Conn.take, Conn.withReq, Nat.add_sub_add_right]

/-- Bytes that arrive later are read as if they had been there. -/
lemma loop_more (c : Conn) (bytes : List Char) : loop reads hash fuel (c.more bytes) =
    loop reads hash fuel c >>= fun r =>
      if r.2 then .ok (r.1.more bytes, true) else loop reads hash fuel (r.1.more bytes) := by
  induction hn : c.input.length using Nat.strong_induction_on generalizing c with
  | _ n ih =>
    cases hline : readln c.input with
    | none => rw [loop_none (readln_eq_none.1 hline)]; rfl
    | some r =>
      have hlen := readln_length hline
      rw [loop_some hline, loop_some (c := c.more bytes) (readln_append hline bytes)]
      have hreq : (c.more bytes).req = c.req := rfl
      rw [hreq]
      cases readLine reads hash fuel (Config.cStr r.1) c.req with
      | error e => rfl
      | ok q =>
        obtain ⟨req, e⟩ := q
        simp only [Run.bind_ok, take_more]
        cases e with
        | true => rfl
        | false => exact ih r.2.length (hn ▸ hlen) ((c.take r.2).withReq req) rfl

lemma more_more (c : Conn) (a b : List Char) : (c.more a).more b = c.more (a ++ b) := by
  simp [Conn.more]

/-- The loop moves bytes from the buffer to the lines. -/
lemma loop_taken (h : loop reads hash fuel c = .ok (c', err)) :
    c.taken ≤ c'.taken ∧ c'.taken + c'.input.length = c.taken + c.input.length := by
  induction hn : c.input.length using Nat.strong_induction_on generalizing c with
  | _ n ih =>
    cases hline : readln c.input with
    | none =>
      rw [loop_none (readln_eq_none.1 hline)] at h
      cases h
      exact ⟨le_rfl, by rw [hn]⟩
    | some r =>
      have hlen := readln_length hline
      rw [loop_some hline] at h
      obtain ⟨⟨req, e⟩, -, h⟩ := Run.bind_eq_ok.1 h
      dsimp only at h
      have htaken : ((c.take r.2).withReq req).taken = c.taken + (n - r.2.length) := by
        simp only [Conn.withReq, Conn.take, hn]
      have hinput : ((c.take r.2).withReq req).input.length = r.2.length := rfl
      cases e with
      | true =>
        cases h
        exact ⟨by omega, by omega⟩
      | false =>
        obtain ⟨hle, heq⟩ := ih r.2.length (hn ▸ hlen) h rfl
        exact ⟨by omega, by omega⟩

lemma loop_open (h : c.Open) (hrun : loop reads hash fuel c = .ok (c', err)) : c'.Open :=
  lineLoop_open h hrun

end loop

/-! ### The head of a request -/

/-- Header lines and the blank line, as the line loop sees them. -/
inductive IsHeaders : List Char → Prop
  | blank {bytes line : List Char} (hline : readln bytes = some (line, []))
      (hblank : Config.cStr line = []) : IsHeaders bytes
  | line {bytes line rest : List Char} (hline : readln bytes = some (line, rest))
      (htext : Config.cStr line ≠ []) (hrest : IsHeaders rest) : IsHeaders bytes

/-- A request line, header lines and the blank line. -/
def IsHead (bytes : List Char) : Prop := ∃ line rest, readln bytes = some (line, rest) ∧ IsHeaders rest

section head
variable {reads : List Call → Bool} {hash : List Char → UInt64} {fuel : ℕ} {c c' : Conn}
  {req req' : Request} {line bytes : List Char} {err : Bool}

/-- What comes after the blank line. -/
def bodyState (req : Request) : ParsingState := if req.content.isSome then .content else .done

lemma readLine_blank (hstate : req.pstate = .headers) :
    readLine reads hash fuel [] req = .ok (req.moveTo (bodyState req), false) := by
  unfold readLine
  rw [hstate]
  rfl

lemma readHeader_pstate (hrun : readHeader hash fuel line req = .ok (req', err)) :
    req'.pstate = req.pstate := by
  obtain ⟨⟨hdr, u⟩, -, hrun⟩ := Run.bind_eq_ok.1 hrun
  dsimp only at hrun
  split_ifs at hrun
  · cases hrun
    rfl
  · obtain ⟨r, -, hrun⟩ := Run.bind_eq_ok.1 hrun
    cases hrun
    rfl

lemma setLength_pstate (req : Request) (n : ℤ) : (req.setLength n).pstate = req.pstate := by
  unfold Request.setLength
  cases req.content <;> rfl

lemma readLine_header (hstate : req.pstate = .headers) (htext : line ≠ [])
    (hrun : readLine reads hash fuel line req = .ok (req', err)) : req'.pstate = .headers := by
  unfold readLine readHeaders at hrun
  rw [hstate] at hrun
  dsimp only at hrun
  rw [if_neg (by simpa using htext)] at hrun
  rw [← hstate]
  split_ifs at hrun
  · obtain ⟨⟨clength, u⟩, -, hrun⟩ := Run.bind_eq_ok.1 hrun
    dsimp only at hrun
    split_ifs at hrun
    · exact readHeader_pstate hrun
    · cases hrun
      exact setLength_pstate req _
  · exact readHeader_pstate hrun

lemma readLine_request (hstate : req.pstate = .requestLine)
    (hrun : readLine reads hash fuel line req = .ok (req', false)) : req'.pstate = .headers := by
  unfold readLine readRequestLine at hrun
  rw [hstate] at hrun
  obtain ⟨⟨m, req₁⟩, -, hrun⟩ := Run.bind_eq_ok.1 hrun
  dsimp only at hrun
  split_ifs at hrun
  · cases hrun
  · obtain ⟨⟨p, req₂⟩, -, hrun⟩ := Run.bind_eq_ok.1 hrun
    dsimp only at hrun
    split_ifs at hrun
    · obtain ⟨r, -, hrun⟩ := Run.bind_eq_ok.1 hrun
      cases hrun
      rfl
    · cases hrun
      rfl

/-- One pass of the loop that does not fail. -/
lemma loop_pass {rest : List Char} (hline : readln c.input = some (line, rest))
    (hrun : loop reads hash fuel c = .ok (c', false)) :
    ∃ req, readLine reads hash fuel (Config.cStr line) c.req = .ok (req, false) ∧
      loop reads hash fuel ((c.take rest).withReq req) = .ok (c', false) := by
  rw [loop_some hline] at hrun
  obtain ⟨⟨req, e⟩, hread, hrun⟩ := Run.bind_eq_ok.1 hrun
  cases e with
  | true => cases hrun
  | false => exact ⟨req, hread, hrun⟩

lemma loop_headers (h : IsHeaders c.input) (hstate : c.req.pstate = .headers)
    (hrun : loop reads hash fuel c = .ok (c', false)) :
    c'.input = [] ∧ c'.req.pstate = bodyState c'.req := by
  generalize hbytes : c.input = bytes at h
  induction h generalizing c with
  | @blank bytes line hline hblank =>
    subst hbytes
    obtain ⟨req, hread, hrun⟩ := loop_pass hline hrun
    rw [hblank, readLine_blank hstate] at hread
    cases hread
    rw [loop_none List.not_mem_nil] at hrun
    cases hrun
    exact ⟨rfl, rfl⟩
  | @line bytes line rest hline htext hrest ih =>
    subst hbytes
    obtain ⟨req, hread, hrun⟩ := loop_pass hline hrun
    exact ih (readLine_header hstate htext hread) hrun rfl

/-- Part of the headers leaves the state as it is. -/
lemma loop_headers_part (h : IsHeaders (c.input ++ bytes)) (hbytes : bytes ≠ [])
    (hstate : c.req.pstate = .headers) (hrun : loop reads hash fuel c = .ok (c', false)) :
    c'.req.pstate = .headers := by
  generalize hall : c.input ++ bytes = all at h
  induction h generalizing c with
  | @blank all line hline hblank =>
    subst hall
    obtain hnone | ⟨r, -, hr⟩ := readln_prefix hline
    · rw [loop_none (readln_eq_none.1 hnone)] at hrun
      cases hrun
      exact hstate
    · exact absurd (List.append_eq_nil_iff.1 hr.symm).2 hbytes
  | @line all line rest hline htext hrest ih =>
    subst hall
    obtain hnone | ⟨r, hr, hrest⟩ := readln_prefix hline
    · rw [loop_none (readln_eq_none.1 hnone)] at hrun
      cases hrun
      exact hstate
    · obtain ⟨req, hread, hrun⟩ := loop_pass hr hrun
      exact ih (readLine_header hstate htext hread) hrun hrest.symm

lemma loop_head (h : IsHead c.input) (hstate : c.req.pstate = .requestLine)
    (hrun : loop reads hash fuel c = .ok (c', false)) :
    c'.input = [] ∧ c'.req.pstate = bodyState c'.req := by
  obtain ⟨line, rest, hline, hrest⟩ := h
  obtain ⟨req, hread, hrun⟩ := loop_pass hline hrun
  exact loop_headers (c := (c.take rest).withReq req) hrest (readLine_request hstate hread) hrun

lemma loop_head_part (h : IsHead (c.input ++ bytes)) (hbytes : bytes ≠ [])
    (hstate : c.req.pstate = .requestLine) (hrun : loop reads hash fuel c = .ok (c', false)) :
    c'.req.pstate = .requestLine ∨ c'.req.pstate = .headers := by
  obtain ⟨line, rest, hline, hrest⟩ := h
  obtain hnone | ⟨r, hr, rfl⟩ := readln_prefix hline
  · rw [loop_none (readln_eq_none.1 hnone)] at hrun
    cases hrun
    exact .inl hstate
  · obtain ⟨req, hread, hrun⟩ := loop_pass hr hrun
    exact .inr (loop_headers_part (c := (c.take r).withReq req) hrest hbytes
      (readLine_request hstate hread) hrun)

lemma IsHead.ne_nil (h : IsHead bytes) : bytes ≠ [] := by
  rintro rfl
  obtain ⟨line, rest, hline, -⟩ := h
  exact absurd (readln_length hline) (Nat.not_lt_zero _)

/-- With the headers read, the loop throws lines away. -/
lemma loop_idle (hstate : c.req.pstate = bodyState c.req) :
    ∃ d, loop reads hash fuel c = .ok (d, false) ∧ d.req = c.req ∧ d.frees = c.frees ∧
      ('\n' ∈ c.input → c.taken < d.taken) := by
  induction hn : c.input.length using Nat.strong_induction_on generalizing c with
  | _ n ih =>
    cases hline : readln c.input with
    | none =>
      have hmem := readln_eq_none.1 hline
      exact ⟨c, loop_none hmem, rfl, rfl, fun h => absurd h hmem⟩
    | some r =>
      have hlen := readln_length hline
      have hread : readLine reads hash fuel (Config.cStr r.1) c.req = .ok (c.req, false) := by
        unfold readLine
        rw [hstate]
        unfold bodyState
        split_ifs <;> rfl
      obtain ⟨d, hd, hreq, hfrees, -⟩ := ih r.2.length (hn ▸ hlen) (c := (c.take r.2).withReq c.req)
        hstate rfl
      refine ⟨d, ?_, hreq, hfrees, fun _ => ?_⟩
      · rw [loop_some hline, hread]
        exact hd
      · have htaken := (loop_taken hd).1
        simp only [Conn.withReq, Conn.take] at htaken
        omega

end head

/-! ### Deliveries -/

section deliveries
variable (reads : List Call → Bool) (hash : List Char → UInt64) (fuel : ℕ)

/-- Bytes arrive and `readcb` runs, unless the connection is gone. -/
def deliver (c : Conn) (bytes : List Char) : Run Conn :=
  if c.frees = 0 then readcb reads hash fuel (c.more bytes) else .ok c

def arriveFrom (c : Conn) (ds : List (List Char)) : Run Conn :=
  ds.foldlM (deliver reads hash fuel) c

/-- The deliveries of one connection. -/
def arrive (ds : List (List Char)) : Run Conn := do
  let c ← accept hash
  arriveFrom reads hash fuel c ds

def Conn.view (c : Conn) : ParsingState × List Call := (c.req.pstate, c.req.calls)

/-- The view, and how many bytes have been read as lines. -/
def Conn.seen (c : Conn) : (ParsingState × List Call) × ℕ := (c.view, c.taken)

def watch (c : Conn) (ds : List (List Char)) : Run ((ParsingState × List Call) × ℕ) :=
  (arriveFrom reads hash fuel c ds).map Conn.seen

/-- What is seen once the whole content has been read. -/
def settle (c : Conn) (body : List Char) : Run ((ParsingState × List Call) × ℕ) :=
  readContent reads hash fuel body c.req >>= fun r =>
    .ok (if r.2 then (c.withReq r.1).parseErr else c.withReq r.1).seen

variable {reads hash fuel} {c : Conn} {bytes body : List Char} {ds : List (List Char)}
  {content : RequestContent}

lemma watch_cons (c : Conn) (bytes : List Char) (ds : List (List Char)) :
    watch reads hash fuel c (bytes :: ds) =
      deliver reads hash fuel c bytes >>= fun d => watch reads hash fuel d ds := by
  unfold watch arriveFrom
  rw [List.foldlM_cons]
  cases deliver reads hash fuel c bytes <;> rfl

/-- Nothing is read after `bufferevent_free`. -/
lemma watch_freed (h : c.frees ≠ 0) (ds : List (List Char)) :
    watch reads hash fuel c ds = .ok c.seen := by
  induction ds with
  | nil => rfl
  | cons bytes ds ih =>
    rw [watch_cons, deliver, if_neg h]
    exact ih

lemma parseErr_frees (h : c.req.closed = false) : c.parseErr.frees ≠ 0 := by
  simp [Conn.parseErr, Conn.destroy, Conn.close, Conn.withReq, Request.call, h]

/-- What is seen of an error does not depend on the buffer. -/
lemma parseErr_seen {d : Conn} (hreq : c.req = d.req) (htaken : c.taken = d.taken) :
    c.parseErr.seen = d.parseErr.seen := by
  cases h : d.req.closed <;>
    simp [Conn.parseErr, Conn.destroy, Conn.close, Conn.withReq, Conn.seen, Conn.view, Request.call,
      hreq, htaken, h]

lemma settle_more (c : Conn) (bytes body : List Char) :
    settle reads hash fuel (c.more bytes) body = settle reads hash fuel c body := by
  have hreq : (c.more bytes).req = c.req := rfl
  unfold settle
  rw [hreq]
  cases readContent reads hash fuel body c.req with
  | error e => rfl
  | ok r =>
    obtain ⟨req, err⟩ := r
    cases err with
    | true => exact congrArg Except.ok (parseErr_seen rfl rfl)
    | false => rfl

lemma deliver_reading (hfrees : c.frees = 0)
    (hstate : c.req.pstate = .requestLine ∨ c.req.pstate = .headers) (bytes : List Char) :
    deliver reads hash fuel c bytes = loop reads hash fuel (c.more bytes) >>= fun r =>
      .ok (if r.2 then r.1.parseErr else r.1) := by
  have hreceive : receive reads hash fuel (c.more bytes) = loop reads hash fuel (c.more bytes) := by
    have hreq : (c.more bytes).req = c.req := rfl
    unfold receive
    rw [hreq]
    obtain h | h := hstate <;> rw [h] <;> rfl
  rw [deliver, if_pos hfrees, readcb, hreceive]

lemma watch_done (hstate : c.req.pstate = .done) (ds : List (List Char)) :
    watch reads hash fuel c ds = .ok c.seen := by
  induction ds generalizing c with
  | nil => rfl
  | cons bytes ds ih =>
    by_cases hfrees : c.frees = 0
    · have hdeliver : deliver reads hash fuel c bytes = .ok (c.more bytes).drain := by
        have hreq : (c.more bytes).req = c.req := rfl
        rw [deliver, if_pos hfrees, readcb, receive, hreq, hstate]
        rfl
      rw [watch_cons, hdeliver]
      exact ih (c := (c.more bytes).drain) hstate
    · exact watch_freed hfrees _

/-- A connection that waits for content. -/
structure Conn.Waits (c : Conn) (content : RequestContent) : Prop where
  live : c.Open
  state : c.req.pstate = .content
  content : c.req.content = some content

lemma deliver_part (h : c.Waits content)
    (hlen : (c.more bytes).input.length < content.contentLength) :
    deliver reads hash fuel c bytes = .ok (c.more bytes) := by
  have hreq : (c.more bytes).req = c.req := rfl
  rw [deliver, if_pos h.live.frees, readcb, receive, hreq, h.state, h.content]
  dsimp only
  rw [if_neg hlen.not_gt, if_neg hlen.ne]
  rfl

lemma deliver_all (h : c.Waits content)
    (hlen : (c.more bytes).input.length = content.contentLength) :
    deliver reads hash fuel c bytes =
      readContent reads hash fuel (c.more bytes).input c.req >>= fun r =>
        .ok (if r.2 then ((c.more bytes).drain.withReq r.1).parseErr
          else (c.more bytes).drain.withReq r.1) := by
  have hreq : (c.more bytes).req = c.req := rfl
  rw [deliver, if_pos h.live.frees, readcb, receive, hreq, h.state, h.content]
  dsimp only
  rw [if_neg hlen.not_gt, if_pos hlen]
  cases readContent reads hash fuel (c.more bytes).input c.req <;> rfl

lemma Conn.Waits.more (h : c.Waits content) (bytes : List Char) : (c.more bytes).Waits content :=
  ⟨⟨h.live.live, h.live.frees, h.live.deletes⟩, h.state, h.content⟩

/-- Too few bytes are waited on for ever. -/
lemma watch_part (h : c.Waits content)
    (hlen : c.input.length + ds.flatten.length < content.contentLength) :
    watch reads hash fuel c ds = .ok c.seen := by
  induction ds generalizing c with
  | nil => rfl
  | cons bytes ds ih =>
    have hinput : (c.more bytes).input.length = c.input.length + bytes.length := by simp [Conn.more]
    rw [List.flatten_cons, List.length_append] at hlen
    rw [watch_cons, deliver_part h (by omega)]
    exact ih (h.more bytes) (by omega)

lemma readContent_done {req req' : Request}
    (hrun : readContent reads hash fuel body req = .ok (req', false)) : req'.pstate = .done := by
  obtain ⟨ctype, -, hrun⟩ := Run.bind_eq_ok.1 hrun
  cases ctype with
  | none => cases hrun
  | some ctype =>
    dsimp only at hrun
    split_ifs at hrun
    · obtain ⟨r, -, hrun⟩ := Run.bind_eq_ok.1 hrun
      cases hrun
      rfl
    · cases hrun
      rfl
    · cases hfind : ctype.extra.find? fun x => x.1 = "boundary".toList with
      | none => rw [hfind] at hrun; cases hrun
      | some boundary =>
        rw [hfind] at hrun
        obtain ⟨⟨parsed, req₁⟩, -, hrun⟩ := Run.bind_eq_ok.1 hrun
        dsimp only at hrun
        split_ifs at hrun
        · cases hrun
        · cases hrun
          rfl
    · cases hrun

lemma Conn.Open.withReq (h : c.Open) {req : Request} (hreq : req.Live) : (c.withReq req).Open :=
  ⟨hreq, h.frees, h.deletes⟩

/-- The delivery that brings the last byte has the content read; the later ones are empty. -/
lemma watch_all (h : c.Waits content) (hds : ds ≠ []) (hbody : c.input ++ ds.flatten = body)
    (hlen : body.length = content.contentLength) :
    watch reads hash fuel c ds = settle reads hash fuel c body := by
  induction ds generalizing c with
  | nil => exact absurd rfl hds
  | cons bytes ds ih =>
    have hinput : (c.more bytes).input ++ ds.flatten = body := by
      simpa [Conn.more] using hbody
    have hsum : (c.more bytes).input.length + ds.flatten.length = content.contentLength := by
      rw [← List.length_append, hinput, hlen]
    rw [watch_cons]
    by_cases hall : (c.more bytes).input.length = content.contentLength
    · have hflatten : ds.flatten = [] := List.length_eq_zero_iff.1 (by omega)
      rw [hflatten, List.append_nil] at hinput
      rw [deliver_all h hall, hinput]
      unfold settle
      cases hread : readContent reads hash fuel body c.req with
      | error e => rfl
      | ok r =>
        obtain ⟨req, err⟩ := r
        cases err with
        | true =>
          have hreq := readContent_live body h.live.live req true hread
          have hfrees := parseErr_frees (c := (c.more bytes).drain.withReq req) hreq.closed
          exact (watch_freed hfrees ds).trans (congrArg Except.ok (parseErr_seen rfl rfl))
        | false =>
          exact watch_done (c := (c.more bytes).drain.withReq req) (readContent_done hread) ds
    · have hne : ds ≠ [] := by
        rintro rfl
        simp only [List.flatten_nil, List.length_nil] at hsum
        exact hall hsum
      rw [deliver_part h (by omega), Run.bind_ok, ih (h.more bytes) hne hinput, settle_more]

end deliveries

/-! ### A request in two ways -/

/-- What the delivery that completes the first `n` bytes brings behind them, and the deliveries
after it. -/
def after : ℕ → List (List Char) → List Char × List (List Char)
  | _, [] => ([], [])
  | n, d :: ds => if n ≤ d.length then (d.drop n, ds) else after (n - d.length) ds

lemma after_flatten {ds : List (List Char)} {a b : List Char} (h : ds.flatten = a ++ b) :
    (after a.length ds).1 ++ (after a.length ds).2.flatten = b := by
  induction ds generalizing a with
  | nil => exact (List.append_eq_nil_iff.1 h.symm).2.symm
  | cons d ds ih =>
    unfold after
    rw [List.flatten_cons] at h
    by_cases hlen : a.length ≤ d.length
    · rw [if_pos hlen]
      obtain ⟨l, rfl⟩ := List.prefix_of_prefix_length_le ⟨b, h.symm⟩ ⟨ds.flatten, rfl⟩ hlen
      rw [List.append_assoc, List.append_cancel_left_eq] at h
      rw [List.drop_left]
      exact h
    · rw [if_neg hlen]
      obtain ⟨l, rfl⟩ := List.prefix_of_prefix_length_le ⟨ds.flatten, rfl⟩ ⟨b, h.symm⟩
        (not_le.1 hlen).le
      rw [List.append_assoc, List.append_cancel_left_eq] at h
      rw [List.length_append, Nat.add_sub_cancel_left]
      exact ih h

section request
variable (reads : List Call → Bool) (hash : List Char → UInt64) (fuel : ℕ)

/-- The line loop over the head alone. -/
def readHead (head : List Char) : Run (Conn × Bool) := do
  let c ← accept hash
  loop reads hash fuel (c.more head)

/-- From the end of the head on. -/
def watchBody (c : Conn) (x : List Char × List (List Char)) :
    Run ((ParsingState × List Call) × ℕ) :=
  loop reads hash fuel (c.more x.1) >>= fun r => watch reads hash fuel r.1 x.2

variable {reads hash fuel} {head body : List Char}

/-- Deliveries that stop inside the head leave a state from which the loop reads on as if the whole
head had come at once. -/
lemma watch_head {c₀ : Conn} (hopen : c₀.Open) (hstate : c₀.req.pstate = .requestLine)
    (hinput : c₀.input = []) (hhead : IsHead head) {ds : List (List Char)} {pre rest : List Char}
    {c : Conn} (hsplit : head = pre ++ rest) (hrest : rest ≠ []) (hds : ds.flatten = rest ++ body)
    (hpre : loop reads hash fuel (c₀.more pre) = .ok (c, false)) :
    watch reads hash fuel c ds = loop reads hash fuel (c₀.more head) >>= fun r =>
      if r.2 then .ok r.1.parseErr.seen
      else watchBody reads hash fuel r.1 (after rest.length ds) := by
  have hall : ∀ bytes, loop reads hash fuel (c₀.more (pre ++ bytes)) =
      loop reads hash fuel (c.more bytes) := by
    intro bytes
    rw [← more_more, loop_more, hpre]
    rfl
  have hmore : ∀ bytes, (c₀.more bytes).input = bytes := by simp [Conn.more, hinput]
  have hmoreOpen : ∀ bytes, (c₀.more bytes).Open := fun _ => ⟨hopen.live, hopen.frees, hopen.deletes⟩
  induction ds generalizing pre rest c with
  | nil => exact absurd (List.append_eq_nil_iff.1 hds.symm).1 hrest
  | cons d ds ih =>
    have hc := loop_open (hmoreOpen pre) hpre
    have hprefix : IsHead ((c₀.more pre).input ++ rest) := by rwa [hmore, ← hsplit]
    have hreading := loop_head_part hprefix hrest hstate hpre
    rw [watch_cons, deliver_reading hc.frees hreading]
    rw [List.flatten_cons] at hds
    unfold after
    by_cases hlen : rest.length ≤ d.length
    · -- the head is completed
      obtain ⟨tail, rfl⟩ := List.prefix_of_prefix_length_le ⟨body, hds.symm⟩ ⟨ds.flatten, rfl⟩ hlen
      rw [if_pos hlen, List.drop_left, ← more_more, loop_more, hsplit, hall]
      cases hrun : loop reads hash fuel (c.more rest) with
      | error e => rfl
      | ok r =>
        obtain ⟨c₁, err⟩ := r
        rw [← hall, ← hsplit] at hrun
        have hc₁ := loop_open (hmoreOpen head) hrun
        cases err with
        | true =>
          have hfrees := parseErr_frees (c := c₁.more tail) hc₁.live.closed
          exact (watch_freed hfrees ds).trans (congrArg Except.ok (parseErr_seen rfl rfl))
        | false =>
          have hbody := (loop_head (c := c₀.more head) (by rwa [hmore]) hstate hrun).2
          obtain ⟨c₂, hidle, -⟩ := @loop_idle reads hash fuel (c₁.more tail) hbody
          simp only [Run.bind_ok, watchBody, hidle, Bool.false_eq_true, if_false]
    · -- the head goes on
      obtain ⟨l, rfl⟩ := List.prefix_of_prefix_length_le ⟨ds.flatten, rfl⟩ ⟨body, hds.symm⟩
        (not_le.1 hlen).le
      rw [if_neg hlen, List.length_append, Nat.add_sub_cancel_left]
      rw [List.append_assoc, List.append_cancel_left_eq] at hds
      have hl : l ≠ [] := by
        rintro rfl
        simp at hlen
      cases hrun : loop reads hash fuel (c.more d) with
      | error e =>
        rw [hsplit, hall, ← more_more, loop_more, hrun]
        rfl
      | ok r =>
        obtain ⟨c₁, err⟩ := r
        rw [← hall] at hrun
        have hc₁ := loop_open (hmoreOpen _) hrun
        cases err with
        | true =>
          have hfrees := parseErr_frees hc₁.live.closed
          rw [hsplit, ← List.append_assoc, ← more_more, loop_more, hrun]
          exact (watch_freed hfrees ds).trans (congrArg Except.ok (parseErr_seen rfl rfl))
        | false =>
          rw [← List.append_assoc] at hsplit
          refine ih hsplit hl hds hrun fun bytes => ?_
          rw [← more_more, loop_more, hrun]
          rfl

/-- The whole of a run of deliveries, from the head read at once. -/
lemma arrive_seen (hhead : IsHead head) {ds : List (List Char)} (hds : ds.flatten = head ++ body) :
    (arrive reads hash fuel ds).map Conn.seen = readHead reads hash fuel head >>= fun r =>
      if r.2 then .ok r.1.parseErr.seen
      else watchBody reads hash fuel r.1 (after head.length ds) := by
  have hpre : loop reads hash fuel (freshConn.more []) = .ok (freshConn, false) :=
    loop_none List.not_mem_nil
  exact watch_head (accept_open (accept_eq hash)) rfl rfl hhead (List.nil_append head).symm
    hhead.ne_nil hds hpre

/-- A connection whose head has been read, with a body to come. -/
structure Ready (c : Conn) (content : RequestContent) (body : List Char) : Prop where
  live : c.Open
  input : c.input = []
  state : c.req.pstate = bodyState c.req
  found : c.req.content = some content
  length : content.contentLength = body.length

variable {c : Conn} {content : RequestContent} {x : List Char × List (List Char)}

lemma Ready.waits (h : Ready c content body) : c.Waits content := by
  have hstate := h.state
  rw [bodyState, h.found] at hstate
  exact ⟨h.live, hstate, h.found⟩

/-- Once a line of the content has been thrown away, the rest of it is never read. -/
lemma watchBody_line (h : Ready c content body) (hx : x.1 ++ x.2.flatten = body)
    (hline : '\n' ∈ x.1) :
    ∃ taken, watchBody reads hash fuel c x = .ok (c.view, taken) ∧ c.taken < taken := by
  have hinput : (c.more x.1).input = x.1 := by simp [Conn.more, h.input]
  obtain ⟨d, hloop, hreq, -, htaken⟩ := @loop_idle reads hash fuel (c.more x.1) h.state
  have hlt : c.taken < d.taken := htaken (by rwa [hinput])
  have hsum := (loop_taken hloop).2
  have hmore : (c.more x.1).taken = c.taken := rfl
  rw [hinput, hmore] at hsum
  have hlen := congrArg List.length hx
  rw [List.length_append, ← h.length] at hlen
  have hd := loop_open (h.waits.more x.1).live hloop
  have hwaits : d.Waits content := ⟨hd, hreq ▸ h.waits.state, hreq ▸ h.found⟩
  refine ⟨d.taken, ?_, hlt⟩
  rw [watchBody, hloop, Run.bind_ok]
  dsimp only
  rw [watch_part hwaits (by omega), Conn.seen, Conn.view, hreq]
  rfl

/-- Without lines in what comes with the end of the head, the content is read if anything comes
later. -/
lemma watchBody_clean (h : Ready c content body) (hx : x.1 ++ x.2.flatten = body)
    (hline : '\n' ∉ x.1) : watchBody reads hash fuel c x =
      if x.2 = [] then .ok c.seen else settle reads hash fuel c body := by
  have hinput : (c.more x.1).input = x.1 := by simp [Conn.more, h.input]
  rw [watchBody, loop_none (by rwa [hinput]), Run.bind_ok]
  dsimp only
  split_ifs with hlater
  · rw [hlater]
    rfl
  · rw [watch_all (h.waits.more x.1) hlater (by rwa [hinput]) h.length.symm, settle_more]

lemma parseErr_seen_snd (c : Conn) : c.parseErr.seen.2 = c.taken := by
  cases h : c.req.closed <;>
    simp [Conn.parseErr, Conn.destroy, Conn.close, Conn.withReq, Conn.seen, Request.call, h]

/-- Reading the content shows. -/
lemma settle_ok (h : c.Waits content) {v : ParsingState × List Call} {taken : ℕ}
    (hrun : settle reads hash fuel c body = .ok (v, taken)) : taken = c.taken ∧ v ≠ c.view := by
  obtain ⟨⟨req, err⟩, hread, hrun⟩ := Run.bind_eq_ok.1 hrun
  cases err with
  | true =>
    have hreq := readContent_live body h.live.live req true hread
    have hseen := Except.ok.inj hrun
    constructor
    · exact (congrArg Prod.snd hseen).symm.trans (parseErr_seen_snd _)
    · rintro rfl
      have hcalls : (c.withReq req).parseErr.req.calls = c.req.calls :=
        congrArg (fun s : (ParsingState × List Call) × ℕ => s.1.2) hseen
      have hmem : Call.requestParseErr ∈ (c.withReq req).parseErr.req.calls := by
        simp [Conn.parseErr, Conn.destroy, Conn.close, Conn.withReq, Request.call, hreq.closed]
      exact h.live.live.parses (hcalls ▸ hmem)
  | false =>
    cases hrun
    refine ⟨rfl, fun hview => ?_⟩
    have hstate : req.pstate = c.req.pstate := congrArg Prod.fst hview
    rw [readContent_done hread, h.state] at hstate
    cases hstate

variable (reads hash fuel head) in
/-- Two ways of delivering a request end in the same state after the same calls, and no byte behind
the head is read as a line. -/
structure SameArrival (ds₁ ds₂ : List (List Char)) : Prop where
  view_eq : (arrive reads hash fuel ds₁).map Conn.view = (arrive reads hash fuel ds₂).map Conn.view
  lines₁ : ∀ c, arrive reads hash fuel ds₁ = .ok c → c.taken ≤ head.length
  lines₂ : ∀ c, arrive reads hash fuel ds₂ = .ok c → c.taken ≤ head.length

variable {ds₁ ds₂ : List (List Char)}

lemma map_view (ds : List (List Char)) : (arrive reads hash fuel ds).map Conn.view =
    ((arrive reads hash fuel ds).map Conn.seen).map Prod.fst := by
  cases arrive reads hash fuel ds <;> rfl

lemma lines_iff (ds : List (List Char)) (n : ℕ) :
    (∀ c, arrive reads hash fuel ds = .ok c → c.taken ≤ n) ↔
      ∀ s, (arrive reads hash fuel ds).map Conn.seen = .ok s → s.2 ≤ n := by
  cases arrive reads hash fuel ds with
  | error e => exact ⟨fun _ _ h => (nomatch h), fun _ _ h => (nomatch h)⟩
  | ok c =>
    constructor
    · intro h s hs
      cases hs
      exact h c rfl
    · intro h d hd
      cases hd
      exact h _ rfl

lemma sameArrival_iff {s₁ s₂ : Run ((ParsingState × List Call) × ℕ)}
    (h₁ : (arrive reads hash fuel ds₁).map Conn.seen = s₁)
    (h₂ : (arrive reads hash fuel ds₂).map Conn.seen = s₂) :
    SameArrival reads hash fuel head ds₁ ds₂ ↔ s₁.map Prod.fst = s₂.map Prod.fst ∧
      (∀ s, s₁ = .ok s → s.2 ≤ head.length) ∧ ∀ s, s₂ = .ok s → s.2 ≤ head.length := by
  subst h₁ h₂
  rw [← map_view, ← map_view, ← lines_iff, ← lines_iff]
  exact ⟨fun h => ⟨h.view_eq, h.lines₁, h.lines₂⟩, fun h => ⟨h.1, h.2.1, h.2.2⟩⟩

/-- With a body to come, the two ways agree when neither has a line end in what comes with the end
of the head, and both or neither have deliveries after that. -/
lemma watchBody_agree {x₁ x₂ : List Char × List (List Char)} (h : Ready c content body)
    (htaken : c.taken = head.length) (h₁ : x₁.1 ++ x₁.2.flatten = body)
    (h₂ : x₂.1 ++ x₂.2.flatten = body) :
    ((watchBody reads hash fuel c x₁).map Prod.fst = (watchBody reads hash fuel c x₂).map Prod.fst ∧
      (∀ s, watchBody reads hash fuel c x₁ = .ok s → s.2 ≤ head.length) ∧
      ∀ s, watchBody reads hash fuel c x₂ = .ok s → s.2 ≤ head.length) ↔
    '\n' ∉ x₁.1 ∧ '\n' ∉ x₂.1 ∧ (x₁.2 = [] ↔ x₂.2 = []) := by
  have hclean : ∀ x : List Char × List (List Char), x.1 ++ x.2.flatten = body →
      (∀ s, watchBody reads hash fuel c x = .ok s → s.2 ≤ head.length) → '\n' ∉ x.1 := by
    intro x hx hlines hmem
    obtain ⟨taken, hrun, hlt⟩ := watchBody_line h hx hmem
    have hle : taken ≤ head.length := hlines _ hrun
    omega
  have hsettle : (settle reads hash fuel c body).map Prod.fst ≠ .ok c.view := by
    intro heq
    cases hrun : settle reads hash fuel c body with
    | error e => rw [hrun] at heq; cases heq
    | ok s =>
      rw [hrun] at heq
      exact (settle_ok h.waits hrun).2 (Except.ok.inj heq)
  have hlines : ∀ x : List Char × List (List Char), x.1 ++ x.2.flatten = body → '\n' ∉ x.1 →
      ∀ s, watchBody reads hash fuel c x = .ok s → s.2 ≤ head.length := by
    intro x hx hline s hrun
    rw [watchBody_clean h hx hline] at hrun
    rw [← htaken]
    split_ifs at hrun
    · cases hrun
      exact le_rfl
    · exact (settle_ok h.waits hrun).1.le
  constructor
  · rintro ⟨heq, hlines₁, hlines₂⟩
    have hline₁ := hclean x₁ h₁ hlines₁
    have hline₂ := hclean x₂ h₂ hlines₂
    refine ⟨hline₁, hline₂, ?_⟩
    rw [watchBody_clean h h₁ hline₁, watchBody_clean h h₂ hline₂] at heq
    by_cases hlater₁ : x₁.2 = [] <;> by_cases hlater₂ : x₂.2 = []
    · exact iff_of_true hlater₁ hlater₂
    · rw [if_pos hlater₁, if_neg hlater₂] at heq
      exact absurd heq.symm hsettle
    · rw [if_neg hlater₁, if_pos hlater₂] at heq
      exact absurd heq hsettle
    · exact iff_of_false hlater₁ hlater₂
  · rintro ⟨hline₁, hline₂, hlater⟩
    refine ⟨?_, hlines x₁ h₁ hline₁, hlines x₂ h₂ hline₂⟩
    rw [watchBody_clean h h₁ hline₁, watchBody_clean h h₂ hline₂]
    simp only [hlater]

end request

section main
variable {reads : List Call → Bool} {hash : List Char → UInt64} {fuel : ℕ} {head body : List Char}

lemma readHead_taken {c : Conn} {err : Bool}
    (hrun : readHead reads hash fuel head = .ok (c, err)) : c.taken + c.input.length = head.length := by
  have hread : loop reads hash fuel (freshConn.more head) = .ok (c, err) := hrun
  exact (loop_taken hread).2.trans (Nat.zero_add _)

lemma readHead_ready (hhead : IsHead head) {c : Conn}
    (hrun : readHead reads hash fuel head = .ok (c, false)) :
    c.Open ∧ c.input = [] ∧ c.req.pstate = bodyState c.req ∧ c.taken = head.length := by
  have hfresh : (freshConn.more head).Open :=
    ⟨(accept_open (accept_eq hash)).live, rfl, rfl⟩
  have hread : loop reads hash fuel (freshConn.more head) = .ok (c, false) := hrun
  obtain ⟨hinput, hstate⟩ := loop_head (c := freshConn.more head) hhead rfl hread
  have hsum := readHead_taken hrun
  rw [hinput] at hsum
  exact ⟨loop_open hfresh hread, hinput, hstate, hsum⟩

/-- Without a body to come, nothing changes any more. -/
lemma watchBody_done {c : Conn} {x : List Char × List (List Char)} (hinput : c.input = [])
    (hstate : c.req.pstate = .done) (hx : x.1 = []) :
    watchBody reads hash fuel c x = .ok c.seen := by
  have hline : '\n' ∉ (c.more x.1).input := by simp [Conn.more, hinput, hx]
  rw [watchBody, loop_none hline, Run.bind_ok]
  exact watch_done (c := c.more x.1) hstate x.2

/-- A request with a body of the length that its head gives, none where the head asks for none.
However the two ways cut it, they agree if and only if, should a body be waited for, none of it that
comes with the end of the head holds a line end, and a delivery follows in both or in neither. -/
theorem same_arrival_iff (hhead : IsHead head)
    (hbody : ∀ c, readHead reads hash fuel head = .ok (c, false) →
      (c.req.content.map RequestContent.contentLength).getD 0 = body.length)
    {ds₁ ds₂ : List (List Char)} (h₁ : ds₁.flatten = head ++ body) (h₂ : ds₂.flatten = head ++ body) :
    SameArrival reads hash fuel head ds₁ ds₂ ↔
      ∀ c, readHead reads hash fuel head = .ok (c, false) → c.req.content.isSome →
        '\n' ∉ (after head.length ds₁).1 ∧ '\n' ∉ (after head.length ds₂).1 ∧
        ((after head.length ds₁).2 = [] ↔ (after head.length ds₂).2 = []) := by
  rw [sameArrival_iff (arrive_seen hhead h₁) (arrive_seen hhead h₂)]
  cases hrun : readHead reads hash fuel head with
  | error e => exact ⟨fun _ _ h => (nomatch h), fun _ => ⟨rfl, nofun, nofun⟩⟩
  | ok r =>
    obtain ⟨c, err⟩ := r
    cases err with
    | true =>
      have hle : c.parseErr.seen.2 ≤ head.length := by
        rw [parseErr_seen_snd, ← readHead_taken hrun]
        exact Nat.le_add_right _ _
      have hlines : ∀ s, (.ok c.parseErr.seen : Run _) = .ok s → s.2 ≤ head.length := by
        intro s hs
        cases hs
        exact hle
      exact ⟨fun _ _ h => (nomatch h), fun _ => ⟨rfl, hlines, hlines⟩⟩
    | false =>
      obtain ⟨hopen, hinput, hstate, htaken⟩ := readHead_ready hhead hrun
      have hlen := hbody c hrun
      simp only [Run.bind_ok, Bool.false_eq_true, if_false]
      cases hfound : c.req.content with
      | none =>
        rw [hfound] at hlen
        rw [bodyState, hfound] at hstate
        have hnil : body = [] := List.length_eq_zero_iff.1 hlen.symm
        have hover : ∀ ds : List (List Char), ds.flatten = head ++ body →
            (after head.length ds).1 = [] :=
          fun ds h => (List.append_eq_nil_iff.1 ((after_flatten h).trans hnil)).1
        have hlines : ∀ s, (.ok c.seen : Run _) = .ok s → s.2 ≤ head.length := by
          intro s hs
          cases hs
          exact htaken.le
        rw [watchBody_done hinput hstate (hover ds₁ h₁), watchBody_done hinput hstate (hover ds₂ h₂)]
        refine iff_of_true ⟨rfl, hlines, hlines⟩ fun d hd hsome => ?_
        cases hd
        rw [hfound] at hsome
        cases hsome
      | some content =>
        rw [hfound] at hlen
        have hready : Ready c content body := ⟨hopen, hinput, hstate, hfound, hlen⟩
        rw [watchBody_agree hready htaken (after_flatten h₁) (after_flatten h₂)]
        constructor
        · intro h d _ _
          exact h
        · intro h
          exact h c rfl (by rw [hfound]; rfl)

end main

/-- The head of a form with three bytes of content. -/
def postHead : List Char :=
  "POST / HTTP/1.1\r\nContent-Type: application/x-www-form-urlencoded\r\nContent-Length: 3\r\n\r\n".toList

lemma postHead_isHead : IsHead postHead := by
  refine ⟨_, _, rfl, ?_⟩
  refine .line rfl (by decide) ?_
  refine .line rfl (by decide) ?_
  exact .blank rfl rfl

lemma postHead_length :
    (readHead (fun _ => true) (fun _ => 257) 80 postHead).map
      (fun r => (r.1.req.content.map RequestContent.contentLength).getD 0) = .ok 3 := by
  decide +kernel

lemma postHead_body (c : Conn)
    (hrun : readHead (fun _ => true) (fun _ => 257) 80 postHead = .ok (c, false)) :
    (c.req.content.map RequestContent.contentLength).getD 0 = "a=b".toList.length := by
  have hlen := postHead_length
  rw [hrun] at hlen
  exact Except.ok.inj hlen

/-- The content begins with the end of the head in one way and after it in the other. -/
theorem same_arrival_iff_example : SameArrival (fun _ => true) (fun _ => 257) 80 postHead
    [postHead ++ "a".toList, "=b".toList] [postHead, "a=".toList, "b".toList] := by
  have h₁ : [postHead ++ "a".toList, "=b".toList].flatten = postHead ++ "a=b".toList := rfl
  have h₂ : [postHead, "a=".toList, "b".toList].flatten = postHead ++ "a=b".toList := rfl
  exact (same_arrival_iff postHead_isHead postHead_body h₁ h₂).2
    fun c _ _ => ⟨by decide, by decide, by decide⟩

/-- A form that comes in one piece is never read; one whose content comes later is. -/
theorem whole_request_unread : ¬∀ (reads : List Call → Bool) (hash : List Char → UInt64) (fuel : ℕ)
    (head body : List Char), (∀ calls, Call.onPathRecv ∈ calls → reads calls = true) →
    IsHead head → (∀ c, readHead reads hash fuel head = .ok (c, false) →
      (c.req.content.map RequestContent.contentLength).getD 0 = body.length) →
    ∀ ds₁ ds₂ : List (List Char), ds₁.flatten = head ++ body → ds₂.flatten = head ++ body →
      SameArrival reads hash fuel head ds₁ ds₂ := by
  intro h
  have hsame := h (fun _ => true) (fun _ => 257) 80 postHead "a=b".toList (fun _ _ => rfl)
    postHead_isHead postHead_body [postHead ++ "a=b".toList] [postHead, "a=b".toList] rfl rfl
  have hne : (arrive (fun _ => true) (fun _ => 257) 80 [postHead ++ "a=b".toList]).map Conn.view ≠
      (arrive (fun _ => true) (fun _ => 257) 80 [postHead, "a=b".toList]).map Conn.view := by
    decide +kernel
  exact hne hsame.view_eq

end CoreCommon.Server
