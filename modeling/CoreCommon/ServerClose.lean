import CoreCommon.ParserState
import CoreCommon.Server

/-! How often a connection is closed and its request deleted, over every order of callbacks. -/
namespace CoreCommon.Server
open ParseMap

/-- The handler has been told neither of an error nor of the end. -/
structure Request.Live (req : Request) : Prop where
  parses : .requestParseErr ∉ req.calls
  unclosed : .requestClose ∉ req.calls
  closed : req.closed = false

lemma Request.Live.call {req : Request} (h : req.Live) {c : Call} (herr : c ≠ .requestParseErr)
    (hclose : c ≠ .requestClose) : (req.call c).Live :=
  ⟨by simp [Request.call, h.parses, herr.symm], by simp [Request.call, h.unclosed, hclose.symm],
    h.closed⟩

/-! ### Reading ends nothing -/

section reading
variable (reads : List Call → Bool) (hash : List Char → UInt64) (fuel : ℕ)

/-- A result of reading whose request is live. -/
def LeavesLive (x : Run (Request × Bool)) : Prop := ∀ req err, x = .ok (req, err) → req.Live

variable {reads hash fuel}

lemma leavesLive_ok {req : Request} {err : Bool} (h : req.Live) : LeavesLive (.ok (req, err)) := by
  intro req' err' heq
  cases heq
  exact h

lemma leavesLive_error (f : Fault) : LeavesLive (.error f) := nofun

lemma LeavesLive.bind {α : Type} {x : Run α} {f : α → Run (Request × Bool)}
    (hf : ∀ a, x = .ok a → LeavesLive (f a)) : LeavesLive (x >>= f) := by
  cases x with
  | ok a => exact hf a rfl
  | error e => exact leavesLive_error e

/-- A parser expression that reads into the request. -/
lemma LeavesLive.run {A B : Type} {e : ParseMap Request A B} (he : e.Stable Request.Live)
    {s : List Char} {p : Parser A} {req : Request} (h : req.Live)
    {f : Parser B × Request → Run (Request × Bool)}
    (hf : ∀ q req, req.Live → LeavesLive (f (q, req))) :
    LeavesLive (ParseMap.run s fuel e p req >>= f) :=
  LeavesLive.bind fun r hr => hf r.1 r.2 (run_leaves s fuel e he p req h r.1 r.2 hr)

lemma method_stable : method.Stable Request.Live := by
  simp [method, methodNamed, Stable, manyOf]

lemma path_stable : path.Stable Request.Live := by
  have hsegment : segment.Stable Request.Live := by
    refine ⟨by simp [Stable, pathTerminator], fun x req h => ?_⟩
    exact h.call (by simp) (by simp)
  simp [path, Stable, manyOf, ParseMap.maybe, ParseMap.separated, hsegment]

lemma querystring_stable (s : List Char) : (querystring s).Stable Request.Live := by
  intro fuel p st q st' hrun h
  obtain ⟨r, -, hr⟩ := Run.bind_eq_ok.1 hrun
  cases hr
  exact h

lemma query_stable (s : List Char) : (query s).Stable Request.Live := by
  refine ⟨⟨trivial, querystring_stable s⟩, fun x req h => ?_⟩
  have hset : (req.setContent ⟨0, x, []⟩).Live := ⟨h.parses, h.unclosed, h.closed⟩
  exact hset.call (by simp) (by simp)

lemma multipart_stable (s boundary : List Char) : (multipart s boundary).Stable Request.Live := by
  have hpart : (part s boundary).Stable Request.Live := by
    intro fuel p st q st' hrun h
    obtain ⟨r, -, hrun⟩ := Run.bind_eq_ok.1 hrun
    obtain ⟨span, -, hrun⟩ := Run.bind_eq_ok.1 hrun
    cases hrun
    exact ⟨h.parses, h.unclosed, h.closed⟩
  simp [multipart, Stable, manyOf, ParseMap.skip, newl, hpart]

lemma readRequestLine_live (line : List Char) {req : Request} (h : req.Live) :
    LeavesLive (readRequestLine reads fuel line req) := by
  apply LeavesLive.run method_stable h
  intro m req h
  dsimp only
  split_ifs
  · exact leavesLive_ok h
  · apply LeavesLive.run path_stable h
    intro p req h
    have hcall : (req.call .onPathRecv).Live := h.call (by simp) (by simp)
    dsimp only
    split_ifs
    · apply LeavesLive.run (query_stable line) hcall
      intro q req h
      exact leavesLive_ok ⟨h.parses, h.unclosed, h.closed⟩
    · exact leavesLive_ok ⟨hcall.parses, hcall.unclosed, hcall.closed⟩

lemma readHeader_live (line : List Char) {req : Request} (h : req.Live) :
    LeavesLive (readHeader hash fuel line req) := by
  apply LeavesLive.bind
  intro hdr _
  dsimp only
  split_ifs
  · exact leavesLive_ok h
  · apply LeavesLive.bind
    intro r _
    exact leavesLive_ok ⟨h.parses, h.unclosed, h.closed⟩

lemma setLength_live {req : Request} (h : req.Live) (n : ℤ) : (req.setLength n).Live := by
  unfold Request.setLength
  cases req.content <;> exact ⟨h.parses, h.unclosed, h.closed⟩

lemma readHeaders_live (line : List Char) {req : Request} (h : req.Live) :
    LeavesLive (readHeaders reads hash fuel line req) := by
  unfold readHeaders
  by_cases hblank : line.length = 0
  · rw [if_pos hblank]
    exact leavesLive_ok ⟨h.parses, h.unclosed, h.closed⟩
  · rw [if_neg hblank]
    split_ifs
    · apply LeavesLive.bind
      intro clength _
      dsimp only
      split_ifs
      · exact readHeader_live line h
      · exact leavesLive_ok (setLength_live h _)
    · exact readHeader_live line h

lemma readLine_live (line : List Char) {req : Request} (h : req.Live) :
    LeavesLive (readLine reads hash fuel line req) := by
  unfold readLine
  cases req.pstate with
  | requestLine => exact readRequestLine_live line h
  | headers => exact readHeaders_live line h
  | content => exact leavesLive_ok h
  | done => exact leavesLive_ok h

lemma readContent_live (content : List Char) {req : Request} (h : req.Live) :
    LeavesLive (readContent reads hash fuel content req) := by
  apply LeavesLive.bind
  intro ctype _
  cases ctype with
  | none => exact leavesLive_ok h
  | some ctype =>
    dsimp only
    split_ifs
    · refine LeavesLive.run ?_ h ?_
      · refine ⟨querystring_stable _, fun x req h => ?_⟩
        have hset : (req.setFormdata x).Live := ⟨h.parses, h.unclosed, h.closed⟩
        exact hset.call (by simp) (by simp)
      · intro q req h
        exact leavesLive_ok ⟨h.parses, h.unclosed, h.closed⟩
    · exact leavesLive_ok ⟨h.parses, h.unclosed, h.closed⟩
    · cases ctype.extra.find? fun x => x.1 = "boundary".toList with
      | none => exact leavesLive_ok h
      | some boundary =>
        apply LeavesLive.run (multipart_stable _ _) h
        intro parsed req h
        have hcall : req.contentRecv.Live := h.call (by simp) (by simp)
        dsimp only
        split_ifs
        · exact leavesLive_ok h
        · exact leavesLive_ok ⟨hcall.parses, hcall.unclosed, hcall.closed⟩
    · exact leavesLive_ok h

end reading

/-- Neither closed nor freed nor deleted. -/
structure Conn.Open (c : Conn) : Prop where
  live : c.req.Live
  frees : c.frees = 0
  deletes : c.deletes = 0

section callbacks
variable {reads : List Call → Bool} {hash : List Char → UInt64} {fuel : ℕ} {c c' : Conn}

lemma lineLoop_open {steps : ℕ} {err : Bool} (h : c.Open)
    (hrun : lineLoop reads hash fuel steps c = .ok (c', err)) : c'.Open := by
  induction steps generalizing c with
  | zero => cases hrun
  | succ steps ih =>
    unfold lineLoop at hrun
    cases hline : readln c.input with
    | none =>
      rw [hline] at hrun
      cases hrun
      exact h
    | some r =>
      rw [hline] at hrun
      obtain ⟨⟨req, e⟩, hread, hrun⟩ := Run.bind_eq_ok.1 hrun
      have hopen : ((c.take r.2).withReq req).Open :=
        ⟨readLine_live _ h.live req e hread, h.frees, h.deletes⟩
      cases e with
      | true =>
        cases hrun
        exact hopen
      | false => exact ih hopen hrun

lemma receive_open {err : Bool} (h : c.Open) (hrun : receive reads hash fuel c = .ok (c', err)) :
    c'.Open := by
  unfold receive at hrun
  cases hstate : c.req.pstate with
  | requestLine =>
    rw [hstate] at hrun
    exact lineLoop_open h hrun
  | headers =>
    rw [hstate] at hrun
    exact lineLoop_open h hrun
  | content =>
    rw [hstate] at hrun
    cases hcontent : c.req.content with
    | none =>
      rw [hcontent] at hrun
      cases hrun
    | some content =>
      rw [hcontent] at hrun
      dsimp only at hrun
      split_ifs at hrun
      · cases hrun
        exact h
      · obtain ⟨⟨req, e⟩, hread, hrun⟩ := Run.bind_eq_ok.1 hrun
        cases hrun
        exact ⟨readContent_live _ h.live req _ hread, h.frees, h.deletes⟩
      · cases hrun
        exact h
  | done =>
    rw [hstate] at hrun
    cases hrun
    exact ⟨h.live, h.frees, h.deletes⟩

end callbacks

/-! ### Runs of callbacks -/

/-- `respond` stands for the handler, which may answer at any time. -/
inductive Event
  | read (bytes : List Char)
  | write (flush : ℤ)
  | event (events : ℕ)
  | respond
  deriving DecidableEq, Repr

section runs
variable (reads : List Call → Bool) (hash : List Char → UInt64)

def step (fuel : ℕ) (c : Conn) : Event → Run Conn
  | .read bytes => readcb reads hash fuel (c.more bytes)
  | .write flush => .ok (writecb flush c)
  | .event events => .ok (eventcb events c)
  | .respond => .ok (respond c)

/-- Completed callbacks on one accepted connection, each with the state it found; none comes after
`bufferevent_free`. -/
inductive Trace : List (Conn × ℕ × Event) → Conn → Prop
  | accept {c} (haccept : accept hash = .ok c) : Trace [] c
  | step {l c c'} (htrace : Trace l c) (hlive : c.frees = 0) (fuel : ℕ) (e : Event)
      (hstep : step reads hash fuel c e = .ok c') : Trace (l ++ [(c, fuel, e)]) c'

/-- The callback is one that ends the connection. -/
def Ends (c : Conn) (fuel : ℕ) : Event → Prop
  | .read bytes => ∃ c', receive reads hash fuel (c.more bytes) = .ok (c', true)
  | .write flush => c.req.toClose ∧ ¬c.req.closed ∧ flush ≠ 1
  | .event events => events &&& bevEnded ≠ 0
  | .respond => False

/-- `request_close`, `bufferevent_free` and the destructor have run at most once each, and each of
them if the connection has ended. -/
structure Conn.EndedOnce (c : Conn) : Prop where
  closes : c.req.calls.count .requestClose ≤ 1
  frees : c.frees ≤ 1
  deletes : c.deletes ≤ 1
  ended : c.frees ≠ 0 → c.req.calls.count .requestClose = 1 ∧ c.frees = 1 ∧ c.deletes = 1

variable {reads hash} {fuel : ℕ} {c c' : Conn} {e : Event}

lemma Conn.Open.endedOnce (h : c.Open) : c.EndedOnce := by
  have hcloses := List.count_eq_zero.2 h.live.unclosed
  exact ⟨hcloses.trans_le (Nat.zero_le _), h.frees.trans_le (Nat.zero_le _),
    h.deletes.trans_le (Nat.zero_le _), fun hne => absurd h.frees hne⟩

/-- `parse_err` deletes what the handler has deleted. -/
lemma parseErr_deletes (h : c.req.closed = false) : c.parseErr.deletes = c.deletes + 2 := by
  simp [Conn.parseErr, Conn.destroy, Conn.close, Conn.withReq, Request.call, h]

/-- `~Request` closes once more, as `closed` is not set. -/
lemma eventcb_frees (h : c.req.closed = false) : (c.close.destroy).frees = c.frees + 2 := by
  simp [Conn.destroy, Conn.close, Request.call, h]

lemma step_open (h : c.Open) (hends : ¬Ends reads hash c fuel e)
    (hstep : step reads hash fuel c e = .ok c') : c'.Open := by
  cases e with
  | read bytes =>
    obtain ⟨⟨d, err⟩, hreceive, hd⟩ := Run.bind_eq_ok.1 hstep
    cases err with
    | true => exact absurd ⟨d, hreceive⟩ hends
    | false =>
      cases hd
      have hmore : (c.more bytes).Open := ⟨h.live, h.frees, h.deletes⟩
      exact receive_open hmore hreceive
  | write flush =>
    cases hstep
    dsimp only [Ends] at hends
    rw [writecb, if_neg hends]
    exact h
  | event events =>
    cases hstep
    dsimp only [Ends] at hends
    rw [eventcb, if_neg hends]
    exact h
  | respond =>
    cases hstep
    exact ⟨⟨h.live.parses, h.live.unclosed, h.live.closed⟩, h.frees, h.deletes⟩

/-- A parse error deletes twice, a disconnect frees twice, a response that has been flushed
deletes nothing. -/
lemma step_ends (h : c.Open) (hends : Ends reads hash c fuel e)
    (hstep : step reads hash fuel c e = .ok c') : ¬c'.EndedOnce := by
  intro honce
  cases e with
  | read bytes =>
    obtain ⟨d, hreceive⟩ := hends
    have hmore : (c.more bytes).Open := ⟨h.live, h.frees, h.deletes⟩
    have hopen := receive_open hmore hreceive
    obtain ⟨r, hr, hd⟩ := Run.bind_eq_ok.1 hstep
    cases hreceive.symm.trans hr
    cases hd
    have hdeletes := honce.deletes
    simp only [if_true, parseErr_deletes hopen.live.closed] at hdeletes
    omega
  | write flush =>
    cases hstep
    dsimp only [Ends] at hends
    rw [writecb, if_pos hends] at honce
    have hdeletes := (honce.ended (Nat.succ_ne_zero _)).2.2
    exact absurd (h.deletes.symm.trans hdeletes) zero_ne_one
  | event events =>
    cases hstep
    dsimp only [Ends] at hends
    rw [eventcb, if_pos hends] at honce
    have hfrees := honce.frees
    rw [eventcb_frees h.live.closed] at hfrees
    omega
  | respond => exact hends

lemma accept_open (h : accept hash = .ok c) : c.Open := by
  obtain ⟨headers, -, hc⟩ := Run.bind_eq_ok.1 h
  cases hc
  exact ⟨⟨List.not_mem_nil, List.not_mem_nil, rfl⟩, rfl, rfl⟩

lemma Trace.open {l : List (Conn × ℕ × Event)} (h : Trace reads hash l c)
    (hends : ∀ x ∈ l, ¬Ends reads hash x.1 x.2.1 x.2.2) : c.Open := by
  induction h with
  | accept haccept => exact accept_open haccept
  | step htrace hlive fuel e hstep ih =>
    have hopen := ih fun x hx => hends x (List.mem_append_left _ hx)
    exact step_open hopen (hends _ (List.mem_append_right _ (List.mem_singleton_self _))) hstep

/-- In a run of callbacks the request is closed and deleted at most once, and exactly once when the
connection ends, if and only if nothing ends the connection. -/
theorem ended_once_iff {l : List (Conn × ℕ × Event)} (h : Trace reads hash l c) :
    (∀ d ∈ l.map Prod.fst ++ [c], d.EndedOnce) ↔ ∀ x ∈ l, ¬Ends reads hash x.1 x.2.1 x.2.2 := by
  induction h with
  | accept haccept => simpa using (accept_open haccept).endedOnce
  | @step l c c' htrace hlive fuel e hstep ih =>
    simp only [List.map_append, List.map_cons, List.map_nil, List.forall_mem_append,
      List.forall_mem_singleton] at ih ⊢
    constructor
    · intro hall
      have hends := ih.1 hall.1
      refine ⟨hends, fun hlast => ?_⟩
      exact step_ends (htrace.open hends) hlast hstep hall.2
    · intro hends
      have hopen := htrace.open hends.1
      exact ⟨ih.2 hends.1, (step_open hopen hends.2 hstep).endedOnce⟩

/-- The first state of a connection. -/
def freshConn : Conn :=
  ⟨⟨none, ⟨0, List.replicate 2 fun _ => 0, List.replicate 32 default⟩, false, false, none,
    .requestLine, []⟩, [], 0, 0, 0⟩

lemma accept_eq (hash : List Char → UInt64) : accept hash = .ok freshConn := rfl

end runs

/-- Part of a request line, then an answer that is still being written. -/
theorem ended_once_iff_example :
    let bytes := "GET /".toList
    ∀ d ∈ [freshConn, freshConn.more bytes, respond (freshConn.more bytes)], d.EndedOnce := by
  intro bytes
  have hread : Trace (fun _ => false) (fun _ => 257) [(freshConn, 0, .read bytes)]
      (freshConn.more bytes) := .step (.accept rfl) rfl 0 _ rfl
  refine (ended_once_iff (.step hread rfl 0 .respond rfl)).2 fun x hx => ?_
  obtain rfl | rfl := List.mem_pair.1 hx
  · rintro ⟨c', hreceive⟩
    cases hreceive
  · exact id

/-- A client that connects and hangs up has its connection closed and freed twice. -/
theorem hangup_closes_twice : ¬∀ (hash : List Char → UInt64) (l : List (Conn × ℕ × Event)) (c : Conn),
    Trace (fun _ => false) hash l c → ∀ d ∈ l.map Prod.fst ++ [c], d.EndedOnce := by
  intro h
  have htrace : Trace (fun _ => false) (fun _ => 257) [(freshConn, 0, .event 0x10)]
      (eventcb 0x10 freshConn) := .step (.accept rfl) rfl 0 _ rfl
  have honce := h _ _ _ htrace _ (List.mem_append_right _ (List.mem_singleton_self _))
  exact absurd honce.frees (by decide)
end CoreCommon.Server
