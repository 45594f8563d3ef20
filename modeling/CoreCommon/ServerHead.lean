import CoreCommon.MapReserved
import CoreCommon.ServerHandlers
import CoreCommon.ServerParseHeader

/-! The head of a request as a whole: the request line, header lines without parameters, and the
blank line. A handler that wants the content is told its length by the header of that name, which
is not stored; all other headers are. -/
namespace CoreCommon.Server
open ParseMap NumberText
open Config (cStr)

/-- A header line without parameters, name and value. -/
structure IsPlain (hdr : List Char × List Char) : Prop where
  name : IsToken hdr.1
  value : ∀ ch ∈ hdr.2, endsValue ch = false
  length_lt : (headerLine hdr.1 hdr.2 []).length < 2 ^ 32

def headersText (hdrs : List (List Char × List Char)) : List Char :=
  hdrs.flatMap fun hdr => headerLine hdr.1 hdr.2 [] ++ crlf

def requestHead (m : Method) (segs : List (List Char)) (version : List Char)
    (hdrs : List (List Char × List Char)) : List Char :=
  requestLine m segs version ++ crlf ++ (headersText hdrs ++ crlf)

/-- The length that a header gives the content. -/
def lengthOf (hdr : List Char × List Char) : Option ℤ :=
  if hdr.1 = "Content-Length".toList ∧ (strtol hdr.2).2 ≠ 0 then some (strtol hdr.2).1 else none

/-- The headers that are stored, where `reads` is `read_content`. -/
def storedHeaders (reads : Bool) (hdrs : List (List Char × List Char)) :
    List (List Char × Header) :=
  (hdrs.filter fun hdr => !(reads && (lengthOf hdr).isSome)).map fun hdr => (hdr.1, ⟨hdr.2, []⟩)

/-- The content that is waited for: that of the last length, as a `size_t`. -/
def announced (reads : Bool) (hdrs : List (List Char × List Char)) : Option RequestContent :=
  if reads then
    (hdrs.filterMap lengthOf).getLast?.map fun n => ⟨(n % 2 ^ 64).toNat, [], []⟩
  else none

section line
variable {hash : List Char → UInt64} {fuel : ℕ} {hdr : List Char × List Char} {line : List Char}

lemma headerLine_eq (name value : List Char) :
    headerLine name value [] = name ++ ':' :: ' ' :: value := by
  simp [headerLine, parametersText]

lemma IsPlain.clean (h : IsPlain hdr) : ∀ ch ∈ headerLine hdr.1 hdr.2 [], ch ∉ ['\n', '\x00'] := by
  intro ch hch hmem
  rw [headerLine_eq, List.mem_append, List.mem_cons, List.mem_cons] at hch
  obtain hch | rfl | rfl | hch := hch
  · refine h.name.chars ch hch ?_
    fin_cases hmem <;> decide
  · exact absurd hmem (by decide)
  · exact absurd hmem (by decide)
  · have hends := h.value ch hch
    fin_cases hmem <;> exact absurd hends (by decide)

/-- `parse_header` on a header line without parameters. -/
lemma IsPlain.run_parseHeader (h : IsPlain hdr)
    (hfuel : (headerLine hdr.1 hdr.2 []).length + 1 < fuel) :
    ∃ p : Parser (List Char × Header), run (headerLine hdr.1 hdr.2 []) fuel
      (parseHeader (headerLine hdr.1 hdr.2 [])) (.ofText (headerLine hdr.1 hdr.2 [])) () =
        .ok (p, ()) ∧ p.err = false ∧ p.res = (hdr.1, ⟨hdr.2, []⟩) := by
  have hcounted : counted (headerLine hdr.1 hdr.2 []) = headerLine hdr.1 hdr.2 [] := by
    rw [counted, Nat.mod_eq_of_lt h.length_lt, List.take_length]
  refine Server.run_parseHeader (t := []) ?_ h.name h.value (by simp) (fun hd => ?_)
    (by rwa [hcounted])
  · rw [hcounted, headerLine_eq, List.append_nil]
  · have hsemi : Rejects (counted (headerLine hdr.1 hdr.2 [])) (.match_ ";") () [] hd [] hd :=
      rejects_match (by simp)
    exact ⟨[], hsemi.chain.chain⟩

lemma parseInt_accepts {s t : List Char} (h : (strtol t).2 ≠ 0) :
    Accepts s (.parseInt : ParseMap Unit Unit ℤ) () t () (strtol t).1 (t.drop (strtol t).2) () := by
  intro fuel _ p hp _
  have hmeets := number_meets strtol_le hp
  rw [numberReading, if_neg h] at hmeets
  exact hmeets.of_ok

lemma parseInt_rejects {s t : List Char} (h : (strtol t).2 = 0) :
    Rejects s (.parseInt : ParseMap Unit Unit ℤ) () t () t () := by
  intro fuel _ p hp _
  have hmeets := number_meets strtol_le hp
  rw [numberReading, if_pos h] at hmeets
  exact hmeets.of_fail

/-- What stands before the first colon. -/
lemma eq_of_colon {a b t u : List Char} (ha : ':' ∉ a) (hb : ':' ∉ b)
    (h : a ++ ':' :: t = b ++ ':' :: u) : a = b := by
  have hbefore : ∀ {l r : List Char}, ':' ∉ l → (l ++ ':' :: r).takeWhile (· ≠ ':') = l := by
    intro l r hl
    have hpos : ∀ ch ∈ l, decide (ch ≠ ':') = true :=
      fun ch hch => decide_eq_true fun heq => hl (heq ▸ hch)
    rw [List.takeWhile_append_of_pos hpos]
    simp
  rw [← hbefore ha, h, hbefore hb]

/-- The length is found in the header of its name, and only there. -/
lemma contentLength_run (h : IsPlain hdr) (hline : line = headerLine hdr.1 hdr.2 [])
    (hfuel : line.length + 1 < fuel) :
    ∃ q, run line fuel contentLength (.ofText line) () = .ok (q, ()) ∧
      (q.err = false ∧ lengthOf hdr = some q.res ∨ q.err = true ∧ lengthOf hdr = none) := by
  have hstart : Before line line (.ofText line : Parser Unit) := by
    refine ⟨?_, rfl, rfl⟩
    show 0 + line.length % 2 ^ 32 = line.length
    rw [Nat.mod_eq_of_lt (hline ▸ h.length_lt), zero_add]
  have hrejects : ∀ {u}, Rejects line contentLength () line () u () → lengthOf hdr = none →
      ∃ q, run line fuel contentLength (.ofText line) () = .ok (q, ()) ∧
        (q.err = false ∧ lengthOf hdr = some q.res ∨ q.err = true ∧ lengthOf hdr = none) := by
    intro u hu hnone
    obtain ⟨q, hq, -, herr, -⟩ := hu fuel hfuel _ hstart rfl
    exact ⟨q, hq, .inr ⟨herr, hnone⟩⟩
  by_cases hname : hdr.1 = "Content-Length".toList
  · have htext : line = "Content-Length:".toList ++ ' ' :: hdr.2 := by
      rw [hline, headerLine_eq, hname]
      rfl
    have hcolon : Accepts line (.match_ "Content-Length:") () line () () (' ' :: hdr.2) () := by
      have hmatch : Accepts line (.match_ "Content-Length:" : ParseMap Unit Unit Unit) ()
        ("Content-Length:".toList ++ ' ' :: hdr.2) () () (' ' :: hdr.2) () := accepts_match _
      rwa [← htext] at hmatch
    have hspace : Accepts line (.parseWS : ParseMap Unit Unit Unit) () (' ' :: hdr.2) () ()
        hdr.2 () :=
      takes_ws.accepts ' ' hdr.2 () rfl
    have hlen := congrArg List.length htext
    rw [List.length_append, List.length_cons] at hlen
    have hhead := hcolon.chain (by rw [List.length_cons]; omega) hspace
    by_cases hnum : (strtol hdr.2).2 = 0
    · exact hrejects (hhead.chain_rejects (by omega) (parseInt_rejects hnum))
        (if_neg fun hboth => hboth.2 hnum)
    · obtain ⟨q, hq, hbefore, hres⟩ :=
        (hhead.chain (by omega) (parseInt_accepts hnum)) fuel hfuel _ hstart rfl
      refine ⟨q, hq, .inl ⟨hbefore.err, ?_⟩⟩
      rw [lengthOf, if_pos ⟨hname, hnum⟩, hres]
  · have hmatch : ¬"Content-Length:".toList <+: line := by
      rintro ⟨t, ht⟩
      rw [hline, headerLine_eq] at ht
      have hsplit : "Content-Length".toList ++ ':' :: t = hdr.1 ++ ':' :: ' ' :: hdr.2 := ht
      have hcolon : ':' ∉ hdr.1 := fun hmem => h.name.no_colon ':' hmem rfl
      exact hname (eq_of_colon (by simp) hcolon hsplit).symm
    have hreject : Rejects line (.match_ "Content-Length:" : ParseMap Unit Unit Unit) () line ()
      line () := rejects_match hmatch
    exact hrejects hreject.chain.chain (if_neg fun hboth => hname hboth.1)

end line

/-! ### Header lines -/

section headers
variable {reads : List Call → Bool} {hash : List Char → UInt64} {fuel : ℕ} {calls : List Call}
  {hdrs : List (List Char × List Char)} {hdr : List Char × List Char} {req : Request}

lemma latest_concat {K V : Type} [DecidableEq K] (l : List (K × V)) (k : K) (v : V) :
    Map.latest (l ++ [(k, v)]) = Function.update (Map.latest l) k (some v) := by
  funext k'
  rw [Function.update_apply]
  induction l with
  | nil => simp [Map.latest, eq_comm]
  | cons e l ih =>
    rw [List.cons_append, Map.latest, ih, Map.latest]
    split_ifs <;> simp

lemma storedHeaders_append (reading : Bool) (hdrs hdrs' : List (List Char × List Char)) :
    storedHeaders reading (hdrs ++ hdrs') =
      storedHeaders reading hdrs ++ storedHeaders reading hdrs' := by
  rw [storedHeaders, List.filter_append, List.map_append]
  rfl

lemma storedHeaders_concat (reading : Bool) (hdrs : List (List Char × List Char))
    (hdr : List Char × List Char) : storedHeaders reading (hdrs ++ [hdr]) =
      if reading && (lengthOf hdr).isSome then storedHeaders reading hdrs
      else storedHeaders reading hdrs ++ [(hdr.1, ⟨hdr.2, []⟩)] := by
  rw [storedHeaders_append, storedHeaders.eq_def reading [hdr], List.filter_cons]
  cases reading && (lengthOf hdr).isSome <;> simp

lemma announced_stored {reading : Bool} (h : (reading && (lengthOf hdr).isSome) = false) :
    announced reading (hdrs ++ [hdr]) = announced reading hdrs := by
  unfold announced
  cases reading with
  | false => rfl
  | true =>
    have hnone : lengthOf hdr = none := by simpa using h
    simp [List.filterMap_append, hnone]

lemma announced_length {n : ℤ} (h : lengthOf hdr = some n) :
    announced true (hdrs ++ [hdr]) = some ⟨(n % 2 ^ 64).toNat, [], []⟩ := by
  simp [announced, List.filterMap_append, h]

/-- The request after the request line and some header lines. -/
structure AfterHeaders (hash : List Char → UInt64) (calls : List Call) (reading : Bool)
    (hdrs : List (List Char × List Char)) (req : Request) : Prop where
  calls_eq : req.calls = calls
  pstate : req.pstate = .headers
  content : req.content = announced reading hdrs
  reserved : Map.Reserved hash 2 (storedHeaders reading hdrs).length req.headers
  represents : req.headers.Represents (Map.latest (storedHeaders reading hdrs))

/-- A header that is stored. -/
lemma AfterHeaders.store (h : AfterHeaders hash calls (reads calls) hdrs req) (hhdr : IsPlain hdr)
    (hroom : (storedHeaders (reads calls) (hdrs ++ [hdr])).length ≤ 17) (hslots : 32 < fuel)
    (hfuel : (headerLine hdr.1 hdr.2 []).length + 1 < fuel)
    (hstored : (reads calls && (lengthOf hdr).isSome) = false) :
    ∃ req', readHeader hash fuel (headerLine hdr.1 hdr.2 []) req = .ok (req', false) ∧
      AfterHeaders hash calls (reads calls) (hdrs ++ [hdr]) req' := by
  obtain ⟨p, hp, herr, hres⟩ := hhdr.run_parseHeader hfuel
  have hconcat := storedHeaders_concat (reads calls) hdrs hdr
  rw [hstored, if_neg Bool.false_ne_true] at hconcat
  rw [hconcat, List.length_append, List.length_singleton] at hroom
  have hwrites : (storedHeaders (reads calls) hdrs).length +
      (Map.Op.insert hdr.1 (⟨hdr.2, []⟩ : Header)).writes ≤ 8 * 2 + 1 := hroom
  obtain ⟨m', r, hinsert, hm', hf', -⟩ := h.reserved.apply (by decide) hslots hwrites h.represents
  have hinsert' : req.headers.insert hash fuel p.res.1 p.res.2 = .ok (m', r) := by
    rw [hres]
    exact hinsert
  refine ⟨{ req with headers := m' }, ?_, h.calls_eq, h.pstate, ?_, ?_, ?_⟩
  · rw [readHeader, hp, Run.bind_ok]
    dsimp only
    rw [herr, if_neg Bool.false_ne_true, hinsert', Run.bind_ok]
  · rw [announced_stored hstored]
    exact h.content
  · rw [hconcat, List.length_append, List.length_singleton]
    exact hm'
  · rw [hconcat, latest_concat]
    exact hf'

lemma AfterHeaders.step (h : AfterHeaders hash calls (reads calls) hdrs req) (hhdr : IsPlain hdr)
    (hroom : (storedHeaders (reads calls) (hdrs ++ [hdr])).length ≤ 17) (hslots : 32 < fuel)
    (hfuel : (headerLine hdr.1 hdr.2 []).length + 1 < fuel) :
    ∃ req', readLine reads hash fuel (headerLine hdr.1 hdr.2 []) req = .ok (req', false) ∧
      AfterHeaders hash calls (reads calls) (hdrs ++ [hdr]) req' := by
  have hne : ¬(headerLine hdr.1 hdr.2 []).length = 0 := by
    rw [headerLine_eq]
    simp
  have hline : readLine reads hash fuel (headerLine hdr.1 hdr.2 []) req =
      readHeaders reads hash fuel (headerLine hdr.1 hdr.2 []) req := by
    rw [readLine, h.pstate]
  rw [hline, readHeaders, if_neg hne, h.calls_eq]
  cases hreads : reads calls with
  | false =>
    rw [if_neg Bool.false_ne_true]
    have hstore := h.store hhdr hroom hslots hfuel (by rw [hreads, Bool.false_and])
    rwa [hreads] at hstore
  | true =>
    rw [if_pos rfl]
    obtain ⟨q, hq, ⟨herr, hlength⟩ | ⟨herr, hlength⟩⟩ := contentLength_run hhdr rfl hfuel
    · rw [hq, Run.bind_ok]
      dsimp only
      rw [herr, if_neg Bool.false_ne_true]
      have hkept : storedHeaders true (hdrs ++ [hdr]) = storedHeaders true hdrs := by
        rw [storedHeaders_concat, hlength]
        rfl
      have hset : req.setLength q.res =
          { req with content := some ⟨(q.res % 2 ^ 64).toNat, [], []⟩ } := by
        have hcontent := h.content
        rw [hreads, announced, if_pos rfl] at hcontent
        rw [Request.setLength, hcontent]
        cases (hdrs.filterMap lengthOf).getLast? <;> rfl
      refine ⟨req.setLength q.res, rfl, ?_⟩
      rw [hset]
      refine ⟨h.calls_eq, h.pstate, (announced_length hlength).symm, ?_, ?_⟩
      · rw [hkept, ← hreads]
        exact h.reserved
      · rw [hkept, ← hreads]
        exact h.represents
    · rw [hq, Run.bind_ok]
      dsimp only
      rw [herr, if_pos rfl]
      have hstore := h.store hhdr hroom hslots hfuel (by rw [hlength]; simp)
      rwa [hreads] at hstore

lemma cStr_eq_self {line : List Char} (h : ∀ ch ∈ line, ch ∉ ['\n', '\x00']) :
    cStr line = line := by
  refine List.takeWhile_eq_self_iff.2 fun ch hch => decide_eq_true fun heq => h ch hch ?_
  simp [heq]

lemma not_newline {line : List Char} (h : ∀ ch ∈ line, ch ∉ ['\n', '\x00']) : '\n' ∉ line :=
  fun hmem => h _ hmem (by simp)

/-- The line loop over header lines and the blank line. -/
lemma AfterHeaders.loop_ok {c : Conn} {done : List (List Char × List Char)}
    (h : AfterHeaders hash calls (reads calls) done c.req) (hplain : ∀ hdr ∈ hdrs, IsPlain hdr)
    (hroom : (storedHeaders (reads calls) (done ++ hdrs)).length ≤ 17) (hslots : 32 < fuel)
    (hfuel : ∀ hdr ∈ hdrs, (headerLine hdr.1 hdr.2 []).length + 1 < fuel)
    (hinput : c.input = headersText hdrs ++ crlf) :
    ∃ c' req, loop reads hash fuel c = .ok (c', false) ∧ c'.req = req.moveTo (bodyState req) ∧
      AfterHeaders hash calls (reads calls) (done ++ hdrs) req := by
  induction hdrs generalizing c done with
  | nil =>
    have hline : readln c.input = some ([], []) := by
      rw [hinput]
      exact readln_crlf List.not_mem_nil []
    have hblank : readLine reads hash fuel (cStr []) c.req =
      .ok (c.req.moveTo (bodyState c.req), false) := readLine_blank h.pstate
    refine ⟨(c.take []).withReq (c.req.moveTo (bodyState c.req)), c.req, ?_, rfl, ?_⟩
    · rw [loop_some hline, hblank, Run.bind_ok, if_neg Bool.false_ne_true]
      exact loop_none List.not_mem_nil
    · rwa [List.append_nil]
  | cons hdr hdrs ih =>
    have hhdr := hplain hdr List.mem_cons_self
    rw [← List.singleton_append, ← List.append_assoc] at hroom
    have hfirst : (storedHeaders (reads calls) (done ++ [hdr])).length ≤ 17 := by
      rw [storedHeaders_append, List.length_append] at hroom
      omega
    have hline : readln c.input =
        some (headerLine hdr.1 hdr.2 [], headersText hdrs ++ crlf) := by
      rw [hinput, headersText, List.flatMap_cons, List.append_assoc]
      exact readln_crlf (not_newline hhdr.clean) _
    obtain ⟨req, hread, hafter⟩ :=
      h.step hhdr hfirst hslots (hfuel hdr List.mem_cons_self)
    obtain ⟨c', req', hrun, hreq', hdone⟩ :=
      ih (c := (c.take (headersText hdrs ++ crlf)).withReq req) hafter
        (fun x hx => hplain x (List.mem_cons_of_mem _ hx)) hroom
        (fun x hx => hfuel x (List.mem_cons_of_mem _ hx)) rfl
    refine ⟨c', req', ?_, hreq', ?_⟩
    · rw [loop_some hline, cStr_eq_self hhdr.clean, hread, Run.bind_ok, if_neg Bool.false_ne_true,
        hrun]
    · rwa [List.append_assoc, List.singleton_append] at hdone

end headers

/-! ### The whole head -/

section head
variable {reads : List Call → Bool} {hash : List Char → UInt64} {fuel : ℕ} {m : Method}
  {segs : List (List Char)} {version : List Char} {hdrs : List (List Char × List Char)}

lemma headersText_isHeaders (hplain : ∀ hdr ∈ hdrs, IsPlain hdr) :
    IsHeaders (headersText hdrs ++ crlf) := by
  induction hdrs with
  | nil => exact .blank (readln_crlf List.not_mem_nil []) rfl
  | cons hdr hdrs ih =>
    have hhdr := hplain hdr List.mem_cons_self
    have hline : readln (headersText (hdr :: hdrs) ++ crlf) =
        some (headerLine hdr.1 hdr.2 [], headersText hdrs ++ crlf) := by
      rw [headersText, List.flatMap_cons, List.append_assoc]
      exact readln_crlf (not_newline hhdr.clean) _
    refine .line hline ?_ (ih fun x hx => hplain x (List.mem_cons_of_mem _ hx))
    rw [cStr_eq_self hhdr.clean, headerLine_eq]
    simp

/-- However a head arrives, it is read as if it came at once. -/
lemma arriveFrom_head {c₀ c c' : Conn} {head : List Char} (hopen : c₀.Open)
    (hstate : c₀.req.pstate = .requestLine) (hinput : c₀.input = []) (hhead : IsHead head)
    {ds : List (List Char)} (hne : [] ∉ ds) {pre : List Char} (hsplit : head = pre ++ ds.flatten)
    (hpre : loop reads hash fuel (c₀.more pre) = .ok (c, false))
    (hrun : loop reads hash fuel (c₀.more head) = .ok (c', false)) :
    arriveFrom reads hash fuel c ds = .ok c' := by
  have hmoreOpen : ∀ bytes, (c₀.more bytes).Open :=
    fun _ => ⟨hopen.live, hopen.frees, hopen.deletes⟩
  have hmore : ∀ bytes, (c₀.more bytes).input = bytes := by simp [Conn.more, hinput]
  induction ds generalizing pre c with
  | nil =>
    rw [List.flatten_nil, List.append_nil] at hsplit
    rw [hsplit, hpre] at hrun
    cases hrun
    rfl
  | cons d ds ih =>
    have hd : d ≠ [] := fun heq => hne (heq ▸ List.mem_cons_self)
    have hrest : (d :: ds).flatten ≠ [] := by
      rw [List.flatten_cons]
      exact fun hnil => hd (List.append_eq_nil_iff.1 hnil).1
    have hprefix : IsHead ((c₀.more pre).input ++ (d :: ds).flatten) := by
      rwa [hmore, ← hsplit]
    have hreading := loop_head_part hprefix hrest hstate hpre
    have hc := loop_open (hmoreOpen pre) hpre
    have hall : loop reads hash fuel (c₀.more (pre ++ d)) = loop reads hash fuel (c.more d) := by
      rw [← more_more, loop_more, hpre]
      rfl
    rw [List.flatten_cons, ← List.append_assoc] at hsplit
    have hmid : ∃ c₁, loop reads hash fuel (c.more d) = .ok (c₁, false) := by
      rw [hsplit, ← more_more, loop_more, hall] at hrun
      obtain ⟨⟨c₁, err⟩, hfirst, hlater⟩ := Run.bind_eq_ok.1 hrun
      cases err with
      | true => cases hlater
      | false => exact ⟨c₁, hfirst⟩
    obtain ⟨c₁, hc₁⟩ := hmid
    unfold arriveFrom at ih ⊢
    rw [List.foldlM_cons, deliver_reading hc.frees hreading, hc₁, Run.bind_ok, Run.bind_ok]
    exact ih (fun hmem => hne (List.mem_cons_of_mem _ hmem)) hsplit (hall.trans hc₁)

/-- A new connection after a request line with segments. -/
lemma afterHeaders_segments (reading : Bool) : AfterHeaders hash
    (segs.map .onSegmentRecv ++ [.onPathRecv]) reading []
    (((freshConn.req.receive segs).call .onPathRecv).moveTo .headers) := by
  obtain ⟨m₀, hempty, hm₀, hf₀⟩ : ∃ m₀ : Map (List Char) Header false,
      Map.ofCapacity hash 0 = .ok m₀ ∧ Map.Reserved hash 2 0 m₀ ∧ m₀.Represents fun _ => none :=
    Map.ofCapacity_reserved (by decide)
  have hfresh : Map.ofCapacity hash 0 = .ok freshConn.req.headers := rfl
  obtain rfl := Except.ok.inj (hfresh.symm.trans hempty)
  refine ⟨rfl, rfl, ?_, hm₀, hf₀⟩
  cases reading <;> rfl

/-- A request line with segments, header lines without parameters, and the blank line. However
these bytes arrive, the handler is told of the segments and the path and of nothing else, and every
name has the last value given to it. The request is done, or waits for as many bytes as the last
content length said where the handler wants the content; such a header is not stored. With more than
seventeen stored, the table would be doubled, which can lose some. -/
theorem head_read (hsegs : ∀ seg ∈ segs, IsSegment seg) (hne : segs ≠ [])
    (hversion : ∀ ch ∈ version, ch ∉ ['\n', '\x00'])
    (hlen : (requestLine m segs version).length < 2 ^ 32) (hplain : ∀ hdr ∈ hdrs, IsPlain hdr)
    (hfew : (storedHeaders (reads (segs.map .onSegmentRecv ++ [.onPathRecv])) hdrs).length ≤ 17) :
    let calls : List Call := segs.map .onSegmentRecv ++ [.onPathRecv]
    ∃ n, ∀ steps ≥ n, ∀ ds : List (List Char), [] ∉ ds →
      ds.flatten = requestHead m segs version hdrs → ∃ c, arrive reads hash steps ds = .ok c ∧
        c.req.calls = calls ∧ c.req.content = announced (reads calls) hdrs ∧
        c.req.pstate = (if (announced (reads calls) hdrs).isSome then .content else .done) ∧
        ∀ name, c.req.headers.lookup hash steps name =
          .ok (Map.latest (storedHeaders (reads calls) hdrs) name) := by
  intro calls
  refine ⟨(requestHead m segs version hdrs).length + 33, fun steps hsteps ds hds hflatten => ?_⟩
  have hclean := requestLine_clean (m := m) hsegs hversion
  have hheaders : (headersText hdrs).length ≤ (requestHead m segs version hdrs).length := by
    simp only [requestHead, List.length_append]
    omega
  have hlines : ∀ hdr ∈ hdrs, (headerLine hdr.1 hdr.2 []).length + 1 < steps := by
    intro hdr hmem
    have hsub := (List.sublist_flatten_of_mem
      (List.mem_map_of_mem (f := fun hdr => headerLine hdr.1 hdr.2 [] ++ crlf) hmem)).length_le
    rw [← List.flatMap_def, List.length_append] at hsub
    unfold headersText at hheaders
    omega
  have hfirst : (requestLine m segs version).length + 1 < steps := by
    simp only [requestHead, List.length_append] at hsteps
    omega
  have hline : readln (freshConn.more (requestHead m segs version hdrs)).input =
      some (requestLine m segs version, headersText hdrs ++ crlf) :=
    readln_crlf (not_newline hclean) _
  obtain ⟨c, req, hrun, hreq, hafter⟩ : ∃ c req,
      loop reads hash steps (((freshConn.more (requestHead m segs version hdrs)).take
        (headersText hdrs ++ crlf)).withReq
          (((freshConn.req.receive segs).call .onPathRecv).moveTo .headers)) = .ok (c, false) ∧
        c.req = req.moveTo (bodyState req) ∧
        AfterHeaders hash calls (reads calls) ([] ++ hdrs) req :=
    (afterHeaders_segments (reads calls)).loop_ok hplain hfew (by omega) hlines rfl
  rw [List.nil_append] at hafter
  have hwhole : loop reads hash steps (freshConn.more (requestHead m segs version hdrs)) =
      .ok (c, false) := by
    have hread : readLine reads hash steps (requestLine m segs version) freshConn.req =
        .ok (((freshConn.req.receive segs).call .onPathRecv).moveTo .headers, false) :=
      readLine_segments hsegs hne rfl hlen hfirst
    have hmore : (freshConn.more (requestHead m segs version hdrs)).req = freshConn.req := rfl
    rw [loop_some hline, cStr_eq_self hclean, hmore, hread, Run.bind_ok, if_neg Bool.false_ne_true,
      hrun]
  have hhead : IsHead (requestHead m segs version hdrs) :=
    ⟨_, _, hline, headersText_isHeaders hplain⟩
  have hnone : loop reads hash steps (freshConn.more []) = .ok (freshConn, false) :=
    loop_none List.not_mem_nil
  have harrive : arriveFrom reads hash steps freshConn ds = .ok c :=
    arriveFrom_head (accept_open (accept_eq hash)) rfl rfl hhead hds hflatten.symm hnone hwhole
  refine ⟨c, ?_, ?_, ?_, ?_, fun name => ?_⟩
  · rw [arrive, accept_eq, Run.bind_ok, harrive]
  · rw [hreq]
    exact hafter.calls_eq
  · rw [hreq]
    exact hafter.content
  · rw [hreq, ← hafter.content]
    rfl
  · rw [hreq]
    exact hafter.reserved.lookup_eq (by omega) (by omega) hafter.represents name

/-- `POST /a`, with a host and a length, to a handler that wants the content. -/
theorem head_read_post :
    let hdrs := [("Host".toList, "h".toList), ("Content-Length".toList, "5".toList)]
    ∃ n, ∀ steps ≥ n, ∀ ds : List (List Char), [] ∉ ds →
      ds.flatten = requestHead .post [['a']] ['1', '.', '1'] hdrs →
      ∃ c, arrive (fun _ => true) (fun _ => 257) steps ds = .ok c ∧
        c.req.calls = [.onSegmentRecv ['a'], .onPathRecv] ∧ c.req.content = some ⟨5, [], []⟩ ∧
        c.req.pstate = .content ∧ ∀ name, c.req.headers.lookup (fun _ => 257) steps name =
          .ok (Map.latest [("Host".toList, ⟨"h".toList, []⟩)] name) := by
  intro hdrs
  have hsegs : ∀ seg ∈ [['a']], IsSegment seg := by
    intro seg hseg
    rw [List.mem_singleton.1 hseg]
    exact ⟨List.cons_ne_nil _ _, by simp⟩
  have hlen : (requestLine .post [['a']] ['1', '.', '1']).length < 2 ^ 32 := by
    simp [requestLine, pathText, Method.name]
  have hplain : ∀ hdr ∈ hdrs, IsPlain hdr := by
    refine List.forall_mem_cons.2
      ⟨⟨?_, by simp [endsValue, isWS], by simp [headerLine_eq]⟩, List.forall_mem_singleton.2
        ⟨?_, by simp [endsValue, isWS], by simp [headerLine_eq]⟩⟩ <;>
    exact isToken_of_decide (by decide) (by decide)
  have hlength : announced true hdrs = some ⟨5, [], []⟩ := by decide
  have hstored : storedHeaders true hdrs = [("Host".toList, ⟨"h".toList, []⟩)] := by decide
  have hread := @head_read (fun _ => true) (fun _ => 257) .post _ _ hdrs hsegs
    (List.cons_ne_nil _ _) (by simp) hlen hplain (by decide)
  dsimp only at hread
  rwa [hlength, hstored] at hread

end head
end CoreCommon.Server
