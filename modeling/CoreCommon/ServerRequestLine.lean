import CoreCommon.ParserRules
import CoreCommon.ServerClose

/-! What the handler is told of a request line. -/
namespace CoreCommon.Server
open ParseMap

def Method.name : Method → String
  | .get => "GET"
  | .post => "POST"
  | .head => "HEAD"
  | .put => "PUT"
  | .patch => "PATCH"
  | .delete => "DELETE"

/-- A segment of a path, in a line that is a C string. -/
structure IsSegment (seg : List Char) : Prop where
  ne_nil : seg ≠ []
  chars : ∀ c ∈ seg, c ∉ ['/', '?', ' ', '\r', '\n', '\x00']

def pathText : List (List Char) → List Char
  | [] => ['/']
  | seg :: segs => (seg :: segs).flatMap ('/' :: ·)

def requestLine (m : Method) (segs : List (List Char)) (version : List Char) : List Char :=
  m.name.toList ++ (' ' :: (pathText segs ++ " HTTP/".toList ++ version))

/-- With enough fuel the line is read without an error, and what it leaves has the property. -/
def ReadsTo (reads : List Call → Bool) (hash : List Char → UInt64) (line : List Char)
    (req : Request) (P : Request → Prop) : Prop :=
  ∃ n, ∀ fuel ≥ n, ∃ req', readLine reads hash fuel line req = .ok (req', false) ∧ P req'

/-- The handler has been told of the segments in order, and then that this was the path. -/
structure Received (req : Request) (segs : List (List Char)) (req' : Request) : Prop where
  calls : req'.calls = req.calls ++ segs.map .onSegmentRecv ++ [.onPathRecv]
  pstate : req'.pstate = .headers

def Request.receive (req : Request) (segs : List (List Char)) : Request :=
  { req with calls := req.calls ++ segs.map .onSegmentRecv }

section rules
variable {s t u w seg : List Char} {segs : List (List Char)} {req : Request} {m : Method}

@[simp] lemma receive_nil : req.receive [] = req := by simp [Request.receive]

lemma receive_cons :
    (req.call (.onSegmentRecv seg)).receive segs = req.receive (seg :: segs) := by
  simp [Request.receive, Request.call]

/-! ### The method -/

lemma methodNamed_accepts :
    Accepts s (methodNamed m.name m) () (m.name.toList ++ u) req m u req :=
  (accepts_match m.name).chain (by simp) (accepts_resultMap _)

lemma methodNamed_rejects {m' : Method} (hne : m' ≠ m) :
    Rejects s (methodNamed m'.name m') () (m.name.toList ++ u) req (m.name.toList ++ u) req := by
  refine (rejects_match ?_).chain
  cases m <;> cases m' <;> simp [Method.name] at hne ⊢

lemma spaced_accepts (hhead : ∀ c ∈ (m.name.toList ++ u).head?, isWS c = false) :
    Accepts s (.chain (manyOf .parseWS) (methodNamed m.name m)) () (m.name.toList ++ u) req m u
      req := by
  have hspaces : Rounds s .parseWS () ([] ++ (m.name.toList ++ u)) req (m.name.toList ++ u) req :=
    takes_ws.rounds req (by simp) hhead
  exact hspaces.accepts.chain le_rfl methodNamed_accepts

lemma name_head (m : Method) : ∀ c ∈ (m.name.toList ++ u).head?, isWS c = false := by
  cases m <;> simp [Method.name, isWS]

lemma method_accepts (m : Method) (u : List Char) (req : Request) :
    Accepts s method () (m.name.toList ++ u) req m u req := by
  have hget : m ≠ .get → Rejects s (.chain (manyOf .parseWS) (methodNamed "GET" .get)) ()
      (m.name.toList ++ u) req (m.name.toList ++ u) req := by
    intro hne
    have hspaces : Rounds s .parseWS () ([] ++ (m.name.toList ++ u)) req (m.name.toList ++ u) req :=
      takes_ws.rounds req (by simp) (name_head m)
    exact hspaces.accepts.chain_rejects le_rfl (methodNamed_rejects hne.symm)
  have hnamed : ∀ m', m' ≠ m → Rejects s (methodNamed m'.name m') () (m.name.toList ++ u) req
      (m.name.toList ++ u) req := fun m' hne => methodNamed_rejects hne
  have hself : Accepts s (methodNamed m.name m) () (m.name.toList ++ u) req m u req :=
    methodNamed_accepts
  cases m with
  | get => exact (spaced_accepts (name_head .get)).or_left.or_left.or_left.or_left.or_left
  | post => exact (Accepts.or_right (hget (by decide)) hself).or_left.or_left.or_left.or_left
  | patch =>
    have h := (hget (by decide)).or (hnamed .post (by decide))
    exact (Accepts.or_right h hself).or_left.or_left.or_left
  | delete =>
    have h := ((hget (by decide)).or (hnamed .post (by decide))).or (hnamed .patch (by decide))
    exact (Accepts.or_right h hself).or_left.or_left
  | put =>
    have h := (((hget (by decide)).or (hnamed .post (by decide))).or
      (hnamed .patch (by decide))).or (hnamed .delete (by decide))
    exact (Accepts.or_right h hself).or_left
  | head =>
    have h := ((((hget (by decide)).or (hnamed .post (by decide))).or
      (hnamed .patch (by decide))).or (hnamed .delete (by decide))).or (hnamed .put (by decide))
    exact Accepts.or_right h hself

/-! ### The path -/

/-- What `path_terminator` takes. -/
def endsSegment (c : Char) : Bool := (c == '/' || isWS c) || c == '?'

lemma takes_pathTerminator : Takes Request s pathTerminator endsSegment :=
  ((takes_match rfl).or takes_ws).or (takes_match rfl)

lemma IsSegment.inside (h : IsSegment seg) : ∀ c ∈ seg, endsSegment c = false := by
  intro c hc
  have := h.chars c hc
  simp only [List.mem_cons, List.not_mem_nil, or_false, not_or] at this
  simp [endsSegment, isWS, this]

lemma segment_accepts (req : Request) (hne : seg ≠ []) (hseg : ∀ c ∈ seg, endsSegment c = false)
    (hu : ∀ c ∈ u.head?, endsSegment c = true) :
    Accepts s segment () (seg ++ u) req () u (req.call (.onSegmentRecv seg)) := by
  obtain ⟨c, seg', rfl⟩ := List.exists_cons_of_ne_nil hne
  have hguards : Guards Request s (.not pathTerminator) endsSegment := takes_pathTerminator.guards
  have hfirst : Accepts s (.chain (.not pathTerminator) .any) () (c :: (seg' ++ u)) req ()
      (seg' ++ u) req := hguards.accepts_any req (hseg c List.mem_cons_self)
  have hmore := hguards.rounds req (fun d hd => hseg d (List.mem_cons_of_mem c hd)) hu
  have htext := (hfirst.many_one (Nat.lt_succ_self _) hmore).parseString (w := c :: seg')
  have hle : u.length ≤ (c :: seg' ++ u).length := by
    rw [List.length_append]
    exact Nat.le_add_left _ _
  exact htext.chain hle (accepts_resultMap _)

lemma segment_rejects (req : Request) (ht : ∀ c ∈ t.head?, endsSegment c = true) :
    ∃ v, Rejects s segment () t req v req := by
  have hguards : Guards Request s (.not pathTerminator) endsSegment := takes_pathTerminator.guards
  obtain ⟨v, hv⟩ := hguards.rejects_any req ht
  exact ⟨v, hv.many_one.parseString.chain⟩

/-- A slash and the segment behind it. -/
def laterSegment : ParseMap Request Unit Unit := .chain (.skipMap (.match_ "/")) segment

lemma laterSegment_accepts (req : Request) (hne : seg ≠ []) (hseg : ∀ c ∈ seg, endsSegment c = false)
    (hu : ∀ c ∈ u.head?, endsSegment c = true) :
    Accepts s laterSegment () ('/' :: (seg ++ u)) req () u (req.call (.onSegmentRecv seg)) :=
  (accepts_match "/").skipMap.chain (Nat.le_succ _) (segment_accepts req hne hseg hu)

lemma laterSegment_rejects (req : Request) (ht : ∀ c ∈ t.head?, c ≠ '/') :
    Rejects s laterSegment () t req t req := by
  have hslash : Rejects s (.match_ "/") () t req t req :=
    (takes_match rfl).rejects t req fun c hc => beq_false_of_ne (ht c hc)
  exact hslash.skipMap.chain

lemma laterSegments_rounds (req : Request) (hsegs : ∀ seg ∈ segs, IsSegment seg)
    (hu : ∀ c ∈ u.head?, isWS c = true) :
    Rounds s laterSegment () (segs.flatMap ('/' :: ·) ++ u) req u (req.receive segs) := by
  induction segs generalizing req with
  | nil =>
    rw [receive_nil]
    refine .stop (laterSegment_rejects req fun c hc heq => ?_)
    have hws := hu c hc
    rw [heq] at hws
    cases hws
  | cons seg segs ih =>
    have hseg := hsegs seg List.mem_cons_self
    rw [List.flatMap_cons, List.cons_append, List.cons_append, List.append_assoc, ← receive_cons]
    refine .more (laterSegment_accepts req hseg.ne_nil hseg.inside fun c hc => ?_) ?_
      (ih _ fun seg h => hsegs seg (List.mem_cons_of_mem _ h))
    · cases segs with
      | nil => simp [endsSegment, hu c hc]
      | cons seg' segs =>
        obtain rfl : '/' = c := by simpa using hc
        rfl
    · simp only [List.length_cons, List.length_append]
      omega

lemma exists_segment (t : List Char) : ∃ seg u, t = seg ++ u ∧
    (∀ c ∈ seg, endsSegment c = false) ∧ ∀ c ∈ u.head?, endsSegment c = true := by
  refine ⟨_, _, (List.takeWhile_append_dropWhile (p := fun c => !endsSegment c)).symm,
    fun c hc => ?_, fun c hc => ?_⟩
  · simpa using List.mem_takeWhile_imp hc
  · have h := List.head?_dropWhile_not (fun c => !endsSegment c) t
    rw [Option.mem_def.1 hc] at h
    simpa using h

/-- Whatever follows, some segments are read out of it. -/
lemma laterSegments_end (t : List Char) (req : Request) :
    ∃ segs u, u.length ≤ t.length ∧ Rounds s laterSegment () t req u (req.receive segs) := by
  induction hn : t.length using Nat.strong_induction_on generalizing t req with
  | _ n ih =>
    have hstop : (∃ v, Rejects s laterSegment () t req v req) → ∃ segs u, u.length ≤ n ∧
        Rounds s laterSegment () t req u (req.receive segs) := by
      rintro ⟨v, hv⟩
      exact ⟨[], t, hn.le, by rw [receive_nil]; exact .stop hv⟩
    by_cases hslash : ∀ c ∈ t.head?, c ≠ '/'
    · exact hstop ⟨t, laterSegment_rejects req hslash⟩
    · obtain ⟨t, rfl⟩ : ∃ t', t = '/' :: t' := by
        cases t with
        | nil => simp at hslash
        | cons c t' => exact ⟨t', by simpa using hslash⟩
      obtain ⟨seg, u, rfl, hseg, hu⟩ := exists_segment t
      by_cases hne : seg = []
      · subst hne
        obtain ⟨v, hv⟩ := segment_rejects req hu
        exact hstop ⟨v, (accepts_match "/").skipMap.chain_rejects (Nat.le_succ _) hv⟩
      · rw [List.length_cons, List.length_append] at hn
        have hlt : u.length < ('/' :: (seg ++ u)).length := by
          rw [List.length_cons, List.length_append]
          omega
        obtain ⟨segs, v, hle, hrounds⟩ :=
          ih u.length (by omega) u (req.call (.onSegmentRecv seg)) rfl
        refine ⟨seg :: segs, v, by omega, ?_⟩
        rw [← receive_cons]
        exact .more (laterSegment_accepts req hne hseg hu) hlt hrounds

/-- The slashes and whitespace `w` are passed over before the first segment. -/
lemma path_accepts (hw : ∀ c ∈ w, (c == '/' || isWS c) = true) (hne : seg ≠ [])
    (hseg : ∀ c ∈ seg, endsSegment c = false) (ht : ∀ c ∈ t.head?, endsSegment c = true)
    (hlater : Rounds s laterSegment () t (req.call (.onSegmentRecv seg)) u (req.receive segs)) :
    Accepts s path m (w ++ (seg ++ t)) req () u (req.receive segs) := by
  have hskip : Takes Request s (.or (.match_ "/") .parseWS) fun c => c == '/' || isWS c :=
    (takes_match rfl).or takes_ws
  have hhead : ∀ c ∈ (seg ++ t).head?, (c == '/' || isWS c) = false := by
    obtain ⟨c, seg, rfl⟩ := List.exists_cons_of_ne_nil hne
    intro d hd
    obtain rfl : c = d := by simpa using hd
    exact (Bool.or_eq_false_iff.1 (hseg c List.mem_cons_self)).1
  have hstart := accepts_ignore.chain (a := m) le_rfl (hskip.rounds req hw hhead).accepts
  have hfirst : Accepts s (.combine segment fun a _ => a) () (seg ++ t) req () t
      (req.call (.onSegmentRecv seg)) := (segment_accepts req hne hseg ht).combine _
  have hsegments := hfirst.chain (by simp) hlater.accepts
  exact hstart.chain (by simp) hsegments.maybe

/-! ### The line -/

lemma query_rejects (req : Request) (hu : ∀ c ∈ u.head?, c ≠ '?') : Rejects s (query s) () u req u req := by
  have hmark : Rejects s (.match_ "?") () u req u req :=
    (takes_match rfl).rejects u req fun c hc => beq_false_of_ne (hu c hc)
  exact hmark.chain.chain

end rules

section line
variable {reads : List Call → Bool} {hash : List Char → UInt64} {fuel : ℕ} {m : Method}
  {segs : List (List Char)} {version line t u : List Char} {req req' : Request}

/-- After the method and the path, only a query is left to look for. -/
lemma readRequestLine_eq (hline : line = m.name.toList ++ t) (hlen : line.length < 2 ^ 32)
    (hfuel : line.length + 1 < fuel) (hpath : Accepts line path m t req () u req') :
    ∃ p, Before line u p ∧ p.res = () ∧ readRequestLine reads fuel line req =
      if reads (req'.call .onPathRecv).calls then
        run line fuel (query line) p (req'.call .onPathRecv) >>= fun x =>
          .ok (x.2.moveTo .headers, false)
      else .ok ((req'.call .onPathRecv).moveTo .headers, false) := by
  have hstart : Before line line (Parser.ofText line : Parser Unit) := by
    refine ⟨?_, rfl, rfl⟩
    show 0 + line.length % 2 ^ 32 = line.length
    rw [Nat.mod_eq_of_lt hlen, zero_add]
  have hmethod : Accepts line method () line req m t req := by
    have h : Accepts line method () (m.name.toList ++ t) req m t req := method_accepts m t req
    rwa [← hline] at h
  obtain ⟨q, hq, hbefore, hres⟩ := hmethod fuel hfuel _ hstart rfl
  have hle : t.length ≤ line.length := by
    rw [hline, List.length_append]
    omega
  obtain ⟨p, hp, hbefore', hres'⟩ := hpath fuel (by omega) q hbefore hres
  refine ⟨p, hbefore', hres', ?_⟩
  rw [readRequestLine, hq, Run.bind_ok]
  dsimp only
  rw [hbefore.err, if_neg Bool.false_ne_true, hp, Run.bind_ok]

/-- The path with at least one segment: nothing of the request changes but the calls and the
state. -/
lemma readLine_segments (hsegs : ∀ seg ∈ segs, IsSegment seg) (hne : segs ≠ [])
    (hstate : req.pstate = .requestLine)
    (hlen : (requestLine m segs version).length < 2 ^ 32)
    (hfuel : (requestLine m segs version).length + 1 < fuel) :
    readLine reads hash fuel (requestLine m segs version) req =
      .ok (((req.receive segs).call .onPathRecv).moveTo .headers, false) := by
  obtain ⟨seg, segs, rfl⟩ := List.exists_cons_of_ne_nil hne
  have hseg := hsegs seg List.mem_cons_self
  have hrest : ∀ c ∈ (" HTTP/".toList ++ version).head?, isWS c = true := by simp [isWS]
  have hlater := laterSegments_rounds (s := requestLine m (seg :: segs) version)
    (req.call (.onSegmentRecv seg)) (fun seg h => hsegs seg (List.mem_cons_of_mem _ h)) hrest
  rw [receive_cons] at hlater
  have hends : ∀ c ∈ (segs.flatMap ('/' :: ·) ++ (" HTTP/".toList ++ version)).head?,
      endsSegment c = true := by
    cases segs <;> simp [endsSegment, isWS]
  have hpath := path_accepts (m := m) (w := [' ', '/']) (by simp [isWS]) hseg.ne_nil hseg.inside
    hends hlater
  have hline : requestLine m (seg :: segs) version = m.name.toList ++ ([' ', '/'] ++
      (seg ++ (segs.flatMap ('/' :: ·) ++ (" HTTP/".toList ++ version)))) := by
    simp [requestLine, pathText]
  obtain ⟨p, hp, hres, hrun⟩ := readRequestLine_eq hline hlen hfuel hpath
  rw [readLine, hstate]
  dsimp only
  rw [hrun]
  split_ifs with hreads
  · have hle : (" HTTP/".toList ++ version).length + 1 < fuel := by
      have h := congrArg List.length hline
      simp only [List.length_append] at h ⊢
      omega
    obtain ⟨q, hq, -⟩ := query_rejects (s := requestLine m (seg :: segs) version)
      (u := " HTTP/".toList ++ version) ((req.receive (seg :: segs)).call .onPathRecv)
      (by simp) fuel hle p hp hres
    rw [hq, Run.bind_ok]
  · rfl

lemma readLine_received (hsegs : ∀ seg ∈ segs, IsSegment seg) (hne : segs ≠ [])
    (hstate : req.pstate = .requestLine)
    (hlen : (requestLine m segs version).length < 2 ^ 32) :
    ReadsTo reads hash (requestLine m segs version) req (Received req segs) :=
  ⟨(requestLine m segs version).length + 2, fun _ hfuel =>
    ⟨_, readLine_segments hsegs hne hstate hlen hfuel, rfl, rfl⟩⟩

/-- The query adds to what the handler has been told. -/
lemma query_told (l : List Call) (s : List Char) :
    (query s).Stable fun req => l <+: req.calls := by
  refine ⟨⟨trivial, fun fuel p st q st' hrun h => ?_⟩, fun x req h => ?_⟩
  · obtain ⟨r, -, hr⟩ := Run.bind_eq_ok.1 hrun
    cases hr
    exact h
  · exact h.trans (List.prefix_append _ _)

/-- Behind a path without segments the protocol is read as one. -/
lemma readLine_protocol (reads : List Call → Bool) (hash : List Char → UInt64) (n : ℕ)
    (hstate : req.pstate = .requestLine)
    (hlen : (requestLine m [] version).length < 2 ^ 32) :
    ∃ fuel ≥ n, ∀ req' err, readLine reads hash fuel (requestLine m [] version) req =
      .ok (req', err) → req.calls ++ [.onSegmentRecv "HTTP".toList] <+: req'.calls := by
  obtain ⟨segs, u, hle, hlater⟩ := laterSegments_end (s := requestLine m [] version)
    ('/' :: version) (req.call (.onSegmentRecv "HTTP".toList))
  rw [receive_cons] at hlater
  have hpath := path_accepts (m := m) (w := [' ', '/', ' ']) (by simp [isWS])
    (show "HTTP".toList ≠ [] by simp) (by simp [endsSegment, isWS]) (by simp [endsSegment]) hlater
  have hline : requestLine m [] version =
      m.name.toList ++ ([' ', '/', ' '] ++ ("HTTP".toList ++ '/' :: version)) := by
    simp [requestLine, pathText]
  have hfuel : (requestLine m [] version).length + 1 <
      n + (requestLine m [] version).length + 2 := by omega
  obtain ⟨p, hp, hres, hrun⟩ := readRequestLine_eq hline hlen hfuel hpath
  refine ⟨n + (requestLine m [] version).length + 2, by omega, fun req' err heq => ?_⟩
  have htold : req.calls ++ [.onSegmentRecv "HTTP".toList] <+:
      ((req.receive ("HTTP".toList :: segs)).call .onPathRecv).calls := by
    refine ⟨segs.map .onSegmentRecv ++ [.onPathRecv], ?_⟩
    simp [Request.receive, Request.call]
  rw [readLine, hstate] at heq
  dsimp only at heq
  rw [hrun] at heq
  split_ifs at heq with hreads
  · obtain ⟨x, hx, heq⟩ := Run.bind_eq_ok.1 heq
    cases heq
    exact run_leaves _ _ _ (query_told _ _) p _ htold x.1 x.2 hx
  · cases heq
    exact htold

/-- No line assigns `method`. -/
lemma readRequestLine_method {err : Bool} (h : req.method = none)
    (hrun : readRequestLine reads fuel line req = .ok (req', err)) : req'.method = none := by
  have hmethod : method.Stable fun req => req.method = none := by
    simp [method, methodNamed, Stable, manyOf]
  have hpath : path.Stable fun req => req.method = none := by
    simp [path, segment, pathTerminator, Stable, manyOf, ParseMap.maybe, ParseMap.separated,
      Request.call]
  have hquery : (query line).Stable fun req => req.method = none := by
    refine ⟨⟨trivial, fun fuel p st q st' hrun h => ?_⟩, fun x req h => h⟩
    obtain ⟨r, -, hr⟩ := Run.bind_eq_ok.1 hrun
    cases hr
    exact h
  obtain ⟨q, hq, hrun⟩ := Run.bind_eq_ok.1 hrun
  have h₁ := run_leaves _ _ _ hmethod _ _ h q.1 q.2 hq
  dsimp only at hrun
  split_ifs at hrun
  · cases hrun
    exact h₁
  · obtain ⟨p, hp, hrun⟩ := Run.bind_eq_ok.1 hrun
    have h₂ := run_leaves _ _ _ hpath _ _ h₁ p.1 p.2 hp
    split_ifs at hrun
    · obtain ⟨x, hx, hrun⟩ := Run.bind_eq_ok.1 hrun
      cases hrun
      exact run_leaves _ _ _ hquery _ (p.2.call .onPathRecv) h₂ x.1 x.2 hx
    · cases hrun
      exact h₂

lemma not_readsTo_method (hstate : req.pstate = .requestLine) (hmethod : req.method = none) :
    ¬ReadsTo reads hash line req fun req' => Received req segs req' ∧ req'.method = some m := by
  rintro ⟨n, hn⟩
  obtain ⟨req', hrun, -, hassigned⟩ := hn n le_rfl
  rw [readLine, hstate] at hrun
  have hnone := readRequestLine_method hmethod hrun
  rw [hnone] at hassigned
  cases hassigned

/-- No request line sets the method of the request. The handler is told exactly of the segments if
there is one. -/
theorem request_line_iff (hsegs : ∀ seg ∈ segs, IsSegment seg)
    (hstate : req.pstate = .requestLine) (hmethod : req.method = none) :
    (¬ReadsTo reads hash (requestLine m segs version) req fun req' =>
      Received req segs req' ∧ req'.method = some m) ∧
    ((requestLine m segs version).length < 2 ^ 32 →
      (ReadsTo reads hash (requestLine m segs version) req (Received req segs) ↔ segs ≠ [])) := by
  refine ⟨not_readsTo_method hstate hmethod, fun hlen => ⟨?_, fun hne => ?_⟩⟩
  · rintro ⟨n, hn⟩ rfl
    obtain ⟨fuel, hfuel, htold⟩ := readLine_protocol reads hash n hstate hlen
    obtain ⟨req', hrun, hreceived⟩ := hn fuel hfuel
    have hcalls := htold req' _ hrun
    rw [hreceived.calls, List.map_nil, List.append_nil, List.prefix_append_right_inj] at hcalls
    simp at hcalls
  · exact readLine_received hsegs hne hstate hlen

end line

/-- `GET /a HTTP/1.1`. -/
theorem request_line_iff_example :
    (¬ReadsTo (fun _ => false) (fun _ => 257) (requestLine .get ["a".toList] "1.1".toList)
      freshConn.req fun req' =>
        Received freshConn.req ["a".toList] req' ∧ req'.method = some .get) ∧
    ReadsTo (fun _ => false) (fun _ => 257) (requestLine .get ["a".toList] "1.1".toList)
      freshConn.req (Received freshConn.req ["a".toList]) := by
  have hsegs : ∀ seg ∈ ["a".toList], IsSegment seg := by
    intro seg hseg
    obtain rfl := List.mem_singleton.1 hseg
    exact ⟨by simp, by simp⟩
  have h := @request_line_iff (fun _ => false) (fun _ => 257) .get ["a".toList] "1.1".toList freshConn.req
    hsegs rfl rfl
  exact ⟨h.1, (h.2 (by decide)).2 (by simp)⟩

/-- `GET / HTTP/1.1` on a new connection. -/
theorem request_method_unset : ¬∀ (m : Method) (segs : List (List Char)) (version : List Char)
    (reads : List Call → Bool) (hash : List Char → UInt64) (req : Request),
    (∀ seg ∈ segs, IsSegment seg) → req.pstate = .requestLine →
    ReadsTo reads hash (requestLine m segs version) req fun req' =>
      Received req segs req' ∧ req'.method = some m := by
  intro h
  have hread := h .get [] "1.1".toList (fun _ => false) (fun _ => 257) freshConn.req (by simp) rfl
  exact not_readsTo_method rfl rfl hread

end CoreCommon.Server
