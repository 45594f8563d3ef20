import CoreCommon.ServerCalls
import CoreCommon.ServerResponse

/-! The handlers of the server: static content, routers and the file server. `files` is what
`fopen` and reading find under a path, `mimeTypes` the table of types. -/
namespace CoreCommon.Server
open Config (cStr)

/-- A factory; a pointer to one may be null. -/
inductive Factory
  | staticContent (resp : Response)
  | router (routes : Map (List Char) (Option Factory) false) (notFound : Option Factory)
  | fileServer (path : List Char)

inductive Handler
  | content
  | router (routes : Map (List Char) (Option Factory) false) (notFound : Option Factory)
  | fileServer (path : List Char)

/-- The handler of a request, its output buffer, and the paths given to `fopen`. -/
structure Session where
  handler : Handler
  toClose : Bool
  output : List Char
  opened : List (List Char)

namespace Session

/-- `Request::respond`. -/
def respond (s : Session) (resp : Response) : Session :=
  if s.toClose then s else { s with toClose := true, output := s.output ++ resp.text }

/-- `Request::handle`; static content responds while its handler is made. -/
def handle (s : Session) : Option Factory → Run Session
  | none => .error .undefined
  | some (.staticContent resp) => .ok { s.respond resp with handler := .content }
  | some (.router routes notFound) => .ok { s with handler := .router routes notFound }
  | some (.fileServer path) => .ok { s with handler := .fileServer path }

end Session

/-- What is behind the last dot, or the whole path. -/
def extension (path : List Char) : List Char := (path.reverse.takeWhile (· ≠ '.')).reverse

section handlers
variable (hash : List Char → UInt64) (fuel : ℕ) (files : List Char → Option (List Char))
  (mimeTypes : List (List Char × List Char))

/-- What `FileServerHandler::on_path_recv` responds with. -/
def fileResponse (path : List Char) : Response :=
  match files (cStr path) with
  | none => .html "not found lmao".toList
  | some data =>
    match mimeTypes.find? fun ty => ty.1 = cStr (extension path) with
    | none => ⟨200, [], .file data⟩
    | some mime => ⟨200, [("Content-Type".toList, ⟨mime.2, []⟩)], .file data⟩

/-- A call to the handler; those not listed do nothing. -/
def Session.onCall (s : Session) (call : Call) : Run Session :=
  match s.handler, call with
  | .router routes notFound, .onSegmentRecv seg => do
    match ← routes.lookup hash fuel seg with
    | some fact => s.handle fact
    | none => s.handle notFound
  | .fileServer path, .onSegmentRecv seg => .ok { s with handler := .fileServer (path ++ seg) }
  | .fileServer path, .onPathRecv =>
    .ok (({ s with opened := s.opened ++ [cStr path] } : Session).respond
      (fileResponse files mimeTypes path))
  | _, _ => .ok s

def Session.serve (s : Session) (calls : List Call) : Run Session :=
  calls.foldlM (fun s call => s.onCall hash fuel files mimeTypes call) s

/-- `handle` on a new request, which has no handler yet. -/
def start (factory : Factory) : Run Session :=
  (⟨.content, false, [], []⟩ : Session).handle (some factory)

/-! ### Where a path leads -/

/-- The factory that a segment leads to. -/
def follow (factory : Factory) (seg : List Char) : Run Factory :=
  match factory with
  | .staticContent resp => .ok (.staticContent resp)
  | .router routes notFound => do
    let found ← routes.lookup hash fuel seg
    match found.getD notFound with
    | some factory => .ok factory
    | none => .error .undefined
  | .fileServer path => .ok (.fileServer (path ++ seg))

def reach (factory : Factory) (segs : List (List Char)) : Run Factory :=
  segs.foldlM (fun factory seg => follow hash fuel factory seg) factory

/-- A request that has been led to a factory, before the end of its path. -/
def led : Factory → Session
  | .staticContent resp => ⟨.content, true, resp.text, []⟩
  | .router routes notFound => ⟨.router routes notFound, false, [], []⟩
  | .fileServer path => ⟨.fileServer path, false, [], []⟩

/-- What a factory answers to the end of its path. -/
def answer : Factory → Session
  | .fileServer path =>
    ⟨.fileServer path, true, (fileResponse files mimeTypes path).text, [cStr path]⟩
  | factory => led factory

end handlers

section serving
variable {hash : List Char → UInt64} {fuel : ℕ} {files : List Char → Option (List Char)}
  {mimeTypes : List (List Char × List Char)} {s : Session}

lemma start_eq (factory : Factory) : start factory = .ok (led factory) := by
  cases factory <;> rfl

/-- Nothing is answered to an error or to the end. -/
lemma onCall_end {call : Call} (hcall : call.IsData = false) :
    s.onCall hash fuel files mimeTypes call = .ok s := by
  unfold Session.onCall
  cases call with
  | onSegmentRecv | onPathRecv | onContentRecv => cases hcall
  | requestParseErr | requestClose => cases s.handler <;> rfl

lemma serve_told (s : Session) (calls : List Call) :
    s.serve hash fuel files mimeTypes calls =
      s.serve hash fuel files mimeTypes (calls.filter Call.IsData) := by
  induction calls generalizing s with
  | nil => rfl
  | cons call calls ih =>
    cases hcall : call.IsData with
    | true =>
      rw [List.filter_cons_of_pos hcall]
      simp only [Session.serve, List.foldlM_cons] at ih ⊢
      exact congrArg _ (funext ih)
    | false =>
      rw [List.filter_cons_of_neg (by rw [hcall]; exact Bool.false_ne_true), ← ih]
      simp only [Session.serve, List.foldlM_cons, onCall_end hcall, Run.bind_ok]

lemma onCall_segment (factory : Factory) (seg : List Char) :
    (led factory).onCall hash fuel files mimeTypes (.onSegmentRecv seg) =
      follow hash fuel factory seg >>= fun factory => .ok (led factory) := by
  cases factory with
  | staticContent resp => rfl
  | fileServer path => rfl
  | router routes notFound =>
    have hhandle : ∀ fact, (led (.router routes notFound)).handle fact =
        (match fact with
          | some factory => (.ok factory : Run Factory)
          | none => .error .undefined) >>= fun factory => .ok (led factory) := by
      intro fact
      cases fact with
      | none => rfl
      | some factory => cases factory <;> rfl
    unfold Session.onCall follow
    dsimp only [led]
    cases hfound : routes.lookup hash fuel seg with
    | error e => rfl
    | ok found =>
      simp only [Run.bind_ok]
      cases found with
      | none => exact hhandle notFound
      | some fact => exact hhandle fact

lemma serve_segments (factory : Factory) (segs : List (List Char)) :
    (led factory).serve hash fuel files mimeTypes (segs.map .onSegmentRecv) =
      reach hash fuel factory segs >>= fun factory => .ok (led factory) := by
  induction segs generalizing factory with
  | nil => rfl
  | cons seg segs ih =>
    unfold Session.serve reach at ih ⊢
    rw [List.map_cons, List.foldlM_cons, List.foldlM_cons, onCall_segment]
    cases follow hash fuel factory seg with
    | error e => rfl
    | ok factory =>
      simp only [Run.bind_ok]
      exact ih factory

lemma onCall_path (factory : Factory) :
    (led factory).onCall hash fuel files mimeTypes .onPathRecv =
      .ok (answer files mimeTypes factory) := by
  cases factory <;> rfl

variable (hash fuel files mimeTypes) in
lemma serve_contents (factory : Factory) (contents : List (Option RequestContent)) :
    (answer files mimeTypes factory).serve hash fuel files mimeTypes
      (contents.map .onContentRecv) = .ok (answer files mimeTypes factory) := by
  induction contents with
  | nil => rfl
  | cons content contents ih =>
    have hcall : (answer files mimeTypes factory).onCall hash fuel files mimeTypes
        (.onContentRecv content) = .ok (answer files mimeTypes factory) := by
      cases factory <;> rfl
    unfold Session.serve at ih ⊢
    rw [List.map_cons, List.foldlM_cons, hcall, Run.bind_ok, ih]

lemma serve_append (s : Session) (l l' : List Call) : s.serve hash fuel files mimeTypes (l ++ l') =
    s.serve hash fuel files mimeTypes l >>= fun s => s.serve hash fuel files mimeTypes l' :=
  List.foldlM_append

/-- A whole path leads to a factory, which answers once. -/
lemma serve_path (factory : Factory) (segs : List (List Char))
    (contents : List (Option RequestContent)) :
    (led factory).serve hash fuel files mimeTypes
      (segs.map .onSegmentRecv ++ .onPathRecv :: contents.map .onContentRecv) =
        reach hash fuel factory segs >>= fun factory => .ok (answer files mimeTypes factory) := by
  rw [serve_append, serve_segments]
  cases reach hash fuel factory segs with
  | error e => rfl
  | ok factory =>
    simp only [Run.bind_ok]
    have hcontents := serve_contents hash fuel files mimeTypes factory contents
    unfold Session.serve at hcontents ⊢
    rw [List.foldlM_cons, onCall_path, Run.bind_ok, hcontents]

end serving

/-! ### Over a run of callbacks -/

section runs
variable (reads : List Call → Bool) (hash : List Char → UInt64) (fuel : ℕ)
  (files : List Char → Option (List Char)) (mimeTypes : List (List Char × List Char))

/-- What the handlers below a factory have made of the calls on a connection. -/
def served (factory : Factory) (c : Conn) : Run Session :=
  start factory >>= fun s => s.serve hash fuel files mimeTypes c.req.calls

variable {reads hash fuel files mimeTypes} {c : Conn} {l : List (Conn × ℕ × Event)}

lemma served_eq (factory : Factory) (c : Conn) : served hash fuel files mimeTypes factory c =
    (led factory).serve hash fuel files mimeTypes c.req.told := by
  rw [served, start_eq, Run.bind_ok, serve_told]
  rfl

variable (hash fuel files mimeTypes) in
/-- What a handler is told leads to one factory, which has answered when the path has ended. -/
lemma served_told (h : c.req.Told) (factory : Factory) :
    (c.req.pstate = .requestLine ∧ c.req.told = [] ∧
      served hash fuel files mimeTypes factory c = .ok (led factory)) ∨
    ∃ segs : List (List Char), (∀ seg ∈ segs, IsSegment seg) ∧
      segs.map .onSegmentRecv ++ [.onPathRecv] <+: c.req.told ∧
      served hash fuel files mimeTypes factory c =
        reach hash fuel factory segs >>= fun factory => .ok (answer files mimeTypes factory) := by
  have hcontent : ∀ {n}, c.req.ToldContent n → ∃ segs : List (List Char),
      (∀ seg ∈ segs, IsSegment seg) ∧ segs.map .onSegmentRecv ++ [.onPathRecv] <+: c.req.told ∧
      served hash fuel files mimeTypes factory c =
        reach hash fuel factory segs >>= fun factory => .ok (answer files mimeTypes factory) := by
    rintro n ⟨segs, contents, hsegs, -, htold⟩
    refine ⟨segs, hsegs, ⟨contents.map .onContentRecv, ?_⟩, ?_⟩
    · rw [htold, List.append_assoc]
      rfl
    · rw [served_eq, htold, serve_path]
  unfold Request.Told at h
  cases hstate : c.req.pstate with
  | requestLine =>
    rw [hstate] at h
    exact .inl ⟨rfl, h, by rw [served_eq, h]; rfl⟩
  | headers | content | done =>
    rw [hstate] at h
    exact .inr (hcontent h)

/-- Nothing has been sent, or one response. -/
def Session.AtMostOnce (s : Session) : Prop :=
  (s.toClose = false ∧ s.output = []) ∨ ∃ resp : Response, s.toClose = true ∧ s.output = resp.text

lemma led_atMostOnce (factory : Factory) : (led factory).AtMostOnce := by
  cases factory with
  | staticContent resp => exact .inr ⟨resp, rfl, rfl⟩
  | router | fileServer => exact .inl ⟨rfl, rfl⟩

lemma answer_atMostOnce (factory : Factory) : (answer files mimeTypes factory).AtMostOnce := by
  cases factory with
  | fileServer path => exact .inr ⟨_, rfl, rfl⟩
  | staticContent | router => exact led_atMostOnce _

/-- Over every run of callbacks, whatever the bytes and however they arrive, and for every tree of
routes: until the request line has been read there is the answer of the first factory alone, and
from then on exactly that of the factory that the segments told lead to. No connection is ever sent
more than one response. -/
theorem served_by_path (h : Trace reads hash l c) (factory : Factory) :
    ((c.req.pstate = .requestLine ∧ c.req.told = [] ∧
      served hash fuel files mimeTypes factory c = .ok (led factory)) ∨
    ∃ segs : List (List Char), (∀ seg ∈ segs, IsSegment seg) ∧
      segs.map .onSegmentRecv ++ [.onPathRecv] <+: c.req.told ∧
      served hash fuel files mimeTypes factory c =
        reach hash fuel factory segs >>= fun factory => .ok (answer files mimeTypes factory)) ∧
    ∀ s, served hash fuel files mimeTypes factory c = .ok s → s.AtMostOnce := by
  have htold := served_told hash fuel files mimeTypes h.told factory
  refine ⟨htold, fun s hs => ?_⟩
  obtain ⟨-, -, hserved⟩ | ⟨segs, -, -, hserved⟩ := htold
  · rw [hserved] at hs
    cases hs
    exact led_atMostOnce factory
  · rw [hserved] at hs
    obtain ⟨factory', -, hs⟩ := Run.bind_eq_ok.1 hs
    cases hs
    exact answer_atMostOnce factory'

/-- `GET /a` to a router without routes and with a page for what is not found. -/
theorem served_by_path_missing :
    let page : Response := .html ['?']
    let factory : Factory :=
      .router ⟨0, [fun _ => 0], List.replicate 16 default⟩ (some (.staticContent page))
    ∃ c s, Trace (fun _ => false) (fun _ => 257) [(freshConn, 30, .read "GET /a\r\n".toList)] c ∧
      served (fun _ => 257) 2 (fun _ => none) [] factory c = .ok s ∧ s.output = page.text ∧
      s.AtMostOnce := by
  intro page factory
  obtain ⟨c, htrace, htold⟩ := exists_trace_get
  have hserved : served (fun _ => 257) 2 (fun _ => none) [] factory c =
      .ok ⟨.content, true, page.text, []⟩ := by
    rw [served_eq, htold]
    rfl
  exact ⟨c, _, htrace, hserved, rfl, (served_by_path htrace factory).2 _ hserved⟩

/-! ### Files -/

lemma reach_fileServer (base : List Char) (segs : List (List Char)) :
    reach hash fuel (.fileServer base) segs = .ok (.fileServer (base ++ segs.flatten)) := by
  induction segs generalizing base with
  | nil => simp [reach]
  | cons seg segs ih =>
    unfold reach at ih ⊢
    rw [List.foldlM_cons, follow, Run.bind_ok, ih, List.flatten_cons, List.append_assoc]

/-- Over every run of callbacks the file server opens at most one file. Its name is the path served
with text behind it that has no slash, no question mark, no white space and no NUL, whatever the
request and however many segments it has; and what is sent is the answer for this name. -/
theorem file_server_confined (h : Trace reads hash l c) {base : List Char}
    (hbase : '\x00' ∉ base) : ∃ s name, served hash fuel files mimeTypes (.fileServer base) c = .ok s ∧
      (∀ ch ∈ name, ch ∉ ['/', '?', ' ', '\r', '\n', '\x00']) ∧
      ((s.opened = [] ∧ s.output = []) ∨ (s.opened = [base ++ name] ∧
        s.output = (fileResponse files mimeTypes (base ++ name)).text)) := by
  obtain ⟨-, -, hserved⟩ | ⟨segs, hsegs, -, hserved⟩ := served_told hash fuel files mimeTypes h.told
    (.fileServer base)
  · exact ⟨_, [], hserved, nofun, .inl ⟨rfl, rfl⟩⟩
  · rw [reach_fileServer, Run.bind_ok] at hserved
    have hname : ∀ ch ∈ segs.flatten, ch ∉ ['/', '?', ' ', '\r', '\n', '\x00'] := by
      intro ch hch
      obtain ⟨seg, hseg, hch⟩ := List.mem_flatten.1 hch
      exact (hsegs seg hseg).chars ch hch
    have hopened : cStr (base ++ segs.flatten) = base ++ segs.flatten := by
      refine List.takeWhile_eq_self_iff.2 fun ch hch => decide_eq_true ?_
      rintro rfl
      obtain hch | hch := List.mem_append.1 hch
      · exact hbase hch
      · exact hname _ hch (by simp)
    refine ⟨_, segs.flatten, hserved, hname, .inr ⟨?_, rfl⟩⟩
    exact congrArg (fun path => [path]) hopened

/-- `GET /a` to a server of `www/` that has this file. -/
theorem file_server_confined_get :
    let files : List Char → Option (List Char) :=
      fun path => if path = "www/a".toList then some ['x'] else none
    ∃ c s name, Trace (fun _ => false) (fun _ => 257) [(freshConn, 30, .read "GET /a\r\n".toList)] c ∧
      served (fun _ => 257) 0 files [] (.fileServer "www/".toList) c = .ok s ∧
      (∀ ch ∈ name, ch ∉ ['/', '?', ' ', '\r', '\n', '\x00']) ∧
      ((s.opened = [] ∧ s.output = []) ∨ (s.opened = ["www/".toList ++ name] ∧
        s.output = (fileResponse files [] ("www/".toList ++ name)).text)) := by
  intro files
  obtain ⟨c, htrace, -⟩ := exists_trace_get
  have hbase : '\x00' ∉ "www/".toList := by decide
  obtain ⟨s, name, h⟩ := @file_server_confined _ _ 0 files [] c _ htrace "www/".toList hbase
  exact ⟨c, s, name, htrace, h⟩

end runs

/-! ### A request and its answer -/

section answers
variable {reads : List Call → Bool} {hash : List Char → UInt64} {fuel : ℕ}
  {files : List Char → Option (List Char)} {mimeTypes : List (List Char × List Char)}
  {m : Method} {segs : List (List Char)} {version : List Char} {c : Conn}

/-- A request line is one line of bytes, and a C string. -/
lemma requestLine_clean (hsegs : ∀ seg ∈ segs, IsSegment seg)
    (hversion : ∀ ch ∈ version, ch ∉ ['\n', '\x00']) :
    ∀ ch ∈ requestLine m segs version, ch ∉ ['\n', '\x00'] := by
  have hpath : ∀ ch ∈ pathText segs, ch ∉ ['\n', '\x00'] := by
    have hslash : '/' ∉ ['\n', '\x00'] := by decide
    intro ch hch
    cases segs with
    | nil =>
      obtain rfl := List.mem_singleton.1 hch
      exact hslash
    | cons seg segs =>
      obtain ⟨seg', hseg', hch⟩ := List.mem_flatMap.1 hch
      obtain rfl | hch := List.mem_cons.1 hch
      · exact hslash
      · intro hmem
        refine (hsegs seg' hseg').chars ch hch ?_
        fin_cases hmem <;> decide
  have hname : ∀ ch ∈ m.name.toList, ch ∉ ['\n', '\x00'] := by
    cases m <;> simp [Method.name]
  have hhttp : ∀ ch ∈ " HTTP/".toList, ch ∉ ['\n', '\x00'] := by simp
  have hblank : ' ' ∉ ['\n', '\x00'] := by decide
  intro ch hch
  simp only [requestLine, List.mem_append, List.mem_cons] at hch
  obtain hch | rfl | (hch | hch) | hch := hch
  · exact hname ch hch
  · exact hblank
  · exact hpath ch hch
  · exact hhttp ch hch
  · exact hversion ch hch

end answers

end CoreCommon.Server
