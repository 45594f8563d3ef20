import CoreCommon.Config
import CoreCommon.Querystring

/-! One connection of the web server: a request parsed line by line out of the input buffer, and
the callbacks that end it. `reads` is what the handler has left in `read_content` after the calls
made to it, `hash` the `std::hash` of the header names. -/
namespace CoreCommon.Server
open ParseMap Querystring
open Config (cStr)

inductive Method
  | get
  | post
  | head
  | put
  | patch
  | delete
  deriving DecidableEq, Repr, Inhabited

structure Header where
  val : List Char
  extra : List (List Char × List Char)
  deriving DecidableEq, Repr, Inhabited

/-- `name` and `mime` are the texts pointed to, where they have been set. -/
structure MultipartFormData where
  headers : List (List Char × Header)
  name : Option (List Char)
  mime : Option (List Char)
  content : List Char
  deriving DecidableEq, Repr

structure RequestContent where
  contentLength : ℕ
  urlFormdata : List URLFormData
  multipartFormdata : List MultipartFormData
  deriving DecidableEq, Repr

inductive ParsingState
  | requestLine
  | headers
  | content
  | done
  deriving DecidableEq, Repr

/-- A call to the handler, with the content it finds. -/
inductive Call
  | onSegmentRecv (seg : List Char)
  | onPathRecv
  | onContentRecv (content : Option RequestContent)
  | requestParseErr
  | requestClose
  deriving DecidableEq, Repr

/-- `method` has no value until it is assigned. -/
structure Request where
  method : Option Method
  headers : Map (List Char) Header false
  toClose : Bool
  closed : Bool
  content : Option RequestContent
  pstate : ParsingState
  calls : List Call

namespace Request

def call (req : Request) (c : Call) : Request := { req with calls := req.calls ++ [c] }

def moveTo (req : Request) (pstate : ParsingState) : Request := { req with pstate }

/-- `on_content_recv` for the content as it is. -/
def contentRecv (req : Request) : Request := req.call (.onContentRecv req.content)

def setContent (req : Request) (content : RequestContent) : Request :=
  { req with content := some content }

/-- The content length is a `size_t`. -/
def setLength (req : Request) (clength : ℤ) : Request :=
  let contentLength := (clength % 2 ^ 64).toNat
  match req.content with
  | none => req.setContent ⟨contentLength, [], []⟩
  | some content => req.setContent { content with contentLength }

def setFormdata (req : Request) (urlFormdata : List URLFormData) : Request :=
  { req with content := req.content.map fun content => { content with urlFormdata } }

def pushPart (req : Request) (data : MultipartFormData) : Request :=
  { req with content := req.content.map fun content =>
      { content with multipartFormdata := content.multipartFormdata ++ [data] } }

end Request

/-! ### The request line -/

def methodNamed (name : String) (x : Method) : ParseMap Request Unit Method :=
  .chain (.match_ name) (.resultMap fun _ req => (x, req))

/-- Only `GET` may have whitespace before it. -/
def method : ParseMap Request Unit Method :=
  .or
    (.or
      (.or
        (.or
          (.or (.chain (manyOf .parseWS) (methodNamed "GET" .get)) (methodNamed "POST" .post))
          (methodNamed "PATCH" .patch))
        (methodNamed "DELETE" .delete))
      (methodNamed "PUT" .put))
    (methodNamed "HEAD" .head)

def pathTerminator {σ : Type} : ParseMap σ Unit Unit :=
  .or (.or (.match_ "/") .parseWS) (.match_ "?")

def segment : ParseMap Request Unit Unit :=
  .chain (.parseString (.many 1 sizeMax (.chain (.not pathTerminator) .any)))
    (.resultMap fun x req => ((), req.call (.onSegmentRecv x)))

def path : ParseMap Request Method Unit :=
  .chain (.chain .ignore (manyOf (.or (.match_ "/") .parseWS)))
    (ParseMap.maybe (ParseMap.separated segment (.match_ "/")))

/-- `querystring_parse` inside a parser expression. -/
def querystring {σ : Type} (s : List Char) : ParseMap σ Unit (List URLFormData) :=
  .lazyMap fun fuel p st => do
    let (q, _) ← run s fuel (.multiple 1 sizeMax (pair s)) p ()
    .ok (q, st)

def query (s : List Char) : ParseMap Request Unit Unit :=
  .chain (.chain (.match_ "?") (querystring s))
    (.resultMap fun x req => ((), (req.setContent ⟨0, x, []⟩).contentRecv))

/-! ### Headers -/

def contentLength : ParseMap Unit Unit ℤ :=
  .chain (.chain (.match_ "Content-Length:") .parseWS) .parseInt

def valSep {σ : Type} : ParseMap σ Unit Unit := .or (.or .parseWS (.match_ ",")) (.match_ ";")

def spaces {σ : Type} : ParseMap σ Unit Unit := manyOf (.match_ " ")

/-- `parse_val`, which keeps a reference to its argument; none where the argument is gone by the
time the parser runs. -/
def parseVal (str : Option (List Char)) : ParseMap Header Unit Unit :=
  .chain
    (.or
      (.chain (.match_ "\"")
        (ParseMap.skip
          (.parseString
            (.or (manyOf (.chain (.match_ "\\") .any)) (.chain (.not (.match_ "\"")) .any)))
          (.match_ "\"")))
      (.parseString (.many 1 sizeMax (.chain (.not valSep) .any))))
    (.lazyMap fun _ p hdr =>
      match str with
      | some str => .ok (p.withRes (), { hdr with extra := hdr.extra ++ [(str, p.res)] })
      | none => .error .undefined)

def parseValsSep (s : List Char) : ParseMap Header (List Char) Unit :=
  let x : ParseMap Header (List Char) Unit :=
    .chain (.lazyMap fun fuel key hdr => run s fuel (.chain .ignore (parseVal (some key.res))) key hdr)
      spaces
  .chain (.combine x fun key _ => key) (manyOf (.chain (.skipMap (.match_ ",")) x))

/-- The argument of `parse_val` does not outlive this definition. -/
def parseInitValsSep : ParseMap Header Unit Unit :=
  manyOf (.chain (.chain (.chain spaces (.match_ ",")) spaces) (parseVal none))

def parameter (s : List Char) : ParseMap Header Unit Unit :=
  .chain
    (.chain (.chain (.match_ ";") spaces)
      (ParseMap.skip
        (.parseString (manyOf (.chain (.chain (.not .parseWS) (.not (.match_ "="))) .any)))
        (.chain (.chain .parseWS (.match_ "=")) .parseWS)))
    (parseValsSep s)

def parameters (s : List Char) : ParseMap Header (List Char × List Char × Unit) Unit :=
  .chain (.chain .ignore (ParseMap.maybe parseInitValsSep)) (manyOf (parameter s))

/-- `parse_header`; the arguments of the last `Parser` are evaluated from left to right. -/
def parseHeader {σ : Type} (s : List Char) : ParseMap σ Unit (List Char × Header) :=
  .chain
    (.tupleMap (.parseString (manyOf (.chain (.not (.match_ ":")) .any)))
      (.tupleLast
        (.chain (.chain (.chain .ignore (.match_ ":")) .parseWS)
          (.parseString (manyOf (.chain (.not valSep) .any))))))
    (.lazyMap fun fuel p st => do
      let (q, hdr) ← run s fuel (parameters s) p ⟨p.res.2.1, []⟩
      .ok (q.withRes (p.res.1, hdr), st))

/-! ### Multipart content -/

def newl {σ : Type} : ParseMap σ Unit Unit := .or (.match_ "\n") (.match_ "\r\n")

/-- `strncmp(a, b, n) == 0` for the texts that two pointers point to. -/
def sameUpTo (a b : List Char) (n : ℕ) : Bool := (a ++ ['\x00']).take n = (b ++ ['\x00']).take n

/-- Move `res.span` to the next boundary. -/
def seekBoundary (s boundary : List Char) (len : ℕ) : ℕ → ParserSpan → Run ParserSpan
  | 0, _ => .error .diverges
  | fuel + 1, span => do
    let t ← cstr s span.text
    if ¬sameUpTo t boundary len ∧ len ≤ span.length then
      seekBoundary s boundary len fuel (span.advance 1)
    else .ok span

def MultipartFormData.ofHeader (data : MultipartFormData) (hd : List Char × Header) :
    MultipartFormData :=
  if hd.1 = "Content-Type".toList then { data with mime := some (cStr hd.2.val) }
  else if hd.1 = "Content-Disposition".toList then
    match hd.2.extra.find? fun x => x.1 = "name".toList with
    | some x => { data with name := some (cStr x.2) }
    | none => data
  else data

/-- What follows a boundary line. -/
def part (s boundary : List Char) : ParseMap Request Unit Unit :=
  .lazyMap fun fuel p req => do
    let (res, _) ← run s fuel (multipleOf (ParseMap.skip (parseHeader s) newl)) p ()
    let span ← seekBoundary s (cStr boundary) boundary.length fuel res.span
    let content := (s.drop res.span.text).take (span.text - res.span.text)
    let data := res.res.foldl MultipartFormData.ofHeader ⟨res.res, none, none, content⟩
    .ok ((res.withSpan span).withRes (), req.pushPart data)

def multipart (s boundary : List Char) : ParseMap Request Unit Unit :=
  let mark := String.ofList (cStr boundary)
  manyOf
    (.chain
      (.chain
        (.chain (manyOf (.chain (.not (.match_ mark)) .any))
          (ParseMap.skip (.match_ mark) (.match_ "--")))
        newl)
      (part s boundary))

/-! ### Reading

The flag of a result is whether `parse_err` is called next. -/

variable (reads : List Call → Bool) (hash : List Char → UInt64) (fuel : ℕ)

def readRequestLine (line : List Char) (req : Request) : Run (Request × Bool) := do
  let (m, req) ← run line fuel method (.ofText line) req
  if m.err then .ok (req, true)
  else do
    let (p, req) ← run line fuel path m req
    let req := req.call .onPathRecv
    if reads req.calls then do
      let (_, req) ← run line fuel (query line) p req
      .ok (req.moveTo .headers, false)
    else .ok (req.moveTo .headers, false)

def readHeader (line : List Char) (req : Request) : Run (Request × Bool) := do
  let (hdr, _) ← run line fuel (parseHeader line) (.ofText line) ()
  if hdr.err then .ok (req, true)
  else do
    let (headers, _) ← req.headers.insert hash fuel hdr.res.1 hdr.res.2
    .ok ({ req with headers }, false)

def readHeaders (line : List Char) (req : Request) : Run (Request × Bool) :=
  if line.length = 0 then
    .ok (req.moveTo (if req.content.isSome then .content else .done), false)
  else if reads req.calls then do
    let (clength, _) ← run line fuel contentLength (.ofText line) ()
    if clength.err then readHeader hash fuel line req
    else .ok (req.setLength clength.res, false)
  else readHeader hash fuel line req

/-- A pass of the line loop; `line` is the text up to its NUL. -/
def readLine (line : List Char) (req : Request) : Run (Request × Bool) :=
  match req.pstate with
  | .requestLine => readRequestLine reads fuel line req
  | .headers => readHeaders reads hash fuel line req
  | _ => .ok (req, false)

/-- The content has arrived. -/
def readContent (content : List Char) (req : Request) : Run (Request × Bool) := do
  let x := cStr content
  match ← req.headers.lookup hash fuel "Content-Type".toList with
  | none => .ok (req, true)
  | some ctype =>
    if ctype.val = "application/x-www-form-urlencoded".toList then
      if reads req.calls then do
        let (_, req) ← run x fuel
          (.chain (querystring x)
            (.resultMap fun formdata req => ((), (req.setFormdata formdata).contentRecv)))
          (.ofText x) req
        .ok (req.moveTo .done, false)
      else .ok (req.moveTo .done, false)
    else if ctype.val = "multipart/form-data".toList then
      match ctype.extra.find? fun x => x.1 = "boundary".toList with
      | none => .ok (req, true)
      | some boundary => do
        let (parsed, req) ← run x fuel (multipart x boundary.2) (.ofText x) req
        if parsed.err then .ok (req, true) else .ok (req.contentRecv.moveTo .done, false)
    else .ok (req, true)

/-! ### The connection -/

/-- `evbuffer_readln` with `EVBUFFER_EOL_CRLF`: a line without its end, and the bytes behind it. -/
def readln (input : List Char) : Option (List Char × List Char) :=
  let line := input.takeWhile (· ≠ '\n')
  if line.length < input.length then
    some (if line.getLast? = some '\r' then line.dropLast else line, input.drop (line.length + 1))
  else none

/-- `taken` counts the bytes read as lines; `frees` and `deletes` the calls of `bufferevent_free`
and of the destructor. -/
structure Conn where
  req : Request
  input : List Char
  taken : ℕ
  frees : ℕ
  deletes : ℕ

namespace Conn

def withReq (c : Conn) (req : Request) : Conn := { c with req }

def take (c : Conn) (rest : List Char) : Conn :=
  { c with input := rest, taken := c.taken + (c.input.length - rest.length) }

def drain (c : Conn) : Conn := { c with input := [] }

/-- More bytes arrive. -/
def more (c : Conn) (bytes : List Char) : Conn := { c with input := c.input ++ bytes }

/-- `Request::close`. -/
def close (c : Conn) : Conn :=
  { c with req := c.req.call .requestClose, frees := c.frees + 1 }

/-- `delete` of the request; of a request that is gone, with what it held. -/
def destroy (c : Conn) : Conn :=
  let c := if c.req.closed then c else c.close
  { c with deletes := c.deletes + 1 }

/-- `Request::parse_err` over the default `request_parse_err`, which deletes the request. -/
def parseErr (c : Conn) : Conn :=
  (c.withReq (c.req.call .requestParseErr)).destroy.destroy

end Conn

/-- The line loop of `readcb`. -/
def lineLoop : ℕ → Conn → Run (Conn × Bool)
  | 0, _ => .error .diverges
  | steps + 1, c =>
    match readln c.input with
    | none => .ok (c, false)
    | some (line, rest) => do
      let (req, err) ← readLine reads hash fuel (cStr line) c.req
      let c := (c.take rest).withReq req
      if err then .ok (c, true) else lineLoop steps c

/-- `readcb` up to a call of `parse_err`. -/
def receive (c : Conn) : Run (Conn × Bool) :=
  match c.req.pstate with
  | .done => .ok (c.drain, false)
  | .content =>
    match c.req.content with
    | none => .error .undefined
    | some content =>
      if content.contentLength < c.input.length then .ok (c, true)
      else if c.input.length = content.contentLength then do
        let (req, err) ← readContent reads hash fuel c.input c.req
        .ok (c.drain.withReq req, err)
      else .ok (c, false)
  | _ => lineLoop reads hash fuel (c.input.length + 1) c

def readcb (c : Conn) : Run Conn := do
  let (c, err) ← receive reads hash fuel c
  .ok (if err then c.parseErr else c)

/-- `writecb`, where `flush` is what `bufferevent_flush` returns. -/
def writecb (flush : ℤ) (c : Conn) : Conn :=
  if c.req.toClose ∧ ¬c.req.closed ∧ flush ≠ 1 then (c.withReq { c.req with closed := true }).close
  else c

/-- `BEV_EVENT_EOF | BEV_EVENT_ERROR | BEV_EVENT_TIMEOUT`. -/
def bevEnded : ℕ := 0x10 ||| 0x20 ||| 0x40

def eventcb (events : ℕ) (c : Conn) : Conn :=
  if events &&& bevEnded ≠ 0 then c.close.destroy else c

/-- `Request::respond`; what is written is left out. -/
def respond (c : Conn) : Conn := c.withReq { c.req with toClose := true }

/-- `WebServer::accept`. -/
def accept : Run Conn := do
  let headers ← Map.ofCapacity hash 0
  .ok ⟨⟨none, headers, false, false, none, .requestLine, []⟩, [], 0, 0, 0⟩

end CoreCommon.Server
