import CoreCommon.ServerArrival

/-! The bytes of a response, and a client that reads them. A file is the bytes that it holds. -/
namespace CoreCommon.Server
open NumberText (showLong)
open Config (cStr)

/-- A `MaybeOwnedSlice`, a `FILE*` or `std::monostate`. -/
inductive Content
  | slice (data : List Char)
  | file (data : List Char)
  | empty
  deriving DecidableEq, Repr

structure Response where
  status : ℤ
  headers : List (List Char × Header)
  content : Content
  deriving DecidableEq, Repr

/-- `Response::html`, whose argument is a C string. -/
def Response.html (html : List Char) : Response :=
  ⟨200, [("Content-Type".toList, ⟨"text/html".toList, []⟩)], .slice (cStr html)⟩

def reason : ℤ → String
  | 100 => "Section 10.1.1: Continue"
  | 101 => "Section 10.1.2: Switching Protocols"
  | 200 => "Section 10.2.1: OK"
  | 201 => "Section 10.2.2: Created"
  | 202 => "Section 10.2.3: Accepted"
  | 203 => "Section 10.2.4: Non-Authoritative Information"
  | 204 => "Section 10.2.5: No Content"
  | 205 => "Section 10.2.6: Reset Content"
  | 206 => "Section 10.2.7: Partial Content"
  | 300 => "Section 10.3.1: Multiple Choices"
  | 301 => "Section 10.3.2: Moved Permanently"
  | 302 => "Section 10.3.3: Found"
  | 303 => "Section 10.3.4: See Other"
  | 304 => "Section 10.3.5: Not Modified"
  | 305 => "Section 10.3.6: Use Proxy"
  | 307 => "Section 10.3.8: Temporary Redirect"
  | 400 => "Section 10.4.1: Bad Request"
  | 401 => "Section 10.4.2: Unauthorized"
  | 402 => "Section 10.4.3: Payment Required"
  | 403 => "Section 10.4.4: Forbidden"
  | 404 => "Section 10.4.5: Not Found"
  | 405 => "Section 10.4.6: Method Not Allowed"
  | 406 => "Section 10.4.7: Not Acceptable"
  | 407 => "Section 10.4.8: Proxy Authentication Required"
  | 408 => "Section 10.4.9: Request Time-out"
  | 409 => "Section 10.4.10: Conflict"
  | 410 => "Section 10.4.11: Gone"
  | 411 => "Section 10.4.12: Length Required"
  | 412 => "Section 10.4.13: Precondition Failed"
  | 413 => "Section 10.4.14: Request Entity Too Large"
  | 414 => "Section 10.4.15: Request-URI Too Large"
  | 415 => "Section 10.4.16: Unsupported Media Type"
  | 416 => "Section 10.4.17: Requested range not satisfiable"
  | 417 => "Section 10.4.18: Expectation Failed"
  | 500 => "Section 10.5.1: Internal Server Error"
  | 501 => "Section 10.5.2: Not Implemented"
  | 502 => "Section 10.5.3: Bad Gateway"
  | 503 => "Section 10.5.4: Service Unavailable"
  | 504 => "Section 10.5.5: Gateway Time-out"
  | 505 => "Section 10.5.6: HTTP Version not supported"
  | _ => "???"

/-! ### Writing -/

def Content.data : Content → List Char
  | .slice data => data
  | .file data => data
  | .empty => []

def version : List Char := "HTTP/1.1 ".toList

def lengthName : List Char := "Content-Length".toList

def crlf : List Char := ['\r', '\n']

def statusLine (status : ℤ) : List Char :=
  version ++ showLong status ++ ' ' :: (reason status).toList ++ crlf

def contentLine : Content → List Char
  | .empty => []
  | content => lengthName ++ [':', ' '] ++ Nat.toDigits 10 content.data.length ++ crlf

/-- A header is ended by a semicolon if it has parameters. -/
def fieldLine (hdr : List Char × Header) : List Char :=
  cStr hdr.1 ++ ':' :: cStr hdr.2.val ++
    (hdr.2.extra.flatMap fun extra =>
      ',' :: cStr extra.1 ++ ['=', '"'] ++ cStr extra.2 ++ ['"']) ++
    (if hdr.2.extra = [] then crlf else ';' :: crlf)

/-- What `respond` adds to the output buffer. -/
def Response.text (resp : Response) : List Char :=
  statusLine resp.status ++ contentLine resp.content ++ resp.headers.flatMap fieldLine ++ crlf ++
    resp.content.data

/-! ### A client -/

/-- A line for each name and value. -/
def lineOf (field : List Char × List Char) : List Char := field.1 ++ ':' :: field.2 ++ crlf

/-- What the client sees of a header. -/
def fieldOf (hdr : List Char × Header) : List Char × List Char :=
  (cStr hdr.1, cStr hdr.2.val ++
    (hdr.2.extra.flatMap fun extra =>
      ',' :: cStr extra.1 ++ ['=', '"'] ++ cStr extra.2 ++ ['"']) ++
    if hdr.2.extra = [] then [] else [';'])

def trim (field : List Char × List Char) : List Char × List Char :=
  (field.1, field.2.dropWhile (· = ' '))

section reading
variable {l t rest : List Char} {field : List Char × List Char}
  {fields : List (List Char × List Char)}

lemma fieldLine_eq (hdr : List Char × Header) : fieldLine hdr = lineOf (fieldOf hdr) := by
  unfold fieldLine lineOf fieldOf
  split_ifs <;> simp [crlf]

/-- A line without a line feed is read back whole. -/
lemma readln_crlf (hl : '\n' ∉ l) (rest : List Char) : readln (l ++ crlf ++ rest) = some (l, rest) := by
  refine readln_eq_some.2 ⟨l ++ ['\r'], by simpa using hl, by simp [crlf], ?_⟩
  rw [List.getLast?_concat, if_pos rfl, List.dropLast_concat]

end reading

/-! ### Whole responses -/

def contentFields : Content → List (List Char × List Char)
  | .empty => []
  | content => [(lengthName, ' ' :: Nat.toDigits 10 content.data.length)]

/-- The names and values that a response is sent with. -/
def Response.fields (resp : Response) : List (List Char × List Char) :=
  contentFields resp.content ++ resp.headers.map fieldOf

section response
variable {resp : Response}

def statusText (status : ℤ) : List Char :=
  version ++ showLong status ++ ' ' :: (reason status).toList

/-- A response is its status line, the lines of its fields, an empty line and its data. -/
lemma text_eq (resp : Response) : resp.text = statusText resp.status ++ crlf ++
    (resp.fields.flatMap lineOf ++ crlf ++ resp.content.data) := by
  have hcontent : contentLine resp.content = (contentFields resp.content).flatMap lineOf := by
    cases resp.content <;> simp [contentLine, contentFields, lineOf]
  have hheaders : resp.headers.flatMap fieldLine = (resp.headers.map fieldOf).flatMap lineOf := by
    rw [List.flatMap_map]
    exact congrArg (List.flatMap · resp.headers) (funext fieldLine_eq)
  rw [Response.text, hcontent, hheaders, Response.fields, List.flatMap_append, statusLine, statusText]
  simp only [List.append_assoc, List.cons_append]

end response

end CoreCommon.Server
