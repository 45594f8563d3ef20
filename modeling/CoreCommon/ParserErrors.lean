import CoreCommon.ParserSafety

/-! What `err_string` says of a parser: the rest of the text, the line and column of the
cursor, and a reason that lies in the expression that was run. -/
namespace CoreCommon
open NumberText

/-- `ParserSpan::LineCol`. -/
structure LineCol where
  line : ℕ
  col : ℕ
  deriving DecidableEq, Repr

namespace LineCol

/-- One pass of the loop of `line_col`; both counters are `unsigned`. -/
def read (lc : LineCol) (c : Char) : LineCol :=
  let line := if c = '\n' then (lc.line + 1) % 2 ^ 32 else lc.line
  ⟨line, if line = 1 then (lc.col + 1) % 2 ^ 32 else lc.col⟩

def show_ (lc : LineCol) : List Char := Nat.toDigits 10 lc.line ++ ':' :: Nat.toDigits 10 lc.col

end LineCol

namespace ParserSpan
open ParseMap

/-- The loop of `line_col` with `n` passes left; it runs backwards, down to `start`. -/
def lineColLoop (s : List Char) (start : ℕ) : ℕ → LineCol → Run LineCol
  | 0, lc => .ok lc
  | n + 1, lc => do
    let c ← deref s (start + n)
    lineColLoop s start n (lc.read c)

def lineCol (s : List Char) (p : ParserSpan) : Run LineCol :=
  lineColLoop s p.start (p.text + 1 - p.start) ⟨1, 0⟩

/-- `std::string_view(text, length)`, read as far as its length; the NUL is readable. -/
def view (s : List Char) (p : ParserSpan) : Run (List Char) :=
  if p.text + p.length ≤ s.length + 1 then .ok (((s ++ ['\x00']).drop p.text).take p.length)
  else .error .undefined

/-- `operator<<` on a stream. -/
def show_ (s : List Char) (p : ParserSpan) : Run (List Char) := do
  let lc ← p.lineCol s
  let text ← p.view s
  .ok ('"' :: text ++ "\" (".toList ++ lc.show_ ++ [')'])

end ParserSpan

/-- The characters up to the cursor, which is on one of them or on the NUL. -/
def upTo (s : List Char) (i : ℕ) : List Char := (s ++ ['\x00']).take (i + 1)

/-- The line of the cursor, counted from one, and how many characters it is into that line. -/
def located (s : List Char) (i : ℕ) : LineCol :=
  ⟨1 + (upTo s i).count '\n', ((upTo s i).reverse.takeWhile (· ≠ '\n')).length⟩

namespace ParserSpan
open ParseMap

/-- The text of a span: what is left of the text, and where it begins. -/
def shown (s : List Char) (i : ℕ) : List Char :=
  '"' :: s.drop i ++ "\" (".toList ++ (located s i).show_ ++ [')']

end ParserSpan

/-! ### Reasons -/

/-- What in an expression a status can come from. -/
inductive Cause
  | word (w : String)
  | number
  | negation
  | errorMap
  deriving DecidableEq, Repr

namespace ParseMap
open ParserSpan
variable {σ A B C : Type}

/-- Every status is owed to one of the causes; a failure without a status is a negation's. -/
def Owed (T : List Cause) (q : Parser B) : Prop :=
  match q.stat with
  | .none => q.err = true → .negation ∈ T
  | .expected => .word q.expected ∈ T
  | .unexpected => .word q.expected ∈ T ∧ .negation ∈ T
  | .value => .number ∈ T
  | .error => .errorMap ∈ T
  | .endOfFile => False

/-- The parser is still in the text it was started on, and its status is owed to the causes. -/
structure Told (T : List Cause) (q : Parser B) : Prop where
  start_eq : q.span.start = 0
  owed : Owed T q

namespace Told
variable {T : List Cause} {p : Parser A} {q : Parser B}

lemma withRes (h : p.span.start = 0) (res : B) : Told T (p.withRes res) :=
  ⟨h, fun herr => absurd herr Bool.false_ne_true⟩

lemma cast [Inhabited B] (h : Told T p) : Told T (p.cast : Parser B) := ⟨h.start_eq, h.owed⟩

lemma unlessErr [Inhabited B] (h : Told T p) (res : B) : Told T (p.unlessErr (p.withRes res)) := by
  unfold Parser.unlessErr
  split_ifs
  · exact h.cast
  · exact withRes h.start_eq res

lemma withSpan (h : Told T p) (hq : q.span.start = 0) : Told T (p.withSpan q.span) := ⟨hq, h.owed⟩

/-- A negation turns the flag and the status, and is itself a cause. -/
lemma not (h : Told T p) (hT : .negation ∈ T) :
    Told T { p with stat := flipStatus p.stat, err := !p.err } := by
  obtain ⟨span, res, err, stat, expected⟩ := p
  have howed := h.owed
  refine ⟨h.start_eq, ?_⟩
  cases stat with
  | none => exact fun _ => hT
  | expected => exact ⟨howed, hT⟩
  | unexpected => exact howed.1
  | endOfFile => exact howed
  | error => exact howed
  | value => exact howed

end Told

/-- A run that returns a parser whose status is owed to the causes. -/
def Tells (T : List Cause) : Run (Parser B × σ) → Prop
  | .ok (q, _) => Told T q
  | .error _ => True

lemma Tells.bind {T : List Cause} {x : Run (Parser A × σ)}
    {f : Parser A × σ → Run (Parser B × σ)} (hx : Tells T x)
    (hf : ∀ q st, Told T q → Tells T (f (q, st))) : Tells T (x >>= f) := by
  cases x with
  | ok r => exact hf r.1 r.2 hx
  | error e => trivial

section primitives
variable {s : List Char} {T : List Cause} {p : Parser Unit}

end primitives

/-! ### Loops -/

section loops
variable {T : List Cause} {inner : Parser A → σ → Run (Parser B × σ)}

end loops

/-! ### Whole expressions -/

/-- The messages about a cursor at `i` that the causes allow. -/
inductive Reports (s : List Char) (T : List Cause) (i : ℕ) (err : Bool) : Run (List Char) → Prop
  | nondescript (h : err = true → .negation ∈ T) : Reports s T i err (.ok "nondescript error".toList)
  | expected (w : String) (h : .word w ∈ T) : Reports s T i err
      (.ok ("expected \"".toList ++ w.toList ++ "\", got ".toList ++ shown s i ++ ['.']))
  | unexpected (w : String) (h : .word w ∈ T) (hneg : .negation ∈ T) : Reports s T i err
      (.ok ("unexpected \"".toList ++ w.toList ++ "\" in ".toList ++ shown s i ++ ['.']))
  | value (h : .number ∈ T) :
      Reports s T i err (.ok ("error parsing value at ".toList ++ shown s i ++ ['.']))
  | undefined (h : .errorMap ∈ T) : Reports s T i err (.error .undefined)

end ParseMap
end CoreCommon
