import CoreCommon.Fault
import CoreCommon.NumberText

/-! The parser combinators. A cursor points into a NUL-terminated text, given by the
characters before the NUL. Lambdas of a parser expression may read and write the
variables they capture, which the run threads as a state `σ`. Loops run on fuel. -/
namespace CoreCommon
open NumberText

inductive ParseStatus
  | none
  | expected
  | unexpected
  | endOfFile
  | error
  | value
  deriving DecidableEq, Repr

/-- `start` and `text` are offsets into the text; `length` is `unsigned`. -/
structure ParserSpan where
  start : ℕ
  text : ℕ
  length : ℕ
  start_le : start ≤ text
  length_lt : length < 2 ^ 32

namespace ParserSpan

/-- `ParserSpan(char const* text)`. -/
def ofText (s : List Char) : ParserSpan := ⟨0, 0, s.length % 2 ^ 32, le_rfl, Nat.mod_lt _ (by decide)⟩

/-- Moving `text` by `n` while `length` loses `n` as an `unsigned`. -/
def advance (p : ParserSpan) (n : ℕ) : ParserSpan :=
  ⟨p.start, p.text + n, (p.length + (2 ^ 32 - n % 2 ^ 32)) % 2 ^ 32,
    p.start_le.trans (Nat.le_add_right _ _), Nat.mod_lt _ (by decide)⟩

/-- `operator+=`, whose argument is `unsigned`. -/
def add (p : ParserSpan) (n : ℕ) : ParserSpan := p.advance (n % 2 ^ 32)

end ParserSpan

structure Parser (R : Type) where
  span : ParserSpan
  res : R
  err : Bool
  stat : ParseStatus
  expected : String

namespace Parser
variable {A B : Type}

/-- `Parser(std::string const&)`. -/
def ofText [Inhabited A] (s : List Char) : Parser A := ⟨.ofText s, default, false, .none, ""⟩

/-- `Parser(Parser<Old> const&, Result)`: the flags start afresh. -/
def withRes (p : Parser A) (res : B) : Parser B := ⟨p.span, res, false, .none, ""⟩

/-- `explicit Parser(Parser<Old> const&)`: the flags are kept and `res` is left default. -/
def cast [Inhabited B] (p : Parser A) : Parser B := ⟨p.span, default, p.err, p.stat, p.expected⟩

/-- Keep the error of `q` in a result of another type, or else return `r`. -/
def unlessErr [Inhabited B] (q : Parser A) (r : Parser B) : Parser B := if q.err then q.cast else r

def withSpan (p : Parser A) (span : ParserSpan) : Parser A := { p with span }

/-- Record the status of a primitive. -/
def expecting (p : Parser A) (stat : ParseStatus) (what : String) : Parser A :=
  { p with stat, expected := what }

def failed (p : Parser A) : Parser A := { p with err := true }

def moved (p : Parser A) (n : ℕ) : Parser A := { p with span := p.span.add n }

end Parser

/-- The parser expressions; the tuple of a `TupleMap` is a right-nested product that ends
in `Unit`, the empty tuple. -/
inductive ParseMap (σ : Type) : Type → Type → Type 1
  | lazyMap {A B : Type} (lzmap : ℕ → Parser A → σ → Run (Parser B × σ)) : ParseMap σ A B
  | resultMap {A B : Type} (resmap : A → σ → B × σ) : ParseMap σ A B
  | errorMap {A : Type} (cond : A → Bool) : ParseMap σ A A
  | ignore {A : Type} : ParseMap σ A Unit
  | tupleLast {A B : Type} [Inhabited B] (head : ParseMap σ A B) : ParseMap σ A (B × Unit)
  | tupleMap {A B C : Type} [Inhabited B] [Inhabited C] (head : ParseMap σ A B)
      (rest : ParseMap σ B C) : ParseMap σ A (B × C)
  | not (inner : ParseMap σ Unit Unit) : ParseMap σ Unit Unit
  | lookAhead {A B : Type} (inner : ParseMap σ A B) : ParseMap σ A B
  | chain {A B C : Type} [Inhabited C] (left : ParseMap σ A B) (right : ParseMap σ B C) :
      ParseMap σ A C
  | combine {A B C : Type} [Inhabited C] (inner : ParseMap σ A B) (resmap : A → B → C) :
      ParseMap σ A C
  | skipMap {A : Type} [Inhabited A] (skip : ParseMap σ Unit Unit) : ParseMap σ A A
  | multiple {A B : Type} [Inhabited B] (min max : ℕ) (inner : ParseMap σ A B) :
      ParseMap σ A (List B)
  | arrayMap {A B : Type} [Inhabited B] (n : ℕ) (inner : ParseMap σ A B) : ParseMap σ A (List B)
  | many {A B : Type} (min max : ℕ) (inner : ParseMap σ A B) : ParseMap σ A Unit
  | or {A B : Type} (left right : ParseMap σ A B) : ParseMap σ A B
  | parseString {A B : Type} (inner : ParseMap σ A B) : ParseMap σ A (List Char)
  | any : ParseMap σ Unit Unit
  | char : ParseMap σ Unit Char
  | parseEOF : ParseMap σ Unit Unit
  | parseWS : ParseMap σ Unit Unit
  | match_ (s : String) : ParseMap σ Unit Unit
  | parseInt : ParseMap σ Unit ℤ
  | parseFloat : ParseMap σ Unit CFloat

namespace ParseMap

/-- `std::numeric_limits<size_t>::max()`. -/
def sizeMax : ℕ := 2 ^ 64 - 1

variable {σ A B C : Type}

/-- `x.skip(y)`. -/
def skip [Inhabited B] (x : ParseMap σ A B) (y : ParseMap σ Unit Unit) : ParseMap σ A B :=
  .chain x (.skipMap y)

/-- `x.maybe()`. -/
def maybe (x : ParseMap σ A B) : ParseMap σ A Unit := .many 0 1 x

/-- `x.separated(sep)`. -/
def separated (x : ParseMap σ Unit Unit) (sep : ParseMap σ Unit Unit) : ParseMap σ Unit Unit :=
  .chain (.combine x fun a _ => a) (.many 0 sizeMax (.chain (.skipMap sep) x))

/-- `Many(x)`. -/
def manyOf (x : ParseMap σ A B) : ParseMap σ A Unit := .many 0 sizeMax x

/-- `Multiple(x)`. -/
def multipleOf [Inhabited B] (x : ParseMap σ A B) : ParseMap σ A (List B) :=
  .multiple 0 sizeMax x

/-! ### Primitives -/

/-- The text from an offset to the NUL; an offset past the NUL cannot be read. -/
def cstr (s : List Char) (i : ℕ) : Run (List Char) :=
  if i ≤ s.length then .ok (s.drop i) else .error .undefined

def deref (s : List Char) (i : ℕ) : Run Char := do
  let t ← cstr s i
  .ok (t.headD '\x00')

def runAny (p : Parser Unit) : Parser Unit :=
  let q := p.expecting .expected "anything"
  if p.span.length = 0 then q.failed else q.moved 1

def runChar (s : List Char) (p : Parser Unit) : Run (Parser Char) :=
  let q : Parser Char := p.cast.expecting .expected "a character"
  if p.span.length = 0 then .ok q.failed
  else do
    let c ← deref s p.span.start
    .ok ({ q with res := c }.moved 1)

def runEOF (p : Parser Unit) : Parser Unit :=
  let q := p.expecting .expected "end of input"
  if q.span.length ≠ 0 then q.failed else q

def runWS (s : List Char) (p : Parser Unit) : Run (Parser Unit) :=
  let q := p.expecting .expected "whitespace"
  if q.span.length = 0 then .ok q.failed
  else do
    let c ← deref s q.span.text
    -- strchr also finds the terminating NUL
    if c ∈ ['\r', '\n', ' ', '\x00'] then .ok (q.moved 1) else .ok q.failed

def runMatch (s : List Char) (m : String) (p : Parser Unit) : Run (Parser Unit) :=
  let q := p.expecting .expected m
  if q.span.length < m.toList.length then .ok q.failed
  else do
    let t ← cstr s q.span.text
    if m.toList.isPrefixOf t then .ok (q.moved m.toList.length) else .ok q.failed

/-- `strtol` and `strtof` move the cursor by pointer difference. -/
def runNumber {N : Type} [Inhabited N] (s : List Char) (read : List Char → N × ℕ)
    (p : Parser Unit) : Run (Parser N) := do
  let t ← cstr s p.span.text
  let r := read t
  let q : Parser N := { (p.cast : Parser N).expecting .value p.expected with res := r.1 }
  if r.2 = 0 then .ok q.failed else .ok { q with span := q.span.advance r.2 }

/-! ### Running -/

/-- The loop of `Many`; `i` is `unsigned`. -/
def manyLoop (inner : Parser A → σ → Run (Parser B × σ)) (min max : ℕ) :
    ℕ → ℕ → Parser A → σ → Run (Parser Unit × σ)
  | 0, _, _, _ => .error .diverges
  | fuel + 1, i, p, st =>
    if i < max then do
      let (q, st) ← inner p st
      if q.err then
        let r : Parser Unit := if i < min then q.cast else p.withRes ()
        .ok (r, st)
      else manyLoop inner min max fuel ((i + 1) % 2 ^ 32) (p.withSpan q.span) st
    else .ok (p.withRes (), st)

/-- The loop of `Multiple`. -/
def multipleLoop (inner : Parser A → σ → Run (Parser B × σ)) (min max : ℕ) :
    ℕ → ℕ → List B → Parser A → σ → Run (Parser (List B) × σ)
  | 0, _, _, _, _ => .error .diverges
  | fuel + 1, i, vec, p, st =>
    if i < max then do
      let (q, st) ← inner p st
      if q.err then
        let r : Parser (List B) := if i < min then q.cast else p.withRes vec
        .ok (r, st)
      else
        multipleLoop inner min max fuel ((i + 1) % 2 ^ 32) (vec ++ [q.res]) (p.withSpan q.span) st
    else .ok (p.withRes vec, st)

/-- The loop of `ArrayMap`, which looks at no error flag. -/
def arrayLoop (inner : Parser A → σ → Run (Parser B × σ)) (n : ℕ) :
    ℕ → ℕ → List B → Parser A → σ → Run (Parser (List B) × σ)
  | 0, _, _, _, _ => .error .diverges
  | fuel + 1, i, arr, p, st =>
    if i < n then do
      let (q, st) ← inner p st
      arrayLoop inner n fuel ((i + 1) % 2 ^ 32) (arr.set i q.res) (p.withSpan q.span) st
    else .ok (p.withRes arr, st)

/-- `expected` and `unexpected` trade places under a negation. -/
def flipStatus : ParseStatus → ParseStatus
  | .expected => .unexpected
  | .unexpected => .expected
  | stat => stat

def run (s : List Char) (fuel : ℕ) {A B : Type} :
    ParseMap σ A B → Parser A → σ → Run (Parser B × σ)
  | .lazyMap lzmap, p, st => lzmap fuel p st
  | .resultMap resmap, p, st => .ok (p.withRes (resmap p.res st).1, (resmap p.res st).2)
  | .errorMap cond, p, st =>
    .ok (if cond p.res then { p with err := true, stat := .error } else p, st)
  | .ignore, p, st => .ok (p.cast, st)
  | @tupleLast _ _ _ _ head, p, st => do
    let (q, st) ← run s fuel head p st
    .ok (q.unlessErr (q.withRes (q.res, ())), st)
  | @tupleMap _ _ B C _ _ head rest, p, st => do
    let (q, st) ← run s fuel head p st
    if q.err then .ok ((q.cast : Parser (B × C)), st)
    else
      let (r, st) ← run s fuel rest q st
      .ok (r.unlessErr (r.withRes (q.res, r.res)), st)
  | .not inner, p, st => do
    let (q, st) ← run s fuel inner p st
    .ok ({ q with stat := flipStatus q.stat, err := !q.err }, st)
  | .lookAhead inner, p, st => do
    let (q, st) ← run s fuel inner p st
    .ok (q.withSpan p.span, st)
  | @chain _ _ _ _ _ left right, p, st => do
    let (q, st) ← run s fuel left p st
    if q.err then .ok (q.cast, st) else run s fuel right q st
  | @combine _ _ _ _ _ inner resmap, p, st => do
    let (q, st) ← run s fuel inner p st
    .ok (q.unlessErr (q.withRes (resmap p.res q.res)), st)
  | @skipMap _ _ _ skip, p, st => do
    let (q, st) ← run s fuel skip (p.withRes ()) st
    .ok (q.unlessErr (q.withRes p.res), st)
  | @multiple _ _ _ _ min max inner, p, st =>
    multipleLoop (fun q => run s fuel inner q) min max fuel 0 (List.replicate min default) p st
  | @arrayMap _ _ _ _ n inner, p, st =>
    arrayLoop (fun q => run s fuel inner q) n fuel 0 (List.replicate n default) p st
  | .many min max inner, p, st => manyLoop (fun q => run s fuel inner q) min max fuel 0 p st
  | .or left right, p, st => do
    let (q, st) ← run s fuel left p st
    if q.err then run s fuel right p st else .ok (q, st)
  | .parseString inner, p, st => do
    let (q, st) ← run s fuel inner p st
    let text := (s.drop p.span.text).take (q.span.text - p.span.text)
    .ok (q.unlessErr (q.withRes text), st)
  | .any, p, st => .ok (runAny p, st)
  | .char, p, st => do .ok (← runChar s p, st)
  | .parseEOF, p, st => .ok (runEOF p, st)
  | .parseWS, p, st => do .ok (← runWS s p, st)
  | .match_ m, p, st => do .ok (← runMatch s m p, st)
  | .parseInt, p, st => do .ok (← runNumber s strtol p, st)
  | .parseFloat, p, st => do .ok (← runNumber s strtof p, st)

/-! ### How sequences, choices and loops go on -/

section steps
variable {s : List Char} {fuel : ℕ} {A B C σ : Type} {p : Parser A} {q : Parser B} {st st' : σ}

lemma run_chain_ok [Inhabited C] {l : ParseMap σ A B} (r : ParseMap σ B C)
    (hq : run s fuel l p st = .ok (q, st')) (herr : q.err = false) :
    run s fuel (.chain l r) p st = run s fuel r q st' := by
  rw [run, hq, Run.bind_ok]
  dsimp only
  rw [herr, if_neg Bool.false_ne_true]

lemma run_chain_err [Inhabited C] {l : ParseMap σ A B} (r : ParseMap σ B C)
    (hq : run s fuel l p st = .ok (q, st')) (herr : q.err = true) :
    run s fuel (.chain l r) p st = .ok (q.cast, st') := by
  rw [run, hq, Run.bind_ok]
  dsimp only
  rw [herr, if_pos rfl]

lemma run_or_ok {l : ParseMap σ A B} (r : ParseMap σ A B)
    (hq : run s fuel l p st = .ok (q, st')) (herr : q.err = false) :
    run s fuel (.or l r) p st = .ok (q, st') := by
  rw [run, hq, Run.bind_ok]
  dsimp only
  rw [herr, if_neg Bool.false_ne_true]

lemma run_or_err {l : ParseMap σ A B} (r : ParseMap σ A B)
    (hq : run s fuel l p st = .ok (q, st')) (herr : q.err = true) :
    run s fuel (.or l r) p st = run s fuel r p st' := by
  rw [run, hq, Run.bind_ok]
  dsimp only
  rw [herr, if_pos rfl]

/-- The loop of `Many` is that of `Multiple` with the results dropped. -/
lemma manyLoop_eq (inner : Parser A → σ → Run (Parser B × σ)) (min max fuel i : ℕ)
    (vec : List B) (p : Parser A) (st : σ) : manyLoop inner min max fuel i p st =
      multipleLoop inner min max fuel i vec p st >>= fun x => .ok ({ x.1 with res := () }, x.2) := by
  induction fuel generalizing i vec p st with
  | zero => rfl
  | succ fuel ih =>
    unfold manyLoop multipleLoop
    by_cases hmax : i < max
    · rw [if_pos hmax, if_pos hmax]
      cases inner p st with
      | error e => rfl
      | ok y =>
        rw [Run.bind_ok, Run.bind_ok]
        dsimp only
        by_cases herr : y.1.err = true
        · rw [if_pos herr, if_pos herr]
          split_ifs <;> rfl
        · rw [if_neg herr, if_neg herr]
          exact ih _ _ _ _
    · rw [if_neg hmax, if_neg hmax]
      rfl

end steps

end ParseMap
end CoreCommon
