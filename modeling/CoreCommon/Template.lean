import CoreCommon.Fault

/-! Text templates of `template.c`: parsing, the length pass and the writing pass. A C string
is the list of its bytes before the NUL; `unsigned long` lengths are not bounded. The vectors
freed by the writing pass are not read again. -/
namespace CoreCommon

mutual

inductive Template
  | mk (str : List UInt8) (skip maxArgs maxCond maxLoop : ℕ) (substitutions : List Substitution)

/-- A substitution without or with an `insertion`. -/
inductive Substitution
  | arg (idx offset : ℕ) (noescape : Bool)
  | block (idx offset : ℕ) (insertion : Template) (inverted loop : Bool)

end

inductive TemplateArgs
  | mk (condArgs : List ℤ) (loopArgs : List (List TemplateArgs)) (subArgs : List (List UInt8))

namespace TemplateArgs

def condArgs : TemplateArgs → List ℤ
  | .mk condArgs _ _ => condArgs

def loopArgs : TemplateArgs → List (List TemplateArgs)
  | .mk _ loopArgs _ => loopArgs

def subArgs : TemplateArgs → List (List UInt8)
  | .mk _ _ subArgs => subArgs

/-- An array access. -/
def get {α : Type} (l : List α) (idx : ℕ) : Run α :=
  match l[idx]? with
  | some x => .ok x
  | none => .error .undefined

end TemplateArgs

def Substitution.offset : Substitution → ℕ
  | .arg _ offset _ => offset
  | .block _ offset _ _ _ => offset

namespace Template

def bytes (s : String) : List UInt8 := s.toList.map Char.toUInt8

def byte (c : Char) : UInt8 := c.toUInt8

def skip : Template → ℕ
  | .mk _ skip _ _ _ _ => skip

/-! ### Parsing -/

def empty : Template := .mk [] 0 0 0 0 []

/-- `*write_cursor = c; write_cursor++` -/
def write : Template → UInt8 → Template
  | .mk str skip maxArgs maxCond maxLoop subs, c =>
    .mk (str ++ [c]) skip maxArgs maxCond maxLoop subs

def withSkip : Template → ℕ → Template
  | .mk str _ maxArgs maxCond maxLoop subs, skip => .mk str skip maxArgs maxCond maxLoop subs

/-- `c - '0'` as an `unsigned long`; `char` is signed. -/
def index (c : UInt8) : ℕ := ((c.toInt8.toInt - 48) % 2 ^ 64).toNat

def pushArg : Template → UInt8 → Bool → Template
  | .mk str skip maxArgs maxCond maxLoop subs, c, noescape =>
    let idx := index c
    .mk str skip (if idx ≥ maxArgs then (idx + 1) % 2 ^ 64 else maxArgs) maxCond maxLoop
      (subs ++ [.arg idx str.length noescape])

def pushBlock : Template → UInt8 → Bool → Bool → Template → Template
  | .mk str skip maxArgs maxCond maxLoop subs, c, inverted, loop,
      .mk insStr insSkip insArgs insCond insLoop insSubs =>
    let idx := index c
    let next := (idx + 1) % 2 ^ 64
    let (maxCond, maxLoop) :=
      if loop ∧ idx ≥ maxLoop then (maxCond, next)
      else if idx ≥ maxCond then (next, maxLoop)
      else (maxCond, maxLoop)
    .mk str skip (max insArgs maxArgs) (max insCond maxCond) (max insLoop maxLoop)
      (subs ++ [.block idx str.length (.mk insStr insSkip insArgs insCond insLoop insSubs)
        inverted loop])

/-- The loop of `template_new`, `pos` bytes from the start, where `prev` is the byte before the
read cursor. Reading past the NUL is undefined. -/
def scan : ℕ → ℕ → Option UInt8 → List UInt8 → Template → Run Template
  | 0, _, _, _, _ => .error .diverges
  | _ + 1, _, _, [], template => .ok template
  | fuel + 1, pos, prev, c :: rest, template =>
    if c = byte '!' ∧ rest.head? = some (byte '%') then
      if prev = some (byte '!') then
        scan fuel (pos + 2) (some (byte '%')) rest.tail (template.write (byte '%'))
      else .ok (template.withSkip (pos + 2))
    else if c = byte '%' then
      match rest with
      | [] => .error .undefined
      | d :: rest =>
        if d = byte '%' then
          scan fuel (pos + 2) (some d) rest (template.write (byte '%'))
        else if d = byte '!' then
          let loop := rest.head? = some (byte '*')
          let inverted := rest.head? = some (byte '!')
          let flag := if loop ∨ inverted then 1 else 0
          match rest.drop flag with
          | [] => .error .undefined
          | i :: rest => do
            let insertion ← scan fuel 0 none rest empty
            scan fuel (pos + 3 + flag + insertion.skip) (i :: rest)[insertion.skip]?
              (rest.drop insertion.skip) (template.pushBlock i inverted loop insertion)
        else
          let noescape := d = byte '#'
          match if noescape then rest else d :: rest with
          | [] => .error .undefined
          | i :: rest =>
            scan fuel (pos + if noescape then 3 else 2) (some i) rest (template.pushArg i noescape)
    else scan fuel (pos + 1) (some c) rest (template.write c)

def new (fuel : ℕ) (data : List UInt8) : Run Template := scan fuel 0 none data empty

/-! ### The length pass -/

def escapedLength (c : UInt8) : ℕ :=
  if c = byte '<' then (bytes "&lt;").length
  else if c = byte '>' then (bytes "&gt;").length
  else if c = byte '&' then (bytes "&amp;").length
  else if c = byte '\'' then (bytes "&#39;").length
  else if c = byte '"' then (bytes "&quot;").length
  else 1

mutual

/-- `template_length`: the new `*len`. -/
def length : Template → ℕ → TemplateArgs → Run ℕ
  | .mk str _ _ _ _ subs, len, args => lengthAll subs (len + str.length) args

def lengthAll : List Substitution → ℕ → TemplateArgs → Run ℕ
  | [], len, _ => .ok len
  | sub :: subs, len, args => do
    let len ← lengthOne sub len args
    lengthAll subs len args

def lengthOne : Substitution → ℕ → TemplateArgs → Run ℕ
  | .block idx _ insertion inverted loop, len, args =>
    if loop then do
      let vector ← TemplateArgs.get args.loopArgs idx
      vector.foldlM (fun len arg => length insertion len arg) len
    else do
      let cond ← TemplateArgs.get args.condArgs idx
      if inverted ^^ decide (cond = 0) then .ok len else length insertion len args
  | .arg idx _ noescape, len, args => do
    let arg ← TemplateArgs.get args.subArgs idx
    .ok (if noescape then len + arg.length else arg.foldl (fun len c => len + escapedLength c) len)

end

/-! ### The writing pass -/

/-- Memory from `heap`, unset at first, and a cursor into it. -/
structure Out where
  cells : List (Option UInt8)
  pos : ℕ

def Out.put (out : Out) (c : UInt8) : Run Out :=
  if out.pos < out.cells.length then .ok ⟨out.cells.set out.pos (some c), out.pos + 1⟩
  else .error .undefined

def Out.memcpy (out : Out) (text : List UInt8) : Run Out := text.foldlM Out.put out

/-- The bytes from `start` to `stop`; their number is an `unsigned long`, which must not wrap. -/
def slice (str : List UInt8) (start stop : ℕ) : Run (List UInt8) :=
  if start ≤ stop ∧ stop ≤ str.length then .ok ((str.drop start).take (stop - start))
  else .error .undefined

def escaped (c : UInt8) : Option (List UInt8) :=
  if c = byte '<' then some (bytes "&lt;")
  else if c = byte '>' then some (bytes "&gt;")
  else if c = byte '&' then some (bytes "&amp;")
  else if c = byte '"' then some (bytes "&quot;")
  else if c = byte '\'' then some (bytes "&#39;")
  else none

def Out.putEscaped (out : Out) (c : UInt8) : Run Out :=
  match escaped c with
  | some text => out.memcpy text
  | none => out.put c

mutual

/-- `template_substitute`: the new `*out`. -/
def substitute : Template → Out → TemplateArgs → Run Out
  | .mk str _ _ _ _ subs, out, args => substituteAll str subs 0 out args

/-- The loop over the substitutions, with `ptr` bytes of the text written, and what follows. -/
def substituteAll (str : List UInt8) : List Substitution → ℕ → Out → TemplateArgs → Run Out
  | [], ptr, out, _ => do
    let rest ← slice str ptr str.length
    out.memcpy rest
  | sub :: subs, ptr, out, args => do
    let before ← slice str ptr sub.offset
    let out ← out.memcpy before
    let out ← substituteOne sub out args
    substituteAll str subs sub.offset out args

def substituteOne : Substitution → Out → TemplateArgs → Run Out
  | .block idx _ insertion inverted loop, out, args =>
    if loop then do
      let vector ← TemplateArgs.get args.loopArgs idx
      vector.foldlM (fun out arg => substitute insertion out arg) out
    else do
      let cond ← TemplateArgs.get args.condArgs idx
      if inverted ^^ decide (cond = 0) then .ok out else substitute insertion out args
  | .arg idx _ noescape, out, args => do
    let arg ← TemplateArgs.get args.subArgs idx
    if noescape then out.memcpy arg else arg.foldlM Out.putEscaped out

end

/-- `do_template_va` with its arguments read: the memory that it returns. -/
def doTemplate (template : Template) (args : TemplateArgs) : Run (List (Option UInt8)) := do
  let len ← template.length 0 args
  let out ← template.substitute ⟨List.replicate (len + 1) none, 0⟩ args
  if len < out.cells.length then .ok (out.cells.set len (some 0)) else .error .undefined

end Template
end CoreCommon
