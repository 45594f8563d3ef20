import CoreCommon.MapInserts
import CoreCommon.ParserMeaning

/-! Configuration files: lines `key = value` read by a grammar into a map of variants, and
written back from the map. -/
namespace CoreCommon.Config
open NumberText ParseMap

/-- `Config::Variant`. -/
inductive Variant
  | float (x : CFloat)
  | string (x : List Char)
  | long (x : ℤ)
  | bool (x : Bool)
  deriving DecidableEq, Repr

instance : Inhabited Variant := ⟨.float default⟩

structure Value where
  isDefault : Bool
  var : Variant
  deriving DecidableEq, Repr, Inhabited

abbrev Values := Map (List Char) Value false

/-! ### The grammar -/

def newline : ParseMap Unit Unit Unit := .many 0 1 (.or (.match_ "\r") (.match_ "\n"))

/-- What the quotes are around: escaped characters, or a lookahead for no quote. -/
def quoted : ParseMap Unit Unit Unit :=
  manyOf (.or (.chain (.match_ "\\") .any) (.not (.match_ "\"")))

def parseQuoted : ParseMap Unit Unit (List Char) :=
  ParseMap.skip (.chain (.match_ "\"") (.parseString quoted)) (.chain (.match_ "\"") newline)

def sep : ParseMap Unit Unit Unit :=
  .chain (.chain (manyOf .parseWS) (.match_ "=")) (manyOf .parseWS)

def key : ParseMap Unit Unit (List Char) :=
  .chain (manyOf .parseWS)
    (ParseMap.skip (.parseString (manyOf (.chain (.not (.lookAhead sep)) .any))) sep)

/-- `Value {.is_default=false, .var=Variant(x)}`. -/
def toValue {A : Type} (f : A → Variant) : ParseMap Unit A Value :=
  .resultMap fun x st => (⟨false, f x⟩, st)

def value : ParseMap Unit Unit Value :=
  .or
    (.or
      (.or (.chain (ParseMap.skip .parseInt newline) (toValue .long))
        (.chain (ParseMap.skip .parseFloat newline) (toValue .float)))
      (ParseMap.skip
        (.or (.chain (.match_ "true") (toValue fun _ => .bool true))
          (.chain (.match_ "false") (toValue fun _ => .bool false))) newline))
    (.chain parseQuoted (toValue .string))

def entry : ParseMap Unit Unit (List Char × Value × Unit) :=
  .tupleMap key (.tupleLast (.chain .ignore value))

def grammar : ParseMap Unit Unit (List (List Char × Value × Unit)) :=
  ParseMap.skip (multipleOf entry) (.chain (manyOf .parseWS) .parseEOF)

/-- The text that `c_str` of a string points to. -/
def cStr (str : List Char) : List Char := str.takeWhile (· ≠ '\x00')

def pairs (l : List (List Char × Value × Unit)) : List (List Char × Value) :=
  l.map fun x => (x.1, x.2.1)

def parse (hash : List Char → UInt64) (fuel : ℕ) (m : Values) (str : List Char) : Run Values := do
  let (parsed, _) ← run (cStr str) fuel grammar (.ofText (cStr str)) ()
  if parsed.err then .ok m else m.insertAll hash fuel (pairs parsed.res)

/-! ### Writing -/

def showVariant : Variant → List Char
  | .bool x => if x then "true".toList else "false".toList
  | .string x => '"' :: x ++ ['"']
  | .float x => showFloat x
  | .long x => showLong x

def showEntry (e : List Char × Value) : List Char :=
  if e.2.isDefault then [] else e.1 ++ " = ".toList ++ showVariant e.2.var ++ ['\n']

def save (fuel : ℕ) (m : Values) : Run (List Char) := do
  let l ← m.walk fuel
  let es ← l.mapM m.bucket
  .ok (es.flatMap showEntry)

/-! ### The text of an entry -/

def isWS (c : Char) : Bool := c ∈ ['\r', '\n', ' ', '\x00']

def skipWS (t : List Char) : List Char := t.dropWhile isWS

/-- The text after a separator. -/
def readSep (t : List Char) : Option (List Char) :=
  if (skipWS t).head? = some '=' then some (skipWS (skipWS t).tail) else none

/-- A key goes on up to the first separator. -/
def readKey : List Char → Option (List Char × List Char)
  | [] => none
  | c :: t =>
    match readSep (c :: t) with
    | some u => some ([], u)
    | none => (readKey t).map fun x => (c :: x.1, x.2)

def readNewline (t : List Char) : List Char :=
  if t.head? = some '\r' ∨ t.head? = some '\n' then t.tail else t

/-- Escaped pairs up to a quote: the pairs and the text after the quote. -/
def readQuoted : List Char → Option (List Char × List Char)
  | '"' :: t => some ([], t)
  | '\\' :: c :: t => (readQuoted t).map fun x => ('\\' :: c :: x.1, x.2)
  | _ => none

def readValue (t : List Char) : Option (Variant × List Char) :=
  if (strtol t).2 ≠ 0 then some (.long (strtol t).1, readNewline (t.drop (strtol t).2))
  else if (strtof t).2 ≠ 0 then some (.float (strtof t).1, readNewline (t.drop (strtof t).2))
  else if "true".toList.isPrefixOf t then some (.bool true, readNewline (t.drop 4))
  else if "false".toList.isPrefixOf t then some (.bool false, readNewline (t.drop 5))
  else if t.head? = some '"' then
    (readQuoted t.tail).map fun x => (.string x.1, readNewline x.2)
  else none

def readEntry (t : List Char) : Option ((List Char × Value) × List Char) :=
  (readKey (skipWS t)).bind fun k =>
    (readValue k.2).map fun v => ((k.1, ⟨false, v.1⟩), v.2)

/-- Some entry that is reached has a quote in front of its value and no escaped pairs up to
another quote behind it. -/
inductive Stalls : List Char → Prop
  | here {t u k} (hkey : readKey (skipWS t) = some (k, '"' :: u)) (hquoted : readQuoted u = none) :
      Stalls t
  | later {t u e} (hentry : readEntry t = some (e, u)) (hrest : Stalls u) : Stalls t

/-! ### Reading gets on -/

lemma skipWS_suffix (t : List Char) : skipWS t <:+ t := List.dropWhile_suffix isWS

lemma readSep_lt {t u : List Char} (h : readSep t = some u) : u <:+ t ∧ u.length < t.length := by
  unfold readSep at h
  split_ifs at h with hsep
  obtain ⟨v, hv⟩ := List.head?_eq_some_iff.1 hsep
  have hsuffix := skipWS_suffix t
  have hsuffix' := skipWS_suffix v
  rw [hv] at h hsuffix
  obtain rfl := Option.some.inj h
  exact ⟨hsuffix'.trans ((List.suffix_cons _ v).trans hsuffix),
    hsuffix'.length_le.trans_lt hsuffix.length_le⟩

lemma readKey_lt {t k u : List Char} (h : readKey t = some (k, u)) :
    u <:+ t ∧ u.length < t.length := by
  induction t generalizing k with
  | nil => cases h
  | cons c t ih =>
    unfold readKey at h
    cases hsep : readSep (c :: t) with
    | some v =>
      rw [hsep] at h
      obtain ⟨-, rfl⟩ := Prod.mk.inj (Option.some.inj h)
      exact readSep_lt hsep
    | none =>
      rw [hsep] at h
      obtain ⟨x, hx, hxu⟩ := Option.map_eq_some_iff.1 h
      obtain ⟨-, rfl⟩ := Prod.mk.inj hxu
      exact ⟨(ih hx).1.trans (List.suffix_cons c t), (ih hx).2.trans (Nat.lt_succ_self _)⟩

lemma readNewline_suffix (t : List Char) : readNewline t <:+ t := by
  unfold readNewline
  split_ifs
  · exact List.tail_suffix t
  · exact List.suffix_rfl

lemma readQuoted_suffix {t b u : List Char} (h : readQuoted t = some (b, u)) : u <:+ t := by
  induction t using readQuoted.induct generalizing b with
  | case1 t =>
    obtain ⟨-, rfl⟩ := Prod.mk.inj (Option.some.inj h)
    exact List.suffix_cons _ _
  | case2 c t ih =>
    obtain ⟨x, hx, hxu⟩ := Option.map_eq_some_iff.1 h
    obtain ⟨-, rfl⟩ := Prod.mk.inj hxu
    exact (ih hx).trans ((List.suffix_cons c t).trans (List.suffix_cons _ _))
  | case3 t hquote hescape => rw [readQuoted.eq_3 t hquote hescape] at h; cases h

lemma readValue_suffix {t u : List Char} {v : Variant} (h : readValue t = some (v, u)) : u <:+ t := by
  have hdrop : ∀ n, readNewline (t.drop n) <:+ t := fun n =>
    (readNewline_suffix _).trans (List.drop_suffix n t)
  unfold readValue at h
  split_ifs at h
  · exact (Prod.mk.inj (Option.some.inj h)).2 ▸ hdrop _
  · exact (Prod.mk.inj (Option.some.inj h)).2 ▸ hdrop _
  · exact (Prod.mk.inj (Option.some.inj h)).2 ▸ hdrop _
  · exact (Prod.mk.inj (Option.some.inj h)).2 ▸ hdrop _
  · obtain ⟨x, hx, hxu⟩ := Option.map_eq_some_iff.1 h
    obtain ⟨-, rfl⟩ := Prod.mk.inj hxu
    exact ((readNewline_suffix _).trans (readQuoted_suffix hx)).trans (List.tail_suffix t)

lemma readEntry_parts {t u : List Char} {e : List Char × Value} (h : readEntry t = some (e, u)) :
    ∃ w, readKey (skipWS t) = some (e.1, w) ∧ readValue w = some (e.2.var, u) := by
  obtain ⟨k, hk, h⟩ := Option.bind_eq_some_iff.1 h
  obtain ⟨v, hv, hvu⟩ := Option.map_eq_some_iff.1 h
  obtain ⟨rfl, rfl⟩ := Prod.mk.inj hvu
  exact ⟨k.2, hk, hv⟩

lemma readEntry_suffix {t u : List Char} {e : List Char × Value} (h : readEntry t = some (e, u)) :
    u <:+ t := by
  obtain ⟨w, hk, hv⟩ := readEntry_parts h
  exact ((readValue_suffix hv).trans (readKey_lt hk).1).trans (skipWS_suffix t)

lemma readEntry_lt {t u : List Char} {e : List Char × Value} (h : readEntry t = some (e, u)) :
    u.length < t.length := by
  obtain ⟨w, hk, hv⟩ := readEntry_parts h
  exact ((readValue_suffix hv).length_le.trans_lt (readKey_lt hk).2).trans_le
    (skipWS_suffix t).length_le

/-- The entries of a text, and the text after them. -/
def readEntries (t : List Char) : List (List Char × Value) × List Char :=
  match _hentry : readEntry t with
  | some (e, u) => (e :: (readEntries u).1, (readEntries u).2)
  | none => ([], t)
termination_by t.length
decreasing_by all_goals exact readEntry_lt _hentry

/-- Nothing but white space is left after the entries. -/
def WellFormed (t : List Char) : Prop := skipWS (readEntries t).2 = []

instance (t : List Char) : Decidable (WellFormed t) := inferInstanceAs (Decidable (_ = _))

end CoreCommon.Config
