import CoreCommon.ParserValues

/-! Form decoding with `querystring_parse`. The length of a parser's match is the distance of
two `start` pointers, which no parser moves, and the decoded text is copied before it is read. -/
namespace CoreCommon
open ParserSpan ParseMap

namespace Querystring

structure URLFormData where
  name : List Char
  value : List Char
  deriving DecidableEq, Repr, Inhabited

def hexchar (hex : Char) : ℕ :=
  if '0' ≤ hex ∧ hex ≤ '9' then hex.toNat - '0'.toNat
  else if 'A' ≤ hex ∧ hex ≤ 'F' then hex.toNat - 'A'.toNat + 10
  else if 'a' ≤ hex ∧ hex ≤ 'f' then hex.toNat - 'a'.toNat + 10
  else 0

/-- `querystring_terminator`. -/
def terminator {σ : Type} : ParseMap σ Unit Unit :=
  .chain (.chain (.not .parseWS) (.not (.match_ "&"))) (.not (.match_ "="))

/-- What one character stands for, appended to the captured string `decoded`. -/
def decodeChar : ParseMap (List Char) Unit Unit :=
  .or
    (.or (.chain (.match_ "+") (.resultMap fun _ decoded => ((), decoded ++ [' '])))
      (.chain (.chain (.chain (.chain (.match_ "%") (.arrayMap 2 .char))
        (.resultMap fun x decoded =>
          (Char.ofNat (hexchar (x.getD 0 '\x00') * 16 + hexchar (x.getD 1 '\x00')), decoded)))
        (.errorMap fun x => x = '\x00')) .ignore))
    (.chain .char (.resultMap fun x decoded => ((), decoded ++ [x])))

/-- The last `ResultMap` has the value that `decoded` has before the run. -/
def percentDecode (s : List Char) (fuel : ℕ) (p : Parser Unit) : Run (Parser (List Char)) := do
  let n ← ParseMap.length s fuel (.manyOf (.chain terminator .any)) p ()
  let decoded := List.replicate n '\x00'
  let (q, _) ← run s fuel
    (.chain (.manyOf (.chain terminator decodeChar)) (.resultMap fun _ st => (decoded, st))) p decoded
  .ok q

def dec (s : List Char) : ParseMap Unit Unit (List Char) :=
  .lazyMap fun fuel p st => do
    let q ← percentDecode s fuel p
    .ok (q, st)

/-- One pair and the lookahead behind it. -/
def pair (s : List Char) : ParseMap Unit Unit URLFormData :=
  ParseMap.skip
    (.chain (.tupleMap (dec s) (.tupleLast (.chain (.chain .ignore (.match_ "=")) (dec s))))
      (.resultMap fun x st => (⟨x.1, x.2.1⟩, st)))
    terminator

/-- `querystring_parse` on a text. -/
def querystringParse (s : List Char) (fuel : ℕ) : Run (Parser (List URLFormData) × Unit) :=
  run s fuel (.multiple 1 sizeMax (pair s)) (.ofText s) ()

/-! ### The standard encoding -/

def hexDigit (n : ℕ) : Char := Char.ofNat (if n < 10 then '0'.toNat + n else 'A'.toNat + (n - 10))

def encodeChar (c : Char) : List Char :=
  if c.isAlphanum then [c]
  else if c = ' ' then ['+']
  else ['%', hexDigit (c.toNat / 16 % 16), hexDigit (c.toNat % 16)]

def encodePair (x : URLFormData) : List Char :=
  x.name.flatMap encodeChar ++ '=' :: x.value.flatMap encodeChar

def encode (l : List URLFormData) : List Char := ['&'].intercalate (l.map encodePair)

/-! ### What is decoded -/

section decoded
variable {s : List Char} {fuel : ℕ}

/-- No lambda of what finds the end of a text produces a parser, so its length is always zero. -/
lemma lazyFree_text : (.manyOf (.chain terminator .any) : ParseMap Unit Unit Unit).LazyFree := by
  unfold manyOf terminator
  exact ⟨⟨⟨trivial, trivial⟩, trivial⟩, trivial⟩

lemma percentDecode_eq (fuel : ℕ) (p : Parser Unit) : percentDecode s fuel p =
    (ParseMap.length s fuel (.manyOf (.chain terminator .any)) p () >>= fun _ =>
      run s fuel (.manyOf (.chain terminator decodeChar)) p [] >>= fun x =>
        .ok (if x.1.err then x.1.cast else x.1.withRes [])) := by
  unfold percentDecode
  cases hlen : ParseMap.length s fuel (.manyOf (.chain terminator .any)) p () with
  | error e => rfl
  | ok n =>
    obtain rfl := length_eq_zero lazyFree_text hlen
    rw [Run.bind_ok, Run.bind_ok]
    dsimp only
    rw [run]
    cases hrun : run s fuel (.manyOf (.chain terminator decodeChar)) p [] with
    | error e =>
      simp only [List.replicate_zero, hrun]
      rfl
    | ok x =>
      simp only [List.replicate_zero, hrun, Run.bind_ok]
      by_cases herr : x.1.err = true
      · rw [if_pos herr, if_pos herr]
        rfl
      · rw [if_neg herr, if_neg herr]
        rfl

lemma percentDecode_res {p : Parser Unit} {q : Parser (List Char)}
    (hrun : percentDecode s fuel p = .ok q) (herr : q.err = false) : q.res = [] := by
  rw [percentDecode_eq] at hrun
  obtain ⟨n, -, hrun⟩ := Run.bind_eq_ok.1 hrun
  obtain ⟨x, -, hrun⟩ := Run.bind_eq_ok.1 hrun
  obtain rfl := Except.ok.inj hrun
  split_ifs at herr ⊢ with hx
  · exact absurd (hx.symm.trans herr) (by decide)
  · rfl

section success
variable {σ A B C : Type} {p : Parser A} {st st' : σ}

lemma unlessErr_success [Inhabited B] {q : Parser A} {r r' : Parser B} (h : q.unlessErr r = r')
    (herr : r'.err = false) : q.err = false ∧ r' = r := by
  unfold Parser.unlessErr at h
  split_ifs at h with hq
  · exact absurd ((congrArg Parser.err h).trans herr) (by simp [Parser.cast, hq])
  · exact ⟨Bool.not_eq_true _ ▸ hq, h.symm⟩

lemma chain_success [Inhabited C] {l : ParseMap σ A B} {r : ParseMap σ B C} {q : Parser C}
    (hrun : run s fuel (.chain l r) p st = .ok (q, st')) (herr : q.err = false) :
    ∃ q₁ st₁, run s fuel l p st = .ok (q₁, st₁) ∧ q₁.err = false ∧
      run s fuel r q₁ st₁ = .ok (q, st') := by
  unfold run at hrun
  obtain ⟨⟨q₁, st₁⟩, hq, hrun⟩ := Run.bind_eq_ok.1 hrun
  dsimp only at hrun
  split_ifs at hrun with hq₁
  · obtain ⟨rfl, -⟩ := Prod.mk.inj (Except.ok.inj hrun)
    exact absurd (hq₁.symm.trans herr) (by decide)
  · exact ⟨q₁, st₁, hq, Bool.not_eq_true _ ▸ hq₁, hrun⟩

lemma tupleLast_success [Inhabited B] {head : ParseMap σ A B} {q : Parser (B × Unit)}
    (hrun : run s fuel (.tupleLast head) p st = .ok (q, st')) (herr : q.err = false) :
    ∃ q₁, run s fuel head p st = .ok (q₁, st') ∧ q₁.err = false ∧ q = q₁.withRes (q₁.res, ()) := by
  unfold run at hrun
  obtain ⟨⟨q₁, st₁⟩, hq, hrun⟩ := Run.bind_eq_ok.1 hrun
  obtain ⟨hq₁, rfl⟩ := Prod.mk.inj (Except.ok.inj hrun)
  obtain ⟨herr₁, rfl⟩ := unlessErr_success hq₁ herr
  exact ⟨q₁, hq, herr₁, rfl⟩

lemma tupleMap_success [Inhabited B] [Inhabited C] {head : ParseMap σ A B} {rest : ParseMap σ B C}
    {q : Parser (B × C)} (hrun : run s fuel (.tupleMap head rest) p st = .ok (q, st'))
    (herr : q.err = false) : ∃ q₁ st₁ r, run s fuel head p st = .ok (q₁, st₁) ∧ q₁.err = false ∧
      run s fuel rest q₁ st₁ = .ok (r, st') ∧ r.err = false ∧ q = r.withRes (q₁.res, r.res) := by
  unfold run at hrun
  obtain ⟨⟨q₁, st₁⟩, hq, hrun⟩ := Run.bind_eq_ok.1 hrun
  dsimp only at hrun
  split_ifs at hrun with hq₁
  · obtain ⟨rfl, -⟩ := Prod.mk.inj (Except.ok.inj hrun)
    exact absurd (hq₁.symm.trans herr) (by decide)
  · obtain ⟨⟨r, st₂⟩, hr, hrun⟩ := Run.bind_eq_ok.1 hrun
    obtain ⟨hr₁, rfl⟩ := Prod.mk.inj (Except.ok.inj hrun)
    obtain ⟨herr₁, rfl⟩ := unlessErr_success hr₁ herr
    exact ⟨q₁, st₁, r, hq, Bool.not_eq_true _ ▸ hq₁, hr, herr₁, rfl⟩

lemma skipMap_success [Inhabited A] {skip : ParseMap σ Unit Unit} {q : Parser A}
    (hrun : run s fuel (.skipMap skip) p st = .ok (q, st')) (herr : q.err = false) :
    ∃ q₁, run s fuel skip (p.withRes ()) st = .ok (q₁, st') ∧ q₁.err = false ∧
      q = q₁.withRes p.res := by
  unfold run at hrun
  obtain ⟨⟨q₁, st₁⟩, hq, hrun⟩ := Run.bind_eq_ok.1 hrun
  obtain ⟨hq₁, rfl⟩ := Prod.mk.inj (Except.ok.inj hrun)
  obtain ⟨herr₁, rfl⟩ := unlessErr_success hq₁ herr
  exact ⟨q₁, hq, herr₁, rfl⟩

end success

lemma dec_success {p : Parser Unit} {q : Parser (List Char)} {st st' : Unit}
    (hrun : run s fuel (dec s) p st = .ok (q, st')) : percentDecode s fuel p = .ok q := by
  obtain ⟨q₁, hq, hrun⟩ := Run.bind_eq_ok.1 (hrun : (percentDecode s fuel p >>= fun q =>
    (.ok (q, st) : Run (Parser (List Char) × Unit))) = .ok (q, st'))
  obtain ⟨rfl, -⟩ := Prod.mk.inj (Except.ok.inj hrun)
  exact hq

/-- The two decodings of a pair, and the lookahead behind it. -/
lemma pair_success {p : Parser Unit} {q : Parser URLFormData} {st st' : Unit}
    (hrun : run s fuel (pair s) p st = .ok (q, st')) (herr : q.err = false) :
    ∃ name eq value stop, percentDecode s fuel p = .ok name ∧ name.err = false ∧
      run s fuel (.match_ "=") (name.cast) () = .ok (eq, ()) ∧ eq.err = false ∧
      percentDecode s fuel eq = .ok value ∧ value.err = false ∧
      run s fuel terminator (value.withRes ()) () = .ok (stop, ()) ∧ stop.err = false ∧
      q = stop.withRes ⟨name.res, value.res⟩ := by
  obtain ⟨q₁, _, hq₁, herr₁, hskip⟩ := chain_success hrun herr
  obtain ⟨stop, hstop, hstopErr, rfl⟩ := skipMap_success hskip herr
  obtain ⟨q₂, _, hq₂, herr₂, hmap⟩ := chain_success hq₁ herr₁
  obtain ⟨name, _, r, hname, hnameErr, hr, hrErr, rfl⟩ := tupleMap_success hq₂ herr₂
  obtain ⟨value, hvalue, hvalueErr, rfl⟩ := tupleLast_success hr hrErr
  obtain ⟨eq, _, heq, heqErr, hvalue⟩ := chain_success hvalue hvalueErr
  obtain ⟨ig, _, hig, -, heq⟩ := chain_success heq heqErr
  obtain ⟨rfl, -⟩ := Prod.mk.inj (Except.ok.inj hig)
  obtain ⟨rfl, -⟩ := Prod.mk.inj (Except.ok.inj hmap)
  exact ⟨name, eq, value, stop, dec_success hname, hnameErr, heq, heqErr, dec_success hvalue,
    hvalueErr, hstop, hstopErr, rfl⟩

/-- A pair that is read has an empty name and an empty value. -/
lemma pair_res {p : Parser Unit} {q : Parser URLFormData} {st st' : Unit}
    (hrun : run s fuel (pair s) p st = .ok (q, st')) (herr : q.err = false) : q.res = ⟨[], []⟩ := by
  obtain ⟨name, eq, value, stop, hname, hnameErr, -, -, hvalue, hvalueErr, -, -, rfl⟩ :=
    pair_success hrun herr
  exact congrArg₂ URLFormData.mk (percentDecode_res hname hnameErr)
    (percentDecode_res hvalue hvalueErr)

/-- What a successful run of the loop has pushed. -/
lemma multipleLoop_res {A B σ : Type} [Inhabited B] {inner : Parser A → σ → Run (Parser B × σ)} {b : B}
    (hinner : ∀ p st q st', inner p st = .ok (q, st') → q.err = false → q.res = b) {max i : ℕ}
    {vec : List B} {p : Parser A} {st st' : σ} {q : Parser (List B)} {fuel : ℕ}
    (hrun : multipleLoop inner 1 max fuel i vec p st = .ok (q, st')) (herr : q.err = false) :
    ∃ k, q.res = vec ++ List.replicate k b ∧ (i = 0 → 0 < max → 0 < k) := by
  induction fuel generalizing i vec p st with
  | zero => cases hrun
  | succ fuel ih =>
    unfold multipleLoop at hrun
    by_cases hmax : i < max
    · rw [if_pos hmax] at hrun
      obtain ⟨⟨q₁, st₁⟩, hq, hrun⟩ := Run.bind_eq_ok.1 hrun
      dsimp only at hrun
      by_cases hq₁ : q₁.err = true
      · rw [if_pos hq₁] at hrun
        obtain ⟨rfl, -⟩ := Prod.mk.inj (Except.ok.inj hrun)
        split_ifs at herr ⊢ with hi
        · exact absurd (hq₁.symm.trans herr) (by decide)
        · exact ⟨0, (List.append_nil _).symm, fun h => by omega⟩
      · rw [if_neg hq₁] at hrun
        obtain ⟨k, hk, -⟩ := ih hrun
        rw [hinner p st q₁ st₁ hq (Bool.not_eq_true _ ▸ hq₁)] at hk
        refine ⟨k + 1, ?_, fun _ _ => Nat.succ_pos k⟩
        rw [hk, List.append_assoc, List.replicate_succ]
        rfl
    · rw [if_neg hmax] at hrun
      obtain ⟨rfl, -⟩ := Prod.mk.inj (Except.ok.inj hrun)
      exact ⟨0, (List.append_nil _).symm, fun h h' => by omega⟩

/-- A text that is read gives one default element and then empty pairs, at least one. -/
lemma querystringParse_res {q : Parser (List URLFormData)} {st : Unit}
    (hrun : querystringParse s fuel = .ok (q, st)) (herr : q.err = false) :
    ∃ k > 0, q.res = List.replicate (k + 1) ⟨[], []⟩ := by
  obtain ⟨k, hk, hpos⟩ := multipleLoop_res (fun p st q st' h he => pair_res h he) hrun herr
  exact ⟨k, hpos rfl (by decide), hk⟩

/-! ### At a separator -/

/-- At the end of the input, or at a character that the lookahead rejects. -/
def Blocked (s : List Char) (p : Parser Unit) : Prop :=
  p.span.length = 0 ∨ p.span.text ≤ s.length ∧
    ((s.drop p.span.text).head? = some '&' ∨ (s.drop p.span.text).head? = some '=')

section blocked
variable {σ : Type} {p : Parser Unit} {st : σ}

lemma terminator_end (s : List Char) (fuel : ℕ) (st : σ) (hend : p.span.length = 0) :
    ∃ q : Parser Unit, run s fuel terminator p st = .ok (q, st) ∧ q.err = false ∧ q.span = p.span := by
  simp [terminator, run, runWS, runMatch, Parser.expecting, hend, Parser.failed]

lemma terminator_rejects (fuel : ℕ) (st : σ) (hlen : p.span.length ≠ 0) (herr : p.err = false)
    (hle : p.span.text ≤ s.length) (hc : (s.drop p.span.text).head? = some '&' ∨
      (s.drop p.span.text).head? = some '=') :
    ∃ q : Parser Unit, run s fuel terminator p st = .ok (q, st) ∧ q.err = true := by
  obtain ⟨c, rest, hrest⟩ : ∃ c rest, s.drop p.span.text = c :: rest := by
    cases hdrop : s.drop p.span.text with
    | nil => simp [hdrop] at hc
    | cons c rest => exact ⟨c, rest, rfl⟩
  have hone : ¬ p.span.length < 1 := by omega
  rw [hrest] at hc
  rcases hc with hc | hc
  · obtain rfl : c = '&' := by simpa using hc
    simp [terminator, run, runWS, runMatch, deref, cstr, Parser.expecting, hle, hlen, hrest,
      Parser.failed, herr, Parser.moved, Parser.cast]
  · obtain rfl : c = '=' := by simpa using hc
    simp [terminator, run, runWS, runMatch, deref, cstr, Parser.expecting, hle, hlen, hrest,
      Parser.failed, herr, Parser.moved]

lemma decodeChar_end (s : List Char) (fuel : ℕ) (decoded : List Char) (hend : p.span.length = 0) :
    ∃ q, run s fuel decodeChar p decoded = .ok (q, decoded) ∧ q.err = true := by
  simp [decodeChar, run, runMatch, runChar, Parser.expecting, hend, Parser.failed, Parser.cast]

lemma decode_blocked (fuel : ℕ) (decoded : List Char) (herr : p.err = false) (hp : Blocked s p) :
    ∃ q, run s fuel (.chain terminator decodeChar) p decoded = .ok (q, decoded) ∧ q.err = true := by
  by_cases hend : p.span.length = 0
  · obtain ⟨q, hq, hqErr, hspan⟩ := terminator_end s fuel decoded hend
    obtain ⟨r, hr, hrErr⟩ := decodeChar_end (p := q) s fuel decoded (hspan ▸ hend)
    exact ⟨r, (run_chain_ok decodeChar hq hqErr).trans hr, hrErr⟩
  · rcases hp with hp | ⟨hle, hc⟩
    · exact absurd hp hend
    · obtain ⟨q, hq, hqErr⟩ := terminator_rejects fuel decoded hend herr hle hc
      exact ⟨q.cast, run_chain_err decodeChar hq hqErr, hqErr⟩

/-- There is nothing to decode, and the cursor stays. -/
lemma percentDecode_blocked {q : Parser (List Char)} (herr : p.err = false) (hp : Blocked s p)
    (hrun : percentDecode s fuel p = .ok q) : q.span = p.span := by
  rw [percentDecode_eq] at hrun
  obtain ⟨n, -, hrun⟩ := Run.bind_eq_ok.1 hrun
  obtain ⟨x, hx, hrun⟩ := Run.bind_eq_ok.1 hrun
  obtain rfl := Except.ok.inj hrun
  unfold manyOf run at hx
  obtain ⟨q₁, hq₁, hq₁Err⟩ := decode_blocked fuel [] herr hp
  cases fuel with
  | zero => cases hx
  | succ fuel =>
    unfold manyLoop at hx
    rw [if_pos (by decide), hq₁, Run.bind_ok] at hx
    dsimp only at hx
    rw [if_pos hq₁Err, if_neg (Nat.not_lt_zero 0)] at hx
    obtain rfl := Except.ok.inj hx
    rfl

lemma match_success {m : String} {q : Parser Unit} {st' : σ}
    (hrun : run s fuel (.match_ m) p st = .ok (q, st')) (herr : q.err = false) :
    m.toList.length ≤ p.span.length ∧ q.span = p.span.add m.toList.length := by
  obtain ⟨r, hr, hrun⟩ := Run.bind_eq_ok.1 hrun
  obtain ⟨rfl, -⟩ := Prod.mk.inj (Except.ok.inj hrun)
  unfold runMatch at hr
  dsimp only at hr
  by_cases hlen : (p.expecting .expected m).span.length < m.toList.length
  · rw [if_pos hlen] at hr
    rw [← Except.ok.inj hr] at herr
    cases herr
  · rw [if_neg hlen] at hr
    obtain ⟨t, -, hr⟩ := Run.bind_eq_ok.1 hr
    split_ifs at hr
    · exact ⟨not_lt.1 hlen, Except.ok.inj hr ▸ rfl⟩
    · rw [← Except.ok.inj hr] at herr
      cases herr

/-- Where nothing is left no pair is read. -/
lemma pair_end {q : Parser URLFormData} {st st' : Unit} (herr : p.err = false)
    (hend : p.span.length = 0) (hrun : run s fuel (pair s) p st = .ok (q, st')) : q.err = true := by
  by_contra hq
  obtain ⟨name, eq, -, -, hname, -, heq, heqErr, -⟩ := pair_success hrun (Bool.not_eq_true _ ▸ hq)
  have hspan := percentDecode_blocked herr (.inl hend) hname
  have hle := (match_success heq heqErr).1
  have hlen : (name.cast : Parser Unit).span.length = 0 := hspan ▸ hend
  rw [hlen] at hle
  exact absurd hle (by decide)

end blocked

/-! ### The property -/

/-- A list of empty pairs. -/
lemma encode_replicate (k : ℕ) : ∃ rest, encode (List.replicate (k + 1) ⟨[], []⟩) = '=' :: rest ∧
    rest.length = 2 * k ∧ (0 < k → rest.head? = some '&') := by
  induction k with
  | zero => exact ⟨[], rfl, rfl, fun h => absurd h (lt_irrefl 0)⟩
  | succ k ih =>
    obtain ⟨rest, hrest, hlen, -⟩ := ih
    refine ⟨'&' :: '=' :: rest, ?_, ?_, fun _ => rfl⟩
    · have hcons : encode (List.replicate (k + 2) ⟨[], []⟩) =
          '=' :: '&' :: encode (List.replicate (k + 1) ⟨[], []⟩) := by
        simp [encode, List.intercalate, List.replicate_succ, encodePair]
      rw [hcons, hrest]
    · simp only [List.length_cons, hlen]
      omega

/-- Behind a first pair `=` there is `&`, which the lookahead rejects unless `length` has wrapped
around to nothing. -/
lemma first_pair_wraps {rest : List Char} (hhead : rest.head? = some '&') {q : Parser URLFormData}
    {st st' : Unit} (hrun : run ('=' :: rest) fuel (pair ('=' :: rest)) (.ofText ('=' :: rest)) st =
      .ok (q, st')) (herr : q.err = false) :
    q.span.length = 0 ∧ (rest.length + 1) % 2 ^ 32 = 1 := by
  set p : Parser Unit := .ofText ('=' :: rest) with hp
  have hlength : p.span.length = (rest.length + 1) % 2 ^ 32 := rfl
  have hpBlocked : Blocked ('=' :: rest) p := .inr ⟨Nat.zero_le _, .inr rfl⟩
  obtain ⟨name, eq, value, stop, hname, -, heq, heqErr, hvalue, -, hstop, hstopErr, rfl⟩ :=
    pair_success hrun herr
  have hnameSpan := percentDecode_blocked rfl hpBlocked hname
  have heqSpan : eq.span = p.span.add 1 := by
    rw [← hnameSpan]
    exact (match_success heq heqErr).2
  have hle := (match_success heq heqErr).1
  have heqText : eq.span.text = 1 := by rw [heqSpan]; rfl
  have heqLength : eq.span.length + 1 = p.span.length := by
    have hpos : 1 ≤ p.span.length := hle.trans_eq (congrArg ParserSpan.length hnameSpan)
    rw [heqSpan]
    simp only [ParserSpan.add, ParserSpan.advance]
    omega
  have hseparator : (('=' :: rest).drop eq.span.text).head? = some '&' := by
    rw [heqText]
    exact hhead
  have hinside : eq.span.text ≤ ('=' :: rest).length :=
    heqText.trans_le (Nat.succ_le_succ (Nat.zero_le _))
  have hvalueSpan := percentDecode_blocked heqErr (.inr ⟨hinside, .inl hseparator⟩) hvalue
  have hnone : value.span.length = 0 := by
    by_contra hsome
    obtain ⟨r, hr, hrErr⟩ := terminator_rejects (p := value.withRes ()) fuel () hsome rfl
      (hvalueSpan ▸ hinside) (.inl (hvalueSpan ▸ hseparator))
    obtain ⟨rfl, -⟩ := Prod.mk.inj (Except.ok.inj (hr.symm.trans hstop))
    exact absurd (hrErr.symm.trans hstopErr) (by decide)
  obtain ⟨r, hr, -, hrSpan⟩ := terminator_end (p := value.withRes ()) ('=' :: rest) fuel () hnone
  obtain ⟨rfl, -⟩ := Prod.mk.inj (Except.ok.inj (hr.symm.trans hstop))
  refine ⟨(congrArg ParserSpan.length hrSpan).trans hnone, ?_⟩
  rw [← hlength, ← heqLength, ← hvalueSpan, hnone]

/-- No text has its own pairs as the result: what is read are empty pairs behind one default
element, and the lookahead fails before the second pair. -/
lemma querystringParse_ne {l : List URLFormData} {q : Parser (List URLFormData)} {st : Unit}
    (hrun : querystringParse (encode l) fuel = .ok (q, st)) (herr : q.err = false) : q.res ≠ l := by
  intro hres
  obtain ⟨k, hk, hlist⟩ := querystringParse_res hrun herr
  obtain rfl : l = List.replicate (k + 1) ⟨[], []⟩ := hres.symm.trans hlist
  obtain ⟨rest, hrest, hlen, hhead⟩ := encode_replicate k
  rw [hrest] at hrun
  unfold querystringParse run at hrun
  cases fuel with
  | zero => cases hrun
  | succ fuel =>
    unfold multipleLoop at hrun
    rw [if_pos (by decide)] at hrun
    obtain ⟨⟨first, ⟨⟩⟩, hfirst, hrun⟩ := Run.bind_eq_ok.1 hrun
    dsimp only at hrun
    by_cases hfirstErr : first.err = true
    · rw [if_pos hfirstErr, if_pos one_pos] at hrun
      obtain ⟨rfl, -⟩ := Prod.mk.inj (Except.ok.inj hrun)
      exact absurd (hfirstErr.symm.trans herr) (by decide)
    rw [if_neg hfirstErr] at hrun
    obtain ⟨hend, hwraps⟩ := first_pair_wraps (hhead hk) hfirst (Bool.not_eq_true _ ▸ hfirstErr)
    -- nothing is left for a second round, so the list has one pair
    cases fuel with
    | zero => cases hrun
    | succ fuel =>
      unfold multipleLoop at hrun
      rw [if_pos (by decide)] at hrun
      obtain ⟨⟨second, ⟨⟩⟩, hsecond, hrun⟩ := Run.bind_eq_ok.1 hrun
      have hsecondErr := pair_end rfl hend hsecond
      dsimp only at hrun
      rw [if_pos hsecondErr, if_neg (by decide)] at hrun
      obtain ⟨rfl, -⟩ := Prod.mk.inj (Except.ok.inj hrun)
      have htwo := congrArg List.length hlist
      rw [List.length_replicate] at htwo
      have hk1 : k = 1 := Nat.succ.inj htwo.symm
      rw [hlen, hk1] at hwraps
      exact absurd hwraps (by decide)

/-- On no list of pairs does the parser return the list. -/
theorem querystringParse_never (l : List URLFormData) :
    ¬ ∃ fuel q st, querystringParse (encode l) fuel = .ok (q, st) ∧ q.err = false ∧ q.res = l :=
  fun ⟨_, _, _, hrun, herr, hres⟩ => querystringParse_ne hrun herr hres

/-- `a=b`. -/
theorem querystring_loses_text : ¬ ∀ l : List URLFormData, l ≠ [] →
    ∃ fuel q st, querystringParse (encode l) fuel = .ok (q, st) ∧ q.err = false ∧ q.res = l := by
  intro h
  obtain ⟨fuel, q, st, hrun, herr, hres⟩ := h [⟨['a'], ['b']⟩] (by decide)
  exact querystringParse_ne hrun herr hres

end decoded
end Querystring
end CoreCommon
