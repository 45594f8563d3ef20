import Mathlib

/-! Numbers as text: `strtol`, `strtof` and the default `ostream` formatting of `long`
and `float`. Reading returns the value and the number of characters up to the end
pointer, which is zero when no conversion is possible. -/
namespace CoreCommon.NumberText

/-- A binary32 value; a finite one is `mant * 2 ^ exp`. -/
inductive CFloat
  | nan (neg : Bool)
  | inf (neg : Bool)
  | finite (neg : Bool) (mant : ℕ) (exp : ℤ)
  deriving DecidableEq, Repr

instance : Inhabited CFloat := ⟨.finite false 0 (-149)⟩

/-! ### Rounding -/

def divRoundEven (n d : ℕ) : ℕ :=
  let q := n / d
  let r := n % d
  if 2 * r < d then q
  else if 2 * r > d then q + 1
  else if q % 2 = 0 then q else q + 1

/-- The fraction `num / den` divided by `base ^ e`. -/
def unscale (base num den : ℕ) (e : ℤ) : ℕ × ℕ :=
  if 0 ≤ e then (num, den * base ^ e.toNat) else (num * base ^ (-e).toNat, den)

def floorLog2 (num den : ℕ) : ℤ :=
  let l : ℤ := Nat.log2 num - Nat.log2 den
  let f := unscale 2 num den l
  if f.1 < f.2 then l - 1 else l

/-- The nearest binary32 value, ties to even, with gradual underflow. -/
def roundFloat (neg : Bool) (num den : ℕ) : CFloat :=
  if num = 0 then .finite neg 0 (-149)
  else
    let e := max (-149) (floorLog2 num den - 23)
    let f := unscale 2 num den e
    let m := divRoundEven f.1 f.2
    let (m, e) := if m = 2 ^ 24 then (2 ^ 23, e + 1) else (m, e)
    if e > 104 then .inf neg else .finite neg m e

/-! ### Reading -/

def isSpace (c : Char) : Bool := c = ' ' ∨ (9 ≤ c.toNat ∧ c.toNat ≤ 13)

/-- An optional sign: negative, and its length. -/
def sign : List Char → Bool × ℕ
  | '-' :: _ => (true, 1)
  | '+' :: _ => (false, 1)
  | _ => (false, 0)

def longMin : ℤ := -2 ^ 63
def longMax : ℤ := 2 ^ 63 - 1

/-- `strtol(t, &end, 10)`, saturating at the range of `long`. -/
def strtol (t : List Char) : ℤ × ℕ :=
  let ws := (t.takeWhile isSpace).length
  let (neg, sg) := sign (t.drop ws)
  let digits := (t.drop (ws + sg)).takeWhile Char.isDigit
  if digits = [] then (0, 0)
  else
    let n : ℤ := Nat.ofDigitChars 10 digits 0
    (max longMin (min longMax (if neg then -n else n)), ws + sg + digits.length)

def isHexDigit (c : Char) : Bool :=
  c.isDigit ∨ ('a' ≤ c.toLower ∧ c.toLower ≤ 'f')

def hexValue (c : Char) : ℕ :=
  if c.isDigit then c.toNat - '0'.toNat else c.toLower.toNat - 'a'.toNat + 10

/-- The exponent after `e` or `p`; without digits it is not part of the number. -/
def exponent (mark : Char) : List Char → ℤ × ℕ
  | [] => (0, 0)
  | c :: t =>
    let (neg, sg) := sign t
    let digits := (t.drop sg).takeWhile Char.isDigit
    if c.toLower = mark ∧ digits ≠ [] then
      let n : ℤ := Nat.ofDigitChars 10 digits 0
      (if neg then -n else n, 1 + sg + digits.length)
    else (0, 0)

/-- Digits with an optional point: the digits, how many follow the point, and the length. -/
def mantissa (isDig : Char → Bool) (t : List Char) : List Char × ℕ × ℕ :=
  let whole := t.takeWhile isDig
  match t.drop whole.length with
  | '.' :: r =>
    let frac := r.takeWhile isDig
    (whole ++ frac, frac.length, whole.length + 1 + frac.length)
  | _ => (whole, 0, whole.length)

def scale (base num : ℕ) (e : ℤ) : ℕ × ℕ := unscale base num 1 (-e)

def decimal (neg : Bool) (t : List Char) : CFloat × ℕ :=
  let (digits, frac, len) := mantissa Char.isDigit t
  if digits = [] then (default, 0)
  else
    let (e, k) := exponent 'e' (t.drop len)
    let f := scale 10 (Nat.ofDigitChars 10 digits 0) (e - frac)
    (roundFloat neg f.1 f.2, len + k)

def hexadecimal (neg : Bool) (t : List Char) : CFloat × ℕ :=
  let (digits, frac, len) := mantissa isHexDigit t
  if digits = [] then (default, 0)
  else
    let (e, k) := exponent 'p' (t.drop len)
    let f := scale 2 (digits.foldl (fun n c => 16 * n + hexValue c) 0) (e - 4 * frac)
    (roundFloat neg f.1 f.2, len + k)

def startsNoCase (w : List Char) (t : List Char) : Bool := (t.take w.length).map Char.toLower = w

/-- The optional `(chars)` after `nan`. -/
def nanTail : List Char → ℕ
  | '(' :: r =>
    let body := r.takeWhile fun c => c.isAlphanum || c = '_'
    if (r.drop body.length).head? = some ')' then body.length + 2 else 0
  | _ => 0

/-- The number after the white space and the sign. -/
def unsignedFloat (neg : Bool) (t : List Char) : CFloat × ℕ :=
  if startsNoCase "infinity".toList t then (.inf neg, 8)
  else if startsNoCase "inf".toList t then (.inf neg, 3)
  else if startsNoCase "nan".toList t then (.nan neg, 3 + nanTail (t.drop 3))
  else if startsNoCase "0x".toList t ∧ (hexadecimal neg (t.drop 2)).2 ≠ 0 then
    let r := hexadecimal neg (t.drop 2)
    (r.1, 2 + r.2)
  else decimal neg t

def strtof (t : List Char) : CFloat × ℕ :=
  let ws := (t.takeWhile isSpace).length
  let (neg, sg) := sign (t.drop ws)
  let r := unsignedFloat neg (t.drop (ws + sg))
  if r.2 = 0 then (default, 0) else (r.1, ws + sg + r.2)

/-! ### The end pointer stays inside the text -/

lemma sign_le (t : List Char) : (sign t).2 ≤ t.length := by
  unfold sign; split <;> simp

lemma takeWhile_length_le (p : Char → Bool) (t : List Char) : (t.takeWhile p).length ≤ t.length :=
  (List.takeWhile_prefix p).length_le

theorem strtol_le (t : List Char) : (strtol t).2 ≤ t.length := by
  have hws := takeWhile_length_le isSpace t
  have hsg := sign_le (t.drop (t.takeWhile isSpace).length)
  have hdig := takeWhile_length_le Char.isDigit
    (t.drop ((t.takeWhile isSpace).length + (sign (t.drop (t.takeWhile isSpace).length)).2))
  simp only [List.length_drop] at hsg hdig
  simp only [strtol]
  split_ifs <;> dsimp only <;> omega

lemma exponent_le (mark : Char) (t : List Char) : (exponent mark t).2 ≤ t.length := by
  cases t with
  | nil => simp [exponent]
  | cons c t =>
    have hsg := sign_le t
    have hdig := takeWhile_length_le Char.isDigit (t.drop (sign t).2)
    rw [List.length_drop] at hdig
    simp only [exponent]
    split_ifs <;> simp only [List.length_cons] <;> omega

lemma mantissa_le (isDig : Char → Bool) (t : List Char) :
    (mantissa isDig t).2.2 ≤ t.length := by
  have hwhole := takeWhile_length_le isDig t
  have hdrop : (t.drop (t.takeWhile isDig).length).length =
      t.length - (t.takeWhile isDig).length := List.length_drop
  simp only [mantissa]
  split
  · rename_i r hr
    have hfrac := takeWhile_length_le isDig r
    rw [hr, List.length_cons] at hdrop
    dsimp only
    omega
  · exact hwhole

lemma decimal_le (neg : Bool) (t : List Char) : (decimal neg t).2 ≤ t.length := by
  have hm := mantissa_le Char.isDigit t
  simp only [decimal]
  generalize mantissa Char.isDigit t = m at *
  obtain ⟨digits, frac, len⟩ := m
  have he := exponent_le 'e' (t.drop len)
  rw [List.length_drop] at he
  dsimp only at hm ⊢
  split_ifs <;> dsimp only <;> omega

lemma hexadecimal_le (neg : Bool) (t : List Char) : (hexadecimal neg t).2 ≤ t.length := by
  have hm := mantissa_le isHexDigit t
  simp only [hexadecimal]
  generalize mantissa isHexDigit t = m at *
  obtain ⟨digits, frac, len⟩ := m
  have he := exponent_le 'p' (t.drop len)
  rw [List.length_drop] at he
  dsimp only at hm ⊢
  split_ifs <;> dsimp only <;> omega

lemma length_of_startsNoCase {w t : List Char} (h : startsNoCase w t) : w.length ≤ t.length := by
  have hlen := congrArg List.length (of_decide_eq_true h)
  rw [List.length_map, List.length_take] at hlen
  omega

lemma nanTail_le (t : List Char) : nanTail t ≤ t.length := by
  unfold nanTail
  split
  · rename_i r
    dsimp only
    split_ifs with h
    · have hne : r.drop (r.takeWhile fun c => c.isAlphanum || c = '_').length ≠ [] := by
        intro he
        simp [he] at h
      have := List.length_pos_iff.2 hne
      rw [List.length_drop] at this
      simp only [List.length_cons]
      omega
    · simp
  · simp

lemma unsignedFloat_le (neg : Bool) (t : List Char) : (unsignedFloat neg t).2 ≤ t.length := by
  simp only [unsignedFloat]
  split_ifs with h1 h2 h3 h4
  · exact length_of_startsNoCase h1
  · exact length_of_startsNoCase h2
  · have := length_of_startsNoCase h3
    have := nanTail_le (t.drop 3)
    rw [List.length_drop] at this
    simp at *
    omega
  · have := length_of_startsNoCase h4.1
    have := hexadecimal_le neg (t.drop 2)
    rw [List.length_drop] at this
    simp at *
    omega
  · exact decimal_le neg t

theorem strtof_le (t : List Char) : (strtof t).2 ≤ t.length := by
  have hws := takeWhile_length_le isSpace t
  have hsg := sign_le (t.drop (t.takeWhile isSpace).length)
  have hnum := unsignedFloat_le (sign (t.drop (t.takeWhile isSpace).length)).1
    (t.drop ((t.takeWhile isSpace).length + (sign (t.drop (t.takeWhile isSpace).length)).2))
  simp only [List.length_drop] at hsg hnum
  simp only [strtof]
  split_ifs
  · simp
  · dsimp only
    omega

/-! ### Writing -/

def minusIf (neg : Bool) (t : List Char) : List Char := if neg then '-' :: t else t

/-- `ostream << long`. -/
def showLong (z : ℤ) : List Char := minusIf (z < 0) (Nat.toDigits 10 z.natAbs)

def trimZeros (t : List Char) : List Char := (t.reverse.dropWhile (· = '0')).reverse

/-- Digits after a point, which is dropped with them when they are all zero. -/
def fraction (t : List Char) : List Char :=
  if trimZeros t = [] then [] else '.' :: trimZeros t

/-- The decimal exponent `x` with `10 ^ x ≤ num / den < 10 ^ (x + 1)`. -/
def floorLog10 (num den : ℕ) : ℤ :=
  if den ≤ num then ((Nat.toDigits 10 (num / den)).length : ℤ) - 1
  else -(((List.range 64).findIdx fun k => den ≤ num * 10 ^ k : ℕ) : ℤ)

/-- `%g` with six significant digits, for a positive fraction. -/
def showPositive (num den : ℕ) : List Char :=
  let x := floorLog10 num den
  let f := unscale 10 num den (x - 5)
  let d := divRoundEven f.1 f.2
  let (d, x) := if d = 10 ^ 6 then (10 ^ 5, x + 1) else (d, x)
  let digits := Nat.toDigits 10 d
  if x < -4 ∨ 6 ≤ x then
    let e := Nat.toDigits 10 x.natAbs
    digits.take 1 ++ fraction (digits.drop 1) ++
      ['e', if x < 0 then '-' else '+'] ++ (if e.length < 2 then '0' :: e else e)
  else if x < 0 then
    '0' :: fraction (List.replicate (-x - 1).toNat '0' ++ digits)
  else digits.take (x.toNat + 1) ++ fraction (digits.drop (x.toNat + 1))

/-- `ostream << float`. -/
def showFloat : CFloat → List Char
  | .nan neg => minusIf neg "nan".toList
  | .inf neg => minusIf neg "inf".toList
  | .finite neg m e =>
    if m = 0 then minusIf neg ['0']
    else
      let f := scale 2 m e
      minusIf neg (showPositive f.1 f.2)

/-! ### Reading a line that was written -/

section lines
variable {b : List Char} {d : Char}

lemma takeWhile_append_cons {p : Char → Bool} {c : Char} (hc : p c = false) (b t : List Char) :
    (b ++ c :: t).takeWhile p = b.takeWhile p := by
  induction b with
  | nil => simp [hc]
  | cons d b ih =>
    rw [List.cons_append, List.takeWhile_cons, List.takeWhile_cons, ih]

/-- What may stand in a number. -/
def isNumberChar (c : Char) : Bool := c.isDigit || c ∈ ['.', 'e', '+', '-']

/-- A sign or none in front of a digit. -/
lemma digit_head (hd : d.isDigit = true) : isSpace d = false ∧ sign (d :: b) = (false, 0) := by
  have hlow : 48 ≤ d.toNat ∧ d.toNat ≤ 57 := by simpa [Char.isDigit, UInt32.le_iff_toNat_le] using hd
  have hne : ∀ c : Char, c.toNat < 48 → d ≠ c := fun c hc h => by
    rw [h] at hlow
    omega
  constructor
  · have hspace : d ≠ ' ' := hne ' ' (by decide)
    simp only [isSpace, hspace, false_or, decide_eq_false_iff_not]
    omega
  · unfold sign
    split
    · exact absurd (List.cons.inj ‹_›).1 (hne '-' (by decide))
    · exact absurd (List.cons.inj ‹_›).1 (hne '+' (by decide))
    · rfl

/-- `strtol` on a line that starts with a number. -/
lemma strtol_line (neg : Bool) (hd : d.isDigit = true) (b t : List Char) :
    strtol (minusIf neg (d :: b) ++ '\n' :: t) =
      (max longMin (min longMax (if neg then -(Nat.ofDigitChars 10 ((d :: b).takeWhile Char.isDigit) 0 : ℤ)
        else (Nat.ofDigitChars 10 ((d :: b).takeWhile Char.isDigit) 0 : ℤ))),
      (minusIf neg ((d :: b).takeWhile Char.isDigit)).length) := by
  obtain ⟨hspace, hsign⟩ := digit_head (b := b ++ '\n' :: t) hd
  have hdigits := takeWhile_append_cons (p := Char.isDigit) (c := '\n') (by decide) (d :: b) t
  have hne : (d :: b).takeWhile Char.isDigit ≠ [] := by simp [hd]
  cases neg with
  | false =>
    have htake : (d :: (b ++ '\n' :: t)).takeWhile isSpace = [] := by simp [hspace]
    rw [List.cons_append] at hdigits
    simp only [minusIf, Bool.false_eq_true, if_false, List.cons_append, strtol, htake,
      List.length_nil, List.drop_zero, hsign, hdigits, if_neg hne, Nat.zero_add]
  | true =>
    have htake : ('-' :: d :: (b ++ '\n' :: t)).takeWhile isSpace = [] := by
      simp [show isSpace '-' = false from rfl]
    rw [List.cons_append] at hdigits
    simp only [minusIf, if_true, List.cons_append, strtol, htake, List.length_nil, List.drop_zero,
      sign, Nat.zero_add, List.drop_succ_cons, hdigits, if_neg hne, List.length_cons]
    rw [Nat.add_comm]

lemma strtol_showLong {x : ℤ} (hmin : longMin ≤ x) (hmax : x ≤ longMax) (t : List Char) :
    strtol (showLong x ++ '\n' :: t) = (x, (showLong x).length) := by
  have hall : ∀ c ∈ Nat.toDigits 10 x.natAbs, c.isDigit = true := fun c hc =>
    Nat.isDigit_of_mem_toDigits (by decide) (by decide) hc
  have htake : (Nat.toDigits 10 x.natAbs).takeWhile Char.isDigit = Nat.toDigits 10 x.natAbs :=
    List.takeWhile_eq_self_iff.2 hall
  obtain ⟨d, b, hdigits⟩ := List.exists_cons_of_ne_nil (Nat.toDigits_ne_nil (n := x.natAbs) (b := 10))
  have hline := strtol_line (decide (x < 0)) (hall d (hdigits ▸ List.mem_cons_self)) b t
  rw [← hdigits, htake, Nat.ofDigitChars_ten_toDigits] at hline
  have hvalue : (if decide (x < 0) = true then -(x.natAbs : ℤ) else (x.natAbs : ℤ)) = x := by
    split_ifs with h
    · have hneg : x < 0 := of_decide_eq_true h
      omega
    · have hpos : ¬ x < 0 := fun h' => h (decide_eq_true h')
      omega
  rw [hvalue, min_eq_right hmax, max_eq_right hmin] at hline
  exact hline

lemma isNumberChar_digits {n : ℕ} : ∀ c ∈ Nat.toDigits 10 n, isNumberChar c = true := fun c hc => by
  rw [isNumberChar, Nat.isDigit_of_mem_toDigits (by decide) (by decide) hc, Bool.true_or]

lemma isNumberChar_fraction {t : List Char} (ht : ∀ c ∈ t, isNumberChar c = true) :
    ∀ c ∈ fraction t, isNumberChar c = true := by
  intro c hc
  unfold fraction at hc
  split_ifs at hc
  · cases hc
  · obtain rfl | hc := List.mem_cons.1 hc
    · rfl
    · exact ht c (List.mem_reverse.1 ((List.dropWhile_suffix _).subset (List.mem_reverse.1 hc)))

lemma isNumberChar_showPositive (num den : ℕ) :
    ∀ c ∈ showPositive num den, isNumberChar c = true := by
  have htake : ∀ (l : List Char) (k : ℕ), (∀ c ∈ l, isNumberChar c = true) →
      (∀ c ∈ l.take k, isNumberChar c = true) ∧ ∀ c ∈ fraction (l.drop k), isNumberChar c = true :=
    fun l k h => ⟨fun c hc => h c (List.mem_of_mem_take hc),
      isNumberChar_fraction fun c hc => h c (List.mem_of_mem_drop hc)⟩
  unfold showPositive
  dsimp only
  generalize (if divRoundEven _ _ = _ then _ else _ : ℕ × ℤ) = r
  obtain ⟨n, x⟩ := r
  dsimp only
  intro c hc
  by_cases hexp : x < -4 ∨ 6 ≤ x
  · rw [if_pos hexp, List.mem_append, List.mem_append, List.mem_append] at hc
    rcases hc with ((hc | hc) | hc) | hc
    · exact (htake _ 1 isNumberChar_digits).1 c hc
    · exact (htake _ 1 isNumberChar_digits).2 c hc
    · split_ifs at hc <;> fin_cases hc <;> rfl
    · split_ifs at hc
      · rcases List.mem_cons.1 hc with rfl | hc
        · rfl
        · exact isNumberChar_digits c hc
      · exact isNumberChar_digits c hc
  · rw [if_neg hexp] at hc
    by_cases hneg : x < 0
    · rw [if_pos hneg] at hc
      rcases List.mem_cons.1 hc with rfl | hc
      · rfl
      · refine isNumberChar_fraction (fun c' hc' => ?_) c hc
        rcases List.mem_append.1 hc' with hc' | hc'
        · rw [List.eq_of_mem_replicate hc']
          rfl
        · exact isNumberChar_digits c' hc'
    · rw [if_neg hneg, List.mem_append] at hc
      rcases hc with hc | hc
      · exact (htake _ _ isNumberChar_digits).1 c hc
      · exact (htake _ _ isNumberChar_digits).2 c hc

/-- A digit comes first. -/
lemma showPositive_head (num den : ℕ) :
    ∃ d b, showPositive num den = d :: b ∧ d.isDigit = true := by
  unfold showPositive
  dsimp only
  generalize (if divRoundEven _ _ = _ then _ else _ : ℕ × ℤ) = r
  obtain ⟨n, x⟩ := r
  dsimp only
  obtain ⟨d, b, hdigits⟩ := List.exists_cons_of_ne_nil (Nat.toDigits_ne_nil (n := n) (b := 10))
  have hd : d.isDigit = true := Nat.isDigit_of_mem_toDigits (n := n) (by decide) (by decide)
    (hdigits ▸ List.mem_cons_self)
  rw [hdigits]
  by_cases hexp : x < -4 ∨ 6 ≤ x
  · rw [if_pos hexp]
    exact ⟨d, _, rfl, hd⟩
  · rw [if_neg hexp]
    by_cases hsmall : x < 0
    · rw [if_pos hsmall]
      exact ⟨'0', _, rfl, rfl⟩
    · rw [if_neg hsmall]
      exact ⟨d, _, rfl, hd⟩

lemma showFloat_finite (neg : Bool) (mant : ℕ) (exp : ℤ) : ∃ d b,
    showFloat (.finite neg mant exp) = minusIf neg (d :: b) ∧ d.isDigit = true ∧
      ∀ c ∈ d :: b, isNumberChar c = true := by
  unfold showFloat
  by_cases h : mant = 0
  · exact ⟨'0', [], if_pos h, rfl, by simp [isNumberChar]⟩
  · have hchars := isNumberChar_showPositive (scale 2 mant exp).1 (scale 2 mant exp).2
    obtain ⟨d, b, hshow, hd⟩ := showPositive_head (scale 2 mant exp).1 (scale 2 mant exp).2
    exact ⟨d, b, by simp only [if_neg h, hshow], hd, hshow ▸ hchars⟩

/-- Infinities and NaNs are no numbers to `strtol`, and read back by `strtof`. -/
lemma strtol_special (t : List Char) (neg : Bool) :
    (strtol (showFloat (.inf neg) ++ '\n' :: t)).2 = 0 ∧
      (strtol (showFloat (.nan neg) ++ '\n' :: t)).2 = 0 := by
  cases neg <;> simp [strtol, showFloat, minusIf, isSpace, sign, Char.isDigit]

lemma strtof_special (t : List Char) (neg : Bool) :
    strtof (showFloat (.inf neg) ++ '\n' :: t) = (.inf neg, (showFloat (.inf neg)).length) ∧
      strtof (showFloat (.nan neg) ++ '\n' :: t) = (.nan neg, (showFloat (.nan neg)).length) := by
  cases neg <;>
    simp [strtof, showFloat, minusIf, isSpace, sign, unsignedFloat, startsNoCase, nanTail]

lemma isNumberChar_minusIf {neg : Bool} {l : List Char} (hl : ∀ c ∈ l, isNumberChar c = true) :
    ∀ c ∈ minusIf neg l, isNumberChar c = true := by
  intro c hc
  unfold minusIf at hc
  split_ifs at hc
  · rcases List.mem_cons.1 hc with rfl | hc
    · rfl
    · exact hl c hc
  · exact hl c hc

/-- What is left of the line behind the digits. -/
lemma drop_line (neg : Bool) (l t : List Char) :
    (minusIf neg l ++ t).drop (minusIf neg (l.takeWhile Char.isDigit)).length =
      l.dropWhile Char.isDigit ++ t := by
  have hdrop : (l ++ t).drop (l.takeWhile Char.isDigit).length = l.dropWhile Char.isDigit ++ t := by
    conv_lhs => rw [← List.takeWhile_append_dropWhile (p := Char.isDigit) (l := l), List.append_assoc]
    simp
  cases neg with
  | false => exact hdrop
  | true => exact hdrop

end lines
end CoreCommon.NumberText
