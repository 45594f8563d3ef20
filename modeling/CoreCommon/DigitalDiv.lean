import CoreCommon.DigitalCompare
import CoreCommon.DigitalInteger

/-! Long division of `Digital`s. Every round guesses two digits of the quotient from the first
digits of the remainder and the divisor. A zero is only recognised as the digit 0 at an exponent
that is not positive, so it may be divided by. -/
namespace CoreCommon.Digital
open Words

/-- How a division ends without a result: the exception `DivZero`, a machine division whose
divisor is zero or was never written, or another fault. -/
inductive DivFault
  | divZero
  | divisor
  | fault (f : Fault)
  deriving DecidableEq, Repr

def lift {α : Type} : Run α → Except DivFault α
  | .ok a => .ok a
  | .error f => .error (.fault f)

structure DivisionResult where
  quotient : Digital
  remainder : Digital
  deriving DecidableEq, Repr

/-- `x == 0` -/
def isZero (x : Digital) : Bool := x.eq (ofInt64 0)

/-- `leading` of the divisor, with its complement taken when it is negative; `front()` of no
digits is whatever the cell holds. -/
def leading (x : Digital) : Option UInt16 :=
  match x.digits with
  | [] => none
  | d :: ds => some (if x.negative then if ∀ d' ∈ ds, d' = 0 then -d else ~~~d else d)

/-- `wide_div`: the quotient of the remainder's first digit, shifted, by `wide_leading`. -/
def wideDiv (rem : Digital) (leading : Option UInt16) : Except DivFault UInt32 :=
  match leading, rem.digits with
  | none, _ => .error .divisor
  | some l, ds =>
    if l = 0 then .error .divisor
    else match ds with
      | [] => .error (.fault .undefined)
      | d :: _ => .ok ((d.toUInt32 <<< 16) / l.toUInt32)

/-- `hi` is added to the quotient at exponent `e`; without it, zeros may be appended. -/
def addHi (res : Digital) (hi : UInt16) (e : ℤ) : Run Digital :=
  if hi ≠ 0 then res.addDigit hi e true
  else if res.exponent - res.digits.length > e then
    .ok { res with
      digits := res.digits ++ List.replicate (res.exponent - res.digits.length - e).toNat 0 }
  else .ok res

/-- The quotient digits `hi` and `lo` times the divisor are taken off the remainder. -/
def takeOff (rem other : Digital) (wide : UInt32) (hi lo : UInt16) (e : ℤ) : Run Digital :=
  let digits := if other.negative then if lo ≠ 0 then [hi, lo] else [hi]
    else if lo ≠ 0 then [~~~hi, -lo] else [-hi]
  if lo ≠ 0 ∨ hi ≠ 0 then do
    let product ← other.mul ⟨!other.negative && wide ≠ 0, e, digits⟩
    rem.add product
  else .ok rem

/-- One round, at quotient exponent `e`; `last` is `i == prec`. -/
def divRound (other : Digital) (leading : Option UInt16) (round last : Bool) (e : ℤ)
    (s : DivisionResult) : Except DivFault DivisionResult := do
  let wide ← wideDiv s.remainder leading
  let lo := (wide &&& 65535).toUInt16
  let hi := (wide >>> 16).toUInt16
  let hi := if last && round && lo ≥ 65535 / 2 then hi + 1 else hi
  let lo := if last then 0 else lo
  let res ← lift (s.quotient.addHi hi e)
  let res := if lo ≠ 0 then { res with digits := res.digits ++ [lo] } else res
  let rem ← lift (s.remainder.takeOff other wide hi lo e)
  .ok ⟨res, rem⟩

/-- The rounds, with `left` of them after this one. -/
def divLoop (other : Digital) (leading : Option UInt16) (round : Bool) :
    ℕ → ℤ → DivisionResult → Except DivFault DivisionResult
  | left, e, s => do
    let s ← divRound other leading round (left = 0) e s
    if s.remainder.isZero then .ok s
    else match left with
      | 0 => .ok s
      | left + 1 => divLoop other leading round left (e - 1) s

/-- `div`, for a `prec` that is not negative. -/
def div (x other : Digital) (prec : ℕ) (round : Bool) : Except DivFault DivisionResult :=
  if other.isZero then .error .divZero
  else if x.isZero then .ok ⟨ofInt64 0, ofInt64 0⟩
  else do
    let start : DivisionResult :=
      ⟨⟨false, x.exponent - other.exponent, [0]⟩, if x.negative then x.negate else x⟩
    let s ← divLoop other other.leading round prec (x.exponent - other.exponent) start
    .ok (if other.negative ≠ x.negative then ⟨s.quotient.negate.trim, s.remainder.negate⟩
      else ⟨s.quotient.trim, s.remainder⟩)

/-! ### What is recognised as zero -/

lemma isZero_iff (x : Digital) :
    x.isZero = true ↔ x.negative = false ∧ x.exponent ≤ 0 ∧ x.digits = [0] := by
  have hzero : ofInt64 0 = ⟨false, 0, [0]⟩ := by decide
  have hanswer : ∀ o, answer o .eq = true ↔ o = .eq := fun o => by cases o <;> simp [answer]
  rw [isZero, eq, cmp_eq, hanswer, hzero]
  cases hneg : x.negative with
  | false =>
    rw [side_eq_eq_iff hneg]
    simp
  | true =>
    have hside : side x ⟨false, 0, [0]⟩ = .lt := by
      unfold side
      simp [hneg, further]
    simp [hside]

lemma val_of_isZero {x : Digital} (h : x.isZero = true) : x.val = 0 := by
  obtain ⟨neg, e, ds⟩ := x
  obtain ⟨rfl, -, rfl⟩ := (isZero_iff _).1 h
  rw [val_unsigned]
  simp

/-! ### How a division ends -/

section fault
variable {α β : Type} {x : Except DivFault α} {f : α → Except DivFault β} {e : DivFault} {b : β}

lemma bind_eq_ok : x >>= f = .ok b ↔ ∃ a, x = .ok a ∧ f a = .ok b := by
  cases x <;> simp [bind, Except.bind]

lemma lift_eq_ok {y : Run α} {a : α} : lift y = .ok a ↔ y = .ok a := by
  cases y <;> simp [lift]

lemma bind_eq_error : x >>= f = .error e ↔ x = .error e ∨ ∃ a, x = .ok a ∧ f a = .error e := by
  cases x <;> simp [bind, Except.bind]

lemma lift_eq_error {y : Run α} (h : lift y = .error e) : ∃ f, e = .fault f := by
  cases y with
  | ok a => cases h
  | error f => exact ⟨f, (Except.error.inj h).symm⟩

end fault

section outcome
variable {x other : Digital} {l : Option UInt16} {round last : Bool} {prec : ℕ} {e : ℤ}
  {s : DivisionResult} {fault : DivFault}

/-- The divisor of the machine divisions is a number other than zero. -/
def Usable (l : Option UInt16) : Prop := ∃ d, l = some d ∧ d ≠ 0

lemma wideDiv_not_usable (rem : Digital) (h : ¬Usable l) : wideDiv rem l = .error .divisor := by
  cases l with
  | none => rfl
  | some d =>
    have hd : d = 0 := by_contra fun hne => h ⟨d, rfl, hne⟩
    rw [wideDiv, if_pos hd]

lemma wideDiv_usable {rem : Digital} (h : Usable l) (herr : wideDiv rem l = .error fault) :
    ∃ f, fault = .fault f := by
  obtain ⟨d, rfl, hd⟩ := h
  rw [wideDiv, if_neg hd] at herr
  cases hds : rem.digits with
  | nil =>
    rw [hds] at herr
    exact ⟨.undefined, (Except.error.inj herr).symm⟩
  | cons d' ds =>
    rw [hds] at herr
    cases herr

lemma divRound_usable (h : Usable l) (herr : divRound other l round last e s = .error fault) :
    ∃ f, fault = .fault f := by
  obtain hwide | ⟨wide, -, herr⟩ := bind_eq_error.1 herr
  · exact wideDiv_usable h hwide
  obtain hhi | ⟨res, -, herr⟩ := bind_eq_error.1 herr
  · exact lift_eq_error hhi
  obtain htake | ⟨rem, -, herr⟩ := bind_eq_error.1 herr
  · exact lift_eq_error htake
  · cases herr

/-- A usable divisor stays usable from round to round. -/
lemma divLoop_usable (h : Usable l) (left : ℕ) (e : ℤ) (s : DivisionResult)
    (herr : divLoop other l round left e s = .error fault) : ∃ f, fault = .fault f := by
  induction left generalizing e s with
  | zero =>
    obtain hround | ⟨t, -, herr⟩ := bind_eq_error.1 herr
    · exact divRound_usable h hround
    · split at herr <;> cases herr
  | succ left ih =>
    obtain hround | ⟨t, -, herr⟩ := bind_eq_error.1 herr
    · exact divRound_usable h hround
    · split at herr
      · cases herr
      · exact ih _ _ herr

lemma divLoop_not_usable (h : ¬Usable l) (left : ℕ) (e : ℤ) (s : DivisionResult) :
    divLoop other l round left e s = .error .divisor := by
  have hround : divRound other l round (left = 0) e s = .error .divisor := by
    rw [divRound, wideDiv_not_usable _ h]
    rfl
  cases left with
  | zero =>
    rw [divLoop, hround]
    rfl
  | succ left =>
    rw [divLoop, hround]
    rfl

lemma div_of_isZero (h : other.isZero = true) : x.div other prec round = .error .divZero := by
  rw [div, if_pos h]

lemma div_zero_of_isZero (h : other.isZero = false) (hx : x.isZero = true) :
    x.div other prec round = .ok ⟨ofInt64 0, ofInt64 0⟩ := by
  rw [div, if_neg (by rw [h]; exact Bool.false_ne_true), if_pos hx]

lemma div_not_usable (h : other.isZero = false) (hx : x.isZero = false)
    (hl : ¬Usable other.leading) : x.div other prec round = .error .divisor := by
  rw [div, if_neg (by rw [h]; exact Bool.false_ne_true), if_neg (by rw [hx]; exact Bool.false_ne_true)]
  dsimp only
  rw [divLoop_not_usable hl]
  rfl

lemma div_usable (h : other.isZero = false) (hl : Usable other.leading)
    (herr : x.div other prec round = .error fault) : ∃ f, fault = .fault f := by
  rw [div, if_neg (by rw [h]; exact Bool.false_ne_true)] at herr
  split at herr
  · cases herr
  · obtain hloop | ⟨t, -, herr⟩ := bind_eq_error.1 herr
    · exact divLoop_usable hl _ _ _ hloop
    · cases herr

end outcome

/-! ### Division by zero -/

/-- A zero divisor is reported, and no other machine division has one. -/
def Reports (x other : Digital) (prec : ℕ) (round : Bool) : Prop :=
  (x.div other prec round = .error .divZero ↔ other.val = 0) ∧
    x.div other prec round ≠ .error .divisor

/-- The number is the digit 0 at an exponent that is not positive. -/
def Recognized (x : Digital) : Prop := x.negative = false ∧ x.exponent ≤ 0 ∧ x.digits = [0]

/-- The first digit, complemented when the number is negative, is not zero. -/
def Leads (x : Digital) : Prop := ∃ d ds, x.digits = d :: ds ∧
  if x.negative = true ∧ ∃ d' ∈ ds, d' ≠ 0 then d ≠ 65535 else d ≠ 0

lemma leads_cons {x : Digital} {d : UInt16} {ds : List UInt16} (h : x.digits = d :: ds) :
    Leads x ↔ if x.negative = true ∧ ∃ d' ∈ ds, d' ≠ 0 then d ≠ 65535 else d ≠ 0 := by
  constructor
  · rintro ⟨e, es, hes, hlead⟩
    obtain ⟨rfl, rfl⟩ := List.cons.inj (h.symm.trans hes)
    exact hlead
  · exact fun hlead => ⟨d, ds, h, hlead⟩

lemma usable_leading_iff (x : Digital) : Usable x.leading ↔ Leads x := by
  cases hds : x.digits with
  | nil => simp [Usable, Leads, leading, hds]
  | cons d ds =>
    have hcomplement : ~~~d = 0 ↔ d = 65535 := by
      rw [eq_zero_iff, ← UInt16.toNat_inj]
      have := complement_digit d
      show _ ↔ d.toNat = 65535
      omega
    have hopposite : -d = 0 ↔ d = 0 := by
      by_cases hd : d = 0
      · simp [hd]
      · have := negate_digit hd
        have hlt := d.toNat_lt
        simp only [hd, iff_false, eq_zero_iff]
        omega
    have husable : ∀ a : UInt16, Usable (some a) ↔ a ≠ 0 := fun a => by simp [Usable]
    rw [leads_cons hds, leading, hds, husable]
    by_cases hneg : x.negative = true
    · rw [if_pos hneg]
      by_cases hall : ∀ d' ∈ ds, d' = 0
      · have hnone : ¬∃ d' ∈ ds, d' ≠ 0 := by simpa using hall
        rw [if_pos hall, if_neg fun h => hnone h.2]
        exact not_congr hopposite
      · have hsome : ∃ d' ∈ ds, d' ≠ 0 := by simpa using hall
        rw [if_neg hall, if_pos ⟨hneg, hsome⟩]
        exact not_congr hcomplement
    · rw [if_neg hneg, if_neg fun h => hneg h.1]

/-- The reporting is right for the recognised zero, and for any other number that is not zero
either its first digit is good or the dividend ends the call. -/
theorem reports_iff (x other : Digital) (prec : ℕ) (round : Bool) :
    Reports x other prec round ↔
      Recognized other ∨ other.val ≠ 0 ∧ (Recognized x ∨ Leads other) := by
  have hrecognized : ∀ y : Digital, Recognized y ↔ y.isZero = true := fun y => (isZero_iff y).symm
  rw [hrecognized, hrecognized, ← usable_leading_iff]
  unfold Reports
  cases hother : other.isZero with
  | true =>
    rw [div_of_isZero hother]
    exact iff_of_true ⟨iff_of_true rfl (val_of_isZero hother), by simp⟩ (.inl rfl)
  | false =>
    rw [or_iff_right Bool.false_ne_true]
    cases hx : x.isZero with
    | true =>
      rw [div_zero_of_isZero hother hx]
      simp
    | false =>
      by_cases hl : Usable other.leading
      · have hne : ∀ fault, (∀ f, fault ≠ .fault f) → x.div other prec round ≠ .error fault := by
          intro fault hfault herr
          obtain ⟨f, rfl⟩ := div_usable hother hl herr
          exact hfault f rfl
        have hdivZero := hne .divZero nofun
        have hdivisor := hne .divisor nofun
        simp [hdivZero, hdivisor, hl]
      · rw [div_not_usable hother hx hl]
        simp [hl]

/-- The difference `65536 - 65536` is the digit 0 at exponent 1, and one is divided by it. -/
theorem difference_divides :
    (ofUInt64 65536).sub (ofUInt64 65536) = .ok ⟨false, 1, [0]⟩ ∧
      (ofUInt64 1).div ⟨false, 1, [0]⟩ 10 true = .error .divisor ∧
        ¬∀ x other prec round, Reports x other prec round := by
  refine ⟨by decide, by decide, fun h => ?_⟩
  exact (h (ofUInt64 1) ⟨false, 1, [0]⟩ 10 true).2 (by decide)

end CoreCommon.Digital
