import CoreCommon.DigitalAdd

/-! Which sums, negatives and differences of `Digital`s are exact. -/
namespace CoreCommon.Digital
open Words

/-! ### The operand that is added to -/

/-- The digits of `x` over the places of an operand with `n` digits from exponent `e` down: digits
`c` on the left, zeros on the right. -/
def filled (x : Digital) (c : UInt16) (e : ℤ) (n : ℕ) : List UInt16 :=
  List.replicate (e - x.exponent).toNat c ++ x.digits ++ List.replicate
    ((x.exponent - e).toNat + n - ((e - x.exponent).toNat + x.digits.length)) 0

/-- With the digits of its sign on the left. -/
def aligned (x : Digital) (e : ℤ) (n : ℕ) : List UInt16 := x.filled (signDigit x.negative) e n

/-- The digits above the operand. -/
def above (x : Digital) (e : ℤ) (n : ℕ) : List UInt16 :=
  (x.aligned e n).take (x.exponent - e).toNat

/-- The digits in the places of the operand. -/
def window (x : Digital) (e : ℤ) (n : ℕ) : List UInt16 :=
  ((x.aligned e n).drop (x.exponent - e).toNat).take n

/-- The digits below the operand. -/
def below (x : Digital) (e : ℤ) (n : ℕ) : List UInt16 :=
  (x.aligned e n).drop ((x.exponent - e).toNat + n)

section pad
variable {x : Digital} {c : UInt16} {e : ℤ} {n : ℕ}

lemma pad_filled (hneg : x.exponent < e → x.negative = true →
      ∃ d, x.digits.getLast? = some d ∧ c = if 0 < d then 65535 else 0)
    (hpos : x.negative = false → c = 0) :
    x.pad e (e - n + 1) = .ok ⟨x.negative, max x.exponent e, x.filled c e n⟩ := by
  obtain ⟨neg, f, ds⟩ := x
  unfold pad filled
  by_cases hlt : f < e
  · have hoffset : (e - (e - n + 1) + 1).toNat = (f - e).toNat + n := by omega
    cases neg with
    | false => simp [hlt, hpos, max_eq_right hlt.le, hoffset, bind, Except.bind]
    | true =>
      obtain ⟨d, hd, hc⟩ := hneg hlt rfl
      have hd' : ds.getLast? = some d := hd
      simp [hlt, hc, back, hd', max_eq_right hlt.le, hoffset, bind, Except.bind]
  · have hle : e ≤ f := not_lt.1 hlt
    have hoffset : (f - (e - n + 1) + 1).toNat = (f - e).toNat + n := by omega
    have hnone : (e - f).toNat = 0 := by omega
    simp [hlt, hnone, max_eq_left hle, hoffset, bind, Except.bind]

lemma filled_length : (x.exponent - e).toNat + n ≤ (x.filled c e n).length := by
  simp only [filled, List.length_append, List.length_replicate]
  omega

lemma val_filled : val ⟨x.negative, max x.exponent e, x.filled c e n⟩ =
    x.val + (base : ℚ) ^ (x.exponent + 1) * (value (List.replicate (e - x.exponent).toNat c) -
      value (List.replicate (e - x.exponent).toNat (signDigit x.negative))) := by
  obtain ⟨neg, f, ds⟩ := x
  have hmax : max f e = f + (e - f).toNat := by omega
  simp only [filled, hmax]
  rw [val_append_zeros, val_prepend]

lemma val_aligned : val ⟨x.negative, max x.exponent e, x.aligned e n⟩ = x.val := by
  unfold aligned
  rw [val_filled, sub_self, mul_zero, add_zero]

end pad

/-! ### The signs and the carry -/

section settle
variable {neg otherNegative carry allZero : Bool} {e : ℤ} {ds low : List UInt16}

lemma val_cons (d : UInt16) : val ⟨neg, e + 1, d :: ds⟩ = (base : ℚ) ^ (e + 1 - ds.length) *
    (value ds.reverse + (base : ℚ) ^ ds.length * (d.toNat - signed neg 0 * base)) := by
  have hplace : e + 1 + 1 - ((d :: ds).length : ℤ) = e + 1 - ds.length := by
    rw [List.length_cons]
    push_cast
    ring
  have hsigned : signed neg (d :: ds).length = (base : ℚ) ^ ds.length * (signed neg 0 * base) := by
    unfold signed
    rw [List.length_cons]
    split_ifs <;> ring
  rw [val_eq, hplace, hsigned, List.reverse_cons, value_append, List.length_reverse, value_cons,
    value_nil]
  push_cast
  ring

/-- Each case but one is a sum over one more digit, to which the carry and the signs add. -/
lemma val_settle (h : ¬ (neg = true ∧ otherNegative = true ∧ carry = true ∧ allZero = true)) :
    (settle ⟨neg, e, ds⟩ otherNegative carry allZero).val = (base : ℚ) ^ (e + 1 - ds.length) *
      (value ds.reverse + signed carry ds.length - signed neg ds.length -
        signed otherNegative ds.length) := by
  cases carry with
  | false =>
    cases otherNegative with
    | false => simp [settle, val_eq, signed]
    | true =>
      cases neg with
      | false => simp [settle, val_eq, signed]
      | true =>
        have hsettle : settle ⟨true, e, ds⟩ true false allZero = ⟨true, e + 1, 65534 :: ds⟩ := rfl
        have hdigit : (65534 : UInt16).toNat = 65534 := rfl
        rw [hsettle, val_cons, hdigit]
        simp only [signed, if_true, Bool.false_eq_true, if_false]
        push_cast
        ring
  | true =>
    cases neg with
    | false =>
      cases otherNegative with
      | false =>
        have hsettle : settle ⟨false, e, ds⟩ false true allZero = ⟨false, e + 1, 1 :: ds⟩ := rfl
        have hdigit : (1 : UInt16).toNat = 1 := rfl
        rw [hsettle, val_cons, hdigit]
        simp only [signed, if_true, Bool.false_eq_true, if_false]
        push_cast
        ring
      | true => simp [settle, val_eq, signed]
    | true =>
      cases otherNegative with
      | false => simp [settle, val_eq, signed]
      | true =>
        have hsettle : settle ⟨true, e, ds⟩ true true allZero = ⟨true, e, ds⟩ := by
          simpa [settle] using h
        rw [hsettle, val_eq]
        simp [signed]

/-- The digits are replaced by the one digit of minus a power of the base. -/
lemma val_settle_all_zero : (settle ⟨true, e, ds⟩ true true true).val =
    (base : ℚ) ^ (e + 1 - ds.length) * (-(base : ℚ) ^ ds.length) := by
  have hcons := @val_cons true e [] 65535
  have hsettle : settle ⟨true, e, ds⟩ true true true = ⟨true, e + 1, [65535]⟩ := rfl
  have hdigit : (65535 : UInt16).toNat = 65535 := rfl
  have htop : (base : ℚ) ^ (e + 1) = (base : ℚ) ^ (e + 1 - ds.length) * (base : ℚ) ^ ds.length := by
    rw [← base_zpow_add, sub_add_cancel]
  rw [hsettle, hcons, mul_neg, ← htop, hdigit]
  simp only [signed, if_true, List.length_nil, List.reverse_nil, value_nil]
  push_cast
  ring_nf

end settle

/-! ### The sum over the places of both operands -/

section sum
variable {neg : Bool} {k : ℕ} {high low : List UInt16} {y : Digital}

/-- The sum before it is trimmed, of the digits `high` down to the last place of `y` and `low`. -/
def total (neg : Bool) (e : ℤ) (high low : List UInt16) (y : Digital) : Digital :=
  let r := addDigits y.negative false true high.reverse y.digits.reverse
  settle ⟨neg, e, r.1.reverse ++ low⟩ y.negative r.2.1 r.2.2

lemma add_eq {x x' : Digital} (hpad : x.pad y.exponent (y.exponent - y.digits.length + 1) = .ok x') :
    x.add y = .ok (total x'.negative x'.exponent
      (x'.digits.take ((x'.exponent - y.exponent).toNat + y.digits.length))
      (x'.digits.drop ((x'.exponent - y.exponent).toNat + y.digits.length)) y).trim := by
  unfold add total
  rw [hpad]
  rfl

/-- The unit in which all places are natural numbers. -/
def unit (y : Digital) (low : List UInt16) : ℚ :=
  (base : ℚ) ^ (y.exponent + 1 - y.digits.length - low.length)

lemma unit_pos : 0 < unit y low := base_zpow_pos _

lemma base_zpow_high (hlen : high.length = k + y.digits.length) :
    (base : ℚ) ^ (y.exponent + k + 1 - ((high ++ low).length : ℤ)) = unit y low := by
  unfold unit
  congr 1
  rw [List.length_append, hlen]
  push_cast
  ring

lemma signed_append (b : Bool) (hlen : high.length = k + y.digits.length) :
    signed b (high ++ low).length = (base : ℚ) ^ low.length * signed b (k + y.digits.length) := by
  unfold signed
  rw [List.length_append, hlen]
  split_ifs <;> ring

lemma value_append_reverse : (value (high ++ low).reverse : ℚ) =
    value low.reverse + (base : ℚ) ^ low.length * value high.reverse := by
  rw [List.reverse_append, value_append, List.length_reverse]
  push_cast
  ring

lemma val_high_low (hlen : high.length = k + y.digits.length) :
    val ⟨neg, y.exponent + k, high ++ low⟩ = unit y low * (value low.reverse +
      (base : ℚ) ^ low.length * (value high.reverse - signed neg (k + y.digits.length))) := by
  rw [val_eq, base_zpow_high hlen, signed_append neg hlen, value_append_reverse]
  ring

lemma val_operand (y : Digital) (low : List UInt16) : y.val = unit y low * ((base : ℚ) ^ low.length *
    (value y.digits.reverse - signed y.negative y.digits.length)) := by
  have hplace : (base : ℚ) ^ (y.exponent + 1 - y.digits.length) =
      unit y low * (base : ℚ) ^ low.length := by
    rw [unit, ← base_zpow_add, sub_add_cancel]
  rw [← mul_assoc, ← hplace]
  exact val_fields y

/-- The case in which `total` is the power of the base. -/
def Cancels (neg : Bool) (high : List UInt16) (y : Digital) : Prop :=
  neg = true ∧ y.negative = true ∧
    (addDigits y.negative false true high.reverse y.digits.reverse).2.1 = true ∧
      (addDigits y.negative false true high.reverse y.digits.reverse).2.2 = true

lemma val_total (hlen : high.length = k + y.digits.length) (h : ¬ Cancels neg high y) :
    (total neg (y.exponent + k) high low y).val = unit y low * (value low.reverse +
      (base : ℚ) ^ low.length *
        (value (addDigits y.negative false true high.reverse y.digits.reverse).1 +
          signed (addDigits y.negative false true high.reverse y.digits.reverse).2.1
            (k + y.digits.length) - signed neg (k + y.digits.length) -
          signed y.negative (k + y.digits.length))) := by
  have hlength : (addDigits y.negative false true high.reverse y.digits.reverse).1.reverse.length =
      k + y.digits.length := by
    rw [List.length_reverse, addDigits_length, List.length_reverse, hlen]
  unfold total
  rw [val_settle h, base_zpow_high hlength, signed_append _ hlength, signed_append _ hlength,
    signed_append _ hlength, value_append_reverse, List.reverse_reverse]
  ring

lemma val_total_cancels (hlen : high.length = k + y.digits.length) (h : Cancels neg high y) :
    (total neg (y.exponent + k) high low y).val =
      unit y low * (-(base : ℚ) ^ low.length * (base : ℚ) ^ (k + y.digits.length)) := by
  obtain ⟨hneg, hother, hcarry, hzero⟩ := h
  have hlength : (addDigits true false true high.reverse y.digits.reverse).1.reverse.length =
      k + y.digits.length := by
    rw [List.length_reverse, addDigits_length, List.length_reverse, hlen]
  rw [hother] at hcarry hzero
  have htotal : total neg (y.exponent + k) high low y = settle ⟨true, y.exponent + k,
      (addDigits true false true high.reverse y.digits.reverse).1.reverse ++ low⟩ true true true := by
    simp only [total, hneg, hother, hcarry, hzero]
  rw [htotal, val_settle_all_zero, base_zpow_high hlength, List.length_append, hlength]
  ring

/-- When the digits of the sum are those of the exact one. -/
def Fits (k : ℕ) (high : List UInt16) (y : Digital) : Prop :=
  y.negative = true → high.take k = [] ∨
    value (high.drop k).reverse + value y.digits.reverse < base ^ y.digits.length ∧
      ∀ d ∈ (high.take k).tail, d = 0

lemma fits_iff (hlen : high.length = k + y.digits.length) :
    Fits k high y ↔ (value (addDigits y.negative false true high.reverse y.digits.reverse).1 : ℚ) +
        signed (addDigits y.negative false true high.reverse y.digits.reverse).2.1
          (k + y.digits.length) - signed y.negative (k + y.digits.length) =
      value high.reverse + value y.digits.reverse - signed y.negative y.digits.length := by
  have hle : y.digits.reverse.length ≤ high.reverse.length := by
    rw [List.length_reverse, List.length_reverse, hlen]
    omega
  have hsigned : ∀ b : Bool, signed b (k + y.digits.length) =
      ((base ^ high.reverse.length * b.toNat : ℕ) : ℚ) := by
    intro b
    rw [List.length_reverse, hlen]
    cases b <;> simp [signed]
  unfold Fits
  cases hneg : y.negative with
  | false =>
    have hvalue := addDigits_value false true hle
    rw [hsigned]
    simp only [false_implies, true_iff, signed, Bool.false_eq_true, if_false, sub_zero]
    exact_mod_cast hvalue
  | true =>
    have hvalue := addDigits_negative_value false true hle
    have htake : high.reverse.take y.digits.reverse.length = (high.drop k).reverse := by
      rw [List.take_reverse, hlen, List.length_reverse, Nat.add_sub_cancel]
    have hdrop : high.reverse.drop y.digits.reverse.length = (high.take k).reverse := by
      rw [List.drop_reverse, hlen, List.length_reverse, Nat.add_sub_cancel]
    have hcast : ∀ r : ℕ, (r : ℚ) + signed (addDigits true false true high.reverse
          y.digits.reverse).2.1 (k + y.digits.length) - signed true (k + y.digits.length) =
          value high.reverse + value y.digits.reverse - signed true y.digits.length ↔
        r + base ^ high.reverse.length *
            (addDigits true false true high.reverse y.digits.reverse).2.1.toNat +
            base ^ y.digits.length =
          value high.reverse + value y.digits.reverse + base ^ high.reverse.length := by
      intro r
      rw [hsigned, hsigned]
      simp only [signed, if_true, Bool.toNat_true, mul_one]
      rw [sub_eq_sub_iff_add_eq_add]
      norm_cast
    rw [htake, hdrop, Bool.toNat_false, Nat.add_zero, Nat.add_zero] at hvalue
    simp only [List.length_reverse] at hvalue hcast
    rw [hcast, hvalue]
    simp

/-- What the code forgets when two negative numbers cancel, the digits below. -/
def Keeps (neg : Bool) (high low : List UInt16) (y : Digital) : Prop :=
  neg = true → y.negative = true → value low.reverse ≠ 0 →
    value high.reverse + value y.digits.reverse ≠ base ^ y.digits.length

lemma val_add_val (hlen : high.length = k + y.digits.length) :
    val ⟨neg, y.exponent + k, high ++ low⟩ + y.val = unit y low * (value low.reverse +
      (base : ℚ) ^ low.length * (value high.reverse + value y.digits.reverse -
        signed y.negative y.digits.length - signed neg (k + y.digits.length))) := by
  rw [val_high_low hlen, val_operand y low]
  ring

lemma Cancels.fits_iff (h : Cancels neg high y) (hlen : high.length = k + y.digits.length) :
    Fits k high y ↔ value high.reverse + value y.digits.reverse = base ^ y.digits.length := by
  obtain ⟨-, hother, hcarry, hzero⟩ := h
  rw [Digital.fits_iff hlen]
  rw [hother] at hcarry hzero ⊢
  rw [hcarry, ((addDigits_allZero _ _ _ _).1 hzero).2]
  simp only [signed, if_true, Nat.cast_zero, zero_add, sub_self]
  rw [eq_comm, sub_eq_zero]
  norm_cast

/-- A sum of all zeros with a carry is the case that cancels. -/
lemma Fits.cancels (h : Fits k high y) (hlen : high.length = k + y.digits.length)
    (hneg : neg = true) (hother : y.negative = true)
    (hsum : value high.reverse + value y.digits.reverse = base ^ y.digits.length) :
    Cancels neg high y := by
  rw [Digital.fits_iff hlen, ← Nat.cast_add, hsum, hother] at h
  have hlt := value_lt (addDigits true false true high.reverse y.digits.reverse).1
  rw [addDigits_length, List.length_reverse, hlen] at hlt
  simp only [signed, if_true, Nat.cast_pow, sub_self] at h
  cases hcarry : (addDigits true false true high.reverse y.digits.reverse).2.1 with
  | false =>
    rw [hcarry] at h
    simp only [Bool.false_eq_true, if_false, add_zero, sub_eq_zero] at h
    exact absurd (by exact_mod_cast h) hlt.ne
  | true =>
    rw [hcarry, if_pos rfl, add_sub_cancel_right, Nat.cast_eq_zero] at h
    refine ⟨hneg, hother, ?_, ?_⟩
    · rw [hother, hcarry]
    · rw [hother]
      exact (addDigits_allZero _ _ _ _).2 ⟨rfl, h⟩

lemma total_exact_iff (hlen : high.length = k + y.digits.length) :
    (total neg (y.exponent + k) high low y).val =
        val ⟨neg, y.exponent + k, high ++ low⟩ + y.val ↔
      Fits k high y ∧ Keeps neg high low y := by
  have hunit : unit y low ≠ 0 := unit_pos.ne'
  have hpow : (base : ℚ) ^ low.length ≠ 0 := pow_ne_zero _ (by norm_num)
  rw [val_add_val hlen]
  by_cases h : Cancels neg high y
  · rw [val_total_cancels hlen h, mul_right_inj' hunit, h.fits_iff hlen]
    have hlow := value_lt low.reverse
    rw [List.length_reverse] at hlow
    have hcast : -(base : ℚ) ^ low.length * (base : ℚ) ^ (k + y.digits.length) =
          value low.reverse + (base : ℚ) ^ low.length *
            (value high.reverse + value y.digits.reverse - signed y.negative y.digits.length -
              signed neg (k + y.digits.length)) ↔
        value low.reverse + base ^ low.length * (value high.reverse + value y.digits.reverse) =
          base ^ low.length * base ^ y.digits.length := by
      rw [h.1, h.2.1, ← @Nat.cast_inj ℚ]
      simp only [signed, if_true]
      push_cast
      constructor
      · intro heq
        linear_combination -heq
      · intro heq
        linear_combination -heq
    rw [hcast]
    constructor
    · intro heq
      have hdvd : base ^ low.length ∣ value low.reverse :=
        (Nat.dvd_add_iff_left (Nat.dvd_mul_right _ _)).2 (heq ▸ Nat.dvd_mul_right _ _)
      have hzero := Nat.eq_zero_of_dvd_of_lt hdvd hlow
      rw [hzero, Nat.zero_add] at heq
      exact ⟨Nat.eq_of_mul_eq_mul_left (by positivity) heq, fun _ _ hne => absurd hzero hne⟩
    · rintro ⟨hsum, hkeeps⟩
      have hzero : value low.reverse = 0 := by
        by_contra hne
        exact hkeeps h.1 h.2.1 hne hsum
      rw [hzero, hsum, Nat.zero_add]
  · rw [val_total hlen h, mul_right_inj' hunit, add_right_inj, mul_right_inj' hpow]
    have hkeeps : Fits k high y → Keeps neg high low y := fun hfits hneg hother _ hsum =>
      h (hfits.cancels hlen hneg hother hsum)
    rw [and_iff_left_of_imp hkeeps, Digital.fits_iff hlen]
    constructor
    · intro heq
      linear_combination heq
    · intro heq
      linear_combination heq

/-- Without digits above `y` the sum can only come out too small. -/
lemma total_le (hlen : high.length = y.digits.length) :
    (total neg y.exponent high low y).val ≤ val ⟨neg, y.exponent, high ++ low⟩ + y.val := by
  have hlen' : high.length = 0 + y.digits.length := by rw [hlen, Nat.zero_add]
  have hexponent : y.exponent + (0 : ℕ) = y.exponent := by simp
  have hfits : Fits 0 high y := fun _ => .inl rfl
  by_cases h : Cancels neg high y
  · have htotal := @val_total_cancels neg 0 high low y hlen' h
    have hsum := @val_add_val neg 0 high low y hlen'
    have hpow : ((value high.reverse + value y.digits.reverse : ℕ) : ℚ) =
        (base : ℚ) ^ y.digits.length := by
      rw [(h.fits_iff hlen').1 hfits, Nat.cast_pow]
    rw [hexponent] at htotal hsum
    rw [htotal, hsum, mul_le_mul_iff_right₀ unit_pos, h.1, h.2.1, ← Nat.cast_add, hpow]
    simp only [signed, if_true, Nat.zero_add, sub_self, zero_sub, neg_mul, mul_neg]
    exact le_add_of_nonneg_left (Nat.cast_nonneg _)
  · have hkeeps : Keeps neg high low y := fun hneg hother _ hsum =>
      h (hfits.cancels hlen' hneg hother hsum)
    have htotal := (total_exact_iff hlen').2 ⟨hfits, hkeeps⟩
    rw [hexponent] at htotal
    exact htotal.le

end sum

/-! ### Addition -/

/-- What exactness asks of the addition to `x` of a number with `n` digits of value `v` from
exponent `e` down. -/
structure Adds (x : Digital) (otherNegative : Bool) (e : ℤ) (n v : ℕ) : Prop where
  /-- Whether sign digits or zeros go on the left is read off the last digit. -/
  padded : x.negative = true → x.exponent < e → ∃ d, x.digits.getLast? = some d ∧ d ≠ 0
  /-- Above a negative operand one is taken from each digit, and a carry is lost. -/
  fits : otherNegative = true → x.above e n = [] ∨
    value (x.window e n).reverse + v < base ^ n ∧ ∀ d ∈ (x.above e n).tail, d = 0
  /-- Digits below the operand are dropped when what stands above them cancels. -/
  keeps : x.negative = true → otherNegative = true → value (x.below e n).reverse ≠ 0 →
    value (x.above e n ++ x.window e n).reverse + v ≠ base ^ n

section add
variable {x y : Digital}

/-- Without a sign only the digits above a negative operand can go wrong. -/
lemma adds_unsigned {otherNegative : Bool} {e : ℤ} {n v : ℕ} (h : x.negative = false)
    (hfits : otherNegative = true → x.above e n = [] ∨
      value (x.window e n).reverse + v < base ^ n ∧ ∀ d ∈ (x.above e n).tail, d = 0) :
    Adds x otherNegative e n v := by
  have hnot : x.negative ≠ true := by simp [h]
  exact ⟨fun hneg => absurd hneg hnot, hfits, fun hneg => absurd hneg hnot⟩

lemma above_append_window (x : Digital) (e : ℤ) (n : ℕ) :
    x.above e n ++ x.window e n = (x.aligned e n).take ((x.exponent - e).toNat + n) :=
  (List.take_add ..).symm

lemma high_append_below (x : Digital) (e : ℤ) (n : ℕ) :
    (x.above e n ++ x.window e n) ++ x.below e n = x.aligned e n := by
  rw [above_append_window]
  exact List.take_append_drop _ _

lemma high_length (x : Digital) (e : ℤ) (n : ℕ) :
    (x.above e n ++ x.window e n).length = (x.exponent - e).toNat + n := by
  rw [above_append_window, List.length_take]
  exact min_eq_left filled_length

lemma above_length (x : Digital) (e : ℤ) (n : ℕ) :
    (x.above e n).length = (x.exponent - e).toNat := by
  have hlen := filled_length (x := x) (c := signDigit x.negative) (e := e) (n := n)
  rw [above, aligned, List.length_take]
  omega

lemma adds_iff (x y : Digital) :
    Adds x y.negative y.exponent y.digits.length (value y.digits.reverse) ↔
      (x.negative = true → x.exponent < y.exponent → ∃ d, x.digits.getLast? = some d ∧ d ≠ 0) ∧
        Fits (x.exponent - y.exponent).toNat
          (x.above y.exponent y.digits.length ++ x.window y.exponent y.digits.length) y ∧
        Keeps x.negative (x.above y.exponent y.digits.length ++ x.window y.exponent y.digits.length)
          (x.below y.exponent y.digits.length) y := by
  have habove := above_length x y.exponent y.digits.length
  unfold Fits Keeps
  rw [List.take_left' habove, List.drop_left' habove]
  exact ⟨fun h => ⟨h.padded, h.fits, h.keeps⟩, fun h => ⟨h.1, h.2.1, h.2.2⟩⟩

/-- Zeros on the left of a negative operand make it smaller. -/
lemma add_lt {z : Digital} (hneg : x.negative = true) (hlt : x.exponent < y.exponent)
    (hlast : x.digits.getLast? = some 0) (hz : x.add y = .ok z) : z.val < x.val + y.val := by
  have hpad : x.pad y.exponent (y.exponent - y.digits.length + 1) =
      .ok ⟨x.negative, max x.exponent y.exponent, x.filled 0 y.exponent y.digits.length⟩ :=
    pad_filled (fun _ _ => ⟨0, hlast, rfl⟩) fun _ => rfl
  have hlen := filled_length (x := x) (c := 0) (e := y.exponent) (n := y.digits.length)
  have hval := val_filled (x := x) (c := 0) (e := y.exponent) (n := y.digits.length)
  have hnone : (x.exponent - y.exponent).toNat = 0 := by omega
  rw [max_eq_right hlt.le] at hpad hval
  rw [hnone, Nat.zero_add] at hlen
  have hle := @total_le x.negative ((x.filled 0 y.exponent y.digits.length).take y.digits.length)
    ((x.filled 0 y.exponent y.digits.length).drop y.digits.length) y
    (List.length_take.trans (min_eq_left hlen))
  rw [List.take_append_drop, hval] at hle
  rw [add_eq hpad] at hz
  simp only [sub_self, Int.toNat_zero, Nat.zero_add, Except.ok.injEq] at hz
  rw [← hz, val_trim]
  have hsign : (0 : ℚ) < value (List.replicate (y.exponent - x.exponent).toNat (signDigit true)) := by
    have hup : (y.exponent - x.exponent).toNat ≠ 0 := by omega
    have hmax := value_replicate_max (y.exponent - x.exponent).toNat
    have hone := Nat.one_lt_pow hup (show 1 < base by decide)
    exact_mod_cast show 0 < value (List.replicate (y.exponent - x.exponent).toNat 65535) by omega
  have hlower := mul_pos (base_zpow_pos (x.exponent + 1)) hsign
  rw [value_replicate_zero, hneg, Nat.cast_zero, zero_sub, mul_neg] at hle
  rw [hneg]
  linarith

/-- The sum of the digits over the operand, where sign digits were put on the left. -/
lemma add_total (hpadded : x.negative = true → x.exponent < y.exponent →
      ∃ d, x.digits.getLast? = some d ∧ d ≠ 0) :
    x.add y = .ok (total x.negative (y.exponent + (x.exponent - y.exponent).toNat)
      (x.above y.exponent y.digits.length ++ x.window y.exponent y.digits.length)
      (x.below y.exponent y.digits.length) y).trim := by
  have hpad := pad_filled (n := y.digits.length) (c := signDigit x.negative) (fun hlt hneg => by
    obtain ⟨d, hd, hne⟩ := hpadded hneg hlt
    have hpos : 0 < d := UInt16.pos_iff_ne_zero.2 hne
    exact ⟨d, hd, by rw [if_pos hpos, hneg]; rfl⟩) (fun hneg => by rw [hneg]; rfl)
  have hexponent : max x.exponent y.exponent =
      y.exponent + (x.exponent - y.exponent).toNat := by omega
  have hplace : (y.exponent + ((x.exponent - y.exponent).toNat : ℤ) - y.exponent).toNat =
      (x.exponent - y.exponent).toNat := by omega
  rw [hexponent] at hpad
  rw [add_eq hpad, above_append_window]
  simp only [hplace]
  rfl

lemma val_above_below (x y : Digital) : val ⟨x.negative,
    y.exponent + (x.exponent - y.exponent).toNat,
    x.above y.exponent y.digits.length ++ x.window y.exponent y.digits.length ++
      x.below y.exponent y.digits.length⟩ = x.val := by
  have hexponent : max x.exponent y.exponent =
      y.exponent + (x.exponent - y.exponent).toNat := by omega
  rw [high_append_below, ← hexponent, val_aligned]

/-- `operator+` gives the sum. -/
lemma add_exact_iff (x y : Digital) : (∃ z, x.add y = .ok z ∧ z.val = x.val + y.val) ↔
    Adds x y.negative y.exponent y.digits.length (value y.digits.reverse) := by
  rw [adds_iff]
  by_cases hpadded : x.negative = true → x.exponent < y.exponent →
      ∃ d, x.digits.getLast? = some d ∧ d ≠ 0
  · rw [and_iff_right hpadded, ← total_exact_iff (high_length x y.exponent y.digits.length),
      val_above_below, add_total hpadded]
    simp only [Except.ok.injEq, exists_eq_left', val_trim]
  · refine iff_of_false ?_ fun h => hpadded h.1
    push Not at hpadded
    obtain ⟨hneg, hlt, hlast⟩ := hpadded
    rintro ⟨z, hz, hval⟩
    cases hback : x.digits.getLast? with
    | none =>
      have hpad : x.pad y.exponent (y.exponent - y.digits.length + 1) = .error .undefined := by
        simp [pad, hlt, hneg, back, hback, bind, Except.bind]
      rw [add, hpad] at hz
      cases hz
    | some d => exact (add_lt hneg hlt (hlast d hback ▸ hback) hz).ne hval

end add

/-! ### Negation -/

section negate
variable {x : Digital} {negative : Bool} {ds : List UInt16}

lemma negateLoop_length (carry negative : Bool) (ds : List UInt16) :
    (negateLoop carry negative ds).1.length = ds.length := by
  induction ds generalizing carry negative with
  | nil => rfl
  | cons d ds ih =>
    unfold negateLoop
    split_ifs <;> simp [ih]

lemma complement_digit (d : UInt16) : (~~~d).toNat + d.toNat = 65535 := by
  have hd := d.toNat_lt
  rw [UInt16.toNat_not]
  show 65536 - 1 - d.toNat + d.toNat = 65535
  omega

lemma negate_digit {d : UInt16} (hd : d ≠ 0) : (-d).toNat + d.toNat = 65536 := by
  have hlt := d.toNat_lt
  have hne : d.toNat ≠ 0 := fun h => hd ((eq_zero_iff d).2 h)
  rw [UInt16.toNat_neg]
  show (65536 - d.toNat) % 65536 + d.toNat = 65536
  omega

/-- Above the lowest digit that is not zero. -/
lemma negateLoop_complement (negative : Bool) (ds : List UInt16) :
    value (negateLoop false negative ds).1 + value ds + 1 = base ^ ds.length ∧
      (negateLoop false negative ds).2 = negative := by
  induction ds with
  | nil => exact ⟨rfl, rfl⟩
  | cons d ds ih =>
    have hdigit := complement_digit d
    have hunfold : negateLoop false negative (d :: ds) =
        (~~~d :: (negateLoop false negative ds).1, (negateLoop false negative ds).2) := by
      simp [negateLoop]
    rw [hunfold, value_cons, value_cons, List.length_cons, pow_succ, ← ih.1]
    refine ⟨?_, ih.2⟩
    simp only [base]
    omega

lemma negateLoop_zero (negative : Bool) (hzero : value ds = 0) :
    negateLoop true negative ds = (ds, negative) := by
  induction ds with
  | nil => rfl
  | cons d ds ih =>
    have hall := value_eq_zero.1 hzero
    have hd := hall d List.mem_cons_self
    have hrest := ih (value_eq_zero.2 fun d' hd' => hall d' (List.mem_cons_of_mem _ hd'))
    simp [negateLoop, hd, hrest]

lemma negateLoop_value (negative : Bool) (hne : value ds ≠ 0) :
    value (negateLoop true negative ds).1 + value ds = base ^ ds.length ∧
      (negateLoop true negative ds).2 = !negative := by
  induction ds with
  | nil => exact absurd rfl hne
  | cons d ds ih =>
    by_cases hd : d = 0
    · have hrest : value ds ≠ 0 := by
        intro hzero
        exact hne (by rw [value_cons, hd, hzero]; rfl)
      have hunfold : negateLoop true negative (d :: ds) =
          (d :: (negateLoop true negative ds).1, (negateLoop true negative ds).2) := by
        simp [negateLoop, hd]
      rw [hunfold, value_cons, value_cons, List.length_cons, pow_succ, ← (ih hrest).1, hd]
      refine ⟨?_, (ih hrest).2⟩
      simp only [UInt16.toNat_zero]
      ring
    · have hdigit := negate_digit hd
      have hrest := negateLoop_complement (!negative) ds
      have hunfold : negateLoop true negative (d :: ds) =
          (-d :: (negateLoop false (!negative) ds).1, (negateLoop false (!negative) ds).2) := by
        simp [negateLoop, hd]
      rw [hunfold, value_cons, value_cons, List.length_cons, pow_succ, ← hrest.1]
      refine ⟨?_, hrest.2⟩
      simp only [base]
      omega

/-- Minus a power of the base, written with zeros only, is left as it is. -/
def Negates (x : Digital) : Prop := x.negative = true → ∃ d ∈ x.digits, d ≠ 0

lemma negates_unsigned (h : x.negative = false) : Negates x :=
  fun hneg => absurd (h.symm.trans hneg) Bool.false_ne_true

lemma negate_zero (hzero : value x.digits.reverse = 0) : x.negate = x := by
  simp [negate, negateLoop_zero x.negative hzero]

lemma negate_spec (hne : value x.digits.reverse ≠ 0) :
    x.negate.negative = (!x.negative) ∧ x.negate.exponent = x.exponent ∧
      x.negate.digits.length = x.digits.length ∧
        value x.negate.digits.reverse + value x.digits.reverse = base ^ x.digits.length := by
  have hvalue := negateLoop_value x.negative hne
  have hlength := negateLoop_length true x.negative x.digits.reverse
  rw [List.length_reverse] at hvalue hlength
  unfold negate
  refine ⟨hvalue.2, rfl, ?_, ?_⟩
  · rw [List.length_reverse, hlength]
  · rw [List.reverse_reverse]
    exact hvalue.1

lemma negates_iff (x : Digital) :
    Negates x ↔ (x.negative = true → value x.digits.reverse ≠ 0) := by
  unfold Negates
  refine imp_congr_right fun _ => ?_
  rw [ne_eq, value_eq_zero]
  simp

lemma val_neg (h : x.negative = true) : x.val < 0 := by
  have hlt := value_lt x.digits.reverse
  have hcast : (value x.digits.reverse : ℚ) < (base : ℚ) ^ x.digits.length := by
    rw [List.length_reverse] at hlt
    exact_mod_cast hlt
  rw [val_fields, h]
  simp only [signed, if_true]
  exact mul_neg_of_pos_of_neg (base_zpow_pos _) (sub_neg_of_lt hcast)

lemma val_negate (h : Negates x) : x.negate.val = -x.val := by
  by_cases hzero : value x.digits.reverse = 0
  · have hneg : x.negative = false := by
      by_contra hne
      exact (negates_iff x).1 h (Bool.eq_true_of_not_eq_false hne) hzero
    rw [negate_zero hzero, val_fields, hneg, hzero]
    simp [signed]
  · obtain ⟨hneg, hexponent, hlength, hvalue⟩ := negate_spec hzero
    have hcast : (value x.negate.digits.reverse : ℚ) + value x.digits.reverse =
        (base : ℚ) ^ x.digits.length := by exact_mod_cast hvalue
    rw [val_fields x.negate, val_fields x, hneg, hexponent, hlength, ← mul_neg]
    congr 1
    cases x.negative with
    | false =>
      simp only [signed, Bool.not_false, if_true, Bool.false_eq_true, if_false]
      linear_combination hcast
    | true =>
      simp only [signed, Bool.not_true, if_true, Bool.false_eq_true, if_false]
      linear_combination hcast

/-- `operator-` of one operand gives the negative. -/
lemma negate_exact_iff (x : Digital) : x.negate.val = -x.val ↔ Negates x := by
  refine ⟨fun h => (negates_iff x).2 fun hneg hzero => ?_, val_negate⟩
  have hlt := val_neg hneg
  rw [negate_zero hzero] at h
  linarith

end negate

/-! ### Subtraction -/

section sub
variable {x y : Digital}

/-- A sum with a nonnegative operand only asks for the padding. -/
lemma adds_nonneg_iff {e : ℤ} {n v v' : ℕ} : Adds x false e n v ↔ Adds x false e n v' :=
  ⟨fun h => ⟨h.padded, nofun, nofun⟩, fun h => ⟨h.padded, nofun, nofun⟩⟩

/-- What exactness asks of `x - y`, that it is a sum with an operand of the other sign. -/
def Subtracts (x y : Digital) : Prop :=
  Adds x (!y.negative && value y.digits.reverse != 0) y.exponent y.digits.length
    (base ^ y.digits.length - value y.digits.reverse)

lemma adds_negate_iff (h : Negates y) : Adds x y.negate.negative y.negate.exponent
    y.negate.digits.length (value y.negate.digits.reverse) ↔ Subtracts x y := by
  unfold Subtracts
  by_cases hzero : value y.digits.reverse = 0
  · have hneg : y.negative = false := by
      by_contra hne
      exact (negates_iff y).1 h (Bool.eq_true_of_not_eq_false hne) hzero
    rw [negate_zero hzero, hneg, hzero]
    exact adds_nonneg_iff
  · obtain ⟨hneg, hexponent, hlength, hvalue⟩ := negate_spec hzero
    have hnot : (value y.digits.reverse != 0) = true := by simpa using hzero
    rw [hneg, hexponent, hlength, hnot, Bool.and_true, ← hvalue, Nat.add_sub_cancel]

/-- `operator-` of two operands gives the difference. -/
lemma sub_exact_iff (h : Negates y) :
    (∃ z, x.sub y = .ok z ∧ z.val = x.val - y.val) ↔ Subtracts x y := by
  rw [← adds_negate_iff h, ← add_exact_iff, val_negate h, sub_eq_add_neg]
  rfl

end sub

/-- Addition, negation and subtraction of `x` and `y` are those of the numbers. -/
structure Exact (x y : Digital) : Prop where
  add : ∃ z, x.add y = .ok z ∧ z.val = x.val + y.val
  negate_left : x.negate.val = -x.val
  negate_right : y.negate.val = -y.val
  sub : ∃ z, x.sub y = .ok z ∧ z.val = x.val - y.val

theorem exact_iff (x y : Digital) : Exact x y ↔
    Adds x y.negative y.exponent y.digits.length (value y.digits.reverse) ∧
      Negates x ∧ Negates y ∧ Subtracts x y := by
  constructor
  · intro h
    have hright := (negate_exact_iff y).1 h.negate_right
    exact ⟨(add_exact_iff x y).1 h.add, (negate_exact_iff x).1 h.negate_left, hright,
      (sub_exact_iff hright).1 h.sub⟩
  · rintro ⟨hadd, hleft, hright, hsub⟩
    exact ⟨(add_exact_iff x y).2 hadd, val_negate hleft, val_negate hright,
      (sub_exact_iff hright).2 hsub⟩

/-- A carry into digits above a negative operand is lost: `65541 - 1` is `4`. -/
theorem carry_above_negative_lost : ¬ ∀ x y : Digital, Exact x y := by
  intro h
  obtain ⟨z, hz, hval⟩ := (h (ofUInt64 65541) (negate (ofUInt64 1))).add
  have hsum : (ofUInt64 65541).add (negate (ofUInt64 1)) = .ok ⟨false, 0, [4]⟩ := by decide
  have hx : ofUInt64 65541 = ⟨false, 1, [1, 5]⟩ := by decide
  have hy : negate (ofUInt64 1) = ⟨true, 0, [65535]⟩ := by decide
  rw [hsum, Except.ok.injEq] at hz
  rw [← hz, hx, hy] at hval
  norm_num [val_eq, value_cons, signed, UInt16.toNat_ofNat] at hval

end CoreCommon.Digital
