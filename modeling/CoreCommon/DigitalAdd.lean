import CoreCommon.Digital

/-! Addition, negation and subtraction of `Digital`s, and when they are exact. The sum goes
wrong where the left operand has to be extended on the left and ends in a zero, where a carry
or a digit stands below the top digit above a negative right operand, and where the sum of two
negative operands cancels but for digits below the right one. -/
namespace CoreCommon.Digital
open Words

/-! ### Values -/

section values
variable {neg : Bool} {e : ℤ} {ds : List UInt16}

/-- The value that a sign takes off a number of `n` digits. -/
def signed (neg : Bool) (n : ℕ) : ℚ := if neg then (base : ℚ) ^ n else 0

lemma two_zpow (k : ℤ) : (2 : ℚ) ^ (16 * k) = (base : ℚ) ^ k := by
  rw [zpow_mul]
  norm_num

lemma base_zpow_add (k : ℤ) (n : ℕ) : (base : ℚ) ^ (k + n) = (base : ℚ) ^ k * (base : ℚ) ^ n := by
  rw [zpow_add₀ (by norm_num), zpow_natCast]

lemma base_zpow_pos (k : ℤ) : 0 < (base : ℚ) ^ k := zpow_pos (by norm_num) k

lemma sum_digits (e : ℤ) (ds : List UInt16) :
    ∑ i : Fin ds.length, (ds[i].toNat : ℚ) * 2 ^ (16 * (e - i)) =
      (base : ℚ) ^ (e + 1 - ds.length) * value ds.reverse := by
  induction ds generalizing e with
  | nil => simp
  | cons d ds ih =>
    have htop : (base : ℚ) ^ e = (base : ℚ) ^ (e - ds.length) * (base : ℚ) ^ ds.length := by
      rw [← base_zpow_add]
      congr 1
      ring
    have htail : ∑ i : Fin ds.length, (ds[i].toNat : ℚ) * 2 ^ (16 * (e - (i + 1 : ℕ))) =
        (base : ℚ) ^ (e - ds.length) * value ds.reverse := by
      have hplace : e - 1 + 1 - (ds.length : ℤ) = e - ds.length := by ring
      rw [← hplace, ← ih (e - 1)]
      refine Finset.sum_congr rfl fun i _ => ?_
      push_cast
      ring_nf
    have hplace : e + 1 - ((d :: ds).length : ℤ) = e - ds.length := by
      simp
    have hsum : ∑ i : Fin (d :: ds).length, ((d :: ds)[i].toNat : ℚ) * 2 ^ (16 * (e - i)) =
        (d.toNat : ℚ) * 2 ^ (16 * e) +
          ∑ i : Fin ds.length, (ds[i].toNat : ℚ) * 2 ^ (16 * (e - (i + 1 : ℕ))) := by
      refine (Fin.sum_univ_succ _).trans ?_
      simp
    rw [hsum, htail, hplace, two_zpow, htop, List.reverse_cons, value_append, List.length_reverse]
    simp only [value_cons, value_nil]
    push_cast
    ring

/-- In units of the lowest place. -/
lemma val_eq (neg : Bool) (e : ℤ) (ds : List UInt16) : val ⟨neg, e, ds⟩ =
    (base : ℚ) ^ (e + 1 - ds.length) * ((value ds.reverse : ℚ) - signed neg ds.length) := by
  have hsign : (if neg then (2 : ℚ) ^ (16 * (e + 1)) else 0) =
      (base : ℚ) ^ (e + 1 - ds.length) * signed neg ds.length := by
    unfold signed
    rw [two_zpow, mul_ite, mul_zero, ← base_zpow_add, sub_add_cancel]
  have hval : val ⟨neg, e, ds⟩ = ∑ i : Fin ds.length, (ds[i].toNat : ℚ) * 2 ^ (16 * (e - i)) -
      if neg then (2 : ℚ) ^ (16 * (e + 1)) else 0 := rfl
  rw [hval, sum_digits, hsign, mul_sub]

lemma val_fields (x : Digital) : x.val = (base : ℚ) ^ (x.exponent + 1 - x.digits.length) *
    ((value x.digits.reverse : ℚ) - signed x.negative x.digits.length) :=
  val_eq x.negative x.exponent x.digits

/-- Zeros on the right. -/
lemma val_append_zeros (k : ℕ) : val ⟨neg, e, ds ++ List.replicate k 0⟩ = val ⟨neg, e, ds⟩ := by
  have hplace : (base : ℚ) ^ (e + 1 - ds.length) =
      (base : ℚ) ^ (e + 1 - (ds.length + k : ℕ)) * (base : ℚ) ^ k := by
    rw [← base_zpow_add]
    congr 1
    push_cast
    ring
  have hsigned : signed neg (ds.length + k) = (base : ℚ) ^ k * signed neg ds.length := by
    unfold signed
    split_ifs <;> ring
  rw [val_eq, val_eq, List.length_append, List.length_replicate, List.reverse_append,
    List.reverse_replicate, value_append, value_replicate_zero, List.length_replicate, hsigned, hplace]
  push_cast
  ring

def signDigit (neg : Bool) : UInt16 := if neg then 65535 else 0

/-- Digits on the left. -/
lemma val_prepend (c : UInt16) (k : ℕ) : val ⟨neg, e + k, List.replicate k c ++ ds⟩ =
    val ⟨neg, e, ds⟩ + (base : ℚ) ^ (e + 1) *
      (value (List.replicate k c) - value (List.replicate k (signDigit neg))) := by
  have hplace : e + k + 1 - ((List.replicate k c ++ ds).length : ℤ) = e + 1 - ds.length := by
    rw [List.length_append, List.length_replicate]
    push_cast
    ring
  have htop : (base : ℚ) ^ (e + 1) =
      (base : ℚ) ^ (e + 1 - ds.length) * (base : ℚ) ^ ds.length := by
    rw [← base_zpow_add, sub_add_cancel]
  have hsign : (value (List.replicate k (signDigit neg)) : ℚ) = signed neg k - signed neg 0 := by
    unfold signDigit signed
    cases neg
    · simp
    · have hmax := value_replicate_max k
      rw [if_pos rfl, if_pos rfl, if_pos rfl, eq_sub_iff_add_eq, pow_zero]
      exact_mod_cast hmax
  have hsigned : signed neg (k + ds.length) = signed neg k * (base : ℚ) ^ ds.length := by
    unfold signed
    split_ifs <;> ring
  have hone : signed neg ds.length = signed neg 0 * (base : ℚ) ^ ds.length := by
    unfold signed
    split_ifs <;> ring
  rw [val_eq, val_eq, hplace, htop, hsign, List.reverse_append, List.reverse_replicate,
    value_append, List.length_reverse, List.length_append, List.length_replicate, hsigned, hone]
  push_cast
  ring

lemma val_prepend_sign (k : ℕ) :
    val ⟨neg, e + k, List.replicate k (signDigit neg) ++ ds⟩ = val ⟨neg, e, ds⟩ := by
  rw [val_prepend, sub_self, mul_zero, add_zero]

lemma strip_spec (c : UInt16) (l : List UInt16) : ∃ k, l = List.replicate k c ++ strip c l := by
  induction l using strip.induct c with
  | case1 d' l ih =>
    obtain ⟨k, hk⟩ := ih
    refine ⟨k + 1, ?_⟩
    rw [strip, if_pos rfl, List.replicate_succ, List.cons_append, ← hk]
  | case2 d d' l hne => exact ⟨0, by rw [strip, if_neg hne]; rfl⟩
  | case3 l hl => exact ⟨0, by rw [strip.eq_2 c l hl]; rfl⟩

lemma val_trim (x : Digital) : x.trim.val = x.val := by
  obtain ⟨neg, e, ds⟩ := x
  obtain ⟨k, hk⟩ := strip_spec (signDigit neg) ds
  set front := strip (signDigit neg) ds with hfront
  obtain ⟨j, hj⟩ := strip_spec 0 front.reverse
  have hlen : ds.length - front.length = k := by
    rw [hk, List.length_append, List.length_replicate, Nat.add_sub_cancel]
  have hrev : front = (strip 0 front.reverse).reverse ++ List.replicate j 0 := by
    rw [← List.reverse_replicate, ← List.reverse_append, ← hj, List.reverse_reverse]
  have htrim : trim ⟨neg, e, ds⟩ = ⟨neg, e - (ds.length - front.length : ℕ),
      (strip 0 front.reverse).reverse⟩ := rfl
  have hback : val ⟨neg, e - k, (strip 0 front.reverse).reverse ++ List.replicate j 0⟩ =
      val ⟨neg, e - k, (strip 0 front.reverse).reverse⟩ := val_append_zeros j
  rw [htrim, hlen, ← hback, ← hrev, ← val_prepend_sign k, sub_add_cancel, ← hk]

end values

/-! ### The loops of the addition -/

section loops
variable {neg carry allZero : Bool} {ds other : List UInt16}

lemma toNat_toUInt16 (b : Bool) : b.toUInt16.toNat = b.toNat := by
  cases b <;> rfl

/-- One digit of the sum, and the carry that the code reads off it. -/
lemma add_digit (d o : UInt16) (carry : Bool) :
    (d + (o + carry.toUInt16)).toNat +
      base * (if carry then decide (d + (o + carry.toUInt16) ≤ o)
        else decide (d + (o + carry.toUInt16) < o)).toNat = d.toNat + o.toNat + carry.toNat := by
  have hd := d.toNat_lt
  have ho := o.toNat_lt
  have hsum : (d + (o + carry.toUInt16)).toNat = (d.toNat + o.toNat + carry.toNat) % 65536 := by
    rw [UInt16.toNat_add, UInt16.toNat_add, toNat_toUInt16]
    omega
  simp only [UInt16.le_iff_toNat_le, UInt16.lt_iff_toNat_lt, hsum, base]
  cases carry with
  | false =>
    simp only [Bool.toNat_false, Nat.add_zero, Bool.false_eq_true, if_false]
    by_cases hlt : d.toNat + o.toNat < 65536
    · have hnot : ¬ (d.toNat + o.toNat) % 65536 < o.toNat := by omega
      rw [decide_eq_false hnot, Bool.toNat_false]
      omega
    · have hcarry : (d.toNat + o.toNat) % 65536 < o.toNat := by omega
      rw [decide_eq_true hcarry, Bool.toNat_true]
      omega
  | true =>
    simp only [Bool.toNat_true, if_true]
    by_cases hlt : d.toNat + o.toNat + 1 < 65536
    · have hnot : ¬ (d.toNat + o.toNat + 1) % 65536 ≤ o.toNat := by omega
      rw [decide_eq_false hnot, Bool.toNat_false]
      omega
    · have hcarry : (d.toNat + o.toNat + 1) % 65536 ≤ o.toNat := by omega
      rw [decide_eq_true hcarry, Bool.toNat_true]
      omega

lemma eq_zero_iff (d : UInt16) : d = 0 ↔ d.toNat = 0 := (UInt16.toNat_inj (b := 0)).symm

lemma succ_digit (d : UInt16) :
    (d + 1).toNat + base * (decide (d + 1 = 0)).toNat = d.toNat + 1 := by
  have hd := d.toNat_lt
  have hsum : (d + 1).toNat = (d.toNat + 1) % 65536 := UInt16.toNat_add _ _
  simp only [eq_zero_iff, hsum, base]
  by_cases hmax : d.toNat + 1 = 65536
  · rw [hmax]
    rfl
  · have hnot : ¬ (d.toNat + 1) % 65536 = 0 := by omega
    rw [decide_eq_false hnot, Bool.toNat_false]
    omega

lemma pred_digit (d : UInt16) : (d - 1).toNat = (d.toNat + 65535) % 65536 := by
  rw [UInt16.toNat_sub]
  show (65536 - 1 + d.toNat) % 65536 = _
  omega

lemma increment_value (carry allZero : Bool) (ds : List UInt16) :
    value (increment carry allZero ds).1 +
      base ^ ds.length * (increment carry allZero ds).2.1.toNat = value ds + carry.toNat := by
  induction ds generalizing carry with
  | nil => simp [increment]
  | cons d ds ih =>
    cases carry
    · simp [increment]
    · have hdigit := succ_digit d
      have hrest := ih (decide (d + 1 = 0))
      simp only [increment, if_true, value_cons, List.length_cons, pow_succ, Bool.toNat_true]
      linear_combination hdigit + base * hrest

lemma increment_length (carry allZero : Bool) (ds : List UInt16) :
    (increment carry allZero ds).1.length = ds.length := by
  induction ds generalizing carry with
  | nil => rfl
  | cons d ds ih => cases carry <;> simp [increment, ih]

lemma decrement_length (carry allZero : Bool) (ds : List UInt16) :
    (decrement carry allZero ds).1.length = ds.length := by
  induction ds generalizing carry allZero with
  | nil => rfl
  | cons d ds ih => simp [decrement, ih]

lemma decrement_allZero (carry allZero : Bool) (ds : List UInt16) :
    (decrement carry allZero ds).2.2 = true ↔
      allZero = true ∧ value (decrement carry allZero ds).1 = 0 := by
  induction ds generalizing carry allZero with
  | nil => simp [decrement]
  | cons d ds ih =>
    have hzero : (d - 1).toNat = 0 ↔ d - 1 = 0 := UInt16.toNat_inj (b := 0)
    simp [decrement, ih, hzero, and_assoc]

/-- Taking one from every digit adds the digits of a sign only where no carry comes in and at
most the top digit is not zero. -/
lemma decrement_value (carry allZero : Bool) (ds : List UInt16) :
    value (decrement carry allZero ds).1 +
      base ^ ds.length * (decrement carry allZero ds).2.1.toNat + 1 =
        value ds + carry.toNat + base ^ ds.length ↔
      ds = [] ∨ carry = false ∧ ∀ d ∈ ds.dropLast, d = 0 := by
  induction ds generalizing carry allZero with
  | nil => simp [decrement]
  | cons d ds ih =>
    have hd := d.toNat_lt
    have hpred := pred_digit d
    have hrest := ih (carry || decide (d - 1 < 65535)) (allZero && decide (d - 1 = 0))
    have hlt : d - 1 < 65535 ↔ d ≠ 0 := by
      rw [UInt16.lt_iff_toNat_lt, hpred, ne_eq, eq_zero_iff]
      show (d.toNat + 65535) % 65536 < 65535 ↔ _
      omega
    set r := decrement (carry || decide (d - 1 < 65535)) (allZero && decide (d - 1 = 0)) ds with hr
    have hunfold : decrement carry allZero (d :: ds) = ((d - 1) :: r.1, r.2) := by
      rw [hr, decrement]
    have hunits : base ^ (d :: ds).length * r.2.1.toNat = 65536 * (base ^ ds.length * r.2.1.toNat) ∧
        base ^ (d :: ds).length = 65536 * base ^ ds.length := by
      rw [List.length_cons, pow_succ]
      exact ⟨by ring, Nat.mul_comm _ _⟩
    rw [hunfold, value_cons, value_cons, hunits.1, hunits.2, hpred]
    generalize base ^ ds.length * r.2.1.toNat = high at hrest ⊢
    generalize base ^ ds.length = power at hrest ⊢
    simp only [base]
    by_cases hzero : d = 0
    · -- no carry comes out of a zero
      have htoNat : d.toNat = 0 := (eq_zero_iff d).1 hzero
      have hdrop : (∀ d' ∈ (d :: ds).dropLast, d' = 0) ↔ ds = [] ∨ ∀ d' ∈ ds.dropLast, d' = 0 := by
        cases ds <;> simp [hzero]
      rw [decide_eq_false fun h => hlt.1 h hzero, Bool.or_false] at hrest
      rw [hdrop]
      cases carry with
      | false =>
        simp only [true_and, Bool.toNat_false, reduceCtorEq, false_or] at hrest ⊢
        rw [← hrest]
        omega
      | true =>
        simp only [reduceCtorEq, false_and, or_false, Bool.toNat_true, iff_false]
        omega
    · -- out of any other digit a carry comes
      have htoNat : d.toNat ≠ 0 := fun h => hzero ((eq_zero_iff d).2 h)
      have hdrop : (∀ d' ∈ (d :: ds).dropLast, d' = 0) ↔ ds = [] := by
        cases ds <;> simp [hzero]
      rw [decide_eq_true (hlt.2 hzero), Bool.or_true] at hrest
      simp only [reduceCtorEq, false_and, or_false, Bool.toNat_true] at hrest
      rw [hdrop]
      cases carry with
      | false =>
        simp only [true_and, Bool.toNat_false, reduceCtorEq, false_or]
        rw [← hrest]
        omega
      | true =>
        simp only [reduceCtorEq, false_and, or_false, Bool.toNat_true, iff_false]
        omega

lemma addDigits_length (neg carry allZero : Bool) (ds other : List UInt16) :
    (addDigits neg carry allZero ds other).1.length = ds.length := by
  induction other generalizing carry allZero ds with
  | nil => cases ds <;> cases neg <;> simp [addDigits, increment_length, decrement_length]
  | cons o other ih =>
    cases ds with
    | nil => cases neg <;> simp [addDigits, increment_length, decrement_length]
    | cons d ds => simp [addDigits, ih]

lemma addDigits_allZero (carry allZero : Bool) (ds other : List UInt16) :
    (addDigits true carry allZero ds other).2.2 = true ↔
      allZero = true ∧ value (addDigits true carry allZero ds other).1 = 0 := by
  induction other generalizing carry allZero ds with
  | nil => cases ds <;> simp [addDigits, decrement_allZero]
  | cons o other ih =>
    cases ds with
    | nil => simp [addDigits, decrement_allZero]
    | cons d ds =>
      have hzero := eq_zero_iff (d + (o + carry.toUInt16))
      simp [addDigits, ih, hzero, and_assoc]

/-- Above a nonnegative operand. -/
lemma addDigits_value (carry allZero : Bool) {ds other : List UInt16}
    (hlen : other.length ≤ ds.length) :
    value (addDigits false carry allZero ds other).1 +
      base ^ ds.length * (addDigits false carry allZero ds other).2.1.toNat =
        value ds + value other + carry.toNat := by
  induction other generalizing carry allZero ds with
  | nil =>
    have hincrement := increment_value carry allZero ds
    have hunfold : addDigits false carry allZero ds [] = increment carry allZero ds := by
      cases ds <;> simp [addDigits]
    simpa [hunfold] using hincrement
  | cons o other ih =>
    obtain _ | ⟨d, ds⟩ := ds
    · exact absurd hlen (by simp)
    · have hdigit := add_digit d o carry
      have hrest := ih (if carry then decide (d + (o + carry.toUInt16) ≤ o)
        else decide (d + (o + carry.toUInt16) < o)) (allZero && decide (d + (o + carry.toUInt16) = 0))
        (Nat.le_of_succ_le_succ hlen)
      simp only [addDigits, value_cons, List.length_cons, pow_succ]
      linear_combination hdigit + base * hrest

/-- Above a negative operand: exact without digits above it, or with no carry into them and
none of them but the top one different from zero. -/
lemma addDigits_negative_value (carry allZero : Bool) {ds other : List UInt16}
    (hlen : other.length ≤ ds.length) :
    value (addDigits true carry allZero ds other).1 +
      base ^ ds.length * (addDigits true carry allZero ds other).2.1.toNat + base ^ other.length =
        value ds + value other + carry.toNat + base ^ ds.length ↔
      ds.drop other.length = [] ∨
        value (ds.take other.length) + value other + carry.toNat < base ^ other.length ∧
          ∀ d ∈ (ds.drop other.length).dropLast, d = 0 := by
  induction other generalizing carry allZero ds with
  | nil =>
    have hdecrement := decrement_value carry allZero ds
    have hcarry : carry = false ↔ carry.toNat < 1 := by cases carry <;> simp
    have hunfold : addDigits true carry allZero ds [] = decrement carry allZero ds := by
      cases ds <;> simp [addDigits]
    rw [hcarry] at hdecrement
    simpa [hunfold] using hdecrement
  | cons o other ih =>
    obtain _ | ⟨d, ds⟩ := ds
    · exact absurd hlen (by simp)
    · have hdigit := add_digit d o carry
      have hrest := ih (if carry then decide (d + (o + carry.toUInt16) ≤ o)
        else decide (d + (o + carry.toUInt16) < o)) (allZero && decide (d + (o + carry.toUInt16) = 0))
        (Nat.le_of_succ_le_succ hlen)
      have hlt := (d + (o + carry.toUInt16)).toNat_lt
      simp only [addDigits, value_cons, List.length_cons, List.drop_succ_cons,
        List.take_succ_cons, pow_succ, Nat.mul_right_comm _ base]
      generalize (if carry then decide (d + (o + carry.toUInt16) ≤ o)
        else decide (d + (o + carry.toUInt16) < o)) = carry' at hdigit hrest ⊢
      generalize addDigits true carry' _ ds other = r at hrest ⊢
      generalize base ^ ds.length * r.2.1.toNat = high at hrest ⊢
      generalize base ^ ds.length = power at hrest ⊢
      generalize base ^ other.length = power' at hrest ⊢
      generalize value (ds.take other.length) = window at hrest ⊢
      simp only [base] at hdigit ⊢
      have hwindow : d.toNat + 65536 * window + (o.toNat + 65536 * value other) + carry.toNat <
          power' * 65536 ↔ window + value other + carry'.toNat < power' := by
        omega
      rw [hwindow, ← hrest]
      omega

end loops

end CoreCommon.Digital
