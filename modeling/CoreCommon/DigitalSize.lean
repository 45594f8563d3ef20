import CoreCommon.DigitalCompare
import CoreCommon.DigitalShift

/-! How large a trimmed `Digital` is, and where its first and its last digit stand. A sum is
trimmed, and a number without a sign may be multiplied by a negative one. -/
namespace CoreCommon.Words

/-- The highest digit of a number, zero for zero. -/
def topDigit (n : ℕ) : ℕ := n / base ^ Nat.log base n

lemma topDigit_eq {n k : ℕ} (hle : base ^ k ≤ n) (hlt : n < base ^ (k + 1)) :
    topDigit n = n / base ^ k := by
  rw [topDigit, Nat.log_eq_of_pow_le_of_lt_pow hle hlt]

/-- A power of the base in the units of a place below. -/
lemma place_le {v m : ℕ} {i j : ℤ} (h : (base : ℚ) ^ i * v = m * (base : ℚ) ^ j)
    (hv : v % base ≠ 0) : j ≤ i := by
  by_contra hlt
  obtain ⟨k, hk⟩ : ∃ k : ℕ, j = i + (k + 1 : ℕ) := ⟨(j - i - 1).toNat, by omega⟩
  have hi : (base : ℚ) ^ i ≠ 0 := (zpow_pos (by norm_num) i).ne'
  rw [hk, zpow_add₀ (by norm_num), zpow_natCast, mul_left_comm, mul_right_inj' hi] at h
  have hvalue : v = m * base ^ (k + 1) := by exact_mod_cast h
  rw [pow_succ, ← Nat.mul_assoc] at hvalue
  exact hv (hvalue ▸ Nat.mul_mod_left _ _)

end CoreCommon.Words

namespace CoreCommon.Digital
open Words

/-! ### The first and the last digit -/

section size
variable {x : Digital} {e : ℤ} {m : ℕ}

/-- The lowest place that has a digit. -/
def low (x : Digital) : ℤ := x.exponent + 1 - x.digits.length

lemma val_low (h : x.negative = false) : x.val = (base : ℚ) ^ x.low * value x.digits.reverse := by
  rw [val_fields, h, signed, if_neg Bool.false_ne_true, sub_zero]
  rfl

lemma base_zpow_top (x : Digital) :
    (base : ℚ) ^ (x.exponent + 1) = (base : ℚ) ^ x.low * (base : ℚ) ^ x.digits.length := by
  rw [low, ← base_zpow_add, sub_add_cancel]

lemma val_lt_top (h : x.negative = false) : x.val < (base : ℚ) ^ (x.exponent + 1) := by
  have hlt := value_lt x.digits.reverse
  rw [List.length_reverse] at hlt
  rw [val_low h, base_zpow_top]
  exact mul_lt_mul_of_pos_left (by exact_mod_cast hlt) (base_zpow_pos _)

/-- A sign takes off no more than this. -/
lemma neg_le_val (x : Digital) : -(base : ℚ) ^ (x.exponent + 1) ≤ x.val := by
  have hsigned : signed x.negative x.digits.length ≤ (base : ℚ) ^ x.digits.length := by
    unfold signed
    split_ifs
    · exact le_rfl
    · positivity
  have hvalue : (0 : ℚ) ≤ value x.digits.reverse := Nat.cast_nonneg _
  rw [val_fields, base_zpow_top, ← mul_neg]
  exact mul_le_mul_of_nonneg_left (by linarith) (base_zpow_pos _).le

lemma negative_of_val_nonneg (h : 0 ≤ x.val) : x.negative = false := by
  by_contra hneg
  exact (val_neg (Bool.eq_true_of_not_eq_false hneg)).not_ge h

lemma negative_of_val_neg (h : x.val < 0) : x.negative = true := by
  by_contra hneg
  exact (val_nonneg (Bool.eq_false_of_not_eq_true hneg)).not_gt h

/-- The first digit of a trimmed number that is not zero. -/
lemma Trimmed.cons (ht : x.Trimmed) (h : x.negative = false) (hne : x.val ≠ 0) :
    ∃ d ds, x.digits = d :: ds ∧ d ≠ 0 := by
  obtain ⟨d, ds, hds⟩ := List.exists_cons_of_ne_nil ht.nonempty
  refine ⟨d, ds, hds, ?_⟩
  cases ds with
  | nil =>
    rintro rfl
    exact hne (by rw [val_low h, hds]; simp)
  | cons d' ds =>
    have hfront := ht.front d d' ds hds
    rwa [h] at hfront

lemma val_cons_unsigned {d : UInt16} {ds : List UInt16} (h : x.negative = false)
    (hds : x.digits = d :: ds) :
    x.val = d.toNat * (base : ℚ) ^ x.exponent + val ⟨false, x.exponent - 1, ds⟩ := by
  rw [← val_unsigned_cons, ← h, ← hds]

lemma Trimmed.le_val (ht : x.Trimmed) (h : x.negative = false) (hne : x.val ≠ 0) :
    (base : ℚ) ^ x.exponent ≤ x.val := by
  obtain ⟨d, ds, hds, hd⟩ := ht.cons h hne
  have hrest : 0 ≤ val ⟨false, x.exponent - 1, ds⟩ := val_nonneg rfl
  have hone : (1 : ℚ) ≤ d.toNat := by
    exact_mod_cast Nat.one_le_iff_ne_zero.2 fun h0 => hd ((eq_zero_iff d).2 h0)
  rw [val_cons_unsigned h hds]
  nlinarith [base_zpow_pos x.exponent]

/-- The exponent of a natural number that is not zero. -/
lemma Trimmed.exponent_eq (ht : x.Trimmed) (h : x.negative = false) {n k : ℕ} (hval : x.val = n)
    (hle : base ^ k ≤ n) (hlt : n < base ^ (k + 1)) : x.exponent = k := by
  have hpos : 0 < n := (show 0 < base ^ k by positivity).trans_le hle
  have hlow := ht.le_val h (by rw [hval]; exact_mod_cast hpos.ne')
  have htop := val_lt_top h
  rw [hval] at hlow htop
  have hbase : (1 : ℚ) < base := by norm_num
  have hle' : (base : ℚ) ^ (k : ℤ) ≤ n := by rw [zpow_natCast]; exact_mod_cast hle
  have hlt' : (n : ℚ) < (base : ℚ) ^ ((k : ℤ) + 1) := by
    rw [← Nat.cast_succ, zpow_natCast]
    exact_mod_cast hlt
  have hup := (zpow_lt_zpow_iff_right₀ hbase).1 (hlow.trans_lt hlt')
  have hdown := (zpow_lt_zpow_iff_right₀ hbase).1 (hle'.trans_lt htop)
  omega

/-- The first digit of a natural number. -/
lemma Trimmed.top_digit (ht : x.Trimmed) (h : x.negative = false) {n : ℕ} (hval : x.val = n) :
    ∃ d ds, x.digits = d :: ds ∧ d.toNat = topDigit n := by
  by_cases hn : n = 0
  · obtain ⟨d, ds, hds⟩ := List.exists_cons_of_ne_nil ht.nonempty
    refine ⟨d, ds, hds, ?_⟩
    have hzero : value x.digits.reverse = 0 := by
      have hprod := val_low h
      rw [hval, hn, Nat.cast_zero, eq_comm, mul_eq_zero] at hprod
      exact_mod_cast hprod.resolve_left (base_zpow_pos _).ne'
    have hd := value_eq_zero.1 hzero d (by simp [hds])
    rw [hd, hn, topDigit, Nat.zero_div, UInt16.toNat_zero]
  · obtain ⟨d, ds, hds, -⟩ := ht.cons h (by rw [hval]; exact_mod_cast hn)
    refine ⟨d, ds, hds, ?_⟩
    have hexponent := ht.exponent_eq h hval (Nat.pow_log_le_self base hn)
      (Nat.lt_pow_succ_log_self (by norm_num) n)
    have hrest : 0 ≤ val ⟨false, x.exponent - 1, ds⟩ := val_nonneg rfl
    have hrest' : val ⟨false, x.exponent - 1, ds⟩ < (base : ℚ) ^ x.exponent := by
      have := val_lt_top (x := ⟨false, x.exponent - 1, ds⟩) rfl
      rwa [show x.exponent - 1 + 1 = x.exponent by ring] at this
    have hsum := val_cons_unsigned h hds
    generalize val ⟨false, x.exponent - 1, ds⟩ = rest at hrest hrest' hsum
    rw [hval] at hsum
    rw [hexponent, zpow_natCast] at hsum hrest'
    rw [topDigit, eq_comm, Nat.div_eq_iff (by positivity)]
    constructor
    · have : (d.toNat : ℚ) * (base : ℚ) ^ Nat.log base n ≤ n := by linarith
      exact_mod_cast this
    · have : (n : ℚ) < (d.toNat + 1) * (base : ℚ) ^ Nat.log base n := by linarith
      have hnat : n < (d.toNat + 1) * base ^ Nat.log base n := by exact_mod_cast this
      rw [Nat.succ_mul] at hnat
      omega

/-- The last digit of a trimmed number that is not zero. -/
lemma Trimmed.value_mod (ht : x.Trimmed) (hne : value x.digits.reverse ≠ 0) :
    value x.digits.reverse % base ≠ 0 := by
  obtain ⟨d, ds, hds⟩ := List.exists_cons_of_ne_nil (mt List.reverse_eq_nil_iff.1 ht.nonempty)
  rw [hds, value_cons] at hne ⊢
  rw [Nat.add_mul_mod_self_left, Nat.mod_eq_of_lt (toNat_lt d), Ne, ← eq_zero_iff]
  rintro rfl
  cases ds with
  | nil => exact hne rfl
  | cons d' ds => exact ht.back 0 d' ds hds rfl

/-- A trimmed number that is a multiple of a power of the base has no digit below it. -/
lemma Trimmed.le_low (ht : x.Trimmed) (h : x.negative = false) (hval : x.val = m * (base : ℚ) ^ e)
    (hm : m ≠ 0) : e ≤ x.low := by
  rw [val_low h] at hval
  refine place_le hval (ht.value_mod fun hzero => hm ?_)
  rw [hzero, Nat.cast_zero, mul_zero, eq_comm, mul_eq_zero] at hval
  exact_mod_cast hval.resolve_right (base_zpow_pos _).ne'

lemma Trimmed.low_eq (ht : x.Trimmed) (h : x.negative = false) (hval : x.val = m * (base : ℚ) ^ e)
    (hm : m % base ≠ 0) : x.low = e := by
  have hm' : m ≠ 0 := fun h0 => hm (by rw [h0, Nat.zero_mod])
  refine le_antisymm ?_ (ht.le_low h hval hm')
  rw [val_low h] at hval
  exact place_le (by rw [mul_comm, ← hval, mul_comm]) hm

end size

/-! ### Sums -/

section sum
variable {x y z : Digital}

lemma pad_ne_nil {e end_ : ℤ} (hx : x.digits ≠ []) (hz : x.pad e end_ = .ok z) : z.digits ≠ [] := by
  unfold pad at hz
  dsimp only at hz
  split_ifs at hz
  · obtain ⟨b, -, hz⟩ := Run.bind_eq_ok.1 hz
    rw [← Except.ok.inj hz]
    simp [hx]
  · rw [← Except.ok.inj hz]
    simp [hx]
  · rw [← Except.ok.inj hz]
    simp [hx]

lemma settle_ne_nil {neg carry allZero : Bool} (hx : x.digits ≠ []) :
    (x.settle neg carry allZero).digits ≠ [] := by
  unfold settle
  split_ifs <;> simp [hx]

lemma add_trimmed (hx : x.digits ≠ []) (hz : x.add y = .ok z) : z.Trimmed := by
  obtain ⟨w, hw, hz⟩ := Run.bind_eq_ok.1 hz
  have hwd := pad_ne_nil hx hw
  rw [← Except.ok.inj hz]
  refine trimmed_trim (settle_ne_nil fun hnil => hwd ?_)
  have hlen := congrArg List.length hnil
  rw [List.length_append, List.length_reverse, addDigits_length, List.length_reverse,
    ← List.length_append, List.take_append_drop] at hlen
  exact List.length_eq_zero_iff.1 hlen

lemma above_eq_nil {e : ℤ} {n : ℕ} (h : x.exponent ≤ e) : x.above e n = [] := by
  rw [above, show (x.exponent - e).toNat = 0 by omega, List.take_zero]

/-- A first digit that is used up by a sum is one, with zeros after it and no carry into them. -/
lemma first_digit_used {a d k p w v : ℕ} (hd : 1 ≤ d)
    (h : w + v + p * (a + base ^ k * d) < p * (base ^ k + 1)) : w + v < p ∧ a = 0 := by
  have hpow : base ^ k ≤ base ^ k * d := Nat.le_mul_of_pos_right _ hd
  have htop : a + base ^ k * d ≤ base ^ k := Nat.lt_succ_iff.1
    (lt_of_mul_lt_mul_left (lt_of_le_of_lt (Nat.le_add_left _ _) h) (Nat.zero_le _))
  have heq : a + base ^ k * d = base ^ k := by omega
  rw [heq, Nat.mul_succ] at h
  exact ⟨by omega, by omega⟩

/-- The digits above an operand that is lower start with the first digit. -/
lemma above_eq_cons {d : UInt16} {ds : List UInt16} (hds : x.digits = d :: ds)
    (hlt : y.exponent < x.exponent) (n : ℕ) : ∃ as, x.above y.exponent n = d :: as := by
  have hnone : (y.exponent - x.exponent).toNat = 0 := by omega
  obtain ⟨k, hk⟩ : ∃ k, (x.exponent - y.exponent).toNat = k + 1 :=
    ⟨(x.exponent - y.exponent).toNat - 1, by omega⟩
  rw [above, aligned, filled, hnone, hk, hds]
  exact ⟨_, rfl⟩

/-- Where a negative number leaves less than the first digit of a number without a sign stands
for, the digits above it are a power of the base, with no carry into them. -/
lemma window_of_lt (hx : x.negative = false) (hxt : x.Trimmed) (hy : y.negative = true)
    (hlt : y.exponent < x.exponent) (hne : x.val ≠ 0)
    (hsum : x.val + y.val < (base : ℚ) ^ x.exponent) :
    value (x.window y.exponent y.digits.length).reverse + value y.digits.reverse <
        base ^ y.digits.length ∧
      ∀ d ∈ (x.above y.exponent y.digits.length).tail, d = 0 := by
  obtain ⟨k, hk⟩ : ∃ k : ℕ, x.exponent = y.exponent + (k + 1 : ℕ) :=
    ⟨(x.exponent - y.exponent - 1).toNat, by omega⟩
  have hk' : (x.exponent - y.exponent).toNat = k + 1 := by omega
  obtain ⟨d, ds, hds, hd⟩ := hxt.cons hx hne
  obtain ⟨as, has⟩ := above_eq_cons hds hlt y.digits.length
  have habove := above_length x y.exponent y.digits.length
  have hhigh := high_length x y.exponent y.digits.length
  have hval := val_aligned (x := x) (e := y.exponent) (n := y.digits.length)
  rw [max_eq_left hlt.le, ← high_append_below] at hval
  have htotal := @val_add_val x.negative _ _ (x.below y.exponent y.digits.length) _ hhigh
  rw [hk', ← hk, hval, hx, hy] at htotal
  rw [hk'] at habove hhigh
  have hwindow : (x.window y.exponent y.digits.length).length = y.digits.length := by
    rw [List.length_append, habove] at hhigh
    omega
  rw [has] at habove htotal ⊢
  generalize x.window y.exponent y.digits.length = window at *
  generalize x.below y.exponent y.digits.length = low at *
  have hpower : (base : ℚ) ^ x.exponent = unit y low * ((base : ℚ) ^ low.length *
      ((base : ℚ) ^ y.digits.length * (base : ℚ) ^ k)) := by
    rw [unit, ← zpow_natCast, ← zpow_natCast, ← zpow_natCast, ← zpow_add₀ (by norm_num),
      ← zpow_add₀ (by norm_num), ← zpow_add₀ (by norm_num), hk]
    congr 1
    push_cast
    ring
  rw [htotal, hpower, mul_lt_mul_iff_right₀ unit_pos] at hsum
  have hlow : (0 : ℚ) ≤ value low.reverse := Nat.cast_nonneg _
  have hpos : 0 < (base : ℚ) ^ low.length := by positivity
  have hcast := lt_of_mul_lt_mul_left (lt_of_le_of_lt (le_add_of_nonneg_left hlow) hsum) hpos.le
  have has' : as.reverse.length = k := by
    rw [List.length_reverse]
    exact Nat.succ.inj habove
  have hvalue : value (d :: as ++ window).reverse = value window.reverse +
      base ^ y.digits.length * (value as.reverse + base ^ k * d.toNat) := by
    rw [List.reverse_append, value_append, List.length_reverse, hwindow, List.reverse_cons,
      value_append, has', value_cons, value_nil, Nat.mul_zero, Nat.add_zero]
  have hnat : value window.reverse + value y.digits.reverse +
      base ^ y.digits.length * (value as.reverse + base ^ k * d.toNat) <
        base ^ y.digits.length * (base ^ k + 1) := by
    rw [hvalue] at hcast
    simp only [signed, if_true, Bool.false_eq_true, if_false, sub_zero] at hcast
    rw [← @Nat.cast_lt ℚ]
    push_cast at hcast ⊢
    linarith
  obtain ⟨hless, hzero⟩ := first_digit_used
    (Nat.one_le_iff_ne_zero.2 (mt (eq_zero_iff d).2 hd)) hnat
  exact ⟨hless, fun d' hd' => value_eq_zero.1 hzero d' (List.mem_reverse.2 hd')⟩

/-- A number without a sign less one that is higher, or as high. -/
lemma sub_exact_of_le (hx : x.negative = false) (hy : y.negative = false)
    (hle : x.exponent ≤ y.exponent) : ∃ z, x.sub y = .ok z ∧ z.val = x.val - y.val :=
  (sub_exact_iff (negates_unsigned hy)).2 (adds_unsigned hx fun _ => .inl (above_eq_nil hle))

/-- A negative number added to one without a sign. Digits above it must be a power of the base,
which is what they are when only digits below the first one are left. -/
lemma add_negative_exact (hx : x.negative = false) (hxt : x.Trimmed) (hy : y.negative = true)
    (h : x.exponent ≤ y.exponent ∨ x.val ≠ 0 ∧ x.val + y.val < (base : ℚ) ^ x.exponent) :
    ∃ z, x.add y = .ok z ∧ z.val = x.val + y.val := by
  refine (add_exact_iff x y).2 (adds_unsigned hx fun _ => ?_)
  rcases le_or_gt x.exponent y.exponent with hle | hlt
  · exact .inl (above_eq_nil hle)
  · obtain ⟨hne, hsum⟩ := h.resolve_left hlt.not_ge
    exact .inr (window_of_lt hx hxt hy hlt hne hsum)

end sum

/-! ### Products -/

section product
variable {x y : Digital}

lemma mulRows_unsigned (neg : Bool) (y x : Digital) (e : ℤ) (ds : List UInt16) :
    mulRows y x e ds = mulRows { y with negative := neg } x e ds := by
  induction ds generalizing x e with
  | nil => rfl
  | cons d ds ih =>
    rw [mulRows, mulRows]
    refine congrArg _ (funext fun z => ?_)
    exact ih z (e - 1)

lemma val_sign (h : x.negative = true) :
    x.val = val ⟨false, x.exponent, x.digits⟩ - (base : ℚ) ^ (x.exponent + 1) := by
  rw [val_fields, h, val_unsigned, base_zpow_top, low, signed, if_pos rfl, mul_sub]

/-- The product by a negative number is made without its sign, and what the sign stands for is
taken off. -/
lemma mul_negative_exact (hx : x.negative = false) (hxt : x.Trimmed) (hxne : x.val ≠ 0)
    (hy : y.negative = true) (hyne : value y.digits.reverse ≠ 0) :
    ∃ z, x.mul y = .ok z ∧ z.val = x.val * y.val := by
  set y' : Digital := { y with negative := false } with hy'
  have hyd : y'.digits ≠ [] := by
    rintro hnil
    exact hyne (by rw [show y.digits = [] from hnil]; rfl)
  have hself : val ⟨false, x.exponent, x.digits⟩ = x.val := by rw [← hx]
  obtain ⟨w, hw, hwneg, hwdigits, hwval⟩ := mulRows_exact
    (x := ⟨false, x.exponent + y.exponent, []⟩) (y := y') rfl hyd x.exponent x.digits rfl
  rw [val_unsigned_nil, zero_add, hself] at hwval
  have hshift : x.shl (16 * (y.exponent + 1)) =
      { x with exponent := x.exponent + (y.exponent + 1) } := by
    rw [shl, if_pos (Int.mul_tmod_right 16 _), Int.mul_tdiv_cancel_left _ (by norm_num)]
  have hshiftval : (x.shl (16 * (y.exponent + 1))).val = x.val * (base : ℚ) ^ (y.exponent + 1) := by
    rw [val_shl_of_dvd x (Int.dvd_mul_right 16 _), two_zpow]
  have hwt := trimmed_trim (hwdigits (.inr hxt.nonempty))
  have hwneg' : w.trim.negative = false := hwneg
  have hyval : 0 < y'.val := by
    rw [val_low (x := y') rfl]
    exact mul_pos (base_zpow_pos _) (by exact_mod_cast Nat.pos_of_ne_zero hyne)
  have hxpos : 0 < x.val := (val_nonneg hx).lt_of_ne' hxne
  have hle : w.trim.exponent ≤ (x.shl (16 * (y.exponent + 1))).exponent := by
    have hlow := hwt.le_val hwneg' (by rw [val_trim, hwval]; exact (mul_pos hxpos hyval).ne')
    have hxlt := val_lt_top hx
    have hylt := val_lt_top (x := y') rfl
    rw [val_trim, hwval] at hlow
    have hlt : (base : ℚ) ^ w.trim.exponent < (base : ℚ) ^ (x.exponent + 1 + (y.exponent + 1)) := by
      rw [zpow_add₀ (by norm_num)]
      exact hlow.trans_lt (mul_lt_mul'' hxlt hylt hxpos.le hyval.le)
    have := (zpow_lt_zpow_iff_right₀ (by norm_num)).1 hlt
    rw [hshift]
    show w.trim.exponent ≤ x.exponent + (y.exponent + 1)
    omega
  obtain ⟨z, hz, hzval⟩ := sub_exact_of_le hwneg' ((shl_negative x _).trans hx) hle
  refine ⟨z, ?_, ?_⟩
  · rw [mul, mulRows_unsigned false, hw, Run.bind_ok, hx, hy]
    exact hz
  · rw [hzval, val_trim, hwval, hshiftval, val_sign hy, mul_sub]

end product

end CoreCommon.Digital
