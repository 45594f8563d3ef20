import CoreCommon.DigitalMul

/-! Shifting `Digital`s by any number of bits. By whole digits only the exponent moves. Else the
digits are shifted as those of a natural number, and a shift to the right moves the exponent up
by the digits it should move down. -/
namespace CoreCommon.Digital
open Words

/-- `operator>>`, whose `-x` overflows for the least `int`. -/
def shr (x : Digital) (k : Int32) : Run Digital :=
  if k = Int32.minValue then .error .undefined else .ok (x.shl (-k.toInt))

/-- Both shifts scale, and the one to the right undoes the one to the left. -/
def Scales (x : Digital) (k : Int32) : Prop :=
  (x.shl k.toInt).val = x.val * 2 ^ k.toInt ∧
    (∃ y, x.shr k = .ok y ∧ y.val = x.val * 2 ^ (-k.toInt)) ∧
      ∃ y, (x.shl k.toInt).shr k = .ok y ∧ y.val = x.val

/-! ### The loop over the digits -/

section loop
variable {k : ℕ} {neg : Bool} {e : ℤ} {ds : List UInt16}

/-- One digit and what comes from the one below, in two digits. -/
lemma shift_digit (hk : 0 < k) (hk' : k < 16) (d : UInt16) {rest : UInt16} (hrest : rest.toNat < 2 ^ k) :
    ((d <<< k.toUInt16) + rest).toNat + base * (d >>> (16 - k.toUInt16)).toNat =
      d.toNat * 2 ^ k + rest.toNat ∧ (d >>> (16 - k.toUInt16)).toNat < 2 ^ k := by
  have hd := d.toNat_lt
  have hamount : k.toUInt16.toNat = k := Nat.mod_eq_of_lt (by omega)
  have hrest' : (16 - k.toUInt16).toNat = 16 - k := by
    rw [UInt16.toNat_sub_of_le _ _ (UInt16.le_iff_toNat_le.2 (by rw [hamount]; exact hk'.le)), hamount]
    rfl
  have hsplit : 2 ^ k * 2 ^ (16 - k) = 65536 := by
    rw [← Nat.pow_add, Nat.add_sub_cancel' hk'.le]
  have hleft : (d <<< k.toUInt16).toNat = 2 ^ k * (d.toNat % 2 ^ (16 - k)) := by
    rw [UInt16.toNat_shiftLeft, hamount, Nat.mod_eq_of_lt hk', Nat.shiftLeft_eq, Nat.mul_comm,
      show 2 ^ 16 = 2 ^ k * 2 ^ (16 - k) from hsplit.symm, Nat.mul_mod_mul_left]
  have hright : (d >>> (16 - k.toUInt16)).toNat = d.toNat / 2 ^ (16 - k) := by
    rw [UInt16.toNat_shiftRight, hrest', Nat.mod_eq_of_lt (by omega), Nat.shiftRight_eq_div_pow]
  have hlow : d.toNat % 2 ^ (16 - k) + 1 ≤ 2 ^ (16 - k) := Nat.mod_lt _ (by positivity)
  have hfits : 2 ^ k * (d.toNat % 2 ^ (16 - k)) + rest.toNat < 65536 := by
    calc 2 ^ k * (d.toNat % 2 ^ (16 - k)) + rest.toNat
        < 2 ^ k * (d.toNat % 2 ^ (16 - k)) + 2 ^ k := Nat.add_lt_add_left hrest _
      _ = 2 ^ k * (d.toNat % 2 ^ (16 - k) + 1) := (Nat.mul_succ _ _).symm
      _ ≤ 2 ^ k * 2 ^ (16 - k) := Nat.mul_le_mul_left _ hlow
      _ = 65536 := hsplit
  have hdigit := Nat.div_add_mod d.toNat (2 ^ (16 - k))
  rw [UInt16.toNat_add, hleft, hright, Nat.mod_eq_of_lt hfits]
  refine ⟨?_, Nat.div_lt_of_lt_mul (by rw [Nat.mul_comm, hsplit]; exact hd)⟩
  calc 2 ^ k * (d.toNat % 2 ^ (16 - k)) + rest.toNat + base * (d.toNat / 2 ^ (16 - k))
      = 2 ^ k * (2 ^ (16 - k) * (d.toNat / 2 ^ (16 - k)) + d.toNat % 2 ^ (16 - k)) + rest.toNat := by
        rw [Nat.mul_add, ← Nat.mul_assoc, hsplit]
        ring
    _ = d.toNat * 2 ^ k + rest.toNat := by rw [hdigit, Nat.mul_comm]

lemma shiftLoop_value (hk : 0 < k) (hk' : k < 16) (rest : UInt16) (hrest : rest.toNat < 2 ^ k)
    (ds : List UInt16) :
    value (shiftLoop k.toUInt16 rest ds).1 +
      base ^ ds.length * (shiftLoop k.toUInt16 rest ds).2.toNat = value ds * 2 ^ k + rest.toNat := by
  induction ds generalizing rest with
  | nil => simp [shiftLoop]
  | cons d ds ih =>
    obtain ⟨hdigit, hnext⟩ := shift_digit hk hk' d hrest
    have hih := ih _ hnext
    simp only [shiftLoop, value_cons, List.length_cons, pow_succ]
    linear_combination hdigit + base * hih

lemma shiftLoop_length (k rest : UInt16) (ds : List UInt16) :
    (shiftLoop k rest ds).1.length = ds.length := by
  induction ds generalizing rest with
  | nil => rfl
  | cons d ds ih => simp [shiftLoop, ih]

/-- A digit shifted out takes the place above. -/
lemma val_shiftDigits (hk : 0 < k) (hk' : k < 16) (neg : Bool) (e : ℤ) (ds : List UInt16) :
    ∃ n, ds.length ≤ n ∧ n ≤ ds.length + 1 ∧ (shiftDigits ⟨neg, e, ds⟩ k).val =
      (base : ℚ) ^ (e + 1 - ds.length) * ((value ds.reverse : ℚ) * 2 ^ k - signed neg n) := by
  have hlen := shiftLoop_length k.toUInt16 0 ds.reverse
  have hvalue := shiftLoop_value hk hk' 0 (by positivity) ds.reverse
  have hshift : shiftDigits ⟨neg, e, ds⟩ k = (if (shiftLoop k.toUInt16 0 ds.reverse).2 ≠ 0 then
      (⟨neg, e + 1, (shiftLoop k.toUInt16 0 ds.reverse).2 ::
        (shiftLoop k.toUInt16 0 ds.reverse).1.reverse⟩ : Digital)
    else ⟨neg, e, (shiftLoop k.toUInt16 0 ds.reverse).1.reverse⟩).trim := rfl
  set r := shiftLoop k.toUInt16 0 ds.reverse
  rw [List.length_reverse] at hlen hvalue
  rw [UInt16.toNat_zero, Nat.add_zero] at hvalue
  have hcast : (value r.1 : ℚ) + (base : ℚ) ^ ds.length * r.2.toNat = value ds.reverse * 2 ^ k := by
    exact_mod_cast hvalue
  rw [hshift, val_trim]
  by_cases hout : r.2 = 0
  · refine ⟨ds.length, le_rfl, Nat.le_succ _, ?_⟩
    rw [hout, UInt16.toNat_zero, Nat.cast_zero, mul_zero, add_zero] at hcast
    rw [if_neg (not_not.2 hout), val_eq, List.length_reverse, List.reverse_reverse, hlen, hcast]
  · refine ⟨ds.length + 1, Nat.le_succ _, le_rfl, ?_⟩
    have hplace : e + 1 + 1 - ((r.2 :: r.1.reverse).length : ℤ) = e + 1 - ds.length := by
      rw [List.length_cons, List.length_reverse, hlen]
      push_cast
      ring
    rw [if_pos hout, val_eq, hplace, List.length_cons, List.length_reverse, List.reverse_cons,
      List.reverse_reverse, value_append, hlen, value_cons, value_nil, ← hcast]
    push_cast
    ring

end loop

/-! ### Both ways of shifting -/

section shift
variable {x : Digital} {k : ℤ}

/-- The digits that a shift to the right goes too far up. -/
def excess (k : ℤ) : ℕ := if k < 0 then 2 * (k.natAbs / 16) else 0

lemma excess_eq_zero_iff {k : ℤ} : excess k = 0 ↔ -16 < k := by
  unfold excess
  split_ifs <;> omega

lemma two_zpow_add (i j : ℤ) : (2 : ℚ) ^ (i + j) = 2 ^ i * 2 ^ j := zpow_add₀ (by norm_num) i j

lemma val_move (neg : Bool) (e i : ℤ) (ds : List UInt16) :
    val ⟨neg, e + i, ds⟩ = val ⟨neg, e, ds⟩ * (base : ℚ) ^ i := by
  have hplace : (base : ℚ) ^ (e + i + 1 - ds.length) =
      (base : ℚ) ^ (e + 1 - ds.length) * (base : ℚ) ^ i := by
    rw [← zpow_add₀ (by norm_num)]
    congr 1
    ring
  rw [val_eq, val_eq, hplace]
  ring

/-- By whole digits. -/
lemma val_shl_of_dvd (x : Digital) (h : 16 ∣ k) : (x.shl k).val = x.val * 2 ^ k := by
  obtain ⟨i, rfl⟩ := h
  have hmod : (16 * i).tmod 16 = 0 := Int.mul_tmod_right 16 i
  have hdiv : (16 * i).tdiv 16 = i := Int.mul_tdiv_cancel_left i (by norm_num)
  rw [shl, if_pos hmod, hdiv, val_move, two_zpow]

/-- By a part of a digit, after the exponent has moved. -/
lemma shl_eq_shiftDigits (x : Digital) (h : ¬16 ∣ k) : ∃ (i : ℤ) (r : ℕ), 0 < r ∧ r < 16 ∧
    16 * i + r = k + 16 * excess k ∧
      x.shl k = shiftDigits ⟨x.negative, x.exponent + i, x.digits⟩ r := by
  have hmod : k.tmod 16 ≠ 0 := fun h0 => h (Int.dvd_of_tmod_eq_zero h0)
  by_cases hneg : k < 0
  · obtain ⟨n, rfl⟩ : ∃ n : ℕ, k = -n := ⟨k.natAbs, by omega⟩
    have htmod : (-(n : ℤ)).tmod 16 = -((n % 16 : ℕ) : ℤ) := by
      rw [Int.neg_tmod]
      rfl
    have htdiv : (-(n : ℤ)).tdiv 16 = -((n / 16 : ℕ) : ℤ) := by
      rw [Int.neg_tdiv]
      rfl
    rw [htmod] at hmod
    refine ⟨(n / 16 : ℕ) - 1, 16 - n % 16, by omega, by omega, ?_, ?_⟩
    · rw [excess, if_pos hneg]
      omega
    · rw [shl, if_neg (by rwa [htmod]), if_pos hneg, htmod, htdiv]
      congr 1
      · congr 1
        omega
      · omega
  · obtain ⟨n, rfl⟩ : ∃ n : ℕ, k = n := ⟨k.toNat, by omega⟩
    have htmod : (n : ℤ).tmod 16 = (n % 16 : ℕ) := rfl
    have htdiv : (n : ℤ).tdiv 16 = (n / 16 : ℕ) := rfl
    rw [htmod] at hmod
    refine ⟨(n / 16 : ℕ), n % 16, by omega, by omega, ?_, ?_⟩
    · rw [excess, if_neg hneg]
      omega
    · rw [shl, if_neg (by rwa [htmod]), if_neg hneg, htmod, htdiv]
      rfl

lemma shl_negative (x : Digital) (k : ℤ) : (x.shl k).negative = x.negative := by
  have hdigits : ∀ (y : Digital) (r : ℕ), (shiftDigits y r).negative = y.negative := by
    intro y r
    unfold shiftDigits trim
    dsimp only
    split_ifs <;> rfl
  unfold shl
  split_ifs
  · rfl
  · exact hdigits _ _
  · exact hdigits _ _

lemma val_shl_unsigned (hx : x.negative = false) (h : ¬16 ∣ k) :
    (x.shl k).val = x.val * 2 ^ (k + 16 * excess k) := by
  obtain ⟨i, r, hr, hr', hk, hshl⟩ := shl_eq_shiftDigits x h
  obtain ⟨n, -, -, hval⟩ := val_shiftDigits hr hr' x.negative (x.exponent + i) x.digits
  have hself : x.val = val ⟨false, x.exponent, x.digits⟩ := by rw [← hx]
  have hmove := val_move false x.exponent i x.digits
  rw [val_unsigned] at hmove
  rw [hshl, hval, hx, signed, if_neg Bool.false_ne_true, sub_zero, ← hk, two_zpow_add, two_zpow,
    zpow_natCast, ← mul_assoc, hmove, hself, mul_assoc]

/-- The sign stands for a power of the base that is not shifted. -/
lemma val_shl_signed (hx : x.negative = true) (h : ¬16 ∣ k) (hk : 0 < k) :
    (x.shl k).val ≠ x.val * 2 ^ k := by
  obtain ⟨i, r, hr, hr', hir, hshl⟩ := shl_eq_shiftDigits x h
  obtain ⟨n, hn, hn', hval⟩ := val_shiftDigits hr hr' x.negative (x.exponent + i) x.digits
  have hself : x.val * (base : ℚ) ^ i = val ⟨true, x.exponent + i, x.digits⟩ := by
    rw [val_move, ← hx]
  have hzero : excess k = 0 := excess_eq_zero_iff.2 (by omega)
  have hpow : (2 : ℚ) ^ k = (base : ℚ) ^ i * 2 ^ r := by
    rw [← two_zpow, ← zpow_natCast, ← two_zpow_add, hir, hzero]
    simp
  rw [hshl, hval, hpow, ← mul_assoc, hself, val_eq, hx, mul_assoc,
    Ne, mul_right_inj' (base_zpow_pos _).ne', sub_mul, sub_right_inj]
  simp only [signed, if_true]
  have htwo : 2 ≤ 2 ^ r := Nat.le_self_pow hr.ne' 2
  have hlt : 2 ^ r < base := Nat.pow_lt_pow_right (by norm_num) hr'
  have hcases : n = x.digits.length ∨ n = x.digits.length + 1 := by omega
  intro heq
  have hnat : base ^ n = base ^ x.digits.length * 2 ^ r := by exact_mod_cast heq
  have hpos : 0 < base ^ x.digits.length := by positivity
  rcases hcases with rfl | rfl
  · have : 2 ^ r = 1 := Nat.eq_of_mul_eq_mul_left hpos (by rw [← hnat, Nat.mul_one])
    omega
  · rw [pow_succ] at hnat
    have := Nat.eq_of_mul_eq_mul_left hpos hnat
    omega

/-- Where no shift to the right goes over a whole digit, or there is nothing to shift. -/
lemma val_shl_exact (hx : x.negative = false) (h : x.val = 0 ∨ -16 < k) :
    (x.shl k).val = x.val * 2 ^ k := by
  by_cases hdvd : 16 ∣ k
  · exact val_shl_of_dvd x hdvd
  · rw [val_shl_unsigned hx hdvd]
    rcases h with hzero | hk
    · rw [hzero, zero_mul, zero_mul]
    · rw [excess_eq_zero_iff.2 hk]
      simp

/-- A shift to the right over a whole digit and a part of one is too large. -/
lemma val_shl_excess (hx : x.negative = false) (hval : x.val ≠ 0) (h : ¬16 ∣ k) (hk : k ≤ -16) :
    (x.shl k).val ≠ x.val * 2 ^ k := by
  have hpos : 0 < excess k := Nat.pos_of_ne_zero fun h0 => by
    have := excess_eq_zero_iff.1 h0
    omega
  rw [val_shl_unsigned hx h, Ne, mul_right_inj' hval]
  exact (zpow_right_injective₀ (by norm_num) (by norm_num)).ne (by omega)

end shift

/-- Shifting scales exactly by whole digits, and for numbers without a sign also by less than a
digit; a zero stays zero. The least `int` has no opposite. -/
theorem scales_iff (x : Digital) (k : Int32) : Scales x k ↔ k ≠ Int32.minValue ∧
    (16 ∣ k.toInt ∨ x.negative = false ∧ (x.val = 0 ∨ -16 < k.toInt ∧ k.toInt < 16)) := by
  have hshr : ∀ y : Digital, k ≠ Int32.minValue → y.shr k = .ok (y.shl (-k.toInt)) :=
    fun y hk => if_neg hk
  have hback : ∀ q : ℚ, q * 2 ^ k.toInt * 2 ^ (-k.toInt) = q := by
    intro q
    rw [mul_assoc, ← two_zpow_add, add_neg_cancel, zpow_zero, mul_one]
  constructor
  · rintro ⟨hleft, ⟨y, hy, hright⟩, -⟩
    have hmin : k ≠ Int32.minValue := by
      rintro rfl
      cases hy
    rw [hshr x hmin, Except.ok.injEq] at hy
    subst hy
    refine ⟨hmin, or_iff_not_imp_left.2 fun hdvd => ?_⟩
    have hdvd' : ¬16 ∣ -k.toInt := fun h => hdvd (Int.dvd_neg.1 h)
    have hne : k.toInt ≠ 0 := fun h => hdvd (h ▸ dvd_zero _)
    cases hx : x.negative with
    | true =>
      rcases lt_or_gt_of_ne hne with hneg | hpos
      · exact absurd hright (val_shl_signed hx hdvd' (by omega))
      · exact absurd hleft (val_shl_signed hx hdvd hpos)
    | false =>
      refine ⟨rfl, or_iff_not_imp_left.2 fun hval => ?_⟩
      by_contra hfar
      by_cases hpos : 0 < k.toInt
      · exact val_shl_excess hx hval hdvd' (by omega) hright
      · exact val_shl_excess hx hval hdvd (by omega) hleft
  · rintro ⟨hmin, h⟩
    rcases h with hdvd | ⟨hx, h⟩
    · have hdvd' : 16 ∣ -k.toInt := Int.dvd_neg.2 hdvd
      refine ⟨val_shl_of_dvd x hdvd, ⟨_, hshr x hmin, val_shl_of_dvd x hdvd'⟩, _, hshr _ hmin, ?_⟩
      rw [val_shl_of_dvd _ hdvd', val_shl_of_dvd x hdvd, hback]
    · have hleft := val_shl_exact (k := k.toInt) hx (h.imp_right And.left)
      have hright := val_shl_exact (k := -k.toInt) hx (h.imp_right fun h => by omega)
      refine ⟨hleft, ⟨_, hshr x hmin, hright⟩, _, hshr _ hmin, ?_⟩
      rw [val_shl_exact ((shl_negative x _).trans hx), hleft, hback]
      exact h.imp (fun h0 => by rw [hleft, h0, zero_mul]) fun h => by omega

/-- Minus one shifted by one bit: the sign digit stays where it was and a new one is made. -/
theorem minus_one_not_doubled : shl ⟨true, 0, [65535]⟩ 1 = ⟨true, 1, [1, 65534]⟩ ∧
    ¬∀ x k, Scales x k := by
  refine ⟨by decide, fun h => ?_⟩
  exact val_shl_signed (x := ⟨true, 0, [65535]⟩) rfl (by decide) (by decide)
    (h ⟨true, 0, [65535]⟩ 1).1

end CoreCommon.Digital
