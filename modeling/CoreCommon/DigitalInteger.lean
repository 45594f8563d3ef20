import CoreCommon.DigitalMul

/-! `Digital`s made from machine integers. The sign of an `int64_t` does not reach the number. -/
namespace CoreCommon.Digital
open Words

/-- `Digital(int64_t x)`, which passes on the bits and a sign that is then replaced. -/
def ofInt64 (x : Int64) : Digital := ofUInt64 x.toUInt64

/-- The integer is represented as itself, and trimming a number changes neither its value nor
leaves a digit to drop. -/
def Represents (n : Int64) (x : Digital) : Prop :=
  (ofInt64 n).val = n.toInt ∧ (x.digits ≠ [] → x.trim.val = x.val ∧ x.trim.Trimmed)

/-- A part of 16 bits. -/
lemma toNat_part (x : UInt64) (k : UInt64) :
    (x >>> k).toUInt16.toNat = x.toNat / 2 ^ (k.toNat % 64) % 2 ^ 16 := by
  rw [UInt64.toNat_toUInt16, UInt64.toNat_shiftRight, Nat.shiftRight_eq_div_pow]

lemma val_ofUInt64 (x : UInt64) : (ofUInt64 x).val = x.toNat := by
  have hx := x.toNat_lt
  have h48 : (x >>> 48).toUInt16.toNat = x.toNat / 2 ^ 48 % 2 ^ 16 := toNat_part x 48
  have h32 : (x >>> 32).toUInt16.toNat = x.toNat / 2 ^ 32 % 2 ^ 16 := toNat_part x 32
  have h16 : (x >>> 16).toUInt16.toNat = x.toNat / 2 ^ 16 % 2 ^ 16 := toNat_part x 16
  have h0 : x.toUInt16.toNat = x.toNat % 2 ^ 16 := UInt64.toNat_toUInt16 x
  have hvalue : value [x.toUInt16, (x >>> 16).toUInt16, (x >>> 32).toUInt16, (x >>> 48).toUInt16] =
      x.toNat := by
    rw [value_cons, value_cons, value_cons, value_cons, value_nil, h48, h32, h16, h0]
    simp only [base]
    omega
  rw [ofUInt64, val_trim, val_unsigned]
  show (base : ℚ) ^ (0 : ℤ) * (value [x.toUInt16, (x >>> 16).toUInt16, (x >>> 32).toUInt16,
    (x >>> 48).toUInt16] : ℚ) = x.toNat
  rw [hvalue, zpow_zero, one_mul]

/-- What the code makes of an integer: its bits as a natural number. -/
lemma val_ofInt64 (n : Int64) : (ofInt64 n).val = (n.toInt % 2 ^ 64 : ℤ) := by
  have hbits : (n.toUInt64.toNat : ℤ) = n.toInt % 2 ^ 64 := by
    have hlt := n.toUInt64.toNat_lt
    have hcond : n.toInt = if 2 * n.toUInt64.toNat < 2 ^ 64 then (n.toUInt64.toNat : ℤ)
        else n.toUInt64.toNat - (2 ^ 64 : ℕ) := BitVec.toInt_eq_toNat_cond n.toBitVec
    split_ifs at hcond <;> omega
  rw [ofInt64, val_ofUInt64, ← hbits, Int.cast_natCast]

/-- Exactly the nonnegative integers are represented; trimming is always right. -/
theorem represents_iff (n : Int64) (x : Digital) : Represents n x ↔ 0 ≤ n.toInt := by
  have htrim : x.digits ≠ [] → x.trim.val = x.val ∧ x.trim.Trimmed :=
    fun hx => ⟨val_trim x, trimmed_trim hx⟩
  have hlow := n.le_toInt
  have hhigh := n.toInt_lt
  rw [Represents, and_iff_left htrim, val_ofInt64, Int.cast_inj]
  omega

/-- Minus one becomes `2 ^ 64 - 1`. -/
theorem minus_one_not_represented :
    ofInt64 (-1) = ⟨false, 3, [65535, 65535, 65535, 65535]⟩ ∧ ¬∀ n x, Represents n x := by
  refine ⟨by decide, fun h => ?_⟩
  have hval := (h (-1) ⟨false, 0, [0]⟩).1
  rw [val_ofInt64, Int.cast_inj] at hval
  exact absurd hval (by decide)

end CoreCommon.Digital
