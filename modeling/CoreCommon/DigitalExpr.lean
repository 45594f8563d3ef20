import CoreCommon.DigitalCompare
import CoreCommon.DigitalInteger
import CoreCommon.DigitalShift
import CoreCommon.DigitalSize

/-! Computations with `Digital`s in which no sign comes up. The operators are exact there on each
other's results, but `==` takes a number for its multiples by powers of the base. -/
namespace CoreCommon.Digital
open Words

/-- A computation: constructors and operators on their results. -/
inductive Expr
  | int (n : Int64)
  | digit (d : UInt16) (e : ℤ)
  | add (a b : Expr)
  | addDigit (a : Expr) (d : UInt16) (e : ℤ)
  | sub (a b : Expr)
  | mul (a b : Expr)
  | shl (a : Expr) (k : ℤ)
  deriving DecidableEq, Repr

namespace Expr

def run : Expr → Run Digital
  | .int n => .ok (ofInt64 n)
  | .digit d e => .ok ⟨false, e, [d]⟩
  | .add a b => do
    let x ← a.run
    let y ← b.run
    x.add y
  | .addDigit a d e => do
    let x ← a.run
    x.addDigit d e true
  | .sub a b => do
    let x ← a.run
    let y ← b.run
    x.sub y
  | .mul a b => do
    let x ← a.run
    let y ← b.run
    x.mul y
  | .shl a k => do
    let x ← a.run
    .ok (x.shl k)

/-- The number meant. -/
def value : Expr → ℚ
  | .int n => n.toInt
  | .digit d e => d.toNat * (base : ℚ) ^ e
  | .add a b => a.value + b.value
  | .addDigit a d e => a.value + d.toNat * (base : ℚ) ^ e
  | .sub a b => a.value - b.value
  | .mul a b => a.value * b.value
  | .shl a k => a.value * 2 ^ k

/-- A difference in which the borrow, if there is one, uses up the first digit: nothing is taken
off, or there is a digit at the highest place of `p` in `q`, or none in what is left. -/
def Borrows (p q : ℚ) : Prop :=
  q = 0 ∨ ∀ k : ℤ, (base : ℚ) ^ k ≤ p → p < (base : ℚ) ^ (k + 1) →
    (base : ℚ) ^ k ≤ q ∨ p - q < (base : ℚ) ^ k

end Expr

/-! ### The operators -/

/-- What the operators keep: a trimmed number without a sign, of value `q`. -/
structure Holds (x : Digital) (q : ℚ) : Prop where
  unsigned : x.negative = false
  trimmed : x.Trimmed
  val : x.val = q

section operators
variable {x y : Digital} {p q : ℚ}

lemma Holds.nonneg (hx : x.Holds p) : 0 ≤ p := hx.val ▸ val_nonneg hx.unsigned

/-- A sum that is exact and not below zero has no sign. -/
lemma holds_of_add {z : Digital} (hx : x.Trimmed) (hz : x.add y = .ok z) (hval : z.val = q)
    (hq : 0 ≤ q) : z.Holds q :=
  ⟨negative_of_val_nonneg (hval ▸ hq), add_trimmed hx.nonempty hz, hval⟩

lemma Holds.add (hx : x.Holds p) (hy : y.Holds q) : ∃ z, x.add y = .ok z ∧ z.Holds (p + q) := by
  obtain ⟨z, hz, hval⟩ := (add_exact_iff x y).2 (adds_unsigned hx.unsigned fun hneg =>
    absurd (hy.unsigned.symm.trans hneg) Bool.false_ne_true)
  rw [hx.val, hy.val] at hval
  exact ⟨z, hz, holds_of_add hx.trimmed hz hval (add_nonneg hx.nonneg hy.nonneg)⟩

lemma Holds.addDigit (hx : x.Holds p) (d : UInt16) (e : ℤ) :
    ∃ z, x.addDigit d e true = .ok z ∧ z.Holds (p + d.toNat * (base : ℚ) ^ e) := by
  obtain ⟨z, hz, hneg, hdigits, hval⟩ := addDigit_exact hx.unsigned d e
  rw [hx.val] at hval
  exact ⟨z.trim, hz true, hneg, trimmed_trim hdigits, (val_trim z).trans hval⟩

lemma Holds.sub (hx : x.Holds p) (hy : y.Holds q) (hle : q ≤ p) (hborrows : Expr.Borrows p q) :
    ∃ z, x.sub y = .ok z ∧ z.Holds (p - q) := by
  have hneg := val_negate (negates_unsigned hy.unsigned)
  obtain ⟨z, hz, hval⟩ : ∃ z, x.add y.negate = .ok z ∧ z.val = x.val + y.negate.val := by
    by_cases hq : q = 0
    · -- zero is left as it is, and is no negative operand
      have hzero : Words.value y.digits.reverse = 0 := by
        have hprod := val_low hy.unsigned
        rw [hy.val, hq, eq_comm, mul_eq_zero] at hprod
        exact_mod_cast hprod.resolve_left (base_zpow_pos _).ne'
      rw [negate_zero hzero]
      exact (add_exact_iff x y).2 (adds_unsigned hx.unsigned fun h =>
        absurd (hy.unsigned.symm.trans h) Bool.false_ne_true)
    · have hpos : 0 < q := hy.nonneg.lt_of_ne' hq
      have hxne : x.val ≠ 0 := by
        rw [hx.val]
        exact (hpos.trans_le hle).ne'
      have hsign : y.negate.negative = true := negative_of_val_neg (by
        rw [hneg, hy.val]
        exact neg_lt_zero.2 hpos)
      refine add_negative_exact hx.unsigned hx.trimmed hsign ?_
      have hlow := hx.trimmed.le_val hx.unsigned hxne
      have htop := val_lt_top hx.unsigned
      rw [hx.val] at hlow htop
      rcases hborrows.resolve_left hq x.exponent hlow htop with hplace | hless
      · have hbelow := hplace.trans_lt (hy.val ▸ val_lt_top hy.unsigned)
        have hexponent := (zpow_lt_zpow_iff_right₀ (show (1 : ℚ) < base by norm_num)).1 hbelow
        exact .inl (show x.exponent ≤ y.exponent by omega)
      · refine .inr ⟨hxne, ?_⟩
        rwa [hneg, hx.val, hy.val, ← sub_eq_add_neg]
  rw [hneg, hx.val, hy.val, ← sub_eq_add_neg] at hval
  exact ⟨z, hz, holds_of_add hx.trimmed hz hval (sub_nonneg.2 hle)⟩

lemma Holds.mul (hx : x.Holds p) (hy : y.Holds q) : ∃ z, x.mul y = .ok z ∧ z.Holds (p * q) := by
  obtain ⟨z, hz, hneg, hdigits, hval⟩ := mulRows_exact (x := ⟨false, x.exponent + y.exponent, []⟩)
    hy.unsigned hy.trimmed.nonempty x.exponent x.digits rfl
  have hself : Digital.val ⟨false, x.exponent, x.digits⟩ = p := by
    rw [← hx.val, ← hx.unsigned]
  rw [val_unsigned_nil, zero_add, hself, hy.val] at hval
  refine ⟨z.trim, ?_, hneg, trimmed_trim (hdigits (.inr hx.trimmed.nonempty)),
    (val_trim z).trans hval⟩
  rw [Digital.mul, hz, Run.bind_ok, hx.unsigned, hy.unsigned]
  rfl

lemma Trimmed.shl (hx : x.Trimmed) (k : ℤ) : (x.shl k).Trimmed := by
  have hshift : ∀ (w : Digital) (r : ℕ), w.digits ≠ [] → (shiftDigits w r).Trimmed := by
    intro w r hw
    have hlen := shiftLoop_length r.toUInt16 0 w.digits.reverse
    refine trimmed_trim ?_
    split_ifs
    · exact List.cons_ne_nil _ _
    · intro hnil
      rw [List.reverse_eq_nil_iff.1 hnil, List.length_reverse, List.length_nil, eq_comm] at hlen
      exact hw (List.length_eq_zero_iff.1 hlen)
  unfold Digital.shl
  split_ifs
  · exact ⟨hx.nonempty, hx.front, hx.back⟩
  · exact hshift _ _ hx.nonempty
  · exact hshift _ _ hx.nonempty

lemma Holds.shl (hx : x.Holds p) {k : ℤ} (hk : p = 0 ∨ 16 ∣ k ∨ -16 < k) :
    (x.shl k).Holds (p * 2 ^ k) := by
  refine ⟨(shl_negative x k).trans hx.unsigned, hx.trimmed.shl k, ?_⟩
  rw [← hx.val] at hk ⊢
  rcases hk with hzero | hdvd | hlarge
  · exact val_shl_exact hx.unsigned (.inl hzero)
  · exact val_shl_of_dvd x hdvd
  · exact val_shl_exact hx.unsigned (.inr hlarge)

end operators

/-! ### Computations -/

section equality
variable {x y : Digital} {p q : ℚ}

/-- The value of a trimmed number that is not zero fixes its digits. -/
lemma Trimmed.unique (hx : x.Trimmed) (hy : y.Trimmed) (hxn : x.negative = false)
    (hyn : y.negative = false) (hne : x.val ≠ 0) (hval : x.val = y.val) : x = y := by
  have hbase : (1 : ℚ) < base := by norm_num
  have hyne : y.val ≠ 0 := hval ▸ hne
  have hexponent : x.exponent = y.exponent := by
    have hup := (zpow_lt_zpow_iff_right₀ hbase).1
      ((hx.le_val hxn hne).trans_lt (hval ▸ val_lt_top hyn))
    have hdown := (zpow_lt_zpow_iff_right₀ hbase).1
      ((hy.le_val hyn hyne).trans_lt (hval ▸ val_lt_top hxn))
    omega
  have hvalue : ∀ {w : Digital}, w.negative = false → w.val ≠ 0 → Words.value w.digits.reverse ≠ 0 := by
    intro w hw hwne hzero
    exact hwne (by rw [val_low hw, hzero, Nat.cast_zero, mul_zero])
  have hlow : x.low = y.low :=
    hx.low_eq hxn (by rw [hval, val_low hyn, mul_comm]) (hy.value_mod (hvalue hyn hyne))
  have hlen : x.digits.reverse.length = y.digits.reverse.length := by
    unfold low at hlow
    rw [List.length_reverse, List.length_reverse]
    omega
  have hsame : Words.value x.digits.reverse = Words.value y.digits.reverse := by
    rw [val_low hxn, val_low hyn, hlow] at hval
    exact_mod_cast mul_left_cancel₀ (base_zpow_pos _).ne' hval
  have hmap := Nat.ofDigits_inj_of_len_eq (b := base) (by norm_num)
    (by rw [List.length_map, List.length_map, hlen])
    (fun d hd => by
      obtain ⟨d, -, rfl⟩ := List.mem_map.1 hd
      exact toNat_lt d)
    (fun d hd => by
      obtain ⟨d, -, rfl⟩ := List.mem_map.1 hd
      exact toNat_lt d) hsame
  have hdigits := List.reverse_injective
    (List.map_injective_iff.2 (fun _ _ => UInt16.toNat_inj.1) hmap)
  obtain ⟨_, _, _⟩ := x
  obtain ⟨_, _, _⟩ := y
  exact Digital.mk.injEq .. ▸ ⟨hxn.trans hyn.symm, hexponent, hdigits⟩

/-- `==` sees the digits, and of the exponents only that the left one is not higher. -/
lemma Holds.eq_iff (hx : x.Holds p) (hy : y.Holds q) (hp : p ≠ 0) :
    x.eq y = true ↔ ∃ k : ℕ, q = p * (base : ℚ) ^ k := by
  have hsign := hx.unsigned.trans hy.unsigned.symm
  have hside : x.eq y = true ↔ side x y = .eq := by
    rw [Digital.eq, cmp_eq]
    cases side x y <;> simp [answer]
  have hmove : ∀ k : ℤ, Digital.val ⟨x.negative, x.exponent + k, x.digits⟩ = p * (base : ℚ) ^ k :=
    fun k => hx.val ▸ val_move x.negative x.exponent k x.digits
  rw [hside, side_eq_eq_iff hsign]
  constructor
  · rintro ⟨hle, hdigits⟩
    obtain ⟨k, hk⟩ := Int.le.dest hle
    refine ⟨k, ?_⟩
    rw [← zpow_natCast, ← hmove, hk, hdigits, hsign, hy.val]
  · rintro ⟨k, rfl⟩
    have hmoved : (⟨x.negative, x.exponent + k, x.digits⟩ : Digital).Trimmed :=
      ⟨hx.trimmed.nonempty, hx.trimmed.front, hx.trimmed.back⟩
    have hval := (hmove k).trans (zpow_natCast (base : ℚ) k ▸ hy.val.symm)
    have hne : Digital.val ⟨x.negative, x.exponent + k, x.digits⟩ ≠ 0 := by
      rw [hmove]
      exact mul_ne_zero hp (base_zpow_pos _).ne'
    rw [← hmoved.unique hy.trimmed hx.unsigned hy.unsigned hne hval]
    exact ⟨Int.le_add_of_nonneg_right (Int.natCast_nonneg k), rfl⟩

end equality

end CoreCommon.Digital
