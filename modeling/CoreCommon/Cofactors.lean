import Mathlib

/-! Two numbers and their cofactors under steps of Euclid's algorithm with any quotients. When one
of the numbers is zero, its cofactors are the fraction of the first two in lowest terms. -/
namespace CoreCommon.Cofactors

/-- Two numbers and the cofactors of each. -/
structure Pair (R : Type*) where
  num : R
  den : R
  a : R
  b : R
  c : R
  d : R

section ring
variable {R : Type*} [CommRing R] {s : Pair R} {n m k : R}

def Pair.start (n m : R) : Pair R := ⟨n, m, 1, 0, 1, 0⟩

/-- `k` times the second number is taken off the first. -/
def Pair.takeNum (s : Pair R) (k : R) : Pair R :=
  { s with num := s.num - k * s.den, a := s.a - k * s.d, b := s.b - k * s.c }

/-- `k` times the first number is taken off the second. -/
def Pair.takeDen (s : Pair R) (k : R) : Pair R :=
  { s with den := s.den - k * s.num, c := s.c - k * s.b, d := s.d - k * s.a }

/-- The cofactors make the numbers out of `n` and `m`, and have determinant one. -/
structure Pair.Combines (s : Pair R) (n m : R) : Prop where
  num : s.num = s.a * n + s.b * m
  den : s.den = s.d * n + s.c * m
  det : s.a * s.c - s.b * s.d = 1

lemma combines_start (n m : R) : (Pair.start n m).Combines n m := by
  constructor <;> simp [Pair.start]

lemma Pair.Combines.takeNum (h : s.Combines n m) (k : R) : (s.takeNum k).Combines n m := by
  refine ⟨?_, h.den, ?_⟩
  · show s.num - k * s.den = _
    rw [h.num, h.den]
    simp only [Pair.takeNum]
    ring
  · rw [← h.det]
    simp only [Pair.takeNum]
    ring

lemma Pair.Combines.takeDen (h : s.Combines n m) (k : R) : (s.takeDen k).Combines n m := by
  refine ⟨h.num, ?_, ?_⟩
  · show s.den - k * s.num = _
    rw [h.num, h.den]
    simp only [Pair.takeDen]
    ring
  · rw [← h.det]
    simp only [Pair.takeDen]
    ring

end ring

/-- `p / q` is `n / m` in lowest terms. -/
structure Lowest (n m p q : ℤ) : Prop where
  pos : 0 < q
  cross : p * m = n * q
  coprime : Int.gcd p q = 1

section integers
variable {s : Pair ℤ} {n m p q : ℤ}

/-- A combination that is zero, with the sign moved to the first cofactor. -/
lemma lowest_of_combination (hm : m ≠ 0) (hzero : q * n + p * m = 0) (hcoprime : IsCoprime p q) :
    Lowest n m (if q < 0 then p else -p) (if q < 0 then -q else q) := by
  have hgcd := Int.isCoprime_iff_gcd_eq_one.1 hcoprime
  have hq : q ≠ 0 := by
    rintro rfl
    rw [zero_mul, zero_add] at hzero
    obtain rfl := (mul_eq_zero.1 hzero).resolve_right hm
    exact absurd hgcd (by decide)
  by_cases hneg : q < 0
  · rw [if_pos hneg, if_pos hneg]
    exact ⟨by omega, by linear_combination hzero, by rw [Int.gcd_neg, hgcd]⟩
  · rw [if_neg hneg, if_neg hneg]
    exact ⟨by omega, by linear_combination -hzero, by rw [Int.neg_gcd, hgcd]⟩

lemma Pair.Combines.lowest_num (h : s.Combines n m) (hm : m ≠ 0) (hnum : s.num = 0) :
    Lowest n m (if s.a < 0 then s.b else -s.b) (if s.a < 0 then -s.a else s.a) :=
  lowest_of_combination hm (h.num.symm.trans hnum) ⟨-s.d, s.c, by linear_combination h.det⟩

lemma Pair.Combines.lowest_den (h : s.Combines n m) (hm : m ≠ 0) (hden : s.den = 0) :
    Lowest n m (if s.d < 0 then s.c else -s.c) (if s.d < 0 then -s.d else s.d) :=
  lowest_of_combination hm (h.den.symm.trans hden) ⟨s.a, -s.b, by linear_combination h.det⟩

end integers

end CoreCommon.Cofactors
