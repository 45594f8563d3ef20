import Mathlib

/-! Triangular probing: the `j`-th position is the start plus `1 + 2 + ⋯ + j`, modulo the
size of the table. For a power of two the first `n` positions are all of the table. -/
namespace CoreCommon

/-- The sum `1 + 2 + ⋯ + j`. -/
def tri (j : ℕ) : ℕ := j * (j + 1) / 2

lemma two_mul_tri (j : ℕ) : 2 * tri j = j * (j + 1) :=
  Nat.mul_div_cancel' (even_iff_two_dvd.1 (Nat.even_mul_succ_self j))

lemma tri_succ (j : ℕ) : tri (j + 1) = tri j + (j + 1) := by
  have h := two_mul_tri j
  have h' := two_mul_tri (j + 1)
  have : (j + 1) * (j + 1 + 1) = j * (j + 1) + 2 * (j + 1) := by ring
  omega

lemma tri_mono {i j : ℕ} (h : i ≤ j) : tri i ≤ tri j :=
  Nat.div_le_div_right (Nat.mul_le_mul h (Nat.succ_le_succ h))

def probeAt (n start j : ℕ) : ℕ := (start + tri j) % n

lemma probeAt_lt {n : ℕ} (hn : 0 < n) (start j : ℕ) : probeAt n start j < n := Nat.mod_lt _ hn

/-- The step of a probe, whose position and counter may be kept modulo a multiple of `n`. -/
lemma probeAt_succ {n w : ℕ} (hw : n ∣ w) (start j : ℕ) :
    ((probeAt n start j + (j % w + 1) % w) % w) % n = probeAt n start (j + 1) := by
  rw [probeAt, probeAt, tri_succ, Nat.mod_mod_of_dvd _ hw, Nat.mod_add_mod, Nat.mod_add_mod,
    ← Nat.add_mod_mod, Nat.mod_mod_of_dvd _ hw, Nat.add_mod_mod, Nat.add_assoc]

/-- Two of the first `2 ^ e` positions never agree: the difference of the two triangular
numbers is half a product of an odd number and one below `2 ^ (e + 1)`. -/
theorem probeAt_injective {e start i j : ℕ} (hi : i < 2 ^ e) (hj : j < 2 ^ e)
    (h : probeAt (2 ^ e) start i = probeAt (2 ^ e) start j) : i = j := by
  wlog hij : i ≤ j generalizing i j
  · exact (this hj hi h.symm (Nat.le_of_not_le hij)).symm
  by_contra hne
  have hdvd : 2 ^ e ∣ tri j - tri i := by
    have hmod := (Nat.modEq_iff_dvd' (by have := tri_mono hij; omega)).1 h
    rwa [Nat.add_sub_add_left] at hmod
  have hprod : 2 * (tri j - tri i) = (j - i) * (j + i + 1) := by
    obtain ⟨d, rfl⟩ := Nat.exists_eq_add_of_le hij
    have h₁ := two_mul_tri i
    have h₂ := two_mul_tri (i + d)
    have h₃ : (i + d) * (i + d + 1) = i * (i + 1) + d * (i + d + i + 1) := by ring
    rw [Nat.add_sub_cancel_left, Nat.mul_sub]
    omega
  have hdvd' : 2 ^ (e + 1) ∣ (j - i) * (j + i + 1) := by
    rw [← hprod, Nat.pow_succ, Nat.mul_comm]
    exact Nat.mul_dvd_mul_left 2 hdvd
  have hpow : (2 : ℕ) ^ (e + 1) = 2 * 2 ^ e := by rw [Nat.pow_succ, Nat.mul_comm]
  rcases Nat.even_or_odd (j - i) with heven | hodd
  · have hodd : Odd (j + i + 1) := by
      obtain ⟨d, hd⟩ := heven
      exact ⟨i + d, by omega⟩
    have hcop : Nat.Coprime (2 ^ (e + 1)) (j + i + 1) := (Nat.coprime_two_left.2 hodd).pow_left _
    have := Nat.le_of_dvd (by omega) (hcop.dvd_of_dvd_mul_right hdvd')
    omega
  · have hcop : Nat.Coprime (2 ^ (e + 1)) (j - i) := (Nat.coprime_two_left.2 hodd).pow_left _
    have := Nat.le_of_dvd (by omega) (hcop.dvd_of_dvd_mul_left hdvd')
    omega

/-- Every position is among the first `2 ^ e`. -/
theorem exists_probeAt {e g : ℕ} (start : ℕ) (hg : g < 2 ^ e) :
    ∃ j < 2 ^ e, probeAt (2 ^ e) start j = g := by
  have hpos : 0 < 2 ^ e := Nat.two_pow_pos e
  let f : Fin (2 ^ e) → Fin (2 ^ e) := fun j => ⟨probeAt (2 ^ e) start j, probeAt_lt hpos _ _⟩
  have hf : Function.Injective f := fun i j h =>
    Fin.ext (probeAt_injective i.2 j.2 (Fin.ext_iff.1 h))
  obtain ⟨j, hj⟩ := (Finite.injective_iff_surjective.1 hf) ⟨g, hg⟩
  exact ⟨j, j.2, Fin.ext_iff.1 hj⟩

/-- The sequence repeats after twice the size of the table. -/
lemma probeAt_period (n start t j : ℕ) : probeAt n start (2 * n * t + j) = probeAt n start j := by
  have htri : tri (2 * n * t + j) = tri j + n * (t * (2 * n * t + 1) + 2 * t * j) := by
    have h := two_mul_tri j
    have h' := two_mul_tri (2 * n * t + j)
    have hsum : (2 * n * t + j) * (2 * n * t + j + 1) =
        j * (j + 1) + 2 * (n * (t * (2 * n * t + 1) + 2 * t * j)) := by ring
    omega
  rw [probeAt, probeAt, htri, ← Nat.add_assoc, Nat.add_mul_mod_self_left]

lemma probeAt_of_lt {n start j : ℕ} (h : start % n + tri j < n) :
    probeAt n start j = start % n + tri j := by
  rw [probeAt, ← Nat.mod_add_mod, Nat.mod_eq_of_lt h]

/-- Before the sequence first wraps it is the same in a table of twice the size. -/
lemma probeAt_double {n start j : ℕ} (h : start % (2 * n) + tri j < n) :
    probeAt n start j = start % (2 * n) + tri j ∧
      probeAt (2 * n) start j = start % (2 * n) + tri j := by
  have hmod : start % n = start % (2 * n) := by
    rw [← Nat.mod_mod_of_dvd start (Nat.dvd_mul_left n 2), Nat.mod_eq_of_lt (by omega)]
  exact ⟨by rw [probeAt_of_lt (by omega), hmod], probeAt_of_lt (by omega)⟩

end CoreCommon
