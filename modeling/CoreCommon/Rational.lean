import CoreCommon.Cofactors
import CoreCommon.DigitalRemainder

/-! Fractions of `Digital`s and their reduction by Euclid's algorithm with cofactors. Where every
division and every difference on the way is exact, the loop that ends with a zero leaves the
fraction in lowest terms. -/
namespace CoreCommon
open Digital Cofactors Words

structure Rational where
  num : Digital
  den : Digital
  deriving DecidableEq, Repr

namespace Rational

/-- The numbers of `round` and its cofactors. -/
structure State where
  num : Digital
  den : Digital
  a : Digital
  b : Digital
  c : Digital
  d : Digital
  deriving DecidableEq, Repr

def start (x : Rational) : State := ⟨x.num, x.den, ofInt64 1, ofInt64 0, ofInt64 1, ofInt64 0⟩

/-- `p -= k*q` -/
def takeProduct (p k q : Digital) : Except DivFault Digital :=
  lift (do
    let product ← k.mul q
    p.sub product)

/-- The part of a round that divides `num` by `den`; `last` is `prec==1`. -/
def State.reduceNum (s : State) (last : Bool) : Except DivFault State :=
  if s.num.exponent ≥ s.den.exponent then do
    let r ← s.num.div s.den (s.num.exponent - s.den.exponent).toNat last
    let b ← takeProduct s.b r.quotient s.c
    let a ← takeProduct s.a r.quotient s.d
    .ok { s with num := r.remainder, b := b, a := a }
  else .ok s

/-- The part that divides `den` by `num`. -/
def State.reduceDen (s : State) (last : Bool) : Except DivFault State :=
  if s.den.exponent ≥ s.num.exponent then do
    let r ← s.den.div s.num (s.den.exponent - s.num.exponent).toNat last
    let c ← takeProduct s.c r.quotient s.b
    let d ← takeProduct s.d r.quotient s.a
    .ok { s with den := r.remainder, c := c, d := d }
  else .ok s

/-- How the loop ends: `num` is zero, or `den` is, or there are no rounds left. -/
inductive Exit
  | num
  | den
  | spent
  deriving DecidableEq, Repr

/-- The loop of `round`. -/
def loop : ℕ → State → Except DivFault (Exit × State)
  | 0, s => .ok (.spent, s)
  | prec + 1, s => do
    let s ← s.reduceNum (prec = 0)
    if s.num.isZero then .ok (.num, s)
    else do
      let s ← s.reduceDen (prec = 0)
      if s.den.isZero then .ok (.den, s) else loop prec s

/-- The fraction that is left. -/
def State.result (s : State) : Exit → Rational
  | .num => ⟨if s.a.negative then s.b else s.b.negate, if s.a.negative then s.a.negate else s.a⟩
  | _ => ⟨if s.d.negative then s.c else s.c.negate, if s.d.negative then s.d.negate else s.d⟩

def round (x : Rational) (prec : ℕ) : Except DivFault Rational := do
  let r ← loop prec x.start
  .ok (r.2.result r.1)

/-- `y` is an integer over a positive one, and is `x` in lowest terms. -/
def ReducedTo (x y : Rational) : Prop :=
  ∃ p q : ℤ, y.num.val = p ∧ y.den.val = q ∧ 0 < q ∧ p * x.den.val = x.num.val * q ∧ Int.gcd p q = 1

/-- A loop that ends with a zero leaves the fraction in lowest terms. -/
def Reduces (x : Rational) (prec : ℕ) : Prop :=
  ∀ exit s, loop prec x.start = .ok (exit, s) → exit ≠ .spent →
    ∃ y, x.round prec = .ok y ∧ x.ReducedTo y

/-! ### Exact rounds -/

/-- `p -= k*q` is exact on these numbers. -/
def TakesProduct (p k q : Digital) : Prop :=
  ∀ z, takeProduct p k q = .ok z → z.val = p.val - k.val * q.val

namespace State

/-- The division of `num` by `den` is exact on these numbers, and so is what is taken off the
cofactors. -/
def ExactNum (s : State) (last : Bool) : Prop :=
  s.num.exponent ≥ s.den.exponent →
    ∀ r, s.num.div s.den (s.num.exponent - s.den.exponent).toNat last = .ok r →
      s.num.val = r.quotient.val * s.den.val + r.remainder.val ∧
        TakesProduct s.b r.quotient s.c ∧ TakesProduct s.a r.quotient s.d

/-- The same for the division of `den` by `num`. -/
def ExactDen (s : State) (last : Bool) : Prop :=
  s.den.exponent ≥ s.num.exponent →
    ∀ r, s.den.div s.num (s.den.exponent - s.num.exponent).toNat last = .ok r →
      s.den.val = r.quotient.val * s.num.val + r.remainder.val ∧
        TakesProduct s.c r.quotient s.b ∧ TakesProduct s.d r.quotient s.a

/-- The cofactor that changes its sign at the end is no power of the base under a sign with only
zeros for digits. -/
def ExactEnd (s : State) : Exit → Prop
  | .num => Negates (if s.a.negative then s.a else s.b)
  | _ => Negates (if s.d.negative then s.d else s.c)

end State

/-- Every round from `s` on is exact. -/
def Exact : ℕ → State → Prop
  | 0, _ => True
  | prec + 1, s => s.ExactNum (prec = 0) ∧ ∀ t, s.reduceNum (prec = 0) = .ok t →
      if t.num.isZero then t.ExactEnd .num
      else t.ExactDen (prec = 0) ∧ ∀ u, t.reduceDen (prec = 0) = .ok u →
        if u.den.isZero then u.ExactEnd .den else Exact prec u

/-! ### The cofactors -/

section cofactors
variable {s t : State} {p : Pair ℤ} {n m : ℤ} {last : Bool} {exit : Exit} {x : Digital} {i : ℤ}

/-- The numbers of the state are the integers of the pair. -/
structure State.Stands (s : State) (p : Pair ℤ) : Prop where
  num : s.num.val = p.num
  den : s.den.val = p.den
  a : s.a.val = p.a
  b : s.b.val = p.b
  c : s.c.val = p.c
  d : s.d.val = p.d

lemma State.Stands.reduceNum (h : s.Stands p) (he : s.ExactNum last)
    (ht : s.reduceNum last = .ok t) : ∃ k, t.Stands (p.takeNum k) := by
  unfold State.reduceNum at ht
  split at ht
  · next hle =>
    obtain ⟨r, hr, ht⟩ := bind_eq_ok.1 ht
    obtain ⟨b, hb, ht⟩ := bind_eq_ok.1 ht
    obtain ⟨a, ha, ht⟩ := bind_eq_ok.1 ht
    obtain ⟨hdiv, hproduct, hproduct'⟩ := he hle r hr
    obtain ⟨k, hk⟩ := div_integer hle hr
    rw [← Except.ok.inj ht]
    refine ⟨k, ?_, h.den, ?_, ?_, h.c, h.d⟩
    · rw [hk, h.num, h.den] at hdiv
      simp only [Pair.takeNum]
      push_cast
      linarith
    · rw [hproduct' a ha, hk, h.a, h.d]
      simp only [Pair.takeNum]
      push_cast
      rfl
    · rw [hproduct b hb, hk, h.b, h.c]
      simp only [Pair.takeNum]
      push_cast
      rfl
  · rw [← Except.ok.inj ht]
    refine ⟨0, ?_⟩
    simpa [Pair.takeNum] using h

lemma State.Stands.reduceDen (h : s.Stands p) (he : s.ExactDen last)
    (ht : s.reduceDen last = .ok t) : ∃ k, t.Stands (p.takeDen k) := by
  unfold State.reduceDen at ht
  split at ht
  · next hle =>
    obtain ⟨r, hr, ht⟩ := bind_eq_ok.1 ht
    obtain ⟨c, hc, ht⟩ := bind_eq_ok.1 ht
    obtain ⟨d, hd, ht⟩ := bind_eq_ok.1 ht
    obtain ⟨hdiv, hproduct, hproduct'⟩ := he hle r hr
    obtain ⟨k, hk⟩ := div_integer hle hr
    rw [← Except.ok.inj ht]
    refine ⟨k, h.num, ?_, h.a, h.b, ?_, ?_⟩
    · rw [hk, h.num, h.den] at hdiv
      simp only [Pair.takeDen]
      push_cast
      linarith
    · rw [hproduct c hc, hk, h.c, h.b]
      simp only [Pair.takeDen]
      push_cast
      rfl
    · rw [hproduct' d hd, hk, h.d, h.a]
      simp only [Pair.takeDen]
      push_cast
      rfl
  · rw [← Except.ok.inj ht]
    refine ⟨0, ?_⟩
    simpa [Pair.takeDen] using h

/-- The cofactors still make the numbers when the loop ends, one of which is zero. -/
lemma loop_stands (prec : ℕ) (h : s.Stands p) (hp : p.Combines n m) (he : Exact prec s)
    (ht : loop prec s = .ok (exit, t)) (hexit : exit ≠ .spent) :
    ∃ q : Pair ℤ, t.Stands q ∧ q.Combines n m ∧ t.ExactEnd exit ∧
      (exit = .num ∧ q.num = 0 ∨ exit = .den ∧ q.den = 0) := by
  have hzero : ∀ {x : Digital} {i : ℤ}, x.isZero = true → x.val = i → i = 0 := by
    intro x i hx hi
    rw [val_of_isZero hx] at hi
    exact_mod_cast hi.symm
  induction prec generalizing s p with
  | zero =>
    obtain ⟨rfl, -⟩ := Prod.mk.inj (Except.ok.inj ht)
    exact absurd rfl hexit
  | succ prec ih =>
    obtain ⟨u, hu, ht⟩ := bind_eq_ok.1 ht
    obtain ⟨hnum, hrest⟩ := he
    obtain ⟨k, hk⟩ := h.reduceNum hnum hu
    have hrest := hrest u hu
    by_cases hnumzero : u.num.isZero = true
    · rw [if_pos hnumzero] at hrest ht
      obtain ⟨rfl, rfl⟩ := Prod.mk.inj (Except.ok.inj ht)
      exact ⟨_, hk, hp.takeNum k, hrest, .inl ⟨rfl, hzero hnumzero hk.num⟩⟩
    · rw [if_neg hnumzero] at hrest ht
      obtain ⟨w, hw, ht⟩ := bind_eq_ok.1 ht
      obtain ⟨j, hj⟩ := hk.reduceDen hrest.1 hw
      have hlast := hrest.2 w hw
      by_cases hdenzero : w.den.isZero = true
      · rw [if_pos hdenzero] at hlast ht
        obtain ⟨rfl, rfl⟩ := Prod.mk.inj (Except.ok.inj ht)
        exact ⟨_, hj, (hp.takeNum k).takeDen j, hlast, .inr ⟨rfl, hzero hdenzero hj.den⟩⟩
      · rw [if_neg hdenzero] at hlast ht
        exact ih hj ((hp.takeNum k).takeDen j) hlast ht

/-! ### The fraction in lowest terms -/

lemma val_signed {q r : Digital} {i j : ℤ} (hq : q.val = i) (hr : r.val = j)
    (h : Negates (if q.negative then q else r)) :
    (if q.negative then r else r.negate).val = ((if i < 0 then j else -j : ℤ) : ℚ) ∧
      (if q.negative then q.negate else q).val = ((if i < 0 then -i else i : ℤ) : ℚ) := by
  cases hneg : q.negative with
  | true =>
    have hlt : i < 0 := by
      have := val_neg hneg
      rw [hq] at this
      exact_mod_cast this
    rw [hneg, if_pos rfl] at h
    rw [if_pos rfl, if_pos rfl, if_pos hlt, if_pos hlt, val_negate h, hq, hr]
    exact ⟨rfl, by push_cast; rfl⟩
  | false =>
    have hle : ¬i < 0 := by
      have := val_nonneg hneg
      rw [hq] at this
      rw [not_lt]
      exact_mod_cast this
    rw [hneg, if_neg Bool.false_ne_true] at h
    rw [if_neg Bool.false_ne_true, if_neg Bool.false_ne_true, if_neg hle, if_neg hle, val_negate h,
      hq, hr]
    exact ⟨by push_cast; rfl, rfl⟩

end cofactors

/-- Where every round is exact, a loop that ends with a zero leaves an integer fraction in lowest
terms. -/
theorem reduces_of_exact {x : Rational} {prec : ℕ} (hnum : Whole x.num) (hden : Whole x.den)
    (hpos : 0 < x.den.val) (h : Exact prec x.start) : Reduces x prec := by
  intro exit s hloop hexit
  have hone : (ofInt64 1).val = (1 : ℤ) := by rw [val_ofInt64]; rfl
  have hzero : (ofInt64 0).val = (0 : ℤ) := by rw [val_ofInt64]; rfl
  have hstart : x.start.Stands (Pair.start (x.num.toNat : ℤ) x.den.toNat) := by
    refine ⟨?_, ?_, hone, hzero, hone, hzero⟩
    · exact_mod_cast hnum.denotes.val_eq
    · exact_mod_cast hden.denotes.val_eq
  have hm : (x.den.toNat : ℤ) ≠ 0 := by
    rw [hden.denotes.val_eq] at hpos
    exact_mod_cast hpos.ne'
  obtain ⟨q, hq, hcombines, hend, hcase⟩ := loop_stands prec hstart (combines_start _ _) h hloop hexit
  refine ⟨s.result exit, ?_, ?_⟩
  · rw [round, hloop]
    rfl
  · rw [ReducedTo, hnum.denotes.val_eq, hden.denotes.val_eq]
    rcases hcase with ⟨rfl, hq0⟩ | ⟨rfl, hq0⟩
    · obtain ⟨hval, hval'⟩ := val_signed hq.a hq.b hend
      obtain ⟨hqpos, hcross, hgcd⟩ := hcombines.lowest_num hm hq0
      exact ⟨_, _, hval, hval', hqpos, by exact_mod_cast hcross, hgcd⟩
    · obtain ⟨hval, hval'⟩ := val_signed hq.d hq.c hend
      obtain ⟨hqpos, hcross, hgcd⟩ := hcombines.lowest_den hm hq0
      exact ⟨_, _, hval, hval', hqpos, by exact_mod_cast hcross, hgcd⟩

section digits

lemma val_digit (d : UInt16) : val ⟨false, 0, [d]⟩ = d.toNat := by
  rw [val_unsigned]
  simp

lemma val_sign_digit (d : UInt16) : val ⟨true, 0, [d]⟩ = d.toNat - base := by
  rw [val_eq]
  simp [signed]

end digits

/-- `6 / 4` becomes `3 / 2`: four goes once into six, and two twice into four. -/
theorem reduces_of_exact_six_fourths : Reduces ⟨ofUInt64 6, ofUInt64 4⟩ 2 := by
  have htake : ∀ {p k q z : Digital}, takeProduct p k q = .ok z → z.val = p.val - k.val * q.val →
      TakesProduct p k q := by
    intro p k q z hz hval w hw
    obtain rfl := Except.ok.inj (hz.symm.trans hw)
    exact hval
  have hfirst : State.reduceNum (start ⟨ofUInt64 6, ofUInt64 4⟩) false = .ok ⟨⟨false, 0, [2]⟩,
      ⟨false, 0, [4]⟩, ⟨false, 0, [1]⟩, ⟨true, 0, [65535]⟩, ⟨false, 0, [1]⟩, ⟨false, 0, [0]⟩⟩ := by
    decide
  have hsecond : State.reduceDen ⟨⟨false, 0, [2]⟩, ⟨false, 0, [4]⟩, ⟨false, 0, [1]⟩,
      ⟨true, 0, [65535]⟩, ⟨false, 0, [1]⟩, ⟨false, 0, [0]⟩⟩ false = .ok ⟨⟨false, 0, [2]⟩,
      ⟨false, 0, [0]⟩, ⟨false, 0, [1]⟩, ⟨true, 0, [65535]⟩, ⟨false, 0, [3]⟩, ⟨true, 0, [65534]⟩⟩ := by
    decide
  refine reduces_of_exact (whole_ofUInt64 6) (whole_ofUInt64 4) ?_ ⟨?_, fun t ht => ?_⟩
  · rw [val_ofUInt64]
    exact_mod_cast show 0 < (4 : UInt64).toNat by decide
  · intro _ r hr
    have hdiv : div ⟨false, 0, [6]⟩ ⟨false, 0, [4]⟩ 0 false =
        .ok ⟨⟨false, 0, [1]⟩, ⟨false, 0, [2]⟩⟩ := by decide
    obtain rfl := Except.ok.inj (hdiv.symm.trans hr)
    refine ⟨?_, htake (z := ⟨true, 0, [65535]⟩) (by decide) ?_,
      htake (z := ⟨false, 0, [1]⟩) (by decide) ?_⟩
    · show val ⟨false, 0, [6]⟩ = val ⟨false, 0, [1]⟩ * val ⟨false, 0, [4]⟩ + val ⟨false, 0, [2]⟩
      norm_num [val_digit, UInt16.toNat_ofNat]
    · show val ⟨true, 0, [65535]⟩ = val ⟨false, 0, [0]⟩ - val ⟨false, 0, [1]⟩ * val ⟨false, 0, [1]⟩
      norm_num [val_digit, val_sign_digit, UInt16.toNat_ofNat]
    · show val ⟨false, 0, [1]⟩ = val ⟨false, 0, [1]⟩ - val ⟨false, 0, [1]⟩ * val ⟨false, 0, [0]⟩
      norm_num [val_digit, UInt16.toNat_ofNat]
  · obtain rfl := Except.ok.inj (hfirst.symm.trans ht)
    refine ⟨?_, fun u hu => ?_⟩
    · intro _ r hr
      have hdiv : div ⟨false, 0, [4]⟩ ⟨false, 0, [2]⟩ 0 false =
          .ok ⟨⟨false, 0, [2]⟩, ⟨false, 0, [0]⟩⟩ := by decide
      obtain rfl := Except.ok.inj (hdiv.symm.trans hr)
      refine ⟨?_, htake (z := ⟨false, 0, [3]⟩) (by decide) ?_,
        htake (z := ⟨true, 0, [65534]⟩) (by decide) ?_⟩ <;>
      norm_num [val_digit, val_sign_digit, UInt16.toNat_ofNat]
    · obtain rfl := Except.ok.inj (hsecond.symm.trans hu)
      show Negates ⟨true, 0, [65534]⟩
      exact fun _ => ⟨65534, by simp, by decide⟩

/-- `131071 / 3` is taken to be 21845 without a remainder, so `3 / 131071` becomes `1 / 21845`. -/
theorem lost_remainder_not_reduced :
    round ⟨ofUInt64 3, ofUInt64 131071⟩ 2 = .ok ⟨⟨false, 0, [1]⟩, ⟨false, 0, [21845]⟩⟩ ∧
      ¬∀ x prec, Whole x.num → Whole x.den → 0 < x.num.val → 0 < x.den.val → Reduces x prec := by
  have hloop : loop 2 (start ⟨ofUInt64 3, ofUInt64 131071⟩) = .ok (.den, ⟨⟨false, 0, [3]⟩,
      ⟨false, 0, [0]⟩, ⟨false, 0, [1]⟩, ⟨false, 0, [0]⟩, ⟨false, 0, [1]⟩, ⟨true, 0, [43691]⟩⟩) := by
    decide
  have hround : round ⟨ofUInt64 3, ofUInt64 131071⟩ 2 =
      .ok ⟨⟨false, 0, [1]⟩, ⟨false, 0, [21845]⟩⟩ := by
    rw [round, hloop]
    rfl
  refine ⟨hround, fun h => ?_⟩
  have hpos : ∀ n : UInt64, 0 < n.toNat → 0 < (ofUInt64 n).val := fun n hn => by
    rw [val_ofUInt64]
    exact_mod_cast hn
  obtain ⟨y, hy, p, q, hp, hq, -, hcross, -⟩ := h ⟨ofUInt64 3, ofUInt64 131071⟩ 2
    (whole_ofUInt64 3) (whole_ofUInt64 131071) (hpos 3 (by decide)) (hpos 131071 (by decide)) _ _
    hloop nofun
  obtain rfl := Except.ok.inj (hround.symm.trans hy)
  rw [← hp, ← hq, val_ofUInt64, val_ofUInt64, val_digit, val_digit] at hcross
  exact absurd hcross (by norm_num [UInt16.toNat_ofNat, UInt64.toNat_ofNat])

end Rational
end CoreCommon
