import CoreCommon.DigitalDiv
import CoreCommon.DigitalSize

/-! Division with remainder. A round guesses two digits of the quotient from the first digits of
the remainder and the divisor; the division is right when every guess can be taken off and the
next remainder starts one place lower. -/
namespace CoreCommon.Digital
open Words

/-- An integer without a sign, as `trim` leaves it. -/
structure Whole (x : Digital) : Prop where
  unsigned : x.negative = false
  trimmed : x.Trimmed
  integral : x.digits.length ≤ x.exponent + 1

/-- The integer. -/
def toNat (x : Digital) : ℕ := value x.digits.reverse * base ^ x.low.toNat

/-- The two digits guessed for a remainder. -/
def guess (lead rem : ℕ) : ℕ := topDigit rem * base / lead

/-- For a divisor `b` from place `eb` down with the first digit `lead`: from the quotient's place
`n` down each guess can be taken off and leaves a remainder that starts one place lower, or
nothing, and the last one leaves less than the divisor. A guess of one digit only needs a digit
of the last guess in front of it. -/
def Guessed (b eb lead : ℕ) : ℕ → ℕ → Bool → Prop
  | 0, rem, _ => rem < base ^ (eb + 1) ∧
      guess lead rem / base * b ≤ rem ∧ rem < (guess lead rem / base + 1) * b
  | n + 1, rem, adjacent => rem = 0 ∨
      base ^ (eb + n + 1) ≤ rem ∧ rem < base ^ (eb + n + 2) ∧
        guess lead rem * b * base ^ n ≤ rem ∧ (base ≤ guess lead rem ∨ adjacent = true) ∧
          Guessed b eb lead n (rem - guess lead rem * b * base ^ n)
            (guess lead rem % base ≠ 0)

/-- The quotient and the remainder are those of the numbers. -/
def Divides (x y : Digital) : Prop :=
  ∃ r, x.div y (x.exponent - y.exponent).toNat false = .ok r ∧
    x.val = r.quotient.val * y.val + r.remainder.val ∧
      0 ≤ r.remainder.val ∧ r.remainder.val < y.val

/-- A trimmed number without a sign is the natural number `n`. -/
structure Denotes (x : Digital) (n : ℕ) : Prop where
  unsigned : x.negative = false
  trimmed : x.Trimmed
  val_eq : x.val = n

/-! ### The guess -/

section guess
variable {r : Digital} {lead : UInt16} {rem : ℕ}

lemma wideDiv_cons {d : UInt16} {ds : List UInt16} (hds : r.digits = d :: ds) (hlead : lead ≠ 0) :
    ∃ w, wideDiv r (some lead) = .ok w ∧ w.toNat = d.toNat * base / lead.toNat := by
  refine ⟨(d.toUInt32 <<< 16) / lead.toUInt32, ?_, ?_⟩
  · rw [wideDiv, if_neg hlead, hds]
  · have hlt := d.toNat_lt
    have hshift : (d.toUInt32 <<< 16).toNat = d.toNat * base := by
      rw [UInt32.toNat_shiftLeft, UInt16.toNat_toUInt32]
      show (d.toNat <<< 16) % 2 ^ 32 = _
      rw [Nat.shiftLeft_eq, Nat.mod_eq_of_lt (by omega)]
    rw [UInt32.toNat_div, hshift, UInt16.toNat_toUInt32]

lemma wideDiv_eq (hr : Denotes r rem) (hlead : lead ≠ 0) :
    ∃ w, wideDiv r (some lead) = .ok w ∧ w.toNat = guess lead.toNat rem := by
  obtain ⟨d, ds, hds, hd⟩ := hr.trimmed.top_digit hr.unsigned hr.val_eq
  rw [guess, ← hd]
  exact wideDiv_cons hds hlead

lemma hi_lo (w : UInt32) : (w >>> 16).toUInt16.toNat = w.toNat / base ∧
    (w &&& 65535).toUInt16.toNat = w.toNat % base := by
  have hw := w.toNat_lt
  constructor
  · have hshift : (w >>> 16).toNat = w.toNat / 65536 := by
      rw [UInt32.toNat_shiftRight, Nat.shiftRight_eq_div_pow]
      rfl
    rw [UInt32.toNat_toUInt16, hshift]
    simp only [base]
    omega
  · have hand : (w &&& 65535).toNat = w.toNat % 65536 := by
      rw [UInt32.toNat_and]
      exact Nat.and_two_pow_sub_one_eq_mod _ 16
    rw [UInt32.toNat_toUInt16, hand]
    simp only [base]
    omega

lemma topDigit_lt (rem : ℕ) : topDigit rem < base := by
  have hlt := Nat.lt_pow_succ_log_self (show 1 < base by norm_num) rem
  rw [pow_succ] at hlt
  exact Nat.div_lt_of_lt_mul hlt

/-- The first digit of a guess is one of the quotient's. -/
lemma guess_div_mul_lt {d : ℕ} (hd : d < base) (l : ℕ) : d * base / l / base * l < base := by
  rw [Nat.div_div_eq_div_mul, Nat.mul_div_mul_right _ _ (by norm_num)]
  exact (Nat.div_mul_le_self _ _).trans_lt hd

/-- The second digit of a guess leaves room for the first one of the next. -/
lemma guess_mod_le {l : ℕ} (hl : 0 < l) (d : ℕ) : d * base / l % base * l + base ≤ l * base := by
  have hguess : d * base / l * l ≤ d * base := Nat.div_mul_le_self _ _
  have hdigits := Nat.div_add_mod (d * base / l) base
  have htop := Nat.div_add_mod d l
  have hmod := Nat.mod_lt d hl
  rw [Nat.div_div_eq_div_mul, Nat.mul_div_mul_right _ _ (by norm_num)] at hdigits
  have hle : d * base / l % base * l ≤ d % l * base := by
    nlinarith
  calc d * base / l % base * l + base ≤ d % l * base + base := Nat.add_le_add_right hle _
    _ = (d % l + 1) * base := (Nat.succ_mul _ _).symm
    _ ≤ l * base := Nat.mul_le_mul_right _ hmod

end guess

/-! ### The quotient -/

section quotient
variable {q : Digital} {n m l : ℕ} {adjacent : Bool}

/-- The quotient before the round at place `n`: the digit there has room for a digit more, and is
the last one if the last guess had two digits. -/
structure Quotient (q : Digital) (n l m : ℕ) (adjacent : Bool) : Prop where
  unsigned : q.negative = false
  nonempty : q.digits ≠ []
  val_eq : q.val = m * (base : ℚ) ^ (n : ℤ)
  room : m % base * l + base ≤ l * base
  le_low : n ≤ q.low
  lowest : adjacent = true ↔ q.low = n

lemma Quotient.room_for (h : Quotient q n l m adjacent) {hi : ℕ} (hhi : hi * l < base) :
    m % base + hi < base := by
  have hroom := h.room
  by_contra hge
  have hle := Nat.mul_le_mul_right l (not_lt.1 hge)
  rw [Nat.add_mul] at hle
  nlinarith

lemma low_append_digit (q : Digital) (d : UInt16) :
    low { q with digits := q.digits ++ [d] } = q.low - 1 := by
  rw [low, low, List.length_append, List.length_singleton]
  push_cast
  ring

lemma val_append_digit (h : q.negative = false) (d : UInt16) :
    val { q with digits := q.digits ++ [d] } = q.val + d.toNat * (base : ℚ) ^ (q.low - 1) := by
  have hunit : (base : ℚ) ^ q.low = (base : ℚ) ^ (q.low - 1) * base := by
    rw [← zpow_add_one₀ (by norm_num), sub_add_cancel]
  rw [val_low h, val_low (x := { q with digits := q.digits ++ [d] }) h, low_append_digit, hunit,
    List.reverse_append, List.reverse_singleton, List.singleton_append, value_cons]
  push_cast
  ring

/-- The first digit of a guess is added, or nothing. -/
lemma addHi_exact (h : q.negative = false) (hq : q.digits ≠ []) (hi : UInt16) (e : ℤ) :
    ∃ z, q.addHi hi e = .ok z ∧ z.negative = false ∧ z.digits ≠ [] ∧
      z.val = q.val + hi.toNat * (base : ℚ) ^ e ∧ (hi ≠ 0 → z.Trimmed) ∧
        (hi = 0 → z.low = min q.low (e + 1)) := by
  by_cases hzero : hi = 0
  · subst hzero
    rw [addHi, if_neg (not_not.2 rfl), UInt16.toNat_zero, Nat.cast_zero, zero_mul, add_zero]
    by_cases hfar : q.exponent - q.digits.length > e
    · rw [if_pos hfar]
      refine ⟨_, rfl, h, by simp [hq], ?_, fun hne => absurd rfl hne, fun _ => ?_⟩
      · rw [val_append_zeros]
      · unfold low
        dsimp only
        rw [List.length_append, List.length_replicate]
        omega
    · rw [if_neg hfar]
      refine ⟨q, rfl, h, hq, rfl, fun hne => absurd rfl hne, fun _ => ?_⟩
      unfold low
      omega
  · obtain ⟨z, hz, hneg, hdigits, hval⟩ := addDigit_exact h hi e
    rw [addHi, if_pos hzero]
    refine ⟨z.trim, hz true, hneg, (trimmed_trim hdigits).nonempty, ?_,
      fun _ => trimmed_trim hdigits, fun h0 => absurd h0 hzero⟩
    rw [val_trim, hval]

/-- The first digit of a guess goes to its place. -/
lemma Quotient.addHi (h : Quotient q n l m adjacent) (hi : UInt16) (hhi : hi.toNat * l < base) :
    ∃ z, q.addHi hi n = .ok z ∧ z.negative = false ∧ z.digits ≠ [] ∧
      z.val = (m + hi.toNat : ℕ) * (base : ℚ) ^ (n : ℤ) ∧
        z.low = if hi = 0 then min q.low (n + 1) else n := by
  obtain ⟨z, hz, hneg, hdigits, hval, htrimmed, hsame⟩ := addHi_exact h.unsigned h.nonempty hi n
  rw [h.val_eq, ← add_mul, ← Nat.cast_add] at hval
  refine ⟨z, hz, hneg, hdigits, hval, ?_⟩
  by_cases hzero : hi = 0
  · rw [if_pos hzero, hsame hzero]
  · rw [if_neg hzero]
    refine (htrimmed hzero).low_eq hneg hval ?_
    rw [Nat.add_mod, Nat.mod_eq_of_lt (toNat_lt hi), Nat.mod_eq_of_lt (h.room_for hhi)]
    have := mt (eq_zero_iff hi).2 hzero
    omega

/-- A guess of two digits, or of one that has a digit in front of it. -/
lemma Quotient.guess (h : Quotient q (n + 1) l m adjacent) (hi lo : UInt16)
    (hhi : hi.toNat * l < base) (hlo : lo.toNat * l + base ≤ l * base)
    (hfront : hi ≠ 0 ∨ lo = 0 ∨ adjacent = true) :
    ∃ z, q.addHi hi (n + 1 : ℕ) = .ok z ∧
      Quotient (if lo ≠ 0 then { z with digits := z.digits ++ [lo] } else z) n l
        ((m + hi.toNat) * base + lo.toNat) (lo ≠ 0) := by
  have hpow : (base : ℚ) ^ ((n + 1 : ℕ) : ℤ) = (base : ℚ) ^ (n : ℤ) * base := by
    rw [Nat.cast_succ n, zpow_add_one₀ (by norm_num)]
  have hroom : ((m + hi.toNat) * base + lo.toNat) % base * l + base ≤ l * base := by
    rw [Nat.mul_add_mod_self_right, Nat.mod_eq_of_lt (toNat_lt lo)]
    exact hlo
  obtain ⟨z, hz, hneg, hdigits, hval, hlow⟩ := h.addHi hi hhi
  have hle := h.le_low
  refine ⟨z, hz, ?_⟩
  by_cases hzero : lo = 0
  · have hlow' : (n : ℤ) < z.low := by
      rw [hlow]
      split_ifs <;> omega
    rw [if_neg (not_not.2 hzero)]
    refine ⟨hneg, hdigits, ?_, hroom, hlow'.le, by simp [hzero, hlow'.ne']⟩
    rw [hval, hzero, hpow, UInt16.toNat_zero]
    push_cast
    ring
  · have hlow' : z.low = (n + 1 : ℕ) := by
      by_cases hhi0 : hi = 0
      · have hq := h.lowest.1 ((hfront.resolve_left (not_not.2 hhi0)).resolve_left hzero)
        rw [hlow, if_pos hhi0, hq]
        omega
      · rw [hlow, if_neg hhi0]
    have hplace : low { z with digits := z.digits ++ [lo] } = n := by
      rw [low_append_digit, hlow', Nat.cast_succ n, add_sub_cancel_right]
    rw [if_pos hzero]
    refine ⟨hneg, by simp, ?_, hroom, hplace.ge, by simp [hzero, hplace]⟩
    rw [val_append_digit hneg, hlow', hval, hpow, Nat.cast_succ n, add_sub_cancel_right]
    push_cast
    ring

end quotient

/-! ### The remainder -/

section remainder
variable {y r : Digital} {w : UInt32} {b rem : ℕ}

/-- The digits by which the divisor is multiplied stand for the guess with a sign. -/
lemma val_taken (hi lo : UInt16) (hne : lo ≠ 0 ∨ hi ≠ 0) (e : ℤ) :
    let ds := if lo ≠ 0 then [~~~hi, -lo] else [-hi]
    val ⟨true, e, ds⟩ = -((hi.toNat * base + lo.toNat : ℕ) * (base : ℚ) ^ (e - 1)) ∧
      value ds.reverse ≠ 0 := by
  dsimp only
  by_cases hzero : lo = 0
  · have hhi := hne.resolve_left (not_not.2 hzero)
    have hdigit := negate_digit hhi
    have hlt := hi.toNat_lt
    have hcast : ((-hi).toNat : ℚ) + hi.toNat = base := by exact_mod_cast hdigit
    have hunit : (base : ℚ) ^ (e + 1 - ([-hi].length : ℤ)) = (base : ℚ) ^ (e - 1) * base := by
      rw [List.length_singleton, ← zpow_add_one₀ (by norm_num)]
      congr 1
      push_cast
      ring
    rw [if_neg (not_not.2 hzero), val_eq, hunit, hzero]
    simp only [List.reverse_singleton, value_cons, value_nil, signed, if_true, List.length_singleton,
      UInt16.toNat_zero]
    refine ⟨?_, by omega⟩
    push_cast
    linear_combination (base : ℚ) ^ (e - 1) * base * hcast
  · have hlow := negate_digit hzero
    have hhigh := complement_digit hi
    have hlt := lo.toNat_lt
    have hcast : ((-lo).toNat : ℚ) + lo.toNat = base := by exact_mod_cast hlow
    have hcast' : ((~~~hi).toNat : ℚ) + hi.toNat = base - 1 := by
      rw [eq_sub_iff_add_eq]
      exact_mod_cast congrArg Nat.succ hhigh
    have hplace : e + 1 - ([~~~hi, -lo].length : ℤ) = e - 1 := by
      simp
      ring
    rw [if_pos hzero, val_eq, hplace]
    simp only [List.reverse_cons, List.reverse_nil, List.nil_append, List.singleton_append,
      value_cons, value_nil, signed, if_true, List.length_cons, List.length_nil]
    refine ⟨?_, by omega⟩
    push_cast
    linear_combination (base : ℚ) ^ (e - 1) * hcast + (base : ℚ) ^ (e - 1) * base * hcast'

/-- The guess times the divisor is added to the remainder as a negative number. -/
lemma takeOff_eq (hi lo : UInt16) (e : ℤ) (hy : Denotes y b) (hb : b ≠ 0) (hw : w ≠ 0)
    (hne : lo ≠ 0 ∨ hi ≠ 0) : ∃ p, (∀ r, takeOff r y w hi lo e = r.add p) ∧ p.negative = true ∧
      p.val = -(b * ((hi.toNat * base + lo.toNat : ℕ) * (base : ℚ) ^ (e - 1))) := by
  obtain ⟨hval, hvalue⟩ := val_taken hi lo hne e
  set ds := if lo ≠ 0 then [~~~hi, -lo] else [-hi] with hds
  have hguess : 0 < hi.toNat * base + lo.toNat := by
    have hlo := mt (eq_zero_iff lo).2
    have hhi := mt (eq_zero_iff hi).2
    rcases hne with hne | hne
    · have := hlo hne
      omega
    · have := hhi hne
      simp only [base]
      omega
  obtain ⟨p, hp, hpval⟩ := mul_negative_exact (y := ⟨true, e, ds⟩) hy.unsigned hy.trimmed
    (by rw [hy.val_eq]; exact_mod_cast hb) rfl hvalue
  rw [hval, mul_neg, hy.val_eq] at hpval
  have hpos : (0 : ℚ) < b * ((hi.toNat * base + lo.toNat : ℕ) * (base : ℚ) ^ (e - 1)) :=
    mul_pos (by exact_mod_cast Nat.pos_of_ne_zero hb)
      (mul_pos (by exact_mod_cast hguess) (base_zpow_pos _))
  refine ⟨p, fun r => ?_, negative_of_val_neg (by linarith), hpval⟩
  have hsign : (!y.negative && decide (w ≠ 0)) = true := by simp [hy.unsigned, hw]
  unfold takeOff
  rw [if_pos hne, hsign, hy.unsigned]
  simp only [Bool.false_eq_true, if_false, ← hds]
  rw [hp, Run.bind_ok]

/-- The guess times the divisor is taken off the remainder, where it leaves less than the first
digit stands for or is more than that itself. -/
lemma takeOff_exact (hi lo : UInt16) (e : ℤ) (hy : Denotes y b) (hb : b ≠ 0) (hr : Denotes r rem)
    (hw : w ≠ 0) (hne : lo ≠ 0 ∨ hi ≠ 0) {t : ℕ}
    (ht : (t : ℚ) = b * ((hi.toNat * base + lo.toNat : ℕ) * (base : ℚ) ^ (e - 1))) (hle : t ≤ rem)
    (hfirst : r.val - t < (base : ℚ) ^ r.exponent ∨ (base : ℚ) ^ r.exponent < t) :
    ∃ z, r.takeOff y w hi lo e = .ok z ∧ Denotes z (rem - t) := by
  obtain ⟨p, hp, hpneg, hpval⟩ := takeOff_eq hi lo e hy hb hw hne
  rw [← ht] at hpval
  have hle' : (t : ℚ) ≤ r.val := by
    rw [hr.val_eq]
    exact_mod_cast hle
  obtain ⟨z, hz, hzval⟩ := add_negative_exact hr.unsigned hr.trimmed hpneg (by
    rcases hfirst with hless | hmore
    · refine .inr ⟨?_, by rwa [hpval, ← sub_eq_add_neg]⟩
      have hneg := val_neg hpneg
      rw [hpval] at hneg
      linarith
    · left
      have hbound := neg_le_val p
      have hlt : (base : ℚ) ^ r.exponent < (base : ℚ) ^ (p.exponent + 1) := by linarith
      have := (zpow_lt_zpow_iff_right₀ (by norm_num)).1 hlt
      omega)
  rw [hpval, ← sub_eq_add_neg] at hzval
  refine ⟨z, by rw [hp, hz], negative_of_val_nonneg (by linarith), add_trimmed hr.trimmed.nonempty hz,
    ?_⟩
  rw [hzval, hr.val_eq, Nat.cast_sub hle]

lemma takeOff_zero (r y : Digital) (w : UInt32) (e : ℤ) : r.takeOff y w 0 0 e = .ok r := rfl

end remainder

/-! ### The rounds -/

section rounds
variable {y q r : Digital} {b eb n m rem : ℕ} {l : UInt16} {adjacent : Bool}

lemma guess_pos {l : ℕ} (hl : 0 < l) (hlt : l < base) (hrem : rem ≠ 0) : 0 < guess l rem := by
  have htop : 0 < topDigit rem := Nat.div_pos (Nat.pow_log_le_self base hrem) (by positivity)
  exact Nat.div_pos (by nlinarith) hl

lemma guess_zero (l : ℕ) : guess l 0 = 0 := by
  simp [guess, topDigit]

lemma Guessed.lt {l : ℕ} (h : Guessed b eb l n rem adjacent) : rem < base ^ (eb + n + 1) := by
  cases n with
  | zero => exact h.1
  | succ n =>
    rcases h with rfl | ⟨-, hlt, -⟩
    · positivity
    · exact hlt

/-- A round, put together from its parts. -/
lemma divRound_eq {z s : Digital} {leading : Option UInt16} {round last : Bool} {e : ℤ} {w : UInt32}
    {hi lo : UInt16} (hw : wideDiv r leading = .ok w)
    (hhi : hi = if last && round && (w &&& 65535).toUInt16 ≥ 65535 / 2 then (w >>> 16).toUInt16 + 1
      else (w >>> 16).toUInt16)
    (hlo : lo = if last then 0 else (w &&& 65535).toUInt16)
    (hz : q.addHi hi e = .ok z) (hs : r.takeOff y w hi lo e = .ok s) :
    divRound y leading round last e ⟨q, r⟩ =
      .ok ⟨if lo ≠ 0 then { z with digits := z.digits ++ [lo] } else z, s⟩ := by
  subst hhi hlo
  rw [divRound, hw]
  simp only [bind, Except.bind, hz, hs, lift]

/-- A round that is not the last one. -/
lemma divRound_guess (hy : Denotes y b) (hb : b ≠ 0) (hl : l ≠ 0)
    (hq : Quotient q (n + 1) l.toNat m adjacent) (hr : Denotes r rem)
    (hlow : base ^ (eb + n + 1) ≤ rem) (hhigh : rem < base ^ (eb + n + 2))
    (hle : guess l.toNat rem * b * base ^ n ≤ rem)
    (hfront : base ≤ guess l.toNat rem ∨ adjacent = true)
    (hnext : rem - guess l.toNat rem * b * base ^ n < base ^ (eb + n + 1)) :
    ∃ z s, divRound y (some l) false false (n + 1 : ℕ) ⟨q, r⟩ = .ok ⟨z, s⟩ ∧
      Quotient z n l.toNat (m * base + guess l.toNat rem)
        (guess l.toNat rem % base ≠ 0) ∧
      Denotes s (rem - guess l.toNat rem * b * base ^ n) := by
  have hl' : 0 < l.toNat := Nat.pos_of_ne_zero fun h0 => hl ((eq_zero_iff l).2 h0)
  have hrem : rem ≠ 0 := fun h0 => by
    rw [h0] at hlow
    exact absurd hlow (not_le.2 (by positivity))
  obtain ⟨w, hw, hwval⟩ := wideDiv_eq hr hl
  obtain ⟨hhi, hlo⟩ := hi_lo w
  have hpos := guess_pos hl' l.toNat_lt hrem
  have hdigits := Nat.div_add_mod (guess l.toNat rem) base
  have hdiv := guess_div_mul_lt (topDigit_lt rem) l.toNat
  have hmod := guess_mod_le hl' (topDigit rem)
  rw [← guess] at hdiv hmod
  rw [hwval] at hhi hlo
  set hi := (w >>> 16).toUInt16 with hhidef
  set lo := (w &&& 65535).toUInt16 with hlodef
  generalize guess l.toNat rem = g at *
  have hwne : w ≠ 0 := by
    rintro rfl
    exact hpos.ne hwval
  have hhi0 : hi = 0 ↔ g / base = 0 := by rw [eq_zero_iff, hhi]
  have hlo0 : lo = 0 ↔ g % base = 0 := by rw [eq_zero_iff, hlo]
  have hg : hi.toNat * base + lo.toNat = g := by rw [hhi, hlo, Nat.mul_comm, hdigits]
  have hsome : lo ≠ 0 ∨ hi ≠ 0 := by
    by_contra hnone
    push Not at hnone
    rw [hnone.1, hnone.2] at hg
    exact hpos.ne hg
  obtain ⟨z, hz, hzq⟩ := hq.guess hi lo (by rwa [hhi]) (by rwa [hlo])
    (hfront.imp (fun hge => by
      rw [Ne, hhi0]
      exact (Nat.div_pos hge (by norm_num)).ne') .inr)
  obtain ⟨s, hs, hrest⟩ := takeOff_exact hi lo (n + 1 : ℕ) hy hb hr hwne hsome
    (t := g * b * base ^ n)
    (by rw [hg, Nat.cast_succ n, add_sub_cancel_right, zpow_natCast]; push_cast; ring)
    hle
    (.inl (by
      rw [hr.trimmed.exponent_eq hr.unsigned hr.val_eq hlow hhigh, hr.val_eq, zpow_natCast,
        ← Nat.cast_sub hle]
      exact_mod_cast hnext))
  refine ⟨_, s, divRound_eq hw rfl rfl hz hs, ?_, hrest⟩
  · have hm : (m + hi.toNat) * base + lo.toNat = m * base + g := by
      rw [Nat.add_mul, Nat.add_assoc, hg]
    have hadjacent : decide (lo ≠ 0) = decide (g % base ≠ 0) := by
      rw [decide_eq_decide, Ne, Ne, hlo0]
    rwa [hm, hadjacent] at hzq

lemma Denotes.exponent_le (hr : Denotes r rem) (hrem : rem ≠ 0) (hlt : rem < base ^ (eb + 1)) :
    r.exponent ≤ eb := by
  have hlow := hr.trimmed.le_val hr.unsigned (by rw [hr.val_eq]; exact_mod_cast hrem)
  rw [hr.val_eq] at hlow
  have hpow : (base : ℚ) ^ r.exponent < (base : ℚ) ^ ((eb : ℤ) + 1) := by
    rw [← Nat.cast_succ eb, zpow_natCast]
    exact hlow.trans_lt (by exact_mod_cast hlt)
  exact Int.lt_add_one_iff.1 ((zpow_lt_zpow_iff_right₀ (by norm_num)).1 hpow)

/-- In the last round the remainder is no higher than the divisor, and only a divisor that is a
power of the base takes exactly what the first digit stands for. -/
lemma Denotes.first_of_last {t : ℕ} (hr : Denotes r rem) (hlt : rem < base ^ (eb + 1))
    (hb : base ^ eb ≤ b) (hbt : b ≤ t) (hle : t ≤ rem) (hnext : rem < t + b) :
    r.val - t < (base : ℚ) ^ r.exponent ∨ (base : ℚ) ^ r.exponent < t := by
  have hbpos : 0 < base ^ eb := by positivity
  have htop : (base : ℚ) ^ r.exponent ≤ b := by
    calc (base : ℚ) ^ r.exponent ≤ (base : ℚ) ^ (eb : ℤ) :=
          zpow_le_zpow_right₀ (by norm_num) (hr.exponent_le (by omega) hlt)
      _ ≤ b := by rw [zpow_natCast]; exact_mod_cast hb
  have hbt' : (b : ℚ) ≤ t := by exact_mod_cast hbt
  rcases lt_or_ge ((base : ℚ) ^ r.exponent) t with hmore | hless
  · exact .inr hmore
  · have heq : (base : ℚ) ^ r.exponent = b := le_antisymm htop (hbt'.trans hless)
    left
    rw [heq, hr.val_eq, ← Nat.cast_sub hle, Nat.cast_lt]
    omega

/-- The last round. -/
lemma divRound_last (hy : Denotes y b) (hb : base ^ eb ≤ b) (hl : l ≠ 0) (hqneg : q.negative = false)
    (hqd : q.digits ≠ []) (hr : Denotes r rem) (hlt : rem < base ^ (eb + 1))
    (hle : guess l.toNat rem / base * b ≤ rem) (hnext : rem < (guess l.toNat rem / base + 1) * b) :
    ∃ z s, divRound y (some l) false true 0 ⟨q, r⟩ = .ok ⟨z, s⟩ ∧
      z.val = q.val + (guess l.toNat rem / base : ℕ) ∧
      Denotes s (rem - guess l.toNat rem / base * b) := by
  obtain ⟨w, hw, hwval⟩ := wideDiv_eq hr hl
  obtain ⟨hhi, -⟩ := hi_lo w
  rw [hwval] at hhi
  set hi := (w >>> 16).toUInt16 with hhidef
  generalize guess l.toNat rem = g at *
  obtain ⟨z, hz, -, -, hzval, -⟩ := addHi_exact hqneg hqd hi 0
  rw [zpow_zero, mul_one, hhi] at hzval
  by_cases hhi0 : hi = 0
  · have hg : g / base = 0 := by rw [← hhi, hhi0, UInt16.toNat_zero]
    refine ⟨z, r, divRound_eq hw rfl rfl hz ?_, hzval, ?_⟩
    · show r.takeOff y w hi 0 0 = .ok r
      rw [hhi0, takeOff_zero]
    · rwa [hg, Nat.zero_mul, Nat.sub_zero]
  · have hg : 0 < g / base := by
      have := mt (eq_zero_iff hi).2 hhi0
      omega
    have hwne : w ≠ 0 := by
      rintro rfl
      rw [← hwval] at hg
      exact absurd hg (by decide)
    have hbpos : 0 < b := (show 0 < base ^ eb by positivity).trans_le hb
    have hbt : b ≤ g / base * b := Nat.le_mul_of_pos_left _ hg
    obtain ⟨s, hs, hrest⟩ := takeOff_exact hi 0 0 hy hbpos.ne' hr hwne (.inr hhi0)
      (t := g / base * b)
      (by
        rw [hhi, UInt16.toNat_zero, Nat.add_zero, zero_sub, zpow_neg_one]
        push_cast
        field_simp)
      hle
      (hr.first_of_last hlt hb hbt hle (by rwa [Nat.succ_mul] at hnext))
    exact ⟨z, s, divRound_eq hw rfl rfl hz hs, hzval, hrest⟩

/-- Nothing left to divide leaves the quotient as it is. -/
lemma divRound_zero (hl : l ≠ 0) (hqneg : q.negative = false) (hqd : q.digits ≠ [])
    (hr : Denotes r 0) (last : Bool) (e : ℤ) :
    ∃ z, divRound y (some l) false last e ⟨q, r⟩ = .ok ⟨z, r⟩ ∧ z.negative = false ∧
      z.digits ≠ [] ∧ z.val = q.val := by
  obtain ⟨w, hw, hwval⟩ := wideDiv_eq hr hl
  rw [guess_zero] at hwval
  obtain rfl : w = 0 := UInt32.toNat_inj.1 hwval
  obtain ⟨z, hz, hneg, hdigits, hval, -⟩ := addHi_exact hqneg hqd 0 e
  rw [UInt16.toNat_zero, Nat.cast_zero, zero_mul, add_zero] at hval
  refine ⟨z, ?_, hneg, hdigits, hval⟩
  show divRound y (some l) false last e ⟨q, r⟩ =
    .ok ⟨if (0 : UInt16) ≠ 0 then { z with digits := z.digits ++ [0] } else z, r⟩
  exact divRound_eq hw (by rw [Bool.and_false, Bool.false_and]; rfl) (by cases last <;> rfl) hz
    (takeOff_zero r y 0 e)

lemma divLoop_zero (hl : l ≠ 0) (n : ℕ) (e : ℤ) (hqneg : q.negative = false) (hqd : q.digits ≠ [])
    (hr : Denotes r 0) : ∃ s, divLoop y (some l) false n e ⟨q, r⟩ = .ok s ∧
      s.quotient.val = q.val ∧ s.remainder.val = 0 := by
  induction n generalizing q e with
  | zero =>
    obtain ⟨z, hz, -, -, hval⟩ := divRound_zero (y := y) hl hqneg hqd hr true e
    refine ⟨⟨z, r⟩, ?_, hval, by rw [hr.val_eq, Nat.cast_zero]⟩
    rw [divLoop, decide_eq_true rfl, hz]
    simp only [bind, Except.bind, ite_self]
  | succ n ih =>
    obtain ⟨z, hz, hneg, hdigits, hval⟩ := divRound_zero (y := y) hl hqneg hqd hr false e
    rw [divLoop, decide_eq_false (Nat.succ_ne_zero n), hz]
    simp only [bind, Except.bind]
    by_cases hzero : r.isZero = true
    · rw [if_pos hzero]
      exact ⟨_, rfl, hval, val_of_isZero hzero⟩
    · rw [if_neg hzero]
      obtain ⟨s, hs, hsval, hrem⟩ := ih (e - 1) hneg hdigits
      exact ⟨s, hs, hsval.trans hval, hrem⟩

/-- From any place down, good guesses leave the value of the quotient times the divisor and the
remainder as it is. -/
lemma divLoop_guessed (hy : Denotes y b) (hb : base ^ eb ≤ b) (hl : l ≠ 0)
    (hq : Quotient q n l.toNat m adjacent) (hr : Denotes r rem)
    (h : Guessed b eb l.toNat n rem adjacent) :
    ∃ s, divLoop y (some l) false n n ⟨q, r⟩ = .ok s ∧
      q.val * b + rem = s.quotient.val * b + s.remainder.val ∧
        0 ≤ s.remainder.val ∧ s.remainder.val < b := by
  have hbpos : 0 < b := (show 0 < base ^ eb by positivity).trans_le hb
  induction n generalizing q r m rem adjacent with
  | zero =>
    obtain ⟨hlt, hle, hnext⟩ := h
    obtain ⟨z, s, hround, hzval, hs⟩ := divRound_last hy hb hl hq.unsigned hq.nonempty hr hlt hle hnext
    refine ⟨⟨z, s⟩, ?_, ?_, val_nonneg hs.unsigned, ?_⟩
    · rw [divLoop, decide_eq_true rfl, Nat.cast_zero, hround]
      simp only [bind, Except.bind, ite_self]
    · rw [hzval, hs.val_eq, Nat.cast_sub hle]
      push_cast
      ring
    · rw [hs.val_eq, Nat.cast_lt]
      rw [Nat.succ_mul] at hnext
      omega
  | succ n ih =>
    rcases h with rfl | ⟨hlow, hhigh, hle, hfront, hrest⟩
    · obtain ⟨s, hs, hsval, hrem⟩ := divLoop_zero (y := y) hl (n + 1) (n + 1 : ℕ) hq.unsigned
        hq.nonempty hr
      refine ⟨s, hs, ?_, hrem.ge, ?_⟩
      · rw [hsval, hrem, Nat.cast_zero]
      · rw [hrem]
        exact_mod_cast hbpos
    · obtain ⟨z, s, hround, hz, hs⟩ := divRound_guess hy hbpos.ne' hl hq hr hlow hhigh hle hfront
        hrest.lt
      have hstep : q.val * b + rem = z.val * b +
          (rem - guess l.toNat rem * b * base ^ n : ℕ) := by
        rw [hq.val_eq, hz.val_eq, Nat.cast_sub hle, zpow_natCast, zpow_natCast]
        push_cast
        ring
      rw [hstep, divLoop, decide_eq_false (Nat.succ_ne_zero n), hround]
      simp only [bind, Except.bind]
      by_cases hzero : s.isZero = true
      · rw [if_pos hzero]
        have hszero := val_of_isZero hzero
        refine ⟨_, rfl, by rw [← hs.val_eq], hszero.ge, ?_⟩
        rw [hszero]
        exact_mod_cast hbpos
      · rw [if_neg hzero, Nat.cast_succ n, add_sub_cancel_right]
        exact ih hz hs hrest

end rounds

/-! ### Division with remainder -/

section division
variable {x y : Digital}

lemma Whole.denotes (h : Whole x) : Denotes x x.toNat := by
  refine ⟨h.unsigned, h.trimmed, ?_⟩
  have hlow : x.low = x.low.toNat := by
    have := h.integral
    unfold low
    omega
  rw [val_low h.unsigned, hlow, zpow_natCast, toNat, mul_comm]
  push_cast
  rfl

lemma Whole.exponent_eq (h : Whole x) : x.exponent = x.exponent.toNat := by
  have hlen := List.length_pos_iff.2 h.trimmed.nonempty
  have := h.integral
  omega

lemma leading_eq (h : y.negative = false) (ht : y.Trimmed) (hne : y.val ≠ 0) {b : ℕ}
    (hval : y.val = b) : ∃ l, y.leading = some l ∧ l ≠ 0 ∧ l.toNat = topDigit b := by
  obtain ⟨d, ds, hds, hd⟩ := ht.top_digit h hval
  obtain ⟨d', ds', hds', hne'⟩ := ht.cons h hne
  obtain ⟨rfl, rfl⟩ := List.cons.inj (hds.symm.trans hds')
  refine ⟨d, ?_, hne', hd⟩
  rw [leading, hds]
  simp [h]

/-- The condition on the two numbers. -/
def Guesses (x y : Digital) : Prop :=
  Guessed y.toNat y.exponent.toNat (topDigit y.toNat) (x.exponent - y.exponent).toNat x.toNat true

/-- Integers whose every guess is good are divided with remainder. -/
theorem divides_of_guesses (hx : Whole x) (hy : Whole y) (hpos : 0 < y.val)
    (hle : y.exponent ≤ x.exponent) (h : Guesses x y) : Divides x y := by
  have hother : y.isZero ≠ true := fun hzero => hpos.ne' (val_of_isZero hzero)
  unfold Divides
  rw [div, if_neg hother]
  by_cases hzero : x.isZero = true
  · have hval : (ofInt64 0).val = 0 := val_of_isZero (by decide)
    rw [if_pos hzero]
    refine ⟨_, rfl, ?_, hval.ge, hval.trans_lt hpos⟩
    rw [val_of_isZero hzero, hval, zero_mul, add_zero]
  · obtain ⟨l, hleading, hl, hlead⟩ := leading_eq hy.unsigned hy.trimmed hpos.ne' hy.denotes.val_eq
    have hn : x.exponent - y.exponent = (x.exponent - y.exponent).toNat := by omega
    have hb : base ^ y.exponent.toNat ≤ y.toNat := by
      have hlow := hy.trimmed.le_val hy.unsigned hpos.ne'
      rw [hy.denotes.val_eq, hy.exponent_eq, zpow_natCast] at hlow
      exact_mod_cast hlow
    have hstart : Quotient ⟨false, x.exponent - y.exponent, [0]⟩ (x.exponent - y.exponent).toNat
        l.toNat 0 true := by
      have hlow : low ⟨false, x.exponent - y.exponent, [0]⟩ =
          (x.exponent - y.exponent).toNat := by
        unfold low
        simp only [List.length_singleton]
        omega
      refine ⟨rfl, by simp, ?_, ?_, hlow.ge, iff_of_true rfl hlow⟩
      · rw [val_unsigned]
        simp
      · have := Nat.pos_of_ne_zero fun h0 => hl ((eq_zero_iff l).2 h0)
        rw [Nat.zero_mod, Nat.zero_mul, Nat.zero_add]
        exact Nat.le_mul_of_pos_left _ this
    unfold Guesses at h
    rw [← hlead] at h
    obtain ⟨s, hs, hsum, hrem⟩ := divLoop_guessed hy.denotes hb hl hstart hx.denotes h
    rw [← hn] at hs
    rw [if_neg hzero, hleading, hx.unsigned, hy.unsigned]
    simp only [Bool.false_eq_true, if_false, ne_eq, not_true_eq_false]
    rw [hs]
    refine ⟨⟨s.quotient.trim, s.remainder⟩, rfl, ?_, hrem.1, ?_⟩
    · have hzeroval : val ⟨false, x.exponent - y.exponent, [0]⟩ = 0 := by
        rw [val_unsigned]
        simp
      rw [hzeroval, zero_mul, zero_add] at hsum
      rw [val_trim, hx.denotes.val_eq, hy.denotes.val_eq, hsum]
    · rw [hy.denotes.val_eq]
      exact hrem.2

end division

/-! ### Integer quotients -/

section integer
variable {x y q r : Digital} {s t : DivisionResult} {l : Option UInt16} {round last : Bool} {e : ℤ}

/-- What a round that returns has computed. -/
lemma divRound_eq_ok (h : divRound y l round last e s = .ok t) :
    ∃ hi lo z, s.quotient.addHi hi e = .ok z ∧ (last = true → lo = 0) ∧
      t.quotient = if lo ≠ 0 then { z with digits := z.digits ++ [lo] } else z := by
  obtain ⟨w, -, h⟩ := bind_eq_ok.1 h
  obtain ⟨z, hz, h⟩ := bind_eq_ok.1 h
  obtain ⟨r, -, h⟩ := bind_eq_ok.1 h
  refine ⟨_, _, z, lift_eq_ok.1 hz, fun hlast => ?_, by rw [← Except.ok.inj h]⟩
  rw [hlast]
  rfl

/-- No digit of the quotient stands below the place after this round's, nor below this round's
if it is the last one. -/
structure Above (q : Digital) (e : ℤ) : Prop where
  unsigned : q.negative = false
  nonempty : q.digits ≠ []
  le_low : e ≤ q.low

lemma addHi_above (h : Above q e) {hi : UInt16} {z : Digital} (hz : q.addHi hi e = .ok z) :
    Above z e := by
  obtain ⟨z', hz', hneg, hdigits, hval, htrimmed, hlow⟩ := addHi_exact h.unsigned h.nonempty hi e
  obtain rfl := Except.ok.inj (hz.symm.trans hz')
  refine ⟨hneg, hdigits, ?_⟩
  by_cases hzero : hi = 0
  · rw [hlow hzero]
    exact le_min h.le_low (by omega)
  · obtain ⟨i, hi'⟩ : ∃ i : ℕ, q.low = e + i := ⟨(q.low - e).toNat, by have := h.le_low; omega⟩
    have hpos := Nat.pos_of_ne_zero (mt (eq_zero_iff hi).2 hzero)
    refine (htrimmed hzero).le_low hneg (m := value q.digits.reverse * base ^ i + hi.toNat) ?_
      (by omega)
    rw [hval, val_low h.unsigned, hi', base_zpow_add]
    push_cast
    ring

lemma divRound_above (h : Above s.quotient e) (ht : divRound y l round last e s = .ok t) :
    Above t.quotient (if last then e else e - 1) := by
  obtain ⟨hi, lo, z, hz, hlast, hq⟩ := divRound_eq_ok ht
  have hz' := addHi_above h hz
  rw [hq]
  by_cases hlo : lo = 0
  · rw [if_neg (not_not.2 hlo)]
    refine ⟨hz'.unsigned, hz'.nonempty, hz'.le_low.trans' ?_⟩
    split_ifs <;> omega
  · have hnot : last ≠ true := fun h => hlo (hlast h)
    rw [if_pos hlo, if_neg hnot]
    refine ⟨hz'.unsigned, by simp, ?_⟩
    rw [low_append_digit]
    exact Int.sub_le_sub_right hz'.le_low 1

lemma divLoop_above (n : ℕ) (h : Above s.quotient n) (ht : divLoop y l round n n s = .ok t) :
    Above t.quotient 0 := by
  induction n generalizing s with
  | zero =>
    obtain ⟨s', hround, ht⟩ := bind_eq_ok.1 ht
    rw [ite_self, Except.ok.injEq] at ht
    have hs' := divRound_above h hround
    rwa [← ht]
  | succ n ih =>
    obtain ⟨s', hround, ht⟩ := bind_eq_ok.1 ht
    have hs' := divRound_above h hround
    rw [decide_eq_false (Nat.succ_ne_zero n), if_neg Bool.false_ne_true, Nat.cast_succ n,
      add_sub_cancel_right] at hs'
    split at ht
    · rw [← Except.ok.inj ht]
      exact ⟨hs'.unsigned, hs'.nonempty, by have := hs'.le_low; omega⟩
    · rw [Nat.cast_succ n, add_sub_cancel_right] at ht
      exact ih hs' ht

/-- With as many rounds as this no quotient has a digit behind the point. -/
lemma div_integer (hle : y.exponent ≤ x.exponent)
    (h : x.div y (x.exponent - y.exponent).toNat round = .ok t) :
    ∃ k : ℤ, t.quotient.val = k := by
  have hint : ∀ q : Digital, Above q 0 → ∃ k : ℤ, q.val = k := by
    intro q hq
    have hlow : q.low = q.low.toNat := by
      have := hq.le_low
      omega
    refine ⟨base ^ q.low.toNat * value q.digits.reverse, ?_⟩
    rw [val_low hq.unsigned, hlow, zpow_natCast]
    push_cast
    rfl
  rw [div] at h
  split at h
  · cases h
  split at h
  · rw [← Except.ok.inj h]
    exact ⟨0, by rw [val_of_isZero (by decide), Int.cast_zero]⟩
  · obtain ⟨s, hloop, h⟩ := bind_eq_ok.1 h
    have hn : x.exponent - y.exponent = (x.exponent - y.exponent).toNat := by omega
    generalize (x.exponent - y.exponent).toNat = n at hn hloop
    rw [hn] at hloop
    have hs := divLoop_above n ⟨rfl, by simp, by simp [low]⟩ hloop
    obtain ⟨k, hk⟩ := hint _ hs
    rw [← Except.ok.inj h]
    split_ifs
    · refine ⟨-k, ?_⟩
      rw [val_trim, val_negate (negates_unsigned hs.unsigned), hk, Int.cast_neg]
    · exact ⟨k, by rw [val_trim, hk]⟩

end integer

/-! ### Integers -/

lemma strip_length_le (c : UInt16) (l : List UInt16) : (strip c l).length ≤ l.length := by
  obtain ⟨k, hk⟩ := strip_spec c l
  have hlen := congrArg List.length hk
  rw [List.length_append] at hlen
  omega

lemma whole_trim {x : Digital} (h : x.negative = false) (hx : x.digits ≠ [])
    (hint : x.digits.length ≤ x.exponent + 1) : Whole x.trim := by
  refine ⟨h, trimmed_trim hx, ?_⟩
  have hfront := strip_length_le (if x.negative then 65535 else 0) x.digits
  have hback := strip_length_le 0 (strip (if x.negative then 65535 else 0) x.digits).reverse
  rw [List.length_reverse] at hback
  unfold trim
  dsimp only
  rw [List.length_reverse]
  omega

lemma whole_ofUInt64 (n : UInt64) : Whole (ofUInt64 n) :=
  whole_trim rfl (List.cons_ne_nil _ _) (by simp)

lemma toNat_ofUInt64 (n : UInt64) : (ofUInt64 n).toNat = n.toNat := by
  have hval := (whole_ofUInt64 n).denotes.val_eq
  rw [val_ofUInt64] at hval
  exact_mod_cast hval.symm

/-- Three digits by two: the guesses are 98304 for the first two digits and 1 for the last. -/
theorem divides_of_guesses_three_by_two : Divides (ofUInt64 12885229575) (ofUInt64 131073) := by
  refine divides_of_guesses (whole_ofUInt64 _) (whole_ofUInt64 _) ?_ (by decide) ?_
  · rw [val_ofUInt64]
    exact_mod_cast show 0 < (131073 : UInt64).toNat by decide
  · have htop : topDigit 131073 = 2 := topDigit_eq (k := 1) (by norm_num) (by norm_num)
    have hfirst : guess 2 12885229575 = 98304 := by
      rw [guess, topDigit_eq (k := 2) (by norm_num) (by norm_num)]
      norm_num
    have hsecond : guess 2 229383 = 98304 := by
      rw [guess, topDigit_eq (k := 1) (by norm_num) (by norm_num)]
      norm_num
    have hexponent : (ofUInt64 131073).exponent = 1 := by decide
    have hplaces : (ofUInt64 12885229575).exponent = 2 := by decide
    unfold Guesses
    rw [toNat_ofUInt64, toNat_ofUInt64, hexponent, hplaces]
    show Guessed 131073 1 (topDigit 131073) 1 12885229575 true
    rw [htop]
    refine .inr ⟨by norm_num, by norm_num, ?_, .inr rfl, ?_⟩
    · rw [hfirst]
      norm_num
    · rw [hfirst]
      show 229383 < base ^ 2 ∧ guess 2 229383 / base * 131073 ≤ 229383 ∧
        229383 < (guess 2 229383 / base + 1) * 131073
      rw [hsecond]
      norm_num

/-- The first digits of `65536` and `65537` divide once, the numbers do not. -/
theorem guess_too_large :
    (ofUInt64 65536).div (ofUInt64 65537) 0 false = .ok ⟨⟨false, 0, [1]⟩, ⟨true, 0, [65535]⟩⟩ ∧
      ¬∀ x y, Whole x → Whole y → 0 < y.val → y.exponent ≤ x.exponent → Divides x y := by
  have hdiv : (ofUInt64 65536).div (ofUInt64 65537) 0 false =
      .ok ⟨⟨false, 0, [1]⟩, ⟨true, 0, [65535]⟩⟩ := by decide
  refine ⟨hdiv, fun h => ?_⟩
  have hpos : 0 < (ofUInt64 65537).val := by
    rw [val_ofUInt64]
    exact_mod_cast show 0 < (65537 : UInt64).toNat by decide
  obtain ⟨r, hr, -, hnonneg, -⟩ :=
    h (ofUInt64 65536) (ofUInt64 65537) (whole_ofUInt64 _) (whole_ofUInt64 _) hpos (by decide)
  obtain rfl := Except.ok.inj (hdiv.symm.trans hr)
  exact (val_neg rfl).not_ge hnonneg

end CoreCommon.Digital
