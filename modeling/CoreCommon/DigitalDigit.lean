import CoreCommon.DigitalMul

/-! Adding and subtracting one digit at any exponent. Both are exact wherever the digit's place
can be reached without extending a negative number on the left, and there too unless its last
digit is zero, which `pad` takes for the sign. -/
namespace CoreCommon.Digital
open Words

/-- A call of `add` or `sub` with its digit and exponent. -/
inductive Call
  | add (d : UInt16) (e : ℤ)
  | sub (d : UInt16) (e : ℤ)
  deriving DecidableEq, Repr

def Call.run (x : Digital) : Call → Run Digital
  | .add d e => x.addDigit d e true
  | .sub d e => x.subDigit d e true

def Call.amount : Call → ℚ
  | .add d e => d.toNat * 2 ^ (16 * e)
  | .sub d e => -(d.toNat * 2 ^ (16 * e))

def Call.exponent : Call → ℤ
  | .add _ e => e
  | .sub _ e => e

/-- The calls one after the other. -/
def calls : Digital → List Call → Run Digital
  | x, [] => .ok x
  | x, c :: cs => do
    let y ← c.run x
    y.calls cs

/-- The call changes the value by its amount and leaves a digit. -/
def ExactCall (x : Digital) (c : Call) : Prop :=
  ∃ y, c.run x = .ok y ∧ y.digits ≠ [] ∧ y.val = x.val + c.amount

/-- A negative number that has to be extended up to `e` shows its sign in its last digit. -/
def Extends (x : Digital) (e : ℤ) : Prop :=
  x.negative = true → x.exponent < e → ∃ d, x.digits.getLast? = some d ∧ d ≠ 0

/-! ### The digits below and above -/

section borrow
variable {ds : List UInt16}

lemma borrowLoop_length (borrow : Bool) (ds : List UInt16) :
    (borrowLoop borrow ds).1.length = ds.length := by
  induction ds generalizing borrow with
  | nil => rfl
  | cons d ds ih => cases borrow <;> simp [borrowLoop, ih]

lemma borrowLoop_value (borrow : Bool) (ds : List UInt16) :
    value (borrowLoop borrow ds).1 + borrow.toNat =
      value ds + base ^ ds.length * (borrowLoop borrow ds).2.toNat := by
  induction ds generalizing borrow with
  | nil => simp [borrowLoop]
  | cons d ds ih =>
    cases borrow
    · simp [borrowLoop]
    · have hdigit : (d - 1).toNat + 1 = d.toNat + base * (decide (d = 0)).toNat := by
        have hd := d.toNat_lt
        have hpred := pred_digit d
        simp only [eq_zero_iff, base]
        by_cases hzero : d.toNat = 0
        · rw [decide_eq_true hzero, Bool.toNat_true]
          omega
        · rw [decide_eq_false hzero, Bool.toNat_false]
          omega
      have hrest := ih (decide (d = 0))
      simp only [borrowLoop, if_true, value_cons, List.length_cons, pow_succ, Bool.toNat_true]
      linear_combination hdigit + base * hrest

lemma sub_digit (digit d : UInt16) :
    (digit - d).toNat + d.toNat = digit.toNat + base * (decide (digit < d)).toNat := by
  have hd := d.toNat_lt
  have hdigit := digit.toNat_lt
  have hsub : (digit - d).toNat = (65536 - d.toNat + digit.toNat) % 65536 := UInt16.toNat_sub _ _
  simp only [UInt16.lt_iff_toNat_lt, base]
  by_cases hlt : digit.toNat < d.toNat
  · rw [decide_eq_true hlt, Bool.toNat_true]
    omega
  · rw [decide_eq_false hlt, Bool.toNat_false]
    omega

/-- The digit and the borrow from the higher ones, in units of the lowest place. -/
lemma value_subDigit (digit d : UInt16) (high low : List UInt16) :
    let r := borrowLoop (digit < d) high.reverse
    value (r.1.reverse ++ (digit - d) :: low).reverse + base ^ low.length * d.toNat =
      value (high ++ digit :: low).reverse + base ^ (high ++ digit :: low).length * r.2.toNat := by
  dsimp only
  have hdigit := sub_digit digit d
  have hborrow := borrowLoop_value (digit < d) high.reverse
  rw [List.length_reverse] at hborrow
  rw [value_split, value_split, List.reverse_reverse, List.length_append, List.length_cons, pow_add,
    pow_succ]
  linear_combination base ^ low.length * hdigit + base ^ low.length * base * hborrow

end borrow

/-! ### At the digit's place -/

section located
variable {x : Digital} {neg : Bool} {e : ℤ} {digit d : UInt16} {high low ds : List UInt16}

lemma digits_trim_ne_nil {y : Digital} (hy : y.digits ≠ []) : y.trim.digits ≠ [] :=
  (trimmed_trim hy).nonempty

/-- A borrow from above the digits makes a sign, or one more digit of it. -/
lemma val_borrow {m : List UInt16} {borrow : Bool} {t : ℚ} (hlen : m.length = ds.length)
    (h : (value m.reverse : ℚ) + t = value ds.reverse + (base : ℚ) ^ ds.length * borrow.toNat) :
    (if borrow then if neg then (⟨neg, e + 1, 65534 :: m⟩ : Digital) else ⟨true, e, m⟩
      else ⟨neg, e, m⟩).val = val ⟨neg, e, ds⟩ - (base : ℚ) ^ (e + 1 - ds.length) * t := by
  rw [val_eq neg e ds, ← mul_sub]
  cases borrow with
  | false =>
    rw [Bool.toNat_false, Nat.cast_zero, mul_zero, add_zero] at h
    rw [if_neg Bool.false_ne_true, val_eq, hlen, ← h]
    ring
  | true =>
    rw [Bool.toNat_true, Nat.cast_one, mul_one] at h
    cases neg with
    | false =>
      rw [if_pos rfl, if_neg Bool.false_ne_true, val_eq, hlen]
      simp only [signed, Bool.false_eq_true, if_false, if_true]
      linear_combination (base : ℚ) ^ (e + 1 - ds.length) * h
    | true =>
      have hdigit : (65534 : UInt16).toNat = 65534 := rfl
      rw [if_pos rfl, if_pos rfl, val_cons, hlen, hdigit]
      simp only [signed, if_true]
      push_cast
      linear_combination (base : ℚ) ^ (e + 1 - ds.length) * h

lemma subDigit_located (hpad : x.pad e e = .ok ⟨neg, e + high.length, high ++ digit :: low⟩) :
    ∃ y, x.subDigit d e true = .ok y ∧ y.digits ≠ [] ∧
      y.val = val ⟨neg, e + high.length, high ++ digit :: low⟩ - d.toNat * (base : ℚ) ^ e := by
  have hvalue := value_subDigit digit d high low
  dsimp only at hvalue
  set r := borrowLoop (digit < d) high.reverse with hr
  have hlen : (r.1.reverse ++ (digit - d) :: low).length = (high ++ digit :: low).length := by
    rw [List.length_append, List.length_reverse, hr, borrowLoop_length, List.length_reverse,
      List.length_append, List.length_cons, List.length_cons]
  have hrun : x.subDigit d e true = .ok (if r.2 then
      if neg then (⟨neg, e + high.length + 1, 65534 :: (r.1.reverse ++ (digit - d) :: low)⟩ : Digital)
      else ⟨true, e + high.length, r.1.reverse ++ (digit - d) :: low⟩
    else ⟨neg, e + high.length, r.1.reverse ++ (digit - d) :: low⟩).trim := by
    rw [subDigit, hpad, Run.bind_ok, place_located, Run.bind_ok]
    simp only [List.drop_left, List.take_left]
    rfl
  refine ⟨_, hrun, digits_trim_ne_nil ?_, ?_⟩
  · split_ifs <;> simp
  · rw [val_trim, val_borrow (t := (base : ℚ) ^ low.length * d.toNat) hlen (by exact_mod_cast hvalue),
      base_zpow_low e digit high low]
    ring

end located

/-! ### Calls -/

section calls
variable {x : Digital} {c : UInt16} {e : ℤ}

/-- A call adds its amount to the value after padding. -/
lemma run_padded (k : Call) (hneg : x.exponent < k.exponent → x.negative = true →
      ∃ d, x.digits.getLast? = some d ∧ c = if 0 < d then 65535 else 0)
    (hpos : x.negative = false → c = 0) :
    ∃ y, k.run x = .ok y ∧ y.digits ≠ [] ∧ y.val = x.val +
      (base : ℚ) ^ (x.exponent + 1) * (value (List.replicate (k.exponent - x.exponent).toNat c) -
        value (List.replicate (k.exponent - x.exponent).toNat (signDigit x.negative))) +
          k.amount := by
  obtain ⟨high, digit, low, hpad, hval⟩ := pad_located hneg hpos
  rw [← hval]
  cases k with
  | add d e =>
    obtain ⟨y, hy, -, hdigits, hyval⟩ := addDigit_located (d := d) hpad
    exact ⟨y.trim, hy true, digits_trim_ne_nil hdigits, by
      rw [val_trim, hyval, Call.amount, two_zpow]; rfl⟩
  | sub d e =>
    obtain ⟨y, hy, hdigits, hyval⟩ := subDigit_located (d := d) hpad
    exact ⟨y, hy, hdigits, by rw [hyval, Call.amount, two_zpow, ← sub_eq_add_neg]; rfl⟩

lemma exactCall_of_extends {k : Call} (h : x.Extends k.exponent) : x.ExactCall k := by
  obtain ⟨y, hy, hdigits, hval⟩ := run_padded (x := x) (c := signDigit x.negative) k
    (fun hlt hneg => by
      obtain ⟨d, hd, hne⟩ := h hneg hlt
      exact ⟨d, hd, by rw [if_pos (UInt16.pos_iff_ne_zero.2 hne), hneg]; rfl⟩)
    fun hneg => by rw [hneg]; rfl
  rw [sub_self, mul_zero, add_zero] at hval
  exact ⟨y, hy, hdigits, hval⟩

/-- Zeros in place of sign digits take a power of the base off, but for no digits at all, whose
last one is read. -/
lemma not_exactCall {k : Call} (h : ¬x.Extends k.exponent) : ¬x.ExactCall k := by
  unfold Extends at h
  push Not at h
  obtain ⟨hneg, hlt, hlast⟩ := h
  rintro ⟨z, hz, -, hval⟩
  cases hback : x.digits.getLast? with
  | none =>
    have hpad : x.pad k.exponent k.exponent = .error .undefined := by
      simp [pad, hlt, hneg, back, hback, bind, Except.bind]
    cases k with
    | add d e => rw [Call.run, addDigit, show x.pad e e = .error .undefined from hpad] at hz; cases hz
    | sub d e => rw [Call.run, subDigit, show x.pad e e = .error .undefined from hpad] at hz; cases hz
  | some d =>
    obtain rfl := hlast d hback
    obtain ⟨y, hy, -, hyval⟩ := run_padded (x := x) (c := 0) k (fun _ _ => ⟨0, hback, rfl⟩)
      fun _ => rfl
    obtain rfl := Except.ok.inj (hy.symm.trans hz)
    have hup : (k.exponent - x.exponent).toNat ≠ 0 := by omega
    have hmax := value_replicate_max (k.exponent - x.exponent).toNat
    have hone := Nat.one_lt_pow hup (show 1 < base by decide)
    have hsign : (0 : ℚ) < value (List.replicate (k.exponent - x.exponent).toNat (signDigit true)) := by
      exact_mod_cast show 0 < value (List.replicate (k.exponent - x.exponent).toNat 65535) by omega
    have hlower := mul_pos (base_zpow_pos (x.exponent + 1)) hsign
    rw [hval, value_replicate_zero, hneg, Nat.cast_zero, zero_sub, mul_neg] at hyval
    linarith

lemma exactCall_iff {k : Call} : x.ExactCall k ↔ x.Extends k.exponent :=
  ⟨fun h => by_contra fun hne => not_exactCall hne h, exactCall_of_extends⟩

/-- Calls that each meet the condition add up. -/
lemma calls_val (cs : List Call)
    (h : ∀ before k after y, cs = before ++ k :: after → x.calls before = .ok y →
      y.Extends k.exponent) :
    ∃ y, x.calls cs = .ok y ∧ (cs ≠ [] → y.digits ≠ []) ∧
      y.val = x.val + (cs.map Call.amount).sum := by
  induction cs generalizing x with
  | nil => exact ⟨x, rfl, fun hne => absurd rfl hne, by simp⟩
  | cons k cs ih =>
    obtain ⟨y, hy, hdigits, hval⟩ := exactCall_of_extends (h [] k cs x rfl rfl)
    have hcalls : ∀ ds, x.calls (k :: ds) = y.calls ds := fun ds => by
      rw [calls, hy, Run.bind_ok]
    obtain ⟨z, hz, hzdigits, hzval⟩ := ih (x := y) fun before k' after w hcs hw =>
      h (k :: before) k' after w (by rw [hcs]; rfl) ((hcalls before).trans hw)
    refine ⟨z, (hcalls cs).trans hz, fun _ => ?_, ?_⟩
    · by_cases hcs : cs = []
      · subst hcs
        obtain rfl := Except.ok.inj hz
        exact hdigits
      · exact hzdigits hcs
    · rw [hzval, hval, List.map_cons, List.sum_cons, add_assoc]

end calls

/-- One call is exact where the number shows its sign as far as it has to be extended, and
nowhere else; a run of such calls, on any number, is exact at every call. -/
theorem calls_exact (x : Digital) : (∀ k, x.ExactCall k ↔ x.Extends k.exponent) ∧
    ∀ cs, (∀ before k after y, cs = before ++ k :: after → x.calls before = .ok y →
        y.Extends k.exponent) →
      ∃ y, x.calls cs = .ok y ∧ (cs ≠ [] → y.digits ≠ []) ∧
        y.val = x.val + (cs.map Call.amount).sum :=
  ⟨fun _ => exactCall_iff, calls_val⟩

/-- Zero minus `65536` is trimmed to a zero digit under a sign. To add `65536` it is extended with
a zero, which makes it `-65536 * 65536`. -/
theorem sign_not_extended : subDigit ⟨false, 0, [0]⟩ 1 1 true = .ok ⟨true, 0, [0]⟩ ∧
    addDigit ⟨true, 0, [0]⟩ 1 1 true = .ok ⟨true, 1, [1]⟩ ∧ ¬∀ x k, ExactCall x k := by
  refine ⟨by decide, by decide, fun h => ?_⟩
  exact not_exactCall (x := ⟨true, 0, [0]⟩) (k := .add 1 1) (by unfold Extends; decide) (h _ _)

end CoreCommon.Digital
