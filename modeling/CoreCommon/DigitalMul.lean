import CoreCommon.DigitalExact
import CoreCommon.SmallVector

/-! Adding or subtracting one digit, shifting and multiplying `Digital`s. The product of two
nonnegative ones is exact: each product of two digits goes into the sum in two halves. -/
namespace CoreCommon.Digital
open Words

/-! ### One digit -/

/-- The index of the digit at `digits.rend()-1 - exponent + e`: the iterators are those of the
vector of the digits, and a reverse one points to the digit before its base. -/
def place (x : Digital) (e : ℤ) : Run ℕ :=
  let rend := SmallVector.Ptr.arr 0
  let base := ((rend.plus 1 1).plus 1 x.exponent).minus 1 e
  let i := match base.prev 1 with
    | .arr i => i
    | .data i => i + 1
  if 0 ≤ i then .ok i.toNat else .error .undefined

/-- `add(uint16_t x, int e, bool do_trim)` -/
def addDigit (x : Digital) (d : UInt16) (e : ℤ) (doTrim : Bool) : Run Digital := do
  let x ← x.pad e e
  let i ← x.place e
  match x.digits.drop i with
  | [] => .error .undefined
  | digit :: low =>
    let r := increment (digit + d < d) true (x.digits.take i).reverse
    let x := { x with digits := r.1.reverse ++ (digit + d) :: low }
    let x := if r.2.1 then
        if x.negative then { x with negative := false }
        else { x with exponent := x.exponent + 1, digits := 1 :: x.digits }
      else x
    .ok (if doTrim then x.trim else x)

/-- The loop that borrows from the digits above. -/
def borrowLoop : Bool → List UInt16 → List UInt16 × Bool
  | borrow, d :: ds =>
    if borrow then
      let r := borrowLoop (d = 0) ds
      ((d - 1) :: r.1, r.2)
    else (d :: ds, borrow)
  | borrow, [] => ([], borrow)

/-- `sub(uint16_t x, int e, bool do_trim)` -/
def subDigit (x : Digital) (d : UInt16) (e : ℤ) (doTrim : Bool) : Run Digital := do
  let x ← x.pad e e
  let i ← x.place e
  match x.digits.drop i with
  | [] => .error .undefined
  | digit :: low =>
    let r := borrowLoop (digit < d) (x.digits.take i).reverse
    let x := { x with digits := r.1.reverse ++ (digit - d) :: low }
    let x := if r.2 then
        if x.negative then { x with exponent := x.exponent + 1, digits := 65534 :: x.digits }
        else { x with negative := true }
      else x
    .ok (if doTrim then x.trim else x)

/-! ### Shifts -/

/-- The loop from the lowest digit up, and what is shifted out. -/
def shiftLoop (k : UInt16) : UInt16 → List UInt16 → List UInt16 × UInt16
  | rest, d :: ds =>
    let r := shiftLoop k (d >>> (16 - k)) ds
    (((d <<< k) + rest) :: r.1, r.2)
  | rest, [] => ([], rest)

/-- `operator<<=` once the exponent is moved, for `k` from 1 to 15. -/
def shiftDigits (x : Digital) (k : ℕ) : Digital :=
  let r := shiftLoop k.toUInt16 0 x.digits.reverse
  let x := { x with digits := r.1.reverse }
  (if r.2 ≠ 0 then { x with exponent := x.exponent + 1, digits := r.2 :: x.digits } else x).trim

/-- `operator<<`, on a copy. -/
def shl (x : Digital) (k : ℤ) : Digital :=
  if k.tmod 16 = 0 then { x with exponent := x.exponent + k.tdiv 16 }
  else if k < 0 then
    shiftDigits { x with exponent := x.exponent - (k.tdiv 16 + 1) } (16 + k.tmod 16).toNat
  else shiftDigits { x with exponent := x.exponent + k.tdiv 16 } (k.tmod 16).toNat

/-! ### Products -/

/-- The inner loop, for the digit `d` at exponent `e1`. -/
def mulRow (d : UInt16) (e1 : ℤ) : Digital → ℤ → List UInt16 → Run Digital
  | res, _, [] => .ok res
  | res, f, d' :: ds => do
    let e2 := e1 + f
    let mul := d.toUInt32 * d'.toUInt32
    let res ← res.addDigit (mul >>> 16).toUInt16 (e2 + 1) false
    let res ← res.addDigit (mul &&& 65535).toUInt16 e2 false
    mulRow d e1 res (f - 1) ds

/-- The outer loop. -/
def mulRows (other : Digital) : Digital → ℤ → List UInt16 → Run Digital
  | res, _, [] => .ok res
  | res, e1, d :: ds => do
    let res ← mulRow d e1 res other.exponent other.digits
    mulRows other res (e1 - 1) ds

/-- `operator*` -/
def mul (x other : Digital) : Run Digital := do
  let res ← mulRows other ⟨false, x.exponent + other.exponent, []⟩ x.exponent x.digits
  let res := res.trim
  if x.negative && other.negative then do
    let res ← res.sub (other.shl (16 * (x.exponent + 1)))
    let res ← res.sub (x.shl (16 * (other.exponent + 1)))
    res.subDigit 1 (other.exponent + x.exponent + 2) true
  else if x.negative then res.sub (other.shl (16 * (x.exponent + 1)))
  else if other.negative then res.sub (x.shl (16 * (other.exponent + 1)))
  else .ok res

/-! ### Adding a digit -/

section digit
variable {x : Digital} {neg : Bool} {e f : ℤ} {c digit d : UInt16} {high low ds : List UInt16}

lemma place_eq (h : e ≤ x.exponent) : x.place e = .ok (x.exponent - e).toNat := by
  have hbase : (((SmallVector.Ptr.arr 0).plus 1 1).plus 1 x.exponent).minus 1 e =
      .data (x.exponent - e) := by
    have hone : (SmallVector.Ptr.arr 0).plus 1 1 = .data 0 := rfl
    have hplus : (SmallVector.Ptr.data 0).plus 1 x.exponent = .data x.exponent := by
      simp [SmallVector.Ptr.plus, SmallVector.Ptr.inSmallBuf, SmallVector.Ptr.add]
    rw [hone, hplus]
    simp [SmallVector.Ptr.minus, SmallVector.Ptr.inSmallBuf, SmallVector.Ptr.dataOff,
      SmallVector.Ptr.add, not_lt.2 h]
    ring
  unfold place
  dsimp only
  rw [hbase]
  by_cases hzero : x.exponent - e = 0
  · simp [SmallVector.Ptr.prev, hzero]
  · have hpos : 0 ≤ x.exponent - e := by omega
    simp [SmallVector.Ptr.prev, SmallVector.Ptr.add, hzero, h]

lemma val_unsigned (e : ℤ) (ds : List UInt16) :
    val ⟨false, e, ds⟩ = (base : ℚ) ^ (e + 1 - ds.length) * value ds.reverse := by
  rw [val_eq, signed, if_neg Bool.false_ne_true, sub_zero]

lemma val_unsigned_nil (e : ℤ) : val ⟨false, e, []⟩ = 0 := by
  rw [val_unsigned, List.reverse_nil, value_nil, Nat.cast_zero, mul_zero]

lemma val_unsigned_cons (e : ℤ) (d : UInt16) (ds : List UInt16) :
    val ⟨false, e, d :: ds⟩ = d.toNat * (base : ℚ) ^ e + val ⟨false, e - 1, ds⟩ := by
  have hplace : e + 1 - ((d :: ds).length : ℤ) = e - 1 + 1 - ds.length := by
    rw [List.length_cons]
    push_cast
    ring
  have htop : (base : ℚ) ^ e = (base : ℚ) ^ (e - 1 + 1 - ds.length) * (base : ℚ) ^ ds.length := by
    rw [← base_zpow_add]
    congr 1
    ring
  rw [val_unsigned, val_unsigned, hplace, htop, List.reverse_cons, value_append, List.length_reverse,
    value_cons, value_nil]
  push_cast
  ring

lemma value_split (a : UInt16) (high low : List UInt16) : value (high ++ a :: low).reverse =
    value low.reverse + base ^ low.length * (a.toNat + base * value high.reverse) := by
  rw [List.reverse_append, List.reverse_cons, List.append_assoc, value_append, List.length_reverse,
    List.singleton_append, value_cons]

/-- The digit and the carry over the higher ones, in units of the lowest place. -/
lemma value_addDigit (digit d : UInt16) (high low : List UInt16) :
    let r := increment (digit + d < d) true high.reverse
    value (r.1.reverse ++ (digit + d) :: low).reverse +
        base ^ (high ++ digit :: low).length * r.2.1.toNat =
      value (high ++ digit :: low).reverse + base ^ low.length * d.toNat := by
  dsimp only
  have hdigit : (digit + d).toNat + base * (decide (digit + d < d)).toNat = digit.toNat + d.toNat := by
    have hadd := add_digit digit d false
    have hzero : d + Bool.toUInt16 false = d := UInt16.add_zero d
    rw [hzero] at hadd
    exact hadd
  have hcarry := increment_value (digit + d < d) true high.reverse
  rw [List.length_reverse] at hcarry
  rw [value_split, value_split, List.reverse_reverse, List.length_append, List.length_cons, pow_add,
    pow_succ]
  linear_combination base ^ low.length * hdigit + base ^ low.length * base * hcarry

lemma base_zpow_low (e : ℤ) (digit : UInt16) (high low : List UInt16) : (base : ℚ) ^ e =
    (base : ℚ) ^ (e + high.length + 1 - ((high ++ digit :: low).length : ℤ)) *
      (base : ℚ) ^ low.length := by
  rw [← base_zpow_add, List.length_append, List.length_cons]
  congr 1
  push_cast
  ring

/-- A carry out of the digits makes a sign go, or one more digit. -/
lemma val_carry {m : List UInt16} {carry : Bool} {t : ℚ} (hlen : m.length = ds.length)
    (h : (value m.reverse : ℚ) + (base : ℚ) ^ ds.length * carry.toNat = value ds.reverse + t) :
    (if carry then if neg then (⟨false, e, m⟩ : Digital) else ⟨neg, e + 1, 1 :: m⟩
      else ⟨neg, e, m⟩).val = val ⟨neg, e, ds⟩ + (base : ℚ) ^ (e + 1 - ds.length) * t := by
  rw [val_eq neg e ds, ← mul_add]
  cases carry with
  | false =>
    rw [Bool.toNat_false, Nat.cast_zero, mul_zero, add_zero] at h
    rw [if_neg Bool.false_ne_true, val_eq, hlen, h]
    ring
  | true =>
    rw [Bool.toNat_true, Nat.cast_one, mul_one] at h
    cases neg with
    | false =>
      have hone : (1 : UInt16).toNat = 1 := rfl
      rw [if_pos rfl, if_neg Bool.false_ne_true, val_cons, hlen, hone]
      simp only [signed, Bool.false_eq_true, if_false]
      push_cast
      linear_combination (base : ℚ) ^ (e + 1 - ds.length) * h
    | true =>
      rw [if_pos rfl, if_pos rfl, val_eq, hlen]
      simp only [signed, Bool.false_eq_true, if_false, if_true]
      linear_combination (base : ℚ) ^ (e + 1 - ds.length) * h

/-- A place above the lowest digit is found in the digits. -/
lemma place_located : (⟨neg, e + high.length, high ++ digit :: low⟩ : Digital).place e =
    .ok high.length := by
  rw [place_eq (by simp)]
  congr 1
  show (e + high.length - e).toNat = high.length
  omega

/-- A digit added at its place. -/
lemma addDigit_located (hpad : x.pad e e = .ok ⟨neg, e + high.length, high ++ digit :: low⟩) :
    ∃ y, (∀ t, x.addDigit d e t = .ok (if t then y.trim else y)) ∧
      (neg = false → y.negative = false) ∧ y.digits ≠ [] ∧
        y.val = val ⟨neg, e + high.length, high ++ digit :: low⟩ + d.toNat * (base : ℚ) ^ e := by
  have hvalue := value_addDigit digit d high low
  dsimp only at hvalue
  set r := increment (digit + d < d) true high.reverse with hr
  have hlen : (r.1.reverse ++ (digit + d) :: low).length = (high ++ digit :: low).length := by
    rw [List.length_append, List.length_reverse, hr, increment_length, List.length_reverse,
      List.length_append, List.length_cons, List.length_cons]
  have hrun : ∀ t, x.addDigit d e t = .ok
      (let y : Digital := if r.2.1 then
          if neg then ⟨false, e + high.length, r.1.reverse ++ (digit + d) :: low⟩
          else ⟨neg, e + high.length + 1, 1 :: (r.1.reverse ++ (digit + d) :: low)⟩
        else ⟨neg, e + high.length, r.1.reverse ++ (digit + d) :: low⟩
      if t then y.trim else y) := by
    intro t
    rw [addDigit, hpad, Run.bind_ok, place_located, Run.bind_ok]
    simp only [List.drop_left, List.take_left]
    rfl
  refine ⟨_, hrun, fun hneg => ?_, ?_, ?_⟩
  · split_ifs <;> first | rfl | exact hneg
  · split_ifs <;> simp
  · rw [val_carry (t := (base : ℚ) ^ low.length * d.toNat) hlen (by exact_mod_cast hvalue),
      base_zpow_low e digit high low]
    ring

/-- After padding, the place of `e` is among the digits. -/
lemma pad_located (hneg : x.exponent < e → x.negative = true →
      ∃ d, x.digits.getLast? = some d ∧ c = if 0 < d then 65535 else 0)
    (hpos : x.negative = false → c = 0) :
    ∃ high digit low, x.pad e e = .ok ⟨x.negative, e + (high : List UInt16).length,
        high ++ digit :: low⟩ ∧
      val ⟨x.negative, e + high.length, high ++ digit :: low⟩ = x.val +
        (base : ℚ) ^ (x.exponent + 1) * (value (List.replicate (e - x.exponent).toNat c) -
          value (List.replicate (e - x.exponent).toNat (signDigit x.negative))) := by
  have hpad := x.pad_filled (n := 1) hneg hpos
  have hval := x.val_filled (c := c) (e := e) (n := 1)
  have hlen := x.filled_length (c := c) (e := e) (n := 1)
  rw [Nat.cast_one, sub_add_cancel] at hpad
  generalize x.filled c e 1 = ds at hpad hval hlen
  have hlt : (x.exponent - e).toNat < ds.length := by omega
  have hdrop := List.drop_eq_getElem_cons hlt
  have hds : ds.take (x.exponent - e).toNat ++ ds[(x.exponent - e).toNat] ::
      ds.drop ((x.exponent - e).toNat + 1) = ds := by
    rw [← hdrop, List.take_append_drop]
  have htop : max x.exponent e = e + (ds.take (x.exponent - e).toNat).length := by
    rw [List.length_take_of_le hlt.le]
    omega
  refine ⟨ds.take (x.exponent - e).toNat, ds[(x.exponent - e).toNat],
    ds.drop ((x.exponent - e).toNat + 1), ?_, ?_⟩
  · rw [hds, ← htop]
    exact hpad
  · rw [hds, ← htop]
    exact hval

/-- `add` to a nonnegative number is exact and finds its digit. -/
lemma addDigit_exact (hneg : x.negative = false) (d : UInt16) (e : ℤ) :
    ∃ y, (∀ t, x.addDigit d e t = .ok (if t then y.trim else y)) ∧ y.negative = false ∧
      y.digits ≠ [] ∧ y.val = x.val + d.toNat * (base : ℚ) ^ e := by
  obtain ⟨high, digit, low, hpad, hval⟩ := pad_located (x := x) (c := 0) (e := e)
    (fun _ h => absurd (hneg.symm.trans h) Bool.false_ne_true) fun _ => rfl
  obtain ⟨y, hy, hyneg, hdigits, hyval⟩ := addDigit_located (d := d) hpad
  rw [hneg, signDigit, if_neg Bool.false_ne_true, sub_self, mul_zero, add_zero] at hval
  refine ⟨y, hy, hyneg hneg, hdigits, ?_⟩
  rw [hyval, hneg, hval]

/-! ### The loops of the product -/

/-- The two halves of a product of two digits. -/
lemma halves (d d' : UInt16) : (((d.toUInt32 * d'.toUInt32) >>> 16).toUInt16.toNat : ℕ) * base +
    ((d.toUInt32 * d'.toUInt32) &&& 65535).toUInt16.toNat = d.toNat * d'.toNat := by
  have hd := d.toNat_lt
  have hd' := d'.toNat_lt
  have hmul : (d.toUInt32 * d'.toUInt32).toNat = d.toNat * d'.toNat := by
    rw [UInt32.toNat_mul, UInt16.toNat_toUInt32, UInt16.toNat_toUInt32]
    exact Nat.mod_eq_of_lt (by nlinarith)
  have hhigh : ((d.toUInt32 * d'.toUInt32) >>> 16).toNat = d.toNat * d'.toNat / 65536 := by
    rw [UInt32.toNat_shiftRight, hmul, Nat.shiftRight_eq_div_pow]
    rfl
  have hlow : (d.toUInt32 * d'.toUInt32 &&& 65535).toNat = d.toNat * d'.toNat % 65536 := by
    rw [UInt32.toNat_and, hmul]
    exact Nat.and_two_pow_sub_one_eq_mod _ 16
  have hbound : d.toNat * d'.toNat / 65536 < 65536 := Nat.div_lt_of_lt_mul (by nlinarith)
  rw [UInt32.toNat_toUInt16, UInt32.toNat_toUInt16, hhigh, hlow]
  simp only [base]
  omega

lemma mulRow_exact (d : UInt16) (e1 f : ℤ) (ds : List UInt16) (hneg : x.negative = false) :
    ∃ y, mulRow d e1 x f ds = .ok y ∧ y.negative = false ∧ (x.digits ≠ [] ∨ ds ≠ [] → y.digits ≠ []) ∧
      y.val = x.val + d.toNat * (base : ℚ) ^ e1 * val ⟨false, f, ds⟩ := by
  induction ds generalizing x f with
  | nil =>
    refine ⟨x, rfl, hneg, ?_, ?_⟩
    · rintro (h | h)
      · exact h
      · exact absurd rfl h
    · rw [val_unsigned_nil, mul_zero, add_zero]
  | cons d' ds ih =>
    obtain ⟨y, hy, hyneg, -, hyval⟩ :=
      addDigit_exact hneg ((d.toUInt32 * d'.toUInt32) >>> 16).toUInt16 (e1 + f + 1)
    obtain ⟨z, hz, hzneg, hzdigits, hzval⟩ :=
      addDigit_exact hyneg ((d.toUInt32 * d'.toUInt32) &&& 65535).toUInt16 (e1 + f)
    obtain ⟨w, hw, hwneg, hwdigits, hwval⟩ := ih (f - 1) hzneg
    refine ⟨w, ?_, hwneg, fun _ => hwdigits (.inl hzdigits), ?_⟩
    · rw [mulRow, hy, Run.bind_ok, if_neg Bool.false_ne_true, hz, Run.bind_ok,
        if_neg Bool.false_ne_true, hw]
    · have hhalves : ((((d.toUInt32 * d'.toUInt32) >>> 16).toUInt16.toNat : ℕ) : ℚ) * base +
          ((d.toUInt32 * d'.toUInt32) &&& 65535).toUInt16.toNat = d.toNat * d'.toNat := by
        exact_mod_cast halves d d'
      have hunit : (base : ℚ) ^ (e1 + f + 1) = (base : ℚ) ^ (e1 + f) * base := by
        rw [zpow_add₀ (by norm_num), zpow_one]
      have hpair : (base : ℚ) ^ (e1 + f) = (base : ℚ) ^ e1 * (base : ℚ) ^ f :=
        zpow_add₀ (by norm_num) _ _
      rw [hwval, hzval, hyval, hunit, val_unsigned_cons, hpair]
      linear_combination (base : ℚ) ^ e1 * (base : ℚ) ^ f * hhalves

lemma mulRows_exact {y : Digital} (hy : y.negative = false) (hyd : y.digits ≠ []) (e : ℤ)
    (ds : List UInt16) (hneg : x.negative = false) :
    ∃ z, mulRows y x e ds = .ok z ∧ z.negative = false ∧ (x.digits ≠ [] ∨ ds ≠ [] → z.digits ≠ []) ∧
      z.val = x.val + val ⟨false, e, ds⟩ * y.val := by
  induction ds generalizing x e with
  | nil =>
    refine ⟨x, rfl, hneg, ?_, ?_⟩
    · rintro (h | h)
      · exact h
      · exact absurd rfl h
    · rw [val_unsigned_nil, zero_mul, add_zero]
  | cons d ds ih =>
    obtain ⟨z, hz, hzneg, hzdigits, hzval⟩ :=
      mulRow_exact d e y.exponent y.digits hneg
    obtain ⟨w, hw, hwneg, hwdigits, hwval⟩ := ih (e - 1) hzneg
    refine ⟨w, ?_, hwneg, fun _ => hwdigits (.inl (hzdigits (.inr hyd))), ?_⟩
    · rw [mulRows, hz, Run.bind_ok, hw]
    · have hval : val ⟨false, y.exponent, y.digits⟩ = y.val := by rw [← hy]
      rw [hwval, hzval, hval, val_unsigned_cons]
      ring

end digit

/-! ### Trimmed numbers -/

/-- No digit that `trim` drops is left. -/
structure Trimmed (x : Digital) : Prop where
  nonempty : x.digits ≠ []
  front : ∀ d d' l, x.digits = d :: d' :: l → d ≠ signDigit x.negative
  back : ∀ d d' l, x.digits.reverse = d :: d' :: l → d ≠ 0

lemma strip_ne_nil {c : UInt16} {l : List UInt16} (hl : l ≠ []) : strip c l ≠ [] := by
  induction l using strip.induct c with
  | case1 d' l ih =>
    rw [strip, if_pos rfl]
    exact ih (List.cons_ne_nil _ _)
  | case2 d d' l hne =>
    rw [strip, if_neg hne]
    exact List.cons_ne_nil _ _
  | case3 l hlist => rwa [strip.eq_2 c l hlist]

lemma strip_head {c : UInt16} {l : List UInt16} {d d' : UInt16} {m : List UInt16}
    (hl : strip c l = d :: d' :: m) : d ≠ c := by
  induction l using strip.induct c with
  | case1 a l ih =>
    rw [strip, if_pos rfl] at hl
    exact ih hl
  | case2 a a' l hne =>
    rw [strip, if_neg hne] at hl
    rwa [← (List.cons.inj hl).1]
  | case3 l hlist =>
    rw [strip.eq_2 c l hlist] at hl
    exact absurd hl (hlist d d' m)

lemma trimmed_trim {x : Digital} (hx : x.digits ≠ []) : x.trim.Trimmed := by
  set front := strip (signDigit x.negative) x.digits with hfront
  have hdigits : x.trim.digits = (strip 0 front.reverse).reverse := rfl
  have hne : front ≠ [] := strip_ne_nil hx
  refine ⟨?_, fun d d' l hl => ?_, fun d d' l hl => ?_⟩
  · rw [hdigits]
    exact fun h => strip_ne_nil (mt List.reverse_eq_nil_iff.1 hne) (List.reverse_eq_nil_iff.1 h)
  · -- the zeros dropped on the right are not among the first two digits
    obtain ⟨k, hk⟩ := strip_spec 0 front.reverse
    rw [hdigits] at hl
    have hall : front = d :: d' :: (l ++ List.replicate k 0) := by
      rw [← List.reverse_reverse front, hk, List.reverse_append, hl, List.reverse_replicate]
      rfl
    exact strip_head (hfront.symm.trans hall)
  · rw [hdigits, List.reverse_reverse] at hl
    exact strip_head hl

/-- The product of nonnegative numbers with a digit each is exact, nonnegative and trimmed; each
addition on the way finds its digit. -/
theorem mul_exact {x y : Digital} (hx : x.negative = false) (hy : y.negative = false)
    (hxd : x.digits ≠ []) (hyd : y.digits ≠ []) :
    ∃ z, x.mul y = .ok z ∧ z.val = x.val * y.val ∧ z.negative = false ∧ z.Trimmed := by
  obtain ⟨z, hz, hneg, hdigits, hval⟩ := mulRows_exact (x := ⟨false, x.exponent + y.exponent, []⟩)
    hy hyd x.exponent x.digits rfl
  refine ⟨z.trim, ?_, ?_, hneg, trimmed_trim (hdigits (.inr hxd))⟩
  · rw [mul, hz, Run.bind_ok, hx, hy]
    rfl
  · have hself : val ⟨false, x.exponent, x.digits⟩ = x.val := by rw [← hx]
    rw [val_trim, hval, val_unsigned_nil, zero_add, hself]

/-- A carry that makes a new digit, and a zero that is trimmed. -/
theorem mul_exact_example : ∃ z, mul ⟨false, 0, [65535, 65535]⟩ ⟨false, -1, [65535, 0]⟩ = .ok z ∧
    z.val = val ⟨false, 0, [65535, 65535]⟩ * val ⟨false, -1, [65535, 0]⟩ ∧ z.negative = false ∧
      z.Trimmed :=
  mul_exact rfl rfl (by decide) (by decide)

end CoreCommon.Digital
