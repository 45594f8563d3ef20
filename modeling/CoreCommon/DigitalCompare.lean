import CoreCommon.DigitalExact

/-! Comparison of `Digital`s against the order of the numbers. Numbers of one sign are told
apart by the highest place in which they differ, the code by the exponent if the left one is
higher, then by the number of digits. -/
namespace CoreCommon.Digital
open Words

/-! ### The order of the numbers -/

section order
variable {x y : Digital}

/-- The digits of two numbers at the highest place in which they differ. -/
def topDiff (x y : Digital) : Option (UInt16 × UInt16) :=
  firstDiff (x.aligned y.exponent y.digits.length) (y.aligned x.exponent x.digits.length)

lemma aligned_length (x y : Digital) : (x.aligned y.exponent y.digits.length).length =
    (y.aligned x.exponent x.digits.length).length := by
  simp only [aligned, filled, List.length_append, List.length_replicate]
  omega

lemma val_lt_iff_aligned (hsign : x.negative = y.negative) : x.val < y.val ↔
    value (x.aligned y.exponent y.digits.length).reverse <
      value (y.aligned x.exponent x.digits.length).reverse := by
  have hx := val_aligned (x := x) (e := y.exponent) (n := y.digits.length)
  have hy := val_aligned (x := y) (e := x.exponent) (n := x.digits.length)
  rw [val_eq] at hx hy
  rw [← hx, ← hy, hsign, aligned_length x y, max_comm y.exponent,
    mul_lt_mul_iff_right₀ (base_zpow_pos _), sub_lt_sub_iff_right, Nat.cast_lt]

lemma val_nonneg (h : x.negative = false) : 0 ≤ x.val := by
  rw [val_fields, h]
  simp only [signed, Bool.false_eq_true, if_false, sub_zero]
  exact mul_nonneg (base_zpow_pos _).le (Nat.cast_nonneg _)

/-- How a comparison comes out whose left side counts as the one further from zero. -/
def further (negative : Bool) : Ordering := if negative then .lt else .gt

/-- How it comes out when the digits at the first difference decide. -/
def order (negative : Bool) : Option (UInt16 × UInt16) → Ordering
  | none => .eq
  | some (a, b) => if b < a then further negative else (further negative).swap

lemma compare_val (hsign : x.negative = y.negative) :
    compare x.val y.val = order false (topDiff x y) := by
  have hlt := val_lt_iff_aligned hsign
  have hgt := val_lt_iff_aligned hsign.symm
  have hlen := aligned_length x y
  cases hdiff : topDiff x y with
  | none =>
    have heq : x.aligned y.exponent y.digits.length = y.aligned x.exponent x.digits.length :=
      (firstDiff_eq_none hlen).1 hdiff
    rw [heq] at hlt hgt
    exact compare_eq_iff_eq.2 (le_antisymm (not_lt.1 fun h => lt_irrefl _ (hgt.1 h))
      (not_lt.1 fun h => lt_irrefl _ (hlt.1 h)))
  | some ab =>
    obtain ⟨a, b⟩ := ab
    have hless := value_lt_iff hlen hdiff
    have hswap : firstDiff (y.aligned x.exponent x.digits.length)
        (x.aligned y.exponent y.digits.length) = some (b, a) := by
      rw [firstDiff_swap]
      exact congrArg (Option.map Prod.swap) hdiff
    have hmore := value_lt_iff hlen.symm hswap
    have hne := firstDiff_ne hdiff
    by_cases hba : b < a
    · rw [order, if_pos hba]
      exact compare_gt_iff_gt.2 (hgt.2 (hmore.2 hba))
    · have hab : a < b := by
        rw [UInt16.lt_iff_toNat_lt] at hba ⊢
        have hne' : a.toNat ≠ b.toNat := fun h => hne (UInt16.toNat_inj.1 h)
        omega
      rw [order, if_neg hba]
      exact compare_lt_iff_lt.2 (hlt.2 (hless.2 hab))

end order

/-! ### The answers of the code -/

/-- The three answers of a comparison that comes out as `o`. -/
def answer : Ordering → CmpType → Bool
  | .gt, t => t ≠ .eq
  | .eq, t => t ≠ .greater
  | .lt, _ => false

/-- What the code goes by. -/
def side (x y : Digital) : Ordering :=
  if x.negative ≠ y.negative then further x.negative
  else if y.exponent < x.exponent then further x.negative
  else if y.digits.length < x.digits.length then further x.negative
  else if x.digits.length < y.digits.length then (further x.negative).swap
  else order x.negative (firstDiff x.digits y.digits)

lemma answer_further (negative : Bool) (t : CmpType) :
    answer (further negative) t = (decide (t ≠ .eq) && !negative) := by
  cases negative <;> cases t <;> rfl

lemma answer_swap_further (negative : Bool) (t : CmpType) :
    answer (further negative).swap t = (decide (t ≠ .eq) && negative) := by
  cases negative <;> cases t <;> rfl

lemma cmpDigits_eq {negative : Bool} {t : CmpType} {l m : List UInt16} (hlen : l.length = m.length) :
    cmpDigits negative t l m = answer (order negative (firstDiff l m)) t := by
  induction l generalizing m with
  | nil =>
    rw [List.length_eq_zero_iff.1 hlen.symm]
    cases t <;> rfl
  | cons a l ih =>
    cases m with
    | nil => cases hlen
    | cons b m =>
      unfold cmpDigits firstDiff
      by_cases hab : a = b
      · rw [if_neg (hab ▸ UInt16.lt_irrefl a), if_neg (hab ▸ UInt16.lt_irrefl a), if_pos hab]
        exact ih (Nat.succ.inj hlen)
      · rw [if_neg hab, order]
        by_cases hba : b < a
        · rw [if_pos hba, if_pos hba, answer_further]
        · have hlt : a < b := by
            rw [UInt16.lt_iff_toNat_lt] at hba ⊢
            have hne : a.toNat ≠ b.toNat := fun h => hab (UInt16.toNat_inj.1 h)
            omega
          rw [if_neg hba, if_pos hlt, if_neg hba, answer_swap_further]

/-- The second test of the exponents is never reached with a yes. -/
lemma cmp_eq (x y : Digital) (t : CmpType) : x.cmp y t = answer (side x y) t := by
  unfold cmp side
  by_cases hsign : x.negative = y.negative
  · rw [if_neg (not_not.2 hsign), if_neg (not_not.2 hsign)]
    by_cases hexponent : y.exponent < x.exponent
    · rw [if_pos hexponent, if_pos hexponent, answer_further]
    · rw [if_neg hexponent, if_neg hexponent, if_neg hexponent]
      by_cases hmore : y.digits.length < x.digits.length
      · rw [if_pos hmore, if_pos hmore, answer_further]
      · rw [if_neg hmore, if_neg hmore]
        by_cases hfewer : x.digits.length < y.digits.length
        · rw [if_pos hfewer, if_pos hfewer, answer_swap_further]
        · rw [if_neg hfewer, if_neg hfewer]
          exact cmpDigits_eq (by omega)
  · have hother : y.negative = !x.negative := by
      cases hx : x.negative <;> cases hy : y.negative <;> simp [hx, hy] at hsign ⊢
    rw [if_pos hsign, if_pos hsign, answer_further, hother]

/-! ### Agreement -/

/-- The operators of comparison are those of the numbers. -/
structure Ordered (x y : Digital) : Prop where
  gt : x.gt y = true ↔ x.val > y.val
  ge : x.ge y = true ↔ x.val ≥ y.val
  lt : x.lt y = true ↔ x.val < y.val
  le : x.le y = true ↔ x.val ≤ y.val
  eq : x.eq y = true ↔ x.val = y.val
  ne : x.ne y = true ↔ x.val ≠ y.val

lemma ordered_iff (x y : Digital) : Ordered x y ↔ side x y = compare x.val y.val := by
  constructor
  · intro h
    cases hside : side x y with
    | lt =>
      have hlt : x.lt y = true := by rw [lt, cmp_eq, hside]; rfl
      exact (compare_lt_iff_lt.2 (h.lt.1 hlt)).symm
    | eq =>
      have heq : x.eq y = true := by rw [eq, cmp_eq, hside]; rfl
      exact (compare_eq_iff_eq.2 (h.eq.1 heq)).symm
    | gt =>
      have hgt : x.gt y = true := by rw [gt, cmp_eq, hside]; rfl
      exact (compare_gt_iff_gt.2 (h.gt.1 hgt)).symm
  · intro h
    have hcmp : ∀ t, x.cmp y t = answer (compare x.val y.val) t := fun t => by rw [cmp_eq, h]
    rcases lt_trichotomy x.val y.val with hlt | heq | hgt
    · rw [compare_lt_iff_lt.2 hlt] at hcmp
      constructor <;> simp [gt, ge, lt, le, eq, ne, hcmp, answer, hlt, hlt.le, hlt.ne, hlt.not_gt]
    · rw [compare_eq_iff_eq.2 heq] at hcmp
      constructor <;> simp [gt, ge, lt, le, eq, ne, hcmp, answer, heq]
    · rw [compare_gt_iff_gt.2 hgt] at hcmp
      constructor <;> simp [gt, ge, lt, le, eq, ne, hcmp, answer, hgt, hgt.le, hgt.ne', hgt.not_gt]

/-- For numbers of one sign: what the code goes by says the same as the highest place in which
they differ. -/
structure Agrees (x y : Digital) : Prop where
  same : topDiff x y = none → x.exponent ≤ y.exponent ∧ x.digits = y.digits
  exponent : ∀ a b, topDiff x y = some (a, b) → y.exponent < x.exponent →
    (b < a ↔ x.negative = false)
  more : ∀ a b, topDiff x y = some (a, b) → x.exponent ≤ y.exponent →
    y.digits.length < x.digits.length → (b < a ↔ x.negative = false)
  fewer : ∀ a b, topDiff x y = some (a, b) → x.exponent ≤ y.exponent →
    x.digits.length < y.digits.length → (b < a ↔ x.negative = true)
  digits : ∀ a b, topDiff x y = some (a, b) → x.exponent ≤ y.exponent →
    x.digits.length = y.digits.length →
      ∃ c d, firstDiff x.digits y.digits = some (c, d) ∧ (b < a ↔ (d < c ↔ x.negative = false))

lemma further_eq_order_iff {negative : Bool} {a b : UInt16} :
    further negative = order false (some (a, b)) ↔ (b < a ↔ negative = false) := by
  by_cases hba : b < a <;> cases negative <;> simp [further, order, hba]

lemma swap_further_eq_order_iff {negative : Bool} {a b : UInt16} :
    (further negative).swap = order false (some (a, b)) ↔ (b < a ↔ negative = true) := by
  by_cases hba : b < a <;> cases negative <;> simp [further, order, hba]

lemma order_eq_order_iff {negative : Bool} {a b c d : UInt16} :
    order negative (some (c, d)) = order false (some (a, b)) ↔
      (b < a ↔ (d < c ↔ negative = false)) := by
  by_cases hdc : d < c
  · rw [iff_true_left hdc, ← further_eq_order_iff, order, if_pos hdc]
  · rw [iff_false_left hdc, Bool.not_eq_false, ← swap_further_eq_order_iff, order, if_neg hdc]

lemma order_eq_eq_iff {negative : Bool} {o : Option (UInt16 × UInt16)} :
    order negative o = .eq ↔ o = none := by
  cases o with
  | none => simp [order]
  | some cd => cases negative <;> simp [order, further]

lemma further_ne_eq (negative : Bool) : further negative ≠ .eq ∧ (further negative).swap ≠ .eq := by
  cases negative <;> simp [further]

section side
variable {x y : Digital} (hsign : x.negative = y.negative)
include hsign

lemma side_of_exponent (h : y.exponent < x.exponent) : side x y = further x.negative := by
  rw [side, if_neg (not_not.2 hsign), if_pos h]

lemma side_of_more (hle : x.exponent ≤ y.exponent) (h : y.digits.length < x.digits.length) :
    side x y = further x.negative := by
  rw [side, if_neg (not_not.2 hsign), if_neg (not_lt.2 hle), if_pos h]

lemma side_of_fewer (hle : x.exponent ≤ y.exponent) (h : x.digits.length < y.digits.length) :
    side x y = (further x.negative).swap := by
  rw [side, if_neg (not_not.2 hsign), if_neg (not_lt.2 hle), if_neg h.not_gt, if_pos h]

lemma side_of_length_eq (hle : x.exponent ≤ y.exponent) (h : x.digits.length = y.digits.length) :
    side x y = order x.negative (firstDiff x.digits y.digits) := by
  rw [side, if_neg (not_not.2 hsign), if_neg (not_lt.2 hle), if_neg h.not_gt, if_neg h.not_lt]

lemma side_eq_eq_iff : side x y = .eq ↔ x.exponent ≤ y.exponent ∧ x.digits = y.digits := by
  obtain ⟨hfurther, hswap⟩ := further_ne_eq x.negative
  rcases lt_or_ge y.exponent x.exponent with hexponent | hle
  · rw [side_of_exponent hsign hexponent]
    exact iff_of_false hfurther fun h => hexponent.not_ge h.1
  · rw [and_iff_right hle]
    rcases lt_trichotomy x.digits.length y.digits.length with hfewer | hlen | hmore
    · rw [side_of_fewer hsign hle hfewer]
      exact iff_of_false hswap fun h => hfewer.ne (congrArg List.length h)
    · rw [side_of_length_eq hsign hle hlen, order_eq_eq_iff]
      exact firstDiff_eq_none hlen
    · rw [side_of_more hsign hle hmore]
      exact iff_of_false hfurther fun h => hmore.ne (congrArg List.length h).symm

lemma side_eq_order_iff : side x y = order false (topDiff x y) ↔ Agrees x y := by
  constructor
  · intro h
    constructor
    · intro hdiff
      rw [hdiff] at h
      exact (side_eq_eq_iff hsign).1 h
    · intro a b hdiff hlt
      rwa [side_of_exponent hsign hlt, hdiff, further_eq_order_iff] at h
    · intro a b hdiff hle hmore
      rwa [side_of_more hsign hle hmore, hdiff, further_eq_order_iff] at h
    · intro a b hdiff hle hfewer
      rwa [side_of_fewer hsign hle hfewer, hdiff, swap_further_eq_order_iff] at h
    · intro a b hdiff hle hlen
      rw [side_of_length_eq hsign hle hlen, hdiff] at h
      cases hdigits : firstDiff x.digits y.digits with
      | none =>
        rw [hdigits] at h
        exact absurd (order_eq_eq_iff.1 h.symm) nofun
      | some cd =>
        rw [hdigits, order_eq_order_iff] at h
        exact ⟨cd.1, cd.2, rfl, h⟩
  · intro h
    cases hdiff : topDiff x y with
    | none => exact (side_eq_eq_iff hsign).2 (h.same hdiff)
    | some ab =>
      rcases lt_or_ge y.exponent x.exponent with hexponent | hle
      · rw [side_of_exponent hsign hexponent]
        exact further_eq_order_iff.2 (h.exponent _ _ hdiff hexponent)
      · rcases lt_trichotomy x.digits.length y.digits.length with hfewer | hlen | hmore
        · rw [side_of_fewer hsign hle hfewer]
          exact swap_further_eq_order_iff.2 (h.fewer _ _ hdiff hle hfewer)
        · obtain ⟨c, d, hdigits, hiff⟩ := h.digits _ _ hdiff hle hlen
          rw [side_of_length_eq hsign hle hlen, hdigits]
          exact order_eq_order_iff.2 hiff
        · rw [side_of_more hsign hle hmore]
          exact further_eq_order_iff.2 (h.more _ _ hdiff hle hmore)

end side

theorem ordered_iff_agrees (x y : Digital) :
    Ordered x y ↔ (x.negative = y.negative → Agrees x y) := by
  rw [ordered_iff]
  by_cases hsign : x.negative = y.negative
  · rw [compare_val hsign, side_eq_order_iff hsign]
    exact ⟨fun h _ => h, fun h => h hsign⟩
  · refine iff_of_true ?_ fun h => absurd h hsign
    unfold side
    rw [if_pos hsign]
    cases hx : x.negative with
    | false =>
      have hy : y.negative = true := by simpa [hx] using hsign
      exact (compare_gt_iff_gt.2 ((val_neg hy).trans_le (val_nonneg hx))).symm
    | true =>
      have hy : y.negative = false := by simpa [hx] using hsign
      exact (compare_lt_iff_lt.2 ((val_neg hx).trans_le (val_nonneg hy))).symm

/-- The exponent of the right operand is never seen to be the higher one: `1` counts as equal to
`65536`. -/
theorem higher_exponent_unseen : ¬ ∀ x y : Digital, Ordered x y := by
  intro h
  have heq := (h (ofUInt64 1) (ofUInt64 65536)).eq.1 (by decide)
  have hx : ofUInt64 1 = ⟨false, 0, [1]⟩ := by decide
  have hy : ofUInt64 65536 = ⟨false, 1, [1]⟩ := by decide
  rw [hx, hy] at heq
  norm_num [val_eq, value_cons, signed, UInt16.toNat_ofNat] at heq

end CoreCommon.Digital
