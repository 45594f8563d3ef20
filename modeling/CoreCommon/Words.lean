import Mathlib

/-! Numbers in base `2 ^ 16`, given by their digits: values of lists with the lowest digit
first, and the order of lists with the highest digit first. -/
namespace CoreCommon.Words

abbrev base : ℕ := 65536

/-- The value of a list of digits, the lowest one first. -/
def value (l : List UInt16) : ℕ := Nat.ofDigits base (l.map UInt16.toNat)

section value
variable {l m : List UInt16} {d : UInt16}

@[simp] lemma value_nil : value [] = 0 := rfl

@[simp] lemma value_cons (d : UInt16) (l : List UInt16) :
    value (d :: l) = d.toNat + base * value l := Nat.ofDigits_cons

lemma value_append (l m : List UInt16) :
    value (l ++ m) = value l + base ^ l.length * value m := by
  unfold value
  rw [List.map_append, Nat.ofDigits_append, List.length_map]

lemma toNat_lt (d : UInt16) : d.toNat < base := d.toNat_lt

lemma value_lt (l : List UInt16) : value l < base ^ l.length := by
  induction l with
  | nil => exact one_pos
  | cons d l ih =>
    have hd := toNat_lt d
    rw [value_cons, List.length_cons, pow_succ]
    have hle : base * (value l + 1) ≤ base * base ^ l.length := Nat.mul_le_mul_left base ih
    rw [Nat.mul_add, Nat.mul_one, Nat.mul_comm base (base ^ l.length)] at hle
    omega

@[simp] lemma value_replicate_zero (n : ℕ) : value (List.replicate n 0) = 0 := by
  induction n with
  | zero => rfl
  | succ n ih => simp [List.replicate_succ, ih]

lemma value_replicate_max (n : ℕ) : value (List.replicate n 65535) + 1 = base ^ n := by
  induction n with
  | zero => rfl
  | succ n ih =>
    rw [List.replicate_succ, value_cons, pow_succ, ← ih, UInt16.toNat_ofNat]
    ring

lemma value_eq_zero : value l = 0 ↔ ∀ d ∈ l, d = 0 := by
  induction l with
  | nil => simp
  | cons d l ih =>
    have hbase : base ≠ 0 := by decide
    have hd : d.toNat = 0 ↔ d = 0 := UInt16.toNat_inj (b := 0)
    simp [ih, hbase, hd]

end value

/-! ### Lists of one length, the highest digit first -/

/-- The digits at the first place where two lists differ. -/
def firstDiff : List UInt16 → List UInt16 → Option (UInt16 × UInt16)
  | a :: l, b :: m => if a = b then firstDiff l m else some (a, b)
  | _, _ => none

lemma firstDiff_eq_none {l m : List UInt16} (hlen : l.length = m.length) :
    firstDiff l m = none ↔ l = m := by
  induction l generalizing m with
  | nil => simp [firstDiff, List.length_eq_zero_iff.1 hlen.symm]
  | cons a l ih =>
    obtain _ | ⟨b, m⟩ := m
    · cases hlen
    · unfold firstDiff
      by_cases hab : a = b
      · rw [if_pos hab, ih (Nat.succ.inj hlen), hab, List.cons_inj_right]
      · simp [hab]

lemma firstDiff_swap (l m : List UInt16) : firstDiff m l = (firstDiff l m).map Prod.swap := by
  induction l generalizing m with
  | nil => cases m <;> rfl
  | cons a l ih =>
    cases m with
    | nil => rfl
    | cons b m =>
      simp only [firstDiff, ih, eq_comm (a := b)]
      split_ifs <;> rfl

lemma firstDiff_ne {l m : List UInt16} {a b : UInt16} (h : firstDiff l m = some (a, b)) : a ≠ b := by
  induction l generalizing m with
  | nil => cases h
  | cons c l ih =>
    obtain _ | ⟨d, m⟩ := m
    · cases h
    · unfold firstDiff at h
      split_ifs at h with hcd
      · exact ih h
      · obtain ⟨rfl, rfl⟩ := Prod.mk.inj (Option.some.inj h)
        exact hcd

/-- The first difference decides which value is smaller. -/
lemma value_lt_iff {l m : List UInt16} (hlen : l.length = m.length) {a b : UInt16}
    (h : firstDiff l m = some (a, b)) : value l.reverse < value m.reverse ↔ a < b := by
  induction l generalizing m with
  | nil => cases h
  | cons c l ih =>
    obtain _ | ⟨d, m⟩ := m
    · cases h
    · have hlen' : l.length = m.length := Nat.succ.inj hlen
      rw [List.reverse_cons, List.reverse_cons, value_append, value_append, List.length_reverse,
        List.length_reverse, ← hlen', value_cons, value_cons, value_nil, Nat.mul_zero, Nat.add_zero,
        Nat.add_zero]
      unfold firstDiff at h
      by_cases hcd : c = d
      · rw [if_pos hcd] at h
        rw [hcd, Nat.add_lt_add_iff_right]
        exact ih hlen' h
      · rw [if_neg hcd] at h
        obtain ⟨rfl, rfl⟩ := Prod.mk.inj (Option.some.inj h)
        have hl := value_lt l.reverse
        have hm := value_lt m.reverse
        rw [List.length_reverse] at hl hm
        rw [← hlen'] at hm
        have hmono : ∀ {x y : UInt16}, x < y →
            base ^ l.length * x.toNat + base ^ l.length ≤ base ^ l.length * y.toNat := by
          intro x y hxy
          rw [← Nat.mul_succ]
          exact Nat.mul_le_mul_left _ (UInt16.lt_iff_toNat_lt.1 hxy)
        constructor
        · intro hlt
          by_contra hle
          have hne : c.toNat ≠ d.toNat := fun h => hcd (UInt16.toNat_inj.1 h)
          rw [UInt16.lt_iff_toNat_lt] at hle
          have hdc : d < c := UInt16.lt_iff_toNat_lt.2 (by omega)
          have := hmono hdc
          omega
        · intro hlt
          have := hmono hlt
          omega

end CoreCommon.Words
