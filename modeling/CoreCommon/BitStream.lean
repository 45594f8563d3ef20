import Mathlib

/-! Byte lists read as bit streams. Each byte carries `w` significant bits, the
most significant bit first, and the bits below them are ignored by the reader. -/
namespace CoreCommon.BitStream

/-- Bit `k` of the stream; past the last byte the stream reads as zero. -/
def bit (w : ℕ) (xs : List UInt8) (k : ℕ) : Bool :=
  (xs.getD (k / w) 0).toNat.testBit (7 - k % w)

/-- The significant bits of all bytes, one byte after the other. -/
def stream (w : ℕ) (xs : List UInt8) : List Bool :=
  xs.flatMap fun x => (List.range w).map fun j => x.toNat.testBit (7 - j)

/-- The bits of a byte below its `w` significant ones are zero. -/
def Clean (w : ℕ) (x : UInt8) : Prop := ∀ t, t < 8 - w → x.toNat.testBit t = false

lemma toNat_testBit_of_le (x : UInt8) {t : ℕ} (ht : 8 ≤ t) : x.toNat.testBit t = false :=
  Nat.testBit_lt_two_pow (x.toNat_lt.trans_le (Nat.pow_le_pow_right (by norm_num) ht))

lemma clean_eight (x : UInt8) : Clean 8 x := fun t ht => by omega

lemma bit_append_left {w : ℕ} {xs ys : List UInt8} {k : ℕ} (hk : k < xs.length * w) :
    bit w (xs ++ ys) k = bit w xs k := by
  have hi : k / w < xs.length := Nat.div_lt_of_lt_mul (by rwa [Nat.mul_comm] at hk)
  simp [bit, List.getD_eq_getElem?_getD, List.getElem?_append_left hi]

lemma bit_append_right {w : ℕ} (hw : 0 < w) (xs ys : List UInt8) (j : ℕ) :
    bit w (xs ++ ys) (xs.length * w + j) = bit w ys j := by
  have hd : (xs.length * w + j) / w = xs.length + j / w := by
    rw [Nat.mul_comm, Nat.mul_add_div hw]
  have hm : (xs.length * w + j) % w = j % w := by
    rw [Nat.mul_comm, Nat.mul_add_mod]
  simp [bit, hd, hm, List.getD_eq_getElem?_getD, List.getElem?_append_right]

lemma bit_singleton {w : ℕ} (x : UInt8) {j : ℕ} (hj : j < w) :
    bit w [x] j = x.toNat.testBit (7 - j) := by
  simp [bit, Nat.div_eq_of_lt hj, Nat.mod_eq_of_lt hj]

lemma bit_cons_left {w : ℕ} (x : UInt8) (xs : List UInt8) {j : ℕ} (hj : j < w) :
    bit w (x :: xs) j = x.toNat.testBit (7 - j) := by
  rw [← List.singleton_append, bit_append_left (by simpa using hj), bit_singleton x hj]

lemma bit_cons_right {w : ℕ} (hw : 0 < w) (x : UInt8) (xs : List UInt8) (j : ℕ) :
    bit w (x :: xs) (w + j) = bit w xs j := by
  have h := bit_append_right hw [x] xs j
  rwa [List.length_singleton, one_mul, List.singleton_append] at h

/-- Cutting the list at a whole number of bytes cuts the stream there. -/
lemma bit_take {w : ℕ} {xs : List UInt8} {n k : ℕ} (hk : k < n * w) :
    bit w (xs.take n) k = bit w xs k := by
  have hi : k / w < n := Nat.div_lt_of_lt_mul (by rwa [Nat.mul_comm] at hk)
  simp [bit, List.getD_eq_getElem?_getD, hi]

/-- The stream counts through the significant bits. -/
lemma stream_eq_map {w : ℕ} (hw : 0 < w) (xs : List UInt8) :
    stream w xs = (List.range (xs.length * w)).map (bit w xs) := by
  induction xs with
  | nil => simp [stream]
  | cons x xs ih =>
    have hlen : (x :: xs).length * w = w + xs.length * w := by
      rw [List.length_cons, Nat.add_mul, one_mul, Nat.add_comm]
    rw [hlen, List.range_add, List.map_append, List.map_map]
    change (List.range w).map _ ++ stream w xs = _
    rw [ih]
    congr 1
    · exact List.map_congr_left fun j hj => (bit_cons_left x xs (List.mem_range.mp hj)).symm
    · exact List.map_congr_left fun j _ => (bit_cons_right hw x xs j).symm

lemma eq_of_clean {w : ℕ} (hw : w ≤ 8) {x y : UInt8} (hx : Clean w x) (hy : Clean w y)
    (h : ∀ j, j < w → x.toNat.testBit (7 - j) = y.toNat.testBit (7 - j)) : x = y := by
  apply UInt8.toNat_inj.mp
  apply Nat.eq_of_testBit_eq
  intro t
  by_cases hlow : t < 8 - w
  · rw [hx t hlow, hy t hlow]
  by_cases hhigh : 8 ≤ t
  · rw [toNat_testBit_of_le x hhigh, toNat_testBit_of_le y hhigh]
  · have := h (7 - t) (by omega)
    rwa [show 7 - (7 - t) = t by omega] at this

/-- Two byte lists of one length with equal streams are equal. -/
theorem ext_of_bit {w : ℕ} (hw : 0 < w) (hw8 : w ≤ 8) {xs ys : List UInt8}
    (hlen : xs.length = ys.length) (hx : ∀ x ∈ xs, Clean w x) (hy : ∀ y ∈ ys, Clean w y)
    (h : ∀ k, k < xs.length * w → bit w xs k = bit w ys k) : xs = ys := by
  induction xs generalizing ys with
  | nil => exact (List.eq_nil_of_length_eq_zero hlen.symm).symm
  | cons x xs ih =>
    obtain _ | ⟨y, ys⟩ := ys
    · simp at hlen
    have hhead : x = y := by
      apply eq_of_clean hw8 (hx x (by simp)) (hy y (by simp))
      intro j hj
      have hk := h j (by simp only [List.length_cons]; nlinarith)
      rwa [bit_cons_left x xs hj, bit_cons_left y ys hj] at hk
    have htail : xs = ys := by
      refine ih (by simpa using hlen) (fun z hz => hx z (by simp [hz]))
        (fun z hz => hy z (by simp [hz])) fun k hk => ?_
      have hk' := h (w + k) (by simp only [List.length_cons]; nlinarith)
      rwa [bit_cons_right hw, bit_cons_right hw] at hk'
    rw [hhead, htail]

end CoreCommon.BitStream
