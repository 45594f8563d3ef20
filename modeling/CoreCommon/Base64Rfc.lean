import CoreCommon.Base64

/-! The base64 of RFC 4648: 24 bits at a time as four characters, a last group of one or two
bytes filled up with zero bits and with `=`. `base64_encode` computes it while its counters stay
below `2 ^ 32`. -/
namespace CoreCommon.Base64
open BitStream

/-! ### The standard -/

/-- Table 1 of the standard. -/
def rfcChar (d : ℕ) : UInt8 :=
  if d < 26 then UInt8.ofNat (65 + d)
  else if d < 52 then UInt8.ofNat (97 + (d - 26))
  else if d < 62 then UInt8.ofNat (48 + (d - 52))
  else if d = 62 then 43
  else 47

/-- The four six-bit digits of a 24-bit group. -/
def groupDigits (v : ℕ) : List ℕ := [v / 2 ^ 18, v / 2 ^ 12 % 2 ^ 6, v / 2 ^ 6 % 2 ^ 6, v % 2 ^ 6]

def group (a b c : UInt8) : ℕ := a.toNat * 2 ^ 16 + b.toNat * 2 ^ 8 + c.toNat

def rfcDigits : List UInt8 → List ℕ
  | [] => []
  | [a] => (groupDigits (group a 0 0)).take 2
  | [a, b] => (groupDigits (group a b 0)).take 3
  | a :: b :: c :: rest => groupDigits (group a b c) ++ rfcDigits rest

def rfc4648 (s : List UInt8) : List UInt8 :=
  (rfcDigits s).map rfcChar ++ List.replicate ((3 - s.length % 3) % 3) pad

/-- The call returns the text of the standard before its NUL. -/
def EncodesRfc (s : List UInt8) : Prop :=
  ∃ text, base64Encode s s.length = .ok text ∧ text = rfc4648 s ∧
    text.length = 4 * ((s.length + 2) / 3) ∧ 0 ∉ text

/-! ### Digits as cells -/

/-- A digit in the upper six bits of a cell. -/
def cell (d : ℕ) : UInt8 := UInt8.ofNat (d * 2 ^ 2)

lemma rfcChar_facts : ∀ d : Fin 64, letter (cell d) = rfcChar d ∧ rfcChar d ≠ 0 := by
  decide +kernel

lemma toNat_cell {d : ℕ} (hd : d < 2 ^ 6) : (cell d).toNat = d * 2 ^ 2 := by
  rw [cell, UInt8.toNat_ofNat', Nat.mod_eq_of_lt (by omega)]

lemma clean_cell {d : ℕ} (hd : d < 64) : Clean 6 (cell d) := by
  intro t ht
  rw [toNat_cell hd, Nat.testBit_mul_two_pow, decide_eq_false (by omega), Bool.false_and]

lemma group_lt (a b c : UInt8) : group a b c < 2 ^ 24 := by
  have := a.toNat_lt
  have := b.toNat_lt
  have := c.toNat_lt
  rw [group]
  omega

lemma groupDigits_lt {v : ℕ} (hv : v < 2 ^ 24) : ∀ d ∈ groupDigits v, d < 64 := by
  simp only [groupDigits, List.mem_cons, List.not_mem_nil, or_false, forall_eq_or_imp, forall_eq]
  omega

lemma rfcDigits_lt (s : List UInt8) : ∀ d ∈ rfcDigits s, d < 64 := by
  fun_induction rfcDigits s with
  | case1 => simp
  | case2 a => exact fun d hd => groupDigits_lt (group_lt a 0 0) d (List.mem_of_mem_take hd)
  | case3 a b => exact fun d hd => groupDigits_lt (group_lt a b 0) d (List.mem_of_mem_take hd)
  | case4 a b c rest ih =>
    intro d hd
    rcases List.mem_append.1 hd with hd | hd
    · exact groupDigits_lt (group_lt a b c) d hd
    · exact ih d hd

lemma length_rfcDigits (s : List UInt8) : (rfcDigits s).length = (s.length * 8 + 5) / 6 := by
  fun_induction rfcDigits s with
  | case1 => rfl
  | case2 a => simp [groupDigits]
  | case3 a b => simp [groupDigits]
  | case4 a b c rest ih =>
    rw [List.length_append, ih]
    simp only [groupDigits, List.length_cons, List.length_nil]
    omega

/-! ### The bits of a group -/

/-- A digit of a group, as its cell holds it. -/
lemma bit_groupDigits {v k : ℕ} (hv : v < 2 ^ 24) (hk : k < 24) :
    bit 6 ((groupDigits v).map cell) k = v.testBit (23 - k) := by
  have hdigit : ∀ i < 4, ((groupDigits v).map cell).getD i 0 = cell (v / 2 ^ (18 - 6 * i) % 2 ^ 6) := by
    intro i hi
    have hv' : v / 2 ^ 18 % 2 ^ 6 = v / 2 ^ 18 := Nat.mod_eq_of_lt (by omega)
    interval_cases i
    · rw [hv']; rfl
    · rfl
    · rfl
    · rw [Nat.pow_zero, Nat.div_one]; rfl
  have hmod := Nat.mod_lt k (show 0 < 6 by norm_num)
  have hdm := Nat.div_add_mod k 6
  rw [bit, hdigit _ (by omega), toNat_cell (Nat.mod_lt _ (by norm_num)), Nat.testBit_mul_two_pow,
    decide_eq_true (by omega), Bool.true_and, Nat.testBit_mod_two_pow, decide_eq_true (by omega),
    Bool.true_and, Nat.testBit_div_two_pow]
  congr 1
  omega

lemma bit_group (a b c : UInt8) {k : ℕ} (hk : k < 24) :
    bit 8 [a, b, c] k = (group a b c).testBit (23 - k) := by
  have hbyte : ∀ i < 3, ([a, b, c].getD i 0).toNat = group a b c / 2 ^ (16 - 8 * i) % 2 ^ 8 := by
    intro i hi
    have := a.toNat_lt
    have := b.toNat_lt
    have := c.toNat_lt
    interval_cases i <;> simp only [group, List.getD_cons_succ, List.getD_cons_zero] <;> omega
  have hmod := Nat.mod_lt k (show 0 < 8 by norm_num)
  have hdm := Nat.div_add_mod k 8
  rw [bit, hbyte _ (by omega), Nat.testBit_mod_two_pow, decide_eq_true (by omega), Bool.true_and,
    Nat.testBit_div_two_pow]
  congr 1
  omega

lemma bit_append_zero (xs : List UInt8) (k : ℕ) : bit 8 (xs ++ [0]) k = bit 8 xs k := by
  by_cases hk : k < xs.length * 8
  · exact bit_append_left hk
  · obtain ⟨j, rfl⟩ : ∃ j, k = xs.length * 8 + j := ⟨k - xs.length * 8, by omega⟩
    have hz : ([0] : List UInt8).getD (j / 8) 0 = 0 := by cases j / 8 <;> rfl
    have hpast : xs.getD ((xs.length * 8 + j) / 8) 0 = 0 :=
      List.getD_eq_default _ _ (by omega)
    rw [bit_append_right (by norm_num), bit, bit, hz, hpast]
    simp

/-- The cells of the digits carry the bits of the byte string and zeros behind them. -/
lemma bit_rfcDigits (s : List UInt8) {k : ℕ} (hk : k < (rfcDigits s).length * 6) :
    bit 6 ((rfcDigits s).map cell) k = bit 8 s k := by
  fun_induction rfcDigits s generalizing k with
  | case1 => simp at hk
  | case2 a =>
    have hk' : k < 2 * 6 := by simpa [groupDigits] using hk
    rw [List.map_take, bit_take hk', bit_groupDigits (group_lt a 0 0) (by omega),
      ← bit_group a 0 0 (by omega), ← bit_append_zero [a], ← bit_append_zero ([a] ++ [0])]
    rfl
  | case3 a b =>
    have hk' : k < 3 * 6 := by simpa [groupDigits] using hk
    rw [List.map_take, bit_take hk', bit_groupDigits (group_lt a b 0) (by omega),
      ← bit_group a b 0 (by omega), ← bit_append_zero [a, b]]
    rfl
  | case4 a b c rest ih =>
    have hcells : ((groupDigits (group a b c)).map cell).length * 6 = 24 := rfl
    have hbytes : [a, b, c].length * 8 = 24 := rfl
    rw [List.map_append, show a :: b :: c :: rest = [a, b, c] ++ rest from rfl]
    by_cases h24 : k < 24
    · rw [bit_append_left (by omega), bit_append_left (by omega),
        bit_groupDigits (group_lt a b c) h24, bit_group a b c h24]
    · obtain ⟨j, rfl⟩ : ∃ j, k = 24 + j := ⟨k - 24, by omega⟩
      have hj : j < (rfcDigits rest).length * 6 := by
        have hlen : (groupDigits (group a b c)).length = 4 := rfl
        rw [List.length_append, hlen] at hk
        omega
      have hout := bit_append_right (w := 6) (by norm_num) ((groupDigits (group a b c)).map cell)
        ((rfcDigits rest).map cell) j
      have hin := bit_append_right (w := 8) (by norm_num) [a, b, c] rest j
      rw [hcells] at hout
      rw [hbytes] at hin
      rw [hout, hin, ih hj]

/-! ### The encoder -/

lemma map_letter_cell (s : List UInt8) :
    ((rfcDigits s).map cell).map letter = (rfcDigits s).map rfcChar := by
  rw [List.map_map]
  exact List.map_congr_left fun d hd => (rfcChar_facts ⟨d, rfcDigits_lt s d hd⟩).1

lemma length_rfc4648 (s : List UInt8) : (rfc4648 s).length = 4 * ((s.length + 2) / 3) := by
  rw [rfc4648, List.length_append, List.length_map, length_rfcDigits, List.length_replicate]
  omega

lemma zero_not_mem_rfc4648 (s : List UInt8) : 0 ∉ rfc4648 s := by
  intro h
  rcases List.mem_append.1 h with h | h
  · obtain ⟨d, hd, hz⟩ := List.mem_map.1 h
    exact (rfcChar_facts ⟨d, rfcDigits_lt s d hd⟩).2 hz
  · exact absurd (List.eq_of_mem_replicate h) (by decide)

/-- Streams and cleanness leave one choice of the cells: those of the standard's digits. -/
lemma sextets_eq {s xs : List UInt8} (h : Sextets s xs)
    (hzero : ∀ k, s.length * 8 ≤ k → k < xs.length * 6 → bit 6 xs k = false) :
    xs = (rfcDigits s).map cell := by
  have hlen : xs.length = ((rfcDigits s).map cell).length := by
    rw [List.length_map, length_rfcDigits, h.length]
  refine ext_of_bit (w := 6) (by norm_num) (by norm_num) hlen h.clean ?_ fun k hk => ?_
  · intro y hy
    obtain ⟨d, hd, rfl⟩ := List.mem_map.1 hy
    exact clean_cell (rfcDigits_lt s d hd)
  · rw [hlen, List.length_map] at hk
    rw [bit_rfcDigits s hk]
    by_cases hin : k < s.length * 8
    · exact h.bits k hin
    · have hpast : s.getD (k / 8) 0 = 0 := List.getD_eq_default _ _ (by omega)
      rw [hzero k (by omega) (by rw [hlen, List.length_map]; exact hk), bit, hpast]
      simp

lemma encodesRfc_of_lt {s : List UInt8} (hs : 0 < s.length)
    (hw : 24 * ((s.length + 2) / 3) < 2 ^ 32) : EncodesRfc s := by
  obtain ⟨xs, hsx, hzero, henc⟩ := base64Encode_filled hs hw
  have hpads : 4 * ((s.length + 2) / 3) - xs.length = (3 - s.length % 3) % 3 := by
    have hmod : s.length % 3 = 0 ∨ s.length % 3 = 1 ∨ s.length % 3 = 2 := by omega
    rw [hsx.length]
    rcases hmod with h | h | h <;> rw [h] <;> omega
  rw [hpads, sextets_eq hsx hzero, map_letter_cell] at henc
  exact ⟨_, henc, rfl, length_rfc4648 s, zero_not_mem_rfc4648 s⟩

/-- Among the byte strings whose bits `unsigned` can count, one length fails: its padded text has
`2 ^ 32 + 8` bits, so the padding loop never meets its exit test inside the buffer. -/
theorem encodesRfc_iff {s : List UInt8} (hs : s ≠ []) (hw : 8 * s.length < 2 ^ 32) :
    EncodesRfc s ↔ s.length < 2 ^ 29 - 1 := by
  constructor
  · rintro ⟨text, henc, -⟩
    by_contra hlen
    exact base64Encode_pad_overrun (by omega) (by omega) text henc
  · intro hlen
    exact encodesRfc_of_lt (List.length_pos_iff.2 hs) (by omega)

theorem encodesRfc_iff_two_bytes : EncodesRfc [77, 97] ↔ [77, 97].length < 2 ^ 29 - 1 :=
  encodesRfc_iff (by decide) (by decide)

/-- The length that fails, with all bytes `M`. -/
theorem longest_not_encoded : ¬∀ s : List UInt8, s ≠ [] → 8 * s.length < 2 ^ 32 → EncodesRfc s := by
  intro h
  have hlen : (List.replicate (2 ^ 29 - 1) (77 : UInt8)).length = 2 ^ 29 - 1 :=
    List.length_replicate
  have hpos : 0 < (List.replicate (2 ^ 29 - 1) (77 : UInt8)).length := by
    rw [hlen]
    norm_num
  obtain ⟨text, henc, -⟩ := h _ (List.length_pos_iff.1 hpos) (by rw [hlen]; norm_num)
  rw [hlen] at henc
  exact base64Encode_pad_overrun (by norm_num) (by norm_num) text henc

end CoreCommon.Base64
