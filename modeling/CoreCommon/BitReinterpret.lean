import CoreCommon.Base64

/-! `bit_reinterpret` as a function of bit streams: the output carries the significant bits of
the source in order, and zeros behind them. -/
namespace CoreCommon.Base64
open BitStream

/-- What a call leaves in the allocated bytes `out` and in `*outlen`. -/
structure Regroups (src : List UInt8) (inl outl : ℕ) (out : List UInt8) (outlen : ℕ) : Prop where
  room : out.length = src.length * inl / outl + 1
  count : outlen = (src.length * inl) ⌈/⌉ outl
  bits : stream outl (out.take outlen) =
    stream inl src ++ List.replicate (outlen * outl - src.length * inl) false
  clean : ∀ x ∈ out.take outlen, Clean outl x
  rest : ∀ x ∈ out.drop outlen, x = 0

/-- A run that stays inside the source does not depend on the bytes behind it. -/
lemma reinterpretLoop_append {src : List UInt8} (rest : List UInt8) {inlen size inl outl : ℕ}
    (fuel : ℕ) {done : List UInt8} {acc : UInt8} {srccur pos : ℕ} {r : List UInt8 × ℕ}
    (h : reinterpretLoop src inlen size inl outl fuel done acc srccur pos = .ok r) :
    reinterpretLoop (src ++ rest) inlen size inl outl fuel done acc srccur pos = .ok r := by
  induction fuel generalizing done acc srccur pos with
  | zero => simp [reinterpretLoop] at h
  | succ fuel ih =>
    simp only [reinterpretLoop] at h ⊢
    cases hb : src[srccur]? with
    | none => simp [hb] at h
    | some byte =>
      have hb' : (src ++ rest)[srccur]? = some byte := by
        rw [List.getElem?_append_left (List.getElem?_eq_some_iff.mp hb).1, hb]
      rw [hb] at h
      rw [hb']
      dsimp only at h ⊢
      generalize (if pos % inl + incr inl outl pos ≥ inl then srccur + 1 else srccur) = next at h ⊢
      split_ifs at h ⊢ with hcell hroom hfinish hfinish
      · exact h
      · exact ih h
      · exact h
      · exact ih h

lemma bitReinterpret_append {src : List UInt8} (rest : List UInt8) {inlen inl outl : ℕ}
    {r : List UInt8 × ℕ} (h : bitReinterpret src inlen inl outl = .ok r) :
    bitReinterpret (src ++ rest) inlen inl outl = .ok r := by
  simp only [bitReinterpret, Run.bind_eq_ok] at h ⊢
  obtain ⟨s, hloop, hr⟩ := h
  exact ⟨s, reinterpretLoop_append rest _ hloop, hr⟩

lemma ceilDiv_eq_split (n : ℕ) {d : ℕ} (hd : 0 < d) :
    n ⌈/⌉ d = n / d + if n % d > 0 then 1 else 0 := by
  have hmod := Nat.mod_lt n hd
  have hn : n + d - 1 = d * (n / d) + (n % d + d - 1) := by
    have := Nat.div_add_mod n d
    omega
  rw [Nat.ceilDiv_eq_add_pred_div, hn, Nat.mul_add_div hd]
  congr 1
  split_ifs with h
  · exact Nat.div_eq_of_lt_le (by omega) (by omega)
  · exact Nat.div_eq_of_lt (by omega)

section Regroups
variable {src done : List UInt8} {inl outl : ℕ} {acc : UInt8}

/-- The stream of the first `outlen` bytes: the moved bits, then the rest of the last byte. -/
lemma Moved.out_stream (h : Moved src inl outl done acc (src.length * inl)) (hi : 0 < inl)
    (ho : 0 < outl) (ho8 : outl ≤ 8) {outlen : ℕ} (hle : src.length * inl ≤ outlen * outl)
    (hlen : outlen ≤ (done ++ [acc]).length) :
    stream outl ((done ++ [acc]).take outlen) =
      stream inl src ++ List.replicate (outlen * outl - src.length * inl) false := by
  have htotal : ((done ++ [acc]).take outlen).length * outl =
      src.length * inl + (outlen * outl - src.length * inl) := by
    rw [List.length_take, Nat.min_eq_left hlen, Nat.add_sub_cancel' hle]
  rw [stream_eq_map ho, stream_eq_map hi, htotal, List.range_add, List.map_append, List.map_map]
  congr 1
  · refine List.map_congr_left fun k hk => ?_
    have hk' : k < src.length * inl := List.mem_range.mp hk
    rw [bit_take (by omega), h.bits k hk']
  · refine List.eq_replicate_iff.mpr ⟨by simp, ?_⟩
    intro b hb
    obtain ⟨k, hk, rfl⟩ := List.mem_map.mp hb
    have hk' := List.mem_range.mp hk
    rw [Function.comp_apply, bit_take (by omega), h.bits_tail ho ho8 (by omega)]

/-- On a boundary of the output the cell under `cur` has not been written to. -/
lemma Moved.acc_eq_zero {pos : ℕ} (h : Moved src inl outl done acc pos) (hpos : pos % outl = 0) :
    acc = 0 := by
  have hzero : Clean 0 acc := fun t ht => h.clear t (by omega)
  exact eq_of_clean (Nat.zero_le 8) hzero (fun t _ => by simp) (by simp)

lemma Moved.regroups (h : Moved src inl outl done acc (src.length * inl)) (hi : 0 < inl)
    (ho : 0 < outl) (ho8 : outl ≤ 8) :
    Regroups src inl outl (done ++ [acc])
      (src.length * inl / outl + if src.length * inl % outl > 0 then 1 else 0) := by
  have hdiv := Nat.div_add_mod (src.length * inl) outl
  have hmod := Nat.mod_lt (src.length * inl) ho
  have hroom : (done ++ [acc]).length = src.length * inl / outl + 1 := by simp [h.cells]
  have hclean := h.clean_cells ho
  refine ⟨hroom, (ceilDiv_eq_split _ ho).symm, h.out_stream hi ho ho8 ?_ ?_,
    fun x hx => hclean x (List.mem_of_mem_take hx), ?_⟩
  · rw [Nat.add_mul, Nat.mul_comm (src.length * inl / outl)]
    split_ifs <;> omega
  · rw [hroom]
    split_ifs <;> omega
  · split_ifs with hpart
    · rw [List.drop_of_length_le (by rw [hroom])]
      simp
    · -- the last bit filled a byte, and the zeroed byte behind it is not counted
      rw [h.acc_eq_zero (by omega), ← h.cells, Nat.add_zero, List.drop_left]
      simp

end Regroups

/-- For all widths, every non-empty source with clean bytes is regrouped. Whatever stands behind
it, and nothing has to, the run is the same. -/
theorem bitReinterpret_regroups {src : List UInt8} {inl outl : ℕ} (hi : 1 ≤ inl) (hi8 : inl ≤ 8)
    (ho : 1 ≤ outl) (ho8 : outl ≤ 8) (hsrc : src ≠ []) (hclean : ∀ x ∈ src, Clean inl x)
    (hwrap : src.length * inl < 2 ^ 32) :
    ∃ out outlen, Regroups src inl outl out outlen ∧
      ∀ rest, bitReinterpret (src ++ rest) src.length inl outl = .ok (out, outlen) := by
  obtain ⟨done, acc, hrun, hmoved⟩ := bitReinterpret_moved src src.length inl outl hi hi8 ho ho8
    (List.length_pos_iff.mpr hsrc) le_rfl (by simpa using hclean) hwrap
  exact ⟨_, _, hmoved.regroups hi ho ho8, fun rest => bitReinterpret_append rest hrun⟩

theorem bitReinterpret_regroups_five_to_three : ∃ out outlen,
    Regroups [0xA8, 0x70] 5 3 out outlen ∧
      ∀ rest, bitReinterpret ([0xA8, 0x70] ++ rest) 2 5 3 = .ok (out, outlen) :=
  bitReinterpret_regroups (by decide) (by decide) (by decide) (by decide) (by decide)
    (by unfold Clean; decide +kernel) (by decide)

/-! ### Regrouping what was regrouped -/

section twice
variable {src out : List UInt8} {a b c n : ℕ}

/-- The bytes that are counted are there, and hold the source with less than one byte to spare. -/
lemma Regroups.size (h : Regroups src a b out n) (hb : 0 < b) : (out.take n).length = n ∧
    src.length * a ≤ n * b ∧ n * b < src.length * a + b := by
  have hdiv := Nat.div_add_mod (src.length * a) b
  have hmod := Nat.mod_lt (src.length * a) hb
  have hcount := h.count
  rw [ceilDiv_eq_split _ hb] at hcount
  rw [List.length_take, h.room, hcount, Nat.add_mul, Nat.mul_comm _ b]
  split_ifs <;> omega

end twice

end CoreCommon.Base64
