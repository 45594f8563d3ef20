import CoreCommon.Fault
import CoreCommon.BitStream

/-! Base64 through the shared bit regrouping loop. The malloc'd output is kept as
its finished cells and the cell under `cur`; a cell past the allocation or a read
past the source is a fault. `unsigned` arithmetic wraps at `2^32`. -/
namespace CoreCommon.Base64
open BitStream

def wrap (n : ℕ) : ℕ := n % 2 ^ 32

/-- The bits that one iteration ors into `*cur`. -/
def chunk (byte : UInt8) (inl outl pos : ℕ) : UInt8 :=
  UInt8.ofNat ((((byte.toNat <<< (pos % inl)) &&& (255 <<< (8 - inl))) >>> (pos % outl))
    &&& (255 <<< (8 - outl)))

def incr (inl outl pos : ℕ) : ℕ :=
  if inl - pos % inl > outl - pos % outl then outl - pos % outl else inl - pos % inl

/-- The loop of `bit_reinterpret`: `done` are the cells before `cur`, `acc` is `*cur`. -/
def reinterpretLoop (src : List UInt8) (inlen size inl outl : ℕ) :
    ℕ → List UInt8 → UInt8 → ℕ → ℕ → Run (List UInt8 × ℕ)
  | 0, _, _, _, _ => .error .diverges
  | fuel + 1, done, acc, srccur, pos =>
    match src[srccur]? with
    | none => .error .undefined
    | some byte =>
      let acc := acc ||| chunk byte inl outl pos
      let step := incr inl outl pos
      -- srccur is the last source byte and the step uses it up: leave the loop
      let finish := pos % inl + step ≥ inl ∧ inlen ≤ srccur + 1
      let srccur' := if pos % inl + step ≥ inl then srccur + 1 else srccur
      let next := wrap (pos + step)
      if pos % outl + step ≥ outl then
        if done.length + 1 < size then
          if finish then .ok (done ++ [acc, 0], next)
          else reinterpretLoop src inlen size inl outl fuel (done ++ [acc]) 0 srccur' next
        else .error .undefined
      else if finish then .ok (done ++ [acc], next)
      else reinterpretLoop src inlen size inl outl fuel done acc srccur' next

/-- The written cells of the returned buffer, and `*outlen`. -/
def bitReinterpret (src : List UInt8) (inlen inl outl : ℕ) : Run (List UInt8 × ℕ) := do
  let size := wrap (inlen * inl) / outl + 1
  let (out, pos) ← reinterpretLoop src inlen size inl outl (16 * inlen + 16) [] 0 0 0
  .ok (out, out.length - 1 + if pos % outl > 0 then 1 else 0)

def b64Alphabet : List UInt8 :=
  "ABCDEFGHIJKLMNOPQRSTUVWXYZabcdefghijklmnopqrstuvwxyz0123456789+/".toList.map
    fun c => UInt8.ofNat c.toNat

def pad : UInt8 := 61

/-- Append `=` until the padded length covers the source; `size` is the realloc'd buffer. -/
def padLoop (len size : ℕ) : ℕ → List UInt8 → Run (List UInt8)
  | 0, _ => .error .diverges
  | fuel + 1, o =>
    if wrap (o.length * 6) / 24 ≠ wrap (len + 2) / 3 then
      if o.length < size then padLoop len size fuel (o ++ [pad]) else .error .undefined
    else .ok o

/-- The text before the terminating NUL; the NUL itself must fit in the buffer too. -/
def base64Encode (src : List UInt8) (len : ℕ) : Run (List UInt8) := do
  let (s, olen) ← bitReinterpret src len 8 6
  let o := (s.take olen).map fun x => b64Alphabet.getD (x.toNat >>> 2) 0
  let size := wrap (wrap (len + 2) / 3 * 4 + 1)
  let o ← padLoop len size (size + 1) o
  if o.length < size then .ok o else .error .undefined

/-- `strchr(B64_ALPHABET, c) - B64_ALPHABET`, shifted to the top of the byte. -/
def sextet (c : UInt8) : Run UInt8 :=
  match b64Alphabet.idxOf? c with
  | some i => .ok (UInt8.ofNat (i <<< 2))
  | none => .error .undefined

/-- `text` is the string before its NUL. The result is the buffer and `*len`. -/
def base64Decode (text : List UInt8) : Run (List UInt8 × ℕ) := do
  let slen := wrap text.length
  let body := ((text.take slen).reverse.dropWhile (· = pad)).reverse
  let lenOff := slen - body.length
  let src ← body.mapM sextet
  let (out, len) ← bitReinterpret (src ++ text.drop body.length ++ [0]) body.length 6 8
  .ok (out, wrap (len + 2 ^ 32 - lenOff))

/-! ### The regrouping loop -/

lemma testBit_255 (i : ℕ) : (255 : ℕ).testBit i = decide (i < 8) := by
  rw [show (255 : ℕ) = 2 ^ 8 - 1 by norm_num, Nat.testBit_two_pow_sub_one]

/-- With one side on a boundary, the chunk holds the unread bits of the source byte
behind the bits already written to the output byte, and nothing else. -/
lemma chunk_testBit {byte : UInt8} {inl outl pos j : ℕ} (hinl : inl ≤ 8) (hout : outl ≤ 8)
    (hclean : Clean inl byte) (ha : pos % inl = 0 ∨ pos % outl = 0) (hj : j < 8) :
    (chunk byte inl outl pos).toNat.testBit (7 - j) =
      (decide (pos % outl ≤ j ∧ j < outl ∧ pos % inl + (j - pos % outl) < inl) &&
        byte.toNat.testBit (7 - (pos % inl + (j - pos % outl)))) := by
  generalize hA : pos % inl = a at *
  generalize hB : pos % outl = b at *
  simp only [chunk, hA, hB, UInt8.toNat_ofNat', Nat.testBit_mod_two_pow, Nat.testBit_land,
    Nat.testBit_shiftRight, Nat.testBit_shiftLeft, testBit_255]
  have hhigh : ∀ t, 8 ≤ t → byte.toNat.testBit t = false := fun t => toNat_testBit_of_le byte
  by_cases hin : b ≤ j ∧ j < outl ∧ a + (j - b) < inl
  · have hbit : b + (7 - j) - a = 7 - (a + (j - b)) := by omega
    have h1 : b + (7 - j) ≥ a := by omega
    have h2 : b + (7 - j) ≥ 8 - inl := by omega
    have h3 : b + (7 - j) - (8 - inl) < 8 := by omega
    have h4 : 7 - j ≥ 8 - outl := by omega
    have h5 : 7 - j - (8 - outl) < 8 := by omega
    have h6 : 7 - j < 8 := by omega
    simp [hin, hbit, h1, h2, h3, h4, h5, h6]
  · rw [decide_eq_false hin, Bool.false_and]
    by_cases hjo : j < outl
    · rcases ha with rfl | rfl
      · by_cases hbj : b ≤ j
        · -- the bit lies below the significant bits, so the mask drops it
          have : ¬ (b + (7 - j) ≥ 8 - inl) := by omega
          simp [this]
        · rw [hhigh (b + (7 - j) - 0) (by omega)]
          simp
      · by_cases haj : a ≤ 7 - j
        · rw [show 0 + (7 - j) - a = 7 - j - a by omega, hclean (7 - j - a) (by omega)]
          simp
        · simp only [zero_add, ge_iff_le, haj, decide_false, Bool.false_and, Bool.and_false]
    · have : ¬ (7 - j ≥ 8 - outl) := by omega
      simp [this]

/-- What the written cells hold once the loop has moved `pos` bits. -/
structure Moved (src : List UInt8) (inl outl : ℕ) (done : List UInt8) (acc : UInt8) (pos : ℕ) :
    Prop where
  cells : done.length = pos / outl
  aligned : pos % inl = 0 ∨ pos % outl = 0
  bits : ∀ k, k < pos → bit outl (done ++ [acc]) k = bit inl src k
  clear : ∀ t, t < 8 - pos % outl → acc.toNat.testBit t = false
  clean : ∀ x ∈ done, Clean outl x

lemma Moved.start (src : List UInt8) (inl outl : ℕ) : Moved src inl outl [] 0 0 :=
  ⟨by simp, by simp, by simp, by simp, by simp⟩

lemma incr_pos {inl outl : ℕ} (hi : 0 < inl) (ho : 0 < outl) (pos : ℕ) :
    0 < incr inl outl pos := by
  have := Nat.mod_lt pos hi
  have := Nat.mod_lt pos ho
  unfold incr
  split_ifs <;> omega

lemma incr_le_in (inl outl pos : ℕ) : incr inl outl pos ≤ inl - pos % inl := by
  unfold incr; split_ifs <;> omega

lemma incr_le_out (inl outl pos : ℕ) : incr inl outl pos ≤ outl - pos % outl := by
  unfold incr; split_ifs <;> omega

lemma incr_eq (inl outl pos : ℕ) :
    incr inl outl pos = inl - pos % inl ∨ incr inl outl pos = outl - pos % outl := by
  unfold incr; split_ifs <;> simp

/-- Position arithmetic of one step on either side of the regrouping. -/
lemma add_div_mod {w pos d : ℕ} (hw : 0 < w) (hd : d ≤ w - pos % w) :
    if pos % w + d ≥ w then (pos + d) / w = pos / w + 1 ∧ (pos + d) % w = 0
    else (pos + d) / w = pos / w ∧ (pos + d) % w = pos % w + d := by
  have hlt := Nat.mod_lt pos hw
  have hpos := Nat.div_add_mod pos w
  split_ifs with h
  · have : pos + d = w * (pos / w + 1) + 0 := by rw [Nat.mul_add]; omega
    rw [this, Nat.mul_add_div hw, Nat.mul_add_mod]
    simp
  · have : pos + d = w * (pos / w) + (pos % w + d) := by omega
    have hlt' : pos % w + d < w := by omega
    rw [this, Nat.mul_add_div hw, Nat.mul_add_mod, Nat.div_eq_of_lt hlt', Nat.mod_eq_of_lt hlt']
    simp

/-- `srccur` points at the byte of the next bit. -/
lemma srccur_next {inl : ℕ} (hi : 0 < inl) (outl pos : ℕ) :
    (if pos % inl + incr inl outl pos ≥ inl then pos / inl + 1 else pos / inl) =
      (pos + incr inl outl pos) / inl := by
  have hin := add_div_mod hi (incr_le_in inl outl pos)
  split_ifs at hin ⊢ <;> exact hin.1.symm

/-- A step that starts before the end of the source does not pass it. -/
lemma add_incr_le {inlen inl pos : ℕ} (outl : ℕ) (hi : 0 < inl) (hpos : pos < inlen * inl) :
    pos + incr inl outl pos ≤ inlen * inl := by
  have hcur : pos / inl < inlen := Nat.div_lt_of_lt_mul (by rwa [Nat.mul_comm] at hpos)
  have hstep := incr_le_in inl outl pos
  have hmod := Nat.mod_lt pos hi
  have hdiv := Nat.div_add_mod pos inl
  have hbyte := Nat.mul_le_mul_right inl (show pos / inl + 1 ≤ inlen from hcur)
  rw [Nat.add_mul, Nat.mul_comm (pos / inl)] at hbyte
  omega

/-- The exit test holds exactly at the step that reaches the end of the source. -/
lemma finish_iff {inlen inl pos : ℕ} (outl : ℕ) (hi : 0 < inl) (hpos : pos < inlen * inl) :
    (pos % inl + incr inl outl pos ≥ inl ∧ inlen ≤ pos / inl + 1) ↔
      pos + incr inl outl pos = inlen * inl := by
  have hcur : pos / inl < inlen := Nat.div_lt_of_lt_mul (by rwa [Nat.mul_comm] at hpos)
  have hin := add_div_mod hi (incr_le_in inl outl pos)
  constructor
  · rintro ⟨hc, hend⟩
    rw [if_pos hc] at hin
    have hdiv := Nat.div_add_mod (pos + incr inl outl pos) inl
    rw [hin.1, hin.2, show pos / inl + 1 = inlen by omega, Nat.mul_comm] at hdiv
    omega
  · intro heq
    rw [heq, Nat.mul_div_cancel _ hi, Nat.mul_mod_left] at hin
    split_ifs at hin with hcase <;> omega

lemma or_testBit (x y : UInt8) (t : ℕ) :
    (x ||| y).toNat.testBit t = (x.toNat.testBit t || y.toNat.testBit t) := by
  rw [UInt8.toNat_or, Nat.testBit_lor]

section Step
variable {src : List UInt8} {inl outl pos : ℕ} {done : List UInt8} {acc byte : UInt8}

/-- Reading one step's bits leaves the output stream equal to the source stream. -/
lemma Moved.bits_step (hi : 0 < inl) (hi8 : inl ≤ 8) (ho : 0 < outl) (ho8 : outl ≤ 8)
    (h : Moved src inl outl done acc pos) (hb : src[pos / inl]? = some byte)
    (hclean : Clean inl byte) {k : ℕ} (hk : k < pos + incr inl outl pos) :
    bit outl (done ++ [acc ||| chunk byte inl outl pos]) k = bit inl src k := by
  have hstep_in := incr_le_in inl outl pos
  have hstep_out := incr_le_out inl outl pos
  have hmod_in := Nat.mod_lt pos hi
  have hmod_out := Nat.mod_lt pos ho
  have hpos : done.length * outl + pos % outl = pos := by
    rw [h.cells, Nat.mul_comm]; exact Nat.div_add_mod pos outl
  by_cases hold : k < done.length * outl
  · rw [bit_append_left hold, ← h.bits k (by omega), bit_append_left hold]
  obtain ⟨j, rfl⟩ : ∃ j, k = done.length * outl + j := ⟨k - done.length * outl, by omega⟩
  have hj : j < outl := by omega
  rw [bit_append_right ho, bit_singleton _ hj, or_testBit,
    chunk_testBit hi8 ho8 hclean h.aligned (by omega)]
  by_cases hwritten : j < pos % outl
  · rw [decide_eq_false (by omega), Bool.false_and, Bool.or_false, ← h.bits _ (by omega),
      bit_append_right ho, bit_singleton _ hj]
  · have hfresh : acc.toNat.testBit (7 - j) = false := h.clear _ (by omega)
    have hin : pos % inl + (j - pos % outl) < inl := by omega
    have hk' : done.length * outl + j = inl * (pos / inl) + (pos % inl + (j - pos % outl)) := by
      have := Nat.div_add_mod pos inl
      omega
    rw [hfresh, Bool.false_or, decide_eq_true (by omega), Bool.true_and, hk']
    simp [bit, Nat.mul_add_div hi, Nat.div_eq_of_lt hin, Nat.mod_eq_of_lt hin,
      List.getD_eq_getElem?_getD, hb]

lemma Moved.clear_step (hi8 : inl ≤ 8) (ho8 : outl ≤ 8)
    (h : Moved src inl outl done acc pos) (hclean : Clean inl byte) (ho : 0 < outl)
    {t : ℕ} (ht : t < 8 - (pos % outl + incr inl outl pos)) :
    (acc ||| chunk byte inl outl pos).toNat.testBit t = false := by
  have hmod_out := Nat.mod_lt pos ho
  have hc := chunk_testBit (j := 7 - t) hi8 ho8 hclean h.aligned (by omega)
  rw [show 7 - (7 - t) = t by omega] at hc
  rw [or_testBit, h.clear t (by omega), hc, decide_eq_false, Bool.false_and, Bool.or_false]
  rcases incr_eq inl outl pos with he | he <;> omega

/-- One iteration keeps `Moved`, whether or not it completes the output cell. -/
lemma Moved.step (hi : 0 < inl) (hi8 : inl ≤ 8) (ho : 0 < outl) (ho8 : outl ≤ 8)
    (h : Moved src inl outl done acc pos) (hb : src[pos / inl]? = some byte)
    (hclean : Clean inl byte) :
    if pos % outl + incr inl outl pos ≥ outl then
      Moved src inl outl (done ++ [acc ||| chunk byte inl outl pos]) 0 (pos + incr inl outl pos)
    else
      Moved src inl outl done (acc ||| chunk byte inl outl pos) (pos + incr inl outl pos) := by
  have hin := add_div_mod hi (incr_le_in inl outl pos)
  have hout := add_div_mod ho (incr_le_out inl outl pos)
  have hbits := fun k => h.bits_step (k := k) hi hi8 ho ho8 hb hclean
  have hclear := fun t => h.clear_step (t := t) hi8 ho8 hclean ho
  have haligned : (pos + incr inl outl pos) % inl = 0 ∨ (pos + incr inl outl pos) % outl = 0 := by
    have := Nat.mod_lt pos hi
    have := Nat.mod_lt pos ho
    rcases incr_eq inl outl pos with he | he
    · rw [if_pos (by omega)] at hin; exact .inl hin.2
    · rw [if_pos (by omega)] at hout; exact .inr hout.2
  split_ifs at hout ⊢ with hcell
  · refine ⟨by simp [h.cells, hout.1], haligned, fun k hk => ?_, by simp, ?_⟩
    · have hlen : k < (done ++ [acc ||| chunk byte inl outl pos]).length * outl := by
        have hdiv := Nat.div_add_mod pos outl
        have := incr_le_out inl outl pos
        have := Nat.mod_lt pos ho
        simp only [List.length_append, List.length_singleton, h.cells, Nat.add_mul]
        rw [Nat.mul_comm (pos / outl)]
        omega
      rw [bit_append_left hlen, hbits k hk]
    · intro x hx
      rcases List.mem_append.mp hx with hx | hx
      · exact h.clean x hx
      · rw [List.mem_singleton.mp hx]
        intro t ht
        have := incr_le_out inl outl pos
        have := Nat.mod_lt pos ho
        exact hclear t (by omega)
  · refine ⟨by simp [h.cells, hout.1], haligned, hbits, fun t ht => ?_, h.clean⟩
    rw [hout.2] at ht
    exact hclear t ht

lemma Moved.clean_cells (h : Moved src inl outl done acc pos) (ho : 0 < outl) :
    ∀ x ∈ done ++ [acc], Clean outl x := by
  intro x hx
  rcases List.mem_append.mp hx with hx | hx
  · exact h.clean x hx
  · rw [List.mem_singleton.mp hx]
    have := Nat.mod_lt pos ho
    exact fun t ht => h.clear t (by omega)

/-- Behind the moved bits the stream reads as zero. -/
lemma Moved.bits_tail (h : Moved src inl outl done acc pos) (ho : 0 < outl) (ho8 : outl ≤ 8)
    {k : ℕ} (hk : pos ≤ k) : bit outl (done ++ [acc]) k = false := by
  have hpos : done.length * outl + pos % outl = pos := by
    rw [h.cells, Nat.mul_comm]; exact Nat.div_add_mod pos outl
  obtain ⟨j, rfl⟩ : ∃ j, k = done.length * outl + j := ⟨k - done.length * outl, by omega⟩
  rw [bit_append_right ho]
  by_cases hj : j < outl
  · rw [bit_singleton _ hj]
    exact h.clear _ (by omega)
  · have hdiv : 1 ≤ j / outl := (Nat.le_div_iff_mul_le ho).2 (by omega)
    obtain ⟨i, hi⟩ : ∃ i, j / outl = i + 1 := ⟨j / outl - 1, by omega⟩
    simp [bit, hi]

end Step

lemma wrap_eq {n : ℕ} (h : n < 2 ^ 32) : wrap n = n := Nat.mod_eq_of_lt h

lemma wrap_lt (n : ℕ) : wrap n < 2 ^ 32 := Nat.mod_lt _ (by norm_num)

/-- Within the `unsigned` range the loop stops after the last source bit, with every
write inside the allocation. -/
theorem reinterpretLoop_spec {src : List UInt8} {inlen inl outl : ℕ} (hi : 0 < inl)
    (hi8 : inl ≤ 8) (ho : 0 < outl) (ho8 : outl ≤ 8) (hlen : inlen ≤ src.length)
    (hclean : ∀ x ∈ src.take inlen, Clean inl x) (hwrap : inlen * inl < 2 ^ 32) (fuel : ℕ)
    {done : List UInt8} {acc : UInt8} {pos : ℕ} (h : Moved src inl outl done acc pos)
    (hpos : pos < inlen * inl) (hfuel : inlen * inl - pos < fuel) :
    ∃ done' acc', reinterpretLoop src inlen (inlen * inl / outl + 1) inl outl fuel done acc
        (pos / inl) pos = .ok (done' ++ [acc'], inlen * inl) ∧
      Moved src inl outl done' acc' (inlen * inl) := by
  induction fuel generalizing done acc pos with
  | zero => omega
  | succ fuel ih =>
    have hcur : pos / inl < inlen := Nat.div_lt_of_lt_mul (by rwa [Nat.mul_comm] at hpos)
    have hcur' : pos / inl < src.length := by omega
    obtain ⟨byte, hb⟩ : ∃ byte, src[pos / inl]? = some byte :=
      ⟨_, List.getElem?_eq_getElem hcur'⟩
    have hbclean : Clean inl byte := by
      apply hclean
      rw [List.mem_iff_getElem?]
      exact ⟨pos / inl, by simp [hcur, hb]⟩
    have hnext := h.step hi hi8 ho ho8 hb hbclean
    have hout := add_div_mod ho (incr_le_out inl outl pos)
    have hincr := incr_pos hi ho pos
    have hle := add_incr_le outl hi hpos
    have hfinish := finish_iff outl hi hpos
    have hroom : pos % outl + incr inl outl pos ≥ outl →
        done.length + 1 < inlen * inl / outl + 1 := by
      intro hc
      rw [if_pos hc] at hout
      rw [h.cells, ← hout.1]
      exact Nat.lt_succ_of_le (Nat.div_le_div_right hle)
    simp only [reinterpretLoop, hb, hfinish, srccur_next hi,
      wrap_eq (show pos + incr inl outl pos < 2 ^ 32 by omega)]
    by_cases hcell : pos % outl + incr inl outl pos ≥ outl
    · rw [if_pos hcell] at hnext ⊢
      rw [if_pos (hroom hcell)]
      split_ifs with hfin
      · rw [hfin] at hnext ⊢
        exact ⟨_, _, by simp, hnext⟩
      · exact ih hnext (by omega) (by omega)
    · rw [if_neg hcell] at hnext ⊢
      split_ifs with hfin
      · rw [hfin] at hnext ⊢
        exact ⟨_, _, by simp, hnext⟩
      · exact ih hnext (by omega) (by omega)

lemma bitReinterpret_moved (src : List UInt8) (inlen inl outl : ℕ) (hi : 0 < inl)
    (hi8 : inl ≤ 8) (ho : 0 < outl) (ho8 : outl ≤ 8) (hpos : 0 < inlen)
    (hlen : inlen ≤ src.length) (hclean : ∀ x ∈ src.take inlen, Clean inl x)
    (hwrap : inlen * inl < 2 ^ 32) :
    ∃ done acc, bitReinterpret src inlen inl outl =
        .ok (done ++ [acc], inlen * inl / outl + if inlen * inl % outl > 0 then 1 else 0) ∧
      Moved src inl outl done acc (inlen * inl) := by
  have hpos' : 0 < inlen * inl := Nat.mul_pos hpos hi
  have hfuel : inlen * inl - 0 < 16 * inlen + 16 := by
    have := Nat.mul_le_mul_left inlen hi8
    omega
  obtain ⟨done, acc, hrun, hmoved⟩ := reinterpretLoop_spec hi hi8 ho ho8 hlen hclean hwrap _
    (Moved.start src inl outl) hpos' hfuel
  refine ⟨done, acc, ?_, hmoved⟩
  simp only [Nat.zero_div] at hrun
  simp [bitReinterpret, wrap_eq hwrap, hrun, hmoved.cells]

/-- The regrouped stream: the output carries the source bits, padded with zero bits. -/
theorem bitReinterpret_spec (src : List UInt8) (inlen inl outl : ℕ) (hi : 0 < inl)
    (hi8 : inl ≤ 8) (ho : 0 < outl) (ho8 : outl ≤ 8) (hpos : 0 < inlen)
    (hlen : inlen ≤ src.length) (hclean : ∀ x ∈ src.take inlen, Clean inl x)
    (hwrap : inlen * inl < 2 ^ 32) :
    ∃ out, bitReinterpret src inlen inl outl =
        .ok (out, inlen * inl / outl + if inlen * inl % outl > 0 then 1 else 0) ∧
      out.length = inlen * inl / outl + 1 ∧ (∀ x ∈ out, Clean outl x) ∧
      ∀ k, k < inlen * inl → bit outl out k = bit inl src k := by
  obtain ⟨done, acc, hrun, hmoved⟩ :=
    bitReinterpret_moved src inlen inl outl hi hi8 ho ho8 hpos hlen hclean hwrap
  exact ⟨done ++ [acc], hrun, by simp [hmoved.cells], hmoved.clean_cells ho, hmoved.bits⟩

/-- When `8 * len` wraps, the allocation is too short and the loop overruns it. -/
lemma reinterpretLoop_overrun {src : List UInt8} {len : ℕ} (hbig : 2 ^ 32 ≤ len * 8) (fuel : ℕ)
    (done : List UInt8) {acc : UInt8} (pos : ℕ) (hcells : done.length = pos / 6)
    (hroom : pos / 6 < wrap (len * 8) / 6 + 1) (r : List UInt8 × ℕ) :
    reinterpretLoop src len (wrap (len * 8) / 6 + 1) 8 6 fuel done acc (pos / 8) pos ≠ .ok r := by
  induction fuel generalizing done acc pos with
  | zero => simp [reinterpretLoop]
  | succ fuel ih =>
    have hsplit : len * 8 = 2 ^ 32 * (len * 8 / 2 ^ 32) + wrap (len * 8) :=
      (Nat.div_add_mod _ _).symm
    have hquot : 1 ≤ len * 8 / 2 ^ 32 := (Nat.le_div_iff_mul_le (by norm_num)).2 (by omega)
    have hlt := wrap_lt (len * 8)
    have hmul : wrap (len * 8) % 8 = 0 := by unfold wrap; omega
    have hstep := incr_le_in 8 6 pos
    have hout := add_div_mod (w := 6) (by norm_num) (incr_le_out 8 6 pos)
    have hgo : ¬ (pos % 8 + incr 8 6 pos ≥ 8 ∧ len ≤ pos / 8 + 1) := by omega
    simp only [reinterpretLoop, if_neg hgo, srccur_next (show 0 < 8 by norm_num)]
    cases src[pos / 8]? with
    | none => simp
    | some byte =>
      dsimp only
      split_ifs with hcell hfit
      · rw [if_pos hcell] at hout
        rw [wrap_eq (show pos + incr 8 6 pos < 2 ^ 32 by omega)]
        exact ih _ _ (by simp; omega) (by omega)
      · simp
      · rw [if_neg hcell] at hout
        rw [wrap_eq (show pos + incr 8 6 pos < 2 ^ 32 by omega)]
        exact ih _ _ (by omega) (by omega)

/-! ### Encoding, then decoding -/

lemma clean_six_toNat {x : UInt8} (hx : Clean 6 x) : (x.toNat >>> 2) <<< 2 = x.toNat := by
  apply Nat.eq_of_testBit_eq
  intro t
  rw [Nat.testBit_shiftLeft, Nat.testBit_shiftRight]
  by_cases ht : t ≥ 2
  · simp [ht, show 2 + (t - 2) = t by omega]
  · rw [hx t (by omega)]
    simp [ht]

lemma alphabet_sextet : ∀ i : Fin 64, b64Alphabet.getD i 0 ≠ pad ∧
    sextet (b64Alphabet.getD i 0) = .ok (UInt8.ofNat (i.val <<< 2)) := by
  decide +kernel

/-- The character that encodes a sextet. -/
def letter (x : UInt8) : UInt8 := b64Alphabet.getD (x.toNat >>> 2) 0

lemma letter_spec {x : UInt8} (hx : Clean 6 x) : letter x ≠ pad ∧ sextet (letter x) = .ok x := by
  have hlt : x.toNat >>> 2 < 64 := by
    have := x.toNat_lt
    rw [Nat.shiftRight_eq_div_pow]
    omega
  have h := alphabet_sextet ⟨x.toNat >>> 2, hlt⟩
  rwa [show UInt8.ofNat ((x.toNat >>> 2) <<< 2) = x by rw [clean_six_toNat hx]; simp] at h

lemma mapM_sextet {xs : List UInt8} (hx : ∀ x ∈ xs, Clean 6 x) :
    (xs.map letter).mapM sextet = .ok xs := by
  induction xs with
  | nil => rfl
  | cons x xs ih =>
    simp [List.mapM_cons, (letter_spec (hx x (by simp))).2, ih fun y hy => hx y (by simp [hy])]

/-- A completed padding loop has only appended, and has reached its exit test. -/
lemma padLoop_ok {len size fuel : ℕ} {o r : List UInt8} (h : padLoop len size fuel o = .ok r) :
    ∃ p, r = o ++ List.replicate p pad ∧ wrap (r.length * 6) / 24 = wrap (len + 2) / 3 := by
  induction fuel generalizing o with
  | zero => simp [padLoop] at h
  | succ fuel ih =>
    simp only [padLoop] at h
    split_ifs at h with hmore hroom
    · obtain ⟨p, hr, hexit⟩ := ih h
      exact ⟨p + 1, by rw [hr, List.replicate_succ]; simp, hexit⟩
    · obtain rfl := Except.ok.inj h
      exact ⟨0, by simp, not_not.mp hmore⟩

/-- The padding loop stops at the first multiple of four characters. -/
lemma padLoop_run (len n p fuel : ℕ) (o : List UInt8) (hlen : o.length + p = 4 * n)
    (hp : p < 4) (hn : (len + 2) / 3 = n) (hwrap : 24 * n < 2 ^ 32) (hl : len + 2 < 2 ^ 32)
    (hfuel : p < fuel) :
    padLoop len (4 * n + 1) fuel o = .ok (o ++ List.replicate p pad) := by
  induction p generalizing o fuel with
  | zero =>
    obtain _ | fuel := fuel
    · omega
    · have : wrap (o.length * 6) / 24 = wrap (len + 2) / 3 := by
        rw [wrap_eq (by omega), wrap_eq hl, hn]; omega
      simp [padLoop, this]
  | succ p ih =>
    obtain _ | fuel := fuel
    · omega
    · have hmore : wrap (o.length * 6) / 24 ≠ wrap (len + 2) / 3 := by
        rw [wrap_eq (by omega), wrap_eq hl, hn]; omega
      rw [padLoop, if_pos hmore, if_pos (by omega), ih _ _ (by simp; omega) (by omega) (by omega),
        List.replicate_succ]
      simp

/-- The sextets of a byte string; the text is their letters and the padding. -/
structure Sextets (s xs : List UInt8) : Prop where
  length : xs.length = (s.length * 8 + 5) / 6
  clean : ∀ x ∈ xs, Clean 6 x
  bits : ∀ k, k < s.length * 8 → bit 6 xs k = bit 8 s k

/-- The bits behind those of the byte string are zero. -/
lemma regroup_sextets {s : List UInt8} (hs : 0 < s.length) (hw : s.length * 8 < 2 ^ 32) :
    ∃ out olen, bitReinterpret s s.length 8 6 = .ok (out, olen) ∧ Sextets s (out.take olen) ∧
      ∀ k, s.length * 8 ≤ k → k < (out.take olen).length * 6 → bit 6 (out.take olen) k = false := by
  obtain ⟨done, acc, hrun, hmoved⟩ := bitReinterpret_moved s s.length 8 6
    (by norm_num) le_rfl (by norm_num) (by norm_num) hs le_rfl (fun x _ => clean_eight x) hw
  have holen : (s.length * 8 / 6 + if s.length * 8 % 6 > 0 then 1 else 0) =
      (s.length * 8 + 5) / 6 := by
    split_ifs <;> omega
  rw [holen] at hrun
  have hlen : (done ++ [acc]).length = s.length * 8 / 6 + 1 := by simp [hmoved.cells]
  have htake : ((done ++ [acc]).take ((s.length * 8 + 5) / 6)).length = (s.length * 8 + 5) / 6 := by
    rw [List.length_take, hlen]; omega
  refine ⟨done ++ [acc], _, hrun, ⟨htake, ?_, fun k hk => ?_⟩, fun k hk hk' => ?_⟩
  · exact fun x hx => hmoved.clean_cells (by norm_num) x (List.mem_of_mem_take hx)
  · rw [bit_take (by omega), hmoved.bits k hk]
  · rw [bit_take (by omega), hmoved.bits_tail (by norm_num) (by norm_num) hk]

/-- The text is the letters of the sextets, the last one filled up with zero bits, and padding. -/
lemma base64Encode_filled {s : List UInt8} (hs : 0 < s.length)
    (hw : 24 * ((s.length + 2) / 3) < 2 ^ 32) :
    ∃ xs, Sextets s xs ∧ (∀ k, s.length * 8 ≤ k → k < xs.length * 6 → bit 6 xs k = false) ∧
      base64Encode s s.length =
        .ok (xs.map letter ++ List.replicate (4 * ((s.length + 2) / 3) - xs.length) pad) := by
  obtain ⟨out, olen, hrun, hsx, hzero⟩ := regroup_sextets hs (by omega)
  refine ⟨out.take olen, hsx, hzero, ?_⟩
  have hl := hsx.length
  have hsize : wrap (wrap (s.length + 2) / 3 * 4 + 1) = 4 * ((s.length + 2) / 3) + 1 := by
    rw [wrap_eq (show s.length + 2 < 2 ^ 32 by omega), wrap_eq (by omega)]; ring
  have hpad := padLoop_run s.length ((s.length + 2) / 3)
    (4 * ((s.length + 2) / 3) - (out.take olen).length) (4 * ((s.length + 2) / 3) + 1 + 1)
    ((out.take olen).map letter) (by rw [List.length_map]; omega) (by omega) rfl hw (by omega)
    (by omega)
  simp only [base64Encode, hrun, Run.bind_ok, hsize]
  change (padLoop _ _ _ ((out.take olen).map letter)).bind _ = _
  rw [hpad]
  simp only [Except.bind, List.length_append, List.length_map, List.length_replicate]
  rw [if_pos (by omega)]

theorem base64Encode_run {s : List UInt8} (hs : 0 < s.length)
    (hw : 24 * ((s.length + 2) / 3) < 2 ^ 32) :
    ∃ xs, Sextets s xs ∧ base64Encode s s.length =
      .ok (xs.map letter ++ List.replicate (4 * ((s.length + 2) / 3) - xs.length) pad) := by
  obtain ⟨xs, hsx, -, henc⟩ := base64Encode_filled hs hw
  exact ⟨xs, hsx, henc⟩

lemma strip_pad {xs : List UInt8} (hx : ∀ x ∈ xs, Clean 6 x) (p : ℕ) :
    ((xs.map letter ++ List.replicate p pad).reverse.dropWhile (· = pad)).reverse =
      xs.map letter := by
  rw [List.reverse_append, List.reverse_replicate,
    List.dropWhile_append_of_pos (by simp), List.reverse_eq_iff]
  rw [← List.map_reverse]
  cases hr : xs.reverse with
  | nil => rfl
  | cons y ys =>
    have hy : y ∈ xs := by
      have : y ∈ xs.reverse := by simp [hr]
      simpa using this
    rw [List.map_cons, List.dropWhile_cons_of_neg]
    simpa using (letter_spec (hx y hy)).1

/-- Decoding sextet letters and `p` padding characters. -/
theorem base64Decode_run {xs : List UInt8} (hx : ∀ x ∈ xs, Clean 6 x) (hpos : 0 < xs.length)
    (p : ℕ) (hw : xs.length * 6 < 2 ^ 32) (hp : xs.length + p < 2 ^ 32) :
    ∃ out, base64Decode (xs.map letter ++ List.replicate p pad) =
        .ok (out, wrap ((xs.length * 6 + 7) / 8 + 2 ^ 32 - p)) ∧
      xs.length * 6 / 8 ≤ out.length ∧ ∀ k, k < xs.length * 6 → bit 8 out k = bit 6 xs k := by
  set rest := (xs.map letter ++ List.replicate p pad).drop xs.length ++ [0]
  obtain ⟨out, hrun, hlen, -, hbits⟩ := bitReinterpret_spec (xs ++ rest)
    xs.length 6 8 (by norm_num) (by norm_num) (by norm_num) le_rfl
    hpos (by simp) (by simpa using hx) hw
  have holen : (xs.length * 6 / 8 + if xs.length * 6 % 8 > 0 then 1 else 0) =
      (xs.length * 6 + 7) / 8 := by
    split_ifs <;> omega
  rw [holen] at hrun
  refine ⟨out, ?_, by omega, fun k hk => ?_⟩
  · have hslen : wrap (xs.map letter ++ List.replicate p pad).length = xs.length + p := by
      rw [wrap_eq (by simpa using hp)]; simp
    have hwhole : (xs.map letter ++ List.replicate p pad).take (xs.length + p) =
        xs.map letter ++ List.replicate p pad := List.take_of_length_le (by simp)
    simp only [base64Decode, hslen, hwhole, strip_pad hx, mapM_sextet hx, Run.bind_ok,
      List.length_map, List.append_assoc]
    rw [show xs ++ ((xs.map letter ++ List.replicate p pad).drop xs.length ++ [0]) = xs ++ rest
      from rfl, hrun]
    simp
  · rw [hbits k hk, bit_append_left hk]

/-- Applying the decoder to the encoder's text gives back the length and the bytes;
`len` is converted to `unsigned` by the call. -/
def RoundTrips (s : List UInt8) : Prop :=
  ∃ text out len, base64Encode s (wrap s.length) = .ok text ∧
    base64Decode text = .ok (out, len) ∧ len = s.length ∧ out.take len = s

lemma base64Encode_nil (text : List UInt8) : base64Encode [] 0 ≠ .ok text := by
  have : base64Encode [] 0 = .error .undefined := by decide
  simp [this]

lemma base64Encode_overrun {s : List UInt8} {len : ℕ} (hbig : 2 ^ 32 ≤ len * 8)
    (text : List UInt8) : base64Encode s len ≠ .ok text := by
  intro h
  simp only [base64Encode, bitReinterpret, Run.bind_eq_ok] at h
  obtain ⟨_, ⟨r, hr, -⟩, -⟩ := h
  exact reinterpretLoop_overrun hbig _ [] 0 rfl (by omega) r hr

/-- The exit test of the padding loop cannot be met once six times its target wraps. -/
lemma base64Encode_pad_overrun {s : List UInt8} {len : ℕ} (hlen : len + 2 < 2 ^ 32)
    (hbig : 2 ^ 32 ≤ 24 * ((len + 2) / 3)) (text : List UInt8) :
    base64Encode s len ≠ .ok text := by
  intro h
  simp only [base64Encode, Run.bind_eq_ok] at h
  obtain ⟨_, -, r, hpad, -⟩ := h
  obtain ⟨_, -, hexit⟩ := padLoop_ok hpad
  rw [wrap_eq hlen] at hexit
  have := wrap_lt (r.length * 6)
  omega

/-- The decoded length is the byte length, less one when a single byte is left over. -/
lemma decode_encode_run {s : List UInt8} (hs : 0 < s.length)
    (hw : 24 * ((s.length + 2) / 3) < 2 ^ 32) :
    ∃ text out, base64Encode s s.length = .ok text ∧ base64Decode text =
      .ok (out, if s.length % 3 = 1 then s.length - 1 else s.length) ∧ s.length ≤ out.length ∧
      ∀ k, k < s.length * 8 → bit 8 out k = bit 8 s k := by
  obtain ⟨xs, hsx, henc⟩ := base64Encode_run hs hw
  have hl := hsx.length
  obtain ⟨out, hdec, hlen, hbits⟩ := base64Decode_run hsx.clean (by omega)
    (4 * ((s.length + 2) / 3) - xs.length) (by omega) (by omega)
  refine ⟨_, out, henc, ?_, by omega, fun k hk => ?_⟩
  · rw [hdec]
    congr 2
    unfold wrap
    split_ifs <;> omega
  · rw [hbits k (by omega), hsx.bits k hk]

/-- The round trip succeeds exactly on the non-empty byte strings whose bit count fits
in `unsigned` and whose length does not leave a single byte in the last group. -/
theorem base64_roundTrips_iff (s : List UInt8) :
    RoundTrips s ↔ 0 < s.length ∧ s.length * 8 < 2 ^ 32 ∧ s.length % 3 ≠ 1 := by
  constructor
  · rintro ⟨text, out, len, henc, hdec, hlen, -⟩
    have hlt : len < 2 ^ 32 := by
      simp only [base64Decode, Run.bind_eq_ok] at hdec
      obtain ⟨_, -, _, -, hres⟩ := hdec
      rw [← (Prod.mk.inj (Except.ok.inj hres)).2]
      exact wrap_lt _
    rw [wrap_eq (hlen ▸ hlt)] at henc
    have hpos : 0 < s.length := by
      rcases Nat.eq_zero_or_pos s.length with h0 | h0
      · rw [List.eq_nil_of_length_eq_zero h0] at henc
        exact absurd henc (base64Encode_nil text)
      · exact h0
    have hbits : s.length * 8 < 2 ^ 32 := by
      by_contra hbig
      exact base64Encode_overrun (by omega) text henc
    refine ⟨hpos, hbits, fun hmod => ?_⟩
    by_cases hw : 24 * ((s.length + 2) / 3) < 2 ^ 32
    · obtain ⟨text', out', henc', hdec', -⟩ := decode_encode_run hpos hw
      obtain rfl := Except.ok.inj (henc.symm.trans henc')
      have := (Prod.mk.inj (Except.ok.inj (hdec.symm.trans hdec'))).2
      rw [if_pos hmod] at this
      omega
    · exact base64Encode_pad_overrun (by omega) (by omega) text henc
  · rintro ⟨hpos, hbits, hmod⟩
    obtain ⟨text, out, henc, hdec, hlen, hstream⟩ := decode_encode_run hpos (by omega)
    rw [if_neg hmod] at hdec
    refine ⟨text, out, s.length, by rwa [wrap_eq (by omega)], hdec, rfl, ?_⟩
    apply ext_of_bit (w := 8) (by norm_num) le_rfl
    · simp [hlen]
    · exact fun x _ => clean_eight x
    · exact fun x _ => clean_eight x
    · intro k hk
      have hk' : k < s.length * 8 := by simpa [hlen] using hk
      rw [bit_take hk', hstream k hk']

/-- One byte encodes to two letters and two padding characters, and decodes to length 0. -/
theorem base64_single_byte_lost : ¬ ∀ s, RoundTrips s := by
  intro h
  obtain ⟨text, out, len, henc, hdec, hlen, -⟩ := h [77]
  have henc' : base64Encode [77] (wrap 1) = .ok [84, 81, 61, 61] := by decide
  obtain rfl := Except.ok.inj (henc.symm.trans henc')
  have hdec' : base64Decode [84, 81, 61, 61] = .ok ([77, 0], 0) := by decide
  have := (Prod.mk.inj (Except.ok.inj (hdec.symm.trans hdec'))).2
  simp at hlen
  omega

end CoreCommon.Base64
