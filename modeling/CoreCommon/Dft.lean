import Mathlib
import CoreCommon.Fault

/-! The mixed-radix Fourier transform over a commutative ring: even lengths are halved, an
odd length is summed up directly and added to every block of the result. -/
namespace CoreCommon.Dft
variable {R : Type}

/-- `l[i]`. -/
def read (l : List R) (i : ℕ) : Run R :=
  match l[i]? with
  | some x => .ok x
  | none => .error .undefined

/-- The values of `f` below `N`. -/
def table (N : ℕ) (f : ℕ → R) : List R := (List.range N).map f

variable [CommRing R]

/-- `fftres[i] += x`. -/
def addAt (x : R) (fftres : List R) (i : ℕ) : Run (List R) := do
  let y ← read fftres i
  .ok (fftres.set i (y + x))

/-- A summand, for every block of the result; `i`, `vi` and what is computed from them are
`unsigned`, and `v` is the pointer moved on by `p`. -/
def addTerm (v coeffs : List R) (p res stride offset i : ℕ) (fftres : List R) (vi : ℕ) :
    Run (List R) := do
  let x ← read v (p + vi * stride % 2 ^ 32)
  let y ← read coeffs
    ((stride * (i * vi % 2 ^ 32) % 2 ^ 32 + i * offset % 2 ^ 32) % 2 ^ 32 % res)
  (List.range stride).foldlM (fun fftres c => addAt (x * y) fftres ((i + res * c) % 2 ^ 32)) fftres

/-- `fft_rec`. The `int`s do not leave the length of the whole transform. -/
def fftRec (v coeffs : List R) : ℕ → List R → ℕ → ℕ → ℕ → ℕ → Run (List R)
  | 0, _, _, _, _, _ => .error .diverges
  | fuel + 1, fftres, p, res, stride, offset =>
    if res % 2 = 0 then do
      let fftres ← fftRec v coeffs fuel fftres p (res / 2) (stride * 2) offset
      fftRec v coeffs fuel fftres (p + stride) (res / 2) (stride * 2) (offset + stride)
    else
      (List.range res).foldlM (fun fftres i =>
        (List.range res).foldlM (addTerm v coeffs p res stride offset i) fftres) fftres

def fftSingle (fuel : ℕ) (v coeffs : List R) (res : ℕ) : Run (List R) :=
  fftRec v coeffs fuel (List.replicate res 0) 0 res 1 0

/-- The discrete Fourier transform of length `N` with root `w`. -/
def dft (N : ℕ) (w : R) (v : List R) : List R :=
  table N fun k => ∑ n ∈ Finset.range N, v.getD n 0 * w ^ (k * n)

/-! ### Loops -/

/-- A loop whose every round leads from one given state to the next. -/
lemma foldlM_range_ok {β : Type} {f : β → ℕ → Run β} (s : ℕ → β) {n : ℕ}
    (hf : ∀ k < n, f (s k) k = .ok (s (k + 1))) : (List.range n).foldlM f (s 0) = .ok (s n) := by
  induction n with
  | zero => rfl
  | succ n ih =>
    rw [List.range_succ, List.foldlM_append, ih fun k hk => hf k (Nat.lt_succ_of_lt hk), Run.bind_ok,
      List.foldlM_cons, hf n (Nat.lt_succ_self n), Run.bind_ok]
    rfl

omit [CommRing R] in
lemma table_congr {N : ℕ} {f g : ℕ → R} (h : ∀ j < N, f j = g j) : table N f = table N g :=
  List.map_congr_left fun j hj => h j (List.mem_range.1 hj)

omit [CommRing R] in
lemma read_table {N i : ℕ} (hi : i < N) (f : ℕ → R) : read (table N f) i = .ok (f i) := by
  unfold read table
  rw [List.getElem?_map, List.getElem?_range hi]
  rfl

lemma read_getD {v : List R} {i : ℕ} (hi : i < v.length) : read v i = .ok (v.getD i 0) := by
  unfold read
  rw [List.getElem?_eq_getElem hi, List.getD_eq_getElem _ _ hi]

lemma addAt_table {N i : ℕ} (hi : i < N) (f : ℕ → R) (x : R) :
    addAt x (table N f) i = .ok (table N fun j => f j + if j = i then x else 0) := by
  rw [addAt, read_table hi, Run.bind_ok]
  refine congrArg _ (List.ext_getElem? fun j => ?_)
  rw [table, table, List.getElem?_set, List.length_map, List.length_range]
  by_cases hj : i = j
  · subst hj
    simp [hi]
  · rw [if_neg hj, List.getElem?_map, List.getElem?_map]
    cases h : (List.range N)[j]? with
    | none => rfl
    | some j' =>
      obtain ⟨hlt, rfl⟩ := List.getElem?_eq_some_iff.1 h
      rw [List.getElem_range, Option.map_some, Option.map_some, if_neg (Ne.symm hj), add_zero]

section leaf
variable {N res stride : ℕ} {f : ℕ → R}

/-- One summand goes to all outputs of a residue class. -/
lemma addBlocks (hres : res * stride = N) (hN : N < 2 ^ 32) {i : ℕ} (hi : i < res) (x : R) :
    (List.range stride).foldlM (fun fftres c => addAt x fftres ((i + res * c) % 2 ^ 32))
      (table N f) = .ok (table N fun j => f j + if j % res = i then x else 0) := by
  have hloop := foldlM_range_ok
    (fun c => table N fun j => f j + if j % res = i ∧ j / res < c then x else 0) (n := stride)
    (f := fun fftres c => addAt x fftres ((i + res * c) % 2 ^ 32)) fun c hc => ?_
  · simp only [Nat.not_lt_zero, and_false, if_false, add_zero] at hloop
    rw [hloop]
    refine congrArg _ (table_congr fun j hj => ?_)
    simp only [and_iff_left (Nat.div_lt_of_lt_mul (hres ▸ hj))]
  · have hlt : i + res * c < N :=
      calc i + res * c < res * (c + 1) := by rw [Nat.mul_succ]; omega
        _ ≤ N := hres ▸ Nat.mul_le_mul_left _ hc
    rw [Nat.mod_eq_of_lt (hlt.trans hN), addAt_table hlt]
    refine congrArg _ (table_congr fun j _ => ?_)
    have hj : j = i + res * c ↔ j % res = i ∧ j / res = c := by
      constructor
      · rintro rfl
        rw [Nat.add_mul_mod_self_left, Nat.add_mul_div_left _ _ (by omega), Nat.mod_eq_of_lt hi,
          Nat.div_eq_of_lt hi, Nat.zero_add]
        exact ⟨rfl, rfl⟩
      · rintro ⟨rfl, rfl⟩
        exact (Nat.mod_add_div j res).symm
    simp only [hj, Nat.lt_succ_iff_lt_or_eq, add_assoc]
    by_cases h : j % res = i
    · rcases lt_trichotomy (j / res) c with hlt | heq | hgt
      · simp [h, hlt, hlt.ne]
      · simp [h, heq]
      · simp [h, hgt.not_gt, hgt.ne']
    · simp [h]

variable {v coeffs : List R} {a : ℕ → R} {offset : ℕ}

/-- The exponent that the code looks up for output `k` and input `n`. -/
def exponent (res k n : ℕ) : ℕ := k % res * n % 2 ^ 32 % res

/-- What a sub-transform adds to output `j` for the input at `n`. -/
def term (v : List R) (a : ℕ → R) (res j n : ℕ) : R := v.getD n 0 * a (exponent res j n)

omit [CommRing R] in
lemma exponent_eq {i : ℕ} (hi : i < res) (vi : ℕ) :
    (stride * (i * vi % 2 ^ 32) % 2 ^ 32 + i * offset % 2 ^ 32) % 2 ^ 32 % res =
      exponent res i (offset + vi * stride) := by
  rw [exponent, Nat.mod_eq_of_lt hi, Nat.mul_mod_mod, ← Nat.add_mod]
  congr 2
  ring

lemma addTerm_table (hres : res * stride = N) (hN : N < 2 ^ 32) (hv : v.length = N)
    (hoffset : offset < stride) {i vi : ℕ} (hi : i < res) (hvi : vi < res) :
    addTerm v (table N a) offset res stride offset i (table N f) vi =
      .ok (table N fun j => f j + if j % res = i then term v a res j (offset + vi * stride) else 0) := by
  have hn : offset + vi * stride < N :=
    calc offset + vi * stride < (vi + 1) * stride := by rw [Nat.succ_mul]; omega
      _ ≤ N := hres ▸ Nat.mul_le_mul_right _ hvi
  have hexp : exponent res i (offset + vi * stride) < N := by
    have hle : res ≤ N := hres ▸ Nat.le_mul_of_pos_right _ (by omega)
    exact (Nat.mod_lt _ (by omega)).trans_le hle
  rw [addTerm, Nat.mod_eq_of_lt (by omega : vi * stride < 2 ^ 32), read_getD (hv ▸ hn), Run.bind_ok,
    exponent_eq hi, read_table hexp, Run.bind_ok, addBlocks hres hN hi]
  refine congrArg _ (table_congr fun j _ => ?_)
  by_cases hj : j % res = i
  · rw [if_pos hj, if_pos hj, term, exponent, exponent, hj, Nat.mod_eq_of_lt hi]
  · rw [if_neg hj, if_neg hj]

/-- The loops for an odd length. -/
lemma leaf_table (hres : res * stride = N) (hN : N < 2 ^ 32) (hv : v.length = N)
    (hoffset : offset < stride) :
    (List.range res).foldlM (fun fftres i =>
      (List.range res).foldlM (addTerm v (table N a) offset res stride offset i) fftres)
        (table N f) =
      .ok (table N fun j => f j + ∑ vi ∈ Finset.range res, term v a res j (offset + vi * stride)) := by
  -- the residues below `i` have their sums
  have hloop := foldlM_range_ok
    (fun i => table N fun j => f j + if j % res < i then
      ∑ vi ∈ Finset.range res, term v a res j (offset + vi * stride) else 0) (n := res)
    (f := fun fftres i =>
      (List.range res).foldlM (addTerm v (table N a) offset res stride offset i) fftres)
    fun i hi => ?_
  · simp only [Nat.not_lt_zero, if_false, add_zero] at hloop
    rw [hloop]
    refine congrArg _ (table_congr fun j hj => ?_)
    have hpos : 0 < res := Nat.pos_of_mul_pos_right (hres ▸ Nat.zero_lt_of_lt hj)
    rw [if_pos (Nat.mod_lt _ hpos)]
  · have hinner := foldlM_range_ok
      (fun t => table N fun j => (f j + if j % res < i then
        ∑ vi ∈ Finset.range res, term v a res j (offset + vi * stride) else 0) +
          if j % res = i then
            ∑ vi ∈ Finset.range t, term v a res j (offset + vi * stride) else 0) (n := res)
      (f := addTerm v (table N a) offset res stride offset i) fun t ht => ?_
    · simp only [Finset.sum_range_zero, ite_self, add_zero] at hinner
      rw [hinner]
      refine congrArg _ (table_congr fun j _ => ?_)
      rw [add_assoc]
      congr 1
      rcases lt_trichotomy (j % res) i with hlt | heq | hgt
      · simp [hlt, hlt.ne, Nat.lt_succ_of_lt hlt]
      · simp [heq]
      · simp [hgt.not_gt, hgt.ne', Nat.not_lt_of_le hgt]
    · rw [addTerm_table hres hN hv hoffset hi ht]
      refine congrArg _ (table_congr fun j _ => ?_)
      rw [add_assoc]
      congr 1
      split_ifs
      · rw [Finset.sum_range_succ]
      · rw [add_zero]

end leaf
/-! ### Halving -/

lemma sum_range_two_mul (g : ℕ → R) (r : ℕ) : ∑ t ∈ Finset.range (2 * r), g t =
    ∑ t ∈ Finset.range r, g (2 * t) + ∑ t ∈ Finset.range r, g (2 * t + 1) := by
  induction r with
  | zero =>
    rw [Nat.mul_zero, Finset.sum_range_zero, Finset.sum_range_zero, Finset.sum_range_zero,
      add_zero]
  | succ r ih =>
    rw [Nat.mul_succ, Finset.sum_range_succ, Finset.sum_range_succ, ih, Finset.sum_range_succ,
      Finset.sum_range_succ]
    ring

section halving
variable {N m : ℕ} {v : List R} {a : ℕ → R}

/-- A sub-transform adds the terms of its part of the input, whatever the depth. -/
lemma fftRec_table (hN : N < 2 ^ 32) (hv : v.length = N) (hm : m % 2 = 1) {e fuel stride offset : ℕ}
    (hres : 2 ^ e * m * stride = N) (hoffset : offset < stride) (hfuel : e < fuel) (f : ℕ → R) :
    fftRec v (table N a) fuel (table N f) offset (2 ^ e * m) stride offset =
      .ok (table N fun j => f j +
        ∑ t ∈ Finset.range (2 ^ e * m), term v a m j (offset + t * stride)) := by
  induction e generalizing fuel stride offset f with
  | zero =>
    obtain ⟨fuel, rfl⟩ := Nat.exists_eq_succ_of_ne_zero (Nat.ne_zero_of_lt hfuel)
    rw [Nat.pow_zero, Nat.one_mul] at hres ⊢
    rw [fftRec, if_neg (by omega)]
    exact leaf_table hres hN hv hoffset
  | succ e ih =>
    obtain ⟨fuel, rfl⟩ := Nat.exists_eq_succ_of_ne_zero (Nat.ne_zero_of_lt hfuel)
    have hdouble : 2 ^ (e + 1) * m = 2 * (2 ^ e * m) := by ring
    have hhalf : 2 ^ e * m * (stride * 2) = N := by rw [← hres]; ring
    rw [hdouble, fftRec, if_pos (Nat.mul_mod_right _ _), Nat.mul_div_cancel_left _ two_pos,
      ih hhalf (by omega) (Nat.lt_of_succ_lt_succ hfuel), Run.bind_ok,
      ih hhalf (by omega) (Nat.lt_of_succ_lt_succ hfuel)]
    refine congrArg _ (table_congr fun j _ => ?_)
    rw [sum_range_two_mul, add_assoc]
    congr 2
    · refine Finset.sum_congr rfl fun t _ => congrArg _ ?_
      ring
    · refine Finset.sum_congr rfl fun t _ => congrArg _ ?_
      ring

/-- What the code computes: only the odd part of the length counts in the exponents. -/
lemma fftSingle_table (hN : N < 2 ^ 32) (hpos : 1 ≤ N) (hv : v.length = N) {fuel : ℕ}
    (hfuel : N ≤ fuel) : fftSingle fuel v (table N a) N =
      .ok (table N fun k => ∑ n ∈ Finset.range N, term v a (ordCompl[2] N) k n) := by
  have hne : N ≠ 0 := Nat.one_le_iff_ne_zero.1 hpos
  have hsplit : ordProj[2] N * ordCompl[2] N = N := Nat.ordProj_mul_ordCompl_eq_self N 2
  have hodd : ordCompl[2] N % 2 = 1 := Nat.two_dvd_ne_zero.1 (Nat.not_dvd_ordCompl Nat.prime_two hne)
  have hexp : N.factorization 2 < fuel :=
    (Nat.factorization_lt 2 hne).trans_le hfuel
  have hzero : List.replicate N (0 : R) = table N fun _ => 0 := by
    rw [table, List.map_const', List.length_range]
  have hrec := fftRec_table (a := a) hN hv hodd (by rw [hsplit, mul_one]) Nat.zero_lt_one hexp
    fun _ => 0
  rw [hsplit] at hrec
  rw [fftSingle, hzero, hrec]
  simp only [zero_add, mul_one]

end halving
/-! ### The transform computed -/

section transform
variable {N m : ℕ} {w : R}

/-- The transform is right for every input if and only if every exponent leads to the power. -/
lemma fft_right_iff (hN : N < 2 ^ 32) (hpos : 1 ≤ N) :
    (∀ v : List R, v.length = N → ∀ fuel ≥ N,
      fftSingle fuel v (table N (w ^ ·)) N = .ok (dft N w v)) ↔
    ∀ k < N, ∀ n < N, w ^ exponent (ordCompl[2] N) k n = w ^ (k * n) := by
  constructor
  · intro h k hk n hn
    -- the input with a single one
    have hlen : (table N fun j => if j = n then (1 : R) else 0).length = N := by simp [table]
    have hrun := h _ hlen N le_rfl
    rw [fftSingle_table hN hpos hlen le_rfl] at hrun
    have hget : ∀ g : ℕ → R, ∑ j ∈ Finset.range N,
        (table N fun j => if j = n then (1 : R) else 0).getD j 0 * g j = g n := by
      intro g
      rw [Finset.sum_eq_single_of_mem n (Finset.mem_range.2 hn) fun j hj hne => ?_]
      · simp [table, hn]
      · simp [table, Finset.mem_range.1 hj, hne]
    have hk' := congrArg (fun l => read l k) (Except.ok.inj hrun)
    simp only [dft, read_table hk, term, hget] at hk'
    exact Except.ok.inj hk'
  · intro h v hv fuel hfuel
    rw [fftSingle_table hN hpos hv hfuel]
    refine congrArg _ (table_congr fun k hk => Finset.sum_congr rfl fun n hn => ?_)
    rw [term, h k hk n (Finset.mem_range.1 hn)]

/-- With an odd `m` a product in the second `2 ^ 32` numbers leads to a wrong power, unless the
root is 1. -/
lemma eq_one_of_wraps (hm : m % 2 = 1) (hsize : m < 2 ^ 32) (hunit : IsUnit w) (hwm : w ^ m = 1)
    (hwrap : 2 ^ 32 ≤ (m - 1) * (N - 1))
    (h : ∀ k < m, ∀ n < N, w ^ exponent m k n = w ^ (k * n)) : w = 1 := by
  have hm₁ : 0 < m - 1 := Nat.pos_of_mul_pos_right (Nat.lt_of_lt_of_le (by norm_num) hwrap)
  obtain ⟨r, hr⟩ : ∃ r, m = r + 1 := ⟨m - 1, by omega⟩
  subst hr
  rw [Nat.add_sub_cancel] at hm₁ hwrap
  -- the first multiple of `m - 1` from `2 ^ 32` on
  obtain ⟨n, hle, hlt⟩ : ∃ n, 2 ^ 32 ≤ r * n ∧ r * n < 2 ^ 32 + r := by
    refine ⟨(2 ^ 32 + r - 1) / r, ?_, ?_⟩
    · have := Nat.lt_mul_div_succ (2 ^ 32 + r - 1) hm₁
      rw [Nat.mul_succ] at this
      omega
    · have := Nat.mul_div_le (2 ^ 32 + r - 1) r
      omega
  have hn : n < N := by
    by_contra hge
    have : r * N ≤ r * n := Nat.mul_le_mul_left _ (Nat.le_of_not_lt hge)
    have hN : r * (N - 1) + r = r * N := by
      rw [← Nat.mul_succ, Nat.succ_eq_add_one, Nat.sub_add_cancel]
      by_contra hN
      simp [show N = 0 by omega] at hwrap
    omega
  have hexp : r * n % 2 ^ 32 = r * n - 2 ^ 32 := by
    rw [Nat.mod_eq_sub_mod hle, Nat.mod_eq_of_lt (by omega)]
  have hpow := h r (Nat.lt_succ_self r) n hn
  rw [exponent, Nat.mod_eq_of_lt (Nat.lt_succ_self r), hexp, ← pow_eq_pow_mod _ hwm,
    ← Nat.sub_add_cancel hle, Nat.add_sub_cancel, pow_add] at hpow
  have hw32 : w ^ 2 ^ 32 = 1 := by
    have := (hunit.pow (r * n - 2 ^ 32)).mul_left_cancel ((mul_one _).trans hpow)
    exact this.symm
  have hcop : Nat.gcd (r + 1) (2 ^ 32) = 1 :=
    (Nat.coprime_two_right.2 (Nat.odd_iff.2 hm)).pow_right 32
  have hgcd := pow_gcd_eq_one.2 ⟨hwm, hw32⟩
  rwa [hcop, pow_one] at hgcd

/-- The exponents lead to the powers if and only if the root is one for the odd part alone
and no product of a residue and an index wraps around. -/
lemma exponents_right_iff (hsize : N < 2 ^ 32) (hpos : 1 ≤ N) (hw : w ^ N = 1) :
    (∀ k < N, ∀ n < N, w ^ exponent (ordCompl[2] N) k n = w ^ (k * n)) ↔
      w ^ ordCompl[2] N = 1 ∧ (w = 1 ∨ (ordCompl[2] N - 1) * (N - 1) < 2 ^ 32) := by
  have hne : N ≠ 0 := Nat.one_le_iff_ne_zero.1 hpos
  have hodd : ordCompl[2] N % 2 = 1 := Nat.two_dvd_ne_zero.1 (Nat.not_dvd_ordCompl Nat.prime_two hne)
  have hle : ordCompl[2] N ≤ N := Nat.div_le_self _ _
  generalize hm : ordCompl[2] N = m at hodd hle ⊢
  constructor
  · intro h
    have hwm : w ^ m = 1 := by
      rcases Nat.lt_or_eq_of_le hle with hlt | rfl
      · have hpow := h m hlt 1 (by omega)
        rw [exponent, Nat.mod_self, Nat.zero_mul, Nat.zero_mod, Nat.zero_mod, pow_zero, mul_one] at hpow
        exact hpow.symm
      · exact hw
    refine ⟨hwm, or_iff_not_imp_right.2 fun hwrap => ?_⟩
    exact eq_one_of_wraps hodd (hle.trans_lt hsize) (IsUnit.of_pow_eq_one hw hne) hwm
      (Nat.le_of_not_lt hwrap) fun k hk => h k (hk.trans_le hle)
  · rintro ⟨hwm, rfl | hbound⟩ k - n hn
    · rw [one_pow, one_pow]
    · have hk : k % m ≤ m - 1 := Nat.le_sub_one_of_lt (Nat.mod_lt _ (by omega))
      have hmul : k % m * n < 2 ^ 32 :=
        (Nat.mul_le_mul hk (Nat.le_sub_one_of_lt hn)).trans_lt hbound
      rw [exponent, Nat.mod_eq_of_lt hmul, ← pow_eq_pow_mod _ hwm, pow_mul, pow_mul,
        ← pow_eq_pow_mod _ hwm]

/-- For every length of type `int` and every root of unity of that order, the code computes
the transform of every input if and only if `w ^ m = 1` for the odd part `m` of the length,
and no product in an exponent wraps around or `w` is 1. -/
theorem fft_right (hpos : 1 ≤ N) (hN : N < 2 ^ 31) (hw : w ^ N = 1) :
    (∀ v : List R, v.length = N → ∀ fuel ≥ N,
      fftSingle fuel v (table N (w ^ ·)) N = .ok (dft N w v)) ↔
    w ^ ordCompl[2] N = 1 ∧ (w = 1 ∨ (ordCompl[2] N - 1) * (N - 1) < 2 ^ 32) := by
  have hsize : N < 2 ^ 32 := hN.trans (by norm_num)
  rw [fft_right_iff hsize hpos, exponents_right_iff hsize hpos hw]

/-- A cube root of unity modulo 7. -/
theorem fft_right_three :
    fftSingle 3 [1, 2, 3] (table 3 ((2 : ZMod 7) ^ ·)) 3 = .ok (dft 3 2 [1, 2, 3]) := by
  have hodd : ordCompl[2] 3 = 3 := by
    rw [Nat.factorization_eq_zero_of_not_dvd (by decide), pow_zero, Nat.div_one]
  have hroot : (2 : ZMod 7) ^ ordCompl[2] 3 = 1 := by
    rw [hodd]
    decide
  have hsize : (ordCompl[2] 3 - 1) * (3 - 1) < 2 ^ 32 := by
    rw [hodd]
    norm_num
  have hright := (fft_right (by decide) (by norm_num) (by decide)).2 ⟨hroot, .inr hsize⟩
  exact hright [1, 2, 3] rfl 3 le_rfl

/-- Length 2 with root -1: both outputs are the sum of the inputs. -/
theorem fft_of_two : (-1 : ℤ) ^ 2 = 1 ∧
    fftSingle 2 [1, 1] (table 2 ((-1 : ℤ) ^ ·)) 2 = .ok [2, 2] ∧ dft 2 (-1 : ℤ) [1, 1] = [2, 0] := by
  decide

end transform
end CoreCommon.Dft
