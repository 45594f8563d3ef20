import CoreCommon.Fault
import CoreCommon.SubsetRank

/-! `ArraySet` of `arrayset.hpp`: a table with a slot for each set of `elements` indices below
`len`. The table's size and the slot of a set come from `binomial` of `util.cpp`. -/
namespace CoreCommon
universe u

/-! ### Binomial coefficients in `size_t` -/

/-- `for (size_t i = ..; i <= n; i++) res *= i;`. No `i` fails the test when `n` is the largest
`size_t`. -/
def mulLoop (n : ℕ) : ℕ → ℕ → ℕ → Run ℕ
  | 0, _, _ => .error .diverges
  | fuel + 1, i, res =>
    if i ≤ n then mulLoop n fuel ((i + 1) % 2 ^ 64) (res * i % 2 ^ 64) else .ok res

/-- `for (size_t i = 2; i <= k; i++) res /= i;` -/
def divLoop (k res : ℕ) : ℕ := (List.range' 2 (k - 1)).foldl (· / ·) res

/-- The first loop has `k` rounds, if it ends at all. -/
def binomial (n k : ℕ) : Run ℕ :=
  if n < k then .ok 0 else do
    let res ← mulLoop n (k + 1) ((n - k + 1) % 2 ^ 64) 1
    .ok (divLoop k res)

lemma mulLoop_eq {n : ℕ} (hn : n + 1 < 2 ^ 64) {m i : ℕ} (hi : i + m = n + 1) (res : ℕ)
    (hres : res < 2 ^ 64) :
    mulLoop n (m + 1) i res = .ok (res * i.ascFactorial m % 2 ^ 64) := by
  induction m generalizing i res with
  | zero =>
    have hi' : ¬i ≤ n := by omega
    rw [mulLoop, if_neg hi', Nat.ascFactorial_zero, Nat.mul_one, Nat.mod_eq_of_lt hres]
  | succ m ih =>
    have hstep : i.ascFactorial (m + 1) = i * (i + 1).ascFactorial m := by
      rw [Nat.ascFactorial_succ, Nat.succ_ascFactorial]
    have hmod : (i + 1) % 2 ^ 64 = i + 1 := Nat.mod_eq_of_lt (by omega)
    rw [mulLoop, if_pos (by omega), hmod, ih (by omega) _ (Nat.mod_lt _ (by norm_num)), hstep,
      Nat.mod_mul_mod, Nat.mul_assoc]

lemma mulLoop_diverges (fuel i res : ℕ) (hi : i < 2 ^ 64) :
    mulLoop (2 ^ 64 - 1) fuel i res = .error .diverges := by
  induction fuel generalizing i res with
  | zero => rfl
  | succ fuel ih =>
    rw [mulLoop, if_pos (by omega)]
    exact ih _ _ (Nat.mod_lt _ (by norm_num))

lemma divLoop_eq (k res : ℕ) : divLoop k res = res / k.factorial := by
  obtain _ | k := k
  · simp [divLoop]
  · induction k with
    | zero => simp [divLoop]
    | succ k ih =>
      rw [divLoop, Nat.add_sub_cancel] at ih ⊢
      rw [List.range'_concat, List.foldl_append, ih, Nat.factorial_succ (k + 1), Nat.mul_comm (k + 1 + 1)]
      simp [Nat.div_div_eq_div_mul, Nat.add_comm, Nat.add_left_comm]

lemma binomial_of_lt {n k : ℕ} (h : n < k) : binomial n k = .ok 0 := by
  rw [binomial, if_pos h]

/-- What the code computes: the product is cut to 64 bits before it is divided. -/
lemma binomial_eq {n k : ℕ} (hk : k ≤ n) (hn : n + 1 < 2 ^ 64) :
    binomial n k = .ok (n.descFactorial k % 2 ^ 64 / k.factorial) := by
  have hmod : (n - k + 1) % 2 ^ 64 = n - k + 1 := Nat.mod_eq_of_lt (by omega)
  have hprod : (n - k + 1).ascFactorial k = n.descFactorial k := by
    rw [← Nat.add_descFactorial_eq_ascFactorial, Nat.sub_add_cancel hk]
  rw [binomial, if_neg (by omega), hmod, mulLoop_eq hn (by omega) 1 (by norm_num), hprod]
  simp [divLoop_eq]

lemma binomial_diverges {k : ℕ} (hk : k < 2 ^ 64) :
    binomial (2 ^ 64 - 1) k = .error .diverges := by
  rw [binomial, if_neg (by omega), mulLoop_diverges _ _ _ (Nat.mod_lt _ (by norm_num))]
  rfl

lemma binomial_exact {n k : ℕ} (hk : k ≤ n) (hn : n + 1 < 2 ^ 64)
    (hD : n.descFactorial k < 2 ^ 64) : binomial n k = .ok (n.choose k) := by
  rw [binomial_eq hk hn, Nat.mod_eq_of_lt hD, Nat.choose_eq_descFactorial_div_factorial]

/-- The coefficient is right exactly when the product before the division fits. -/
lemma binomial_exact_iff {n k : ℕ} (hk : k ≤ n) (hn : n < 2 ^ 64) :
    binomial n k = .ok (n.choose k) ↔ n + 1 < 2 ^ 64 ∧ n.descFactorial k < 2 ^ 64 := by
  constructor
  · intro h
    have hn' : n + 1 < 2 ^ 64 := by
      by_contra hmax
      obtain rfl : n = 2 ^ 64 - 1 := by omega
      rw [binomial_diverges (lt_of_le_of_lt hk hn)] at h
      cases h
    refine ⟨hn', ?_⟩
    rw [binomial_eq hk hn', Nat.choose_eq_descFactorial_div_factorial] at h
    have hdiv : n.descFactorial k % 2 ^ 64 / k.factorial = n.descFactorial k / k.factorial :=
      Except.ok.inj h
    have hle : n.descFactorial k ≤ n.descFactorial k % 2 ^ 64 := by
      calc n.descFactorial k = n.descFactorial k / k.factorial * k.factorial :=
            (Nat.div_mul_cancel (Nat.factorial_dvd_descFactorial n k)).symm
        _ = n.descFactorial k % 2 ^ 64 / k.factorial * k.factorial := by rw [hdiv]
        _ ≤ n.descFactorial k % 2 ^ 64 := Nat.div_mul_le_self _ _
    exact hle.trans_lt (Nat.mod_lt _ (by norm_num))
  · rintro ⟨hn', hD⟩
    exact binomial_exact hk hn' hD

/-- A coefficient is right exactly when the product before the division fits, not only what is
left of it. -/
theorem binomial_fits_iff {n k : ℕ} (hn : n + 1 < 2 ^ 64) :
    binomial n k = .ok (n.choose k) ↔ n.descFactorial k < 2 ^ 64 := by
  rcases lt_or_ge n k with hlt | hle
  · rw [binomial_of_lt hlt, Nat.choose_eq_zero_of_lt hlt, Nat.descFactorial_eq_zero_iff_lt.2 hlt]
    simp
  · rw [binomial_exact_iff hle (by omega), and_iff_right hn]

/-- Five of thirty. -/
theorem binomial_fits_iff_five_of_thirty :
    binomial 30 5 = .ok (Nat.choose 30 5) ↔ Nat.descFactorial 30 5 < 2 ^ 64 :=
  binomial_fits_iff (by decide)

/-- All of twenty-one can be chosen in one way, but `21!` does not fit. -/
theorem factorial_overflows : binomial 21 21 = .ok 0 ∧
    ¬∀ n k : ℕ, n + 1 < 2 ^ 64 → n.choose k < 2 ^ 64 → binomial n k = .ok (n.choose k) := by
  have hzero : binomial 21 21 = .ok 0 := by decide
  refine ⟨hzero, fun h => ?_⟩
  have hone := h 21 21 (by decide) (by rw [Nat.choose_self]; decide)
  rw [hzero, Nat.choose_self] at hone
  cases hone

/-- An exact coefficient makes every smaller one exact. -/
lemma binomial_smaller {n k e m : ℕ} (hk : k ≤ n) (hn : n + 1 < 2 ^ 64)
    (hD : n.descFactorial k < 2 ^ 64) (he : e < n) (hm : m ≤ k) :
    binomial e m = .ok (e.choose m) := by
  have hpos : 0 < (n - m).descFactorial (k - m) :=
    Nat.pos_of_ne_zero fun h => absurd (Nat.descFactorial_eq_zero_iff_lt.1 h) (by omega)
  by_cases hem : e < m
  · rw [binomial_of_lt hem, Nat.choose_eq_zero_of_lt hem]
  · have hle : e.descFactorial m ≤ n.descFactorial k := by
      calc e.descFactorial m ≤ n.descFactorial m := Nat.descFactorial_le m he.le
        _ ≤ (n - m).descFactorial (k - m) * n.descFactorial m := Nat.le_mul_of_pos_left _ hpos
        _ = n.descFactorial k := Nat.descFactorial_mul_descFactorial hm
    exact binomial_exact (by omega) (by omega) (hle.trans_lt hD)

/-! ### Indexing -/

structure ArraySet (T : Type u) where
  vec : List T
  elements : ℕ

namespace ArraySet
variable {T : Type u}

/-- The constructor; without an argument for it, `value` is `T()`. -/
def construct (elements len : ℕ) (value : T) : Run (ArraySet T) :=
  match binomial len elements with
  | .ok n => .ok ⟨List.replicate n value, elements⟩
  | .error e => .error e

/-- `std::sort` and `std::reverse`. -/
def sorted (elem_vec : List ℕ) : List ℕ := (elem_vec.insertionSort (· ≤ ·)).reverse

/-- The loop over `elem_vec` from place `i` on. -/
def sumLoop (elements : ℕ) : List ℕ → ℕ → ℕ → Run ℕ
  | [], _, out_i => .ok out_i
  | e :: es, i, out_i => do
    let b ← binomial e (elements - i)
    sumLoop elements es (i + 1) ((out_i + b) % 2 ^ 64)

/-- `operator[]`, whose reference is the position in `vec`. -/
def subscript (s : ArraySet T) (idx : List ℕ) : Run ℕ :=
  if idx.length < s.elements then .error .undefined
  else do
    let out_i ← sumLoop s.elements (sorted (idx.take s.elements)) 0 0
    if out_i < s.vec.length then .ok out_i else .error .undefined

/-- `k` distinct indices below `len`, in any order. -/
structure Indices (k len : ℕ) (idx : List ℕ) : Prop where
  length : idx.length = k
  nodup : idx.Nodup
  lt : ∀ i ∈ idx, i < len

lemma sorted_perm (idx : List ℕ) : (sorted idx).Perm idx :=
  (List.reverse_perm _).trans (List.perm_insertionSort _ _)

lemma sorted_decreasing {idx : List ℕ} (h : idx.Nodup) : Decreasing (sorted idx) := by
  have hle : (sorted idx).Pairwise (· ≥ ·) :=
    List.pairwise_reverse.2 (List.pairwise_insertionSort (· ≤ ·) idx)
  have hne : (sorted idx).Pairwise (· ≠ ·) := (sorted_perm idx).symm.nodup h
  exact hle.imp₂ (fun _ _ hge hne => lt_of_le_of_ne hge hne.symm) hne

lemma eq_of_perm_of_decreasing {l m : List ℕ} (hl : Decreasing l) (hm : Decreasing m)
    (h : l.Perm m) : l = m :=
  List.Perm.eq_of_pairwise (fun _ _ _ _ hab hba => absurd hab (lt_asymm hba)) hl hm h

lemma sorted_of_decreasing {l : List ℕ} (hl : Decreasing l) : sorted l = l :=
  eq_of_perm_of_decreasing (sorted_decreasing (hl.imp fun h => h.ne')) hl (sorted_perm l)

/-- The sorted list is the set itself. -/
lemma sorted_eq_iff {idx idx' : List ℕ} (h : idx.Nodup) (h' : idx'.Nodup) :
    sorted idx = sorted idx' ↔ idx.toFinset = idx'.toFinset := by
  constructor
  · intro heq
    rw [← List.toFinset_eq_of_perm _ _ (sorted_perm idx), heq,
      List.toFinset_eq_of_perm _ _ (sorted_perm idx')]
  · intro heq
    have hperm : idx.Perm idx' := List.perm_of_nodup_nodup_toFinset_eq h h' heq
    exact eq_of_perm_of_decreasing (sorted_decreasing h) (sorted_decreasing h')
      ((sorted_perm idx).trans (hperm.trans (sorted_perm idx').symm))

/-- No coefficient overflows in a set with `k` elements below `len`. -/
structure Exact (k len : ℕ) : Prop where
  le : k ≤ len
  lt : len + 1 < 2 ^ 64
  fits : len.descFactorial k < 2 ^ 64

lemma Exact.choose_lt {k len : ℕ} (h : Exact k len) : len.choose k < 2 ^ 64 := by
  rw [Nat.choose_eq_descFactorial_div_factorial]
  exact (Nat.div_le_self _ _).trans_lt h.fits

lemma Exact.binomial {k len : ℕ} (h : Exact k len) : binomial len k = .ok (len.choose k) :=
  binomial_exact h.le h.lt h.fits

/-- The loop adds the rank of what is left of `elem_vec`. -/
lemma sumLoop_eq {k len : ℕ} (h : Exact k len) {es : List ℕ} {i : ℕ} (hi : i + es.length = k)
    (hlt : ∀ e ∈ es, e < len) (out_i : ℕ) (hout : out_i + rank es < 2 ^ 64) :
    sumLoop k es i out_i = .ok (out_i + rank es) := by
  induction es generalizing i out_i with
  | nil => rfl
  | cons e es ih =>
    have hi' : k - i = es.length + 1 := by
      rw [List.length_cons] at hi
      omega
    have hb := binomial_smaller h.le h.lt h.fits (hlt e (by simp)) (m := es.length + 1)
      (by rw [List.length_cons] at hi; omega)
    rw [rank] at hout
    have hmod : (out_i + e.choose (es.length + 1)) % 2 ^ 64 = out_i + e.choose (es.length + 1) :=
      Nat.mod_eq_of_lt (by omega)
    rw [sumLoop, hi', hb, Run.bind_ok, hmod, ih (by rw [List.length_cons] at hi; omega)
      (fun x hx => hlt x (List.mem_cons_of_mem e hx)) _ (by omega), rank, Nat.add_assoc]

lemma construct_eq {k len : ℕ} (h : Exact k len) (value : T) :
    construct k len value = .ok ⟨List.replicate (len.choose k) value, k⟩ := by
  rw [construct, h.binomial]

/-- The position of a set is its rank. -/
lemma subscript_eq {k len : ℕ} (h : Exact k len) (value : T) {idx : List ℕ}
    (hidx : Indices k len idx) :
    subscript ⟨List.replicate (len.choose k) value, k⟩ idx = .ok (rank (sorted idx)) := by
  have hlen : (sorted idx).length = k := (sorted_perm idx).length_eq.trans hidx.length
  have hlt : ∀ e ∈ sorted idx, e < len := fun e he => hidx.lt e ((sorted_perm idx).mem_iff.1 he)
  have hrank := rank_lt (sorted_decreasing hidx.nodup) hlt
  rw [hlen] at hrank
  have hloop := sumLoop_eq h (i := 0) (by rw [hlen, Nat.zero_add]) hlt 0
    (by rw [Nat.zero_add]; exact hrank.trans h.choose_lt)
  simp only [subscript, List.length_replicate]
  rw [if_neg hidx.length.not_lt, List.take_of_length_le hidx.length.le, hloop, Run.bind_ok,
    Nat.zero_add, if_pos hrank]

/-- `operator[]` ranks the sets of `elements` indices: the positions below `vec.size()` are the
sets, one each. -/
theorem subscript_ranks {elements len : ℕ} (hle : elements ≤ len) (hlen : len < 2 ^ 64)
    (hexact : binomial len elements = .ok (len.choose elements)) (value : T) :
    ∃ s, construct elements len value = .ok s ∧ s.vec.length = len.choose elements ∧
      (∀ idx, Indices elements len idx → ∃ p < s.vec.length, s.subscript idx = .ok p) ∧
      (∀ idx idx', Indices elements len idx → Indices elements len idx' →
        (s.subscript idx = s.subscript idx' ↔ idx.toFinset = idx'.toFinset)) ∧
      ∀ p < s.vec.length, ∃ idx, Indices elements len idx ∧ s.subscript idx = .ok p := by
  obtain ⟨hlt, hfits⟩ := (binomial_exact_iff hle hlen).1 hexact
  have h : Exact elements len := ⟨hle, hlt, hfits⟩
  refine ⟨_, construct_eq h value, List.length_replicate, ?_, ?_, ?_⟩
  · intro idx hidx
    refine ⟨_, ?_, subscript_eq h value hidx⟩
    have hlen' : (sorted idx).length = elements := (sorted_perm idx).length_eq.trans hidx.length
    rw [List.length_replicate, ← hlen']
    exact rank_lt (sorted_decreasing hidx.nodup)
      fun e he => hidx.lt e ((sorted_perm idx).mem_iff.1 he)
  · intro idx idx' hidx hidx'
    rw [subscript_eq h value hidx, subscript_eq h value hidx', Except.ok.injEq,
      ← sorted_eq_iff hidx.nodup hidx'.nodup]
    refine ⟨rank_injective (sorted_decreasing hidx.nodup) (sorted_decreasing hidx'.nodup) ?_,
      congrArg rank⟩
    rw [(sorted_perm idx).length_eq, (sorted_perm idx').length_eq, hidx.length, hidx'.length]
  · intro p hp
    rw [List.length_replicate] at hp
    obtain ⟨l, hl, hlen', hlt', rfl⟩ := exists_rank hp
    have hidx : Indices elements len l := ⟨hlen', hl.imp fun h => h.ne', hlt'⟩
    exact ⟨l, hidx, by rw [subscript_eq h value hidx, sorted_of_decreasing hl]⟩

/-- Three of five, in a table of ten. -/
theorem subscript_ranks_three_of_five :
    ∃ s : ArraySet Bool, construct 3 5 false = .ok s ∧ s.vec.length = Nat.choose 5 3 ∧
      (∀ idx, Indices 3 5 idx → ∃ p < s.vec.length, s.subscript idx = .ok p) ∧
      (∀ idx idx', Indices 3 5 idx → Indices 3 5 idx' →
        (s.subscript idx = s.subscript idx' ↔ idx.toFinset = idx'.toFinset)) ∧
      ∀ p < s.vec.length, ∃ idx, Indices 3 5 idx ∧ s.subscript idx = .ok p :=
  subscript_ranks (by decide) (by decide) (by decide) false

end ArraySet

end CoreCommon
