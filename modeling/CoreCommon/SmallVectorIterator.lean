import CoreCommon.SmallVector

/-! The iterators of the vector against the line of indices. -/
namespace CoreCommon.SmallVector
variable {α : Type} {minCap : ℕ}

namespace Ptr

/-- `operator++(int)`: the old iterator and the new one. -/
def postNext (minCap : ℕ) (p : Ptr) : Ptr × Ptr :=
  if p = .arr (minCap - 1) then (.arr (minCap - 1), .data 0) else (p, p.add 1)

/-- `operator--(int)`: the old iterator and the new one. -/
def postPrev (minCap : ℕ) (p : Ptr) : Ptr × Ptr :=
  if p = .data 0 then (.data 0, .arr (minCap - 1)) else (p, p.add (-1))

/-- A comparison of two pointers, which have to point into one block. -/
def compare (cmp : ℤ → ℤ → Bool) : Ptr → Ptr → Run Bool
  | .arr i, .arr j => .ok (cmp i j)
  | .data i, .data j => .ok (cmp i j)
  | _, _ => .error .undefined

/-- `operator>=` and `operator>`, by the comparison of pointers that they use. -/
def above (minCap : ℕ) (cmp : ℤ → ℤ → Bool) (p q : Ptr) : Run Bool :=
  let a := p.inSmallBuf minCap
  let b := q.inSmallBuf minCap
  if a = b then p.compare cmp q else .ok b

/-- `operator>=` -/
def ge (minCap : ℕ) (p q : Ptr) : Run Bool := p.above minCap (fun i j => decide (j ≤ i)) q

/-- `operator>` -/
def gt (minCap : ℕ) (p q : Ptr) : Run Bool := p.above minCap (fun i j => decide (j < i)) q

/-- `operator<=` -/
def le (minCap : ℕ) (p q : Ptr) : Run Bool := do
  let b ← p.gt minCap q
  .ok !b

/-- `operator<` -/
def lt (minCap : ℕ) (p q : Ptr) : Run Bool := do
  let b ← p.ge minCap q
  .ok !b

end Ptr

/-- `std::reverse_iterator`. -/
structure Rev where
  base : Ptr

def Rev.plus (minCap : ℕ) (r : Rev) (d : ℤ) : Rev := ⟨r.base.minus minCap d⟩

def Rev.next (minCap : ℕ) (r : Rev) : Rev := ⟨r.base.prev minCap⟩

/-- `*r` -/
def readRev (v : SmallVector α minCap) (r : Rev) : Run α := v.read (r.base.prev minCap)

def rbegin (v : SmallVector α minCap) : Rev := ⟨v.end_⟩

def rend (v : SmallVector α minCap) : Rev := ⟨v.begin⟩

/-! ### Steps -/

lemma plus_int {i m : ℕ} {d : ℤ} (hm : (i : ℤ) + d = m) :
    (ptrAt minCap i).plus minCap d = ptrAt minCap m ↔ (m < minCap → i < minCap) := by
  unfold Ptr.plus
  rw [inSmallBuf_ptrAt]
  unfold ptrAt
  split_ifs with h1 h2 h3 h4 <;> simp_all [Ptr.add, Ptr.toEnd] <;> omega

lemma minus_int {i m : ℕ} {d : ℤ} (hm : (i : ℤ) + d = m) :
    (ptrAt minCap i).minus minCap (-d) = ptrAt minCap m ↔ (i < minCap → m < minCap) := by
  unfold Ptr.minus
  rw [inSmallBuf_ptrAt]
  unfold ptrAt
  split_ifs with h1 h2 h3 h4 <;> simp_all [Ptr.add, Ptr.dataOff] <;> omega

lemma iterate_next (i n : ℕ) :
    (Ptr.next minCap)^[n] (ptrAt minCap i) = ptrAt minCap (i + n) := by
  induction n generalizing i with
  | zero => rfl
  | succ n ih => rw [Function.iterate_succ_apply, next_ptrAt, ih, Nat.add_right_comm, Nat.add_assoc]

lemma iterate_prev (i n : ℕ) :
    (Ptr.prev minCap)^[n] (ptrAt minCap (i + n)) = ptrAt minCap i := by
  induction n generalizing i with
  | zero => rfl
  | succ n ih => rw [Function.iterate_succ_apply, ← Nat.add_assoc, prev_ptrAt, ih]

lemma postNext_ptrAt (k : ℕ) :
    (ptrAt minCap k).postNext minCap = (ptrAt minCap k, ptrAt minCap (k + 1)) := by
  unfold ptrAt Ptr.postNext
  split_ifs with h1 h2 h3 h4 <;> simp_all [Ptr.add] <;> omega

lemma postPrev_ptrAt (k : ℕ) :
    (ptrAt minCap (k + 1)).postPrev minCap = (ptrAt minCap (k + 1), ptrAt minCap k) := by
  unfold ptrAt Ptr.postPrev
  split_ifs with h1 h2 h3 h4 <;> simp_all [Ptr.add] <;> omega

lemma above_ptrAt {cmp : ℤ → ℤ → Bool} (hshift : ∀ a b c, cmp (a - c) (b - c) = cmp a b)
    (habove : ∀ a b, a < b → cmp b a = true ∧ cmp a b = false) (i j : ℕ) :
    (ptrAt minCap i).above minCap cmp (ptrAt minCap j) = .ok (cmp i j) := by
  unfold Ptr.above
  rw [inSmallBuf_ptrAt, inSmallBuf_ptrAt]
  dsimp only
  by_cases hi : i < minCap <;> by_cases hj : j < minCap
  · rw [decide_eq_true hi, decide_eq_true hj, if_pos rfl, ptrAt, ptrAt, if_pos hi, if_pos hj]
    rfl
  · rw [decide_eq_true hi, decide_eq_false hj, if_neg (by decide), (habove i j (by omega)).2]
  · rw [decide_eq_false hi, decide_eq_true hj, if_neg (by decide), (habove j i (by omega)).1]
  · rw [decide_eq_false hi, decide_eq_false hj, if_pos rfl, ptrAt, ptrAt, if_neg hi, if_neg hj,
      Ptr.compare, hshift]

lemma ge_ptrAt (i j : ℕ) : (ptrAt minCap i).ge minCap (ptrAt minCap j) = .ok (decide (j ≤ i)) := by
  rw [Ptr.ge, above_ptrAt]
  · simp only [Nat.cast_le]
  · intro a b c
    simp
  · intro a b hab
    simp only [decide_eq_true_eq, decide_eq_false_iff_not]
    omega

lemma gt_ptrAt (i j : ℕ) : (ptrAt minCap i).gt minCap (ptrAt minCap j) = .ok (decide (j < i)) := by
  rw [Ptr.gt, above_ptrAt]
  · simp only [Nat.cast_lt]
  · intro a b c
    simp
  · intro a b hab
    simp only [decide_eq_true_eq, decide_eq_false_iff_not]
    omega

/-! ### Random access -/

/-- What an iterator at index `i`, one at index `j` and a move by `d` are expected to do. -/
structure RandomAccess (v : SmallVector α minCap) (i j : ℕ) (d : ℤ) : Prop where
  read : ∀ x, v.toList[i]? = some x → v.read (v.begin.plus minCap i) = .ok x
  diff : (v.begin.plus minCap j).diff minCap (v.begin.plus minCap i) = (j : ℤ) - i
  eq : v.begin.plus minCap i = v.begin.plus minCap j ↔ i = j
  lt : (v.begin.plus minCap i).lt minCap (v.begin.plus minCap j) = .ok (decide (i < j))
  le : (v.begin.plus minCap i).le minCap (v.begin.plus minCap j) = .ok (decide (i ≤ j))
  gt : (v.begin.plus minCap i).gt minCap (v.begin.plus minCap j) = .ok (decide (j < i))
  ge : (v.begin.plus minCap i).ge minCap (v.begin.plus minCap j) = .ok (decide (j ≤ i))
  plus : (v.begin.plus minCap i).plus minCap d = v.begin.plus minCap (i + d)
  minus : (v.begin.plus minCap i).minus minCap (-d) = v.begin.plus minCap (i + d)
  next : 0 ≤ d → (Ptr.next minCap)^[d.toNat] (v.begin.plus minCap i) = v.begin.plus minCap (i + d)
  prev : d ≤ 0 →
    (Ptr.prev minCap)^[(-d).toNat] (v.begin.plus minCap i) = v.begin.plus minCap (i + d)
  postNext : 0 ≤ d → (fun p => (Ptr.postNext minCap p).2)^[d.toNat] (v.begin.plus minCap i) =
    v.begin.plus minCap (i + d)
  postPrev : d ≤ 0 → (fun p => (Ptr.postPrev minCap p).2)^[(-d).toNat] (v.begin.plus minCap i) =
    v.begin.plus minCap (i + d)
  old : ((v.begin.plus minCap i).postNext minCap).1 = v.begin.plus minCap i ∧
    ((v.begin.plus minCap i).postPrev minCap).1 = v.begin.plus minCap i
  ends : v.begin = v.begin.plus minCap 0 ∧ v.end_ = v.begin.plus minCap v.len
  reverse : (v.rbegin.plus minCap i).base = v.begin.plus minCap (v.len - i) ∧
    v.rbegin.plus minCap v.len = v.rend ∧
    ∀ x, v.toList.reverse[i]? = some x → v.readRev (v.rbegin.plus minCap i) = .ok x

lemma postNext_fst (p : Ptr) : (p.postNext minCap).1 = p := by
  unfold Ptr.postNext
  split_ifs with h
  · exact h.symm
  · rfl

lemma postPrev_fst (p : Ptr) : (p.postPrev minCap).1 = p := by
  unfold Ptr.postPrev
  split_ifs with h
  · exact h.symm
  · rfl

lemma iterate_postNext (i n : ℕ) :
    (fun p => (Ptr.postNext minCap p).2)^[n] (ptrAt minCap i) = ptrAt minCap (i + n) := by
  induction n generalizing i with
  | zero => rfl
  | succ n ih =>
    rw [Function.iterate_succ_apply, postNext_ptrAt, ih, Nat.add_right_comm, Nat.add_assoc]

lemma iterate_postPrev (i n : ℕ) :
    (fun p => (Ptr.postPrev minCap p).2)^[n] (ptrAt minCap (i + n)) = ptrAt minCap i := by
  induction n generalizing i with
  | zero => rfl
  | succ n ih => rw [Function.iterate_succ_apply, ← Nat.add_assoc, postPrev_ptrAt, ih]

lemma read_of_toList {v : SmallVector α minCap} {i : ℕ} {x : α} (hx : v.toList[i]? = some x) :
    v.read (ptrAt minCap i) = .ok x := by
  refine v.read_ptrAt ?_
  rw [toList, List.getElem?_take] at hx
  split_ifs at hx
  exact hx

/-- The iterators are random access iterators for a move by `d` exactly when it stays in one of
the two buffers: `+` with a negative operand and `-` with a negative operand do not cross over. -/
theorem random_access_iff (hmin : 0 < minCap) (v : SmallVector α minCap) (hfit : v.Fits) {i : ℕ}
    (j : ℕ) {d : ℤ} (hi : i ≤ v.len) (hlow : 0 ≤ i + d) :
    RandomAccess v i j d ↔ (i < minCap ↔ i + d < minCap) := by
  obtain ⟨m, hm⟩ : ∃ m : ℕ, (i : ℤ) + d = m := ⟨(i + d).toNat, by omega⟩
  have hpos := begin_plus hmin v
  have hplus : (v.begin.plus minCap i).plus minCap d = v.begin.plus minCap (i + d) ↔
      (m < minCap → i < minCap) := by
    rw [hpos, hm, hpos]
    exact plus_int hm
  have hminus : (v.begin.plus minCap i).minus minCap (-d) = v.begin.plus minCap (i + d) ↔
      (i < minCap → m < minCap) := by
    rw [hpos, hm, hpos]
    exact minus_int hm
  have hcross : (i < minCap ↔ i + d < minCap) ↔ (m < minCap → i < minCap) ∧
      (i < minCap → m < minCap) := by
    rw [hm, Nat.cast_lt]
    exact ⟨fun h => ⟨h.2, h.1⟩, fun h => ⟨h.2, h.1⟩⟩
  rw [hcross]
  refine ⟨fun h => ⟨hplus.1 h.plus, hminus.1 h.minus⟩, fun ⟨hup, hdown⟩ => ?_⟩
  have hlen := toList_length hfit
  have hback : (v.rbegin.plus minCap i).base = ptrAt minCap (v.len - i) := by
    rw [Rev.plus, rbegin, end_eq, minus_ptrAt hi]
  refine ⟨fun x hx => ?_, ?_, ?_, ?_, ?_, ?_, ?_, hplus.2 hup, hminus.2 hdown, fun hd => ?_,
    fun hd => ?_, fun hd => ?_, fun hd => ?_, ⟨postNext_fst _, postPrev_fst _⟩, ⟨?_, ?_⟩, ?_, ?_, ?_⟩
  · rw [hpos, read_of_toList hx]
  · rw [hpos, hpos, diff_ptrAt]
  · rw [hpos, hpos]
    exact ⟨ptrAt_injective, fun h => by rw [h]⟩
  · rw [hpos, hpos, Ptr.lt, ge_ptrAt, Run.bind_ok, ← decide_not, decide_eq_decide.2 not_le]
  · rw [hpos, hpos, Ptr.le, gt_ptrAt, Run.bind_ok, ← decide_not, decide_eq_decide.2 not_lt]
  · rw [hpos, hpos, gt_ptrAt]
  · rw [hpos, hpos, ge_ptrAt]
  · rw [hpos, hm, hpos, iterate_next, show i + d.toNat = m by omega]
  · rw [hpos, hm, hpos, show i = m + (-d).toNat by omega, iterate_prev]
  · rw [hpos, hm, hpos, iterate_postNext, show i + d.toNat = m by omega]
  · rw [hpos, hm, hpos, show i = m + (-d).toNat by omega, iterate_postPrev]
  · exact (begin_eq hmin v).trans (hpos 0).symm
  · rw [end_eq, hpos]
  · rw [hback, show (v.len : ℤ) - i = ((v.len - i : ℕ) : ℤ) by omega, hpos]
  · rw [Rev.plus, rbegin, rend, end_eq, minus_ptrAt (Nat.le_refl _), Nat.sub_self, begin_eq hmin]
  · intro x hx
    have hlt : i < v.len := by
      have hlt := (List.getElem?_eq_some_iff.1 hx).1
      rwa [List.length_reverse, hlen] at hlt
    rw [List.getElem?_reverse (by omega), hlen] at hx
    rw [readRev, hback, show v.len - i = v.len - 1 - i + 1 by omega, prev_ptrAt, read_of_toList hx]

/-- Within one buffer, over the boundary by nothing. -/
theorem random_access_iff_example :
    RandomAccess (⟨[1], [2, 3], 3, rfl⟩ : SmallVector ℕ 1) 1 0 1 ↔ (1 < 1 ↔ ((1 : ℕ) : ℤ) + 1 < (1 : ℕ)) :=
  random_access_iff (by decide) ⟨[1], [2, 3], 3, rfl⟩ (by unfold Fits; decide) 0 (by decide)
    (by decide)

/-- From the first element outside the small buffer, `+ -1` is not the element before it. -/
theorem plus_leaves_heap : ¬ ∀ (v : SmallVector ℕ 1) (i j : ℕ) (d : ℤ), v.Fits → i ≤ v.len →
    j ≤ v.len → 0 ≤ i + d → i + d ≤ v.len → RandomAccess v i j d := by
  intro h
  have hplus := (h ⟨[1], [2], 2, rfl⟩ 1 0 (-1) (by unfold Fits; decide) (by decide) (by decide)
    (by decide) (by decide)).plus
  exact absurd hplus (by decide)

end CoreCommon.SmallVector
