import CoreCommon.SmallVectorIterator

/-! Removal, capacity, copies and moves of the vector, for elements without a destructor. -/
namespace CoreCommon.SmallVector
variable {α : Type} {minCap : ℕ}

/-- `std::move` of `n` elements by iterators. -/
def moveDown (v : SmallVector α minCap) : ℕ → Ptr → Ptr → Run (SmallVector α minCap)
  | 0, _, _ => .ok v
  | n + 1, first, result => do
    let x ← v.read first
    let v ← v.write result x
    v.moveDown n (first.next minCap) (result.next minCap)

/-- `erase` of a range of the vector. -/
def erase (v : SmallVector α minCap) (start stop : Ptr) : Run (SmallVector α minCap × Ptr) := do
  let count := stop.diff minCap start
  let v ← v.moveDown (v.end_.diff minCap stop).toNat stop start
  .ok ({ v with len := v.len - count.toNat }, start)

/-- `resize` -/
def resize [Inhabited α] (v : SmallVector α minCap) (n : ℕ) : Run (SmallVector α minCap) :=
  if n > v.len then .ok { v.reserve n with len := n }
  else do
    let (v, _) ← v.erase (v.begin.plus minCap n) v.end_
    .ok v

/-- `pop_back` -/
def popBack (v : SmallVector α minCap) : Run (SmallVector α minCap) := do
  let (v, _) ← v.erase (v.end_.minus minCap 1) v.end_
  .ok v

/-- `SmallVector(size_t n)`: the small buffer has default cells. -/
def withCapacity [Inhabited α] (n : ℕ) : SmallVector α minCap :=
  reserve ⟨List.replicate minCap default, [], 0, List.length_replicate⟩ n

/-- `std::copy` of `n` elements of another vector. -/
def copyFrom (v other : SmallVector α minCap) : ℕ → Ptr → Ptr → Run (SmallVector α minCap)
  | 0, _, _ => .ok v
  | n + 1, first, result => do
    let x ← other.read first
    let v ← v.write result x
    v.copyFrom other n (first.next minCap) (result.next minCap)

/-- The copy constructor. -/
def ofCopy [Inhabited α] (other : SmallVector α minCap) : Run (SmallVector α minCap) :=
  let v : SmallVector α minCap := { withCapacity other.len with len := other.len }
  v.copyFrom other (other.end_.diff minCap other.begin).toNat other.begin v.begin

/-- The move constructor, and what it leaves of the other vector. -/
def ofMove [Inhabited α] (other : SmallVector α minCap) : SmallVector α minCap × SmallVector α minCap :=
  let left : SmallVector α minCap := { other with data := [], len := minCap }
  let moved := min left.len minCap
  (⟨left.arr.take moved ++ (List.replicate minCap default).drop moved, other.data, other.len, by
    simp [left, moved, other.arr_length]⟩, left)

/-- `swap`: this vector and the other one. -/
def swap (v other : SmallVector α minCap) : SmallVector α minCap × SmallVector α minCap :=
  (⟨other.arr, other.data, other.len, other.arr_length⟩, ⟨v.arr, v.data, v.len, v.arr_length⟩)

/-- `operator=`, with its argument by value. -/
def assign (v other : SmallVector α minCap) : SmallVector α minCap := (v.swap other).1

/-- `operator=` from a vector that stays. -/
def assignCopy [Inhabited α] (v other : SmallVector α minCap) : Run (SmallVector α minCap) := do
  let copied ← ofCopy other
  .ok (v.assign copied)

/-- `operator=` from a vector that is moved, and what is left of it. -/
def assignMove [Inhabited α] (v other : SmallVector α minCap) :
    SmallVector α minCap × SmallVector α minCap :=
  (v.assign (ofMove other).1, (ofMove other).2)

/-! ### Erasing -/

/-- Moving `n` elements down from `f` to `r`, first one first. -/
lemma moveDown_run (v : SmallVector α minCap) (n : ℕ) {f r : ℕ} (hr : r ≤ f)
    (hf : f + n ≤ v.slots.length) :
    ∃ w, v.moveDown n (ptrAt minCap f) (ptrAt minCap r) = .ok w ∧ w.len = v.len ∧
      w.slots.length = v.slots.length ∧ ∀ k, w.slots[k]? =
        if r ≤ k ∧ k < r + n then v.slots[k - r + f]? else v.slots[k]? := by
  induction n generalizing v f r with
  | zero => exact ⟨v, rfl, rfl, rfl, fun k => by rw [if_neg (by omega)]⟩
  | succ n ih =>
    have hx : v.slots[f]? = some v.slots[f] := List.getElem?_eq_getElem (by omega)
    obtain ⟨w, hrun, hlen, hsize, hw⟩ := ih (v.put r v.slots[f]) (f := f + 1) (r := r + 1)
      (by omega) (by simp; omega)
    refine ⟨w, ?_, by simpa using hlen, by simpa using hsize, ?_⟩
    · rw [moveDown, read_ptrAt v hx, Run.bind_ok, write_ptrAt, if_pos (by omega), Run.bind_ok,
        next_ptrAt, next_ptrAt, hrun]
    · rw [slots_put] at hw
      refine window_put (by omega) hw (by omega) (fun k => ?_) (fun k hk => ?_) ?_
      · omega
      · rw [List.getElem?_set_ne (by omega), show k - (r + 1) + (f + 1) = k - r + f by omega]
      · rw [Nat.sub_self, Nat.zero_add, hx]

lemma toList_getElem? {v : SmallVector α minCap} {k : ℕ} (hk : k < v.len) :
    v.toList[k]? = v.slots[k]? := by
  rw [toList, List.getElem?_take, if_pos hk]

lemma erase_ok (hmin : 0 < minCap) {v : SmallVector α minCap} (hfit : v.Fits) {i j : ℕ}
    (hij : i ≤ j) (hj : j ≤ v.len) :
    ∃ w, v.erase (ptrAt minCap i) (ptrAt minCap j) = .ok (w, w.begin.plus minCap i) ∧
      w.Holds (v.toList.take i ++ v.toList.drop j) := by
  have hlen := toList_length hfit
  obtain ⟨u, hrun, hulen, husize, hu⟩ := v.moveDown_run (v.len - j) (f := j) hij
    (by unfold Fits at hfit; omega)
  have hcount : (v.end_.diff minCap (ptrAt minCap j)).toNat = v.len - j := by
    rw [end_eq, diff_ptrAt]
    omega
  refine ⟨{ u with len := u.len - ((ptrAt minCap j).diff minCap (ptrAt minCap i)).toNat }, ?_, ?_⟩
  · rw [erase, hcount, hrun, Run.bind_ok, begin_plus hmin]
  · have hlist : (v.toList.take i ++ v.toList.drop j).length = v.len - (j - i) := by
      rw [List.length_append, List.length_take, List.length_drop]
      omega
    have hdiff : ((ptrAt minCap j).diff minCap (ptrAt minCap i)).toNat = j - i := by
      rw [diff_ptrAt]
      omega
    rw [hdiff, hulen]
    have hfits : Fits { u with len := v.len - (j - i) } := by
      have hle : v.len ≤ u.slots.length := husize ▸ hfit
      exact (Nat.sub_le _ _).trans hle
    refine (holds_iff hlist.symm hfits).2 fun k hk => ?_
    rw [hlist] at hk
    refine (hu k).trans ?_
    rcases Nat.lt_or_ge k i with hlow | hhigh
    · rw [if_neg (by omega), List.getElem?_append_left (by rw [List.length_take]; omega),
        List.getElem?_take, if_pos hlow, toList_getElem? (by omega)]
    · rw [if_pos (by omega), List.getElem?_append_right (by rw [List.length_take]; omega),
        List.length_take, List.getElem?_drop, toList_getElem? (by omega)]
      congr 1
      omega

lemma Holds.toList {v : SmallVector α minCap} {xs : List α} (h : v.Holds xs) : v.toList = xs := h.2

lemma Holds.fits {v : SmallVector α minCap} {xs : List α} (h : v.Holds xs) : v.Fits := by
  have hlen := congrArg List.length h.2
  rw [List.length_take, ← h.1] at hlen
  exact min_eq_left_iff.1 hlen

lemma holds_toList {v : SmallVector α minCap} (hfit : v.Fits) : v.Holds v.toList :=
  ⟨(toList_length hfit).symm, rfl⟩

lemma resize_ok [Inhabited α] (hmin : 0 < minCap) {v : SmallVector α minCap} (hfit : v.Fits) {n : ℕ}
    (hn : n ≤ v.len) : ∃ w, v.resize n = .ok w ∧ w.Holds (v.toList.take n) := by
  obtain ⟨w, hrun, hholds⟩ := erase_ok hmin hfit hn (Nat.le_refl _)
  refine ⟨w, ?_, ?_⟩
  · rw [resize, if_neg (by omega), begin_plus hmin, end_eq, hrun, Run.bind_ok]
  · rwa [List.drop_eq_nil_of_le (toList_length hfit).le, List.append_nil] at hholds

lemma popBack_ok (hmin : 0 < minCap) {v : SmallVector α minCap} (hfit : v.Fits) (hne : 0 < v.len) :
    ∃ w, v.popBack = .ok w ∧ w.Holds v.toList.dropLast := by
  have hlen := toList_length hfit
  obtain ⟨w, hrun, hholds⟩ := erase_ok hmin hfit (Nat.sub_le v.len 1) (Nat.le_refl _)
  refine ⟨w, ?_, ?_⟩
  · have hback : v.end_.minus minCap 1 = ptrAt minCap (v.len - 1) := by
      rw [end_eq]
      exact minus_ptrAt hne
    rw [popBack, hback, end_eq, hrun, Run.bind_ok]
  · rwa [List.drop_eq_nil_of_le hlen.le, List.append_nil, ← hlen, ← List.dropLast_eq_take] at hholds

lemma reserve_ok [Inhabited α] {v : SmallVector α minCap} (hfit : v.Fits) (n : ℕ) :
    (v.reserve n).Holds v.toList ∧ n ≤ (v.reserve n).cap + minCap := by
  have hslots := v.slots_reserve n
  have hlen := v.len_reserve n
  constructor
  · refine ⟨hlen.trans (toList_length hfit).symm, ?_⟩
    rw [hlen, hslots, List.take_append_of_le_length hfit]
    rfl
  · have hcap := (v.reserve n).slots_length
    rw [hslots, List.length_append, List.length_replicate, v.slots_length] at hcap
    omega

/-! ### Copies -/

lemma copyFrom_eq_copy (v other : SmallVector α minCap) (n i r : ℕ)
    (hn : i + n ≤ other.slots.length) :
    v.copyFrom other n (ptrAt minCap i) (ptrAt minCap r) =
      v.copy ((other.slots.drop i).take n) (ptrAt minCap r) := by
  induction n generalizing v i r with
  | zero => rw [List.take_zero]; rfl
  | succ n ih =>
    have hx : other.slots[i]? = some other.slots[i] := List.getElem?_eq_getElem (by omega)
    rw [copyFrom, read_ptrAt other hx, Run.bind_ok, List.drop_eq_getElem_cons (by omega),
      List.take_succ_cons, copy, next_ptrAt, next_ptrAt]
    congr 1
    funext w
    exact ih w (i + 1) (r + 1) (by omega)

lemma ofCopy_ok [Inhabited α] (hmin : 0 < minCap) {v : SmallVector α minCap} (hfit : v.Fits) :
    ∃ w, ofCopy v = .ok w ∧ w.Holds v.toList := by
  have hlen := toList_length hfit
  set u : SmallVector α minCap := { withCapacity v.len with len := v.len } with hu
  have hroom : v.len ≤ u.slots.length := by
    have hslots : u.slots = (withCapacity v.len : SmallVector α minCap).slots := rfl
    rw [hslots, withCapacity, slots_reserve, List.length_append, List.length_replicate, slots_length]
    omega
  have hulen : u.len = v.len := rfl
  obtain ⟨w, hrun, hwlen, hwsize, hw⟩ := u.copy_run v.toList (i := 0) (by omega)
  refine ⟨w, ?_, ?_⟩
  · have hcount : (v.end_.diff minCap v.begin).toNat = v.len := by
      rw [end_eq, begin_eq hmin, diff_ptrAt]
      omega
    rw [ofCopy, ← hu, hcount, begin_eq hmin, begin_eq hmin, copyFrom_eq_copy _ _ _ _ _
      (by unfold Fits at hfit; omega), List.drop_zero]
    exact hrun
  · refine (holds_iff (by omega) (by unfold Fits; omega)).2 fun k hk => ?_
    rw [hw k, if_pos (by omega), Nat.sub_zero]

lemma ofMove_ok [Inhabited α] {v : SmallVector α minCap} (hfit : v.Fits) :
    (ofMove v).1.Holds v.toList := by
  have hslots : (ofMove v).1.slots = v.slots := by
    have harr : v.arr.take minCap = v.arr := List.take_of_length_le v.arr_length.le
    simp [ofMove, slots, harr]
  refine ⟨(toList_length hfit).symm, ?_⟩
  rw [hslots]
  rfl

/-- What the operations are on lists, with a second vector to assign to and to swap with. -/
structure ListOperations [Inhabited α] (v u : SmallVector α minCap) : Prop where
  erase : ∀ i j, i ≤ j → j ≤ v.len →
    ∃ w, v.erase (v.begin.plus minCap i) (v.begin.plus minCap j) = .ok (w, w.begin.plus minCap i) ∧
      w.Holds (v.toList.take i ++ v.toList.drop j)
  resize : ∀ n ≤ v.len, ∃ w, v.resize n = .ok w ∧ w.Holds (v.toList.take n)
  popBack : 0 < v.len → ∃ w, v.popBack = .ok w ∧ w.Holds v.toList.dropLast
  reserve : ∀ n, (v.reserve n).Holds v.toList ∧ n ≤ (v.reserve n).cap + minCap
  ofCopy : ∃ w, ofCopy v = .ok w ∧ w.Holds v.toList
  ofMove : (ofMove v).1.Holds v.toList
  assignCopy : ∃ w, u.assignCopy v = .ok w ∧ w.Holds v.toList
  assignMove : (u.assignMove v).1.Holds v.toList
  swap : (u.swap v).1.Holds v.toList ∧ (u.swap v).2.Holds u.toList

/-- Removing, reserving, copying, moving, assigning and swapping are list operations, whatever
the capacities of the two vectors. -/
theorem list_operations [Inhabited α] (hmin : 0 < minCap) (v u : SmallVector α minCap)
    (hfit : v.Fits) (hfit' : u.Fits) : ListOperations v u where
  erase i j hij hj := by
    rw [begin_plus hmin, begin_plus hmin]
    exact erase_ok hmin hfit hij hj
  resize n hn := resize_ok hmin hfit hn
  popBack := popBack_ok hmin hfit
  reserve := reserve_ok hfit
  ofCopy := ofCopy_ok hmin hfit
  ofMove := ofMove_ok hfit
  assignCopy := by
    obtain ⟨w, hw, hholds⟩ := ofCopy_ok hmin hfit
    exact ⟨w, by rw [SmallVector.assignCopy, hw, Run.bind_ok]; rfl, hholds⟩
  assignMove := ofMove_ok hfit
  swap := ⟨holds_toList hfit, holds_toList hfit'⟩

/-- A vector with a heap block and one without. -/
theorem list_operations_example :
    ListOperations (⟨[1], [2, 3, 4], 3, rfl⟩ : SmallVector ℕ 1) ⟨[9], [], 1, rfl⟩ :=
  list_operations (by decide) _ _ (by unfold Fits; decide) (by unfold Fits; decide)

end CoreCommon.SmallVector
