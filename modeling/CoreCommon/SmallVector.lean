import CoreCommon.Fault

/-! The two-buffer vector: the first `minCap` elements live in `arr`, the rest in the
heap block `data` of `cap` cells. Pointers carry the block they point into; reading or
writing outside a block is a fault. Element moves copy, since no moved-from cell is read
before it is written again. `size_t` sums do not wrap: such a block cannot be allocated. -/
namespace CoreCommon

structure SmallVector (α : Type) (minCap : ℕ) where
  arr : List α
  data : List α
  len : ℕ
  arr_length : arr.length = minCap

namespace SmallVector

inductive Ptr
  | arr (i : ℤ)
  | data (i : ℤ)
  deriving DecidableEq, Repr

namespace Ptr

def add : Ptr → ℤ → Ptr
  | .arr i, d => .arr (i + d)
  | .data i, d => .data (i + d)

/-- Offset from `ref.data`, for a pointer into the heap block. -/
def dataOff (minCap : ℕ) : Ptr → ℤ
  | .arr i => i - minCap
  | .data i => i

/-- Offset to `ref.arr.end()`, for a pointer into the small buffer. -/
def toEnd (minCap : ℕ) : Ptr → ℤ
  | .arr i => minCap - i
  | .data i => -i

def inSmallBuf (minCap : ℕ) : Ptr → Bool
  | .arr i => 0 ≤ i ∧ i < minCap
  | .data _ => false

/-- `operator++`. -/
def next (minCap : ℕ) (p : Ptr) : Ptr :=
  if p.add 1 = .arr minCap then .data 0 else p.add 1

/-- `operator--`. -/
def prev (minCap : ℕ) (p : Ptr) : Ptr :=
  if p = .data 0 then .arr (minCap - 1) else p.add (-1)

/-- `operator+=`. -/
def plus (minCap : ℕ) (p : Ptr) (d : ℤ) : Ptr :=
  if p.inSmallBuf minCap ∧ p.toEnd minCap ≤ d then .data (d - p.toEnd minCap) else p.add d

/-- `operator-=`. -/
def minus (minCap : ℕ) (p : Ptr) (d : ℤ) : Ptr :=
  if ¬ p.inSmallBuf minCap ∧ p.dataOff minCap < d then .arr (minCap - d + p.dataOff minCap)
  else p.add (-d)

/-- `operator-` between iterators. -/
def diff (minCap : ℕ) (p q : Ptr) : ℤ :=
  if p.inSmallBuf minCap then
    if q.inSmallBuf minCap then q.toEnd minCap - p.toEnd minCap
    else -(p.toEnd minCap + q.dataOff minCap)
  else
    if q.inSmallBuf minCap then p.dataOff minCap + q.toEnd minCap
    else p.dataOff minCap - q.dataOff minCap

end Ptr

variable {α : Type} {minCap : ℕ}

/-- `*p` in one of the two blocks. -/
def read (v : SmallVector α minCap) (p : Ptr) : Run α :=
  let cell := match p with
    | .arr i => if 0 ≤ i then v.arr[i.toNat]? else none
    | .data i => if 0 ≤ i then v.data[i.toNat]? else none
  match cell with
  | some x => .ok x
  | none => .error .undefined

/-- `*p = x`. -/
def write (v : SmallVector α minCap) (p : Ptr) (x : α) : Run (SmallVector α minCap) :=
  match p with
  | .arr i =>
    if 0 ≤ i ∧ i.toNat < minCap then
      .ok { v with arr := v.arr.set i.toNat x, arr_length := by simp [v.arr_length] }
    else .error .undefined
  | .data i =>
    if 0 ≤ i ∧ i.toNat < v.data.length then .ok { v with data := v.data.set i.toNat x }
    else .error .undefined

def cap (v : SmallVector α minCap) : ℕ := v.data.length

def begin (_ : SmallVector α minCap) : Ptr := .arr 0

def end_ (v : SmallVector α minCap) : Ptr :=
  if v.len ≥ minCap then .data (v.len - minCap) else .arr v.len

/-- A larger block is allocated to the exact size; `new T[n]` leaves default cells. -/
def reserve [Inhabited α] (v : SmallVector α minCap) (n : ℕ) : SmallVector α minCap :=
  if n ≤ v.cap + minCap then v
  else { v with data := v.data ++ List.replicate (n - minCap - v.cap) default }

/-- `std::move_backward` over `n` elements. -/
def moveBackward (v : SmallVector α minCap) : ℕ → Ptr → Ptr → Run (SmallVector α minCap)
  | 0, _, _ => .ok v
  | n + 1, last, result => do
    let last := last.prev minCap
    let result := result.prev minCap
    let x ← v.read last
    let v ← v.write result x
    v.moveBackward n last result

/-- `std::move` of `n` cells between raw heap pointers. -/
def moveForward (v : SmallVector α minCap) : ℕ → Ptr → Ptr → Run (SmallVector α minCap)
  | 0, _, _ => .ok v
  | n + 1, first, result => do
    let x ← v.read first
    let v ← v.write result x
    v.moveForward n (first.add 1) (result.add 1)

/-- `std::fill`: a loop until the two iterators meet. -/
def fill (v : SmallVector α minCap) (x : α) : ℕ → Ptr → Ptr → Run (SmallVector α minCap)
  | 0, _, _ => .error .diverges
  | fuel + 1, first, last =>
    if first = last then .ok v
    else do
      let v ← v.write first x
      v.fill x fuel (first.next minCap) last

/-- `std::copy` of a source range to an iterator. -/
def copy (v : SmallVector α minCap) : List α → Ptr → Run (SmallVector α minCap)
  | [], _ => .ok v
  | x :: xs, p => do
    let v ← v.write p x
    v.copy xs (p.next minCap)

/-- `make_space`. In the heap branch `off` is at least `0`, and the old length at least
`minCap`, for every iterator of the vector. -/
def makeSpace [Inhabited α] (v : SmallVector α minCap) (where_ : Ptr) (count : ℕ) :
    Run (SmallVector α minCap × Ptr) :=
  let v := { v with len := v.len + count }
  if where_.inSmallBuf minCap then do
    let v := v.reserve v.len
    let last := v.end_.minus minCap count
    let v ← v.moveBackward (last.diff minCap where_).toNat last v.end_
    .ok (v, where_)
  else
    let off := where_.dataOff minCap
    let v := v.reserve v.len
    if off ≥ v.len - count - minCap then .ok (v, .data off)
    else do
      let v ← v.moveForward count (.data off) (.data (off + count))
      .ok (v, .data off)

def insert [Inhabited α] (v : SmallVector α minCap) (where_ : Ptr) (what : α) :
    Run (SmallVector α minCap × Ptr) := do
  let (v, x) ← v.makeSpace where_ 1
  let v ← v.write x what
  .ok (v, x)

/-- All cells in index order. -/
def slots (v : SmallVector α minCap) : List α := v.arr ++ v.data

/-- The pointer to index `k`. -/
def ptrAt (minCap k : ℕ) : Ptr := if k < minCap then .arr k else .data (k - minCap)

/-- Every element of the vector has a cell. -/
def Fits (v : SmallVector α minCap) : Prop := v.len ≤ v.slots.length

/-- The vector holds exactly `xs`. -/
def Holds (v : SmallVector α minCap) (xs : List α) : Prop :=
  v.len = xs.length ∧ v.slots.take v.len = xs

def toList (v : SmallVector α minCap) : List α := v.slots.take v.len

/-- Overwrite index `k`. -/
def put (v : SmallVector α minCap) (k : ℕ) (x : α) : SmallVector α minCap :=
  if k < minCap then { v with arr := v.arr.set k x, arr_length := by simp [v.arr_length] }
  else { v with data := v.data.set (k - minCap) x }

lemma slots_length (v : SmallVector α minCap) : v.slots.length = minCap + v.cap := by
  simp [slots, cap, v.arr_length]

lemma toList_length {v : SmallVector α minCap} (hfit : v.Fits) : v.toList.length = v.len := by
  rw [toList, List.length_take]
  exact min_eq_left hfit

@[simp] lemma slots_put (v : SmallVector α minCap) (k : ℕ) (x : α) :
    (v.put k x).slots = v.slots.set k x := by
  unfold put slots
  split_ifs with h
  · rw [List.set_append_left _ _ (by rwa [v.arr_length])]
  · rw [List.set_append_right _ _ (by rw [v.arr_length]; omega), v.arr_length]

@[simp] lemma len_put (v : SmallVector α minCap) (k : ℕ) (x : α) : (v.put k x).len = v.len := by
  unfold put; split_ifs <;> rfl

lemma read_ptrAt (v : SmallVector α minCap) {k : ℕ} {x : α} (h : v.slots[k]? = some x) :
    v.read (ptrAt minCap k) = .ok x := by
  unfold ptrAt
  unfold slots at h
  split_ifs with hk
  · rw [List.getElem?_append_left (by rwa [v.arr_length])] at h
    simp [read, h]
  · rw [List.getElem?_append_right (by rw [v.arr_length]; omega), v.arr_length] at h
    have hk' : minCap ≤ k := by omega
    have hn : ((k : ℤ) - minCap).toNat = k - minCap := by omega
    simp [read, hk', hn, h]

lemma write_ptrAt (v : SmallVector α minCap) (k : ℕ) (x : α) :
    v.write (ptrAt minCap k) x =
      if k < v.slots.length then .ok (v.put k x) else .error .undefined := by
  have hlen := v.slots_length
  unfold ptrAt put
  split_ifs with hk hs hs
  · simp [write, hk]
  · unfold cap at hlen; omega
  · have hk' : minCap ≤ k := by omega
    have hn : ((k : ℤ) - minCap).toNat = k - minCap := by omega
    have hd : k - minCap < v.data.length := by unfold cap at hlen; omega
    simp [write, hk', hn, hd]
  · have hn : ((k : ℤ) - minCap).toNat = k - minCap := by omega
    have hd : ¬ k - minCap < v.data.length := by unfold cap at hlen; omega
    simp [write, hn, hd]

lemma inSmallBuf_ptrAt (k : ℕ) : (ptrAt minCap k).inSmallBuf minCap = decide (k < minCap) := by
  unfold ptrAt
  split_ifs with hk <;> simp [Ptr.inSmallBuf, hk]

lemma end_eq (v : SmallVector α minCap) : v.end_ = ptrAt minCap v.len := by
  unfold end_ ptrAt
  split_ifs <;> first | rfl | omega

lemma begin_eq (hmin : 0 < minCap) (v : SmallVector α minCap) : v.begin = ptrAt minCap 0 := by
  simp [begin, ptrAt, hmin]

lemma next_ptrAt (k : ℕ) : (ptrAt minCap k).next minCap = ptrAt minCap (k + 1) := by
  unfold ptrAt Ptr.next
  split_ifs with h1 h2 h3 h4 <;> simp_all [Ptr.add] <;> omega

lemma prev_ptrAt (k : ℕ) : (ptrAt minCap (k + 1)).prev minCap = ptrAt minCap k := by
  unfold ptrAt Ptr.prev
  split_ifs with h1 h2 h3 h4 <;> simp_all [Ptr.add] <;> omega

lemma plus_ptrAt (k d : ℕ) : (ptrAt minCap k).plus minCap d = ptrAt minCap (k + d) := by
  unfold Ptr.plus
  rw [inSmallBuf_ptrAt]
  unfold ptrAt
  split_ifs with h1 h2 h3 h4 <;> simp_all [Ptr.add, Ptr.toEnd] <;> omega

lemma begin_plus (hmin : 0 < minCap) (v : SmallVector α minCap) (k : ℕ) :
    v.begin.plus minCap k = ptrAt minCap k := by
  rw [begin_eq hmin, plus_ptrAt, Nat.zero_add]

lemma minus_ptrAt {k d : ℕ} (hd : d ≤ k) :
    (ptrAt minCap k).minus minCap d = ptrAt minCap (k - d) := by
  unfold Ptr.minus
  rw [inSmallBuf_ptrAt]
  unfold ptrAt
  split_ifs with h1 h2 h3 h4 <;> simp_all [Ptr.add, Ptr.dataOff] <;> omega

lemma diff_ptrAt (j k : ℕ) : (ptrAt minCap j).diff minCap (ptrAt minCap k) = (j : ℤ) - k := by
  unfold Ptr.diff
  rw [inSmallBuf_ptrAt, inSmallBuf_ptrAt]
  unfold ptrAt
  split_ifs with h1 h2 h3 h4 <;> simp_all [Ptr.toEnd, Ptr.dataOff]

lemma ptrAt_injective {j k : ℕ} (h : ptrAt minCap j = ptrAt minCap k) : j = k := by
  have : (ptrAt minCap j).diff minCap (ptrAt minCap k) = (j : ℤ) - k := diff_ptrAt j k
  rw [h, diff_ptrAt] at this
  omega

/-- Overwriting index `i` and then the window from `a` to `b`, which are side by side. -/
lemma window_put {xs ys : List α} {i a b a' b' : ℕ} {x : α} {g g' : ℕ → Option α}
    (hi : i < xs.length) (h : ∀ k, ys[k]? = if a ≤ k ∧ k < b then g k else (xs.set i x)[k]?)
    (hout : ¬(a ≤ i ∧ i < b)) (hwhole : ∀ k, a' ≤ k ∧ k < b' ↔ a ≤ k ∧ k < b ∨ k = i)
    (hg : ∀ k, a ≤ k ∧ k < b → g k = g' k) (hx : g' i = some x) :
    ∀ k, ys[k]? = if a' ≤ k ∧ k < b' then g' k else xs[k]? := by
  intro k
  rw [h k]
  by_cases hk : k = i
  · subst hk
    rw [if_neg hout, if_pos ((hwhole k).2 (.inr rfl)), List.getElem?_set_self hi, hx]
  by_cases hwin : a ≤ k ∧ k < b
  · rw [if_pos hwin, if_pos ((hwhole k).2 (.inl hwin)), hg k hwin]
  · rw [if_neg hwin, if_neg fun hq => ((hwhole k).1 hq).elim hwin hk,
      List.getElem?_set_ne (Ne.symm hk)]

/-- Writing a list at index `i`. -/
lemma copy_run (v : SmallVector α minCap) (xs : List α) {i : ℕ}
    (hi : i + xs.length ≤ v.slots.length) :
    ∃ w, v.copy xs (ptrAt minCap i) = .ok w ∧ w.len = v.len ∧
      w.slots.length = v.slots.length ∧ ∀ k, w.slots[k]? =
        if i ≤ k ∧ k < i + xs.length then xs[k - i]? else v.slots[k]? := by
  induction xs generalizing v i with
  | nil => exact ⟨v, rfl, rfl, rfl, fun k => by rw [if_neg (by simp)]⟩
  | cons x xs ih =>
    simp only [List.length_cons] at hi ⊢
    obtain ⟨w, hrun, hlen, hsize, hw⟩ := ih (v.put i x) (i := i + 1) (by simp; omega)
    refine ⟨w, ?_, by simpa using hlen, by simpa using hsize, ?_⟩
    · rw [copy, write_ptrAt, if_pos (by omega), Run.bind_ok, next_ptrAt, hrun]
    · rw [slots_put] at hw
      refine window_put (by omega) hw (by omega) (fun k => ?_) (fun k hk => ?_) ?_
      · omega
      · rw [show k - i = k - (i + 1) + 1 by omega, List.getElem?_cons_succ]
      · rw [Nat.sub_self, List.getElem?_cons_zero]

section Insertion
variable [Inhabited α]

lemma slots_reserve (v : SmallVector α minCap) (n : ℕ) :
    (v.reserve n).slots = v.slots ++ List.replicate (n - minCap - v.cap) default := by
  unfold reserve
  split_ifs with h
  · rw [show n - minCap - v.cap = 0 by omega]; simp
  · simp [slots]

@[simp] lemma len_reserve (v : SmallVector α minCap) (n : ℕ) : (v.reserve n).len = v.len := by
  unfold reserve; split_ifs <;> rfl

omit [Inhabited α] in
lemma holds_iff {w : SmallVector α minCap} {ys : List α} (hlen : w.len = ys.length)
    (hfit : w.Fits) : w.Holds ys ↔ ∀ k, k < ys.length → w.slots[k]? = ys[k]? := by
  have hsize : (w.slots.take w.len).length = ys.length := (toList_length hfit).trans hlen
  unfold Holds
  constructor
  · rintro ⟨-, hw⟩ k hk
    rw [← hw, List.getElem?_take, if_pos (by omega)]
  · intro h
    refine ⟨hlen, List.ext_getElem? fun k => ?_⟩
    by_cases hk : k < ys.length
    · rw [List.getElem?_take, if_pos (by omega), h k hk]
    · rw [List.getElem?_eq_none (by omega), List.getElem?_eq_none (by omega)]

end Insertion

end SmallVector
end CoreCommon
