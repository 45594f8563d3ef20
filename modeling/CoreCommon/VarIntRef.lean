import CoreCommon.Fault

/-! `VarIntRef` of `util.cpp`: a header byte with five bits of the number and three of its length,
then the other bytes. The constructor that writes and the one that reads mean different lengths
by the header. -/
namespace CoreCommon

/-- A reference into the bytes at `vi`, `first` and then `rest`. -/
structure VarIntRef where
  vi : List UInt8
  size : ℕ
  deriving DecidableEq, Repr

namespace VarIntRef

/-- The mask `(1 << 5) - 1`. -/
def lowFive : UInt8 := ((1 : UInt8) <<< 5) - 1

def first (vi : List UInt8) : Run UInt8 :=
  match vi with
  | [] => .error .undefined
  | b :: _ => .ok b

def restAt (vi : List UInt8) (i : ℕ) : Run UInt8 :=
  match vi[i + 1]? with
  | none => .error .undefined
  | some b => .ok b

def setByte (vi : List UInt8) (i : ℕ) (b : UInt8) : Run (List UInt8) :=
  if i < vi.length then .ok (vi.set i b) else .error .undefined

/-- `for (; x > 0 && size < 8; size++)`; `rounds` is what `size < 8` leaves. -/
def writeLoop : ℕ → List UInt8 → UInt64 → ℕ → Run VarIntRef
  | 0, vi, _, size => .ok ⟨vi, size⟩
  | rounds + 1, vi, x, size =>
    if x > 0 then do
      let vi ← setByte vi (size + 1) x.toUInt8
      writeLoop rounds vi (x >>> 8) (size + 1)
    else .ok ⟨vi, size⟩

/-- `VarIntRef(VarInt* var_vi, uint64_t x)` -/
def write (vi : List UInt8) (x : UInt64) : Run VarIntRef := do
  let vi ← setByte vi 0 (x.toUInt8 &&& lowFive)
  let r ← writeLoop 7 vi (x >>> 5) 1
  let head ← first r.vi
  let vi ← setByte r.vi 0 (head ||| (UInt8.ofNat (r.size - 1) <<< 5))
  .ok ⟨vi, r.size⟩

/-- `VarIntRef(VarInt const* vi)` -/
def read (vi : List UInt8) : Run VarIntRef := do
  let head ← first vi
  .ok ⟨vi, ((head >>> 5) &&& 7).toNat⟩

/-- `b << s` in `int`, widened to `uint64_t`: undefined when the product needs more than 32 bits. -/
def shiftInt (b : UInt8) (s : ℕ) : Run UInt64 :=
  if s < 32 ∧ b.toNat * 2 ^ s < 2 ^ 32 then
    .ok (UInt32.ofNat (b.toNat * 2 ^ s)).toInt32.toInt64.toUInt64
  else .error .undefined

/-- `for (char i = 0; i < size - 1; i++)`, from `i` on. -/
def valueLoop (vi : List UInt8) : ℕ → ℕ → UInt64 → Run UInt64
  | 0, _, x => .ok x
  | left + 1, i, x => do
    let b ← restAt vi i
    let y ← shiftInt b (i * 8 + 5)
    valueLoop vi left (i + 1) (x ||| y)

def value (r : VarIntRef) : Run UInt64 := do
  let head ← first r.vi
  valueLoop r.vi (r.size - 1) 0 (head &&& lowFive).toUInt64

/-- Writing `x` touches the `size` bytes of the number only, and reading them gives `size` and `x`
back. -/
def ReadsBack (vi : List UInt8) (x : UInt64) : Prop :=
  ∃ w r, write vi x = .ok w ∧ (∀ i, w.size ≤ i → w.vi[i]? = vi[i]?) ∧ read w.vi = .ok r ∧
    r.size = w.size ∧ value r = .ok x

lemma setByte_eq_ok {vi vi' : List UInt8} {i : ℕ} {b : UInt8} (h : setByte vi i b = .ok vi') :
    i < vi.length ∧ vi' = vi.set i b := by
  rw [setByte] at h
  split at h
  · rename_i hi
    exact ⟨hi, (Except.ok.inj h).symm⟩
  · cases h

lemma first_eq_ok {vi : List UInt8} {b : UInt8} : first vi = .ok b ↔ vi[0]? = some b := by
  cases vi <;> simp [first]

/-- The loop writes from two places behind the old size up to the place of the new size. -/
lemma writeLoop_spec {rounds size : ℕ} {vi : List UInt8} {x : UInt64} {w : VarIntRef}
    (h : writeLoop rounds vi x size = .ok w) :
    size ≤ w.size ∧ w.size ≤ size + rounds ∧ ∀ i, i ≤ size ∨ w.size < i → w.vi[i]? = vi[i]? := by
  induction rounds generalizing vi x size with
  | zero =>
    obtain rfl := Except.ok.inj h
    exact ⟨le_rfl, le_rfl, fun _ _ => rfl⟩
  | succ rounds ih =>
    rw [writeLoop] at h
    split at h
    · obtain ⟨vi', hset, h⟩ := Run.bind_eq_ok.1 h
      obtain ⟨-, rfl⟩ := setByte_eq_ok hset
      obtain ⟨hle, hup, hframe⟩ := ih h
      refine ⟨by omega, by omega, fun i hi => ?_⟩
      rw [hframe i (by omega), List.getElem?_set_ne (by omega)]
    · obtain rfl := Except.ok.inj h
      exact ⟨le_rfl, Nat.le_add_right _ _, fun _ _ => rfl⟩

/-- The header holds `size - 1`, whatever five bits are beside it. -/
lemma header_size (low : UInt8) {size : ℕ} (h1 : 1 ≤ size) (h8 : size ≤ 8) :
    ((((low &&& lowFive) ||| (UInt8.ofNat (size - 1) <<< 5)) >>> 5) &&& 7).toNat = size - 1 := by
  have hall : ∀ low : Fin 256, ∀ n : Fin 8,
      ((((UInt8.ofNat low &&& lowFive) ||| (UInt8.ofNat n <<< 5)) >>> 5) &&& 7).toNat = n := by
    decide +kernel
  have := hall ⟨low.toNat, low.toNat_lt⟩ ⟨size - 1, by omega⟩
  rwa [UInt8.ofNat_toNat] at this

/-- What a successful write is: the loop after the first byte, then the header. -/
lemma write_spec {vi : List UInt8} {x : UInt64} {w : VarIntRef} (h : write vi x = .ok w) :
    1 ≤ w.size ∧ w.size ≤ 8 ∧
      w.vi[0]? = some ((x.toUInt8 &&& lowFive) ||| (UInt8.ofNat (w.size - 1) <<< 5)) ∧
      ∀ i, i = 1 ∨ w.size < i → w.vi[i]? = vi[i]? := by
  obtain ⟨vi', hset, h⟩ := Run.bind_eq_ok.1 h
  obtain ⟨hpos, rfl⟩ := setByte_eq_ok hset
  obtain ⟨r, hloop, h⟩ := Run.bind_eq_ok.1 h
  obtain ⟨head, hhead, h⟩ := Run.bind_eq_ok.1 h
  obtain ⟨vi'', hset', h⟩ := Run.bind_eq_ok.1 h
  obtain ⟨hpos', rfl⟩ := setByte_eq_ok hset'
  obtain rfl := Except.ok.inj h
  obtain ⟨hle, hup, hframe⟩ := writeLoop_spec hloop
  have hlow : r.vi[0]? = some (x.toUInt8 &&& lowFive) := by
    rw [hframe 0 (by omega), List.getElem?_set_self hpos]
  obtain rfl : head = x.toUInt8 &&& lowFive := by
    rw [first_eq_ok.1 hhead, Option.some.injEq] at hlow
    exact hlow
  refine ⟨hle, hup, List.getElem?_set_self hpos', fun i hi => ?_⟩
  have hi' : i = 1 ∨ r.size < i := hi
  rw [List.getElem?_set_ne (by omega), hframe i (by omega), List.getElem?_set_ne (by omega)]

/-- The reader takes for the size what the writer stored, which is one less. -/
lemma read_write {vi : List UInt8} {x : UInt64} {w r : VarIntRef} (hw : write vi x = .ok w)
    (hr : read w.vi = .ok r) : r.size + 1 = w.size := by
  obtain ⟨h1, h8, hhead, -⟩ := write_spec hw
  obtain ⟨head, hfirst, hr⟩ := Run.bind_eq_ok.1 hr
  obtain rfl := Except.ok.inj hr
  rw [first_eq_ok.1 hfirst, Option.some.injEq] at hhead
  rw [hhead, header_size _ h1 h8]
  exact Nat.sub_add_cancel h1

/-- No number reads back as written: its size is always reported one short. -/
theorem not_readsBack (vi : List UInt8) (x : UInt64) : ¬ReadsBack vi x := by
  rintro ⟨w, r, hw, -, hr, hsize, -⟩
  have := read_write hw hr
  omega

/-- The second byte of `32` goes to the third place and is not read. -/
theorem thirty_two_reads_as_zero :
    (write (List.replicate 9 0) 32 = .ok ⟨[32, 0, 1, 0, 0, 0, 0, 0, 0], 2⟩ ∧
      read [32, 0, 1, 0, 0, 0, 0, 0, 0] = .ok ⟨[32, 0, 1, 0, 0, 0, 0, 0, 0], 1⟩ ∧
      value ⟨[32, 0, 1, 0, 0, 0, 0, 0, 0], 1⟩ = .ok 0) ∧
      ¬ReadsBack (List.replicate 9 0) 32 := by
  refine ⟨⟨by decide, by decide, by decide⟩, ?_⟩
  rintro ⟨w, r, hw, -, hr, hsize, -⟩
  have := read_write hw hr
  omega

end VarIntRef

end CoreCommon
