import CoreCommon.Fault

/-! `Serialize` and `Deserialize` of `serialize.hpp` over a stream of bytes. Numbers go over it in
network order, vectors with their size in front. `read_vector` ends without a `return`. -/
namespace CoreCommon.Serialize

/-! ### Network order -/

/-- The bytes of a `w`-byte number after `htons`, `htonl` or `htonll`. -/
def net : ℕ → ℕ → List UInt8
  | 0, _ => []
  | w + 1, x => UInt8.ofNat (x / 256 ^ w) :: net w x

/-- The number that `ntohs`, `ntohl` or `ntohll` makes of the bytes. -/
def host (bytes : List UInt8) : ℕ := bytes.foldl (fun n b => 256 * n + b.toNat) 0

lemma net_length (w x : ℕ) : (net w x).length = w := by
  induction w with
  | zero => rfl
  | succ w ih => rw [net, List.length_cons, ih]

lemma foldl_net (w n x : ℕ) :
    (net w x).foldl (fun n b => 256 * n + b.toNat) n = n * 256 ^ w + x % 256 ^ w := by
  induction w generalizing n with
  | zero => simp [net, Nat.mod_one]
  | succ w ih =>
    have hdigit : x % 256 ^ (w + 1) = x / 256 ^ w % 256 * 256 ^ w + x % 256 ^ w := by
      rw [pow_succ, Nat.mod_mul, Nat.mul_comm, Nat.add_comm]
    rw [net, List.foldl_cons, ih, hdigit, UInt8.toNat_ofNat']
    ring

lemma host_net {w x : ℕ} (hx : x < 256 ^ w) : host (net w x) = x := by
  rw [host, foldl_net, Nat.zero_mul, Nat.zero_add, Nat.mod_eq_of_lt hx]

/-! ### Numbers -/

/-- `out.write` of the converted number. -/
def writeNet (w : ℕ) (out : List UInt8) (x : ℕ) : List UInt8 := out ++ net w x

/-- `in.read` of `w` bytes, which must be there, and the conversion back. -/
def readNet (w : ℕ) (in_ : List UInt8) : Run (ℕ × List UInt8) :=
  if w ≤ in_.length then .ok (host (in_.take w), in_.drop w) else .error .undefined

lemma readNet_net {w x : ℕ} (hx : x < 256 ^ w) (rest : List UInt8) :
    readNet w (net w x ++ rest) = .ok (x, rest) := by
  have hlen := net_length w x
  rw [readNet, if_pos (by rw [List.length_append, hlen]; omega), List.take_left' hlen,
    List.drop_left' hlen, host_net hx]

def writeInt (out : List UInt8) (x : Int32) : List UInt8 := writeNet 4 out x.toUInt32.toNat

def writeLong (out : List UInt8) (x : Int64) : List UInt8 := writeNet 8 out x.toUInt64.toNat

def writeShort (out : List UInt8) (x : Int16) : List UInt8 := writeNet 2 out x.toUInt16.toNat

def writeUnsigned (out : List UInt8) (x : UInt32) : List UInt8 := writeNet 4 out x.toNat

def writeUnsignedLong (out : List UInt8) (x : UInt64) : List UInt8 := writeNet 8 out x.toNat

def readInt (in_ : List UInt8) : Run (Int32 × List UInt8) := do
  let (n, in_) ← readNet 4 in_
  .ok ((UInt32.ofNat n).toInt32, in_)

def readLong (in_ : List UInt8) : Run (Int64 × List UInt8) := do
  let (n, in_) ← readNet 8 in_
  .ok ((UInt64.ofNat n).toInt64, in_)

def readShort (in_ : List UInt8) : Run (Int16 × List UInt8) := do
  let (n, in_) ← readNet 2 in_
  .ok ((UInt16.ofNat n).toInt16, in_)

def readUnsigned (in_ : List UInt8) : Run (UInt32 × List UInt8) := do
  let (n, in_) ← readNet 4 in_
  .ok (UInt32.ofNat n, in_)

def readUnsignedLong (in_ : List UInt8) : Run (UInt64 × List UInt8) := do
  let (n, in_) ← readNet 8 in_
  .ok (UInt64.ofNat n, in_)

/-! ### Vectors -/

section vectors
variable {T : Type}

/-- `write_vector`. -/
def writeVector (f : List UInt8 → T → List UInt8) (out : List UInt8) (vec : List T) : List UInt8 :=
  vec.foldl f (writeUnsignedLong out (UInt64.ofNat vec.length))

/-- The loop of `read_vector`: `left` more elements into `vec`, from place `i` on. -/
def readLoop (f : List UInt8 → Run (T × List UInt8)) :
    ℕ → ℕ → List T → List UInt8 → Run (List T × List UInt8)
  | 0, _, vec, in_ => .ok (vec, in_)
  | left + 1, i, vec, in_ => do
    let (x, in_) ← f in_
    readLoop f left (i + 1) (vec.set i x) in_

/-- What `read_vector` accumulates. -/
def readElements [Inhabited T] (f : List UInt8 → Run (T × List UInt8)) (in_ : List UInt8) :
    Run (List T × List UInt8) := do
  let (len, in_) ← readUnsignedLong in_
  readLoop f len.toNat 0 (List.replicate len.toNat default) in_

/-- `read_vector`: control flows off its end, which is undefined for a function with a result. -/
def readVector [Inhabited T] (f : List UInt8 → Run (T × List UInt8)) (in_ : List UInt8) :
    Run (List T × List UInt8) := do
  let _ ← readElements f in_
  .error .undefined

/-- A reader that undoes a writer. -/
def Inverse (write : List UInt8 → T → List UInt8) (read : List UInt8 → Run (T × List UInt8)) :
    Prop :=
  ∃ bytes : T → List UInt8, (∀ out x, write out x = out ++ bytes x) ∧
    ∀ x rest, read (bytes x ++ rest) = .ok (x, rest)

lemma readLoop_eq {bytes : T → List UInt8} {read : List UInt8 → Run (T × List UInt8)}
    (h : ∀ x rest, read (bytes x ++ rest) = .ok (x, rest)) (vec done : List T) (left : List T)
    (hleft : left.length = vec.length) (rest : List UInt8) :
    readLoop read vec.length done.length (done ++ left) (vec.flatMap bytes ++ rest) =
      .ok (done ++ vec, rest) := by
  induction vec generalizing done left with
  | nil =>
    obtain rfl := List.length_eq_zero_iff.1 hleft
    rfl
  | cons x vec ih =>
    obtain ⟨y, left, rfl⟩ := List.exists_cons_of_length_eq_add_one hleft
    have hset : (done ++ y :: left).set done.length x = done ++ [x] ++ left := by
      simp
    have hlen : done.length + 1 = (done ++ [x]).length := by simp
    rw [List.length_cons, List.flatMap_cons, List.append_assoc, readLoop, h, Run.bind_ok]
    dsimp only
    rw [hset, hlen, ih (done ++ [x]) left (Nat.succ.inj hleft), List.append_assoc]
    rfl

/-- What is accumulated are the elements written. -/
lemma readElements_writeVector [Inhabited T] {write : List UInt8 → T → List UInt8}
    {read : List UInt8 → Run (T × List UInt8)} (h : Inverse write read) {vec : List T}
    (hvec : vec.length < 2 ^ 64) (out rest : List UInt8) : ∃ bytes,
      writeVector write out vec = out ++ bytes ∧ readElements read (bytes ++ rest) = .ok (vec, rest) := by
  obtain ⟨bytes, hwrite, hread⟩ := h
  have hfold : ∀ (vec : List T) (out : List UInt8), vec.foldl write out = out ++ vec.flatMap bytes := by
    intro vec
    induction vec with
    | nil => simp
    | cons x vec ih =>
      intro out
      rw [List.foldl_cons, ih, hwrite, List.flatMap_cons, List.append_assoc]
  have hsize : (UInt64.ofNat vec.length).toNat = vec.length := UInt64.toNat_ofNat_of_lt' hvec
  have hnum : readUnsignedLong (net 8 vec.length ++ (vec.flatMap bytes ++ rest)) =
      .ok (UInt64.ofNat vec.length, vec.flatMap bytes ++ rest) := by
    rw [readUnsignedLong, readNet_net (by exact hvec.trans_eq (by norm_num))]
    rfl
  have hloop := readLoop_eq hread vec [] (List.replicate vec.length default) (by simp) rest
  refine ⟨net 8 vec.length ++ vec.flatMap bytes, ?_, ?_⟩
  · rw [writeVector, hfold, writeUnsignedLong, writeNet, hsize, List.append_assoc]
  · rw [List.append_assoc, readElements, hnum, Run.bind_ok]
    simp only [hsize]
    exact hloop

end vectors

/-! ### The elements -/

/-- The numbers, and vectors of such elements. -/
inductive Element
  | int
  | long
  | short
  | unsigned
  | unsignedLong
  | vector (e : Element)
  deriving DecidableEq, Repr

namespace Element

abbrev Val : Element → Type
  | .int => Int32
  | .long => Int64
  | .short => Int16
  | .unsigned => UInt32
  | .unsignedLong => UInt64
  | .vector e => List e.Val

instance : (e : Element) → Inhabited e.Val
  | .int => inferInstanceAs (Inhabited Int32)
  | .long => inferInstanceAs (Inhabited Int64)
  | .short => inferInstanceAs (Inhabited Int16)
  | .unsigned => inferInstanceAs (Inhabited UInt32)
  | .unsignedLong => inferInstanceAs (Inhabited UInt64)
  | .vector _ => ⟨[]⟩

/-- The callback that writes an element. -/
def write : (e : Element) → List UInt8 → e.Val → List UInt8
  | .int => writeInt
  | .long => writeLong
  | .short => writeShort
  | .unsigned => writeUnsigned
  | .unsignedLong => writeUnsignedLong
  | .vector e => writeVector e.write

/-- The callback that reads one. -/
def read : (e : Element) → List UInt8 → Run (e.Val × List UInt8)
  | .int => readInt
  | .long => readLong
  | .short => readShort
  | .unsigned => readUnsigned
  | .unsignedLong => readUnsignedLong
  | .vector e => readVector e.read

/-- Every number is read as it was written. -/
lemma inverse (e : Element) (h : ∀ e', e ≠ .vector e') : Inverse e.write e.read := by
  cases e with
  | int =>
    refine ⟨fun x => net 4 x.toUInt32.toNat, fun _ _ => rfl, fun (x : Int32) rest => ?_⟩
    show readInt _ = _
    rw [readInt, readNet_net x.toUInt32.toNat_lt, Run.bind_ok]
    simp only [UInt32.ofNat_toNat, Int32.toInt32_toUInt32]
  | long =>
    refine ⟨fun x => net 8 x.toUInt64.toNat, fun _ _ => rfl, fun (x : Int64) rest => ?_⟩
    show readLong _ = _
    rw [readLong, readNet_net x.toUInt64.toNat_lt, Run.bind_ok]
    simp only [UInt64.ofNat_toNat, Int64.toInt64_toUInt64]
  | short =>
    refine ⟨fun x => net 2 x.toUInt16.toNat, fun _ _ => rfl, fun (x : Int16) rest => ?_⟩
    show readShort _ = _
    rw [readShort, readNet_net x.toUInt16.toNat_lt, Run.bind_ok]
    simp only [UInt16.ofNat_toNat, Int16.toInt16_toUInt16]
  | unsigned =>
    refine ⟨fun x => net 4 x.toNat, fun _ _ => rfl, fun (x : UInt32) rest => ?_⟩
    show readUnsigned _ = _
    rw [readUnsigned, readNet_net x.toNat_lt]
    simp
  | unsignedLong =>
    refine ⟨fun x => net 8 x.toNat, fun _ _ => rfl, fun (x : UInt64) rest => ?_⟩
    show readUnsignedLong _ = _
    rw [readUnsignedLong, readNet_net x.toNat_lt]
    simp
  | vector e => exact absurd rfl (h e)

/-- The vector comes back, and the stream stands behind it. -/
def ReadsBack (e : Element) (vec : List e.Val) (rest : List UInt8) : Prop :=
  readVector e.read (writeVector e.write [] vec ++ rest) = .ok (vec, rest)

end Element

/-- The elements of a vector of numbers are all read, and nothing after them. -/
lemma numbers_readBack {e : Element} (h : ∀ e', e ≠ .vector e') {vec : List e.Val}
    (hvec : vec.length < 2 ^ 64) (rest : List UInt8) :
    readElements e.read (writeVector e.write [] vec ++ rest) = .ok (vec, rest) := by
  obtain ⟨bytes, hwrite, hread⟩ := readElements_writeVector (e.inverse h) hvec [] rest
  rw [hwrite, List.nil_append, hread]

/-- But no vector comes back, because what was read is not returned. -/
theorem never_readsBack (e : Element) (vec : List e.Val) (rest : List UInt8) :
    ¬e.ReadsBack vec rest := by
  intro h
  obtain ⟨a, -, hend⟩ := Run.bind_eq_ok.1 h
  cases hend

/-- The vector of one 7. -/
theorem one_seven_lost : writeVector writeInt [] [7] = [0, 0, 0, 0, 0, 0, 0, 1, 0, 0, 0, 7] ∧
    readElements readInt [0, 0, 0, 0, 0, 0, 0, 1, 0, 0, 0, 7] = .ok ([7], []) ∧
      readVector readInt [0, 0, 0, 0, 0, 0, 0, 1, 0, 0, 0, 7] = .error .undefined ∧
        ¬∀ (e : Element) (vec : List e.Val) (rest : List UInt8), vec.length < 2 ^ 64 →
          e.ReadsBack vec rest := by
  have hend : readVector readInt [0, 0, 0, 0, 0, 0, 0, 1, 0, 0, 0, 7] = .error .undefined := rfl
  refine ⟨by decide, by decide, hend, fun h => ?_⟩
  have hback := h .int [7] [] (by decide)
  have hwrite : writeVector Element.int.write [] ([7] : List Int32) =
      [0, 0, 0, 0, 0, 0, 0, 1, 0, 0, 0, 7] := by decide
  rw [Element.ReadsBack, hwrite] at hback
  cases hend.symm.trans hback

end CoreCommon.Serialize
