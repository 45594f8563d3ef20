import CoreCommon.Fault
import CoreCommon.NumberText

/-! The open-addressing hash map: groups of sixteen control bytes, probed triangularly.
`hash` is the `std::hash` of the keys. Probing loops run on fuel. -/
namespace CoreCommon

/-- `std::array<unsigned char, NUM_CONTROL_BYTES>`. -/
abbrev ControlBytes := Fin 16 → UInt8

structure Map (K V : Type) (multiple : Bool) where
  count : ℕ
  controlBytes : List ControlBytes
  buckets : List (K × V)

namespace Map
variable {K V : Type} {multiple : Bool}

/-- `SENTINEL`, the byte of a removed entry. -/
def sentinel : UInt8 := 0x80

def doHash (hash : K → UInt64) (k : K) : UInt64 :=
  let h := hash k
  if h.toUInt8 = 0 ∨ h.toUInt8 = sentinel then ~~~h else h

/-- The conversion of an integer to `float`: 24 significant bits, ties to even. -/
def toFloat (n : ℕ) : ℕ :=
  if n < 2 ^ 24 then n
  else
    let ulp := 2 ^ (Nat.log2 n - 23)
    NumberText.divRoundEven n ulp * ulp

def loadFactor (m : Map K V multiple) : Bool := toFloat m.buckets.length < 2 * toFloat m.count

/-! ### Memory -/

def withCount (m : Map K V multiple) (count : ℕ) : Map K V multiple := { m with count }

/-- `control_bytes[i]`. -/
def control (m : Map K V multiple) (i : ℕ) : Run ControlBytes :=
  match m.controlBytes[i]? with
  | some current => .ok current
  | none => .error .undefined

def setControl (m : Map K V multiple) (i : ℕ) (c : Fin 16) (b : UInt8) : Run (Map K V multiple) := do
  let current ← m.control i
  .ok { m with controlBytes := m.controlBytes.set i (Function.update current c b) }

/-- `buckets[j]`. -/
def bucket (m : Map K V multiple) (j : ℕ) : Run (K × V) :=
  match m.buckets[j]? with
  | some b => .ok b
  | none => .error .undefined

def setBucket (m : Map K V multiple) (j : ℕ) (b : K × V) : Run (Map K V multiple) :=
  if j < m.buckets.length then .ok { m with buckets := m.buckets.set j b } else .error .undefined

/-! ### Probes -/

/-- The position in the probe sequence; `c` is where the last search of the group stopped. -/
structure Probe where
  i : ℕ
  probeI : ℕ
  c : ℕ
  target : UInt8
  cont : Bool

structure MatchResult where
  cont : Bool
  bucket : Option ℕ

def probe (m : Map K V multiple) (h : UInt64) : Probe :=
  ⟨(h >>> 8).toNat % m.controlBytes.length, 0, 0, h.toUInt8, false⟩

/-- `operator++`; `i` and `probe_i` are `unsigned`. -/
def Probe.next (m : Map K V multiple) (p : Probe) : Probe :=
  let probeI := (p.probeI + 1) % 2 ^ 32
  { p with probeI, i := (p.i + probeI) % 2 ^ 32 % m.controlBytes.length, c := 0 }

/-- The first of the given bytes of group `i` that carries the partial hash and the key. -/
def matchFrom [DecidableEq K] (m : Map K V multiple) (k : K) (i : ℕ) (current : ControlBytes)
    (target : UInt8) : List (Fin 16) → Run (Option (Fin 16))
  | [] => .ok none
  | c :: cs =>
    if current c = target then do
      let b ← m.bucket (i * 16 + c)
      if b.1 = k then .ok (some c) else matchFrom m k i current target cs
    else matchFrom m k i current target cs

def Probe.match_ [DecidableEq K] (m : Map K V multiple) (k : K) (p : Probe) :
    Run (Probe × MatchResult) := do
  let current ← m.control p.i
  let cont := if p.c = 0 then decide (∀ c, current c ≠ 0) else p.cont
  match ← matchFrom m k p.i current p.target ((List.finRange 16).drop p.c) with
  | some c => .ok ({ p with cont, c := c }, ⟨cont, some (p.i * 16 + c)⟩)
  | none => .ok ({ p with cont, c := 16 }, ⟨cont, none⟩)

def firstFree (current : ControlBytes) : Option (Fin 16) :=
  (List.finRange 16).find? fun c => current c = 0 ∨ current c = sentinel

/-- Claim the first free byte of the group; the bucket's index, or none in a full group. -/
def Probe.insert (m : Map K V multiple) (p : Probe) : Run (Map K V multiple × Option ℕ) := do
  let current ← m.control p.i
  match firstFree current with
  | some c => do
    let m ← m.setControl p.i c p.target
    .ok (m, some (p.i * 16 + c))
  | none => .ok (m, none)

def Probe.remove (m : Map K V multiple) (p : Probe) : Run (Map K V multiple) :=
  if h : p.c < 16 then do
    let m ← m.setControl p.i ⟨p.c, h⟩ sentinel
    .ok (m.withCount (m.count - 1))
  else .error .undefined

/-- `while (!(bucket = p.insert())) ++p;` -/
def insertLoop : ℕ → Map K V multiple → Probe → Run (Map K V multiple × ℕ)
  | 0, _, _ => .error .diverges
  | fuel + 1, m, p => do
    match ← p.insert m with
    | (m, some j) => .ok (m, j)
    | (m, none) => insertLoop fuel m (p.next m)

/-- The loop shared by `insert`, `upsert` and `remove`: the probe where it stops and the match. -/
def search [DecidableEq K] (m : Map K V multiple) (k : K) :
    ℕ → Probe → Run (Probe × Option ℕ)
  | 0, _ => .error .diverges
  | fuel + 1, p => do
    let (p, res) ← p.match_ m k
    if res.bucket.isSome then .ok (p, res.bucket)
    else if res.cont then search m k fuel (p.next m)
    else .ok (p, none)

/-! ### Resizing -/

/-- `std::vector::resize`. -/
def resizeList {α : Type} (l : List α) (n : ℕ) (x : α) : List α :=
  l.take n ++ List.replicate (n - l.length) x

/-- The resized vectors; the number of buckets is an `unsigned` product. -/
def grow [Inhabited K] [Inhabited V] (m : Map K V multiple) (to_ : ℕ) : Map K V multiple :=
  { m with
    controlBytes := resizeList m.controlBytes to_ fun _ => 0
    buckets := resizeList m.buckets (to_ * 16 % 2 ^ 32) default }

def relocate (hash : K → UInt64) (fuel to_ prevSz : ℕ) (m : Map K V multiple) (s : ℕ × Fin 16) :
    Run (Map K V multiple) := do
  let current ← m.control s.1
  if current s.2 = sentinel ∨ current s.2 = 0 then .ok m
  else do
    let b ← m.bucket (s.1 * 16 + s.2)
    let h := doHash hash b.1
    if (h >>> 8).toNat % to_ ≥ prevSz then do
      let m ← m.setControl s.1 s.2 sentinel
      let (m, j) ← insertLoop fuel m (m.probe h)
      m.setBucket j b
    else .ok m

/-- The bytes of the first `n` groups, in order. -/
def slots (n : ℕ) : List (ℕ × Fin 16) :=
  (List.range n).flatMap fun i => (List.finRange 16).map fun c => (i, c)

def resize [Inhabited K] [Inhabited V] (hash : K → UInt64) (fuel : ℕ) (m : Map K V multiple)
    (to_ : ℕ) : Run (Map K V multiple) :=
  (slots m.controlBytes.length).foldlM (relocate hash fuel to_ m.controlBytes.length) (m.grow to_)

def checkResize [Inhabited K] [Inhabited V] (hash : K → UInt64) (fuel : ℕ)
    (m : Map K V multiple) : Run (Map K V multiple) :=
  if m.loadFactor then m.resize hash fuel (m.controlBytes.length * 2 % 2 ^ 32) else .ok m

/-- `Map(unsigned cap)`; from `2 ^ 30` on the shift is out of range. `Map()` is `cap = 0`. -/
def ofCapacity [Inhabited K] [Inhabited V] (hash : K → UInt64) (cap : ℕ) :
    Run (Map K V multiple) :=
  if cap < 2 ^ 30 then resize hash 0 ⟨0, [], []⟩ (2 ^ (Nat.size cap + 1)) else .error .undefined

/-! ### Operations -/

variable [DecidableEq K] [Inhabited K] [Inhabited V]

/-- The bucket of `k`, and whether it had to be added; an added bucket keeps its old value. -/
def place (hash : K → UInt64) (fuel : ℕ) (m : Map K V multiple) (k : K) :
    Run (Map K V multiple × ℕ × Bool) := do
  let m ← m.checkResize hash fuel
  let p := m.probe (doHash hash k)
  if multiple then do
    let (m, j) ← insertLoop fuel m p
    .ok (m.withCount (m.count + 1), j, true)
  else do
    match ← m.search k fuel p with
    | (_, some j) => .ok (m, j, false)
    | (p, none) => do
      match ← p.insert m with
      | (m, some j) => .ok (m.withCount (m.count + 1), j, true)
      | (_, none) => .error .undefined

def insert (hash : K → UInt64) (fuel : ℕ) (m : Map K V multiple) (k : K) (v : V) :
    Run (Map K V multiple × Option V) := do
  let (m, j, fresh) ← m.place hash fuel k
  if fresh then do
    let m ← m.setBucket j (k, v)
    .ok (m, none)
  else do
    let b ← m.bucket j
    let m ← m.setBucket j (b.1, v)
    .ok (m, some b.2)

/-- The index of the bucket whose value is referred to. -/
def upsert (hash : K → UInt64) (fuel : ℕ) (m : Map K V multiple) (k : K) :
    Run (Map K V multiple × ℕ) := do
  let (m, j, fresh) ← m.place hash fuel k
  if fresh then do
    let b ← m.bucket j
    let m ← m.setBucket j (k, b.2)
    .ok (m, j)
  else .ok (m, j)

def remove (hash : K → UInt64) (fuel : ℕ) (m : Map K V multiple) (k : K) :
    Run (Map K V multiple × Option V) := do
  match ← m.search k fuel (m.probe (doHash hash k)) with
  | (p, some j) => do
    let m ← p.remove m
    let b ← m.bucket j
    .ok (m, some b.2)
  | (_, none) => .ok (m, none)

/-! ### Finding -/

structure FindIterator where
  probe : Probe
  bucket : Option ℕ

def findLoop (m : Map K V multiple) (k : K) : ℕ → Probe → Run FindIterator
  | 0, _ => .error .diverges
  | fuel + 1, p => do
    let (p, res) ← p.match_ m k
    if res.bucket.isSome then .ok ⟨p, res.bucket⟩
    else if res.cont then findLoop m k fuel (p.next m)
    else .ok ⟨p.next m, none⟩

/-- `FindIterator::operator++`. -/
def FindIterator.next (m : Map K V multiple) (k : K) (fuel : ℕ) (it : FindIterator) :
    Run FindIterator :=
  m.findLoop k fuel (if it.bucket.isSome then it.probe.next m else it.probe)

def findBegin (hash : K → UInt64) (fuel : ℕ) (m : Map K V multiple) (k : K) : Run FindIterator :=
  FindIterator.next m k fuel ⟨m.probe (doHash hash k), none⟩

/-- `operator[]`: the value pointed to. -/
def lookup (hash : K → UInt64) (fuel : ℕ) (m : Map K V multiple) (k : K) : Run (Option V) := do
  let it ← m.findBegin hash fuel k
  match it.bucket with
  | some j => do
    let b ← m.bucket j
    .ok (some b.2)
  | none => .ok none

/-! ### Iterating -/

structure Iterator where
  c : ℕ
  iter : ℕ

/-- From byte `c` on, the first that holds an entry, or the end. -/
def scan (m : Map K V multiple) : ℕ → ℕ → ℕ → Run Iterator
  | 0, _, _ => .error .diverges
  | fuel + 1, c, iter =>
    if c < m.buckets.length then do
      let current ← m.control iter
      match ((List.finRange 16).drop (c % 16)).find? fun d => current d ≠ 0 ∧ current d ≠ sentinel with
      | some d => .ok ⟨c - c % 16 + d, iter⟩
      | none => scan m fuel (c - c % 16 + 16) (iter + 1)
    else .ok ⟨c, iter⟩

/-- `Iterator::operator++`, whose `c` is a `size_t`. -/
def Iterator.next (m : Map K V multiple) (fuel : ℕ) (it : Iterator) : Run Iterator :=
  let c := (it.c + 1) % 2 ^ 64
  m.scan fuel c (if c % 16 = 0 ∧ c ≠ 0 then it.iter + 1 else it.iter)

def begin (m : Map K V multiple) (fuel : ℕ) : Run Iterator :=
  Iterator.next m fuel ⟨2 ^ 64 - 1, 0⟩

def Iterator.remove (m : Map K V multiple) (it : Iterator) : Run (Map K V multiple) := do
  let m ← m.setControl it.iter ⟨it.c % 16, Nat.mod_lt _ (by decide)⟩ sentinel
  .ok (m.withCount (m.count - 1))

/-- The loop of `clear`, up to an end fixed when it starts. -/
def clearLoop (fuel last : ℕ) : ℕ → Map K V multiple → Iterator → Run (Map K V multiple)
  | 0, _, _ => .error .diverges
  | steps + 1, m, it =>
    if it.c ≠ last then do
      let m ← it.remove m
      let it ← it.next m fuel
      clearLoop fuel last steps m it
    else .ok m

def clear (fuel : ℕ) (m : Map K V multiple) : Run (Map K V multiple) := do
  let it ← m.begin fuel
  clearLoop fuel m.buckets.length fuel m it

/-! ### Runs -/

/-- A call; the value, if any, is stored through the reference that `upsert` returns. -/
inductive Op (K V : Type)
  | insert (k : K) (v : V)
  | upsert (k : K) (stored : Option V)
  | remove (k : K)
  | clear

/-- The call's result; for `upsert` the value first seen through the reference. -/
def apply (hash : K → UInt64) (fuel : ℕ) (m : Map K V multiple) :
    Op K V → Run (Map K V multiple × Option V)
  | .insert k v => m.insert hash fuel k v
  | .upsert k stored => do
    let (m, j) ← m.upsert hash fuel k
    let b ← m.bucket j
    match stored with
    | some v => do
      let m ← m.setBucket j (b.1, v)
      .ok (m, some b.2)
    | none => .ok (m, some b.2)
  | .remove k => m.remove hash fuel k
  | .clear => do
    let m ← m.clear fuel
    .ok (m, none)

/-- Completed calls and their results, each made in a state that meets the condition. -/
inductive Steps (hash : K → UInt64) (cond : Map K V multiple → Op K V → Prop) :
    Map K V multiple → List (Op K V × Option V) → Map K V multiple → Prop
  | nil (m) : Steps hash cond m [] m
  | cons {m m₁ m' op r l} (hcond : cond m op) (fuel : ℕ)
      (hcall : m.apply hash fuel op = .ok (m₁, r)) (hrest : Steps hash cond m₁ l m') :
      Steps hash cond m ((op, r) :: l) m'

/-- Make the calls and compare their results. -/
def replay [DecidableEq V] (hash : K → UInt64) (fuel : ℕ) (m : Map K V multiple) :
    List (Op K V × Option V) → Run (Map K V multiple)
  | [] => .ok m
  | call :: l => do
    let (m, r) ← m.apply hash fuel call.1
    if r = call.2 then replay hash fuel m l else .error .assertion

lemma Steps.of_replay [DecidableEq V] {hash : K → UInt64} {fuel : ℕ} {m m' : Map K V multiple}
    {l : List (Op K V × Option V)} (h : m.replay hash fuel l = .ok m') :
    Steps hash (fun _ _ => True) m l m' := by
  induction l generalizing m with
  | nil =>
    cases h
    exact .nil _
  | cons call l ih =>
    unfold replay at h
    obtain ⟨⟨m₁, r⟩, hcall, h⟩ := Run.bind_eq_ok.1 h
    dsimp only at h
    split_ifs at h with hr
    subst hr
    exact .cons trivial fuel hcall (ih h)

end Map
end CoreCommon
