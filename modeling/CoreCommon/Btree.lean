import CoreCommon.AvlTree
import CoreCommon.Fault

/-! The AVL tree with parent links, as nodes in memory. A `std::unique_ptr` is the address that
it owns, or none. The functions that the source has once for each side take the side as a
Boolean, `true` for the right one. Loops run on fuel. -/
namespace CoreCommon.Btree
open AvlTree (sign)

structure Node (K V : Type) where
  parent : Option ℕ
  /-- Whether `root` points to the `Root`, and not to null. -/
  root : Bool
  hDiff : ℤ
  x : K
  v : V
  left : Option ℕ
  right : Option ℕ

/-- The nodes, and the pointer `ptr` of the one `Root`. -/
structure Heap (K V : Type) where
  ptr : Option ℕ
  /-- Addresses from here on have never been used. -/
  fresh : ℕ
  cell : ℕ → Option (Node K V)

/-- A `std::unique_ptr` in memory. -/
inductive Slot
  | top
  | child (d : Bool) (a : ℕ)
  deriving DecidableEq

variable {K V : Type}

/-! ### Memory -/

namespace Node

def child (d : Bool) (n : Node K V) : Option ℕ := if d then n.right else n.left

def setChild (d : Bool) (p : Option ℕ) (n : Node K V) : Node K V :=
  if d then { n with right := p } else { n with left := p }

def setParent (p : Option ℕ) (n : Node K V) : Node K V := { n with parent := p }

def setRoot (b : Bool) (n : Node K V) : Node K V := { n with root := b }

def setHDiff (h : ℤ) (n : Node K V) : Node K V := { n with hDiff := h }

end Node

/-- Dereferencing a pointer. -/
def deref : Option ℕ → Run ℕ
  | some a => .ok a
  | none => .error .undefined

namespace Heap

def empty : Heap K V := ⟨none, 0, fun _ => none⟩

def node (s : Heap K V) (a : ℕ) : Run (Node K V) :=
  match s.cell a with
  | some n => .ok n
  | none => .error .undefined

def withNode (s : Heap K V) (a : ℕ) (n : Node K V) : Heap K V :=
  { s with cell := Function.update s.cell a (some n) }

def withPtr (s : Heap K V) (p : Option ℕ) : Heap K V := { s with ptr := p }

def modify (s : Heap K V) (a : ℕ) (f : Node K V → Node K V) : Run (Heap K V) := do
  let n ← s.node a
  .ok (s.withNode a (f n))

def load (s : Heap K V) : Slot → Run (Option ℕ)
  | .top => .ok s.ptr
  | .child d a => do
    let n ← s.node a
    .ok (n.child d)

def store (s : Heap K V) : Slot → Option ℕ → Run (Heap K V)
  | .top, p => .ok (s.withPtr p)
  | .child d a, p => s.modify a (Node.setChild d p)

/-- `std::unique_ptr::swap`. -/
def swap (s : Heap K V) (l l' : Slot) : Run (Heap K V) := do
  let p ← s.load l
  let p' ← s.load l'
  let s ← s.store l p'
  s.store l' p

/-- `if (p) p->parent = a;` -/
def adopt (s : Heap K V) (p : Option ℕ) (a : Option ℕ) : Run (Heap K V) :=
  match p with
  | some b => s.modify b (Node.setParent a)
  | none => .ok s

/-- `std::make_unique`. -/
def alloc (s : Heap K V) (n : Node K V) : Heap K V × ℕ :=
  ({ s.withNode s.fresh n with fresh := s.fresh + 1 }, s.fresh)

/-- Deletes what the pointer owns. -/
def destroy : ℕ → Heap K V → Option ℕ → Run (Heap K V)
  | _, s, none => .ok s
  | 0, _, some _ => .error .diverges
  | fuel + 1, s, some a => do
    let n ← s.node a
    let s ← s.destroy fuel n.right
    let s ← s.destroy fuel n.left
    .ok { s with cell := Function.update s.cell a none }

/-- Move assignment to a `std::unique_ptr`. -/
def assign (fuel : ℕ) (s : Heap K V) (l : Slot) (p : Option ℕ) : Run (Heap K V) := do
  let old ← s.load l
  let s ← s.store l p
  s.destroy fuel old

/-! ### Rotations -/

/-- `parent_ptr`, always dereferenced by its callers. -/
def parentPtr (s : Heap K V) (a : ℕ) : Run Slot := do
  let n ← s.node a
  match n.parent with
  | some q => do
    let nq ← s.node q
    .ok (if nq.left = some a then .child false q else .child true q)
  | none => if n.root then .ok .top else .error .undefined

/-- The links of a rotation that lifts the child on side `d` above its parent. -/
def lift (d : Bool) (s : Heap K V) (a : ℕ) : Run (Heap K V × ℕ) := do
  let ptr ← s.parentPtr a
  let s ← s.store ptr none
  let s ← s.swap ptr (.child d a)
  let p ← deref (← s.load ptr)
  let s ← s.swap (.child d a) (.child (!d) p)
  let s ← s.adopt (← s.load (.child d a)) (some a)
  let s ← s.store (.child (!d) p) (some a)
  let n ← s.node a
  let s ← s.modify p (Node.setParent n.parent)
  let s ← s.modify a (Node.setParent (some p))
  let n ← s.node a
  let np ← s.node p
  let s ← s.modify p (Node.setRoot n.root)
  let s ← s.modify a (Node.setRoot np.root)
  .ok (s, p)

def rot (d : Bool) (s : Heap K V) (a : ℕ) : Run (Heap K V × ℕ) := do
  let (s, p) ← s.lift d a
  let n ← s.node a
  let np ← s.node p
  let h := if sign d * np.hDiff ≤ 0 then n.hDiff - sign d else n.hDiff - (np.hDiff + sign d)
  let hp := if 0 ≤ sign d * h then np.hDiff - sign d else np.hDiff + (h - sign d)
  let s ← s.modify a (Node.setHDiff h)
  let s ← s.modify p (Node.setHDiff hp)
  .ok (s, p)

def rotRight (s : Heap K V) (a : ℕ) : Run (Heap K V × ℕ) := s.rot true a

def rotLeft (s : Heap K V) (a : ℕ) : Run (Heap K V × ℕ) := s.rot false a

def rotate (d : Bool) (s : Heap K V) (a : ℕ) : Run (Heap K V × ℕ) :=
  if d then s.rotRight a else s.rotLeft a

lemma rotate_eq (d : Bool) (s : Heap K V) (a : ℕ) : s.rotate d a = s.rot d a := by
  cases d <;> rfl

/-! ### Rebalancing -/

/-- The first half of a double rotation, when the child on side `d` leans the other way. -/
def straighten (d : Bool) (s : Heap K V) (a : ℕ) : Run (Heap K V) := do
  let n ← s.node a
  let c ← deref (n.child d)
  let nc ← s.node c
  if nc.hDiff = -sign d then do
    let (s, _) ← s.rotate (!d) c
    let n ← s.node a
    let c ← deref (n.child d)
    let nc ← s.node c
    if nc.hDiff = sign d ∨ nc.hDiff = 2 * sign d then .ok s else .error .assertion
  else .ok s

/-- Whether `a` is the right child of its parent. -/
def isRight (s : Heap K V) (a : ℕ) : Run Bool := do
  let n ← s.node a
  match n.parent with
  | some q => do
    let nq ← s.node q
    .ok (nq.right = some a)
  | none => .ok false

def rebalance : ℕ → Heap K V → Option ℕ → Bool → Bool → Run (Heap K V × Option ℕ)
  | _, s, none, _, _ => .ok (s, none)
  | 0, _, some _, _, _ => .error .diverges
  | fuel + 1, s, some a, rInc, rem => do
    let isRight ← s.isRight a
    let n ← s.node a
    let h := n.hDiff + sign rInc
    let s ← s.modify a (Node.setHDiff h)
    if 2 ≤ sign rInc * h then do
      let s ← s.straighten rInc a
      let (s, a) ← s.rotate rInc a
      let n ← s.node a
      if rem ∧ n.hDiff ≠ -sign rInc then s.rebalance fuel n.parent (!isRight) rem
      else if ¬ rem ∧ n.hDiff = -sign rInc then s.rebalance fuel n.parent isRight rem
      else .ok (s, some a)
    else if 0 < sign rInc * h ∧ ¬ rem then s.rebalance fuel n.parent isRight rem
    else if sign rInc * h ≤ 0 ∧ rem then s.rebalance fuel n.parent (!isRight) rem
    else .ok (s, some a)

/-! ### Finding -/

/-- The first loop of `find`: where it stops, and whether the key there is equal. -/
def descend (cmp : K → K → Bool) (fx : K) : ℕ → Heap K V → ℕ → Run (ℕ × Bool)
  | 0, _, _ => .error .diverges
  | fuel + 1, s, a => do
    let n ← s.node a
    let lt := cmp fx n.x
    let gt := cmp n.x fx
    match n.left, n.right with
    | some l, some r =>
      if lt then s.descend cmp fx fuel l
      else if gt then s.descend cmp fx fuel r
      else .ok (a, !lt && !gt)
    | some l, none => if lt then s.descend cmp fx fuel l else .ok (a, !lt && !gt)
    | none, some r => if gt then s.descend cmp fx fuel r else .ok (a, !lt && !gt)
    | none, none => .ok (a, !lt && !gt)

/-- The inner loop over equal keys: the last of them, and its left child. -/
def skipEqual (cmp : K → K → Bool) (fx : K) :
    ℕ → Heap K V → ℕ → Option ℕ → Run (ℕ × Option ℕ)
  | _, _, a, none => .ok (a, none)
  | 0, _, _, some _ => .error .diverges
  | fuel + 1, s, a, some next => do
    let n ← s.node next
    if !cmp fx n.x && !cmp n.x fx then s.skipEqual cmp fx fuel next n.left
    else .ok (a, some next)

/-- The inner loop over smaller keys. -/
def skipLess (cmp : K → K → Bool) (fx : K) : ℕ → Heap K V → Option ℕ → Run (Option ℕ)
  | _, _, none => .ok none
  | 0, _, some _ => .error .diverges
  | fuel + 1, s, some next => do
    let n ← s.node next
    if cmp n.x fx then s.skipLess cmp fx fuel n.right else .ok (some next)

def firstEqual (cmp : K → K → Bool) (fx : K) (fuel : ℕ) :
    ℕ → Heap K V → ℕ → Option ℕ → Run ℕ
  | _, _, a, none => .ok a
  | 0, _, _, some _ => .error .diverges
  | rounds + 1, s, a, some next => do
    let (a, next) ← s.skipEqual cmp fx fuel a (some next)
    let next ← s.skipLess cmp fx fuel next
    s.firstEqual cmp fx fuel rounds a next

/-- `Node::find`. -/
def find (cmp : K → K → Bool) (fuel : ℕ) (s : Heap K V) (a : ℕ) (fx : K) : Run ℕ := do
  let (a, eq) ← s.descend cmp fx fuel a
  if eq then do
    let n ← s.node a
    s.firstEqual cmp fx fuel fuel a n.left
  else .ok a

/-! ### Inserting -/

/-- The node becomes the child of `res` on side `d`. -/
def link (fuel : ℕ) (d : Bool) (s : Heap K V) (res node : ℕ) : Run (Heap K V) := do
  let s ← s.assign fuel (.child d res) (some node)
  s.modify (← deref (← s.load (.child d res))) (Node.setParent (some res))

def attach (fuel : ℕ) (d : Bool) (s : Heap K V) (res node : ℕ) : Run (Heap K V) := do
  let s ← s.link fuel d res node
  let (s, _) ← s.rebalance fuel (some res) d false
  .ok s

def insertNode (cmp : K → K → Bool) (fuel : ℕ) : ℕ → Heap K V → ℕ → ℕ → Run (Heap K V)
  | 0, _, _, _ => .error .diverges
  | depth + 1, s, this, node => do
    let n ← s.node node
    let res ← s.find cmp fuel this n.x
    let r ← s.node res
    if cmp n.x r.x then s.attach fuel false res node
    else match cmp r.x n.x, r.right with
      | false, some right => s.insertNode cmp fuel depth right node
      | _, _ => s.attach fuel true res node

/-- `Root::insert`: the new node. -/
def insert (cmp : K → K → Bool) (fuel : ℕ) (s : Heap K V) (k : K) (v : V) :
    Run (Heap K V × ℕ) :=
  match s.ptr with
  | some top => do
    let (s, node) := s.alloc ⟨none, false, 0, k, v, none, none⟩
    let s ← s.insertNode cmp fuel fuel top node
    .ok (s, node)
  | none =>
    let (s, node) := s.alloc ⟨none, true, 0, k, v, none, none⟩
    .ok (s.withPtr (some node), node)

/-! ### Removing -/

/-- The last left link below a link that is not null. -/
def leftmost : ℕ → Heap K V → Slot → Run Slot
  | 0, _, _ => .error .diverges
  | fuel + 1, s, rl => do
    let c ← deref (← s.load rl)
    let n ← s.node c
    if n.left.isSome then s.leftmost fuel (.child false c) else .ok rl

/-- Takes the in-order successor of `a` out; also its old parent, or itself below `a`, and
whether it was a left child. -/
def takeNext (fuel : ℕ) (s : Heap K V) (a : ℕ) : Run (Heap K V × ℕ × Option ℕ × Bool) := do
  let rl ← s.leftmost fuel (.child true a)
  let p ← s.load rl
  let right ← s.load (.child true a)
  let leftChild := decide (p ≠ right)
  let m ← deref p
  let s ← s.store rl none
  let n ← s.node m
  let prevParent := if leftChild then n.parent else some m
  if n.right.isSome then do
    let s ← s.swap rl (.child true m)
    let s ← s.adopt (← s.load rl) prevParent
    .ok (s, m, prevParent, leftChild)
  else .ok (s, m, prevParent, leftChild)

/-- Puts `m` in the place of `a`, which the returned pointer then owns. -/
def takePlace (fuel : ℕ) (s : Heap K V) (a m : ℕ) (ptr : Slot) : Run (Heap K V × Option ℕ) := do
  let prevR ← s.load (.child true a)
  let s ← s.store (.child true a) none
  let s ← s.adopt prevR (some m)
  let l ← s.load (.child false a)
  let s ← (if l.isSome then s.swap (.child false m) (.child false a) else .ok s)
  let s ← s.adopt l (some m)
  let n ← s.node a
  let s ← s.modify m (Node.setHDiff n.hDiff)
  let s ← s.assign fuel (.child true m) prevR
  let s ← s.modify m (Node.setParent n.parent)
  let s ← s.modify m (Node.setRoot n.root)
  let ret ← s.load ptr
  let s ← s.store ptr (some m)
  .ok (s, ret)

/-- Removes a node with two children. -/
def splice (fuel : ℕ) (s : Heap K V) (a : ℕ) (ptr : Slot) : Run (Heap K V × Option ℕ) := do
  let (s, m, prevParent, leftChild) ← s.takeNext fuel a
  let (s, ret) ← s.takePlace fuel a m ptr
  let (s, _) ← s.rebalance fuel (some (← deref prevParent)) leftChild true
  .ok (s, ret)

/-- Puts the only child of a node, or null, in its place. -/
def unlink (fuel : ℕ) (s : Heap K V) (a : ℕ) (ptr : Slot) (ret : Option ℕ) :
    Run (Heap K V × Option ℕ) := do
  let old ← s.load ptr
  let s ← s.store ptr ret
  let n ← s.node a
  match n.parent with
  | some q => do
    let (s, _) ← s.rebalance fuel (some q) (Slot.child false q = ptr) true
    .ok (s, old)
  | none => .ok (s, old)

/-- Takes the only child, on side `d`, out of `a` and hangs it where `a` is. -/
def takeChild (d : Bool) (s : Heap K V) (a c : ℕ) : Run (Heap K V) := do
  let s ← s.store (.child d a) none
  let n ← s.node a
  let s ← s.modify c (Node.setParent n.parent)
  s.modify c (Node.setRoot n.root)

/-- `Node::remove`: what the returned `std::unique_ptr` owns. -/
def remove (fuel : ℕ) (s : Heap K V) (a : ℕ) : Run (Heap K V × Option ℕ) := do
  let ptr ← s.parentPtr a
  let n ← s.node a
  match n.left, n.right with
  | some _, some _ => s.splice fuel a ptr
  | some c, none => do
    let s ← s.takeChild false a c
    s.unlink fuel a ptr (some c)
  | none, some c => do
    let s ← s.takeChild true a c
    s.unlink fuel a ptr (some c)
  | none, none => s.unlink fuel a ptr none

end Heap
end CoreCommon.Btree
