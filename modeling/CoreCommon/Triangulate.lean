import Mathlib
import CoreCommon.Fault
import CoreCommon.Walk

/-! `triangulate_monotone` over exact coordinates. A chain is listed from its back, so that a
reverse iterator is a position in it; vertices are indices without `elem_offset`. -/
namespace CoreCommon.Triangulate

structure Point where
  x : ℚ
  y : ℚ
  deriving DecidableEq

instance : Sub Point := ⟨fun a b => ⟨a.x - b.x, a.y - b.y⟩⟩

@[simp] lemma Point.sub_x (a b : Point) : (a - b).x = a.x - b.x := rfl
@[simp] lemma Point.sub_y (a b : Point) : (a - b).y = a.y - b.y := rfl

def Point.determinant (a b : Point) : ℚ := a.x * b.y - a.y * b.x

/-- `left` and `right` from the top vertex down, as the sweep has pushed them. -/
structure MonotonePolygon where
  left : List ℕ
  right : List ℕ

/-- The locals of the lambda. -/
structure State where
  chain : List ℕ
  iter : ℕ
  other : List ℕ
  otherIter : ℕ
  iterLeft : Bool
  switched : Bool
  elements : List (ℕ × ℕ × ℕ)

/-- `*iter`. -/
def deref (chain : List ℕ) (iter : ℕ) : Run ℕ :=
  match chain[iter]? with
  | some v => .ok v
  | none => .error .undefined

section code
variable (p : ℕ → Point)

/-- The point of the one iterator is at most as high as that of the other. -/
def atMost (v w : ℕ) : Bool := (p v).y < (p w).y ∨ (p v).y = (p w).y ∧ (p v).x ≤ (p w).x

/-- The condition of the inner loop. -/
def goesOn (st : State) : Bool :=
  match st.chain[st.iter]?, st.other[st.otherIter]? with
  | none, _ => false
  | some _, none => true
  | some v, some w => atMost p v w

/-- `(iter_left && d<0) || (!iter_left && d>0)` -/
def cuts (iterLeft : Bool) (d : ℚ) : Bool := (iterLeft ∧ d < 0) ∨ (¬ iterLeft ∧ d > 0)

/-- The loop over `iter_cpy`, down to the back of the chain; it ends with the chain, `iter`,
the elements and `iter_cpy`. Erasing below `iter` moves it along. -/
def cutEars (iterLeft : Bool) : ℕ → List ℕ → ℕ → List (ℕ × ℕ × ℕ) →
    Run (List ℕ × ℕ × List (ℕ × ℕ × ℕ) × ℕ)
  | 0, chain, iter, elements => .ok (chain, iter, elements, 0)
  | iterCpy + 1, chain, iter, elements => do
    let v ← deref chain iter
    let b ← deref chain (iterCpy + 1)
    let a ← deref chain iterCpy
    if cuts iterLeft ((p b - p a).determinant (p v - p a)) then
      cutEars iterLeft iterCpy (chain.eraseIdx (iterCpy + 1)) (iter - 1) (elements ++ [(v, b, a)])
    else .ok (chain, iter, elements, iterCpy + 1)

/-- A vertex on the chain of the one before. -/
def stepSame (st : State) : Run State := do
  let (chain, iter, elements, iterCpy) ←
    cutEars p st.iterLeft (st.iter - 1) st.chain st.iter st.elements
  if iterCpy = 0 then do
    let k ← deref chain 0
    let next ← deref chain 1
    let v ← deref chain iter
    let o ← deref st.other 0
    if cuts st.iterLeft ((p next - p k).determinant (p v - p o)) then
      .ok { st with chain := chain.tail, iter := 0, elements := elements ++ [(k, v, o)] }
    else .ok { st with chain, iter, elements }
  else .ok { st with chain, iter, elements }

/-- The triangles of a vertex with the vertices below the other iterator, but for the top. -/
def fanOther (other : List ℕ) (v : ℕ) (n : ℕ) (elements : List (ℕ × ℕ × ℕ)) :
    Run (List (ℕ × ℕ × ℕ)) :=
  (List.range' 1 n).foldlM (fun elements i => do
    let b ← deref other i
    let a ← deref other (i - 1)
    .ok (elements ++ [(b, v, a)])) elements

/-- The first vertex after a change of chains. -/
def stepSwitched (st : State) : Run State := do
  let v ← deref st.chain st.iter
  let back ← deref st.chain 0
  let elements ←
    if v ≠ back then do
      let o ← deref st.other 0
      .ok (if o ≠ v then st.elements ++ [(back, v, o)] else st.elements)
    else .ok st.elements
  let elements ← fanOther st.other v (min st.otherIter (st.other.length - 1) - 1) elements
  .ok { st with
    chain := if v ≠ back then st.chain.tail else st.chain
    iter := 0
    other := if st.otherIter > 1 then st.other.drop (st.otherIter - 1) else st.other
    otherIter := if st.otherIter > 1 then 1 else st.otherIter
    switched := false
    elements }

/-- The body of the inner loop. -/
def step (st : State) : Run State := do
  let st ←
    if st.iter > 1 ∨ (¬ st.switched ∧ st.iter ≠ 0) then stepSame p st
    else if st.switched then stepSwitched st
    else .ok st
  .ok { st with iter := st.iter + 1 }

def innerLoop : ℕ → State → Run State
  | 0, _ => .error .diverges
  | fuel + 1, st =>
    if goesOn p st then do
      let st ← step p st
      innerLoop fuel st
    else .ok st

def swap (st : State) : State :=
  ⟨st.other, st.otherIter, st.chain, st.iter, !st.iterLeft, true, st.elements⟩

def outerLoop (fuel : ℕ) : ℕ → State → Run (List (ℕ × ℕ × ℕ))
  | 0, _ => .error .diverges
  | rounds + 1, st =>
    if st.iter ≠ st.chain.length ∨ st.otherIter ≠ st.other.length then do
      let st ← innerLoop p fuel st
      outerLoop fuel rounds (swap st)
    else .ok st.elements

def triangulateMonotone (fuel : ℕ) (poly : MonotonePolygon) : Run (List (ℕ × ℕ × ℕ)) :=
  outerLoop p fuel fuel ⟨poly.left.reverse, 0, poly.right.reverse, 0, true, false, []⟩

/-! ### Tilings -/

/-- Twice the area of a triangle, positive when it is passed counterclockwise. -/
def area (a b c : ℕ) : ℚ := (p b - p a).determinant (p c - p a)

/-- The same, positive when `c` faces the edge of the given chain from `a` up to `b`. -/
def side (left : Bool) (a b c : ℕ) : ℚ := if left then area p a b c else -area p a b c

def cross (a b : ℕ) : ℚ := (p a).determinant (p b)

/-- The order of the sweep. -/
def Below (v w : ℕ) : Prop := (p v).y < (p w).y ∨ (p v).y = (p w).y ∧ (p v).x < (p w).x

instance (v w : ℕ) : Decidable (Below p v w) := inferInstanceAs (Decidable (_ ∨ _))

namespace MonotonePolygon

/-- The number of vertices; both chains have the top. -/
def size (poly : MonotonePolygon) : ℕ := poly.left.length + poly.right.length - 1

/-- From the top down the left chain and up the right one. -/
def boundary (poly : MonotonePolygon) : List ℕ := poly.left ++ poly.right.reverse

/-- A side of the polygon from the bottom up. -/
def path (poly : MonotonePolygon) : Bool → List ℕ
  | true => poly.left.reverse
  | false => poly.left.getLast?.toList ++ poly.right.reverse

/-- A simple polygon as the sweep hands it over. Its sides do not meet between the ends, and the
left one has the larger x: a vertex of one side lies properly inside the edges of the other that it
is between the ends of. -/
structure Simple (poly : MonotonePolygon) : Prop where
  size_ge : 3 ≤ poly.size
  top : ∃ top, poly.left.head? = some top ∧ poly.right.head? = some top
  left_descends : poly.left.Pairwise fun v w => Below p w v
  right_descends : poly.right.Pairwise fun v w => Below p w v
  bottom : ∀ b ∈ poly.left.getLast?, ∀ w ∈ poly.right, Below p b w
  distinct : ∀ v ∈ poly.left.tail, ∀ w ∈ poly.right.tail, p v ≠ p w
  apart : ∀ left, (poly.path left).IsChain fun a b =>
    ∀ w ∈ poly.path (!left), Below p a w → Below p w b → 0 < side p left a b w

end MonotonePolygon

/-- The triangles over the polygon's vertices, as many as a triangulation has and of its area. -/
structure Tiles (poly : MonotonePolygon) (triangles : List (ℕ × ℕ × ℕ)) : Prop where
  count : triangles.length + 2 = poly.size
  vertices : ∀ t ∈ triangles, t.1 ∈ poly.boundary ∧ t.2.1 ∈ poly.boundary ∧ t.2.2 ∈ poly.boundary
  fills : (triangles.map fun t => |area p t.1 t.2.1 t.2.2|).sum =
    |Walk.total (cross p) poly.boundary|

/-! ### Tame polygons -/

/-- A run of vertices without its leading edges that face a point. -/
def peel (left : Bool) (o : ℕ) : List ℕ → List ℕ
  | a :: b :: run => if 0 < side p left a b o then peel left o (b :: run) else a :: b :: run
  | run => run

def Convex (left : Bool) : List ℕ → Prop
  | a :: b :: c :: run => 0 ≤ side p left a b c ∧ Convex left (b :: c :: run)
  | _ => True

instance decidableConvex (left : Bool) : ∀ run, Decidable (Convex p left run)
  | a :: b :: c :: run =>
    have := decidableConvex left (b :: c :: run)
    inferInstanceAs (Decidable (0 ≤ side p left a b c ∧ Convex p left (b :: c :: run)))
  | [_, _] => .isTrue trivial
  | [_] => .isTrue trivial
  | [] => .isTrue trivial

/-- A run on one chain between a vertex `o` and a vertex `v` of the other chain: what remains of it
past the edges that face `o` turns towards the inside, and faces `v`. -/
structure RunTame (left : Bool) (o v : ℕ) (run : List ℕ) : Prop where
  convex : Convex p left (peel p left o run)
  faces : (peel p left o run).IsChain fun a b => 0 ≤ side p left a b v

instance (left : Bool) (o v : ℕ) (run : List ℕ) : Decidable (RunTame p left o v run) :=
  decidable_of_iff (Convex p left (peel p left o run) ∧
    (peel p left o run).IsChain fun a b => 0 ≤ side p left a b v)
    ⟨fun h => ⟨h.1, h.2⟩, fun h => ⟨h.convex, h.faces⟩⟩

/-- All runs from one that has begun on the given chain, with the vertices above it. -/
def RunsTame (top : ℕ) (left : Bool) (o : ℕ) (run : List ℕ) : List (Bool × ℕ) → Prop
  | [] => RunTame p left o top run
  | (chain, v) :: above =>
    if chain = left then RunsTame top left o (run ++ [v]) above
    else RunTame p left o v run ∧ RunsTame top chain (run.getLastD o) [v] above

instance decidableRunsTame (top : ℕ) (left : Bool) (o : ℕ) (run : List ℕ) :
    ∀ above, Decidable (RunsTame p top left o run above)
  | [] => inferInstanceAs (Decidable (RunTame p left o top run))
  | (chain, v) :: above =>
    have := decidableRunsTame top left o (run ++ [v]) above
    have := decidableRunsTame top chain (run.getLastD o) [v] above
    inferInstanceAs (Decidable (if chain = left then RunsTame p top left o (run ++ [v]) above
      else RunTame p left o v run ∧ RunsTame p top chain (run.getLastD o) [v] above))

/-- The vertices below the top in the order of the sweep, each with its chain. -/
def sweep (poly : MonotonePolygon) : List (Bool × ℕ) :=
  (poly.left.tail.reverse.map (true, ·)).merge (poly.right.tail.reverse.map (false, ·))
    fun v w => atMost p v.2 w.2

/-- Every run of vertices on one chain is tame; the first has the lowest vertex of the right chain
for the vertex before it. -/
def Tame (poly : MonotonePolygon) : Prop :=
  ∀ top o bottom above, poly.left.head? = some top → poly.right.getLast? = some o →
    sweep p poly = (true, bottom) :: above → RunsTame p top true o [bottom] above

end code
end CoreCommon.Triangulate
