import CoreCommon.Fault

/-! Vectors, matrices and the quaternions `Rotation3D` of `field.hpp` and `field.cpp`, with
rational numbers for `float`. The action of a quaternion keeps one square of the cosine too few,
so that the quaternion 1 takes every vector to zero. -/
namespace CoreCommon

/-- `Vector<n>`. -/
abbrev Vector (n : ℕ) := Fin n → ℚ

abbrev Vec3 := Vector 3

namespace Vector
variable {n : ℕ}

/-- `v[i]`; the array has no element past its end. -/
def at_ (v : Vector n) (i : ℕ) : Run ℚ := if h : i < n then .ok (v ⟨i, h⟩) else .error .undefined

def dot (v w : Vector n) : ℚ := ∑ i, v i * w i

def normSq (v : Vector n) : ℚ := v.dot v

/-- `operator*(float)`. -/
def scale (v : Vector n) (x : ℚ) : Vector n := fun i => v i * x

end Vector

/-- `Vec3::cross`. -/
def Vec3.cross (v w : Vec3) : Vec3 :=
  ![v 1 * w 2 - v 2 * w 1, v 0 * w 2 - v 2 * w 0, v 0 * w 1 - v 1 * w 0]

/-- `Mat3`, by its columns. -/
abbrev Mat3 := Fin 3 → Vec3

namespace Mat3

/-- `Matrix(float diag)`. -/
def diag (x : ℚ) : Mat3 := fun col row => if row = col then x else 0

/-- `Matrix::cross`, by columns; the first element of the second one is read past the vector. -/
def cross (vec : Vec3) : Run Mat3 := do
  let x ← vec.at_ 3
  .ok ![![0, -vec 2, vec 1], ![x, 0, -vec 0], ![-vec 1, vec 0, 0]]

/-- `outer_product`. -/
def outerProduct (v w : Vec3) : Mat3 := fun i => v.scale (w i)

def scale (m : Mat3) (x : ℚ) : Mat3 := fun i => (m i).scale x

/-- The linear map with these columns. -/
def apply (m : Mat3) (v : Vec3) : Vec3 := ∑ i, (m i).scale (v i)

end Mat3

structure Rotation3D where
  cos : ℚ
  axis : Vec3

namespace Rotation3D

/-- `from_quat`. -/
def fromQuat (sin_axis : Vec3) (cos : ℚ) : Rotation3D := ⟨cos, sin_axis⟩

/-- `operator*=`. -/
def mulAssign (p q : Rotation3D) : Rotation3D :=
  ⟨p.cos * q.cos - q.axis.dot p.axis,
    q.axis.scale p.cos + p.axis.scale q.cos + Vec3.cross p.axis q.axis⟩

def conjugate (q : Rotation3D) : Rotation3D := fromQuat (-q.axis) q.cos

def toMatrix (q : Rotation3D) : Run Mat3 := do
  let cprod ← Mat3.cross q.axis
  .ok (Mat3.diag (q.cos * q.cos - 1) + Mat3.outerProduct q.axis (q.axis.scale 2) +
    (cprod.scale 2).scale q.cos)

/-- `operator*` with a vector. -/
def mul (q : Rotation3D) (v : Vec3) : Vec3 :=
  let c := Vec3.cross q.axis v
  v.scale (q.cos * q.cos - 1) + q.axis.scale (q.axis.dot (v.scale 2)) + (c.scale 2).scale q.cos

/-- A quaternion of norm one. -/
def Unit (q : Rotation3D) : Prop := q.cos ^ 2 + q.axis.normSq = 1

/-- The laws of an action by rotations, at two quaternions and a vector. -/
structure Acts (p q : Rotation3D) (v : Vec3) : Prop where
  one : (fromQuat 0 1).mul v = v
  norm : (q.mul v).normSq = v.normSq
  inverse : q.conjugate.mul (q.mul v) = v
  product : (p.mulAssign q).mul v = p.mul (q.mul v)
  matrix : ∃ m, q.toMatrix = .ok m ∧ m.apply v = q.mul v

/-- The quaternion 1 takes every vector to zero. -/
lemma one_mul (v : Vec3) : (fromQuat 0 1).mul v = 0 := by
  funext i
  fin_cases i <;> simp [fromQuat, mul, Vector.scale, Vector.dot, Vec3.cross]

/-- No matrix is made without reading past the axis. -/
lemma toMatrix_undefined (q : Rotation3D) : q.toMatrix = .error .undefined := rfl

/-- Whatever the quaternions, no vector is acted on as the laws say: the quaternion 1 moves every
vector but zero, and on zero there is no matrix to agree with. -/
theorem not_acts (p q : Rotation3D) (v : Vec3) : ¬Acts p q v := by
  intro h
  by_cases hv : v = 0
  · obtain ⟨m, hm, -⟩ := h.matrix
    rw [toMatrix_undefined] at hm
    cases hm
  · have hone := h.one
    rw [one_mul] at hone
    exact hv hone.symm

/-- The quaternion 1 takes `(1, 0, 0)` to zero. -/
theorem one_moves_first_axis : (fromQuat 0 1).mul ![1, 0, 0] = 0 ∧
    ¬∀ p q : Rotation3D, p.Unit → q.Unit → ∀ v, Acts p q v := by
  refine ⟨one_mul _, fun h => ?_⟩
  have hunit : (fromQuat 0 1).Unit := by
    simp [Unit, fromQuat, Vector.normSq, Vector.dot]
  have hone := (h _ _ hunit hunit ![1, 0, 0]).one
  rw [one_mul] at hone
  have hfirst := congrFun hone 0
  simp at hfirst

end Rotation3D
end CoreCommon
