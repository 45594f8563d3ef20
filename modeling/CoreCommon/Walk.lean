import Mathlib

/-! Sums of an edge weight along a walk. When the weight changes sign with the direction of the
edge, the sum round a polygon is that of the triangles any vertex sees its edges under. -/
namespace CoreCommon.Walk
variable {α R : Type} [AddCommGroup R]

def total (c : α → α → R) : List α → R
  | a :: b :: l => c a b + total c (b :: l)
  | _ => 0

def around (c : α → α → R) (a b d : α) : R := c a b + c b d + c d a

section weight
variable {c : α → α → R}

@[simp] lemma total_nil : total c [] = 0 := rfl
@[simp] lemma total_singleton (a : α) : total c [a] = 0 := rfl
@[simp] lemma total_cons_cons (a b : α) (l : List α) :
    total c (a :: b :: l) = c a b + total c (b :: l) := rfl

/-- A walk through a point is the walk to it and the walk from it. -/
lemma total_append (l : List α) (a : α) (l' : List α) :
    total c (l ++ a :: l') = total c (l ++ [a]) + total c (a :: l') := by
  induction l with
  | nil => simp
  | cons x l ih =>
    cases l with
    | nil => simp
    | cons y l =>
      simp only [List.cons_append, total_cons_cons] at ih ⊢
      rw [ih, add_assoc]

lemma around_rotate (a b d : α) : around c b d a = around c a b d := by
  unfold around
  abel

variable (hc : ∀ a b, c b a = -c a b)
include hc

lemma total_reverse (l : List α) : total c l.reverse = -total c l := by
  induction l with
  | nil => simp
  | cons a l ih =>
    cases l with
    | nil => simp
    | cons b l =>
      rw [List.reverse_cons, List.reverse_cons, List.append_assoc, List.singleton_append,
        total_append, ← List.reverse_cons, ih]
      simp only [total_cons_cons, total_singleton, add_zero, hc a b]
      abel

lemma around_swap (a b d : α) : around c b a d = -around c a b d := by
  unfold around
  rw [hc a b, hc d a, hc b d]
  abel

end weight

/-! ### Absolute values -/

section abs
variable [LinearOrder R] [IsOrderedAddMonoid R]

lemma sum_le_sum_abs (xs : List R) : xs.sum ≤ (xs.map fun x => |x|).sum := by
  induction xs with
  | nil => exact le_rfl
  | cons x xs ih => exact add_le_add (le_abs_self x) ih

lemma sum_abs_eq_sum_iff (xs : List R) :
    (xs.map fun x => |x|).sum = xs.sum ↔ ∀ x ∈ xs, 0 ≤ x := by
  induction xs with
  | nil => simp
  | cons x xs ih =>
    rw [List.forall_mem_cons, ← ih, ← abs_eq_self, List.map_cons, List.sum_cons, List.sum_cons]
    have hx := le_abs_self x
    have hxs := sum_le_sum_abs xs
    constructor
    · intro h
      exact ⟨(le_antisymm hx (le_of_add_le_add_right (h.le.trans (add_le_add_right hxs x)))).symm,
        (le_antisymm hxs (le_of_add_le_add_left (h.le.trans (add_le_add_left hx _)))).symm⟩
    · rintro ⟨hx, hxs⟩
      rw [hx, hxs]

/-- When one summand is positive, none of the others may be negative. -/
lemma sum_abs_eq_abs_sum_iff {xs : List R} (hpos : ∃ x ∈ xs, 0 < x) :
    (xs.map fun x => |x|).sum = |xs.sum| ↔ ∀ x ∈ xs, 0 ≤ x := by
  rw [← sum_abs_eq_sum_iff]
  refine ⟨fun h => ?_, fun h => ?_⟩
  · rcases abs_choice xs.sum with hsum | hsum
    · rw [h, hsum]
    · have hneg := (sum_abs_eq_sum_iff (xs.map fun x => -x)).1 (by
        simpa [Function.comp_def, List.sum_neg] using h.trans hsum)
      obtain ⟨x, hx, hlt⟩ := hpos
      exact absurd (hneg _ (List.mem_map_of_mem hx)) (by simpa using hlt)
  · rw [h, abs_of_nonneg]
    exact h ▸ List.sum_nonneg (by simp)

end abs
end CoreCommon.Walk
