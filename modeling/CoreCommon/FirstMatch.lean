import Mathlib

/-! The first occurrence of a word in a text. A word whose last letter is like none of its others
does not occur across the end of a text that it follows. -/
namespace CoreCommon

section last
variable {α : Type} {v x : List α} {c : α}

lemma prefix_of_prefix_append (hc : c ∉ v) (hx : x ≠ []) (h : v ++ [c] <+: x ++ (v ++ [c])) :
    v ++ [c] <+: x := by
  rcases List.prefix_or_prefix_of_prefix h (List.prefix_append x _) with hle | ⟨u, hu⟩
  · exact hle
  · -- the rest of the word starts the word again, and ends in its last letter
    rw [← hu, List.prefix_append_right_inj] at h
    have hlen := congrArg List.length hu
    rw [List.length_append, List.length_append, List.length_singleton] at hlen
    have hpos := List.length_pos_iff.2 hx
    rcases List.eq_nil_or_concat u with rfl | ⟨u', a, rfl⟩
    · rw [← hu, List.append_nil]
    · rw [List.concat_eq_append] at h hu hlen
      rw [← List.append_assoc] at hu
      obtain ⟨hv, hlast⟩ := List.append_inj' hu rfl
      have hbefore : x ++ u' <+: x ++ (u' ++ [a]) := by
        rw [← List.append_assoc]
        exact List.prefix_append _ _
      have hv' : u' ++ [a] <+: v := by
        rw [← hv]
        exact List.prefix_of_prefix_length_le h hbefore (by rw [hv]; omega)
      have ha : a ∈ v := hv'.subset (by simp)
      exact absurd (List.singleton_injective hlast ▸ ha) hc

end last

section find
variable {α : Type} [DecidableEq α] {v w x t : List α} {c : α}

/-- The position of the first occurrence. -/
def find (w : List α) : List α → Option ℕ
  | [] => if w = [] then some 0 else none
  | a :: t => if w <+: a :: t then some 0 else (find w t).map (· + 1)

lemma find_eq_none_iff : find w t = none ↔ ¬w <:+: t := by
  induction t with
  | nil => simp [find]
  | cons a t ih =>
    rw [find, List.infix_cons_iff, not_or, ← ih]
    by_cases hstart : w <+: a :: t <;> simp [hstart]

lemma find_eq_some_iff (hw : w ≠ []) {i : ℕ} :
    find w t = some i ↔ w <+: t.drop i ∧ ∀ j < i, ¬w <+: t.drop j := by
  induction t generalizing i with
  | nil => simp [find, hw]
  | cons a t ih =>
    rw [find]
    by_cases hstart : w <+: a :: t
    · rw [if_pos hstart, Option.some.injEq]
      constructor
      · rintro rfl
        exact ⟨hstart, nofun⟩
      · rintro ⟨-, hfirst⟩
        by_contra hne
        exact hfirst 0 (Nat.pos_of_ne_zero (Ne.symm hne)) hstart
    · rw [if_neg hstart]
      cases i with
      | zero => simp [hstart]
      | succ i =>
        rw [Option.map_eq_some_iff]
        simp only [Nat.add_right_cancel_iff, exists_eq_right, ih, List.drop_succ_cons,
          and_congr_right_iff]
        refine fun _ => ⟨fun h j hj => ?_, fun h j hj => h (j + 1) (Nat.succ_lt_succ hj)⟩
        cases j with
        | zero => exact hstart
        | succ j => exact h j (Nat.lt_of_succ_lt_succ hj)

/-- A text without the word is all that stands before it. -/
lemma find_append (hc : c ∉ v) (hx : ¬v ++ [c] <:+: x) :
    find (v ++ [c]) (x ++ (v ++ [c])) = some x.length := by
  induction x with
  | nil =>
    obtain ⟨a, t, hw⟩ := List.exists_cons_of_ne_nil (List.concat_ne_nil c v)
    rw [List.nil_append, hw, find, if_pos (List.prefix_refl _), List.length_nil]
  | cons a x ih =>
    have hnot : ¬v ++ [c] <+: a :: (x ++ (v ++ [c])) := fun hstart =>
      hx (prefix_of_prefix_append hc (List.cons_ne_nil a x) hstart).isInfix
    rw [List.cons_append, find, if_neg hnot, ih fun hmem => hx (hmem.trans (List.suffix_cons a x).isInfix)]
    rfl

end find

end CoreCommon
