import Mathlib

/-! Parsing expression grammars with counted repetition, over any token type. A failing
parse also records where it stopped; the grammar's own meaning never looks at it. -/
namespace CoreCommon

inductive Peg (τ : Type) : Type
  | literal (w : List τ)
  | one (p : τ → Bool)
  | eof
  | seq (a b : Peg τ)
  | choice (a b : Peg τ)
  | rep (min max : ℕ) (a : Peg τ)
  | times (n : ℕ) (a : Peg τ)
  | not (a : Peg τ)
  | look (a : Peg τ)

namespace Peg

/-- The input left after a success, or at the point where a failure stopped. -/
inductive Outcome (τ : Type)
  | ok (rest : List τ)
  | fail (rest : List τ)

variable {τ : Type}

/-- Recognition. `rep min max` is greedy and fails below `min`; `not` and `look` consume nothing. -/
inductive Parses : Peg τ → List τ → Outcome τ → Prop
  | literal_ok (w s) : Parses (.literal w) (w ++ s) (.ok s)
  | literal_fail {w s} (h : ¬ w <+: s) : Parses (.literal w) s (.fail s)
  | one_ok {p : τ → Bool} {x s} (h : p x) : Parses (.one p) (x :: s) (.ok s)
  | one_fail {p : τ → Bool} {s} (h : ∀ x ∈ s.head?, p x = false) : Parses (.one p) s (.fail s)
  | eof_ok : Parses .eof [] (.ok [])
  | eof_fail {s} (h : s ≠ []) : Parses .eof s (.fail s)
  | seq_ok {a b s s' r} (ha : Parses a s (.ok s')) (hb : Parses b s' r) : Parses (.seq a b) s r
  | seq_fail {a b s f} (ha : Parses a s (.fail f)) : Parses (.seq a b) s (.fail f)
  | choice_ok {a b s s'} (ha : Parses a s (.ok s')) : Parses (.choice a b) s (.ok s')
  | choice_next {a b s f r} (ha : Parses a s (.fail f)) (hb : Parses b s r) :
      Parses (.choice a b) s r
  | rep_step {min max a s s' r} (ha : Parses a s (.ok s'))
      (hr : Parses (.rep (min - 1) max a) s' r) : Parses (.rep min (max + 1) a) s r
  | rep_stop {max a s f} (ha : Parses a s (.fail f)) : Parses (.rep 0 (max + 1) a) s (.ok s)
  | rep_short {min max a s f} (ha : Parses a s (.fail f)) :
      Parses (.rep (min + 1) (max + 1) a) s (.fail f)
  | rep_done {a s} : Parses (.rep 0 0 a) s (.ok s)
  | rep_unmet {min a s} : Parses (.rep (min + 1) 0 a) s (.fail s)
  | times_step {n a s s' r} (ha : Parses a s (.ok s')) (hr : Parses (.times n a) s' r) :
      Parses (.times (n + 1) a) s r
  | times_fail {n a s f} (ha : Parses a s (.fail f)) : Parses (.times (n + 1) a) s (.fail f)
  | times_done {a s} : Parses (.times 0 a) s (.ok s)
  | not_ok {a s f} (ha : Parses a s (.fail f)) : Parses (.not a) s (.ok s)
  | not_fail {a s s'} (ha : Parses a s (.ok s')) : Parses (.not a) s (.fail s')
  | look_ok {a s s'} (ha : Parses a s (.ok s')) : Parses (.look a) s (.ok s)
  | look_fail {a s f} (ha : Parses a s (.fail f)) : Parses (.look a) s (.fail s)

/-- A grammar has at most one outcome on an input. -/
theorem Parses.unique {g : Peg τ} {s : List τ} {r r' : Outcome τ} (h : Parses g s r)
    (h' : Parses g s r') : r = r' := by
  induction h generalizing r' with
  | literal_ok w s =>
    generalize ht : w ++ s = t at h'
    cases h' with
    | literal_ok _ s' => rw [List.append_cancel_left ht]
    | literal_fail hn => exact absurd ⟨s, ht⟩ hn
  | literal_fail hn => cases h' with
    | literal_ok => exact absurd (List.prefix_append _ _) hn
    | literal_fail => rfl
  | one_ok hp => cases h' with
    | one_ok => rfl
    | one_fail hn => simp [hp] at hn
  | one_fail hn => cases h' with
    | one_ok hp => simp [hp] at hn
    | one_fail => rfl
  | eof_ok => cases h' with
    | eof_ok => rfl
    | eof_fail hn => exact absurd rfl hn
  | eof_fail hn => cases h' with
    | eof_ok => exact absurd rfl hn
    | eof_fail => rfl
  | seq_ok _ _ iha ihb => cases h' with
    | seq_ok ha hb => cases iha ha; exact ihb hb
    | seq_fail ha => cases iha ha
  | seq_fail _ iha => cases h' with
    | seq_ok ha hb => cases iha ha
    | seq_fail ha => cases iha ha; rfl
  | choice_ok _ iha => cases h' with
    | choice_ok ha => exact iha ha
    | choice_next ha hb => cases iha ha
  | choice_next _ _ iha ihb => cases h' with
    | choice_ok ha => cases iha ha
    | choice_next ha hb => exact ihb hb
  | rep_step _ _ iha ihr => cases h' with
    | rep_step ha hr => cases iha ha; exact ihr hr
    | rep_stop ha => cases iha ha
    | rep_short ha => cases iha ha
  | rep_stop _ iha => cases h' with
    | rep_step ha hr => cases iha ha
    | rep_stop => rfl
  | rep_short _ iha => cases h' with
    | rep_step ha hr => cases iha ha
    | rep_short ha => cases iha ha; rfl
  | rep_done => cases h'; rfl
  | rep_unmet => cases h'; rfl
  | times_step _ _ iha ihr => cases h' with
    | times_step ha hr => cases iha ha; exact ihr hr
    | times_fail ha => cases iha ha
  | times_fail _ iha => cases h' with
    | times_step ha hr => cases iha ha
    | times_fail ha => cases iha ha; rfl
  | times_done => cases h'; rfl
  | not_ok _ iha => cases h' with
    | not_ok => rfl
    | not_fail ha => cases iha ha
  | not_fail _ iha => cases h' with
    | not_ok ha => cases iha ha
    | not_fail ha => cases iha ha; rfl
  | look_ok _ iha => cases h' with
    | look_ok => rfl
    | look_fail ha => cases iha ha
  | look_fail _ iha => cases h' with
    | look_ok ha => cases iha ha
    | look_fail => rfl

/-- `k` successes of `a` in a row lead from `s` to `t`. -/
inductive Reaches (a : Peg τ) : ℕ → List τ → List τ → Prop
  | zero (s) : Reaches a 0 s s
  | succ {k s s' t} (ha : Parses a s (.ok s')) (hr : Reaches a k s' t) : Reaches a (k + 1) s t

section
variable {a : Peg τ} {k : ℕ} {s t f : List τ}

/-- A failure after `k` successes leaves no longer row of successes. -/
lemma Reaches.le_of_fail (h : Reaches a k s t) (hf : Parses a t (.fail f)) {m : ℕ} {u : List τ}
    (hm : Reaches a m s u) : m ≤ k := by
  induction h generalizing m with
  | zero => cases hm with
    | zero => exact le_rfl
    | succ ha _ => cases ha.unique hf
  | succ ha _ ih => cases hm with
    | zero => exact Nat.zero_le _
    | succ ha' hr' =>
      cases ha.unique ha'
      exact Nat.succ_le_succ (ih hf hr')

lemma Parses.rep_of_fail (h : Reaches a k s t) (hf : Parses a t (.fail f)) (min : ℕ)
    {max : ℕ} (hk : k < max) : Parses (.rep min max a) s (if k < min then .fail f else .ok t) := by
  induction h generalizing min max with
  | zero =>
    obtain ⟨max, rfl⟩ := Nat.exists_eq_succ_of_ne_zero (Nat.ne_of_gt hk)
    cases min with
    | zero => exact .rep_stop hf
    | succ min => exact .rep_short hf
  | @succ k _ _ _ ha _ ih =>
    obtain ⟨max, rfl⟩ := Nat.exists_eq_succ_of_ne_zero (Nat.ne_zero_of_lt hk)
    have hrest := ih hf (min - 1) (Nat.lt_of_succ_lt_succ hk)
    rw [if_congr (show k < min - 1 ↔ k + 1 < min by omega) rfl rfl] at hrest
    exact .rep_step ha hrest

lemma Parses.rep_of_max {max : ℕ} (h : Reaches a max s t) (min : ℕ) :
    Parses (.rep min max a) s (if max < min then .fail t else .ok t) := by
  induction h generalizing min with
  | zero => cases min with
    | zero => exact .rep_done
    | succ min => exact .rep_unmet
  | @succ k _ _ _ ha _ ih =>
    have hrest := ih (min - 1)
    rw [if_congr (show k < min - 1 ↔ k + 1 < min by omega) rfl rfl] at hrest
    exact .rep_step ha hrest

lemma Parses.times_of_fail (h : Reaches a k s t) (hf : Parses a t (.fail f)) {n : ℕ}
    (hk : k < n) : Parses (.times n a) s (.fail f) := by
  induction h generalizing n with
  | zero =>
    obtain ⟨n, rfl⟩ := Nat.exists_eq_succ_of_ne_zero (Nat.ne_of_gt hk)
    exact .times_fail hf
  | succ ha _ ih =>
    obtain ⟨n, rfl⟩ := Nat.exists_eq_succ_of_ne_zero (Nat.ne_zero_of_lt hk)
    exact .times_step ha (ih hf (Nat.lt_of_succ_lt_succ hk))

lemma Parses.times_of_reaches (h : Reaches a k s t) : Parses (.times k a) s (.ok t) := by
  induction h with
  | zero => exact .times_done
  | succ ha _ ih => exact .times_step ha ih

end

end Peg
end CoreCommon
