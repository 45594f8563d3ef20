import Mathlib

/-! The combinatorial number system: the subsets of `k` numbers, each written as a strictly
decreasing list, ranked by a sum of binomial coefficients. Below `n` the ranks are exactly the
numbers below `n.choose k`. -/
namespace CoreCommon

/-- A finite set of numbers as the list of its elements, largest first. -/
abbrev Decreasing (l : List ℕ) : Prop := l.Pairwise (· > ·)

/-- With `k` elements left, the leading one `e` counts for `e.choose k`. -/
def rank : List ℕ → ℕ
  | [] => 0
  | e :: es => e.choose (es.length + 1) + rank es

lemma choose_succ_succ_add (e k : ℕ) : e.choose (k + 1) + e.choose k = (e + 1).choose (k + 1) := by
  rw [Nat.choose_succ_succ, Nat.add_comm]

/-- The tail contributes less than one step of the leading element. -/
lemma rank_lt {l : List ℕ} (hl : Decreasing l) {n : ℕ} (hn : ∀ e ∈ l, e < n) :
    rank l < n.choose l.length := by
  induction l generalizing n with
  | nil => simp [rank]
  | cons e es ih =>
    have hes := ih hl.of_cons (List.pairwise_cons.1 hl).1
    have he : e + 1 ≤ n := hn e (by simp)
    calc rank (e :: es) < e.choose (es.length + 1) + e.choose es.length := by
          rw [rank]; omega
      _ = (e + 1).choose (es.length + 1) := choose_succ_succ_add e es.length
      _ ≤ n.choose (es.length + 1) := Nat.choose_le_choose _ he

lemma rank_cons_lt {e f : ℕ} {es fs : List ℕ} (hl : Decreasing (e :: es)) (hef : e < f)
    (hlen : es.length = fs.length) : rank (e :: es) < rank (f :: fs) := by
  have h := rank_lt hl (n := e + 1) fun x hx => by
    rcases List.mem_cons.1 hx with rfl | hx
    · omega
    · have : e > x := List.rel_of_pairwise_cons hl hx
      omega
  calc rank (e :: es) < (e + 1).choose (es.length + 1) := h
    _ ≤ f.choose (fs.length + 1) := by rw [hlen]; exact Nat.choose_le_choose _ hef
    _ ≤ rank (f :: fs) := Nat.le_add_right _ _

/-- A rank below `n.choose k` keeps the elements below `n`. -/
lemma lt_of_rank_lt {l : List ℕ} (hl : Decreasing l) {n : ℕ} (h : rank l < n.choose l.length) :
    ∀ e ∈ l, e < n := by
  cases l with
  | nil => simp
  | cons e es =>
    have he : e < n := by
      by_contra hn
      have hmono := Nat.choose_le_choose (es.length + 1) (not_lt.1 hn)
      rw [rank, List.length_cons] at h
      omega
    intro x hx
    rcases List.mem_cons.1 hx with rfl | hx
    · exact he
    · have hxe : x < e := (List.pairwise_cons.1 hl).1 x hx
      exact hxe.trans he

lemma rank_injective {l m : List ℕ} (hl : Decreasing l) (hm : Decreasing m)
    (hlen : l.length = m.length) (h : rank l = rank m) : l = m := by
  induction l generalizing m with
  | nil => exact (List.length_eq_zero_iff.1 hlen.symm).symm
  | cons e es ih =>
    obtain _ | ⟨f, fs⟩ := m
    · simp at hlen
    · have hlen' : es.length = fs.length := by simpa using hlen
      rcases lt_trichotomy e f with hef | rfl | hef
      · exact absurd h (rank_cons_lt hl hef hlen').ne
      · have hes : rank es = rank fs := by
          rw [rank, rank, hlen'] at h
          omega
        rw [ih hl.of_cons hm.of_cons hlen' hes]
      · exact absurd h (rank_cons_lt hm hef hlen'.symm).ne'

/-- Every rank below `n.choose k` is reached: by a set without `n - 1` when it is small enough,
else by one with it. -/
lemma exists_rank {n k r : ℕ} (hr : r < n.choose k) :
    ∃ l : List ℕ, Decreasing l ∧ l.length = k ∧ (∀ e ∈ l, e < n) ∧ rank l = r := by
  induction n generalizing k r with
  | zero =>
    obtain _ | k := k
    · exact ⟨[], by simp, rfl, by simp, by simp only [rank, Nat.choose_zero_right] at hr ⊢; omega⟩
    · simp at hr
  | succ n ih =>
    obtain _ | k := k
    · exact ⟨[], by simp, rfl, by simp, by simp only [rank, Nat.choose_zero_right] at hr ⊢; omega⟩
    by_cases h : r < n.choose (k + 1)
    · obtain ⟨l, hl, hk, hn, rfl⟩ := ih h
      exact ⟨l, hl, hk, fun e he => (hn e he).trans n.lt_succ_self, rfl⟩
    · have hr' : r - n.choose (k + 1) < n.choose k := by
        rw [← choose_succ_succ_add] at hr
        omega
      obtain ⟨l, hl, hk, hn, hrank⟩ := ih hr'
      refine ⟨n :: l, List.pairwise_cons.2 ⟨hn, hl⟩, by simp [hk], ?_, ?_⟩
      · intro e he
        rcases List.mem_cons.1 he with rfl | he
        · omega
        · exact (hn e he).trans n.lt_succ_self
      · rw [rank, hk, hrank]
        omega

end CoreCommon
