import Mathlib

/-! Consecutive blocks of the numbers below a bound, given by where each of them starts. -/
namespace CoreCommon

/-- The numbers from `start` up to, but not including, `stop`. -/
@[ext] structure Block where
  start : ℕ
  stop : ℕ
  deriving DecidableEq, Repr

namespace Block

def Has (c : Block) (n : ℕ) : Prop := c.start ≤ n ∧ n < c.stop

instance (c : Block) (n : ℕ) : Decidable (c.Has n) := inferInstanceAs (Decidable (_ ∧ _))

/-- The next number, the first after the last. -/
def next (c : Block) (n : ℕ) : ℕ := if n + 1 = c.stop then c.start else n + 1

/-- The number before, the last before the first. -/
def prev (c : Block) (n : ℕ) : ℕ := if n = c.start then c.stop - 1 else n - 1

def shift (m : ℕ) (c : Block) : Block := ⟨m + c.start, m + c.stop⟩

variable {c : Block} {n : ℕ}

lemma Has.next (h : c.Has n) : c.Has (c.next n) := by
  obtain ⟨hle, hlt⟩ := h
  unfold Has Block.next
  split_ifs <;> omega

lemma Has.prev (h : c.Has n) : c.Has (c.prev n) := by
  obtain ⟨hle, hlt⟩ := h
  unfold Has Block.prev
  split_ifs <;> omega

lemma Has.prev_next (h : c.Has n) : c.prev (c.next n) = n := by
  obtain ⟨hle, hlt⟩ := h
  unfold Block.next Block.prev
  split_ifs <;> omega

lemma Has.next_prev (h : c.Has n) : c.next (c.prev n) = n := by
  obtain ⟨hle, hlt⟩ := h
  unfold Block.next Block.prev
  split_ifs <;> omega

end Block

/-- The blocks that start where the list says; the last ends at `stop`. -/
def blocks (stop : ℕ) : List ℕ → List Block
  | [] => []
  | [s] => [⟨s, stop⟩]
  | s :: t :: l => ⟨s, t⟩ :: blocks stop (t :: l)

lemma blocks_append (stop t : ℕ) (l l' : List ℕ) :
    blocks stop (l ++ t :: l') = blocks t l ++ blocks stop (t :: l') := by
  fun_induction blocks t l with
  | case1 => rfl
  | case2 s => rfl
  | case3 s u l ih => exact congrArg _ ih

lemma blocks_shift (m stop : ℕ) (l : List ℕ) :
    blocks (m + stop) (l.map (m + ·)) = (blocks stop l).map (Block.shift m) := by
  fun_induction blocks stop l with
  | case1 => rfl
  | case2 s => rfl
  | case3 s t l ih => exact congrArg _ ih

section covering
variable {stop : ℕ}

/-- Every block starts with an element of the list. -/
lemma start_mem_of_mem_blocks {l : List ℕ} {c : Block} (hc : c ∈ blocks stop l) : c.start ∈ l := by
  fun_induction blocks stop l with
  | case1 => exact absurd hc List.not_mem_nil
  | case2 s => exact List.mem_singleton.2 (congrArg Block.start (List.mem_singleton.1 hc))
  | case3 s t l ih =>
    rcases List.mem_cons.1 hc with rfl | hc
    · exact List.mem_cons_self
    · exact List.mem_cons_of_mem _ (ih hc)

lemma stop_mem_of_mem_blocks {l : List ℕ} {c : Block} (hc : c ∈ blocks stop l) :
    c.stop = stop ∨ c.stop ∈ l := by
  fun_induction blocks stop l with
  | case1 => exact absurd hc List.not_mem_nil
  | case2 s => exact .inl (congrArg Block.stop (List.mem_singleton.1 hc))
  | case3 s t l ih =>
    rcases List.mem_cons.1 hc with rfl | hc
    · exact .inr (List.mem_cons_of_mem _ List.mem_cons_self)
    · exact (ih hc).imp_right (List.mem_cons_of_mem _)

lemma exists_block {s n : ℕ} {l : List ℕ} (hle : s ≤ n) (hlt : n < stop) :
    ∃ c ∈ blocks stop (s :: l), c.Has n := by
  induction l generalizing s with
  | nil => exact ⟨⟨s, stop⟩, List.mem_singleton_self _, hle, hlt⟩
  | cons t l ih =>
    by_cases hn : n < t
    · exact ⟨⟨s, t⟩, List.mem_cons_self, hle, hn⟩
    · obtain ⟨c, hc, hcn⟩ := ih (Nat.le_of_not_lt hn)
      exact ⟨c, List.mem_cons_of_mem _ hc, hcn⟩

lemma block_unique {l : List ℕ} (hl : l.Pairwise (· ≤ ·)) {c d : Block} {n : ℕ}
    (hc : c ∈ blocks stop l) (hd : d ∈ blocks stop l) (hcn : c.Has n) (hdn : d.Has n) : c = d := by
  fun_induction blocks stop l with
  | case1 => exact absurd hc List.not_mem_nil
  | case2 s => rw [List.mem_singleton.1 hc, List.mem_singleton.1 hd]
  | case3 s t l ih =>
    obtain ⟨-, htail⟩ := List.pairwise_cons.1 hl
    -- what is in a later block is not below `t`
    have hlater : ∀ e ∈ blocks stop (t :: l), e.Has n → t ≤ n := by
      intro e he hen
      rcases List.mem_cons.1 (start_mem_of_mem_blocks he) with heq | hmem
      · exact heq ▸ hen.1
      · exact ((List.pairwise_cons.1 htail).1 _ hmem).trans hen.1
    rcases List.mem_cons.1 hc with rfl | hc <;> rcases List.mem_cons.1 hd with rfl | hd
    · rfl
    · exact absurd (hlater d hd hdn) (Nat.not_le_of_lt hcn.2)
    · exact absurd (hlater c hc hcn) (Nat.not_le_of_lt hdn.2)
    · exact ih htail hc hd

/-- Non-decreasing starts from `0` divide the numbers below `stop`. -/
lemma existsUnique_block {l : List ℕ} (hl : (0 :: l).Pairwise (· ≤ ·)) {n : ℕ} (hn : n < stop) :
    ∃! c, c ∈ blocks stop (0 :: l) ∧ c.Has n := by
  obtain ⟨c, hc, hcn⟩ := exists_block (Nat.zero_le n) hn
  exact ⟨c, ⟨hc, hcn⟩, fun d hd => block_unique hl hd.1 hc hd.2 hcn⟩

end covering
end CoreCommon
