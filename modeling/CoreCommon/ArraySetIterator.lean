import CoreCommon.ArraySet

/-! The iterator of `ArraySet`, which keeps an index list of its own beside its place in `vec`.
Its successor puts the digits after the one it raises in rising order, so it lists the sets that
`operator[]` ranks only where there is at most one such digit, or nothing to step to. -/
namespace CoreCommon
universe u

namespace ArraySet
variable {T : Type u}

structure Iterator where
  elem_vec : List ℕ
  t : ℕ
  deriving DecidableEq, Repr

/-- The loop of `operator++` with `i + 1` for its counter, which wraps to end below `0`. -/
def advance (elem_vec : List ℕ) : ℕ → List ℕ
  | 0 => elem_vec
  | i + 1 =>
    if i = 0 ∨ elem_vec.getD i 0 < (elem_vec.getD (i - 1) 0 + 2 ^ 64 - 1) % 2 ^ 64 then
      elem_vec.take i ++ (elem_vec.getD i 0 + 1) % 2 ^ 64 ::
        (List.range' (i + 1) (elem_vec.length - (i + 1))).map fun j => j - i - 1
    else advance elem_vec i

/-- `operator++` -/
def Iterator.next (it : Iterator) : Iterator :=
  ⟨advance it.elem_vec it.elem_vec.length, it.t + 1⟩

def begin (s : ArraySet T) : Iterator :=
  ⟨(List.range s.elements).map fun i => s.elements - i - 1, 0⟩

/-- The iterators from `it` up to `end()`, as a loop over the set meets them. -/
def stepsFrom (s : ArraySet T) : ℕ → Iterator → Run (List Iterator)
  | 0, it => if it.t = s.vec.length then .ok [] else .error .diverges
  | fuel + 1, it =>
    if it.t = s.vec.length then .ok []
    else do
      let its ← s.stepsFrom fuel it.next
      .ok (it :: its)

/-- A step moves `t` by one, so the loop has a round for each slot. -/
def steps (s : ArraySet T) : Run (List Iterator) := s.stepsFrom s.vec.length s.begin

/-- Stepping from `begin()` to `end()` shows the sets of `k` indices below `len`, each once, as a
decreasing list beside the slot that `operator[]` gives for it. -/
def ListsSubsets (k len : ℕ) (value : T) : Prop :=
  ∃ s its, construct k len value = .ok s ∧ s.steps = .ok its ∧
    its.length = len.choose k ∧
    (∀ j it, its[j]? = some it → Decreasing it.elem_vec ∧ Indices k len it.elem_vec ∧
      it.t = j ∧ s.subscript it.elem_vec = .ok j) ∧
    ∀ S ⊆ Finset.range len, S.card = k → ∃! j : ℕ, ∃ it : Iterator, its[j]? = some it ∧
      it.elem_vec.toFinset = S

lemma iterate_t (j : ℕ) (it : Iterator) : (Iterator.next^[j] it).t = it.t + j := by
  induction j with
  | zero => rfl
  | succ j ih =>
    rw [Function.iterate_succ_apply', Iterator.next, ih, Nat.add_assoc]

/-- The loop ends after as many steps as there are slots left. -/
lemma stepsFrom_eq (s : ArraySet T) {m : ℕ} {it : Iterator} (h : it.t + m = s.vec.length) :
    s.stepsFrom m it = .ok (List.iterate Iterator.next it m) := by
  induction m generalizing it with
  | zero => rw [stepsFrom, if_pos (by omega), List.iterate]
  | succ m ih =>
    have hnext : it.next.t + m = s.vec.length := by
      rw [← h, Nat.add_comm m 1, ← Nat.add_assoc]
      rfl
    rw [stepsFrom, if_neg (by omega), ih hnext, Run.bind_ok, List.iterate]

lemma steps_eq (s : ArraySet T) :
    s.steps = .ok (List.iterate Iterator.next s.begin s.vec.length) :=
  stepsFrom_eq s (Nat.zero_add _)

/-- The list has the right length only for a right coefficient. -/
lemma ListsSubsets.exact {k len : ℕ} {value : T} (h : ListsSubsets k len value) :
    binomial len k = .ok (len.choose k) := by
  obtain ⟨s, its, hs, hsteps, hlen, -⟩ := h
  rw [construct] at hs
  cases hb : binomial len k with
  | error e => simp [hb] at hs
  | ok n =>
    obtain rfl : _ = s := by simpa [hb] using hs
    rw [steps_eq, Except.ok.injEq] at hsteps
    rw [← hlen, ← hsteps, List.length_iterate, List.length_replicate]

/-! ### The first set -/

/-- The largest first set: `k - 1` down to `0`. -/
def firstSet (k : ℕ) : List ℕ := (List.range k).map fun i => k - i - 1

lemma firstSet_succ (k : ℕ) : firstSet (k + 1) = k :: firstSet k := by
  rw [firstSet, List.range_succ_eq_map, List.map_cons, List.map_map, firstSet]
  congr 1
  exact List.map_congr_left fun i _ => by simp only [Function.comp_apply]; omega

@[simp] lemma length_firstSet (k : ℕ) : (firstSet k).length = k := by simp [firstSet]

lemma getD_firstSet {k i : ℕ} (hi : i < k) : (firstSet k).getD i 0 = k - i - 1 := by
  simp [firstSet, List.getD_eq_getElem?_getD, hi]

lemma mem_firstSet {k e : ℕ} (h : e ∈ firstSet k) : e < k := by
  obtain ⟨i, hi, rfl⟩ := List.mem_map.1 h
  have := List.mem_range.1 hi
  omega

lemma firstSet_decreasing (k : ℕ) : Decreasing (firstSet k) := by
  induction k with
  | zero => exact List.Pairwise.nil
  | succ k ih =>
    rw [firstSet_succ]
    exact List.pairwise_cons.2 ⟨fun e he => mem_firstSet he, ih⟩

lemma rank_firstSet (k : ℕ) : rank (firstSet k) = 0 := by
  induction k with
  | zero => rfl
  | succ k ih => rw [firstSet_succ, rank, length_firstSet, Nat.choose_succ_self, ih]

/-! ### One step -/

/-- The digit before a larger one is read minus one, without wrapping. -/
lemma pred_eq {e : ℕ} (hpos : 0 < e) (he : e < 2 ^ 64) : (e + 2 ^ 64 - 1) % 2 ^ 64 = e - 1 := by
  rw [show e + 2 ^ 64 - 1 = e - 1 + 2 ^ 64 by omega, Nat.add_mod_right, Nat.mod_eq_of_lt (by omega)]

/-- The leading digit is raised when no other can be. -/
lemma advance_lead {e : ℕ} (es : List ℕ) (he : e + 1 < 2 ^ 64) :
    advance (e :: es) 1 = (e + 1) :: List.range es.length := by
  have htail : (List.range' (0 + 1) ((e :: es).length - (0 + 1))).map (fun j => j - 0 - 1) =
      List.range es.length := by
    rw [List.range'_eq_map_range, List.map_map, List.length_cons, Nat.zero_add,
      Nat.add_sub_cancel, List.map_congr_left (g := id), List.map_id]
    intro j _
    simp only [Function.comp_apply, id_eq]
    omega
  rw [advance, if_pos (Or.inl rfl), htail, List.getD_cons_zero, Nat.mod_eq_of_lt he, List.take_zero,
    List.nil_append]

/-- Each digit of the first set is one below the digit before, so the step raises the leading
digit; the others restart in rising order. -/
lemma advance_firstSet {k m : ℕ} (hk : k + 1 < 2 ^ 64) (hmk : m ≤ k) :
    advance (firstSet (k + 1)) (m + 1) = (k + 1) :: List.range k := by
  induction m with
  | zero => rw [firstSet_succ, advance_lead _ hk, length_firstSet]
  | succ m ih =>
    have hcond : ¬(m + 1 = 0 ∨ (firstSet (k + 1)).getD (m + 1) 0 <
        ((firstSet (k + 1)).getD (m + 1 - 1) 0 + 2 ^ 64 - 1) % 2 ^ 64) := by
      rw [getD_firstSet (by omega), getD_firstSet (by omega), pred_eq (by omega) (by omega)]
      omega
    rw [advance, if_neg hcond]
    exact ih (by omega)

lemma advance_two {a b : ℕ} (hab : b < a) (ha : a + 1 < 2 ^ 64) :
    advance [a, b] 2 = if b < a - 1 then [a, b + 1] else [a + 1, 0] := by
  have hb : (b + 1) % 2 ^ 64 = b + 1 := Nat.mod_eq_of_lt (by omega)
  rw [advance, List.getD_cons_succ, List.getD_cons_zero, Nat.sub_self, List.getD_cons_zero,
    pred_eq (by omega) (by omega), hb, advance_lead [b] ha]
  by_cases h : b < a - 1
  · rw [if_pos (Or.inr h), if_pos h]
    rfl
  · rw [if_neg (by omega), if_neg h]
    rfl

/-- With one or two digits the step goes to the next rank. -/
lemma rank_advance {l : List ℕ} (hl : Decreasing l) (hpos : 0 < l.length) (htwo : l.length ≤ 2)
    (hlt : ∀ e ∈ l, e + 1 < 2 ^ 64) :
    Decreasing (advance l l.length) ∧ (advance l l.length).length = l.length ∧
      rank (advance l l.length) = rank l + 1 := by
  match l with
  | [] => simp at hpos
  | [e] =>
    rw [List.length_singleton, advance_lead [] (hlt e (by simp))]
    simp [rank]
  | [a, b] =>
    have hab : b < a := by simpa using hl
    rw [List.length_cons, List.length_singleton, advance_two hab (hlt a (by simp))]
    split
    · rename_i h
      refine ⟨by simp; omega, rfl, ?_⟩
      simp [rank, Nat.add_assoc]
    · rename_i h
      have hb : a = b + 1 := by omega
      refine ⟨by simp, rfl, ?_⟩
      have hpascal := choose_succ_succ_add a 1
      simp only [rank, List.length_singleton, List.length_nil, Nat.zero_add, Nat.choose_one_right]
        at hpascal ⊢
      omega
  | _ :: _ :: _ :: _ => simp at htwo

/-! ### A whole run -/

/-- The set with rank `j`, as the iterator should show it. -/
structure Shows (k len j : ℕ) (l : List ℕ) : Prop where
  decreasing : Decreasing l
  indices : Indices k len l
  rank_eq : rank l = j

lemma Shows.of_rank {k len j : ℕ} {l : List ℕ} (hl : Decreasing l) (hk : l.length = k)
    (hr : rank l = j) (hj : j < len.choose k) : Shows k len j l :=
  ⟨hl, ⟨hk, hl.imp fun h => h.ne', lt_of_rank_lt hl (by rwa [hk, hr])⟩, hr⟩

/-- A sound first set and steps that go up one rank: the `j`-th set has rank `j`. -/
lemma shows_iterate {k len : ℕ} (hpos : 0 < k) (h : Exact k len) (hc : k ≤ 2 ∨ k = len) {j : ℕ}
    (hj : j < len.choose k) :
    Shows k len j (Iterator.next^[j] ⟨firstSet k, 0⟩).elem_vec := by
  induction j with
  | zero => exact .of_rank (firstSet_decreasing k) (length_firstSet k) (rank_firstSet k) hj
  | succ j ih =>
    have hs := ih (by omega)
    have htwo : k ≤ 2 := by
      rcases hc with h2 | rfl
      · exact h2
      · rw [Nat.choose_self] at hj
        omega
    have hlt := h.lt
    have hlen := hs.indices.length
    obtain ⟨hd, hl, hr⟩ := rank_advance hs.decreasing (by omega) (by omega)
      fun e he => by have := hs.indices.lt e he; omega
    rw [Function.iterate_succ_apply']
    exact .of_rank hd (hl.trans hlen) (hr.trans (by rw [hs.rank_eq])) hj

/-- A run that shows each rank at its place lists the sets. -/
lemma listsSubsets_of_shows {k len : ℕ} (h : Exact k len) (value : T)
    (hs : ∀ j < len.choose k, Shows k len j (Iterator.next^[j] ⟨firstSet k, 0⟩).elem_vec) :
    ListsSubsets k len value := by
  have hget : ∀ j it, (List.iterate Iterator.next ⟨firstSet k, 0⟩ (len.choose k))[j]? = some it →
      Shows k len j it.elem_vec ∧ it.t = j := by
    intro j it hit
    obtain ⟨hj, rfl⟩ := List.getElem?_eq_some_iff.1 hit
    rw [List.length_iterate] at hj
    rw [List.getElem_iterate, iterate_t, Nat.zero_add]
    exact ⟨hs j hj, rfl⟩
  refine ⟨_, _, construct_eq h value, steps_eq _, ?_⟩
  rw [List.length_replicate, show begin ⟨_, k⟩ = ⟨firstSet k, 0⟩ from rfl, List.length_iterate]
  refine ⟨rfl, ?_, ?_⟩
  · intro j it hit
    obtain ⟨⟨hd, hi, rfl⟩, ht⟩ := hget j it hit
    exact ⟨hd, hi, ht, by rw [subscript_eq h value hi, sorted_of_decreasing hd]⟩
  · intro S hS hcard
    refine existsUnique_of_exists_of_unique ?_ ?_
    · -- the set is shown at its rank
      have hperm := sorted_perm S.toList
      have hd : Decreasing (sorted S.toList) := sorted_decreasing S.nodup_toList
      have hlen : (sorted S.toList).length = k := by
        rw [hperm.length_eq, Finset.length_toList, hcard]
      have hlt : ∀ e ∈ sorted S.toList, e < len := fun e he =>
        Finset.mem_range.1 (hS (Finset.mem_toList.1 (hperm.mem_iff.1 he)))
      have hj : rank (sorted S.toList) < len.choose k := hlen ▸ rank_lt hd hlt
      obtain ⟨hd', hi', hr'⟩ := hs _ hj
      refine ⟨_, _, List.getElem?_iterate _ _ _ _ hj, ?_⟩
      rw [rank_injective hd' hd (hi'.length.trans hlen.symm) hr',
        List.toFinset_eq_of_perm _ _ hperm, Finset.toList_toFinset]
    · rintro i j ⟨it, hit, hS'⟩ ⟨jt, hjt, rfl⟩
      obtain ⟨⟨hdi, hi, rfl⟩, -⟩ := hget i it hit
      obtain ⟨⟨hdj, hj, rfl⟩, -⟩ := hget j jt hjt
      have hsorted := (sorted_eq_iff hi.nodup hj.nodup).2 hS'
      rw [sorted_of_decreasing hdi, sorted_of_decreasing hdj] at hsorted
      rw [hsorted]

/-- With three or more indices and a set to step to, the second set is not a decreasing list. -/
lemma not_listsSubsets {k len : ℕ} (h : Exact k len) (hk : 3 ≤ k) (hlt : k < len) (value : T) :
    ¬ListsSubsets k len value := by
  rintro ⟨s, its, hs, hsteps, hlen, hshow, -⟩
  rw [construct_eq h, Except.ok.injEq] at hs
  subst hs
  have htwo : 1 < len.choose k := by
    calc 1 < (k + 1).choose k := by rw [Nat.choose_succ_self_right]; omega
      _ ≤ len.choose k := Nat.choose_le_choose k hlt
  rw [steps_eq, List.length_replicate, Except.ok.injEq] at hsteps
  have hsecond : its[1]? = some (Iterator.next ⟨firstSet k, 0⟩) := by
    rw [← hsteps, List.getElem?_iterate _ _ _ _ htwo]
    rfl
  have hd := (hshow 1 _ hsecond).1
  obtain ⟨k, rfl⟩ : ∃ m, k = m + 1 := ⟨k - 1, by omega⟩
  have hmax := h.lt
  rw [Iterator.next, length_firstSet, advance_firstSet (by omega) le_rfl] at hd
  have h01 := List.pairwise_iff_getElem.1 (List.pairwise_cons.1 hd).2 0 1
    (by rw [List.length_range]; omega) (by rw [List.length_range]; omega) Nat.one_pos
  simp at h01

/-- The iterator lists the sets exactly when it never has more than one digit to restart, and
`binomial` counts them. -/
theorem listsSubsets_iff {k len : ℕ} (hpos : 1 ≤ k) (hle : k ≤ len) (hlen : len < 2 ^ 64)
    (value : T) : ListsSubsets k len value ↔
      (k ≤ 2 ∨ k = len) ∧ len + 1 < 2 ^ 64 ∧ len.descFactorial k < 2 ^ 64 := by
  constructor
  · intro hl
    obtain ⟨hlt, hfits⟩ := (binomial_exact_iff hle hlen).1 hl.exact
    refine ⟨?_, hlt, hfits⟩
    by_contra hc
    exact not_listsSubsets ⟨hle, hlt, hfits⟩ (by omega) (by omega) value hl
  · rintro ⟨hc, hlt, hfits⟩
    have h : Exact k len := ⟨hle, hlt, hfits⟩
    exact listsSubsets_of_shows h value fun j hj => shows_iterate hpos h hc hj

theorem listsSubsets_iff_pairs :
    ListsSubsets 2 5 () ↔ (2 ≤ 2 ∨ 2 = 5) ∧ 5 + 1 < 2 ^ 64 ∧ Nat.descFactorial 5 2 < 2 ^ 64 :=
  listsSubsets_iff (by decide) (by decide) (by decide) ()

/-- Three of four: after `2, 1, 0` comes `3, 0, 1`, beside the slot of `3, 1, 0`. -/
theorem three_of_four_not_listed :
    (∃ s : ArraySet Unit, construct 3 4 () = .ok s ∧
      (s.steps.map fun its => its.map Iterator.elem_vec) =
        .ok [[2, 1, 0], [3, 0, 1], [3, 0, 2], [3, 0, 3]]) ∧ ¬ListsSubsets 3 4 () :=
  ⟨⟨⟨List.replicate 4 (), 3⟩, rfl, by decide +kernel⟩,
    not_listsSubsets ⟨by decide, by decide, by decide⟩ le_rfl (by decide) ()⟩

end ArraySet

end CoreCommon
