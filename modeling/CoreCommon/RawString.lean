import CoreCommon.Fault
import CoreCommon.FirstMatch

/-! The generator of raw string literals, `rawstringifier.cpp`, and a lexer for its output. -/
namespace CoreCommon.RawString

/-- `while (x.find(delim) != npos) delim.insert(delim.begin() + 1, 'x');` -/
def delimLoop (x : List Char) : ℕ → List Char → Run (List Char)
  | 0, _ => .error .diverges
  | fuel + 1, delim =>
    if find delim x ≠ none then delimLoop x fuel (delim.take 1 ++ 'x' :: delim.drop 1) else .ok delim

/-- `main` for a file with the content `x`: what it writes. -/
def rawstringify (fuel : ℕ) (x : List Char) : Run (List Char) := do
  let delim ← delimLoop x fuel [')', '"']
  .ok (['R', '"'] ++ (delim.drop 1).dropLast ++ '(' :: x ++ delim)

/-- A raw string literal at the start of a text: its content and the text after it. The delimiter
may be of any length. -/
def lex : List Char → Option (List Char × List Char)
  | 'R' :: '"' :: t =>
    let d := t.takeWhile (· ≠ '(')
    let body := t.drop (d.length + 1)
    (find (')' :: d ++ ['"']) body).map fun i => (body.take i, body.drop (i + d.length + 2))
  | _ => none

/-- The delimiter after `k` rounds. -/
def closing (k : ℕ) : List Char := ')' :: List.replicate k 'x' ++ ['"']

lemma closing_length (k : ℕ) : (closing k).length = k + 2 := by
  simp [closing]

lemma closing_succ (k : ℕ) : (closing k).take 1 ++ 'x' :: (closing k).drop 1 = closing (k + 1) := by
  simp [closing, List.replicate_succ]

/-- A delimiter that is found is no longer than the content. -/
lemma delimLoop_closing (x : List Char) {rounds k : ℕ} (h : x.length ≤ rounds + k) :
    ∃ m, ¬closing m <:+: x ∧
      ∀ fuel, rounds < fuel → delimLoop x fuel (closing k) = .ok (closing m) := by
  induction rounds generalizing k with
  | zero =>
    have hnot : ¬closing k <:+: x := fun hmem => by
      have hle := hmem.length_le
      rw [closing_length] at hle
      omega
    refine ⟨k, hnot, fun fuel hfuel => ?_⟩
    obtain ⟨fuel, rfl⟩ := Nat.exists_eq_add_one.2 hfuel
    rw [delimLoop, if_neg (not_not.2 (find_eq_none_iff.2 hnot))]
  | succ rounds ih =>
    by_cases hfound : closing k <:+: x
    · obtain ⟨m, hm, hloop⟩ := ih (k := k + 1) (by omega)
      refine ⟨m, hm, fun fuel hfuel => ?_⟩
      obtain ⟨fuel, rfl⟩ := Nat.exists_eq_add_one.2 (Nat.zero_lt_of_lt hfuel)
      rw [delimLoop, if_pos (mt find_eq_none_iff.1 (not_not.2 hfound)), closing_succ,
        hloop fuel (by omega)]
    · refine ⟨k, hfound, fun fuel hfuel => ?_⟩
      obtain ⟨fuel, rfl⟩ := Nat.exists_eq_add_one.2 (Nat.zero_lt_of_lt hfuel)
      rw [delimLoop, if_neg (not_not.2 (find_eq_none_iff.2 hfound))]

lemma find_closing {x : List Char} {m : ℕ} (h : ¬closing m <:+: x) :
    find (closing m) (x ++ closing m) = some x.length :=
  find_append (by simp [List.mem_replicate]) h

lemma lex_closing {x : List Char} {m : ℕ} (h : ¬closing m <:+: x) :
    lex (['R', '"'] ++ List.replicate m 'x' ++ '(' :: x ++ closing m) = some (x, []) := by
  have htake : (List.replicate m 'x' ++ '(' :: (x ++ closing m)).takeWhile (· ≠ '(') =
      List.replicate m 'x' := by
    rw [List.takeWhile_append_of_pos (by simp [List.mem_replicate])]
    simp
  have hdrop : (List.replicate m 'x' ++ '(' :: (x ++ closing m)).drop (m + 1) = x ++ closing m := by
    rw [← List.drop_drop]
    simp
  have hend : (x ++ closing m).drop (x.length + m + 2) = [] := by
    rw [List.drop_eq_nil_iff, List.length_append, closing_length, Nat.add_assoc]
  have htext : ['R', '"'] ++ List.replicate m 'x' ++ '(' :: x ++ closing m =
      'R' :: '"' :: (List.replicate m 'x' ++ '(' :: (x ++ closing m)) := by simp
  have hfind : find (')' :: List.replicate m 'x' ++ ['"']) (x ++ closing m) = some x.length :=
    find_closing h
  rw [htext, lex]
  simp only [htake, hdrop, List.length_replicate, hfind, Option.map_some, List.take_left, hend]

/-- For every content the search for a delimiter ends, the text written closes with the first
occurrence of the delimiter after the opening parenthesis, and a lexer reads the content back. -/
theorem rawstringify_faithful (x : List Char) : ∃ d text, (∀ fuel, x.length < fuel →
      rawstringify fuel x = .ok text) ∧
    text = ['R', '"'] ++ d ++ '(' :: (x ++ (')' :: d ++ ['"'])) ∧
      (∀ j < x.length, ¬(')' :: d ++ ['"']) <+: (x ++ (')' :: d ++ ['"'])).drop j) ∧
        lex text = some (x, []) := by
  obtain ⟨m, hm, hloop⟩ := delimLoop_closing x (k := 0) le_rfl
  refine ⟨List.replicate m 'x', _, fun fuel hfuel => ?_, ?_, ?_, lex_closing hm⟩
  · have hdelim : ((closing m).drop 1).dropLast = List.replicate m 'x' := by
      simp [closing]
    have hstart : closing 0 = [')', '"'] := rfl
    rw [rawstringify, ← hstart, hloop fuel hfuel, Run.bind_ok, hdelim]
  · simp [closing]
  · exact ((find_eq_some_iff (List.cons_ne_nil _ _)).1 (find_closing hm)).2

end CoreCommon.RawString
