import CoreCommon.ParserSafety

/-! A parser that counts fewer characters than the text has reads only a prefix of it. -/
namespace CoreCommon.ParseMap
open ParserSpan
variable {σ A B C : Type} {v w : List Char}

/-- No number is read, which `strtol` and `strtof` look for beyond the length, and no lambda
produces a parser. -/
def Counted : {A B : Type} → ParseMap σ A B → Prop
  | _, _, .lazyMap _ => False
  | _, _, @tupleLast _ _ _ _ head => head.Counted
  | _, _, @tupleMap _ _ _ _ _ _ head rest => head.Counted ∧ rest.Counted
  | _, _, .not inner => inner.Counted
  | _, _, .lookAhead inner => inner.Counted
  | _, _, @chain _ _ _ _ _ left right => left.Counted ∧ right.Counted
  | _, _, @combine _ _ _ _ _ inner _ => inner.Counted
  | _, _, @skipMap _ _ _ skip => skip.Counted
  | _, _, @multiple _ _ _ _ _ _ inner => inner.Counted
  | _, _, @arrayMap _ _ _ _ _ inner => inner.Counted
  | _, _, .many _ _ inner => inner.Counted
  | _, _, .or left right => left.Counted ∧ right.Counted
  | _, _, .parseString inner => inner.Counted
  | _, _, .parseInt => False
  | _, _, .parseFloat => False
  | _, _, _ => True

lemma Counted.lazyFree {e : ParseMap σ A B} (he : e.Counted) : e.LazyFree := by
  induction e with
  | lazyMap | parseInt | parseFloat => exact he.elim
  | tupleLast _ ih | not _ ih | lookAhead _ ih | combine _ _ ih | skipMap _ ih
  | multiple _ _ _ ih | arrayMap _ _ ih | many _ _ _ ih | parseString _ ih => exact ih he
  | tupleMap _ _ ihl ihr | chain _ _ ihl ihr | or _ _ ihl ihr => exact ⟨ihl he.1, ihr he.2⟩
  | resultMap | errorMap | ignore | any | char | parseEOF | parseWS | match_ => trivial

/-! ### Primitives -/

lemma cstr_append {i : ℕ} (h : i ≤ v.length) : cstr (v ++ w) i = .ok (v.drop i ++ w) := by
  rw [cstr_eq (by rw [List.length_append]; omega), List.drop_append_of_le_length h]

lemma deref_append {i : ℕ} (h : i < v.length) : deref (v ++ w) i = deref v i := by
  have hne : v.drop i ≠ [] := List.ne_nil_of_length_pos (by rw [List.length_drop]; omega)
  rw [deref_eq h.le, deref, cstr_append h.le, Run.bind_ok]
  cases hd : v.drop i with
  | nil => exact absurd hd hne
  | cons c t => rfl

lemma runChar_append {p : Parser Unit} (hp : Fits v p.span) :
    runChar (v ++ w) p = runChar v p := by
  have hstart := p.span.start_le
  unfold Fits at hp
  unfold runChar
  split_ifs with h
  · rfl
  · rw [deref_append (by omega)]

lemma runWS_append {p : Parser Unit} (hp : Fits v p.span) : runWS (v ++ w) p = runWS v p := by
  unfold Fits at hp
  unfold runWS
  dsimp only
  split_ifs with h
  · rfl
  · have hlen : p.span.length ≠ 0 := h
    have htext : (p.expecting .expected "whitespace").span.text < v.length :=
      show p.span.text < v.length by omega
    rw [deref_append htext]

lemma runMatch_append {m : String} {p : Parser Unit} (hp : Fits v p.span) :
    runMatch (v ++ w) m p = runMatch v m p := by
  unfold Fits at hp
  unfold runMatch
  dsimp only
  split_ifs with h
  · rfl
  · have hlen : m.toList.length ≤ (v.drop p.span.text).length := by
      rw [List.length_drop]
      have hle : ¬p.span.length < m.toList.length := h
      omega
    have htext : (p.expecting .expected m).span.text ≤ v.length :=
      show p.span.text ≤ v.length by omega
    have hsame : m.toList.isPrefixOf (v.drop p.span.text ++ w) =
        m.toList.isPrefixOf (v.drop p.span.text) := by
      rw [Bool.eq_iff_iff, List.isPrefixOf_iff_prefix, List.isPrefixOf_iff_prefix]
      exact ⟨fun h => List.prefix_of_prefix_length_le h (List.prefix_append _ _) hlen,
        fun h => h.trans (List.prefix_append _ _)⟩
    rw [cstr_append htext, cstr_eq htext, Run.bind_ok, Run.bind_ok]
    show (if m.toList.isPrefixOf (v.drop p.span.text ++ w) then _ else _) = _
    rw [hsame]
    rfl

/-! ### Loops -/

/-- A run after which the parsers agree goes on alike. -/
lemma bind_congr_of_keeps {f : Parser A → σ → Run (Parser B × σ)} (hf : Keeps v f) {p : Parser A}
    {st : σ} (hp : Fits v p.span) {g g' : Parser B × σ → Run (Parser C × σ)}
    (h : ∀ q st, Fits v q.span → g (q, st) = g' (q, st)) : f p st >>= g = f p st >>= g' := by
  have hwithin := hf p st hp
  cases hrun : f p st with
  | error e => rfl
  | ok r =>
    rw [hrun] at hwithin
    exact h r.1 r.2 (hwithin.fits hp)

section loops
variable {inner inner' : Parser A → σ → Run (Parser B × σ)}
  (heq : ∀ p st, Fits v p.span → inner p st = inner' p st) (hkeeps : Keeps v inner')
include heq hkeeps

lemma multipleLoop_congr (min max fuel i : ℕ) (vec : List B) (p : Parser A) (st : σ)
    (hp : Fits v p.span) :
    multipleLoop inner min max fuel i vec p st = multipleLoop inner' min max fuel i vec p st := by
  induction fuel generalizing i vec p st with
  | zero => rfl
  | succ fuel ih =>
    unfold multipleLoop
    rw [heq p st hp]
    by_cases hmax : i < max
    · rw [if_pos hmax, if_pos hmax]
      refine bind_congr_of_keeps hkeeps hp fun q st hq => ?_
      dsimp only
      rw [ih _ _ (p.withSpan q.span) st hq]
    · rw [if_neg hmax, if_neg hmax]

lemma manyLoop_congr (min max fuel i : ℕ) (p : Parser A) (st : σ) (hp : Fits v p.span) :
    manyLoop inner min max fuel i p st = manyLoop inner' min max fuel i p st := by
  rw [manyLoop_eq inner min max fuel i [], manyLoop_eq inner' min max fuel i [],
    multipleLoop_congr heq hkeeps min max fuel i [] p st hp]

lemma arrayLoop_congr (n fuel i : ℕ) (arr : List B) (p : Parser A) (st : σ)
    (hp : Fits v p.span) :
    arrayLoop inner n fuel i arr p st = arrayLoop inner' n fuel i arr p st := by
  induction fuel generalizing i arr p st with
  | zero => rfl
  | succ fuel ih =>
    unfold arrayLoop
    rw [heq p st hp]
    split_ifs
    · exact bind_congr_of_keeps hkeeps hp fun q st hq => ih _ _ (p.withSpan q.span) st hq
    · rfl

end loops

/-! ### Whole expressions -/

/-- What stands behind the characters that the parser counts makes no difference. -/
theorem run_append (e : ParseMap σ A B) (he : e.Counted) (fuel : ℕ) {p : Parser A} (st : σ)
    (hp : Fits v p.span) : run (v ++ w) fuel e p st = run v fuel e p st := by
  induction e generalizing st with
  | lazyMap | parseInt | parseFloat => exact he.elim
  | resultMap | errorMap | ignore | any | parseEOF => rfl
  | tupleLast head ih => rw [run, run, ih he st hp]
  | tupleMap head rest ihh ihr =>
    rw [run, run, ihh he.1 st hp]
    refine bind_congr_of_keeps (run_keeps v fuel head he.1.lazyFree) hp fun q st hq => ?_
    dsimp only
    rw [ihr he.2 st hq]
  | not inner ih => rw [run, run, ih he st hp]
  | lookAhead inner ih => rw [run, run, ih he st hp]
  | chain left right ihl ihr =>
    rw [run, run, ihl he.1 st hp]
    refine bind_congr_of_keeps (run_keeps v fuel left he.1.lazyFree) hp fun q st hq => ?_
    dsimp only
    rw [ihr he.2 st hq]
  | combine inner resmap ih => rw [run, run, ih he st hp]
  | skipMap skip ih => rw [run, run, ih he st hp]
  | multiple min max inner ih =>
    rw [run, run]
    exact multipleLoop_congr (fun p st hp => ih he st hp)
      (run_keeps v fuel inner (Counted.lazyFree he)) _ _ _ _ _ _ _ hp
  | arrayMap n inner ih =>
    rw [run, run]
    exact arrayLoop_congr (fun p st hp => ih he st hp)
      (run_keeps v fuel inner (Counted.lazyFree he)) _ _ _ _ _ _ hp
  | many min max inner ih =>
    rw [run, run]
    exact manyLoop_congr (fun p st hp => ih he st hp)
      (run_keeps v fuel inner (Counted.lazyFree he)) _ _ _ _ _ _ hp
  | or left right ihl ihr =>
    rw [run, run, ihl he.1 st hp]
    refine bind_congr_of_keeps (run_keeps v fuel left he.1.lazyFree) hp fun q st hq => ?_
    dsimp only
    rw [ihr he.2 st hp]
  | parseString inner ih =>
    rw [run, run, ih he st hp]
    refine bind_congr_of_keeps (run_keeps v fuel inner (Counted.lazyFree he)) hp fun q st hq => ?_
    have htext : ((v ++ w).drop p.span.text).take (q.span.text - p.span.text) =
        (v.drop p.span.text).take (q.span.text - p.span.text) := by
      unfold Fits at hp hq
      rw [List.drop_append_of_le_length (by omega), List.take_append_of_le_length]
      rw [List.length_drop]
      omega
    dsimp only
    rw [htext]
  | char => rw [run, run, runChar_append hp]
  | parseWS => rw [run, run, runWS_append hp]
  | match_ m => rw [run, run, runMatch_append hp]

/-- The part of a text that its parser counts. -/
def counted (s : List Char) : List Char := s.take (s.length % 2 ^ 32)

lemma counted_append (s : List Char) : ∃ w, s = counted s ++ w :=
  ⟨_, (List.take_append_drop _ s).symm⟩

lemma length_counted (s : List Char) : (counted s).length = s.length % 2 ^ 32 := by
  rw [counted, List.length_take]
  exact min_eq_left (Nat.mod_le _ _)

lemma run_counted {s : List Char} (e : ParseMap σ A B) (he : e.Counted) (fuel : ℕ) {p : Parser A}
    (st : σ) (hp : Fits (counted s) p.span) :
    run s fuel e p st = run (counted s) fuel e p st := by
  obtain ⟨w, hw⟩ := counted_append s
  have h := run_append (w := w) e he fuel st hp
  rwa [← hw] at h

end CoreCommon.ParseMap
