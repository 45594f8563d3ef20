import CoreCommon.Parser

/-! The span of a parser's result is a suffix of the span it was given, whether it
succeeds or fails, so no parser reads past the terminating NUL. -/
namespace CoreCommon
open NumberText

namespace ParserSpan

/-- `q` ends where `p` ends and does not start before it. -/
structure Suffix (p q : ParserSpan) : Prop where
  text_le : p.text ≤ q.text
  end_eq : q.text + q.length = p.text + p.length

/-- `length = strlen(text)`. -/
def Fits (s : List Char) (p : ParserSpan) : Prop := p.text + p.length = s.length

lemma Fits.text_le {s : List Char} {p : ParserSpan} (h : Fits s p) : p.text ≤ s.length :=
  h ▸ Nat.le_add_right _ _

namespace Suffix
variable {p q r : ParserSpan}

lemma refl (p : ParserSpan) : Suffix p p := ⟨le_rfl, rfl⟩

lemma trans (hpq : Suffix p q) (hqr : Suffix q r) : Suffix p r :=
  ⟨hpq.text_le.trans hqr.text_le, hqr.end_eq.trans hpq.end_eq⟩

lemma fits {s : List Char} (h : Suffix p q) (hp : Fits s p) : Fits s q := h.end_eq.trans hp

end Suffix

lemma suffix_advance {p : ParserSpan} {n : ℕ} (hn : n ≤ p.length) : Suffix p (p.advance n) := by
  have hlt := p.length_lt
  refine ⟨Nat.le_add_right _ _, ?_⟩
  simp only [advance]
  omega

lemma suffix_add {p : ParserSpan} {n : ℕ} (hn : n ≤ p.length) : Suffix p (p.add n) := by
  have hlt := p.length_lt
  rw [add, Nat.mod_eq_of_lt (by omega)]
  exact suffix_advance hn

end ParserSpan

namespace ParseMap
open ParserSpan
variable {σ A B C : Type}

/-- An expression without lambdas that produce parsers. -/
def LazyFree : {A B : Type} → ParseMap σ A B → Prop
  | _, _, .lazyMap _ => False
  | _, _, @tupleLast _ _ _ _ head => head.LazyFree
  | _, _, @tupleMap _ _ _ _ _ _ head rest => head.LazyFree ∧ rest.LazyFree
  | _, _, .not inner => inner.LazyFree
  | _, _, .lookAhead inner => inner.LazyFree
  | _, _, @chain _ _ _ _ _ left right => left.LazyFree ∧ right.LazyFree
  | _, _, @combine _ _ _ _ _ inner _ => inner.LazyFree
  | _, _, @skipMap _ _ _ skip => skip.LazyFree
  | _, _, @multiple _ _ _ _ _ _ inner => inner.LazyFree
  | _, _, @arrayMap _ _ _ _ _ inner => inner.LazyFree
  | _, _, .many _ _ inner => inner.LazyFree
  | _, _, .or left right => left.LazyFree ∧ right.LazyFree
  | _, _, .parseString inner => inner.LazyFree
  | _, _, _ => True

/-- The run returns a suffix of `p`, or its loops use up the fuel; it does nothing undefined. -/
def Within (p : ParserSpan) : Run (Parser B × σ) → Prop
  | .ok (q, _) => Suffix p q.span
  | .error f => f = .diverges

lemma Within.bind {p : ParserSpan} {x : Run (Parser A × σ)}
    {f : Parser A × σ → Run (Parser B × σ)} (hx : Within p x)
    (hf : ∀ q st, Suffix p q.span → Within p (f (q, st))) : Within p (x >>= f) := by
  cases x with
  | ok r => exact hf r.1 r.2 hx
  | error e => exact hx

lemma Within.mono {p q : ParserSpan} {x : Run (Parser B × σ)} (hpq : Suffix p q)
    (hx : Within q x) : Within p x := by
  cases x with
  | ok r => exact hpq.trans hx
  | error e => exact hx

/-- A function from parsers to runs that keeps every fitting span within itself. -/
def Keeps (s : List Char) (f : Parser A → σ → Run (Parser B × σ)) : Prop :=
  ∀ p st, Fits s p.span → Within p.span (f p st)

/-! ### Primitives -/

lemma unlessErr_suffix [Inhabited B] (q : Parser A) (r : Parser B) (h : r.span = q.span) :
    Suffix q.span (q.unlessErr r).span := by
  unfold Parser.unlessErr
  split_ifs
  · exact Suffix.refl _
  · exact h ▸ Suffix.refl _

lemma cstr_eq {s : List Char} {i : ℕ} (h : i ≤ s.length) : cstr s i = .ok (s.drop i) := if_pos h

lemma deref_eq {s : List Char} {i : ℕ} (h : i ≤ s.length) :
    deref s i = .ok ((s.drop i).headD '\x00') := by
  rw [deref, cstr_eq h, Run.bind_ok]

lemma runAny_suffix (p : Parser Unit) : Suffix p.span (runAny p).span := by
  simp only [runAny]
  split_ifs with h
  · exact Suffix.refl _
  · exact suffix_add (Nat.one_le_iff_ne_zero.2 h)

lemma runEOF_suffix (p : Parser Unit) : Suffix p.span (runEOF p).span := by
  simp only [runEOF]
  split_ifs <;> exact Suffix.refl _

/-- A primitive without captured variables. -/
def Primitive (s : List Char) (f : Parser Unit → Run (Parser B)) : Prop :=
  ∀ p, Fits s p.span → ∃ q, f p = .ok q ∧ Suffix p.span q.span

lemma runChar_primitive (s : List Char) : Primitive s (runChar s) := by
  intro p hp
  have hstart := p.span.start_le
  unfold runChar
  split_ifs with h
  · exact ⟨_, rfl, Suffix.refl _⟩
  · rw [deref_eq (by unfold Fits at hp; omega)]
    exact ⟨_, rfl, suffix_add (Nat.one_le_iff_ne_zero.2 h)⟩

lemma runWS_primitive (s : List Char) : Primitive s (runWS s) := by
  intro p hp
  unfold runWS
  dsimp only
  split_ifs with h
  · exact ⟨_, rfl, Suffix.refl _⟩
  · have hle : (p.expecting .expected "whitespace").span.text ≤ s.length := hp.text_le
    rw [deref_eq hle, Run.bind_ok]
    split_ifs
    · exact ⟨_, rfl, suffix_add (Nat.one_le_iff_ne_zero.2 h)⟩
    · exact ⟨_, rfl, Suffix.refl _⟩

lemma runMatch_primitive (s : List Char) (m : String) : Primitive s (runMatch s m) := by
  intro p hp
  unfold runMatch
  dsimp only
  split_ifs with h
  · exact ⟨_, rfl, Suffix.refl _⟩
  · have hle : (p.expecting .expected m).span.text ≤ s.length := hp.text_le
    rw [cstr_eq hle, Run.bind_ok]
    split_ifs
    · exact ⟨_, rfl, suffix_add (not_lt.1 h)⟩
    · exact ⟨_, rfl, Suffix.refl _⟩

/-- A number's end pointer lies inside the text, so the pointer difference is at most `length`. -/
lemma runNumber_primitive {N : Type} [Inhabited N] {read : List Char → N × ℕ}
    (hread : ∀ t, (read t).2 ≤ t.length) (s : List Char) : Primitive s (runNumber s read) := by
  intro p hp
  have hle := hp.text_le
  have hnum := hread (s.drop p.span.text)
  rw [List.length_drop] at hnum
  unfold runNumber
  rw [cstr_eq hle, Run.bind_ok]
  dsimp only
  split_ifs
  · exact ⟨_, rfl, Suffix.refl _⟩
  · refine ⟨_, rfl, suffix_advance ?_⟩
    unfold Fits at hp
    show _ ≤ p.span.length
    omega

lemma Primitive.keeps {s : List Char} {f : Parser Unit → Run (Parser B)} (hf : Primitive s f) :
    Keeps s fun p (st : σ) => f p >>= fun q => .ok (q, st) := by
  intro p st hp
  obtain ⟨q, hq, hsuffix⟩ := hf p hp
  simp only [hq, Run.bind_ok]
  exact hsuffix

/-! ### Loops -/

variable {s : List Char} {inner : Parser A → σ → Run (Parser B × σ)}

lemma multipleLoop_keeps (hinner : Keeps s inner) (min max fuel i : ℕ) (vec : List B) :
    Keeps s (multipleLoop inner min max fuel i vec) := by
  induction fuel generalizing i vec with
  | zero => intro p st hp; rfl
  | succ fuel ih =>
    intro p st hp
    unfold multipleLoop
    by_cases hmax : i < max
    · rw [if_pos hmax]
      refine (hinner p st hp).bind fun q st hq => ?_
      dsimp only
      split_ifs
      · exact hq
      · exact Suffix.refl _
      · exact (ih _ _ (p.withSpan q.span) st (hq.fits hp)).mono hq
    · rw [if_neg hmax]
      exact Suffix.refl _

lemma manyLoop_keeps (hinner : Keeps s inner) (min max fuel i : ℕ) :
    Keeps s (manyLoop inner min max fuel i) := by
  intro p st hp
  rw [manyLoop_eq inner min max fuel i []]
  exact (multipleLoop_keeps hinner min max fuel i [] p st hp).bind fun q st hq => hq

lemma arrayLoop_keeps (hinner : Keeps s inner) (n fuel i : ℕ) (arr : List B) :
    Keeps s (arrayLoop inner n fuel i arr) := by
  induction fuel generalizing i arr with
  | zero => intro p st hp; rfl
  | succ fuel ih =>
    intro p st hp
    unfold arrayLoop
    split_ifs
    · refine (hinner p st hp).bind fun q st hq => ?_
      exact (ih _ _ (p.withSpan q.span) st (hq.fits hp)).mono hq
    · exact Suffix.refl _

/-! ### Whole expressions -/

lemma run_keeps (s : List Char) (fuel : ℕ) (e : ParseMap σ A B) (he : e.LazyFree) :
    Keeps s (run s fuel e) := by
  induction e with
  | lazyMap => exact he.elim
  | resultMap => intro p st hp; exact Suffix.refl _
  | errorMap cond =>
    intro p st hp
    unfold run Within
    dsimp only
    split_ifs <;> exact Suffix.refl _
  | ignore => intro p st hp; exact Suffix.refl _
  | tupleLast head ih =>
    intro p st hp
    unfold run
    refine (ih he p st hp).bind fun q st hq => ?_
    exact hq.trans (unlessErr_suffix q _ rfl)
  | tupleMap head rest ihh ihr =>
    intro p st hp
    unfold run
    refine (ihh he.1 p st hp).bind fun q st hq => ?_
    dsimp only
    split_ifs
    · exact hq
    · refine ((ihr he.2 q st (hq.fits hp)).mono hq).bind fun r st hr => ?_
      exact hr.trans (unlessErr_suffix r _ rfl)
  | not inner ih =>
    intro p st hp
    unfold run
    exact (ih he p st hp).bind fun q st hq => hq
  | lookAhead inner ih =>
    intro p st hp
    unfold run
    exact (ih he p st hp).bind fun q st hq => Suffix.refl _
  | chain left right ihl ihr =>
    intro p st hp
    unfold run
    refine (ihl he.1 p st hp).bind fun q st hq => ?_
    dsimp only
    split_ifs
    · exact hq
    · exact (ihr he.2 q st (hq.fits hp)).mono hq
  | combine inner resmap ih =>
    intro p st hp
    unfold run
    refine (ih he p st hp).bind fun q st hq => ?_
    exact hq.trans (unlessErr_suffix q _ rfl)
  | skipMap skip ih =>
    intro p st hp
    unfold run
    refine (ih he (p.withRes ()) st hp).bind fun q st hq => ?_
    exact hq.trans (unlessErr_suffix q _ rfl)
  | multiple min max inner ih =>
    intro p st hp
    unfold run
    exact multipleLoop_keeps (ih he) min max fuel 0 _ p st hp
  | arrayMap n inner ih =>
    intro p st hp
    unfold run
    exact arrayLoop_keeps (ih he) n fuel 0 _ p st hp
  | many min max inner ih =>
    intro p st hp
    unfold run
    exact manyLoop_keeps (ih he) min max fuel 0 p st hp
  | or left right ihl ihr =>
    intro p st hp
    unfold run
    refine (ihl he.1 p st hp).bind fun q st hq => ?_
    dsimp only
    split_ifs
    · exact ihr he.2 p st hp
    · exact hq
  | parseString inner ih =>
    intro p st hp
    unfold run
    refine (ih he p st hp).bind fun q st hq => ?_
    exact hq.trans (unlessErr_suffix q _ rfl)
  | any => intro p st hp; exact runAny_suffix p
  | char => intro p st hp; unfold run; exact (runChar_primitive s).keeps p st hp
  | parseEOF => intro p st hp; exact runEOF_suffix p
  | parseWS => intro p st hp; unfold run; exact (runWS_primitive s).keeps p st hp
  | match_ m => intro p st hp; unfold run; exact (runMatch_primitive s m).keeps p st hp
  | parseInt =>
    intro p st hp; unfold run; exact (runNumber_primitive strtol_le s).keeps p st hp
  | parseFloat =>
    intro p st hp; unfold run; exact (runNumber_primitive strtof_le s).keeps p st hp

/-- No parser leaves its input: from a span with `length = strlen(text)` every result, failed
or not, has a suffix of that span, and no read is out of bounds on the way. -/
theorem run_suffix (e : ParseMap σ A B) (he : e.LazyFree) (s : List Char) (fuel : ℕ)
    (p : Parser A) (st : σ) (hp : p.span.text + p.span.length = s.length) :
    (∀ q st', run s fuel e p st = .ok (q, st') → p.span.text ≤ q.span.text ∧
      q.span.text + q.span.length = p.span.text + p.span.length) ∧
    ∀ f, run s fuel e p st = .error f → f = .diverges := by
  have hwithin := run_keeps s fuel e he p st hp
  constructor
  · intro q st' hrun
    rw [hrun] at hwithin
    exact ⟨hwithin.text_le, hwithin.end_eq⟩
  · intro f hrun
    rwa [hrun] at hwithin

/-- `Not(Match("a") + ParseInt)` rewound by a `LookAhead`, on `a12`. -/
theorem run_suffix_example :
    let s := ['a', '1', '2']
    let e : ParseMap Unit Unit Unit :=
      .lookAhead (.not (.chain (.match_ "a") (.chain .parseInt .ignore)))
    let x := run s 9 e (.ofText s) ()
    (∀ q st', x = .ok (q, st') → 0 ≤ q.span.text ∧ q.span.text + q.span.length = 0 + 3) ∧
    ∀ f, x = .error f → f = .diverges := by
  intro s e x
  exact run_suffix e ⟨trivial, trivial, trivial⟩ s 9 (.ofText s) () rfl

end ParseMap
end CoreCommon
