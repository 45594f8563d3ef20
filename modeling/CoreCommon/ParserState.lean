import CoreCommon.Parser

/-! A property of the captured variables that every lambda of an expression keeps is kept by its
runs, whether they succeed or fail. -/
namespace CoreCommon.ParseMap
variable {σ A B C : Type}

/-- The lambdas of an expression keep a property of the variables they capture. -/
def Stable (I : σ → Prop) : {A B : Type} → ParseMap σ A B → Prop
  | _, _, .lazyMap lzmap => ∀ fuel p st q st', lzmap fuel p st = .ok (q, st') → I st → I st'
  | _, _, .resultMap resmap => ∀ a st, I st → I (resmap a st).2
  | _, _, @tupleLast _ _ _ _ head => head.Stable I
  | _, _, @tupleMap _ _ _ _ _ _ head rest => head.Stable I ∧ rest.Stable I
  | _, _, .not inner => inner.Stable I
  | _, _, .lookAhead inner => inner.Stable I
  | _, _, @chain _ _ _ _ _ left right => left.Stable I ∧ right.Stable I
  | _, _, @combine _ _ _ _ _ inner _ => inner.Stable I
  | _, _, @skipMap _ _ _ skip => skip.Stable I
  | _, _, @multiple _ _ _ _ _ _ inner => inner.Stable I
  | _, _, @arrayMap _ _ _ _ _ inner => inner.Stable I
  | _, _, .many _ _ inner => inner.Stable I
  | _, _, .or left right => left.Stable I ∧ right.Stable I
  | _, _, .parseString inner => inner.Stable I
  | _, _, _ => True

/-- What a run leaves in the captured variables, if it returns. -/
def Leaves (I : σ → Prop) (x : Run (Parser B × σ)) : Prop := ∀ q st, x = .ok (q, st) → I st

variable {I : σ → Prop}

lemma leaves_ok {q : Parser B} {st : σ} (h : I st) : Leaves I (.ok (q, st)) := by
  intro q' st' heq
  cases heq
  exact h

lemma leaves_error (f : Fault) : Leaves I (.error f : Run (Parser B × σ)) := nofun

lemma Leaves.bind {x : Run (Parser A × σ)} {f : Parser A × σ → Run (Parser B × σ)}
    (hx : Leaves I x) (hf : ∀ q st, I st → Leaves I (f (q, st))) : Leaves I (x >>= f) := by
  cases x with
  | ok r => exact hf r.1 r.2 (hx r.1 r.2 rfl)
  | error e => exact leaves_error e

/-- A primitive captures nothing. -/
lemma leaves_pure (x : Run (Parser B)) {st : σ} (h : I st) :
    Leaves I (x >>= fun q => .ok (q, st)) := by
  cases x with
  | ok q => exact leaves_ok h
  | error e => exact leaves_error e

section loops
variable {inner : Parser A → σ → Run (Parser B × σ)}

lemma multipleLoop_leaves (hinner : ∀ p st, I st → Leaves I (inner p st)) (min max fuel i : ℕ)
    (vec : List B) (p : Parser A) {st : σ} (h : I st) :
    Leaves I (multipleLoop inner min max fuel i vec p st) := by
  induction fuel generalizing i vec p st with
  | zero => exact leaves_error _
  | succ fuel ih =>
    unfold multipleLoop
    by_cases hmax : i < max
    · rw [if_pos hmax]
      refine (hinner p st h).bind fun q st hst => ?_
      dsimp only
      split_ifs
      · exact leaves_ok hst
      · exact leaves_ok hst
      · exact ih _ _ _ hst
    · rw [if_neg hmax]
      exact leaves_ok h

lemma manyLoop_leaves (hinner : ∀ p st, I st → Leaves I (inner p st)) (min max fuel i : ℕ)
    (p : Parser A) {st : σ} (h : I st) : Leaves I (manyLoop inner min max fuel i p st) := by
  rw [manyLoop_eq inner min max fuel i []]
  exact (multipleLoop_leaves hinner min max fuel i [] p h).bind fun q st hst => leaves_ok hst

lemma arrayLoop_leaves (hinner : ∀ p st, I st → Leaves I (inner p st)) (n fuel i : ℕ)
    (arr : List B) (p : Parser A) {st : σ} (h : I st) :
    Leaves I (arrayLoop inner n fuel i arr p st) := by
  induction fuel generalizing i arr p st with
  | zero => exact leaves_error _
  | succ fuel ih =>
    unfold arrayLoop
    split_ifs
    · exact (hinner p st h).bind fun q st hst => ih _ _ _ hst
    · exact leaves_ok h

end loops

theorem run_leaves (s : List Char) (fuel : ℕ) (e : ParseMap σ A B) (he : e.Stable I) (p : Parser A)
    (st : σ) (h : I st) : Leaves I (run s fuel e p st) := by
  induction e generalizing st with
  | lazyMap lzmap => exact fun q st' hrun => he fuel p st q st' hrun h
  | resultMap resmap => exact leaves_ok (he p.res st h)
  | errorMap => exact leaves_ok h
  | ignore => exact leaves_ok h
  | tupleLast head ih =>
    unfold run
    exact (ih he p st h).bind fun q st hst => leaves_ok hst
  | tupleMap head rest ihh ihr =>
    unfold run
    refine (ihh he.1 p st h).bind fun q st hst => ?_
    dsimp only
    split_ifs
    · exact leaves_ok hst
    · exact (ihr he.2 q st hst).bind fun r st hst => leaves_ok hst
  | not inner ih =>
    unfold run
    exact (ih he p st h).bind fun q st hst => leaves_ok hst
  | lookAhead inner ih =>
    unfold run
    exact (ih he p st h).bind fun q st hst => leaves_ok hst
  | chain left right ihl ihr =>
    unfold run
    refine (ihl he.1 p st h).bind fun q st hst => ?_
    dsimp only
    split_ifs
    · exact leaves_ok hst
    · exact ihr he.2 q st hst
  | combine inner resmap ih =>
    unfold run
    exact (ih he p st h).bind fun q st hst => leaves_ok hst
  | skipMap skip ih =>
    unfold run
    exact (ih he (p.withRes ()) st h).bind fun q st hst => leaves_ok hst
  | multiple min max inner ih =>
    unfold run
    exact multipleLoop_leaves (ih he) min max fuel 0 _ p h
  | arrayMap n inner ih =>
    unfold run
    exact arrayLoop_leaves (ih he) n fuel 0 _ p h
  | many min max inner ih =>
    unfold run
    exact manyLoop_leaves (ih he) min max fuel 0 p h
  | or left right ihl ihr =>
    unfold run
    refine (ihl he.1 p st h).bind fun q st hst => ?_
    dsimp only
    split_ifs
    · exact ihr he.2 p st hst
    · exact leaves_ok hst
  | parseString inner ih =>
    unfold run
    exact (ih he p st h).bind fun q st hst => leaves_ok hst
  | any => exact leaves_ok h
  | char => unfold run; exact leaves_pure _ h
  | parseEOF => exact leaves_ok h
  | parseWS => unfold run; exact leaves_pure _ h
  | match_ m => unfold run; exact leaves_pure _ h
  | parseInt => unfold run; exact leaves_pure _ h
  | parseFloat => unfold run; exact leaves_pure _ h

end CoreCommon.ParseMap
