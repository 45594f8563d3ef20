import CoreCommon.ParserSafety

/-! What parsers return, against the text they consume: the results of `Multiple`, the text of
`ParseString`, the character of `Char`, the components of a tuple, and `length`. -/
namespace CoreCommon.ParseMap
open NumberText
variable {σ A B C : Type}

/-- `ParseMap::length`, a difference of pointers as a `size_t`. -/
def length (s : List Char) (fuel : ℕ) (e : ParseMap σ A B) (p : Parser A)
    (st : σ) : Run ℕ := do
  let (q, _) ← run s fuel e p st
  .ok ((q.span.start + 2 ^ 64 - p.span.start) % 2 ^ 64)

/-! ### Successive runs -/

/-- Successful runs of `inner`, each from where the one before ended, and their results. -/
inductive Runs (inner : Parser A → σ → Run (Parser B × σ)) :
    Parser A → σ → List B → Parser A → σ → Prop
  | nil (p st) : Runs inner p st [] p st
  | cons {p st q st₁ l p' st'} (hrun : inner p st = .ok (q, st₁)) (hok : q.err = false)
      (hrest : Runs inner (p.withSpan q.span) st₁ l p' st') : Runs inner p st (q.res :: l) p' st'

/-- The runs end at `max`, or before a run that fails. -/
def Ends (inner : Parser A → σ → Run (Parser B × σ)) (max n : ℕ) (p : Parser A) (st st' : σ) :
    Prop :=
  n = max ∧ st' = st ∨ ∃ q, inner p st = .ok (q, st') ∧ q.err = true

/-- All successive runs up to `max`, at least `min` of them. -/
def Repeats (inner : Parser A → σ → Run (Parser B × σ)) (min max : ℕ) (p : Parser A) (st : σ)
    (l : List B) (span : ParserSpan) (st' : σ) : Prop :=
  ∃ p' st₁, Runs inner p st l p' st₁ ∧ Ends inner max l.length p' st₁ st' ∧ span = p'.span ∧
    min ≤ l.length ∧ l.length ≤ max

section loops
variable {inner : Parser A → σ → Run (Parser B × σ)} {p p' p₂ : Parser A} {st st' st₂ : σ}
  {l l₂ : List B}

/-- A failing run ends the longest sequence. -/
lemma Runs.length_le (h : Runs inner p st l p' st') {q : Parser B} {st₁ : σ}
    (hfail : inner p' st' = .ok (q, st₁)) (herr : q.err = true) (h₂ : Runs inner p st l₂ p₂ st₂) :
    l₂.length ≤ l.length := by
  induction h generalizing l₂ with
  | nil p st =>
    cases h₂ with
    | nil => exact le_rfl
    | cons hrun hok _ =>
      cases hfail.symm.trans hrun
      rw [herr] at hok
      cases hok
  | cons hrun hok _ ih =>
    cases h₂ with
    | nil => exact Nat.zero_le _
    | cons hrun₂ _ hrest₂ =>
      cases hrun.symm.trans hrun₂
      exact Nat.succ_le_succ (ih hfail hrest₂)

/-- What the loop of `Multiple` puts behind the elements it starts with. -/
lemma multipleLoop_runs {min max fuel i : ℕ} {vec : List B} {r : Parser (List B)} (hi : i < 2 ^ 32)
    (hrun : multipleLoop inner min max fuel i vec p st = .ok (r, st')) (herr : r.err = false) :
    ∃ l p' st₁, Runs inner p st l p' st₁ ∧ r.res = vec ++ l ∧ r.span = p'.span ∧
      (max ≤ (i + l.length) % 2 ^ 32 ∧ st' = st₁ ∨
        ∃ q, inner p' st₁ = .ok (q, st') ∧ q.err = true) ∧
      ∀ k < l.length, (i + k) % 2 ^ 32 < max := by
  induction fuel generalizing i vec p st with
  | zero => cases hrun
  | succ fuel ih =>
    unfold multipleLoop at hrun
    by_cases hmax : i < max
    · rw [if_pos hmax] at hrun
      obtain ⟨⟨q, st₁⟩, hinner, hrun⟩ := Run.bind_eq_ok.1 hrun
      dsimp only at hrun
      by_cases hq : q.err = true
      · rw [if_pos hq] at hrun
        obtain ⟨rfl, rfl⟩ := Prod.mk.inj (Except.ok.inj hrun)
        by_cases hmin : i < min
        · rw [if_pos hmin] at herr
          exact absurd (hq.symm.trans herr) Bool.true_eq_false.mp
        · rw [if_neg hmin]
          exact ⟨[], p, st, .nil p st, (List.append_nil _).symm, rfl, .inr ⟨q, hinner, hq⟩,
            fun k hk => absurd hk (Nat.not_lt_zero k)⟩
      · rw [if_neg hq] at hrun
        obtain ⟨l, p', st₂, hruns, hres, hspan, hend, hbound⟩ := ih (Nat.mod_lt _ (by decide)) hrun
        refine ⟨q.res :: l, p', st₂, .cons hinner (Bool.not_eq_true _ ▸ hq) hruns, ?_, hspan, ?_, ?_⟩
        · rw [hres, List.append_assoc]
          rfl
        · rwa [Nat.mod_add_mod, Nat.add_assoc, Nat.add_comm 1] at hend
        · intro k hk
          cases k with
          | zero => rwa [Nat.add_zero, Nat.mod_eq_of_lt hi]
          | succ k =>
            have hk' := hbound k (Nat.lt_of_succ_lt_succ hk)
            rwa [Nat.mod_add_mod, Nat.add_assoc, Nat.add_comm 1] at hk'
    · rw [if_neg hmax] at hrun
      obtain ⟨rfl, rfl⟩ := Prod.mk.inj (Except.ok.inj hrun)
      refine ⟨[], p, st, .nil p st, (List.append_nil _).symm, rfl, .inl ⟨?_, rfl⟩,
        fun k hk => absurd hk (Nat.not_lt_zero k)⟩
      rw [List.length_nil, Nat.add_zero, Nat.mod_eq_of_lt hi]
      exact Nat.le_of_not_lt hmax

/-- No more runs succeed than the bound says; below `2 ^ 32` the counter sees to it. -/
def Bounded (inner : Parser A → σ → Run (Parser B × σ)) (max : ℕ) (p : Parser A) (st : σ) : Prop :=
  max < 2 ^ 32 ∨ ∀ l p' st', Runs inner p st l p' st' → l.length ≤ max

/-- The vector is `min` values and then the results. -/
lemma multipleLoop_repeats_iff [Inhabited B] {min max fuel : ℕ} {r : Parser (List B)}
    (hrun : multipleLoop inner min max fuel 0 (List.replicate min default) p st = .ok (r, st'))
    (herr : r.err = false) :
    Repeats inner min max p st r.res r.span st' ↔ min = 0 ∧ Bounded inner max p st := by
  obtain ⟨l, p', st₁, hruns, hres, hspan, hend, hbound⟩ :=
    multipleLoop_runs (by decide) hrun herr
  simp only [Nat.zero_add] at hend hbound
  have hlen : r.res.length = min + l.length := by
    rw [hres, List.length_append, List.length_replicate]
  -- a bound below `2 ^ 32` is kept
  have hle : max < 2 ^ 32 → l.length ≤ max := by
    intro hmax
    by_contra hgt
    have := hbound max (Nat.lt_of_not_le hgt)
    rw [Nat.mod_eq_of_lt hmax] at this
    exact absurd this (lt_irrefl _)
  constructor
  · rintro ⟨p₂, st₂, hruns₂, -, -, -, hle₂⟩
    rcases hend with ⟨hfull, -⟩ | ⟨q, hfail, hq⟩
    · have hmod := Nat.mod_le l.length (2 ^ 32)
      have hlt := Nat.mod_lt l.length (show 2 ^ 32 > 0 by decide)
      exact ⟨by omega, .inl (by omega)⟩
    · have hlongest : ∀ {l₂ p₂ st₂}, Runs inner p st l₂ p₂ st₂ → l₂.length ≤ l.length :=
        fun h => hruns.length_le hfail hq h
      have := hlongest hruns₂
      exact ⟨by omega, .inr fun l₂ p₂ st₂ h => (hlongest h).trans (by omega)⟩
  · rintro ⟨rfl, hmost⟩
    have hl : l.length ≤ max := hmost.elim hle fun h => h _ _ _ hruns
    rw [List.replicate_zero, List.nil_append] at hres
    refine ⟨p', st₁, hres ▸ hruns, ?_, hspan, Nat.zero_le _, hres ▸ hl⟩
    rw [hres]
    refine hend.imp_left fun ⟨hfull, hst⟩ => ⟨le_antisymm hl ?_, hst⟩
    exact hfull.trans (Nat.mod_le _ _)

end loops
/-! ### Values -/

/-- `t` is what stands in `s` between the two offsets. -/
def Between (s : List Char) (i j : ℕ) (t : List Char) : Prop :=
  i + t.length = j ∧ s.take i ++ t ++ s.drop j = s

lemma between_drop_take {s : List Char} {i j : ℕ} (hij : i ≤ j) (hj : j ≤ s.length) :
    Between s i j ((s.drop i).take (j - i)) := by
  have hsplit : s.drop j = (s.drop i).drop (j - i) := by
    rw [List.drop_drop, Nat.add_sub_cancel' hij]
  refine ⟨?_, ?_⟩
  · rw [List.length_take, List.length_drop]
    omega
  · rw [hsplit, List.append_assoc, List.take_append_drop, List.take_append_drop]

/-- What a result is to be after a successful run. `std::string` is given a cursor in the text
behind the one before; other cursors it does not take. -/
def ValueRight (s : List Char) (fuel : ℕ) : {A B : Type} → ParseMap σ A B → Parser A → σ →
    Parser B → σ → Prop
  | _, _, @multiple _ _ _ _ min max inner, p, st, r, st' =>
    Repeats (fun q => run s fuel inner q) min max p st r.res r.span st'
  | _, _, .parseString _, p, _, r, _ => p.span.text ≤ r.span.text → r.span.text ≤ s.length →
    Between s p.span.text r.span.text r.res
  | _, _, .char, p, _, r, _ => deref s p.span.text = .ok r.res
  | _, _, @tupleLast _ _ _ _ head, p, st, r, st' =>
    ∃ q, run s fuel head p st = .ok (q, st') ∧ q.err = false ∧ r.res = (q.res, ())
  | _, _, @tupleMap _ _ _ _ _ _ head rest, p, st, r, st' =>
    ∃ q st₁ t, run s fuel head p st = .ok (q, st₁) ∧ q.err = false ∧
      run s fuel rest q st₁ = .ok (t, st') ∧ t.err = false ∧ r.res = (q.res, t.res)
  | _, _, _, _, _, _, _ => True

/-- When it is: `Multiple` starts with no elements, and the character under the cursor is the one
at the start of the text. -/
def ValueWhen (s : List Char) (fuel : ℕ) : {A B : Type} → ParseMap σ A B → Parser A → σ → Prop
  | _, _, @multiple _ _ _ _ min max inner, p, st =>
    min = 0 ∧ Bounded (fun q => run s fuel inner q) max p st
  | _, _, .char, p, _ => deref s p.span.text = deref s p.span.start
  | _, _, _, _, _ => True

/-- The run went on by `n` characters in the text. -/
def Consumes (p : Parser A) (r : Parser B) (n : ℕ) : Prop :=
  r.span.start = p.span.start ∧ r.span.text = p.span.text + n

section starts

/-- The result is a cursor into the same text. -/
def SameText (p : ParserSpan) (x : Run (Parser B × σ)) : Prop :=
  ∀ q st, x = .ok (q, st) → q.span.start = p.start

variable {p : ParserSpan}

lemma sameText_ok {q : Parser B} {st : σ} (h : q.span.start = p.start) :
    SameText p (.ok (q, st)) := by
  rintro q' st' ⟨⟩
  exact h

lemma sameText_error (f : Fault) : SameText p (.error f : Run (Parser B × σ)) := nofun

lemma SameText.bind {x : Run (Parser A × σ)} {f : Parser A × σ → Run (Parser B × σ)}
    (hx : SameText p x) (hf : ∀ q st, q.span.start = p.start → SameText p (f (q, st))) :
    SameText p (x >>= f) := by
  cases x with
  | ok r => exact hf r.1 r.2 (hx r.1 r.2 rfl)
  | error e => exact sameText_error e

lemma unlessErr_start [Inhabited B] {q : Parser A} {r : Parser B} (hq : q.span.start = p.start)
    (hr : r.span = q.span) : (q.unlessErr r).span.start = p.start := by
  unfold Parser.unlessErr
  split_ifs
  · exact hq
  · rw [hr, hq]

variable {inner : Parser A → σ → Run (Parser B × σ)}

lemma multipleLoop_sameText (hinner : ∀ q st, SameText q.span (inner q st)) (min max fuel i : ℕ)
    (vec : List B) (q : Parser A) (st : σ) (hq : q.span.start = p.start) :
    SameText p (multipleLoop inner min max fuel i vec q st) := by
  induction fuel generalizing i vec q st with
  | zero => exact sameText_error _
  | succ fuel ih =>
    unfold multipleLoop
    by_cases hmax : i < max
    · rw [if_pos hmax]
      refine SameText.bind (fun r st' h => (hinner q st r st' h).trans hq) fun r st' hr => ?_
      dsimp only
      split_ifs
      · exact sameText_ok hr
      · exact sameText_ok hq
      · exact ih _ _ _ _ hr
    · rw [if_neg hmax]
      exact sameText_ok hq

lemma manyLoop_sameText (hinner : ∀ q st, SameText q.span (inner q st)) (min max fuel i : ℕ)
    (q : Parser A) (st : σ) (hq : q.span.start = p.start) :
    SameText p (manyLoop inner min max fuel i q st) := by
  rw [manyLoop_eq inner min max fuel i []]
  exact (multipleLoop_sameText hinner min max fuel i [] q st hq).bind fun r st' hr => sameText_ok hr

lemma arrayLoop_sameText (hinner : ∀ q st, SameText q.span (inner q st)) (n fuel i : ℕ)
    (arr : List B) (q : Parser A) (st : σ) (hq : q.span.start = p.start) :
    SameText p (arrayLoop inner n fuel i arr q st) := by
  induction fuel generalizing i arr q st with
  | zero => exact sameText_error _
  | succ fuel ih =>
    unfold arrayLoop
    split_ifs
    · exact SameText.bind (fun r st' h => (hinner q st r st' h).trans hq) fun r st' hr => ih _ _ _ _ hr
    · exact sameText_ok hq

/-- A primitive's result is at the same place or further on. -/
def MovesOn (f : Parser Unit → Run (Parser B)) : Prop :=
  ∀ q r, f q = .ok r → r.span.start = q.span.start

lemma MovesOn.sameText {f : Parser Unit → Run (Parser B)} (hf : MovesOn f) (q : Parser Unit)
    (st : σ) : SameText q.span (f q >>= fun r => .ok (r, st)) := by
  intro r st' h
  obtain ⟨r', hr', h⟩ := Run.bind_eq_ok.1 h
  cases h
  exact hf q r hr'

lemma runChar_movesOn (s : List Char) : MovesOn (runChar s) := by
  intro q r h
  unfold runChar at h
  split_ifs at h
  · cases h
    rfl
  · obtain ⟨c, -, h⟩ := Run.bind_eq_ok.1 h
    cases h
    rfl

lemma runWS_movesOn (s : List Char) : MovesOn (runWS s) := by
  intro q r h
  unfold runWS at h
  dsimp only at h
  by_cases hlen : (q.expecting .expected "whitespace").span.length = 0
  · rw [if_pos hlen] at h
    cases h
    rfl
  · rw [if_neg hlen] at h
    obtain ⟨c, -, h⟩ := Run.bind_eq_ok.1 h
    split_ifs at h <;> cases h <;> rfl

lemma runMatch_movesOn (s : List Char) (m : String) : MovesOn (runMatch s m) := by
  intro q r h
  unfold runMatch at h
  dsimp only at h
  by_cases hlen : (q.expecting .expected m).span.length < m.toList.length
  · rw [if_pos hlen] at h
    cases h
    rfl
  · rw [if_neg hlen] at h
    obtain ⟨t, -, h⟩ := Run.bind_eq_ok.1 h
    split_ifs at h <;> cases h <;> rfl

lemma runNumber_movesOn {N : Type} [Inhabited N] (s : List Char) (read : List Char → N × ℕ) :
    MovesOn (runNumber s read) := by
  intro q r h
  unfold runNumber at h
  obtain ⟨t, -, h⟩ := Run.bind_eq_ok.1 h
  dsimp only at h
  split_ifs at h <;> cases h <;> rfl

/-- Without lambdas that produce parsers a run stays in its text. -/
lemma run_sameText (s : List Char) (fuel : ℕ) (e : ParseMap σ A B) (he : e.LazyFree) (q : Parser A)
    (st : σ) : SameText q.span (run s fuel e q st) := by
  induction e generalizing st with
  | lazyMap => exact he.elim
  | resultMap | ignore => exact sameText_ok rfl
  | errorMap cond =>
    refine sameText_ok ?_
    split_ifs <;> rfl
  | tupleLast head ih =>
    unfold run
    exact (ih he q st).bind fun r st hr => sameText_ok (unlessErr_start hr rfl)
  | tupleMap head rest ihh ihr =>
    unfold run
    refine (ihh he.1 q st).bind fun r st hr => ?_
    dsimp only
    split_ifs
    · exact sameText_ok hr
    · refine SameText.bind (fun t st' h => (ihr he.2 r st t st' h).trans hr) fun t st ht => ?_
      exact sameText_ok (unlessErr_start ht rfl)
  | not inner ih =>
    unfold run
    exact (ih he q st).bind fun r st hr => sameText_ok hr
  | lookAhead inner ih =>
    unfold run
    exact (ih he q st).bind fun r st hr => sameText_ok rfl
  | chain left right ihl ihr =>
    unfold run
    refine (ihl he.1 q st).bind fun r st hr => ?_
    dsimp only
    split_ifs
    · exact sameText_ok hr
    · exact fun t st' h => (ihr he.2 r st t st' h).trans hr
  | combine inner resmap ih =>
    unfold run
    exact (ih he q st).bind fun r st hr => sameText_ok (unlessErr_start hr rfl)
  | skipMap skip ih =>
    unfold run
    exact (ih he (q.withRes ()) st).bind fun r st hr => sameText_ok (unlessErr_start hr rfl)
  | multiple min max inner ih =>
    unfold run
    exact multipleLoop_sameText (ih he) min max fuel 0 _ q st rfl
  | arrayMap n inner ih =>
    unfold run
    exact arrayLoop_sameText (ih he) n fuel 0 _ q st rfl
  | many min max inner ih =>
    unfold run
    exact manyLoop_sameText (ih he) min max fuel 0 q st rfl
  | or left right ihl ihr =>
    unfold run
    refine (ihl he.1 q st).bind fun r st hr => ?_
    dsimp only
    split_ifs
    · exact ihr he.2 q st
    · exact sameText_ok hr
  | parseString inner ih =>
    unfold run
    exact (ih he q st).bind fun r st hr => sameText_ok (unlessErr_start hr rfl)
  | any =>
    refine sameText_ok ?_
    unfold runAny
    dsimp only
    split_ifs <;> rfl
  | parseEOF =>
    refine sameText_ok ?_
    unfold runEOF
    dsimp only
    split_ifs <;> rfl
  | char => unfold run; exact (runChar_movesOn s).sameText q st
  | parseWS => unfold run; exact (runWS_movesOn s).sameText q st
  | match_ m => unfold run; exact (runMatch_movesOn s m).sameText q st
  | parseInt => unfold run; exact (runNumber_movesOn s strtol).sameText q st
  | parseFloat => unfold run; exact (runNumber_movesOn s strtof).sameText q st

end starts

section values
variable {s : List Char} {fuel : ℕ} {p : Parser A} {st st' : σ}

lemma eq_of_unlessErr [Inhabited C] {q : Parser B} {r r' : Parser C} (h : q.unlessErr r = r')
    (herr : r'.err = false) : q.err = false ∧ r' = r := by
  unfold Parser.unlessErr at h
  split_ifs at h with hq
  · subst h
    exact absurd (hq.symm.trans herr) nofun
  · exact ⟨Bool.not_eq_true _ ▸ hq, h.symm⟩

lemma runChar_ok {p : Parser Unit} {r : Parser Char} (h : runChar s p = .ok r)
    (herr : r.err = false) : deref s p.span.start = .ok r.res := by
  unfold runChar at h
  split_ifs at h with hlen
  · cases h
    cases herr
  · obtain ⟨c, hc, h⟩ := Run.bind_eq_ok.1 h
    cases h
    exact hc

lemma length_eq {e : ParseMap σ A B} {r : Parser B} (hrun : run s fuel e p st = .ok (r, st'))
    (hstart : r.span.start = p.span.start) : length s fuel e p st = .ok 0 := by
  rw [length, hrun, Run.bind_ok]
  dsimp only
  rw [hstart, Nat.add_sub_cancel_left, Nat.mod_self]

/-- What `length` returns is always zero. -/
lemma length_eq_zero {e : ParseMap σ A B} (he : e.LazyFree) {n : ℕ}
    (hrun : length s fuel e p st = .ok n) : n = 0 := by
  obtain ⟨⟨r, st'⟩, hr, -⟩ := Run.bind_eq_ok.1 hrun
  have hzero := length_eq hr (run_sameText s fuel e he p st r st' hr)
  exact Except.ok.inj (hrun.symm.trans hzero)

lemma parseString_right {inner : ParseMap σ A B} {r : Parser (List Char)}
    (hrun : run s fuel (.parseString inner) p st = .ok (r, st')) (herr : r.err = false)
    (hle : p.span.text ≤ r.span.text) (hlen : r.span.text ≤ s.length) :
    Between s p.span.text r.span.text r.res := by
  unfold run at hrun
  obtain ⟨⟨q, st₁⟩, hinner, hrun⟩ := Run.bind_eq_ok.1 hrun
  obtain ⟨hq, hst⟩ := Prod.mk.inj (Except.ok.inj hrun)
  obtain ⟨-, rfl⟩ := eq_of_unlessErr hq herr
  exact between_drop_take hle hlen

lemma tupleLast_right [Inhabited B] {head : ParseMap σ A B} {r : Parser (B × Unit)}
    (hrun : run s fuel (.tupleLast head) p st = .ok (r, st')) (herr : r.err = false) :
    ValueRight s fuel (.tupleLast head) p st r st' := by
  unfold run at hrun
  obtain ⟨⟨q, st₁⟩, hhead, hrun⟩ := Run.bind_eq_ok.1 hrun
  obtain ⟨hq, rfl⟩ := Prod.mk.inj (Except.ok.inj hrun)
  obtain ⟨hok, rfl⟩ := eq_of_unlessErr hq herr
  exact ⟨q, hhead, hok, rfl⟩

lemma tupleMap_right [Inhabited B] [Inhabited C] {head : ParseMap σ A B} {rest : ParseMap σ B C}
    {r : Parser (B × C)} (hrun : run s fuel (.tupleMap head rest) p st = .ok (r, st'))
    (herr : r.err = false) : ValueRight s fuel (.tupleMap head rest) p st r st' := by
  unfold run at hrun
  obtain ⟨⟨q, st₁⟩, hhead, hrun⟩ := Run.bind_eq_ok.1 hrun
  dsimp only at hrun
  by_cases hq : q.err = true
  · rw [if_pos hq] at hrun
    obtain ⟨rfl, -⟩ := Prod.mk.inj (Except.ok.inj hrun)
    exact absurd (hq.symm.trans herr) Bool.true_eq_false.mp
  · rw [if_neg hq] at hrun
    obtain ⟨⟨t, st₂⟩, hrest, hrun⟩ := Run.bind_eq_ok.1 hrun
    obtain ⟨ht, rfl⟩ := Prod.mk.inj (Except.ok.inj hrun)
    obtain ⟨hok, rfl⟩ := eq_of_unlessErr ht herr
    exact ⟨q, st₁, t, hhead, Bool.not_eq_true _ ▸ hq, hrest, hok, rfl⟩

lemma value_right_iff {e : ParseMap σ A B} {r : Parser B}
    (hrun : run s fuel e p st = .ok (r, st')) (herr : r.err = false) :
    ValueRight s fuel e p st r st' ↔ ValueWhen s fuel e p st := by
  cases e with
  | multiple min max inner =>
    unfold run at hrun
    exact multipleLoop_repeats_iff hrun herr
  | parseString inner => exact iff_of_true (parseString_right hrun herr) trivial
  | char =>
    unfold run at hrun
    obtain ⟨q, hq, hrun⟩ := Run.bind_eq_ok.1 hrun
    obtain ⟨rfl, -⟩ := Prod.mk.inj (Except.ok.inj hrun)
    show deref s p.span.text = .ok _ ↔ deref s p.span.text = deref s p.span.start
    rw [runChar_ok hq herr]
  | tupleLast head => exact iff_of_true (tupleLast_right hrun herr) trivial
  | tupleMap head rest => exact iff_of_true (tupleMap_right hrun herr) trivial
  | _ => exact Iff.rfl

/-- From a span with `length = strlen(text)` a run without lambdas that produce parsers goes on
in its text. -/
lemma consumes_of_lazyFree {e : ParseMap σ A B} (he : e.LazyFree) (hp : p.span.Fits s)
    {r : Parser B} (hrun : run s fuel e p st = .ok (r, st')) :
    Consumes p r (r.span.text - p.span.text) := by
  have hkeeps := run_keeps s fuel e he p st hp
  rw [hrun] at hkeeps
  exact ⟨run_sameText s fuel e he p st r st' hrun, (Nat.add_sub_cancel' hkeeps.text_le).symm⟩

/-- For every expression, cursor and successful run: exactly when the value is right, and when
`length` is the number of characters consumed. -/
theorem values_right_iff {e : ParseMap σ A B} {r : Parser B}
    (hrun : run s fuel e p st = .ok (r, st')) (herr : r.err = false) :
    (ValueRight s fuel e p st r st' ↔ ValueWhen s fuel e p st) ∧
      ∀ n, Consumes p r n → (length s fuel e p st = .ok n ↔ n = 0) := by
  refine ⟨value_right_iff hrun herr, fun n hn => ?_⟩
  rw [length_eq hrun hn.1]
  exact ⟨fun h => (Except.ok.inj h).symm, fun h => by rw [h]⟩

/-- One number, read by `Multiple(0, 2, ParseInt)`. -/
theorem values_right_iff_seven : ∃ r, run ['7'] 3 (.multiple 0 2 .parseInt) (.ofText ['7']) () =
    .ok (r, ()) ∧ r.res = [7] ∧
      (ValueRight ['7'] 3 (.multiple 0 2 .parseInt) (.ofText ['7']) () r () ↔
        ValueWhen ['7'] 3 (.multiple 0 2 .parseInt) (.ofText ['7']) ()) ∧
      ∀ n, Consumes (.ofText ['7'] : Parser Unit) r n →
        (length ['7'] 3 (.multiple 0 2 .parseInt) (.ofText ['7']) () = .ok n ↔ n = 0) :=
  ⟨_, rfl, rfl, values_right_iff rfl rfl⟩

/-- `Multiple(1, 2, ParseInt)` on `7`, `Char` after a character of `ab`, and the length of
`Any` on `a`. -/
theorem values_wrong :
    (∃ r, run ['7'] 3 (.multiple 1 2 .parseInt) (.ofText ['7']) () = .ok (r, ()) ∧
      r.err = false ∧ r.res = [0, 7] ∧
        ¬ ValueRight ['7'] 3 (.multiple 1 2 .parseInt) (.ofText ['7']) () r ()) ∧
    (∃ r, run ['a', 'b'] 1 .char (runAny (.ofText ['a', 'b'])) () = .ok (r, ()) ∧
      r.err = false ∧ r.res = 'a' ∧
        ¬ ValueRight ['a', 'b'] 1 .char (runAny (.ofText ['a', 'b'])) () r ()) ∧
    ∃ r, run ['a'] 1 .any (.ofText ['a']) () = .ok (r, ()) ∧ r.err = false ∧
      Consumes (.ofText ['a'] : Parser Unit) r 1 ∧ length ['a'] 1 .any (.ofText ['a']) () = .ok 0 := by
  refine ⟨⟨_, rfl, rfl, rfl, fun h => ?_⟩, ⟨_, rfl, rfl, rfl, fun h => ?_⟩,
    ⟨_, rfl, rfl, ⟨rfl, rfl⟩, rfl⟩⟩
  · exact absurd ((value_right_iff rfl rfl).1 h).1 one_ne_zero
  · exact absurd (Except.ok.inj h) (by decide)

end values
end CoreCommon.ParseMap
