import CoreCommon.ParserSafety
import CoreCommon.Peg

/-! Recognition by the combinators against the parsing expression grammar of an expression.
They differ where a `Not` lets a moved cursor out, where an `ArrayMap` passes over a failed
repetition, and where a `Many` or `Multiple` is left by its upper bound below its lower one. -/
namespace CoreCommon
open Peg ParserSpan

namespace ParseMap
variable {σ A B C : Type}

/-- The grammar of an expression. -/
inductive Denotes : {A B : Type} → ParseMap σ A B → Peg Char → Prop
  | match_ (m : String) : Denotes (.match_ m) (.literal m.toList)
  | any : Denotes .any (.one fun _ => true)
  | parseWS : Denotes .parseWS (.one fun c => c ∈ ['\r', '\n', ' '])
  | parseEOF : Denotes .parseEOF .eof
  | chain {A B C : Type} [Inhabited C] {l : ParseMap σ A B} {r : ParseMap σ B C} {a b}
      (hl : Denotes l a) (hr : Denotes r b) : Denotes (.chain l r) (.seq a b)
  | tupleLast {A B : Type} [Inhabited B] {head : ParseMap σ A B} {a} (h : Denotes head a) :
      Denotes (.tupleLast head) a
  | tupleMap {A B C : Type} [Inhabited B] [Inhabited C] {head : ParseMap σ A B}
      {rest : ParseMap σ B C} {a b} (hh : Denotes head a) (hr : Denotes rest b) :
      Denotes (.tupleMap head rest) (.seq a b)
  | or {A B : Type} {l r : ParseMap σ A B} {a b} (hl : Denotes l a) (hr : Denotes r b) :
      Denotes (.or l r) (.choice a b)
  | many {A B : Type} (min max : ℕ) {e : ParseMap σ A B} {a} (h : Denotes e a) :
      Denotes (.many min max e) (.rep min max a)
  | multiple {A B : Type} [Inhabited B] (min max : ℕ) {e : ParseMap σ A B} {a}
      (h : Denotes e a) : Denotes (.multiple min max e) (.rep min max a)
  | arrayMap {A B : Type} [Inhabited B] (n : ℕ) {e : ParseMap σ A B} {a} (h : Denotes e a) :
      Denotes (.arrayMap n e) (.times n a)
  | skipMap {A : Type} [Inhabited A] {e : ParseMap σ Unit Unit} {a} (h : Denotes e a) :
      Denotes (.skipMap e : ParseMap σ A A) a
  | not {e : ParseMap σ Unit Unit} {a} (h : Denotes e a) : Denotes (.not e) (.not a)
  | lookAhead {A B : Type} {e : ParseMap σ A B} {a} (h : Denotes e a) :
      Denotes (.lookAhead e) (.look a)

lemma Denotes.lazyFree {e : ParseMap σ A B} {g : Peg Char} (h : Denotes e g) : e.LazyFree := by
  induction h with
  | match_ | any | parseWS | parseEOF => trivial
  | chain _ _ ihl ihr | tupleMap _ _ ihl ihr | or _ _ ihl ihr => exact ⟨ihl, ihr⟩
  | tupleLast _ ih | skipMap _ ih | not _ ih | lookAhead _ ih => exact ih
  | many _ _ _ ih | multiple _ _ _ ih | arrayMap _ _ ih => exact ih

/-- The input that a cursor has left. -/
def rest (s : List Char) (p : Parser A) : List Char := s.drop p.span.text

def outcome (s : List Char) (q : Parser B) : Outcome Char :=
  if q.err then .fail (rest s q) else .ok (rest s q)

/-- The result succeeds exactly when the grammar does, and with the same input left. -/
def Recognizes (g : Peg Char) (t : List Char) (s : List Char) (q : Parser B) : Prop :=
  ∀ u, Parses g t (.ok u) ↔ q.err = false ∧ rest s q = u

/-- The outermost construct of the grammar meets, on input `t`, what its parser gets wrong. -/
def Defect : Peg Char → List Char → Prop
  | .not a, t => ∃ f, Parses a t (.fail f) ∧ f ≠ t
  | .times n a, t => ∃ k < n, ∃ u f, Reaches a k t u ∧ Parses a u (.fail f)
  | .rep min max a, t => max < min ∧ ∃ u, Reaches a max t u
  | _, _ => False

/-- No inner construct meets a defect on the input it is run on, from input `t` on. -/
def InnerClean : Peg Char → List Char → Prop
  | .seq a b, t => (InnerClean a t ∧ ¬ Defect a t) ∧
    ∀ u, Parses a t (.ok u) → InnerClean b u ∧ ¬ Defect b u
  | .choice a b, t => (InnerClean a t ∧ ¬ Defect a t) ∧
    ∀ f, Parses a t (.fail f) → InnerClean b t ∧ ¬ Defect b t
  | .rep _ max a, t => ∀ k < max, ∀ u, Reaches a k t u → InnerClean a u ∧ ¬ Defect a u
  | .times n a, t => ∀ k < n, ∀ u, Reaches a k t u → InnerClean a u ∧ ¬ Defect a u
  | .not a, t => InnerClean a t ∧ ¬ Defect a t
  | .look a, t => InnerClean a t ∧ ¬ Defect a t
  | _, _ => True

/-- A result is as the grammar says if no defect is met, and visibly not so if one is. -/
structure Settles (s : List Char) (g : Peg Char) (t : List Char) (q : Parser B) : Prop where
  parses : ¬ Defect g t → Parses g t (outcome s q)
  differs : Defect g t → ¬ Recognizes g t s q

/-- What is proved of every expression: its terminating runs from fresh cursors settle. -/
def Follows (s : List Char) (f : Parser A → σ → Run (Parser B × σ)) (g : Peg Char) : Prop :=
  ∀ p st q st', Fits s p.span → p.err = false → InnerClean g (rest s p) →
    f p st = .ok (q, st') → Settles s g (rest s p) q

section
variable {s : List Char}

lemma outcome_ok {q : Parser B} (h : q.err = false) : outcome s q = .ok (rest s q) := by
  simp [outcome, h]

lemma outcome_fail {q : Parser B} (h : q.err = true) : outcome s q = .fail (rest s q) := by
  simp [outcome, h]

lemma outcome_eq_ok {q : Parser B} {u : List Char} :
    outcome s q = .ok u ↔ q.err = false ∧ rest s q = u := by
  cases herr : q.err with
  | false => rw [outcome_ok herr, Outcome.ok.injEq]; exact ⟨fun h => ⟨rfl, h⟩, And.right⟩
  | true => rw [outcome_fail herr]; exact ⟨nofun, fun h => nomatch h.1⟩

lemma outcome_congr {q : Parser A} {r : Parser B} (hspan : q.span = r.span)
    (herr : q.err = r.err) : outcome s q = outcome s r := by
  simp [outcome, rest, hspan, herr]

/-- A success passes the cursor on, a failure the flag with it. -/
lemma outcome_unlessErr [Inhabited B] (q : Parser A) (res : B) :
    outcome s (q.unlessErr (q.withRes res)) = outcome s q := by
  unfold Parser.unlessErr
  split_ifs with h
  · exact outcome_congr rfl rfl
  · exact outcome_congr rfl (Bool.eq_false_iff.2 h).symm

lemma recognizes_of_parses {g : Peg Char} {t : List Char} {q : Parser B}
    (h : Parses g t (outcome s q)) : Recognizes g t s q := by
  intro u
  rw [← outcome_eq_ok]
  exact ⟨fun hu => h.unique hu, fun hu => hu ▸ h⟩

lemma not_recognizes {g : Peg Char} {t : List Char} {q : Parser B} {r : Outcome Char}
    (h : Parses g t r) (herr : q.err = false) (hr : r ≠ .ok (rest s q)) :
    ¬ Recognizes g t s q :=
  fun hq => hr (h.unique ((hq _).2 ⟨herr, rfl⟩))

lemma length_rest {p : Parser A} (hp : Fits s p.span) : (rest s p).length = p.span.length := by
  rw [rest, List.length_drop, ← hp, Nat.add_sub_cancel_left]

lemma rest_moved {p : Parser A} (n : ℕ) (hn : n ≤ p.span.length) :
    rest s (p.moved n) = (rest s p).drop n := by
  have hlt := p.span.length_lt
  rw [rest, rest, List.drop_drop]
  show s.drop (p.span.text + n % 2 ^ 32) = _
  rw [Nat.mod_eq_of_lt (by omega)]

lemma outcome_failed (p : Parser A) (stat : ParseStatus) (what : String) :
    outcome s (p.expecting stat what).failed = .fail (rest s p) := outcome_fail rfl

lemma outcome_expecting {p : Parser A} (herr : p.err = false) (stat : ParseStatus)
    (what : String) : outcome s (p.expecting stat what) = .ok (rest s p) :=
  outcome_ok (show (p.expecting stat what).err = false from herr)

lemma outcome_moved {p : Parser A} (herr : p.err = false) (stat : ParseStatus) (what : String)
    {n : ℕ} (hn : n ≤ p.span.length) :
    outcome s ((p.expecting stat what).moved n) = .ok ((rest s p).drop n) := by
  have hrest : rest s ((p.expecting stat what).moved n) = (rest s p).drop n :=
    rest_moved n (show n ≤ (p.expecting stat what).span.length from hn)
  have hok : ((p.expecting stat what).moved n).err = false := herr
  rw [outcome_ok hok, hrest]

lemma length_rest_le {p : Parser A} {q : Parser B} (h : Suffix p.span q.span) :
    (rest s q).length ≤ (rest s p).length := by
  have := h.text_le
  simp only [rest, List.length_drop]
  omega

lemma rest_eq_of_length {p : Parser A} {q : Parser B} (h : Suffix p.span q.span)
    (hp : Fits s p.span) (hlen : (rest s q).length = (rest s p).length) :
    rest s q = rest s p := by
  have hend := h.end_eq
  rw [length_rest hp, length_rest (h.fits hp)] at hlen
  rw [rest, rest, show q.span.text = p.span.text by omega]

/-! ### Primitives -/

lemma Settles.of_parses {g : Peg Char} {t : List Char} {q : Parser B} (hg : ¬ Defect g t)
    (h : Parses g t (outcome s q)) : Settles s g t q := ⟨fun _ => h, fun hd => absurd hd hg⟩

lemma rest_cons_of_length {p : Parser A} (hp : Fits s p.span) (h : p.span.length ≠ 0) :
    ∃ c t, rest s p = c :: t := by
  rw [← length_rest hp] at h
  exact List.exists_cons_of_length_pos (Nat.pos_of_ne_zero h)

lemma rest_nil_of_length {p : Parser A} (hp : Fits s p.span) (h : p.span.length = 0) :
    rest s p = [] := by
  rw [← length_rest hp] at h
  exact List.length_eq_zero_iff.1 h

lemma runAny_parses {p : Parser Unit} (hp : Fits s p.span) (herr : p.err = false) :
    Parses (.one fun _ => true) (rest s p) (outcome s (runAny p)) := by
  unfold runAny
  dsimp only
  split_ifs with h
  · rw [outcome_failed, rest_nil_of_length hp h]
    exact .one_fail (by simp)
  · obtain ⟨c, t, hc⟩ := rest_cons_of_length hp h
    rw [outcome_moved herr _ _ (Nat.one_le_iff_ne_zero.2 h), hc]
    exact .one_ok rfl

lemma runEOF_parses {p : Parser Unit} (hp : Fits s p.span) (herr : p.err = false) :
    Parses .eof (rest s p) (outcome s (runEOF p)) := by
  unfold runEOF
  dsimp only
  split_ifs with h
  · obtain ⟨c, t, hc⟩ := rest_cons_of_length hp h
    rw [outcome_failed, hc]
    exact .eof_fail (List.cons_ne_nil _ _)
  · rw [outcome_expecting herr, rest_nil_of_length hp (not_not.1 h)]
    exact .eof_ok

lemma deref_cons {i : ℕ} {c : Char} {t : List Char} (h : s.drop i = c :: t) :
    deref s i = .ok c := by
  have hi : i ≤ s.length := by
    by_contra hi
    rw [List.drop_of_length_le (by omega)] at h
    cases h
  rw [deref_eq hi, h, List.headD_cons]

lemma runWS_parses (hnul : '\x00' ∉ s) {p q : Parser Unit} (hp : Fits s p.span)
    (herr : p.err = false) (hrun : runWS s p = .ok q) :
    Parses (.one fun c => c ∈ ['\r', '\n', ' ']) (rest s p) (outcome s q) := by
  unfold runWS at hrun
  dsimp only at hrun
  split_ifs at hrun with h
  · cases hrun
    rw [outcome_failed, rest_nil_of_length hp h]
    exact .one_fail (by simp)
  · obtain ⟨c, t, hc⟩ := rest_cons_of_length hp h
    have hne : c ≠ '\x00' := by
      rintro rfl
      exact hnul (List.mem_of_mem_drop (hc ▸ List.mem_cons_self))
    have hderef : deref s (p.expecting .expected "whitespace").span.text = .ok c := deref_cons hc
    rw [hderef, Run.bind_ok] at hrun
    split_ifs at hrun with hws
    · cases hrun
      rw [outcome_moved herr _ _ (Nat.one_le_iff_ne_zero.2 h), hc]
      exact .one_ok (by simpa [hne] using hws)
    · cases hrun
      rw [outcome_failed, hc]
      exact .one_fail (by simpa [hne] using hws)

lemma runMatch_parses {m : String} {p q : Parser Unit} (hp : Fits s p.span)
    (herr : p.err = false) (hrun : runMatch s m p = .ok q) :
    Parses (.literal m.toList) (rest s p) (outcome s q) := by
  unfold runMatch at hrun
  dsimp only at hrun
  split_ifs at hrun with h
  · cases hrun
    rw [outcome_failed]
    refine .literal_fail fun hpre => ?_
    have hle := hpre.length_le
    rw [length_rest hp] at hle
    exact absurd h (not_lt.2 hle)
  · have hle : (p.expecting .expected m).span.text ≤ s.length := hp.text_le
    rw [cstr_eq hle, Run.bind_ok] at hrun
    split_ifs at hrun with hpre
    · cases hrun
      rw [outcome_moved herr _ _ (not_lt.1 h)]
      obtain ⟨t, ht⟩ := List.isPrefixOf_iff_prefix.1 hpre
      rw [show rest s p = m.toList ++ t from ht.symm, List.drop_left]
      exact .literal_ok _ _
    · cases hrun
      rw [outcome_failed]
      exact .literal_fail fun hm => hpre (List.isPrefixOf_iff_prefix.2 hm)

end

/-! ### Loops -/

section
variable {s : List Char} {a : Peg Char} {inner : Parser A → σ → Run (Parser B × σ)}

lemma manyLoop_step {min max fuel i : ℕ} {p : Parser A} {st : σ} {x : Parser Unit × σ}
    (hmax : i < max) (hrun : manyLoop inner min max (fuel + 1) i p st = .ok x) :
    ∃ r st₁, inner p st = .ok (r, st₁) ∧
      (r.err = true ∧ x = (if i < min then r.cast else p.withRes (), st₁) ∨
        r.err = false ∧
          manyLoop inner min max fuel ((i + 1) % 2 ^ 32) (p.withSpan r.span) st₁ = .ok x) := by
  unfold manyLoop at hrun
  rw [if_pos hmax, Run.bind_eq_ok] at hrun
  obtain ⟨⟨r, st₁⟩, hr, hstep⟩ := hrun
  refine ⟨r, st₁, hr, ?_⟩
  dsimp only at hstep
  cases hrerr : r.err with
  | true => rw [hrerr, if_pos rfl] at hstep; exact .inl ⟨rfl, (Except.ok.inj hstep).symm⟩
  | false => rw [hrerr, if_neg Bool.false_ne_true] at hstep; exact .inr ⟨rfl, hstep⟩

lemma Keeps.suffix (hkeeps : Keeps s inner) {p : Parser A} {st : σ} {q : Parser B} {st' : σ}
    (hp : Fits s p.span) (h : inner p st = .ok (q, st')) : Suffix p.span q.span := by
  have hwithin := hkeeps p st hp
  rwa [h] at hwithin

/-- A success that consumes nothing repeats, and the `unsigned` counter never gets to `2 ^ 32`. -/
lemma manyLoop_stuck (hinner : Follows s inner a) (hkeeps : Keeps s inner) {t : List Char}
    (hclean : InnerClean a t ∧ ¬ Defect a t) (ht : Parses a t (.ok t)) {min max : ℕ}
    (hmax : 2 ^ 32 ≤ max) (fuel : ℕ) {i : ℕ} (hi : i < 2 ^ 32) {p : Parser A}
    (hp : Fits s p.span) (herr : p.err = false) (hpt : rest s p = t)
    (st : σ) (r : Parser Unit × σ) : manyLoop inner min max fuel i p st ≠ .ok r := by
  induction fuel generalizing i p st with
  | zero => exact fun h => nomatch h
  | succ fuel ih =>
    intro hrun
    obtain ⟨q, st', hq, hstep⟩ := manyLoop_step (by omega) hrun
    subst hpt
    have hparse := (hinner p st q st' hp herr hclean.1 hq).parses hclean.2
    obtain ⟨hqerr, hqt⟩ := outcome_eq_ok.1 (hparse.unique ht)
    rcases hstep with ⟨hfail, -⟩ | ⟨-, hrun⟩
    · exact Bool.false_ne_true (hqerr.symm.trans hfail)
    · have hfits : Fits s (p.withSpan q.span).span := (hkeeps.suffix hp hq).fits hp
      exact ih (Nat.mod_lt _ (by decide)) hfits herr hqt _ hrun

/-- A terminating loop stops at the first failure, or has `max` successes. -/
lemma manyLoop_reaches (hinner : Follows s inner a) (hkeeps : Keeps s inner) {min max : ℕ}
    (fuel : ℕ) {i : ℕ} {p : Parser A} {st : σ} {q : Parser Unit} {st' : σ}
    (hp : Fits s p.span) (herr : p.err = false)
    (hi : i + (rest s p).length < 2 ^ 32 ∨ max < 2 ^ 32)
    (hclean : ∀ k < max - i, ∀ t, Reaches a k (rest s p) t → InnerClean a t ∧ ¬ Defect a t)
    (hrun : manyLoop inner min max fuel i p st = .ok (q, st')) :
    (∃ k t f, k < max - i ∧ Reaches a k (rest s p) t ∧ Parses a t (.fail f) ∧
      outcome s q = if i + k < min then .fail f else .ok t) ∨
    ∃ t, Reaches a (max - i) (rest s p) t ∧ outcome s q = .ok t := by
  induction fuel generalizing i p st with
  | zero => cases hrun
  | succ fuel ih =>
    by_cases hmax : i < max
    · have hparse := hclean 0 (by omega) _ (.zero _)
      obtain ⟨r, st₁, hr, hstep⟩ := manyLoop_step hmax hrun
      have hsuffix := hkeeps.suffix hp hr
      have hr' := (hinner p st r st₁ hp herr hparse.1 hr).parses hparse.2
      rcases hstep with ⟨hrerr, hq⟩ | ⟨hrerr, hstep⟩
      · rw [outcome_fail hrerr] at hr'
        obtain ⟨rfl, -⟩ := Prod.mk.inj hq
        refine .inl ⟨0, _, _, by omega, .zero _, hr', ?_⟩
        rw [Nat.add_zero]
        split_ifs
        · exact outcome_fail hrerr
        · exact outcome_ok rfl
      · rw [outcome_ok hrerr] at hr'
        have hle : (rest s r).length ≤ (rest s p).length := length_rest_le hsuffix
        have hnowrap : i + 1 + (rest s r).length < 2 ^ 32 ∨ max < 2 ^ 32 := by
          by_contra hwrap
          have hstay := rest_eq_of_length hsuffix hp (by omega)
          rw [hstay] at hr'
          exact manyLoop_stuck hinner hkeeps hparse hr' (by omega) _ (by omega) hp herr rfl _ _ hrun
        rw [Nat.mod_eq_of_lt (by omega)] at hstep
        have hclean' : ∀ k < max - (i + 1), ∀ t, Reaches a k (rest s r) t →
            InnerClean a t ∧ ¬ Defect a t :=
          fun k hk t ht => hclean (k + 1) (by omega) t (.succ hr' ht)
        have hfits : Fits s (p.withSpan r.span).span := hsuffix.fits hp
        rcases ih hfits herr hnowrap hclean' hstep with ⟨k, t, f, hk, ht, hf, hq⟩ | ⟨t, ht, hq⟩
        · refine .inl ⟨k + 1, t, f, by omega, .succ hr' ht, hf, ?_⟩
          rwa [show i + (k + 1) = i + 1 + k by omega]
        · refine .inr ⟨t, ?_, hq⟩
          rw [show max - i = max - (i + 1) + 1 by omega]
          exact .succ hr' ht
    · unfold manyLoop at hrun
      rw [if_neg hmax] at hrun
      obtain ⟨rfl, -⟩ := Prod.mk.inj (Except.ok.inj hrun)
      refine .inr ⟨_, ?_, outcome_ok rfl⟩
      rw [Nat.sub_eq_zero_of_le (not_lt.1 hmax)]
      exact .zero _

/-- `Multiple` moves the cursor as `Many` does. -/
lemma manyLoop_of_multipleLoop {min max fuel i : ℕ} {vec : List B} {p : Parser A} {st : σ}
    {q : Parser (List B)} {st' : σ}
    (hrun : multipleLoop inner min max fuel i vec p st = .ok (q, st')) :
    ∃ r, manyLoop inner min max fuel i p st = .ok (r, st') ∧ r.span = q.span ∧ r.err = q.err := by
  induction fuel generalizing i vec p st with
  | zero => cases hrun
  | succ fuel ih =>
    unfold multipleLoop at hrun
    unfold manyLoop
    by_cases hmax : i < max
    · rw [if_pos hmax, Run.bind_eq_ok] at hrun
      obtain ⟨⟨r, st₁⟩, hr, hstep⟩ := hrun
      rw [if_pos hmax, hr, Run.bind_ok]
      dsimp only at hstep ⊢
      by_cases hrerr : r.err = true
      · rw [if_pos hrerr] at hstep ⊢
        obtain ⟨rfl, rfl⟩ := Prod.mk.inj (Except.ok.inj hstep)
        refine ⟨_, rfl, ?_⟩
        split_ifs <;> exact ⟨rfl, rfl⟩
      · rw [if_neg hrerr] at hstep ⊢
        exact ih hstep
    · rw [if_neg hmax] at hrun ⊢
      obtain ⟨rfl, rfl⟩ := Prod.mk.inj (Except.ok.inj hrun)
      exact ⟨_, rfl, rfl, rfl⟩

/-- `ArrayMap` always succeeds, and where `Many(n, n, ..)` does the cursor is the same. -/
lemma manyLoop_of_arrayLoop {n fuel i : ℕ} {arr : List B} {p : Parser A} {st : σ}
    {q : Parser (List B)} {st' : σ} (hrun : arrayLoop inner n fuel i arr p st = .ok (q, st')) :
    q.err = false ∧ ∃ r st'', manyLoop inner n n fuel i p st = .ok (r, st'') ∧
      (r.err = false → r.span = q.span) := by
  induction fuel generalizing i arr p st with
  | zero => cases hrun
  | succ fuel ih =>
    unfold arrayLoop at hrun
    unfold manyLoop
    by_cases hn : i < n
    · rw [if_pos hn, Run.bind_eq_ok] at hrun
      obtain ⟨⟨r, st₁⟩, hr, hstep⟩ := hrun
      obtain ⟨hok, hmany⟩ := ih hstep
      rw [if_pos hn, hr, Run.bind_ok]
      dsimp only
      refine ⟨hok, ?_⟩
      by_cases hrerr : r.err = true
      · rw [if_pos hrerr, if_pos hn]
        exact ⟨_, _, rfl, fun h => absurd hrerr (Bool.eq_false_iff.1 h)⟩
      · rw [if_neg hrerr]
        exact hmany
    · rw [if_neg hn] at hrun ⊢
      obtain ⟨rfl, rfl⟩ := Prod.mk.inj (Except.ok.inj hrun)
      exact ⟨rfl, _, _, rfl, fun _ => rfl⟩

/-- A terminating `Many` from a fresh cursor against the grammar of its repetition. -/
lemma manyLoop_settles (hinner : Follows s inner a) (hkeeps : Keeps s inner) {min max fuel : ℕ}
    {p : Parser A} {st : σ} {q : Parser Unit} {st' : σ} (hp : Fits s p.span) (herr : p.err = false)
    (hclean : InnerClean (.rep min max a) (rest s p))
    (hrun : manyLoop inner min max fuel 0 p st = .ok (q, st')) :
    Settles s (.rep min max a) (rest s p) q := by
  have hi : 0 + (rest s p).length < 2 ^ 32 ∨ max < 2 ^ 32 := by
    rw [length_rest hp, Nat.zero_add]
    exact .inl p.span.length_lt
  rcases manyLoop_reaches hinner hkeeps fuel hp herr hi hclean hrun with
    ⟨k, t, f, hk, ht, hf, hq⟩ | ⟨t, ht, hq⟩
  · -- a failure before the bound: neither the grammar nor the loop looks at the bound
    refine .of_parses ?_ ?_
    · rintro ⟨-, u, hu⟩
      exact absurd (ht.le_of_fail hf hu) (not_le.2 hk)
    · rw [hq, Nat.zero_add]
      exact Parses.rep_of_fail ht hf min hk
  · rw [Nat.sub_zero] at ht
    have hrep := Parses.rep_of_max ht min
    obtain ⟨hqerr, hqt⟩ := outcome_eq_ok.1 hq
    constructor
    · intro hd
      rw [if_neg fun hlt => hd ⟨hlt, t, ht⟩] at hrep
      rwa [hq]
    · rintro ⟨hlt, -⟩
      rw [if_pos hlt] at hrep
      exact not_recognizes hrep hqerr nofun

lemma arrayLoop_settles (hinner : Follows s inner a) (hkeeps : Keeps s inner) {n fuel : ℕ}
    {arr : List B} {p : Parser A} {st : σ} {q : Parser (List B)} {st' : σ} (hp : Fits s p.span)
    (herr : p.err = false) (hclean : InnerClean (.times n a) (rest s p))
    (hrun : arrayLoop inner n fuel 0 arr p st = .ok (q, st')) :
    Settles s (.times n a) (rest s p) q := by
  obtain ⟨hqerr, r, st'', hmany, hspan⟩ := manyLoop_of_arrayLoop hrun
  have hi : 0 + (rest s p).length < 2 ^ 32 ∨ n < 2 ^ 32 := by
    rw [length_rest hp, Nat.zero_add]
    exact .inl p.span.length_lt
  rcases manyLoop_reaches hinner hkeeps fuel hp herr hi hclean hmany with
    ⟨k, t, f, hk, ht, hf, -⟩ | ⟨t, ht, hr⟩
  · refine ⟨fun hd => absurd ⟨k, hk, t, f, ht, hf⟩ hd, fun _ => ?_⟩
    exact not_recognizes (Parses.times_of_fail ht hf hk) hqerr nofun
  · rw [Nat.sub_zero] at ht
    obtain ⟨hrerr, hrt⟩ := outcome_eq_ok.1 hr
    refine .of_parses ?_ ?_
    · rintro ⟨k, hk, u, f, hu, hf⟩
      exact absurd (hu.le_of_fail hf ht) (not_le.2 hk)
    · rw [outcome_congr (hspan hrerr).symm (hqerr.trans hrerr.symm), hr]
      exact Parses.times_of_reaches ht

end

/-! ### Whole expressions -/

section
variable {s : List Char} {a b : Peg Char} {t : List Char}

lemma Settles.congr {q : Parser A} {r : Parser B} (h : outcome s q = outcome s r)
    (hq : Settles s a t q) : Settles s a t r := by
  refine ⟨fun hd => h ▸ hq.parses hd, fun hd hr => hq.differs hd fun u => ?_⟩
  rw [hr u, ← outcome_eq_ok, ← outcome_eq_ok, h]

lemma Settles.seq_fail {r : Parser B} [Inhabited C] (ha : Parses a t (outcome s r))
    (herr : r.err = true) : Settles s (.seq a b) t (r.cast : Parser C) := by
  rw [outcome_fail herr] at ha
  refine .of_parses id ?_
  rw [outcome_congr (show (r.cast : Parser C).span = r.span from rfl) rfl, outcome_fail herr]
  exact .seq_fail ha

lemma Settles.seq_ok {r : Parser B} {q : Parser C} (ha : Parses a t (outcome s r))
    (herr : r.err = false) (hd : ¬ Defect b (rest s r)) (hb : Settles s b (rest s r) q) :
    Settles s (.seq a b) t q := by
  rw [outcome_ok herr] at ha
  exact .of_parses id (.seq_ok ha (hb.parses hd))

/-- One parser after another, unless the first one failed. -/
lemma Follows.seq [Inhabited C] {f : Parser A → σ → Run (Parser B × σ)}
    {k : Parser B → σ → Run (Parser C × σ)} (hf : Follows s f a) (hkeeps : Keeps s f)
    (hk : Follows s k b) :
    Follows s (fun p st => f p st >>= fun y => if y.1.err then .ok (y.1.cast, y.2) else k y.1 y.2)
      (.seq a b) := by
  intro p st q st' hp herr hclean hrun
  obtain ⟨⟨r, st₁⟩, hr, hstep⟩ := Run.bind_eq_ok.1 hrun
  have ha := (hf p st r st₁ hp herr hclean.1.1 hr).parses hclean.1.2
  dsimp only at hstep
  split_ifs at hstep with hrerr
  · obtain ⟨rfl, -⟩ := Prod.mk.inj (Except.ok.inj hstep)
    exact .seq_fail ha hrerr
  · have hok := Bool.eq_false_iff.2 hrerr
    obtain ⟨hin, hd⟩ := hclean.2 _ (outcome_ok hok ▸ ha)
    exact .seq_ok ha hok hd (hk r st₁ q st' ((hkeeps.suffix hp hr).fits hp) hok hin hstep)

/-- A parser whose result is replaced unless it failed. -/
lemma Follows.unlessErr [Inhabited C] {f : Parser A → σ → Run (Parser B × σ)} (hf : Follows s f a)
    (res : Parser A → Parser B → C) :
    Follows s (fun p st => f p st >>= fun y => .ok (y.1.unlessErr (y.1.withRes (res p y.1)), y.2))
      a := by
  intro p st q st' hp herr hclean hrun
  obtain ⟨⟨r, st₁⟩, hr, hq⟩ := Run.bind_eq_ok.1 hrun
  obtain ⟨rfl, -⟩ := Prod.mk.inj (Except.ok.inj hq)
  exact (hf p st r st₁ hp herr hclean hr).congr (outcome_unlessErr r _).symm

/-- The negation keeps the span of a failed inner parser, which need not be `t`. -/
lemma Settles.not {r : Parser Unit} (ha : Parses a t (outcome s r)) (stat : ParseStatus) :
    Settles s (.not a) t { r with stat, err := !r.err } := by
  cases herr : r.err with
  | true =>
    rw [outcome_fail herr] at ha
    constructor
    · intro hd
      have hstay : rest s r = t := not_not.1 fun hne => hd ⟨_, ha, hne⟩
      rw [outcome_ok rfl]
      show Parses _ _ (.ok (rest s r))
      rw [hstay]
      exact .not_ok ha
    · rintro ⟨f, hf, hne⟩
      cases hf.unique ha
      exact not_recognizes (.not_ok ha) rfl fun h => hne (Outcome.ok.inj h).symm
  | false =>
    rw [outcome_ok herr] at ha
    refine .of_parses ?_ ?_
    · rintro ⟨f, hf, -⟩
      cases hf.unique ha
    · rw [outcome_fail rfl]
      exact .not_fail ha

end

lemma run_follows {s : List Char} (hnul : '\x00' ∉ s) (fuel : ℕ) {e : ParseMap σ A B}
    {g : Peg Char} (h : Denotes e g) : Follows s (run s fuel e) g := by
  induction h with
  | match_ m =>
    intro p st q st' hp herr hclean hrun
    simp only [run, Run.bind_eq_ok] at hrun
    obtain ⟨r, hr, hq⟩ := hrun
    obtain ⟨rfl, -⟩ := Prod.mk.inj (Except.ok.inj hq)
    exact .of_parses id (runMatch_parses hp herr hr)
  | any =>
    intro p st q st' hp herr hclean hrun
    obtain ⟨rfl, -⟩ := Prod.mk.inj (Except.ok.inj hrun)
    exact .of_parses id (runAny_parses hp herr)
  | parseWS =>
    intro p st q st' hp herr hclean hrun
    simp only [run, Run.bind_eq_ok] at hrun
    obtain ⟨r, hr, hq⟩ := hrun
    obtain ⟨rfl, -⟩ := Prod.mk.inj (Except.ok.inj hq)
    exact .of_parses id (runWS_parses hnul hp herr hr)
  | parseEOF =>
    intro p st q st' hp herr hclean hrun
    obtain ⟨rfl, -⟩ := Prod.mk.inj (Except.ok.inj hrun)
    exact .of_parses id (runEOF_parses hp herr)
  | @chain _ _ _ _ l r _ _ hl hr ihl ihr =>
    intro p st
    unfold run
    exact ihl.seq (run_keeps s fuel l hl.lazyFree) ihr p st
  | @tupleMap _ _ _ _ _ l r _ _ hl hr ihl ihr =>
    intro p st
    unfold run
    have hpair := ihl.seq (run_keeps s fuel l hl.lazyFree)
      (ihr.unlessErr fun q r => (q.res, r.res))
    exact hpair p st
  | tupleLast h ih =>
    intro p st
    unfold run
    exact ih.unlessErr (fun _ q => (q.res, ())) p st
  | skipMap h ih =>
    intro p st q st' hp herr hclean hrun
    obtain ⟨⟨r, st₁⟩, hr, hq⟩ := Run.bind_eq_ok.1 hrun
    obtain ⟨rfl, -⟩ := Prod.mk.inj (Except.ok.inj hq)
    exact (ih (p.withRes ()) st r st₁ hp rfl hclean hr).congr (outcome_unlessErr r _).symm
  | or hl hr ihl ihr =>
    intro p st q st' hp herr hclean hrun
    simp only [run, Run.bind_eq_ok] at hrun
    obtain ⟨⟨q₁, st₁⟩, hq₁, hstep⟩ := hrun
    have ha := (ihl p st q₁ st₁ hp herr hclean.1.1 hq₁).parses hclean.1.2
    dsimp only at hstep
    split_ifs at hstep with hq₁err
    · rw [outcome_fail hq₁err] at ha
      obtain ⟨hin, hd⟩ := hclean.2 _ ha
      exact .of_parses id (.choice_next ha ((ihr p st₁ q st' hp herr hin hstep).parses hd))
    · obtain ⟨rfl, -⟩ := Prod.mk.inj (Except.ok.inj hstep)
      have hok := Bool.eq_false_iff.2 hq₁err
      rw [outcome_ok hok] at ha
      exact .of_parses id (outcome_ok hok ▸ .choice_ok ha)
  | many min max h ih =>
    intro p st q st' hp herr hclean hrun
    unfold run at hrun
    exact manyLoop_settles ih (run_keeps s fuel _ h.lazyFree) hp herr hclean hrun
  | multiple min max h ih =>
    intro p st q st' hp herr hclean hrun
    unfold run at hrun
    obtain ⟨r, hr, hspan, hrerr⟩ := manyLoop_of_multipleLoop hrun
    have hmany := manyLoop_settles ih (run_keeps s fuel _ h.lazyFree) hp herr hclean hr
    exact hmany.congr (outcome_congr hspan hrerr)
  | arrayMap n h ih =>
    intro p st q st' hp herr hclean hrun
    unfold run at hrun
    exact arrayLoop_settles ih (run_keeps s fuel _ h.lazyFree) hp herr hclean hrun
  | not h ih =>
    intro p st q st' hp herr hclean hrun
    simp only [run, Run.bind_eq_ok] at hrun
    obtain ⟨⟨r, st₁⟩, hr, hq⟩ := hrun
    obtain ⟨rfl, -⟩ := Prod.mk.inj (Except.ok.inj hq)
    exact .not ((ih p st r st₁ hp herr hclean.1 hr).parses hclean.2) _
  | lookAhead h ih =>
    intro p st q st' hp herr hclean hrun
    simp only [run, Run.bind_eq_ok] at hrun
    obtain ⟨⟨r, st₁⟩, hr, hq⟩ := hrun
    obtain ⟨rfl, -⟩ := Prod.mk.inj (Except.ok.inj hq)
    have ha := (ih p st r st₁ hp herr hclean.1 hr).parses hclean.2
    refine .of_parses id ?_
    by_cases hrerr : r.err = true
    · rw [outcome_fail hrerr] at ha
      rw [outcome_fail (show (r.withSpan p.span).err = true from hrerr)]
      exact .look_fail ha
    · have hok := Bool.eq_false_iff.2 hrerr
      rw [outcome_ok hok] at ha
      rw [outcome_ok (show (r.withSpan p.span).err = false from hok)]
      exact .look_ok ha

/-- Where no inner construct meets a defect, the run agrees with the grammar exactly when
the outermost one does not meet one either. -/
theorem run_recognizes_iff (s : List Char) (hnul : '\x00' ∉ s) {e : ParseMap σ A B}
    {g : Peg Char} (he : Denotes e g) (fuel : ℕ) (p : Parser A) (st : σ) {q : Parser B} {st' : σ}
    (hp : p.span.text + p.span.length = s.length) (herr : p.err = false)
    (hclean : InnerClean g (rest s p)) (hrun : run s fuel e p st = .ok (q, st')) :
    Recognizes g (rest s p) s q ↔ ¬ Defect g (rest s p) := by
  have hsettles := run_follows hnul fuel he p st q st' hp herr hclean hrun
  exact ⟨fun hrec hd => hsettles.differs hd hrec, fun hd => recognizes_of_parses (hsettles.parses hd)⟩

/-- `!Match("b")` on `ac`, whose inner parser fails where it starts. -/
theorem run_recognizes_iff_example :
    let q : Parser Unit := (Parser.ofText ['a', 'c']).expecting .unexpected "b"
    Recognizes (.not (.literal ['b'])) ['a', 'c'] ['a', 'c'] q ↔
      ¬ Defect (.not (.literal ['b'])) ['a', 'c'] := by
  intro q
  have he : Denotes (.not (.match_ "b") : ParseMap Unit Unit Unit) _ := .not (.match_ "b")
  have hrun : run ['a', 'c'] 1 (.not (.match_ "b")) (.ofText ['a', 'c']) () = .ok (q, ()) := rfl
  exact run_recognizes_iff ['a', 'c'] (by decide) he 1 _ () rfl rfl ⟨trivial, id⟩ hrun

/-- `!(Match("a") + Match("b"))` succeeds on `ac`, but with the cursor on `c`. -/
theorem not_moves_cursor : ¬ ∀ (s : List Char) (e : ParseMap Unit Unit Unit) (g : Peg Char)
    (fuel : ℕ) (p q : Parser Unit), '\x00' ∉ s → Denotes e g →
    p.span.text + p.span.length = s.length → p.err = false →
    run s fuel e p () = .ok (q, ()) → Recognizes g (rest s p) s q := by
  intro h
  have hrec := h ['a', 'c'] (.not (.chain (.match_ "a") (.match_ "b")))
    (.not (.seq (.literal ['a']) (.literal ['b']))) 1 (.ofText ['a', 'c']) _ (by decide)
    (.not (.chain (.match_ "a") (.match_ "b"))) rfl rfl rfl
  have hb : Parses (.literal ['b']) ['c'] (.fail ['c']) := .literal_fail (by decide)
  have hinner : Parses (.seq (.literal ['a']) (.literal ['b'])) ['a', 'c'] (.fail ['c']) :=
    .seq_ok (.literal_ok ['a'] ['c']) hb
  obtain ⟨-, hrest⟩ := (hrec _).1 (.not_ok hinner)
  exact absurd hrest (by decide)

end ParseMap
end CoreCommon
