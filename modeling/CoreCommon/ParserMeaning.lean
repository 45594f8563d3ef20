import CoreCommon.ParserPeg

/-! What an expression without captured variables computes, said without fuel: from the
text that is left it reads a result, fails, or never returns. A loop that goes on until its
body fails never returns once the body succeeds on nothing. -/
namespace CoreCommon
open NumberText ParserSpan

/-- The result with the text left after it. -/
inductive Reading (B : Type)
  | ok (b : B) (rest : List Char)
  | fail (rest : List Char)
  | hang
  deriving DecidableEq, Repr

namespace Reading
variable {B C : Type}

def bind : Reading B → (B → List Char → Reading C) → Reading C
  | .ok b u, f => f b u
  | .fail u, _ => .fail u
  | .hang, _ => .hang

@[simp] lemma bind_ok (b : B) (u : List Char) (f : B → List Char → Reading C) :
    (ok b u).bind f = f b u := rfl

@[simp] lemma bind_fail (u : List Char) (f : B → List Char → Reading C) :
    (fail u).bind f = .fail u := rfl

@[simp] lemma bind_hang (f : B → List Char → Reading C) : (hang : Reading B).bind f = .hang := rfl

/-- The loop of `Many` and `Multiple` after `i` rounds, when no bound is in reach. -/
def all (f : List Char → Reading B) (min i : ℕ) (vec : List B) (t : List Char) :
    Reading (List B) :=
  match f t with
  | .ok b u => if u.length < t.length then all f min (i + 1) (vec ++ [b]) u else .hang
  | .fail u => if i < min then .fail u else .ok vec t
  | .hang => .hang
termination_by t.length

/-- The loop of `Many` and `Multiple` that runs at most once. -/
def once (f : List Char → Reading B) (min : ℕ) (vec : List B) (t : List Char) :
    Reading (List B) :=
  match f t with
  | .ok b u => .ok (vec ++ [b]) u
  | .fail u => if 0 < min then .fail u else .ok vec t
  | .hang => .hang

def repeated (f : List Char → Reading B) (min max : ℕ) (vec : List B) (t : List Char) :
    Reading (List B) :=
  if max = 1 then once f min vec t else all f min 0 vec t

/-- The vector so far stands before what the loop adds. -/
lemma all_append (f : List Char → Reading B) (i : ℕ) (vec : List B) (t : List Char) :
    all f 0 i vec t = (all f 0 0 [] t).bind fun l u => .ok (vec ++ l) u := by
  induction hn : t.length using Nat.strong_induction_on generalizing i vec t with
  | _ n ih =>
    unfold all
    cases hf : f t with
    | ok b u =>
      dsimp only
      by_cases hlt : u.length < t.length
      · rw [if_pos hlt, if_pos hlt, ih _ (hn ▸ hlt) (i + 1) _ u rfl, ih _ (hn ▸ hlt) (0 + 1) _ u rfl]
        cases all f 0 0 [] u <;> simp
      · rw [if_neg hlt, if_neg hlt]
        rfl
    | fail u => simp
    | hang => rfl

/-- The loop of `Many` without bounds. -/
def many (f : List Char → Reading B) (t : List Char) : Reading Unit :=
  (all f 0 0 [] t).bind fun _ u => .ok () u

section loops
variable {f : List Char → Reading B} {t u : List Char} {b : B}

lemma all_ok (hf : f t = .ok b u) (hlt : u.length < t.length) :
    all f 0 0 [] t = (all f 0 0 [] u).bind fun l v => .ok (b :: l) v := by
  rw [all, hf]
  dsimp only
  rw [if_pos hlt, all_append]
  rfl

lemma all_fail (hf : f t = .fail u) : all f 0 0 [] t = .ok [] t := by
  rw [all, hf]
  rfl

lemma all_hang (hf : f t = .hang) : all f 0 0 [] t = .hang := by
  rw [all, hf]

lemma many_ok (hf : f t = .ok b u) (hlt : u.length < t.length) : many f t = many f u := by
  rw [many, all_ok hf hlt, many]
  cases all f 0 0 [] u <;> rfl

lemma many_fail (hf : f t = .fail u) : many f t = .ok () t := by
  rw [many, all_fail hf]
  rfl

lemma many_stuck (hf : f t = .ok b t) : many f t = .hang := by
  rw [many, all, hf]
  dsimp only
  rw [if_neg (lt_irrefl _)]
  rfl

end loops

end Reading

namespace ParseMap
variable {A B C : Type}

def numberReading {N : Type} (read : List Char → N × ℕ) (t : List Char) : Reading N :=
  if (read t).2 = 0 then .fail t else .ok (read t).1 (t.drop (read t).2)

/-- The reading of an expression; those that are not plain are left out. -/
def reading : {A B : Type} → ParseMap Unit A B → A → List Char → Reading B
  | _, _, .resultMap resmap, a, t => .ok (resmap a ()).1 t
  | _, _, .errorMap cond, a, t => if cond a then .fail t else .ok a t
  | _, _, .ignore, _, t => .ok () t
  | _, _, @tupleLast _ _ _ _ head, a, t => (reading head a t).bind fun b u => .ok (b, ()) u
  | _, _, @tupleMap _ _ _ _ _ _ head rest, a, t =>
    (reading head a t).bind fun b u => (reading rest b u).bind fun c v => .ok (b, c) v
  | _, _, .not inner, a, t =>
    match reading inner a t with
    | .ok _ u => .fail u
    | .fail u => .ok () u
    | .hang => .hang
  | _, _, .lookAhead inner, a, t =>
    match reading inner a t with
    | .ok b _ => .ok b t
    | .fail _ => .fail t
    | .hang => .hang
  | _, _, @chain _ _ _ _ _ left right, a, t => (reading left a t).bind (reading right)
  | _, _, @combine _ _ _ _ _ inner resmap, a, t =>
    (reading inner a t).bind fun b u => .ok (resmap a b) u
  | _, _, @skipMap _ _ _ skip, a, t => (reading skip () t).bind fun _ u => .ok a u
  | _, _, @multiple _ _ _ _ min max inner, a, t =>
    Reading.repeated (reading inner a) min max (List.replicate min default) t
  | _, _, .many min max inner, a, t =>
    (Reading.repeated (reading inner a) min max [] t).bind fun _ u => .ok () u
  | _, _, .or left right, a, t =>
    match reading left a t with
    | .ok b u => .ok b u
    | .fail _ => reading right a t
    | .hang => .hang
  | _, _, .parseString inner, a, t =>
    (reading inner a t).bind fun _ u => .ok (t.take (t.length - u.length)) u
  | _, _, .any, _, t => if t = [] then .fail t else .ok () t.tail
  | _, _, .parseEOF, _, t => if t = [] then .ok () t else .fail t
  | _, _, .parseWS, _, t =>
    if t ≠ [] ∧ t.headD '\x00' ∈ ['\r', '\n', ' ', '\x00'] then .ok () t.tail else .fail t
  | _, _, .match_ m, _, t =>
    if m.toList.isPrefixOf t then .ok () (t.drop m.toList.length) else .fail t
  | _, _, .parseInt, _, t => numberReading strtol t
  | _, _, .parseFloat, _, t => numberReading strtof t
  | _, _, _, _, _ => .hang

lemma reading_manyOf (e : ParseMap Unit A B) (a : A) (t : List Char) :
    reading (manyOf e) a t = Reading.many (reading e a) t := by
  unfold manyOf reading Reading.repeated
  rw [if_neg (by decide)]
  rfl

lemma reading_multipleOf [Inhabited B] (e : ParseMap Unit A B) (a : A) (t : List Char) :
    reading (multipleOf e) a t = Reading.all (reading e a) 0 0 [] t := by
  unfold multipleOf reading Reading.repeated
  rw [if_neg (by decide)]
  rfl

/-- No lambda produces a parser, no error flag is passed over, no cursor is read but at its
text, and every loop runs once or is not stopped by its bound. -/
def Plain : {A B : Type} → ParseMap Unit A B → Prop
  | _, _, .lazyMap _ => False
  | _, _, @tupleLast _ _ _ _ head => head.Plain
  | _, _, @tupleMap _ _ _ _ _ _ head rest => head.Plain ∧ rest.Plain
  | _, _, .not inner => inner.Plain
  | _, _, .lookAhead inner => inner.Plain
  | _, _, @chain _ _ _ _ _ left right => left.Plain ∧ right.Plain
  | _, _, @combine _ _ _ _ _ inner _ => inner.Plain
  | _, _, @skipMap _ _ _ skip => skip.Plain
  | _, _, @multiple _ _ _ _ _ max inner => (max = 1 ∨ 2 ^ 32 ≤ max) ∧ inner.Plain
  | _, _, @arrayMap _ _ _ _ _ _ => False
  | _, _, .many _ max inner => (max = 1 ∨ 2 ^ 32 ≤ max) ∧ inner.Plain
  | _, _, .or left right => left.Plain ∧ right.Plain
  | _, _, .parseString inner => inner.Plain
  | _, _, .char => False
  | _, _, _ => True

lemma Plain.lazyFree {e : ParseMap Unit A B} (he : e.Plain) : e.LazyFree := by
  induction e with
  | lazyMap | arrayMap | char => exact he.elim
  | tupleLast _ ih | not _ ih | lookAhead _ ih | combine _ _ ih | skipMap _ ih | parseString _ ih =>
    exact ih he
  | tupleMap _ _ ihl ihr | chain _ _ ihl ihr | or _ _ ihl ihr => exact ⟨ihl he.1, ihr he.2⟩
  | multiple _ _ _ ih | many _ _ _ ih => exact ih he.2
  | resultMap | errorMap | ignore | any | parseEOF | parseWS | match_ | parseInt | parseFloat =>
    trivial

/-! ### Meeting a reading -/

/-- A parser that has not failed, with the text `t` to read. -/
structure Before (s t : List Char) (p : Parser A) : Prop where
  fits : Fits s p.span
  err : p.err = false
  rest_eq : rest s p = t

/-- The run ends as the reading says. -/
def Meets (s : List Char) : Run (Parser B × Unit) → Reading B → Prop
  | .ok (q, _), .ok b u => Before s u q ∧ q.res = b
  | .ok (q, _), .fail u => Fits s q.span ∧ q.err = true ∧ rest s q = u
  | .error f, .hang => f = .diverges
  | _, _ => False

section
variable {s t u : List Char}

lemma Before.length_eq {p : Parser A} (h : Before s t p) : p.span.length = t.length := by
  rw [← h.rest_eq, length_rest h.fits]

lemma Before.of_span {p : Parser A} (h : Before s t p) {q : Parser B} (hspan : q.span = p.span)
    (herr : q.err = false) : Before s t q :=
  ⟨by rw [hspan]; exact h.fits, herr, by rw [← h.rest_eq, rest, rest, hspan]⟩

lemma Meets.cases {x : Run (Parser B × Unit)} {r : Reading B} (h : Meets s x r) :
    (∃ q u, x = .ok (q, ()) ∧ r = .ok q.res u ∧ Before s u q) ∨
      (∃ q, x = .ok (q, ()) ∧ r = .fail (rest s q) ∧ Fits s q.span ∧ q.err = true) ∨
      x = .error .diverges ∧ r = .hang := by
  cases x with
  | error e =>
    cases r with
    | hang => exact .inr (.inr ⟨congrArg Except.error h, rfl⟩)
    | _ => exact h.elim
  | ok y =>
    obtain ⟨q, _⟩ := y
    cases r with
    | ok b u =>
      obtain ⟨hq, rfl⟩ := h
      exact .inl ⟨q, u, rfl, rfl, hq⟩
    | fail u =>
      obtain ⟨hq, herr, rfl⟩ := h
      exact .inr (.inl ⟨q, rfl, rfl, hq, herr⟩)
    | hang => exact h.elim

lemma Meets.bind {x : Run (Parser B × Unit)} {r : Reading B}
    {f : Parser B × Unit → Run (Parser C × Unit)} {g : B → List Char → Reading C}
    (hx : Meets s x r)
    (hok : ∀ q u, x = .ok (q, ()) → Before s u q → Meets s (f (q, ())) (g q.res u))
    (hfail : ∀ q, Fits s q.span → q.err = true → Meets s (f (q, ())) (.fail (rest s q))) :
    Meets s (x >>= f) (r.bind g) := by
  obtain ⟨q, u, hrun, rfl, hq⟩ | ⟨q, rfl, rfl, hq, herr⟩ | ⟨rfl, rfl⟩ := hx.cases
  · rw [hrun]
    exact hok q u hrun hq
  · exact hfail q hq herr
  · exact rfl

lemma Keeps.length_le {f : Parser A → Unit → Run (Parser B × Unit)} (hf : Keeps s f) {p : Parser A}
    {q : Parser B} (hp : Before s t p) (hrun : f p () = .ok (q, ())) (hq : Before s u q) :
    u.length ≤ t.length := by
  have hle := length_rest_le (s := s) (hf.suffix hp.fits hrun)
  rwa [hq.rest_eq, hp.rest_eq] at hle

/-! ### Primitives -/

lemma meets_expecting {p : Parser A} (hp : Before s t p) {n : ℕ} (hn : n ≤ t.length)
    (stat : ParseStatus) (what : String) :
    Before s (t.drop n) ((p.expecting stat what).moved n) := by
  have hle : n ≤ p.span.length := hn.trans_eq hp.length_eq.symm
  refine ⟨(suffix_add hle).fits hp.fits, hp.err, ?_⟩
  rw [← hp.rest_eq]
  exact rest_moved (p := p.expecting stat what) n hle

lemma meets_failed {p : Parser A} (hp : Before s t p) (stat : ParseStatus) (what : String)
    {st : Unit} : Meets s (.ok ((p.expecting stat what).failed, st)) (.fail t : Reading A) :=
  ⟨hp.fits, rfl, hp.rest_eq⟩

lemma Before.length_eq_zero {p : Parser A} (hp : Before s t p) : p.span.length = 0 ↔ t = [] := by
  rw [hp.length_eq, List.length_eq_zero_iff]

lemma Before.text_le {p : Parser A} (hp : Before s t p) : p.span.text ≤ s.length :=
  hp.fits.text_le

lemma any_meets {p : Parser Unit} (hp : Before s t p) :
    Meets s (.ok (runAny p, ())) (reading .any p.res t) := by
  unfold runAny reading
  dsimp only
  simp only [hp.length_eq_zero]
  split_ifs with h
  · exact meets_failed hp _ _
  · refine ⟨?_, rfl⟩
    rw [← List.drop_one]
    exact meets_expecting hp (List.length_pos_iff.2 h) _ _

lemma eof_meets {p : Parser Unit} (hp : Before s t p) :
    Meets s (.ok (runEOF p, ())) (reading .parseEOF p.res t) := by
  unfold runEOF reading
  have hlen : (p.expecting .expected "end of input").span.length = 0 ↔ t = [] := hp.length_eq_zero
  dsimp only
  simp only [ne_eq, hlen]
  by_cases h : t = []
  · rw [if_neg (not_not.2 h), if_pos h]
    exact ⟨⟨hp.fits, hp.err, hp.rest_eq⟩, rfl⟩
  · rw [if_pos h, if_neg h]
    exact meets_failed hp _ _

lemma ws_meets {p : Parser Unit} (hp : Before s t p) :
    Meets s (runWS s p >>= fun q => .ok (q, ())) (reading .parseWS p.res t) := by
  have hlen : (p.expecting .expected "whitespace").span.length = 0 ↔ t = [] := hp.length_eq_zero
  have hderef : deref s (p.expecting .expected "whitespace").span.text = .ok (t.headD '\x00') := by
    rw [deref_eq (show (p.expecting .expected "whitespace").span.text ≤ s.length from hp.text_le)]
    exact congrArg (fun l : List Char => Except.ok (l.headD '\x00')) hp.rest_eq
  unfold runWS reading
  dsimp only
  simp only [hlen, hderef, Run.bind_ok]
  by_cases h : t = []
  · rw [if_pos h, Run.bind_ok, if_neg fun hand => hand.1 h]
    exact meets_failed hp _ _
  · rw [if_neg h]
    by_cases hws : t.headD '\x00' ∈ ['\r', '\n', ' ', '\x00']
    · rw [if_pos hws, Run.bind_ok, if_pos ⟨h, hws⟩, ← List.drop_one]
      exact ⟨meets_expecting hp (List.length_pos_iff.2 h) _ _, rfl⟩
    · rw [if_neg hws, Run.bind_ok, if_neg fun hand => hws hand.2]
      exact meets_failed hp _ _

lemma match_meets {p : Parser Unit} (hp : Before s t p) (m : String) :
    Meets s (runMatch s m p >>= fun q => .ok (q, ())) (reading (.match_ m) p.res t) := by
  have hlen : (p.expecting .expected m).span.length = t.length := hp.length_eq
  have hcstr : cstr s (p.expecting .expected m).span.text = .ok t := by
    rw [cstr_eq (show (p.expecting .expected m).span.text ≤ s.length from hp.text_le)]
    exact congrArg Except.ok hp.rest_eq
  unfold runMatch reading
  dsimp only
  simp only [hlen, hcstr, Run.bind_ok]
  by_cases hpre : m.toList.isPrefixOf t
  · have hle := (List.isPrefixOf_iff_prefix.1 hpre).length_le
    rw [if_neg (not_lt.2 hle), if_pos hpre, Run.bind_ok, if_pos hpre]
    exact ⟨meets_expecting hp hle _ _, rfl⟩
  · simp only [if_neg hpre, ite_self, Run.bind_ok]
    exact meets_failed hp _ _

lemma number_meets {N : Type} [Inhabited N] {read : List Char → N × ℕ}
    (hread : ∀ t, (read t).2 ≤ t.length) {p : Parser Unit} (hp : Before s t p) :
    Meets s (runNumber s read p >>= fun q => .ok (q, ())) (numberReading read t) := by
  have hcstr : cstr s p.span.text = .ok t := by
    rw [cstr_eq hp.text_le]
    exact congrArg Except.ok hp.rest_eq
  unfold runNumber numberReading
  rw [hcstr, Run.bind_ok]
  dsimp only
  split_ifs with h
  · exact ⟨hp.fits, rfl, hp.rest_eq⟩
  · have hle : (read t).2 ≤ p.span.length := (hread t).trans_eq hp.length_eq.symm
    refine ⟨⟨(suffix_advance hle).fits hp.fits, hp.err, ?_⟩, rfl⟩
    rw [← hp.rest_eq, rest, rest, List.drop_drop]
    rfl

/-! ### Loops -/

lemma Meets.of_ok {x : Run (Parser B × Unit)} {b : B} (h : Meets s x (.ok b u)) :
    ∃ q, x = .ok (q, ()) ∧ Before s u q ∧ q.res = b := by
  cases x with
  | error e => exact h.elim
  | ok y => exact ⟨y.1, rfl, h⟩

lemma Meets.of_fail {x : Run (Parser B × Unit)} (h : Meets s x (.fail u)) :
    ∃ q, x = .ok (q, ()) ∧ Fits s q.span ∧ q.err = true ∧ rest s q = u := by
  cases x with
  | error e => exact h.elim
  | ok y => exact ⟨y.1, rfl, h⟩

lemma Meets.of_hang {x : Run (Parser B × Unit)} (h : Meets s x (.hang : Reading B)) :
    x = .error .diverges := by
  cases x with
  | error e => exact congrArg Except.error h
  | ok y => exact h.elim

lemma Before.withSpan {p : Parser A} {q : Parser B} (hp : Before s t p) (hq : Before s u q) :
    Before s u (p.withSpan q.span) := ⟨hq.fits, hp.err, hq.rest_eq⟩

section
variable {inner : Parser A → Unit → Run (Parser B × Unit)} {f : List Char → Reading B} {a : A}
  {min max n : ℕ} (hinner : ∀ u p, u.length ≤ n → Before s u p → p.res = a → Meets s (inner p ()) (f u))
include hinner

/-- A body that succeeds on nothing goes on doing so. -/
lemma multipleLoop_stuck (hmax : 2 ^ 32 ≤ max) (ht : t.length ≤ n) {b : B} (hf : f t = .ok b t)
    (fuel : ℕ) {i : ℕ} (hi : i < 2 ^ 32) (vec : List B) {p : Parser A} (hp : Before s t p)
    (hres : p.res = a) : multipleLoop inner min max fuel i vec p () = .error .diverges := by
  induction fuel generalizing i vec p with
  | zero => rfl
  | succ fuel ih =>
    have hmeets := hinner t p ht hp hres
    rw [hf] at hmeets
    obtain ⟨q, hq, hbefore, -⟩ := hmeets.of_ok
    unfold multipleLoop
    rw [if_pos (by omega), hq, Run.bind_ok]
    dsimp only
    rw [hbefore.err, if_neg Bool.false_ne_true]
    exact ih (Nat.mod_lt _ (by decide)) _ (hp.withSpan hbefore) hres

lemma multipleLoop_meets (hkeeps : Keeps s inner) (hmax : 2 ^ 32 ≤ max) (ht : t.length ≤ n)
    {fuel i : ℕ} (hfuel : t.length < fuel) (hi : i + t.length < 2 ^ 32) (vec : List B)
    {p : Parser A} (hp : Before s t p) (hres : p.res = a) :
    Meets s (multipleLoop inner min max fuel i vec p ()) (Reading.all f min i vec t) := by
  induction fuel generalizing t i vec p with
  | zero => omega
  | succ fuel ih =>
    have hmeets := hinner t p ht hp hres
    unfold multipleLoop Reading.all
    rw [if_pos (by omega)]
    cases hf : f t with
    | ok b u =>
      rw [hf] at hmeets
      obtain ⟨q, hq, hbefore, rfl⟩ := hmeets.of_ok
      have hsuffix := hkeeps.suffix hp.fits hq
      have hle := length_rest_le (s := s) hsuffix
      rw [hbefore.rest_eq, hp.rest_eq] at hle
      rw [hq, Run.bind_ok]
      dsimp only
      rw [hbefore.err, if_neg Bool.false_ne_true]
      by_cases hlt : u.length < t.length
      · rw [if_pos hlt, Nat.mod_eq_of_lt (by omega)]
        exact ih (by omega) (by omega) (by omega) _ (hp.withSpan hbefore) hres
      · rw [if_neg hlt]
        have hsame : u = t := by
          rw [← hbefore.rest_eq, ← hp.rest_eq]
          refine rest_eq_of_length hsuffix hp.fits ?_
          rw [hbefore.rest_eq, hp.rest_eq]
          omega
        subst hsame
        rw [multipleLoop_stuck hinner hmax ht hf fuel (Nat.mod_lt _ (by decide)) _
          (hp.withSpan hbefore) hres]
        exact rfl
    | fail u =>
      rw [hf] at hmeets
      obtain ⟨q, hq, hfits, herr, rfl⟩ := hmeets.of_fail
      rw [hq, Run.bind_ok]
      dsimp only
      rw [herr, if_pos rfl]
      split_ifs
      · exact ⟨hfits, herr, rfl⟩
      · exact ⟨⟨hp.fits, rfl, hp.rest_eq⟩, rfl⟩
    | hang =>
      rw [hf] at hmeets
      rw [hmeets.of_hang]
      exact rfl

lemma multipleLoop_once (ht : t.length ≤ n) {fuel : ℕ} (hfuel : 1 < fuel) (vec : List B)
    {p : Parser A} (hp : Before s t p) (hres : p.res = a) :
    Meets s (multipleLoop inner min 1 fuel 0 vec p ()) (Reading.once f min vec t) := by
  obtain ⟨fuel, rfl⟩ : ∃ m, fuel = m + 2 := ⟨fuel - 2, by omega⟩
  have hmeets := hinner t p ht hp hres
  unfold multipleLoop Reading.once
  rw [if_pos one_pos]
  cases hf : f t with
  | ok b u =>
    rw [hf] at hmeets
    obtain ⟨q, hq, hbefore, rfl⟩ := hmeets.of_ok
    rw [hq, Run.bind_ok]
    dsimp only
    rw [hbefore.err, if_neg Bool.false_ne_true]
    exact ⟨⟨hbefore.fits, rfl, hbefore.rest_eq⟩, rfl⟩
  | fail u =>
    rw [hf] at hmeets
    obtain ⟨q, hq, hfits, herr, rfl⟩ := hmeets.of_fail
    rw [hq, Run.bind_ok]
    dsimp only
    rw [herr, if_pos rfl]
    split_ifs
    · exact ⟨hfits, herr, rfl⟩
    · exact ⟨⟨hp.fits, rfl, hp.rest_eq⟩, rfl⟩
  | hang =>
    rw [hf] at hmeets
    rw [hmeets.of_hang]
    exact rfl

lemma multipleLoop_repeated (hkeeps : Keeps s inner) (hmax : max = 1 ∨ 2 ^ 32 ≤ max)
    (ht : t.length ≤ n) {fuel : ℕ} (hfuel : t.length + 1 < fuel) (vec : List B)
    {p : Parser A} (hp : Before s t p) (hres : p.res = a) :
    Meets s (multipleLoop inner min max fuel 0 vec p ()) (Reading.repeated f min max vec t) := by
  have hlt : t.length < 2 ^ 32 := hp.length_eq ▸ p.span.length_lt
  unfold Reading.repeated
  rcases hmax with rfl | hmax
  · rw [if_pos rfl]
    exact multipleLoop_once hinner ht (by omega) vec hp hres
  · rw [if_neg (by omega)]
    exact multipleLoop_meets hinner hkeeps hmax ht (by omega) (by omega) vec hp hres

end

/-! ### Whole expressions -/

lemma unlessErr_ok [Inhabited C] {q : Parser B} (hq : q.err = false) (r : Parser C) :
    q.unlessErr r = r := by
  rw [Parser.unlessErr, hq, if_neg Bool.false_ne_true]

lemma unlessErr_err [Inhabited C] {q : Parser B} (hq : q.err = true) (r : Parser C) :
    q.unlessErr r = q.cast := by
  rw [Parser.unlessErr, hq, if_pos rfl]

/-- A parser whose result is replaced unless it failed. -/
lemma Meets.unlessErr [Inhabited C] {x : Run (Parser B × Unit)} {r : Reading B} (hx : Meets s x r)
    (res : Parser B → C) (g : B → List Char → C)
    (hres : ∀ q u, Before s u q → res q = g q.res u) :
    Meets s (x >>= fun y => .ok (y.1.unlessErr (y.1.withRes (res y.1)), y.2))
      (r.bind fun b u => .ok (g b u) u) := by
  refine hx.bind (fun q u _ hq => ?_) fun q hq herr => ?_
  · dsimp only
    rw [unlessErr_ok hq.err]
    exact ⟨⟨hq.fits, rfl, hq.rest_eq⟩, hres q u hq⟩
  · dsimp only
    rw [unlessErr_err herr]
    exact ⟨hq, herr, rfl⟩

/-- A parser that goes on unless the one before it failed. -/
lemma Meets.andThen [Inhabited C] {x : Run (Parser B × Unit)} {r : Reading B} (hx : Meets s x r)
    (k : Parser B → Unit → Run (Parser C × Unit)) (g : B → List Char → Reading C)
    (hok : ∀ q u, x = .ok (q, ()) → Before s u q → Meets s (k q ()) (g q.res u)) :
    Meets s (x >>= fun y => if y.1.err then .ok (y.1.cast, y.2) else k y.1 y.2) (r.bind g) := by
  refine hx.bind (fun q u hrun hq => ?_) fun q hq herr => ?_
  · dsimp only
    rw [hq.err, if_neg Bool.false_ne_true]
    exact hok q u hrun hq
  · dsimp only
    rw [herr, if_pos rfl]
    exact ⟨hq, herr, rfl⟩

/-- The text between two cursors. -/
lemma Before.text_eq {p : Parser A} (hp : Before s t p) {q : Parser B} (hq : Before s u q) :
    (s.drop p.span.text).take (q.span.text - p.span.text) = t.take (t.length - u.length) := by
  have hfits := hp.fits
  have hfits' := hq.fits
  have hlen := hp.length_eq
  have hlen' := hq.length_eq
  unfold Fits at hfits hfits'
  have hcount : q.span.text - p.span.text = t.length - u.length := by omega
  have htext : s.drop p.span.text = t := hp.rest_eq
  rw [htext, hcount]

/-- With one step of fuel more than characters to read, the run of a plain expression does what
its reading says. -/
theorem run_reading (e : ParseMap Unit A B) (he : e.Plain) {p : Parser A} (hp : Before s t p)
    {fuel : ℕ} (hfuel : t.length + 1 < fuel) : Meets s (run s fuel e p ()) (reading e p.res t) := by
  induction e generalizing t with
  | lazyMap | arrayMap | char => exact he.elim
  | resultMap resmap => exact ⟨⟨hp.fits, rfl, hp.rest_eq⟩, rfl⟩
  | errorMap cond =>
    unfold run reading
    split_ifs
    · exact ⟨hp.fits, rfl, hp.rest_eq⟩
    · exact ⟨hp, rfl⟩
  | ignore => exact ⟨⟨hp.fits, hp.err, hp.rest_eq⟩, rfl⟩
  | tupleLast head ih =>
    unfold run reading
    exact (ih he hp hfuel).unlessErr (fun q => (q.res, ())) (fun b _ => (b, ())) fun q u _ => rfl
  | tupleMap head rest ihh ihr =>
    unfold run reading
    refine (ihh he.1 hp hfuel).andThen (fun q st => run s fuel rest q st >>= fun y =>
      .ok (y.1.unlessErr (y.1.withRes (q.res, y.1.res)), y.2)) _ fun q u hrun hq => ?_
    have hle := (run_keeps s fuel head he.1.lazyFree).length_le hp hrun hq
    exact (ihr he.2 hq (by omega)).unlessErr (fun r => (q.res, r.res)) (fun c _ => (q.res, c))
      fun r v _ => rfl
  | not inner ih =>
    unfold run reading
    obtain ⟨q, u, hrun, hr, hq⟩ | ⟨q, hrun, hr, hfits, herr⟩ | ⟨hrun, hr⟩ := (ih he hp hfuel).cases
    · rw [hrun, hr, Run.bind_ok]
      exact ⟨hq.fits, by simp [hq.err], hq.rest_eq⟩
    · rw [hrun, hr, Run.bind_ok]
      exact ⟨⟨hfits, by simp [herr], rfl⟩, rfl⟩
    · rw [hrun, hr]
      exact rfl
  | lookAhead inner ih =>
    unfold run reading
    obtain ⟨q, u, hrun, hr, hq⟩ | ⟨q, hrun, hr, hfits, herr⟩ | ⟨hrun, hr⟩ := (ih he hp hfuel).cases
    · rw [hrun, hr, Run.bind_ok]
      exact ⟨⟨hp.fits, hq.err, hp.rest_eq⟩, rfl⟩
    · rw [hrun, hr, Run.bind_ok]
      exact ⟨hp.fits, herr, hp.rest_eq⟩
    · rw [hrun, hr]
      exact rfl
  | chain left right ihl ihr =>
    unfold run reading
    refine (ihl he.1 hp hfuel).andThen (run s fuel right) _ fun q u hrun hq => ?_
    have hle := (run_keeps s fuel left he.1.lazyFree).length_le hp hrun hq
    exact ihr he.2 hq (by omega)
  | combine inner resmap ih =>
    unfold run reading
    exact (ih he hp hfuel).unlessErr (fun q => resmap p.res q.res) (fun b _ => resmap p.res b)
      fun q u _ => rfl
  | skipMap skip ih =>
    have hskip := ih he (p := p.withRes ()) ⟨hp.fits, rfl, hp.rest_eq⟩ hfuel
    unfold run reading
    exact hskip.unlessErr (fun _ => p.res) (fun _ _ => p.res) fun q u _ => rfl
  | multiple min max inner ih =>
    unfold run reading
    refine multipleLoop_repeated (n := t.length) (fun u q hu hq hres => ?_)
      (run_keeps s fuel inner he.2.lazyFree) he.1 le_rfl hfuel _ hp rfl
    exact hres ▸ ih he.2 hq (by omega)
  | many min max inner ih =>
    unfold run reading
    rw [manyLoop_eq (fun q => run s fuel inner q) min max fuel 0 []]
    have h : Meets s (multipleLoop (fun q => run s fuel inner q) min max fuel 0 [] p ())
        (Reading.repeated (reading inner p.res) min max [] t) :=
      multipleLoop_repeated (n := t.length) (fun u q hu hq hres =>
        hres ▸ ih he.2 hq (show u.length + 1 < fuel by omega))
        (run_keeps s fuel inner he.2.lazyFree) he.1 le_rfl hfuel [] hp rfl
    refine h.bind (fun q u _ hq => ?_) fun q hq herr => ?_
    · exact ⟨⟨hq.fits, hq.err, hq.rest_eq⟩, rfl⟩
    · exact ⟨hq, herr, rfl⟩
  | or left right ihl ihr =>
    unfold run reading
    obtain ⟨q, u, hrun, hr, hq⟩ | ⟨q, hrun, hr, -, herr⟩ | ⟨hrun, hr⟩ := (ihl he.1 hp hfuel).cases
    · rw [hrun, hr, Run.bind_ok]
      dsimp only
      rw [hq.err, if_neg Bool.false_ne_true]
      exact ⟨hq, rfl⟩
    · rw [hrun, hr, Run.bind_ok]
      dsimp only
      rw [herr, if_pos rfl]
      exact ihr he.2 hp hfuel
    · rw [hrun, hr]
      exact rfl
  | parseString inner ih =>
    unfold run reading
    exact (ih he hp hfuel).unlessErr
      (fun q => (s.drop p.span.text).take (q.span.text - p.span.text))
      (fun _ u => t.take (t.length - u.length)) fun q u hq => hp.text_eq hq
  | any => exact any_meets hp
  | parseEOF => exact eof_meets hp
  | parseWS => exact ws_meets hp
  | match_ m => exact match_meets hp m
  | parseInt => exact number_meets strtol_le hp
  | parseFloat => exact number_meets strtof_le hp

/-- `Many(Match("a")) + ParseInt` on `a12`. -/
example :
    let e : ParseMap Unit Unit ℤ := .chain (.manyOf (.match_ "a")) .parseInt
    Meets ['a', '1', '2'] (run ['a', '1', '2'] 5 e (.ofText ['a', '1', '2']) ())
      (reading e () ['a', '1', '2']) := by
  intro e
  have he : e.Plain := ⟨⟨.inr (by decide), trivial⟩, trivial⟩
  have hp : Before ['a', '1', '2'] ['a', '1', '2'] (.ofText ['a', '1', '2'] : Parser Unit) :=
    ⟨rfl, rfl, rfl⟩
  exact run_reading e he hp (by decide)

end
end ParseMap
end CoreCommon
