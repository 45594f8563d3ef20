import CoreCommon.ParserMeaning

/-! Rules for what an expression does with the text that is left while its lambdas write captured
variables: it accepts with a result, or rejects. One step of fuel more than characters to read is
enough. -/
namespace CoreCommon.ParseMap
open ParserSpan
variable {σ A B C : Type} {s t u v w : List Char} {a : A} {b : B} {c : C} {st st' st'' : σ}

/-- Every run from before `t` succeeds with `b` before `u`. -/
def Accepts (s : List Char) (e : ParseMap σ A B) (a : A) (t : List Char) (st : σ) (b : B)
    (u : List Char) (st' : σ) : Prop :=
  ∀ fuel, t.length + 1 < fuel → ∀ p, Before s t p → p.res = a →
    ∃ q, run s fuel e p st = .ok (q, st') ∧ Before s u q ∧ q.res = b

/-- Every run from before `t` fails with `u` left. -/
def Rejects (s : List Char) (e : ParseMap σ A B) (a : A) (t : List Char) (st : σ)
    (u : List Char) (st' : σ) : Prop :=
  ∀ fuel, t.length + 1 < fuel → ∀ p, Before s t p → p.res = a →
    ∃ q, run s fuel e p st = .ok (q, st') ∧ Fits s q.span ∧ q.err = true ∧ rest s q = u

/-! ### One expression after another -/

lemma accepts_ignore : Accepts s (.ignore : ParseMap σ A Unit) a t st () t st := by
  intro fuel _ p hp _
  exact ⟨p.cast, rfl, ⟨hp.fits, hp.err, hp.rest_eq⟩, rfl⟩

lemma accepts_resultMap (f : A → σ → B × σ) :
    Accepts s (.resultMap f) a t st (f a st).1 t (f a st).2 := by
  rintro fuel _ p hp rfl
  exact ⟨_, rfl, ⟨hp.fits, rfl, hp.rest_eq⟩, rfl⟩

section chains
variable [Inhabited C] {l : ParseMap σ A B} {r : ParseMap σ B C}

lemma Accepts.chain (hl : Accepts s l a t st b u st') (hle : u.length ≤ t.length)
    (hr : Accepts s r b u st' c v st'') : Accepts s (.chain l r) a t st c v st'' := by
  intro fuel hfuel p hp hres
  obtain ⟨q, hq, hbefore, hb⟩ := hl fuel hfuel p hp hres
  obtain ⟨q', hq', hdone⟩ := hr fuel (by omega) q hbefore hb
  exact ⟨q', (run_chain_ok r hq hbefore.err).trans hq', hdone⟩

lemma Accepts.chain_rejects (hl : Accepts s l a t st b u st') (hle : u.length ≤ t.length)
    (hr : Rejects s r b u st' v st'') : Rejects s (.chain l r) a t st v st'' := by
  intro fuel hfuel p hp hres
  obtain ⟨q, hq, hbefore, hb⟩ := hl fuel hfuel p hp hres
  obtain ⟨q', hq', hdone⟩ := hr fuel (by omega) q hbefore hb
  exact ⟨q', (run_chain_ok r hq hbefore.err).trans hq', hdone⟩

lemma Rejects.chain (hl : Rejects s l a t st u st') : Rejects s (.chain l r) a t st u st' := by
  intro fuel hfuel p hp hres
  obtain ⟨q, hq, hfits, herr, hrest⟩ := hl fuel hfuel p hp hres
  exact ⟨q.cast, run_chain_err r hq herr, hfits, herr, hrest⟩

end chains

section alternatives
variable {l r : ParseMap σ A B}

lemma Accepts.or_left (hl : Accepts s l a t st b u st') : Accepts s (.or l r) a t st b u st' := by
  intro fuel hfuel p hp hres
  obtain ⟨q, hq, hbefore, hb⟩ := hl fuel hfuel p hp hres
  exact ⟨q, run_or_ok r hq hbefore.err, hbefore, hb⟩

lemma Accepts.or_right (hl : Rejects s l a t st u st') (hr : Accepts s r a t st' b v st'') :
    Accepts s (.or l r) a t st b v st'' := by
  intro fuel hfuel p hp hres
  obtain ⟨q, hq, -, herr, -⟩ := hl fuel hfuel p hp hres
  obtain ⟨q', hq', hdone⟩ := hr fuel hfuel p hp hres
  exact ⟨q', (run_or_err r hq herr).trans hq', hdone⟩

lemma Rejects.or (hl : Rejects s l a t st u st') (hr : Rejects s r a t st' v st'') :
    Rejects s (.or l r) a t st v st'' := by
  intro fuel hfuel p hp hres
  obtain ⟨q, hq, -, herr, -⟩ := hl fuel hfuel p hp hres
  obtain ⟨q', hq', hdone⟩ := hr fuel hfuel p hp hres
  exact ⟨q', (run_or_err r hq herr).trans hq', hdone⟩

end alternatives

lemma Accepts.not {e : ParseMap σ Unit Unit} (he : Accepts s e () t st () u st') :
    Rejects s (.not e) () t st u st' := by
  intro fuel hfuel p hp hres
  obtain ⟨q, hq, hbefore, -⟩ := he fuel hfuel p hp hres
  refine ⟨{ q with stat := flipStatus q.stat, err := !q.err }, ?_, hbefore.fits, ?_, hbefore.rest_eq⟩
  · rw [run, hq, Run.bind_ok]
  · rw [hbefore.err, Bool.not_false]

lemma Rejects.not {e : ParseMap σ Unit Unit} (he : Rejects s e () t st u st') :
    Accepts s (.not e) () t st () u st' := by
  intro fuel hfuel p hp hres
  obtain ⟨q, hq, hfits, herr, hrest⟩ := he fuel hfuel p hp hres
  refine ⟨{ q with stat := flipStatus q.stat, err := !q.err }, ?_, ⟨hfits, ?_, hrest⟩, rfl⟩
  · rw [run, hq, Run.bind_ok]
  · rw [herr, Bool.not_true]

lemma Accepts.combine [Inhabited C] {e : ParseMap σ A B} (he : Accepts s e a t st b u st')
    (f : A → B → C) : Accepts s (.combine e f) a t st (f a b) u st' := by
  rintro fuel hfuel p hp rfl
  obtain ⟨q, hq, hbefore, rfl⟩ := he fuel hfuel p hp rfl
  refine ⟨q.withRes (f p.res q.res), ?_, ⟨hbefore.fits, rfl, hbefore.rest_eq⟩, rfl⟩
  rw [run, hq, Run.bind_ok]
  dsimp only
  rw [unlessErr_ok hbefore.err]

lemma Rejects.combine [Inhabited C] {e : ParseMap σ A B} (he : Rejects s e a t st u st')
    (f : A → B → C) : Rejects s (.combine e f) a t st u st' := by
  rintro fuel hfuel p hp rfl
  obtain ⟨q, hq, hfits, herr, hrest⟩ := he fuel hfuel p hp rfl
  refine ⟨q.cast, ?_, hfits, herr, hrest⟩
  rw [run, hq, Run.bind_ok]
  dsimp only
  rw [unlessErr_err herr]

lemma Accepts.skipMap [Inhabited A] {e : ParseMap σ Unit Unit} (he : Accepts s e () t st () u st') :
    Accepts s (.skipMap e) a t st a u st' := by
  rintro fuel hfuel p hp rfl
  obtain ⟨q, hq, hbefore, -⟩ := he fuel hfuel (p.withRes ()) (hp.of_span rfl rfl) rfl
  refine ⟨q.withRes p.res, ?_, ⟨hbefore.fits, rfl, hbefore.rest_eq⟩, rfl⟩
  rw [run, hq, Run.bind_ok]
  dsimp only
  rw [unlessErr_ok hbefore.err]

lemma Rejects.skipMap [Inhabited A] {e : ParseMap σ Unit Unit} (he : Rejects s e () t st u st') :
    Rejects s (.skipMap e) a t st u st' := by
  rintro fuel hfuel p hp rfl
  obtain ⟨q, hq, hfits, herr, hrest⟩ := he fuel hfuel (p.withRes ()) (hp.of_span rfl rfl) rfl
  refine ⟨q.cast, ?_, hfits, herr, hrest⟩
  rw [run, hq, Run.bind_ok]
  dsimp only
  rw [unlessErr_err herr]

section tuples
variable [Inhabited B] {l : ParseMap σ A B}

lemma Accepts.tupleLast (hl : Accepts s l a t st b u st') :
    Accepts s (.tupleLast l) a t st (b, ()) u st' := by
  intro fuel hfuel p hp hres
  obtain ⟨q, hq, hbefore, rfl⟩ := hl fuel hfuel p hp hres
  refine ⟨q.withRes (q.res, ()), ?_, ⟨hbefore.fits, rfl, hbefore.rest_eq⟩, rfl⟩
  rw [run, hq, Run.bind_ok]
  dsimp only
  rw [unlessErr_ok hbefore.err]

lemma Rejects.tupleLast (hl : Rejects s l a t st u st') : Rejects s (.tupleLast l) a t st u st' := by
  intro fuel hfuel p hp hres
  obtain ⟨q, hq, hfits, herr, hrest⟩ := hl fuel hfuel p hp hres
  refine ⟨q.cast, ?_, hfits, herr, hrest⟩
  rw [run, hq, Run.bind_ok]
  dsimp only
  rw [unlessErr_err herr]

lemma Accepts.tupleMap [Inhabited C] {r : ParseMap σ B C} (hl : Accepts s l a t st b u st')
    (hle : u.length ≤ t.length) (hr : Accepts s r b u st' c v st'') :
    Accepts s (.tupleMap l r) a t st (b, c) v st'' := by
  intro fuel hfuel p hp hres
  obtain ⟨q, hq, hbefore, rfl⟩ := hl fuel hfuel p hp hres
  obtain ⟨q', hq', hbefore', rfl⟩ := hr fuel (by omega) q hbefore rfl
  refine ⟨q'.withRes (q.res, q'.res), ?_, ⟨hbefore'.fits, rfl, hbefore'.rest_eq⟩, rfl⟩
  rw [run, hq, Run.bind_ok]
  dsimp only
  rw [hbefore.err, if_neg Bool.false_ne_true, hq', Run.bind_ok]
  dsimp only
  rw [unlessErr_ok hbefore'.err]

lemma Accepts.tupleMap_rejects [Inhabited C] {r : ParseMap σ B C} (hl : Accepts s l a t st b u st')
    (hle : u.length ≤ t.length) (hr : Rejects s r b u st' v st'') :
    Rejects s (.tupleMap l r) a t st v st'' := by
  intro fuel hfuel p hp hres
  obtain ⟨q, hq, hbefore, rfl⟩ := hl fuel hfuel p hp hres
  obtain ⟨q', hq', hfits, herr, hrest⟩ := hr fuel (by omega) q hbefore rfl
  refine ⟨q'.cast, ?_, hfits, herr, hrest⟩
  rw [run, hq, Run.bind_ok]
  dsimp only
  rw [hbefore.err, if_neg Bool.false_ne_true, hq', Run.bind_ok]
  dsimp only
  rw [unlessErr_err herr]

end tuples

/-- The match is the text that has been passed. -/
lemma Accepts.parseString {e : ParseMap σ A B} (he : Accepts s e a (w ++ u) st b u st') :
    Accepts s (.parseString e) a (w ++ u) st w u st' := by
  intro fuel hfuel p hp hres
  obtain ⟨q, hq, hbefore, -⟩ := he fuel hfuel p hp hres
  let text := (s.drop p.span.text).take (q.span.text - p.span.text)
  have hrun : run s fuel (.parseString e) p st = .ok (q.withRes text, st') := by
    rw [run, hq, Run.bind_ok]
    dsimp only
    rw [unlessErr_ok hbefore.err]
  refine ⟨q.withRes text, hrun, ⟨hbefore.fits, rfl, hbefore.rest_eq⟩, ?_⟩
  show (s.drop p.span.text).take (q.span.text - p.span.text) = w
  rw [hp.text_eq hbefore, List.length_append, Nat.add_sub_cancel, List.take_left]

lemma Rejects.parseString {e : ParseMap σ A B} (he : Rejects s e a t st u st') :
    Rejects s (.parseString e) a t st u st' := by
  intro fuel hfuel p hp hres
  obtain ⟨q, hq, hfits, herr, hrest⟩ := he fuel hfuel p hp hres
  refine ⟨q.cast, ?_, hfits, herr, hrest⟩
  rw [run, hq, Run.bind_ok]
  dsimp only
  rw [unlessErr_err herr]

/-! ### Loops -/

/-- Rounds of a loop until its body rejects. -/
inductive Rounds (s : List Char) (e : ParseMap σ A B) (a : A) :
    List Char → σ → List Char → σ → Prop
  | stop {t u : List Char} {st st' : σ} (h : Rejects s e a t st u st') : Rounds s e a t st t st'
  | more {t u v : List Char} {st st' st'' : σ} {b : B} (h : Accepts s e a t st b u st')
      (hlt : u.length < t.length) (hrest : Rounds s e a u st' v st'') : Rounds s e a t st v st''

section loops
variable {e : ParseMap σ A B}

lemma Rounds.loop (h : Rounds s e a t st u st') {fuel min steps i : ℕ}
    (hfuel : t.length + 1 < fuel) (hsteps : t.length < steps) (hmin : min ≤ i)
    (hi : i + t.length < 2 ^ 32) {p : Parser A} (hp : Before s t p) (hres : p.res = a) :
    ∃ q, manyLoop (fun q => run s fuel e q) min sizeMax steps i p st = .ok (q, st') ∧
      Before s u q ∧ q.res = () := by
  have hmax : 2 ^ 32 < sizeMax := by decide
  induction h generalizing steps i p with
  | stop h =>
    obtain ⟨q, hq, -, herr, -⟩ := h fuel hfuel p hp hres
    obtain ⟨steps, rfl⟩ : ∃ m, steps = m + 1 := ⟨steps - 1, by omega⟩
    refine ⟨p.withRes (), ?_, hp.of_span rfl rfl, rfl⟩
    rw [manyLoop, if_pos (by omega), hq, Run.bind_ok]
    dsimp only
    rw [herr, if_pos rfl, if_neg (by omega)]
  | more h hlt hrest ih =>
    obtain ⟨q, hq, hbefore, -⟩ := h fuel hfuel p hp hres
    obtain ⟨steps, rfl⟩ : ∃ m, steps = m + 1 := ⟨steps - 1, by omega⟩
    rw [manyLoop, if_pos (by omega), hq, Run.bind_ok]
    dsimp only
    rw [hbefore.err, if_neg Bool.false_ne_true, Nat.mod_eq_of_lt (by omega)]
    exact ih (by omega) (by omega) (by omega) (by omega) (hp.withSpan hbefore) hres

lemma Before.length_lt {p : Parser A} (hp : Before s t p) : t.length < 2 ^ 32 :=
  hp.length_eq ▸ p.span.length_lt

lemma Rounds.accepts (h : Rounds s e a t st u st') : Accepts s (manyOf e) a t st () u st' := by
  intro fuel hfuel p hp hres
  have hlt := hp.length_lt
  exact h.loop hfuel (by omega) le_rfl (by omega) hp hres

/-- `Many` with at least one round. -/
lemma Accepts.many_one (h : Accepts s e a t st b u st') (hlt : u.length < t.length)
    (hrest : Rounds s e a u st' v st'') : Accepts s (.many 1 sizeMax e) a t st () v st'' := by
  intro fuel hfuel p hp hres
  have hlen := hp.length_lt
  obtain ⟨q, hq, hbefore, -⟩ := h fuel hfuel p hp hres
  obtain ⟨steps, rfl⟩ : ∃ m, fuel = m + 1 := ⟨fuel - 1, by omega⟩
  rw [run, manyLoop, if_pos (by decide), hq, Run.bind_ok]
  dsimp only
  rw [hbefore.err, if_neg Bool.false_ne_true, Nat.mod_eq_of_lt (by decide)]
  exact hrest.loop (by omega) (by omega) le_rfl (by omega) (hp.withSpan hbefore) hres

lemma Rejects.many_one (h : Rejects s e a t st u st') :
    Rejects s (.many 1 sizeMax e) a t st u st' := by
  intro fuel hfuel p hp hres
  obtain ⟨q, hq, hfits, herr, hrest⟩ := h fuel hfuel p hp hres
  obtain ⟨steps, rfl⟩ : ∃ m, fuel = m + 1 := ⟨fuel - 1, by omega⟩
  refine ⟨q.cast, ?_, hfits, herr, hrest⟩
  rw [run, manyLoop, if_pos (by decide), hq, Run.bind_ok]
  dsimp only
  rw [herr, if_pos rfl, if_pos one_pos]

lemma Accepts.maybe (h : Accepts s e a t st b u st') : Accepts s (maybe e) a t st () u st' := by
  intro fuel hfuel p hp hres
  obtain ⟨q, hq, hbefore, -⟩ := h fuel hfuel p hp hres
  obtain ⟨steps, rfl⟩ : ∃ m, fuel = m + 2 := ⟨fuel - 2, by omega⟩
  refine ⟨(p.withSpan q.span).withRes (), ?_, (hp.withSpan hbefore).of_span rfl rfl, rfl⟩
  rw [ParseMap.maybe, run, manyLoop, if_pos one_pos, hq, Run.bind_ok]
  dsimp only
  rw [hbefore.err, if_neg Bool.false_ne_true]
  rfl

lemma Rejects.maybe (h : Rejects s e a t st u st') : Accepts s (maybe e) a t st () t st' := by
  intro fuel hfuel p hp hres
  obtain ⟨q, hq, -, herr, -⟩ := h fuel hfuel p hp hres
  obtain ⟨steps, rfl⟩ : ∃ m, fuel = m + 1 := ⟨fuel - 1, by omega⟩
  refine ⟨p.withRes (), ?_, hp.of_span rfl rfl, rfl⟩
  rw [ParseMap.maybe, run, manyLoop, if_pos one_pos, hq, Run.bind_ok]
  dsimp only
  rw [herr, if_pos rfl, if_neg (lt_irrefl 0)]

end loops

/-! ### Single characters -/

/-- The expression takes one character, if `f` holds of it. -/
structure Takes (σ : Type) (s : List Char) (e : ParseMap σ Unit Unit) (f : Char → Bool) : Prop where
  accepts : ∀ c t st, f c = true → Accepts s e () (c :: t) st () t st
  rejects : ∀ t st, (∀ c ∈ t.head?, f c = false) → Rejects s e () t st t st

/-- The expression takes nothing and stops before a character that `f` holds of. -/
structure Guards (σ : Type) (s : List Char) (e : ParseMap σ Unit Unit) (f : Char → Bool) : Prop where
  accepts : ∀ t st, (∀ c ∈ t.head?, f c = false) → Accepts s e () t st () t st
  rejects : ∀ c t st, f c = true → ∃ u, Rejects s e () (c :: t) st u st

section chars
variable {e e' : ParseMap σ Unit Unit} {f g : Char → Bool}

/-- An expression without captured variables, from what it means. -/
lemma accepts_of_meets {e : ParseMap σ Unit Unit} {x : Parser Unit → Run (Parser Unit)}
    (hx : ∀ fuel p, run s fuel e p st = x p >>= fun q => .ok (q, st))
    (h : ∀ p, Before s t p → Meets s (x p >>= fun q => .ok (q, ())) (.ok () u)) :
    Accepts s e () t st () u st := by
  intro fuel _ p hp _
  obtain ⟨q, hq, hbefore, hb⟩ := (h p hp).of_ok
  obtain ⟨q', hq', heq⟩ := Run.bind_eq_ok.1 hq
  cases heq
  exact ⟨q, by rw [hx, hq', Run.bind_ok], hbefore, hb⟩

lemma rejects_of_meets {e : ParseMap σ Unit Unit} {x : Parser Unit → Run (Parser Unit)}
    (hx : ∀ fuel p, run s fuel e p st = x p >>= fun q => .ok (q, st))
    (h : ∀ p, Before s t p → Meets s (x p >>= fun q => .ok (q, ())) (.fail u : Reading Unit)) :
    Rejects s e () t st u st := by
  intro fuel _ p hp _
  obtain ⟨q, hq, hfits, herr, hrest⟩ := (h p hp).of_fail
  obtain ⟨q', hq', heq⟩ := Run.bind_eq_ok.1 hq
  cases heq
  exact ⟨q, by rw [hx, hq', Run.bind_ok], hfits, herr, hrest⟩

lemma accepts_match (m : String) : Accepts s (.match_ m) () (m.toList ++ t) st () t st := by
  refine accepts_of_meets (fun fuel p => rfl) fun p hp => ?_
  have h := match_meets hp m
  rwa [reading, if_pos (List.isPrefixOf_iff_prefix.2 (List.prefix_append _ _)),
    List.drop_left] at h

lemma rejects_match {m : String} (h : ¬m.toList <+: t) :
    Rejects s (.match_ m) () t st t st := by
  refine rejects_of_meets (fun fuel p => rfl) fun p hp => ?_
  have hmeets := match_meets hp m
  rwa [reading, if_neg fun hpre => h (List.isPrefixOf_iff_prefix.1 hpre)] at hmeets

lemma takes_match {m : String} {d : Char} (hm : m.toList = [d]) :
    Takes σ s (.match_ m) (· == d) where
  accepts := by
    intro c t st hc
    obtain rfl := beq_iff_eq.1 hc
    have h : Accepts s (.match_ m) () (m.toList ++ t) st () t st := accepts_match m
    rwa [hm] at h
  rejects := by
    intro t st ht
    apply rejects_match
    rintro ⟨u, rfl⟩
    have hne := ht d (by simp [hm])
    simp at hne

def isWS (c : Char) : Bool := c ∈ ['\r', '\n', ' ', '\x00']

lemma takes_ws : Takes σ s .parseWS isWS where
  accepts := by
    intro c t st hc
    refine accepts_of_meets (fun fuel p => rfl) fun p hp => ?_
    have h := ws_meets hp
    rwa [reading, if_pos ⟨List.cons_ne_nil _ _, by simpa [isWS] using hc⟩] at h
  rejects := by
    intro t st ht
    refine rejects_of_meets (fun fuel p => rfl) fun p hp => ?_
    have h := ws_meets hp
    rwa [reading, if_neg] at h
    rintro ⟨hne, hws⟩
    cases t with
    | nil => exact hne rfl
    | cons c t =>
      have hc := ht c rfl
      rw [isWS, decide_eq_false_iff_not] at hc
      exact hc hws

lemma accepts_any (c : Char) : Accepts s .any () (c :: t) st () t st := by
  refine accepts_of_meets (x := fun p => .ok (runAny p)) (fun fuel p => rfl) fun p hp => ?_
  exact any_meets hp

lemma rejects_any : Rejects s .any () [] st [] st := by
  refine rejects_of_meets (x := fun p => .ok (runAny p)) (fun fuel p => rfl) fun p hp => ?_
  exact any_meets hp

lemma Takes.or (he : Takes σ s e f) (he' : Takes σ s e' g) :
    Takes σ s (.or e e') fun c => f c || g c where
  accepts := by
    intro c t st hc
    cases hf : f c with
    | true => exact (he.accepts c t st hf).or_left
    | false =>
      have hg : g c = true := by simpa [hf] using hc
      exact .or_right (he.rejects (c :: t) st (by simpa using hf)) (he'.accepts c t st hg)
  rejects := by
    intro t st ht
    have hf : ∀ c ∈ t.head?, f c = false := fun c hc => (Bool.or_eq_false_iff.1 (ht c hc)).1
    have hg : ∀ c ∈ t.head?, g c = false := fun c hc => (Bool.or_eq_false_iff.1 (ht c hc)).2
    exact (he.rejects t st hf).or (he'.rejects t st hg)

lemma Takes.guards (he : Takes σ s e f) : Guards σ s (.not e) f where
  accepts := fun t st ht => (he.rejects t st ht).not
  rejects := fun c t st hc => ⟨t, (he.accepts c t st hc).not⟩

lemma Guards.chain (he : Guards σ s e f) (he' : Guards σ s e' g) :
    Guards σ s (.chain e e') fun c => f c || g c where
  accepts := by
    intro t st ht
    have hf : ∀ c ∈ t.head?, f c = false := fun c hc => (Bool.or_eq_false_iff.1 (ht c hc)).1
    have hg : ∀ c ∈ t.head?, g c = false := fun c hc => (Bool.or_eq_false_iff.1 (ht c hc)).2
    exact (he.accepts t st hf).chain le_rfl (he'.accepts t st hg)
  rejects := by
    intro c t st hc
    cases hf : f c with
    | true =>
      obtain ⟨u, hu⟩ := he.rejects c t st hf
      exact ⟨u, hu.chain⟩
    | false =>
      have hg : g c = true := by simpa [hf] using hc
      obtain ⟨u, hu⟩ := he'.rejects c t st hg
      exact ⟨u, (he.accepts (c :: t) st (by simpa using hf)).chain_rejects le_rfl hu⟩

/-- `Many` of one character runs to the first that is not taken. -/
lemma Takes.rounds (he : Takes σ s e f) (st : σ) (hw : ∀ c ∈ w, f c = true)
    (hu : ∀ c ∈ u.head?, f c = false) : Rounds s e () (w ++ u) st u st := by
  induction w with
  | nil => exact .stop (he.rejects u st hu)
  | cons c w ih =>
    refine .more (he.accepts c (w ++ u) st (hw c List.mem_cons_self)) (Nat.lt_succ_self _) ?_
    exact ih fun d hd => hw d (List.mem_cons_of_mem c hd)

lemma Guards.accepts_any (he : Guards σ s e f) (st : σ) {c : Char} (hc : f c = false) :
    Accepts s (.chain e .any) () (c :: t) st () t st :=
  (he.accepts (c :: t) st (by simpa using hc)).chain le_rfl (ParseMap.accepts_any c)

lemma Guards.rejects_any (he : Guards σ s e f) (st : σ) (ht : ∀ c ∈ t.head?, f c = true) :
    ∃ u, Rejects s (.chain e .any) () t st u st := by
  cases t with
  | nil => exact ⟨[], (he.accepts [] st (by simp)).chain_rejects le_rfl ParseMap.rejects_any⟩
  | cons c t =>
    obtain ⟨u, hu⟩ := he.rejects c t st (ht c rfl)
    exact ⟨u, hu.chain⟩

lemma Guards.rounds (he : Guards σ s e f) (st : σ) (hw : ∀ c ∈ w, f c = false)
    (hu : ∀ c ∈ u.head?, f c = true) : Rounds s (.chain e .any) () (w ++ u) st u st := by
  induction w with
  | nil =>
    obtain ⟨v, hv⟩ := he.rejects_any st hu
    exact .stop hv
  | cons c w ih =>
    refine .more (he.accepts_any st (hw c List.mem_cons_self)) (Nat.lt_succ_self _) ?_
    exact ih fun d hd => hw d (List.mem_cons_of_mem c hd)

end chars

end CoreCommon.ParseMap
