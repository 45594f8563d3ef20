import CoreCommon.ParserPrefix
import CoreCommon.ParserRules
import CoreCommon.ParserState
import CoreCommon.Server

/-! Which header lines `parse_header` reads with all their parameters. -/
namespace CoreCommon.Server
open ParseMap

/-- Not empty, and without whitespace or a character that a header line is split at. -/
structure IsToken (s : List Char) : Prop where
  ne_nil : s ≠ []
  chars : ∀ c ∈ s, c ∉ ['\r', '\n', ' ', '\x00', ':', ',', ';', '=', '"']

/-- Between quotes every quote and every backslash stands behind a backslash. -/
inductive IsQuotable : List Char → Prop
  | nil : IsQuotable []
  | plain {c : Char} {s : List Char} (hquote : c ≠ '"') (hescape : c ≠ '\\') (hs : IsQuotable s) :
      IsQuotable (c :: s)
  | escaped {s : List Char} (c : Char) (hs : IsQuotable s) : IsQuotable ('\\' :: c :: s)

inductive ParameterValue
  | token (s : List Char)
  | quoted (s : List Char)

namespace ParameterValue

def IsValid : ParameterValue → Prop
  | token s => IsToken s
  | quoted s => IsQuotable s

def text : ParameterValue → List Char
  | token s => s
  | quoted s => '"' :: (s ++ ['"'])

def content : ParameterValue → List Char
  | token s => s
  | quoted s => s

end ParameterValue

def parametersText (params : List (List Char × ParameterValue)) : List Char :=
  params.flatMap fun x => ';' :: ' ' :: (x.1 ++ '=' :: x.2.text)

def headerLine (name value : List Char) (params : List (List Char × ParameterValue)) : List Char :=
  name ++ ':' :: ' ' :: (value ++ parametersText params)

/-- With enough fuel `parse_header` succeeds with the result. -/
def ParsesTo (line : List Char) (hdr : List Char × Header) : Prop :=
  ∃ n, ∀ fuel ≥ n, ∃ p : Parser (List Char × Header),
    run line fuel (parseHeader line) (.ofText line) () = .ok (p, ()) ∧ p.err = false ∧ p.res = hdr

section rules
variable {σ : Type} {s t u v w name value key : List Char} {st : σ} {fuel : ℕ} {hdr : Header}

/-! ### The name and the value -/

/-- The name and the value in front of the parameters. -/
def nameValue : ParseMap Unit Unit (List Char × List Char × Unit) :=
  .tupleMap (.parseString (manyOf (.chain (.not (.match_ ":")) .any)))
    (.tupleLast
      (.chain (.chain (.chain .ignore (.match_ ":")) .parseWS)
        (.parseString (manyOf (.chain (.not valSep) .any)))))

/-- What separates values. -/
def endsValue (c : Char) : Bool := (isWS c || c == ',') || c == ';'

lemma takes_valSep : Takes σ s valSep endsValue := (takes_ws.or (takes_match rfl)).or (takes_match rfl)

lemma name_accepts (hname : ∀ c ∈ name, c ≠ ':') (ht : ∀ c ∈ t.head?, c = ':') :
    Accepts s (.parseString (manyOf (.chain (.not (.match_ ":")) .any))) () (name ++ t) st name t
      st := by
  have hcolon : Guards σ s (.not (.match_ ":")) (· == ':') := (takes_match rfl).guards
  have hrounds := hcolon.rounds st (fun c hc => beq_false_of_ne (hname c hc))
    fun c hc => beq_iff_eq.2 (ht c hc)
  exact hrounds.accepts.parseString

lemma nameValue_accepts (hname : ∀ c ∈ name, c ≠ ':') (hvalue : ∀ c ∈ value, endsValue c = false)
    (ht : ∀ c ∈ t.head?, endsValue c = true) :
    Accepts s nameValue () (name ++ ':' :: ' ' :: (value ++ t)) () (name, value, ()) t () := by
  have hsep : Guards Unit s (.not valSep) endsValue := takes_valSep.guards
  have hcolon : Accepts s (.match_ ":") () (':' :: ' ' :: (value ++ t)) () ()
      (' ' :: (value ++ t)) () := accepts_match ":"
  have hspace : Accepts s .parseWS () (' ' :: (value ++ t)) () () (value ++ t) () :=
    takes_ws.accepts ' ' _ () rfl
  have hstart := (accepts_ignore (a := name)).chain le_rfl hcolon
  have hvalue' := (hstart.chain (Nat.le_succ _) hspace).chain (by simp; omega)
    (hsep.rounds () hvalue ht).accepts.parseString
  exact (name_accepts hname (by simp)).tupleMap (by simp) hvalue'.tupleLast

/-- The line ends before the value starts. -/
lemma nameValue_rejects (hname : ∀ c ∈ name, c ≠ ':') (ht : t = [] ∨ t = [':']) :
    ∃ u, Rejects s nameValue () (name ++ t) () u () := by
  have hhead : ∀ c ∈ t.head?, c = ':' := by
    rcases ht with rfl | rfl <;> simp
  have hrest : ∃ u, Rejects s (.chain (.chain .ignore (.match_ ":")) .parseWS) name t () u () := by
    rcases ht with rfl | rfl
    · have hcolon : Rejects s (.match_ ":") () [] () [] () := rejects_match (by simp)
      exact ⟨[], (accepts_ignore.chain_rejects le_rfl hcolon).chain⟩
    · have hcolon : Accepts s (.match_ ":") () [':'] () () [] () := accepts_match ":"
      have hend : Rejects s .parseWS () [] () [] () := takes_ws.rejects [] () (by simp)
      exact ⟨[], (accepts_ignore.chain le_rfl hcolon).chain_rejects (Nat.le_succ _) hend⟩
  obtain ⟨u, hu⟩ := hrest
  exact ⟨u, (name_accepts hname hhead).tupleMap_rejects (by simp) hu.chain.tupleLast⟩

/-! ### The parameters -/

/-- An expression that rejects what is counted rejects the text. -/
lemma rejects_counted {A B : Type} {e : ParseMap σ A B} {a : A} {st' : σ}
    (h : Rejects (counted s) e a t st u st') (he : e.Counted) (hfuel : t.length + 1 < fuel)
    {p : Parser A} (hp : Before (counted s) t p) (hres : p.res = a) :
    ∃ q, run s fuel e p st = .ok (q, st') ∧ q.err = true := by
  obtain ⟨q, hq, -, herr, -⟩ := h fuel hfuel p hp hres
  exact ⟨q, (run_counted e he fuel st hp.fits).trans hq, herr⟩

/-- A loop whose body fails at its first part takes nothing. -/
lemma many_blocked {A B C : Type} [Inhabited C] {l : ParseMap σ A B} {r : ParseMap σ B C}
    {p : Parser A} {q : Parser B} {st' : σ} (hfuel : 0 < fuel)
    (hq : run s fuel l p st = .ok (q, st')) (herr : q.err = true) :
    run s fuel (manyOf (.chain l r)) p st = .ok (p.withRes (), st') := by
  have hchain : run s fuel (.chain l r) p st = .ok (q.cast, st') := run_chain_err r hq herr
  obtain ⟨fuel, rfl⟩ : ∃ n, fuel = n + 1 := ⟨fuel - 1, by omega⟩
  rw [manyOf, run, manyLoop, if_pos (by decide), hchain, Run.bind_ok]
  dsimp only
  rw [if_pos (show (q.cast : Parser C).err = true from herr), if_neg (lt_irrefl 0)]

lemma initSep_rejects (st : σ) (ht : ∀ c ∈ t.head?, c = ';') :
    ∃ u, Rejects s (.chain (.chain spaces (.match_ ",")) spaces) () t st u st := by
  have hspace : Takes σ s (.match_ " ") (· == ' ') := takes_match rfl
  have hnone : Rounds s (.match_ " ") () ([] ++ t) st t st :=
    hspace.rounds st (by simp) fun c hc => by rw [ht c hc]; rfl
  have hcomma : Rejects s (.match_ ",") () t st t st :=
    (takes_match rfl).rejects t st fun c hc => by rw [ht c hc]; rfl
  exact ⟨t, (hnone.accepts.chain_rejects le_rfl hcomma).chain⟩

/-- The key of a parameter up to its `=`. -/
def parameterKey : ParseMap Header Unit (List Char) :=
  .chain (.chain (.match_ ";") spaces)
    (ParseMap.skip
      (.parseString (manyOf (.chain (.chain (.not .parseWS) (.not (.match_ "="))) .any)))
      (.chain (.chain .parseWS (.match_ "=")) .parseWS))

lemma key_rejects (st : σ) (hkey : ∀ c ∈ key, isWS c = false ∧ c ≠ '=') (ht : ∀ c ∈ t.head?, c = '=') :
    ∃ u, Rejects s (ParseMap.skip
      (.parseString (manyOf (.chain (.chain (.not .parseWS) (.not (.match_ "="))) .any)))
      (.chain (.chain .parseWS (.match_ "=")) .parseWS)) () (key ++ t) st u st := by
  have hspace : Takes σ s .parseWS isWS := takes_ws
  have hequal : Takes σ s (.match_ "=") (· == '=') := takes_match rfl
  have hrounds := (hspace.guards.chain hequal.guards).rounds st (w := key) (u := t)
    (fun c hc => by simp [hkey c hc]) fun c hc => by simp [ht c hc]
  have hend : Rejects s .parseWS () t st t st :=
    hspace.rejects t st fun c hc => by rw [ht c hc]; rfl
  exact ⟨t, hrounds.accepts.parseString.chain_rejects (by simp) hend.chain.chain.skipMap⟩

/-- The grammar asks for whitespace before the `=`. -/
lemma parameterKey_rejects (hspaces : ∀ c ∈ w, c = ' ') (hkey : ∀ c ∈ key, isWS c = false ∧ c ≠ '=')
    (ht : ∀ c ∈ t.head?, c = '=') :
    ∃ u, Rejects s parameterKey () (';' :: (w ++ (key ++ t))) hdr u hdr := by
  have hspace : Takes Header s (.match_ " ") (· == ' ') := takes_match rfl
  have hhead : ∀ c ∈ (key ++ t).head?, (c == ' ') = false := by
    intro c hc
    cases key with
    | nil => rw [ht c hc]; rfl
    | cons d key =>
      obtain rfl : d = c := by simpa using hc
      have h := (hkey d List.mem_cons_self).1
      simp only [isWS, List.mem_cons, decide_eq_false_iff_not, not_or] at h
      simp [h]
  have hrounds := hspace.rounds hdr (fun c hc => beq_iff_eq.2 (hspaces c hc)) hhead
  have hsemi : Accepts s (.match_ ";") () (';' :: (w ++ (key ++ t))) hdr () (w ++ (key ++ t)) hdr :=
    accepts_match ";"
  obtain ⟨u, hu⟩ := key_rejects (s := s) hdr hkey ht
  exact ⟨u, (hsemi.chain (Nat.le_succ _) hrounds.accepts).chain_rejects (by simp; omega) hu⟩

/-- What can be left of a parameter when the line is cut. -/
lemma take_parameter (hkey : IsToken key) (t : List Char) (k : ℕ) :
    (';' :: ' ' :: (key ++ '=' :: t)).take k = [] ∨ ∃ w key' t',
      (';' :: ' ' :: (key ++ '=' :: t)).take k = ';' :: (w ++ (key' ++ t')) ∧
      (∀ c ∈ w, c = ' ') ∧ (∀ c ∈ key', isWS c = false ∧ c ≠ '=') ∧ ∀ c ∈ t'.head?, c = '=' := by
  match k with
  | 0 => exact .inl rfl
  | 1 => exact .inr ⟨[], [], [], rfl, by simp, by simp, by simp⟩
  | k + 2 =>
    refine .inr ⟨[' '], key.take k, ('=' :: t).take (k - key.length), ?_, by simp, ?_, ?_⟩
    · rw [List.take_succ_cons, List.take_succ_cons, List.take_append]
      rfl
    · intro c hc
      have h := hkey.chars c (List.mem_of_mem_take hc)
      simp only [List.mem_cons, List.not_mem_nil, or_false, not_or] at h
      simp [isWS, h]
    · cases k - key.length <;> simp

/-- No parameter is read. -/
lemma run_parameters {p : Parser (List Char × List Char × Unit)} (hp : Before (counted s) t p)
    (hfuel : t.length + 1 < fuel) (ht : ∀ c ∈ t.head?, c = ';')
    (hkey : ∃ u, Rejects (counted s) parameterKey () t hdr u hdr) :
    ∃ q, run s fuel (parameters s) p hdr = .ok (q, hdr) ∧ q.err = false := by
  obtain ⟨u, hinit⟩ := initSep_rejects (s := counted s) hdr ht
  obtain ⟨u', hkey⟩ := hkey
  have hstart : Before (counted s) t (p.cast : Parser Unit) := ⟨hp.fits, hp.err, hp.rest_eq⟩
  have hinitCounted : (ParseMap.chain (.chain spaces (.match_ ",")) spaces :
      ParseMap Header Unit Unit).Counted := ⟨⟨trivial, trivial⟩, trivial⟩
  obtain ⟨q, hq, herr⟩ := rejects_counted hinit hinitCounted hfuel hstart rfl
  have hblocked : run s fuel parseInitValsSep p.cast hdr =
      .ok ((p.cast : Parser Unit).withRes (), hdr) := many_blocked (by omega) hq herr
  let p' : Parser Unit := ((p.cast : Parser Unit).withSpan p.span).withRes ()
  have hmaybe : run s fuel (ParseMap.maybe parseInitValsSep) p.cast hdr = .ok (p', hdr) := by
    obtain ⟨n, rfl⟩ : ∃ n, fuel = n + 2 := ⟨fuel - 2, by omega⟩
    rw [ParseMap.maybe, run, manyLoop, if_pos one_pos, hblocked, Run.bind_ok]
    rfl
  have hkeyCounted : parameterKey.Counted :=
    ⟨⟨trivial, trivial⟩, ⟨⟨trivial, trivial⟩, trivial⟩, ⟨trivial, trivial⟩, trivial⟩
  obtain ⟨r, hr, herr'⟩ := rejects_counted hkey hkeyCounted hfuel (p := p')
    ⟨hp.fits, rfl, hp.rest_eq⟩ rfl
  have hmany : run s fuel (manyOf (parameter s)) p' hdr = .ok (p'.withRes (), hdr) :=
    many_blocked (by omega) hr herr'
  refine ⟨p'.withRes (), ?_, rfl⟩
  have herr₀ : (p.cast : Parser Unit).err = false := hp.err
  rw [parameters, run, run, run, Run.bind_ok]
  dsimp only
  rw [herr₀, if_neg Bool.false_ne_true, hmaybe, Run.bind_ok]
  exact hmany

end rules

section line
variable {name value line : List Char} {params : List (List Char × ParameterValue)}
  {hdr : List Char × Header} {v w t u : List Char} {fuel : ℕ}

lemma IsToken.no_colon (h : IsToken name) : ∀ c ∈ name, c ≠ ':' := by
  rintro c hc rfl
  exact absurd (List.mem_cons.2 (by simp)) (h.chars _ hc)

lemma IsToken.in_value (h : IsToken value) : ∀ c ∈ value, endsValue c = false := by
  intro c hc
  have hchars := h.chars c hc
  simp only [List.mem_cons, List.not_mem_nil, or_false, not_or] at hchars
  simp [endsValue, isWS, hchars]

lemma before_counted (line : List Char) :
    Before (counted line) (counted line) (.ofText line : Parser Unit) := by
  refine ⟨?_, rfl, rfl⟩
  show 0 + line.length % 2 ^ 32 = (counted line).length
  rw [length_counted, zero_add]

lemma nameValue_counted : nameValue.Counted :=
  ⟨⟨trivial, trivial⟩, ⟨⟨⟨trivial, trivial⟩, trivial⟩, ⟨⟨⟨trivial, trivial⟩, trivial⟩, trivial⟩⟩⟩

/-- What `parse_header` returns where the name and the value have been read. -/
lemma run_parseHeader (hline : counted line = name ++ ':' :: ' ' :: (value ++ t))
    (hname : IsToken name) (hvalue : ∀ c ∈ value, endsValue c = false) (ht : ∀ c ∈ t.head?, c = ';')
    (hkey : ∀ hdr, ∃ u, Rejects (counted line) parameterKey () t hdr u hdr)
    (hfuel : (counted line).length + 1 < fuel) :
    ∃ p : Parser (List Char × Header),
      run line fuel (parseHeader line) (.ofText line) () = .ok (p, ()) ∧ p.err = false ∧
        p.res = (name, ⟨value, []⟩) := by
  have hends : ∀ c ∈ t.head?, endsValue c = true := fun c hc => by rw [ht c hc]; rfl
  have haccepts := nameValue_accepts (s := counted line) hname.no_colon hvalue hends
  have hstart := before_counted line
  obtain ⟨q, hq, hbefore, hres⟩ := haccepts fuel (hline ▸ hfuel) _
    ⟨hstart.fits, hstart.err, hstart.rest_eq.trans hline⟩ rfl
  have hrun : run line fuel nameValue (.ofText line) () = .ok (q, ()) := by
    rw [run_counted nameValue nameValue_counted fuel () hstart.fits, hq]
  have hlen := congrArg List.length hline
  simp only [List.length_append, List.length_cons] at hlen
  have hfuel' : t.length + 1 < fuel := by omega
  obtain ⟨q', hq', herr⟩ := run_parameters hbefore hfuel' ht (hkey ⟨q.res.2.1, []⟩)
  refine ⟨q'.withRes (q.res.1, ⟨q.res.2.1, []⟩), ?_, rfl, ?_⟩
  · have hchain : run line fuel (parseHeader line) (.ofText line) () =
        run line fuel nameValue (.ofText line) () >>= fun x =>
          if x.1.err then .ok (x.1.cast, x.2) else
            run line fuel (parameters line) x.1 ⟨x.1.res.2.1, []⟩ >>= fun y =>
              .ok (y.1.withRes (x.1.res.1, y.2), x.2) := rfl
    rw [hchain, hrun, Run.bind_ok]
    dsimp only
    rw [hbefore.err, if_neg Bool.false_ne_true, hq']
    rfl
  · rw [hres]
    rfl

/-- A line that is cut before its value starts is refused. -/
lemma not_parsesTo_of_cut (hline : counted line = name ++ t) (hname : ∀ c ∈ name, c ≠ ':')
    (ht : t = [] ∨ t = [':']) : ¬ParsesTo line hdr := by
  rintro ⟨n, hn⟩
  obtain ⟨p, hp, herr, -⟩ := hn (n + (counted line).length + 2) (by omega)
  obtain ⟨u, hu⟩ := nameValue_rejects (s := counted line) hname ht
  rw [← hline] at hu
  obtain ⟨q, hq, herr'⟩ := rejects_counted hu nameValue_counted
    (show (counted line).length + 1 < n + (counted line).length + 2 by omega)
    (before_counted line) rfl
  have hchain : run line (n + (counted line).length + 2) (parseHeader line) (.ofText line) () =
      .ok (q.cast, ()) := by
    have hq' : run line (n + (counted line).length + 2) nameValue (.ofText line) () = .ok (q, ()) := hq
    show (run line _ nameValue _ _ >>= _) = _
    rw [hq', Run.bind_ok]
    dsimp only
    rw [herr', if_pos rfl]
  rw [hchain] at hp
  cases hp
  exact Bool.false_ne_true (herr.symm.trans herr')

/-- What is counted of a header line. -/
lemma counted_headerLine (name value : List Char) (params : List (List Char × ParameterValue)) :
    (∃ k t, counted (headerLine name value params) = name.take k ++ t ∧ (t = [] ∨ t = [':']) ∧
      (headerLine name value params).length % 2 ^ 32 < name.length + 2) ∨
    ∃ k, counted (headerLine name value params) = name ++ ':' :: ' ' ::
      (value.take k ++ (parametersText params).take (k - value.length)) ∧
      name.length + 2 + k = (headerLine name value params).length % 2 ^ 32 := by
  unfold counted
  generalize hℓ : (headerLine name value params).length % 2 ^ 32 = ℓ
  rw [headerLine, List.take_append]
  rcases hk : ℓ - name.length with _ | _ | k
  · exact .inl ⟨ℓ, [], rfl, .inl rfl, by omega⟩
  · exact .inl ⟨ℓ, [':'], rfl, .inr rfl, by omega⟩
  · refine .inr ⟨k, ?_, by omega⟩
    rw [List.take_of_length_le (by omega), List.take_succ_cons, List.take_succ_cons,
      List.take_append]

/-- What can be left of the parameters when the line is cut. -/
lemma take_parametersText (hparams : ∀ x ∈ params, IsToken x.1 ∧ x.2.IsValid) (k : ℕ) :
    (parametersText params).take k = [] ∨ ∃ w key t,
      (parametersText params).take k = ';' :: (w ++ (key ++ t)) ∧
      (∀ c ∈ w, c = ' ') ∧ (∀ c ∈ key, isWS c = false ∧ c ≠ '=') ∧ ∀ c ∈ t.head?, c = '=' := by
  cases params with
  | nil => exact .inl List.take_nil
  | cons x params =>
    have htext : parametersText (x :: params) =
        ';' :: ' ' :: (x.1 ++ '=' :: (x.2.text ++ parametersText params)) := by
      simp [parametersText]
    rw [htext]
    exact take_parameter (hparams x List.mem_cons_self).1 _ k

lemma ParsesTo.unique {x : List Char × Header} {N : ℕ}
    (hrun : ∀ fuel ≥ N, ∃ p : Parser (List Char × Header),
      run line fuel (parseHeader line) (.ofText line) () = .ok (p, ()) ∧ p.err = false ∧ p.res = x) :
    ParsesTo line hdr ↔ x = hdr := by
  constructor
  · rintro ⟨n, hn⟩
    obtain ⟨p, hp, -, hres⟩ := hrun (max n N) (le_max_right _ _)
    obtain ⟨q, hq, -, hres'⟩ := hn (max n N) (le_max_left _ _)
    cases hp.symm.trans hq
    exact hres.symm.trans hres'
  · rintro rfl
    exact ⟨N, hrun⟩

/-- Every key stands before its `=` without the whitespace that the grammar asks for. A line from
2^32 characters on is cut. -/
theorem parse_header_iff (hname : IsToken name) (hvalue : IsToken value)
    (hparams : ∀ x ∈ params, IsToken x.1 ∧ x.2.IsValid) :
    ParsesTo (headerLine name value params)
      (name, ⟨value, params.map fun x => (x.1, x.2.content)⟩) ↔
    params = [] ∧ (headerLine name value params).length < 2 ^ 32 := by
  have hlen : (headerLine name value params).length =
      name.length + 2 + (value.length + (parametersText params).length) := by
    simp only [headerLine, List.length_append, List.length_cons]
    omega
  rcases counted_headerLine name value params with ⟨k, t, hcut, ht, hshort⟩ | ⟨k, hcut, hk⟩
  · have hcolon : ∀ c ∈ name.take k, c ≠ ':' := fun c hc =>
      hname.no_colon c (List.mem_of_mem_take hc)
    refine iff_of_false (not_parsesTo_of_cut hcut hcolon ht) fun hall => ?_
    rw [Nat.mod_eq_of_lt hall.2] at hshort
    omega
  · have hcut' := take_parametersText hparams (k - value.length)
    have hhead : ∀ c ∈ ((parametersText params).take (k - value.length)).head?, c = ';' := by
      rcases hcut' with hnil | ⟨w, key, t, hsemi, -⟩
      · simp [hnil]
      · rw [hsemi]
        simp
    have hkey : ∀ hdr, ∃ u, Rejects (counted (headerLine name value params)) parameterKey ()
        ((parametersText params).take (k - value.length)) hdr u hdr := by
      intro hdr
      rcases hcut' with hnil | ⟨w, key, t, hsemi, hw, hkey, ht⟩
      · rw [hnil]
        exact ⟨[], (rejects_match (by simp)).chain.chain⟩
      · rw [hsemi]
        exact parameterKey_rejects hw hkey ht
    have hrun := fun fuel (hfuel : fuel ≥ (counted (headerLine name value params)).length + 2) =>
      run_parseHeader hcut hname (fun c hc => hvalue.in_value c (List.mem_of_mem_take hc)) hhead hkey
        hfuel
    rw [ParsesTo.unique hrun]
    simp only [Prod.mk.injEq, Header.mk.injEq, true_and, List.nil_eq, List.map_eq_nil_iff,
      List.take_eq_self_iff]
    constructor
    · rintro ⟨hle, rfl⟩
      have hmod := Nat.mod_le (headerLine name value []).length (2 ^ 32)
      have hlt := Nat.mod_lt (headerLine name value []).length (show 0 < 2 ^ 32 by decide)
      rw [show parametersText [] = [] from rfl, List.length_nil] at hlen
      exact ⟨rfl, by omega⟩
    · rintro ⟨rfl, hshort⟩
      rw [Nat.mod_eq_of_lt hshort] at hk
      exact ⟨by omega, rfl⟩

end line

lemma isToken_of_decide {s : List Char} (hne : s ≠ [])
    (h : s.all fun c => c ∉ ['\r', '\n', ' ', '\x00', ':', ',', ';', '=', '"']) : IsToken s := by
  refine ⟨hne, fun c hc => ?_⟩
  simpa using List.all_eq_true.1 h c hc

/-- `Content-Length: 5`. -/
theorem parse_header_iff_example :
    ParsesTo (headerLine "Content-Length".toList "5".toList []) ("Content-Length".toList,
      ⟨"5".toList, []⟩) := by
  have hname : IsToken "Content-Length".toList := isToken_of_decide (by decide) (by decide)
  have hvalue : IsToken "5".toList := isToken_of_decide (by decide) (by decide)
  exact (parse_header_iff hname hvalue (by simp)).2 ⟨rfl, by decide⟩

/-- `A: b; k=v`. -/
theorem parameter_dropped : ¬∀ (name value : List Char) (params : List (List Char × ParameterValue)),
    IsToken name → IsToken value → (∀ x ∈ params, IsToken x.1 ∧ x.2.IsValid) →
    ParsesTo (headerLine name value params)
      (name, ⟨value, params.map fun x => (x.1, x.2.content)⟩) := by
  intro h
  have htoken : ∀ c ∈ ['A', 'b', 'k', 'v'], IsToken [c] := by
    intro c hc
    refine isToken_of_decide (by simp) ?_
    fin_cases hc <;> decide
  let params := [(['k'], ParameterValue.token ['v'])]
  obtain ⟨n, hn⟩ := h ['A'] ['b'] params (htoken _ (by simp)) (htoken _ (by simp))
    (by simp [params, ParameterValue.IsValid, htoken])
  have hcounted : counted (headerLine ['A'] ['b'] params) =
      ['A'] ++ ':' :: ' ' :: (['b'] ++ "; k=v".toList) := by decide
  have hkey : ∀ hdr, ∃ u, Rejects (counted (headerLine ['A'] ['b'] params)) parameterKey ()
      (';' :: ([' '] ++ (['k'] ++ ['=', 'v']))) hdr u hdr := fun hdr =>
    parameterKey_rejects (by simp) (by simp [isWS]) (by simp)
  generalize hfuel : n + (counted (headerLine ['A'] ['b'] params)).length + 2 = fuel
  obtain ⟨p, hp, -, hres⟩ := run_parseHeader hcounted (htoken _ (by simp)) (by simp [endsValue, isWS])
    (by simp) hkey (show _ < fuel by omega)
  obtain ⟨q, hq, -, hres'⟩ := hn fuel (by omega)
  obtain ⟨rfl, -⟩ := Prod.mk.inj (Except.ok.inj (hp.symm.trans hq))
  have hextra := congrArg (fun x => x.2.extra) (hres.symm.trans hres')
  simp [params] at hextra

end CoreCommon.Server
