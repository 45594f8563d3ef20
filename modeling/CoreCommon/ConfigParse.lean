import CoreCommon.Config

/-! What the grammar of configuration files reads, entry by entry. Its one defect is the body
of a string: the lookahead for no quote consumes nothing, so the loop around it never ends at
any other character, nor at the end of the text. -/
namespace CoreCommon.Config
open NumberText ParseMap

/-! ### Parts of an entry -/

section readings
variable {t u : List Char}

lemma reading_match (m : String) (t : List Char) : reading (.match_ m) () t =
    if m.toList.isPrefixOf t then .ok () (t.drop m.toList.length) else .fail t := rfl

lemma reading_skip {A B : Type} [Inhabited B] (x : ParseMap Unit A B) (y : ParseMap Unit Unit Unit)
    (a : A) (t : List Char) : reading (ParseMap.skip x y) a t =
      (reading x a t).bind fun b u => (reading y () u).bind fun _ v => .ok b v := rfl

lemma reading_chain {A B C : Type} [Inhabited C] (x : ParseMap Unit A B) (y : ParseMap Unit B C)
    (a : A) (t : List Char) : reading (.chain x y) a t = (reading x a t).bind (reading y) := rfl

lemma reading_or_ok {A B : Type} {l : ParseMap Unit A B} {a : A} {b : B}
    (h : reading l a t = .ok b u) (r : ParseMap Unit A B) : reading (.or l r) a t = .ok b u := by
  unfold reading
  rw [h]

lemma reading_or_fail {A B : Type} {l : ParseMap Unit A B} {a : A}
    (h : reading l a t = .fail u) (r : ParseMap Unit A B) :
    reading (.or l r) a t = reading r a t := by
  conv_lhs => unfold reading
  rw [h]

/-- A `Match` of one character. -/
lemma reading_char {m : String} {c : Char} (hm : m.toList = [c]) (t : List Char) :
    reading (.match_ m) () t = if t.head? = some c then .ok () t.tail else .fail t := by
  rw [reading_match, hm]
  cases t with
  | nil => rfl
  | cons d t =>
    by_cases h : c = d
    · subst h
      simp
    · simp [h, Ne.symm h]

lemma reading_newline (t : List Char) : reading newline () t = .ok () (readNewline t) := by
  have honce : reading newline () t =
      (Reading.once (reading (.or (.match_ "\r") (.match_ "\n")) ()) 0 [] t).bind
        fun _ u => .ok () u := rfl
  rw [honce, Reading.once, readNewline]
  have hr := reading_char (show "\r".toList = ['\r'] from rfl) t
  have hn := reading_char (show "\n".toList = ['\n'] from rfl) t
  by_cases hret : t.head? = some '\r'
  · rw [if_pos hret] at hr
    rw [reading_or_ok hr, if_pos (.inl hret)]
    rfl
  · rw [if_neg hret] at hr
    rw [reading_or_fail hr, hn]
    by_cases hnew : t.head? = some '\n'
    · rw [if_pos hnew, if_pos (.inr hnew)]
      rfl
    · rw [if_neg hnew, if_neg (not_or.2 ⟨hret, hnew⟩)]
      rfl

lemma reading_skipWS (t : List Char) : reading (manyOf .parseWS) () t = .ok () (skipWS t) := by
  rw [reading_manyOf]
  induction t with
  | nil => exact Reading.many_fail (u := []) rfl
  | cons c t ih =>
    by_cases hc : isWS c = true
    · have hok : reading .parseWS () (c :: t) = .ok () t := by
        have hmem : c ∈ ['\r', '\n', ' ', '\x00'] := of_decide_eq_true hc
        unfold reading
        rw [if_pos ⟨List.cons_ne_nil c t, hmem⟩]
        rfl
      rw [Reading.many_ok hok (Nat.lt_succ_self _), ih, skipWS, skipWS, List.dropWhile_cons_of_pos hc]
    · have hfail : reading .parseWS () (c :: t) = .fail (c :: t) := by
        unfold reading
        rw [if_neg fun hand => hc (decide_eq_true hand.2)]
      rw [Reading.many_fail hfail, skipWS, List.dropWhile_cons_of_neg hc]

lemma reading_sep (t : List Char) : reading sep () t =
    match readSep t with
    | some u => .ok () u
    | none => .fail (skipWS t) := by
  unfold sep readSep
  rw [reading_chain, reading_chain, reading_skipWS, Reading.bind_ok,
    reading_char (show "=".toList = ['='] from rfl)]
  by_cases h : (skipWS t).head? = some '='
  · rw [if_pos h, if_pos h]
    exact reading_skipWS _
  · rw [if_neg h, if_neg h]
    rfl

/-! ### Keys -/

/-- One round of the loop over a key. -/
lemma reading_keyStep (t : List Char) : reading (.chain (.not (.lookAhead sep)) .any) () t =
    if readSep t = none ∧ t ≠ [] then .ok () t.tail else .fail t := by
  rw [reading_chain]
  have hnot : reading (.not (.lookAhead sep)) () t =
      if readSep t = none then .ok () t else .fail t := by
    unfold reading reading
    rw [reading_sep]
    cases readSep t <;> rfl
  have hany : reading .any () t = if t = [] then .fail t else .ok () t.tail := rfl
  rw [hnot]
  by_cases hsep : readSep t = none
  · rw [if_pos hsep, Reading.bind_ok, hany]
    by_cases ht : t = []
    · rw [if_pos ht, if_neg fun hand => hand.2 ht]
    · rw [if_neg ht, if_pos ⟨hsep, ht⟩]
  · rw [if_neg hsep, if_neg fun hand => hsep hand.1]
    rfl

/-- The loop over a key stops at the first separator or at the end. -/
lemma reading_keyLoop (t : List Char) :
    match readKey t with
    | some (k, u) => ∃ w, Reading.many (reading (.chain (.not (.lookAhead sep)) .any) ()) t =
        .ok () w ∧ t = k ++ w ∧ readSep w = some u
    | none => Reading.many (reading (.chain (.not (.lookAhead sep)) .any) ()) t = .ok () [] := by
  induction t with
  | nil => exact Reading.many_fail (u := []) (reading_keyStep [])
  | cons c t ih =>
    have hstep := reading_keyStep (c :: t)
    unfold readKey
    cases hsep : readSep (c :: t) with
    | some u =>
      rw [hsep, if_neg (by simp)] at hstep
      exact ⟨c :: t, Reading.many_fail hstep, rfl, hsep⟩
    | none =>
      rw [hsep, if_pos ⟨rfl, List.cons_ne_nil c t⟩] at hstep
      have hmany := Reading.many_ok hstep (Nat.lt_succ_self _)
      cases hkey : readKey t with
      | some x =>
        rw [hkey] at ih
        obtain ⟨w, hw, ht, hu⟩ := ih
        refine ⟨w, hmany.trans hw, ?_, hu⟩
        rw [ht]
        rfl
      | none =>
        rw [hkey] at ih
        exact hmany.trans ih

lemma reading_key (t : List Char) :
    match readKey (skipWS t) with
    | some (k, u) => reading key () t = .ok k u
    | none => ∃ u, reading key () t = .fail u := by
  unfold key
  rw [reading_chain, reading_skipWS, Reading.bind_ok, reading_skip]
  have hloop := reading_keyLoop (skipWS t)
  have hstring : reading (.parseString (manyOf (.chain (.not (.lookAhead sep)) .any))) ()
      (skipWS t) = (Reading.many (reading (.chain (.not (.lookAhead sep)) .any) ()) (skipWS t)).bind
        fun _ u => .ok ((skipWS t).take ((skipWS t).length - u.length)) u := by
    rw [← reading_manyOf]
    rfl
  rw [hstring]
  cases hkey : readKey (skipWS t) with
  | some x =>
    rw [hkey] at hloop
    obtain ⟨w, hw, ht, hu⟩ := hloop
    have htake : (skipWS t).take ((skipWS t).length - w.length) = x.1 := by
      rw [ht, List.length_append, Nat.add_sub_cancel, List.take_left']
      rfl
    rw [hw, Reading.bind_ok, Reading.bind_ok, reading_sep, hu, htake]
    rfl
  | none =>
    rw [hkey] at hloop
    refine ⟨[], ?_⟩
    rw [hloop, Reading.bind_ok, Reading.bind_ok, reading_sep]
    rfl

/-! ### Values -/

/-- One round of the loop over a string. -/
lemma reading_quotedStep (t : List Char) :
    reading (.or (.chain (.match_ "\\") .any) (.not (.match_ "\""))) () t =
      if t.head? = some '\\' ∧ t.tail ≠ [] then .ok () t.tail.tail
      else if t.head? = some '"' then .fail t.tail else .ok () t := by
  have hescape := reading_char (show "\\".toList = ['\\'] from rfl) t
  have hquote := reading_char (show "\"".toList = ['"'] from rfl) t
  have hany : ∀ u, reading .any () u = if u = [] then .fail u else .ok () u.tail := fun u => rfl
  have hnot : reading (.not (.match_ "\"")) () t =
      if t.head? = some '"' then .fail t.tail else .ok () t := by
    conv_lhs => unfold reading
    rw [hquote]
    split_ifs <;> rfl
  by_cases hhead : t.head? = some '\\'
  · rw [if_pos hhead] at hescape
    by_cases htail : t.tail = []
    · have hfail : reading (.chain (.match_ "\\") .any) () t = .fail t.tail := by
        rw [reading_chain, hescape, Reading.bind_ok, hany, if_pos htail]
      rw [reading_or_fail hfail, hnot]
      exact (if_neg fun hand => hand.2 htail).symm
    · have hok : reading (.chain (.match_ "\\") .any) () t = .ok () t.tail.tail := by
        rw [reading_chain, hescape, Reading.bind_ok, hany, if_neg htail]
      rw [reading_or_ok hok, if_pos ⟨hhead, htail⟩]
  · rw [if_neg hhead] at hescape
    have hfail : reading (.chain (.match_ "\\") .any) () t = .fail t := by
      rw [reading_chain, hescape]
      rfl
    rw [reading_or_fail hfail, hnot]
    exact (if_neg fun hand => hhead hand.1).symm

/-- The loop over a string ends at a quote behind escaped pairs, and nowhere else. -/
lemma reading_quoted (t : List Char) :
    match readQuoted t with
    | some (b, u) => reading quoted () t = .ok () ('"' :: u) ∧ t = b ++ '"' :: u
    | none => reading quoted () t = .hang := by
  unfold quoted
  rw [reading_manyOf]
  induction t using readQuoted.induct with
  | case1 t => exact ⟨Reading.many_fail (u := t) (reading_quotedStep _), rfl⟩
  | case2 c t ih =>
    have hstep := reading_quotedStep ('\\' :: c :: t)
    rw [if_pos ⟨rfl, List.cons_ne_nil c t⟩] at hstep
    have hmany := Reading.many_ok hstep (by simp only [List.tail_cons, List.length_cons]; omega)
    rw [readQuoted, hmany]
    cases hquoted : readQuoted t with
    | some x =>
      rw [hquoted] at ih
      exact ⟨ih.1, congrArg (fun w => '\\' :: c :: w) ih.2⟩
    | none =>
      rw [hquoted] at ih
      exact ih
  | case3 t hquote hescape =>
    rw [readQuoted.eq_3 t hquote hescape]
    have hstep := reading_quotedStep t
    rw [if_neg, if_neg] at hstep
    · exact Reading.many_stuck hstep
    · intro h
      obtain ⟨u, hu⟩ := List.head?_eq_some_iff.1 h
      exact hquote u hu
    · rintro ⟨h, htail⟩
      obtain ⟨u, rfl⟩ := List.head?_eq_some_iff.1 h
      obtain ⟨c, v, hv⟩ := List.exists_cons_of_ne_nil htail
      exact hescape c v (congrArg (List.cons '\\') hv)

lemma reading_parseQuoted (t : List Char) : reading parseQuoted () t =
    if t.head? = some '"' then
      match readQuoted t.tail with
      | some (b, u) => .ok b (readNewline u)
      | none => .hang
    else .fail t := by
  have hquote : ∀ u, reading (.match_ "\"") () u =
      if u.head? = some '"' then .ok () u.tail else .fail u :=
    reading_char (show "\"".toList = ['"'] from rfl)
  have hstring : ∀ u, reading (.parseString quoted) () u =
      (reading quoted () u).bind fun _ v => .ok (u.take (u.length - v.length)) v := fun _ => rfl
  unfold parseQuoted
  rw [reading_skip, reading_chain, hquote]
  by_cases h : t.head? = some '"'
  · rw [if_pos h, if_pos h, Reading.bind_ok, hstring]
    have hquoted := reading_quoted t.tail
    cases hread : readQuoted t.tail with
    | some x =>
      rw [hread] at hquoted
      obtain ⟨hok, ht⟩ := hquoted
      have htake : t.tail.take (t.tail.length - ('"' :: x.2).length) = x.1 := by
        rw [ht, List.length_append, Nat.add_sub_cancel, List.take_left']
        rfl
      have hend : reading (.chain (.match_ "\"") newline) () ('"' :: x.2) =
          .ok () (readNewline x.2) := by
        rw [reading_chain, hquote, List.head?_cons, if_pos rfl, Reading.bind_ok]
        exact reading_newline x.2
      rw [hok, Reading.bind_ok, Reading.bind_ok, hend, Reading.bind_ok, htake]
    | none =>
      rw [hread] at hquoted
      rw [hquoted]
      rfl
  · rw [if_neg h, if_neg h]
    rfl

/-- A number with the line end behind it. -/
lemma reading_number {N : Type} [Inhabited N] {e : ParseMap Unit Unit N}
    {read : List Char → N × ℕ} (he : ∀ t, reading e () t = numberReading read t) (f : N → Variant)
    (t : List Char) : reading (.chain (ParseMap.skip e newline) (toValue f)) () t =
      if (read t).2 = 0 then .fail t
      else .ok ⟨false, f (read t).1⟩ (readNewline (t.drop (read t).2)) := by
  rw [reading_chain, reading_skip, he, numberReading]
  by_cases h : (read t).2 = 0
  · rw [if_pos h, if_pos h]
    rfl
  · rw [if_neg h, if_neg h, Reading.bind_ok, reading_newline]
    rfl

lemma reading_bool (t : List Char) :
    reading (ParseMap.skip (.or (.chain (.match_ "true") (toValue fun _ => .bool true))
      (.chain (.match_ "false") (toValue fun _ => .bool false))) newline) () t =
    if "true".toList.isPrefixOf t then .ok ⟨false, .bool true⟩ (readNewline (t.drop 4))
    else if "false".toList.isPrefixOf t then .ok ⟨false, .bool false⟩ (readNewline (t.drop 5))
    else .fail t := by
  have hchain : ∀ (m : String) (b : Bool), reading (.chain (.match_ m) (toValue fun _ => .bool b)) ()
      t = if m.toList.isPrefixOf t then .ok ⟨false, .bool b⟩ (t.drop m.toList.length)
        else .fail t := by
    intro m b
    rw [reading_chain, reading_match]
    split_ifs <;> rfl
  have htrue := hchain "true" true
  have hfalse := hchain "false" false
  rw [reading_skip]
  by_cases ht : "true".toList.isPrefixOf t
  · rw [if_pos ht] at htrue
    rw [reading_or_ok htrue, if_pos ht, Reading.bind_ok, reading_newline]
    rfl
  · rw [if_neg ht] at htrue
    rw [reading_or_fail htrue, hfalse, if_neg ht]
    by_cases hf : "false".toList.isPrefixOf t
    · rw [if_pos hf, if_pos hf, Reading.bind_ok, reading_newline]
      rfl
    · rw [if_neg hf, if_neg hf]
      rfl

/-- What stands where a value is expected: a value, or a string that has no end, or neither. -/
lemma reading_value (t : List Char) :
    match readValue t with
    | some (v, u) => reading value () t = .ok ⟨false, v⟩ u
    | none => if t.head? = some '"' then reading value () t = .hang
      else ∃ u, reading value () t = .fail u := by
  have hlong := reading_number (e := .parseInt) (fun _ => rfl) .long t
  have hfloat := reading_number (e := .parseFloat) (fun _ => rfl) .float t
  have hbool := reading_bool t
  have hquoted : reading (.chain parseQuoted (toValue .string)) () t =
      (reading parseQuoted () t).bind fun b u => .ok ⟨false, .string b⟩ u := rfl
  unfold value readValue
  by_cases hl : (strtol t).2 = 0
  · rw [if_pos hl] at hlong
    rw [if_neg (not_not.2 hl)]
    by_cases hf : (strtof t).2 = 0
    · rw [if_pos hf] at hfloat
      rw [if_neg (not_not.2 hf)]
      by_cases htrue : "true".toList.isPrefixOf t
      · rw [if_pos htrue] at hbool ⊢
        exact reading_or_ok ((reading_or_fail ((reading_or_fail hlong _).trans hfloat) _).trans hbool) _
      · rw [if_neg htrue] at hbool ⊢
        by_cases hfalse : "false".toList.isPrefixOf t
        · rw [if_pos hfalse] at hbool ⊢
          exact reading_or_ok
            ((reading_or_fail ((reading_or_fail hlong _).trans hfloat) _).trans hbool) _
        · rw [if_neg hfalse] at hbool ⊢
          have hnone := (reading_or_fail ((reading_or_fail hlong _).trans hfloat) _).trans hbool
          have hlast := (reading_or_fail hnone (.chain parseQuoted (toValue .string))).trans hquoted
          rw [reading_parseQuoted] at hlast
          by_cases hq : t.head? = some '"'
          · rw [if_pos hq] at hlast ⊢
            cases hread : readQuoted t.tail with
            | some x =>
              rw [hread] at hlast
              exact hlast
            | none =>
              rw [hread] at hlast
              dsimp only [Option.map_none]
              rw [if_pos hq]
              exact hlast
          · rw [if_neg hq] at hlast ⊢
            dsimp only
            rw [if_neg hq]
            exact ⟨t, hlast⟩
    · rw [if_neg hf] at hfloat
      rw [if_pos hf]
      exact reading_or_ok (reading_or_ok ((reading_or_fail hlong _).trans hfloat) _) _
  · rw [if_neg hl] at hlong
    rw [if_pos hl]
    exact reading_or_ok (reading_or_ok (reading_or_ok hlong _) _) _

/-! ### Entries -/

lemma reading_entry_eq (t : List Char) : reading entry () t =
    (reading key () t).bind fun k u => (reading value () u).bind fun v w => .ok (k, v, ()) w := by
  have hentry : reading entry () t = (reading key () t).bind fun k u =>
      ((reading value () u).bind fun v w => .ok (v, ()) w).bind fun x w => .ok (k, x) w := rfl
  rw [hentry]
  cases reading key () t with
  | ok k u =>
    rw [Reading.bind_ok, Reading.bind_ok]
    cases reading value () u <;> rfl
  | fail u => rfl
  | hang => rfl

lemma reading_entry_ok {e : List Char × Value} (h : readEntry t = some (e, u)) :
    reading entry () t = .ok (e.1, e.2, ()) u := by
  obtain ⟨k, hk, h⟩ := Option.bind_eq_some_iff.1 h
  obtain ⟨v, hv, hvu⟩ := Option.map_eq_some_iff.1 h
  obtain ⟨rfl, rfl⟩ := Prod.mk.inj hvu
  have hkey := reading_key t
  have hvalue := reading_value k.2
  rw [hk] at hkey
  rw [hv] at hvalue
  rw [reading_entry_eq, hkey, Reading.bind_ok, hvalue]
  rfl

lemma strtol_quote (u : List Char) : (strtol ('"' :: u)).2 = 0 := by
  simp [strtol, isSpace, sign]

lemma strtof_quote (u : List Char) : (strtof ('"' :: u)).2 = 0 := by
  simp [strtof, isSpace, sign, unsignedFloat, startsNoCase, decimal, mantissa]

lemma readValue_quote (u : List Char) : readValue ('"' :: u) =
    (readQuoted u).map fun x => (.string x.1, readNewline x.2) := by
  unfold readValue
  rw [strtol_quote, strtof_quote]
  simp

lemma reading_entry_hang {k : List Char} (hkey : readKey (skipWS t) = some (k, '"' :: u))
    (hquoted : readQuoted u = none) : reading entry () t = .hang := by
  have hk := reading_key t
  have hvalue := reading_value ('"' :: u)
  rw [hkey] at hk
  rw [readValue_quote, hquoted] at hvalue
  dsimp only [Option.map_none] at hvalue
  rw [List.head?_cons, if_pos rfl] at hvalue
  rw [reading_entry_eq, hk, Reading.bind_ok, hvalue]
  rfl

lemma reading_entry_fail (h : readEntry t = none) (hstalls : ¬ Stalls t) :
    ∃ u, reading entry () t = .fail u := by
  have hkey := reading_key t
  rw [reading_entry_eq]
  unfold readEntry at h
  cases hk : readKey (skipWS t) with
  | none =>
    rw [hk] at hkey
    obtain ⟨u, hu⟩ := hkey
    exact ⟨u, by rw [hu]; rfl⟩
  | some x =>
    rw [hk] at hkey h
    have hnone : readValue x.2 = none := Option.map_eq_none_iff.1 h
    have hvalue := reading_value x.2
    rw [hnone] at hvalue
    dsimp only at hvalue
    by_cases hquote : x.2.head? = some '"'
    · obtain ⟨u, hu⟩ := List.head?_eq_some_iff.1 hquote
      rw [hu, readValue_quote] at hnone
      exact absurd (.here (hk.trans (congrArg (fun w => some (x.1, w)) hu))
        (Option.map_eq_none_iff.1 hnone)) hstalls
    · rw [if_neg hquote] at hvalue
      obtain ⟨u, hu⟩ := hvalue
      exact ⟨u, by rw [hkey, Reading.bind_ok, hu]; rfl⟩

def toTuple (e : List Char × Value) : List Char × Value × Unit := (e.1, e.2, ())

lemma readEntries_some {e : List Char × Value} (h : readEntry t = some (e, u)) :
    readEntries t = (e :: (readEntries u).1, (readEntries u).2) := by
  rw [readEntries]
  split
  · rename_i h'
    obtain ⟨rfl, rfl⟩ := Prod.mk.inj (Option.some.inj (h'.symm.trans h))
    rfl
  · rename_i h'
    cases h'.symm.trans h

lemma readEntries_none (h : readEntry t = none) : readEntries t = ([], t) := by
  rw [readEntries]
  split
  · rename_i h'
    cases h'.symm.trans h
  · rfl

lemma reading_entries_hang (h : Stalls t) :
    Reading.all (reading entry ()) 0 0 [] t = .hang := by
  induction h with
  | here hkey hquoted => exact Reading.all_hang (reading_entry_hang hkey hquoted)
  | later hentry _ ih =>
    rw [Reading.all_ok (reading_entry_ok hentry) (readEntry_lt hentry), ih]
    rfl

lemma reading_entries (h : ¬ Stalls t) : Reading.all (reading entry ()) 0 0 [] t =
    .ok ((readEntries t).1.map toTuple) (readEntries t).2 := by
  induction hn : t.length using Nat.strong_induction_on generalizing t with
  | _ n ih =>
    cases hentry : readEntry t with
    | some x =>
      have hlt := readEntry_lt hentry
      rw [readEntries_some hentry, Reading.all_ok (reading_entry_ok hentry) hlt,
        ih _ (hn ▸ hlt) (fun hrest => h (.later hentry hrest)) rfl]
      rfl
    | none =>
      obtain ⟨u, hu⟩ := reading_entry_fail hentry h
      rw [readEntries_none hentry, Reading.all_fail hu]
      rfl

lemma reading_grammar_hang (h : Stalls t) : reading grammar () t = .hang := by
  rw [grammar, reading_skip, reading_multipleOf, reading_entries_hang h]
  rfl

lemma reading_grammar (h : ¬ Stalls t) : reading grammar () t =
    if WellFormed t then .ok ((readEntries t).1.map toTuple) []
    else .fail (skipWS (readEntries t).2) := by
  have hend : ∀ u, reading (.chain (manyOf .parseWS) .parseEOF) () u =
      if skipWS u = [] then .ok () (skipWS u) else .fail (skipWS u) := by
    intro u
    rw [reading_chain, reading_skipWS]
    rfl
  rw [grammar, reading_skip, reading_multipleOf, reading_entries h, Reading.bind_ok, hend]
  by_cases hwell : WellFormed t
  · have hnil : skipWS (readEntries t).2 = [] := hwell
    rw [if_pos hwell, hnil, if_pos rfl]
    rfl
  · have hne : ¬ skipWS (readEntries t).2 = [] := hwell
    rw [if_neg hwell, if_neg hne]
    rfl

end readings

/-! ### Parsing -/

section parsing
variable {hash : List Char → UInt64} {m : Values} {str : List Char}

/-- The parser returns; on an error the map is as it was, and otherwise it holds the parsed
pairs over its former entries, later ones winning, and each key once. -/
def Settles (hash : List Char → UInt64) (m : Values) (str : List Char) : Prop :=
  ∃ n m', ∀ fuel ≥ n, ∃ p, run (cStr str) fuel grammar (.ofText (cStr str)) () = .ok (p, ()) ∧
    parse hash fuel m str = .ok m' ∧
    (p.err = true → m' = m) ∧ (p.err = false → Map.Overlaid m m' (pairs p.res))

lemma grammar_plain : grammar.Plain := by
  have hmany : sizeMax = 1 ∨ 4294967296 ≤ sizeMax := .inr (by decide)
  simp [grammar, entry, key, value, sep, newline, parseQuoted, quoted, toValue, ParseMap.skip,
    manyOf, multipleOf, Plain, hmany]

lemma before_ofText {s : List Char} (hshort : s.length < 2 ^ 32) :
    Before s s (.ofText s : Parser Unit) :=
  ⟨(Nat.zero_add _).trans (Nat.mod_eq_of_lt hshort), rfl, rfl⟩

lemma pairs_toTuple (l : List (List Char × Value)) : pairs (l.map toTuple) = l := by
  unfold pairs
  rw [List.map_map]
  exact List.map_id l

/-- The runs of the grammar on a short text. -/
lemma grammar_meets (hshort : (cStr str).length < 2 ^ 32) {fuel : ℕ}
    (hfuel : (cStr str).length + 1 < fuel) :
    Meets (cStr str) (run (cStr str) fuel grammar (.ofText (cStr str)) ())
      (reading grammar () (cStr str)) :=
  run_reading grammar grammar_plain (before_ofText hshort) hfuel

lemma Settles.not_stalls (hshort : (cStr str).length < 2 ^ 32) (h : Settles hash m str) :
    ¬ Stalls (cStr str) := by
  intro hstalls
  obtain ⟨n, m', h⟩ := h
  obtain ⟨p, hrun, -⟩ := h (max n ((cStr str).length + 2)) (le_max_left _ _)
  have hmeets := grammar_meets hshort (lt_of_lt_of_le (Nat.lt_succ_self _)
    (le_max_right n ((cStr str).length + 2)))
  rw [reading_grammar_hang hstalls] at hmeets
  exact nomatch hrun.symm.trans hmeets.of_hang

/-- `Config::parse` on a text that the grammar gets through. -/
lemma parse_eq (hash : List Char → UInt64) (m : Values) (hshort : (cStr str).length < 2 ^ 32) (hstalls : ¬ Stalls (cStr str)) {fuel : ℕ}
    (hfuel : (cStr str).length + 1 < fuel) :
    ∃ p, run (cStr str) fuel grammar (.ofText (cStr str)) () = .ok (p, ()) ∧
      (WellFormed (cStr str) ∧ p.err = false ∧ pairs p.res = (readEntries (cStr str)).1 ∧
        parse hash fuel m str = m.insertAll hash fuel (readEntries (cStr str)).1 ∨
      ¬ WellFormed (cStr str) ∧ p.err = true ∧ parse hash fuel m str = .ok m) := by
  have hmeets := grammar_meets hshort hfuel
  rw [reading_grammar hstalls] at hmeets
  unfold parse
  by_cases hwell : WellFormed (cStr str)
  · rw [if_pos hwell] at hmeets
    obtain ⟨p, hrun, hbefore, hres⟩ := hmeets.of_ok
    have hpairs : pairs p.res = (readEntries (cStr str)).1 := hres ▸ pairs_toTuple _
    refine ⟨p, hrun, .inl ⟨hwell, hbefore.err, hpairs, ?_⟩⟩
    rw [hrun, Run.bind_ok]
    dsimp only
    rw [hbefore.err, if_neg Bool.false_ne_true, hpairs]
  · rw [if_neg hwell] at hmeets
    obtain ⟨p, hrun, -, herr, -⟩ := hmeets.of_fail
    refine ⟨p, hrun, .inr ⟨hwell, herr, ?_⟩⟩
    rw [hrun, Run.bind_ok]
    dsimp only
    rw [herr, if_pos rfl]

/-- Parsing settles exactly on the texts where no string stalls the loop over its characters,
and, if the text is well formed, from a map that has each key once and can take its entries. -/
theorem settles_iff (hm : m.Reachable hash) (hshort : (cStr str).length < 2 ^ 32) :
    Settles hash m str ↔ ¬ Stalls (cStr str) ∧ (WellFormed (cStr str) →
      m.keys.Nodup ∧ m.Takes hash (readEntries (cStr str)).1) := by
  constructor
  · intro h
    have hstalls := h.not_stalls hshort
    refine ⟨hstalls, fun hwell => (Map.insertAll_iff hm.tidy).1 ?_⟩
    obtain ⟨n, m', h⟩ := h
    have hsettled : ∀ fuel ≥ max n ((cStr str).length + 2),
        m.insertAll hash fuel (readEntries (cStr str)).1 = .ok m' ∧
          Map.Overlaid m m' (readEntries (cStr str)).1 := by
      intro fuel hfuel
      obtain ⟨p, hrun, hparse, -, hok⟩ := h fuel ((le_max_left _ _).trans hfuel)
      obtain ⟨p', hrun', ⟨-, herr, hpairs, hparse'⟩ | ⟨hnot, -⟩⟩ :=
        parse_eq hash m hshort hstalls ((le_max_right _ _).trans hfuel)
      · obtain ⟨rfl, -⟩ := Prod.mk.inj (Except.ok.inj (hrun.symm.trans hrun'))
        exact ⟨hparse'.symm.trans hparse, hpairs ▸ hok herr⟩
      · exact absurd hwell hnot
    exact ⟨_, m', fun fuel hfuel => (hsettled fuel hfuel).1, (hsettled _ le_rfl).2⟩
  · rintro ⟨hstalls, htakes⟩
    by_cases hwell : WellFormed (cStr str)
    · obtain ⟨n, m', hall, hoverlaid⟩ := (Map.insertAll_iff hm.tidy).2 (htakes hwell)
      refine ⟨max n ((cStr str).length + 2), m', fun fuel hfuel => ?_⟩
      obtain ⟨p, hrun, ⟨-, herr, hpairs, hparse⟩ | ⟨hnot, -⟩⟩ :=
        parse_eq hash m hshort hstalls ((le_max_right _ _).trans hfuel)
      · refine ⟨p, hrun, hparse.trans (hall fuel ((le_max_left _ _).trans hfuel)), ?_, ?_⟩
        · exact fun h => absurd (herr.symm.trans h) Bool.false_ne_true
        · exact fun _ => hpairs ▸ hoverlaid
      · exact absurd hwell hnot
    · refine ⟨(cStr str).length + 2, m, fun fuel hfuel => ?_⟩
      obtain ⟨p, hrun, ⟨hwell', -⟩ | ⟨-, herr, hparse⟩⟩ :=
        parse_eq hash m hshort hstalls hfuel
      · exact absurd hwell' hwell
      · exact ⟨p, hrun, hparse, fun _ => rfl, fun h => absurd (herr.symm.trans h) (by decide)⟩

lemma not_stalls_of_readEntry {t u : List Char} {e : List Char × Value}
    (hentry : readEntry t = some (e, u)) (hrest : ¬ Stalls u) : ¬ Stalls t := by
  intro h
  cases h with
  | here hkey hquoted =>
    obtain ⟨k, hk, h⟩ := Option.bind_eq_some_iff.1 hentry
    obtain rfl := Option.some.inj (hk.symm.trans hkey)
    rw [readValue_quote, hquoted] at h
    cases h
  | later hentry' h =>
    obtain ⟨-, rfl⟩ := Prod.mk.inj (Option.some.inj (hentry.symm.trans hentry'))
    exact hrest h

lemma not_stalls_of_readKey {t : List Char} (hkey : readKey (skipWS t) = none) : ¬ Stalls t := by
  intro h
  cases h with
  | here hkey' _ => exact nomatch hkey.symm.trans hkey'
  | later hentry _ =>
    obtain ⟨k, hk, -⟩ := Option.bind_eq_some_iff.1 hentry
    exact nomatch hkey.symm.trans hk

/-- `x=1` into an empty map. -/
theorem settles_iff_example : ∃ m : Values, m.count = 0 ∧ Settles (fun _ => 257) m "x=1".toList := by
  let m₀ : Values := ⟨0, [fun _ => 0, fun _ => 0], List.replicate 32 ([], default)⟩
  let e : List Char × Value := (['x'], ⟨false, .long 1⟩)
  have hempty : Map.ofCapacity (fun _ => 257) 0 = .ok m₀ := rfl
  have hentry : readEntry "x=1".toList = some (e, []) := by decide +kernel
  have hread : readEntries "x=1".toList = ([e], []) := by
    rw [readEntries_some hentry, readEntries_none (by decide +kernel)]
  have hstalls : ¬ Stalls "x=1".toList :=
    not_stalls_of_readEntry hentry (not_stalls_of_readKey (by decide +kernel))
  have hload : m₀.loadFactor = false := by decide +kernel
  have hkeys : m₀.keys = 0 := by decide +kernel
  have hlands : Map.Receives (fun _ => 257) m₀ e.1 := by
    refine ⟨fun h => absurd (hload.symm.trans h) nofun, fun fuel m₁ hresize => ?_⟩
    obtain rfl : m₀ = m₁ := by
      unfold Map.checkResize at hresize
      rw [hload] at hresize
      exact Except.ok.inj hresize
    exact .inr ⟨by rw [hkeys]; exact Multiset.notMem_zero _, ⟨0, by decide, 0, rfl⟩, by decide⟩
  obtain ⟨fuel, ⟨m₁, r⟩, hrun⟩ := hlands.insert_returns (Map.Reachable.empty hempty).tidy e.2
  refine ⟨m₀, rfl, (settles_iff (.empty hempty) (by decide)).2 ⟨hstalls, fun _ => ?_⟩⟩
  have hcstr : cStr "x=1".toList = "x=1".toList := by decide
  rw [hcstr, hread, hkeys]
  exact ⟨Multiset.nodup_zero, .cons hlands fuel hrun (.nil m₁)⟩

/-- `x="a"`: the loop over the string stays at the `a`. -/
theorem plain_string_stalls : ¬ ∀ (hash : List Char → UInt64) (m : Values) (str : List Char),
    m.Reachable hash → Settles hash m str := by
  intro h
  have hempty : Map.ofCapacity (fun _ => 257) 0 =
      .ok (⟨0, [fun _ => 0, fun _ => 0], List.replicate 32 ([], default)⟩ : Values) := rfl
  have hsettles := h (fun _ => 257) _ "x=\"a\"".toList (.empty hempty)
  have hstalls : Stalls (cStr "x=\"a\"".toList) :=
    .here (u := ['a', '"']) (k := ['x']) (by decide +kernel) (by decide +kernel)
  exact hsettles.not_stalls (by decide) hstalls

end parsing
end CoreCommon.Config
