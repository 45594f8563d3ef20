import CoreCommon.ConfigParse
import CoreCommon.MapListing

/-! Parsing what was saved. A saved text never comes back if it holds a finite float, whose
integer part is read as a `long`, or a string with an unescaped character, at which the parser
stays. -/
namespace CoreCommon.Config
open NumberText ParseMap

/-! ### The entries that are written -/

/-- The entries that are not defaults, in the order of the map. -/
def saved (m : Values) : List (List Char × Value) := m.listed.filter fun e => !e.2.isDefault

def textOf (l : List (List Char × Value)) : List Char := l.flatMap showEntry

/-- Neither empty nor with an `=`, nor with a space or a line end at one of its ends. -/
structure KeyOk (k : List Char) : Prop where
  ne_nil : k ≠ []
  no_sep : '=' ∉ k
  head : ∀ c, k.head? = some c → c ∉ [' ', '\r', '\n']
  last : ∀ c, k.getLast? = some c → c ∉ [' ', '\r', '\n']

def IsPrintable (c : Char) : Prop := 32 ≤ c.toNat ∧ c.toNat ≤ 126

/-- A `long` in its range, a float that `strtof` reads back from its text, or a printable string. -/
def VariantOk : Variant → Prop
  | .float x => strtof (showFloat x) = (x, (showFloat x).length)
  | .string x => ∀ c ∈ x, IsPrintable c
  | .long x => longMin ≤ x ∧ x ≤ longMax
  | .bool _ => True

/-- Pairs of a backslash and a character. -/
def IsEscaped : List Char → Bool
  | [] => true
  | '\\' :: _ :: t => IsEscaped t
  | _ => false

/-- A value that its text gives back: no finite float, and no string but one of escaped pairs. -/
def Returns : Variant → Prop
  | .float (.finite ..) => False
  | .string x => IsEscaped x = true
  | _ => True

lemma textOf_listed (l : List (List Char × Value)) :
    textOf (l.filter fun e => !e.2.isDefault) = textOf l := by
  induction l with
  | nil => rfl
  | cons e l ih =>
    unfold textOf at ih ⊢
    cases h : e.2.isDefault with
    | true =>
      have hshow : showEntry e = [] := if_pos h
      rw [List.filter_cons_of_neg (by simp [h]), ih, List.flatMap_cons, hshow, List.nil_append]
    | false => rw [List.filter_cons_of_pos (by simp [h]), List.flatMap_cons, List.flatMap_cons, ih]

lemma isDefault_of_mem_saved {m : Values} {e : List Char × Value} (h : e ∈ saved m) :
    e.2.isDefault = false := by
  simpa using (List.mem_filter.1 h).2

section saving
variable {hash : List Char → UInt64} {m : Values} {fuel : ℕ}

/-- `Config::save` writes the entries. -/
lemma save_eq (hm : m.Tidy hash) (hfuel : m.buckets.length < fuel) :
    save fuel m = .ok (textOf (saved m)) := by
  have hbuckets := Map.walk_buckets hm hfuel
  obtain ⟨l, hl, hmap⟩ := Run.bind_eq_ok.1 hbuckets
  unfold save
  rw [hl, Run.bind_ok, hmap, Run.bind_ok, saved, textOf_listed]
  rfl

lemma saved_eq_entries (hm : m.Tidy hash) :
    (saved m : Multiset _) = m.entries.filter fun e => e.2.isDefault = false := by
  rw [← Map.listed_eq_entries hm, Multiset.filter_coe]
  congr 1
  exact List.filter_congr fun e _ => by cases e.2.isDefault <;> rfl

end saving

/-! ### Reading a key -/

section key
variable {a b t : List Char} {c : Char}

def trimWS (a : List Char) : List Char := (a.reverse.dropWhile isWS).reverse

lemma mem_of_mem_skipWS (h : c ∈ skipWS t) : c ∈ t := (List.dropWhile_suffix isWS).subset h

lemma skipWS_append_sep (a b : List Char) : skipWS (a ++ '=' :: b) = skipWS a ++ '=' :: b := by
  induction a with
  | nil => rfl
  | cons c a ih =>
    unfold skipWS at ih ⊢
    by_cases hc : isWS c = true
    · rw [List.cons_append, List.dropWhile_cons_of_pos hc, List.dropWhile_cons_of_pos hc, ih]
    · rw [List.cons_append, List.dropWhile_cons_of_neg hc, List.dropWhile_cons_of_neg hc]
      rfl

lemma readSep_append_sep (ha : '=' ∉ a) :
    readSep (a ++ '=' :: b) = if skipWS a = [] then some (skipWS b) else none := by
  unfold readSep
  rw [skipWS_append_sep]
  cases hskip : skipWS a with
  | nil => rfl
  | cons c l =>
    have hc : c ∈ a := mem_of_mem_skipWS (hskip ▸ List.mem_cons_self)
    have hne : c ≠ '=' := fun h => ha (h ▸ hc)
    simp [hne]

lemma skipWS_eq_nil : skipWS a = [] ↔ ∀ c ∈ a, isWS c = true := List.dropWhile_eq_nil_iff

lemma trimWS_eq_nil (h : skipWS a = []) : trimWS a = [] := by
  have hall : a.reverse.dropWhile isWS = [] :=
    List.dropWhile_eq_nil_iff.2 fun d hd => skipWS_eq_nil.1 h d (List.mem_reverse.1 hd)
  rw [trimWS, hall, List.reverse_nil]

lemma trimWS_cons (h : skipWS (c :: a) ≠ []) : trimWS (c :: a) = c :: trimWS a := by
  unfold trimWS
  rw [List.reverse_cons, List.dropWhile_append]
  by_cases ha : skipWS a = []
  · have hnil : a.reverse.dropWhile isWS = [] :=
      List.dropWhile_eq_nil_iff.2 fun d hd => skipWS_eq_nil.1 ha d (List.mem_reverse.1 hd)
    have hc : ¬ isWS c = true := fun hc => h (by rw [skipWS, List.dropWhile_cons_of_pos hc]; exact ha)
    rw [hnil, List.isEmpty_nil, if_pos rfl, List.dropWhile_cons_of_neg hc]
    rfl
  · have hne : a.reverse.dropWhile isWS ≠ [] := fun hnil => ha (skipWS_eq_nil.2 fun d hd =>
      List.dropWhile_eq_nil_iff.1 hnil d (List.mem_reverse.2 hd))
    rw [if_neg (by simpa using hne), List.reverse_append]
    rfl

/-- The key ends at the first `=`, less the white space in front of it. -/
lemma readKey_append_sep (ha : '=' ∉ a) : readKey (a ++ '=' :: b) = some (trimWS a, skipWS b) := by
  induction a with
  | nil =>
    have hsep := readSep_append_sep (a := []) (b := b) List.not_mem_nil
    rw [List.nil_append] at hsep ⊢
    rw [readKey, hsep]
    rfl
  | cons c a ih =>
    have hsep := readSep_append_sep (b := b) ha
    rw [List.cons_append] at hsep ⊢
    rw [readKey, hsep]
    by_cases hskip : skipWS (c :: a) = []
    · rw [if_pos hskip, trimWS_eq_nil hskip]
    · rw [if_neg hskip, trimWS_cons hskip]
      dsimp only
      rw [ih fun h => ha (List.mem_cons_of_mem c h)]
      rfl

/-- Without an `=` there is no key. -/
lemma readKey_eq_none (ht : '=' ∉ t) : readKey t = none := by
  induction t with
  | nil => rfl
  | cons c t ih =>
    have hsep : readSep (c :: t) = none := by
      unfold readSep
      rw [if_neg]
      intro h
      obtain ⟨u, hu⟩ := List.head?_eq_some_iff.1 h
      exact ht (mem_of_mem_skipWS (hu ▸ List.mem_cons_self))
    rw [readKey, hsep, ih fun h => ht (List.mem_cons_of_mem c h)]
    rfl

/-- The characters of a key are from the text. -/
lemma mem_of_readKey {k u : List Char} (h : readKey t = some (k, u)) : ∀ c ∈ k, c ∈ t := by
  induction t generalizing k with
  | nil => cases h
  | cons d t ih =>
    unfold readKey at h
    cases hsep : readSep (d :: t) with
    | some v =>
      rw [hsep] at h
      obtain ⟨rfl, -⟩ := Prod.mk.inj (Option.some.inj h)
      exact fun c hc => absurd hc List.not_mem_nil
    | none =>
      rw [hsep] at h
      obtain ⟨x, hx, hxu⟩ := Option.map_eq_some_iff.1 h
      obtain ⟨rfl, rfl⟩ := Prod.mk.inj hxu
      intro c hc
      rcases List.mem_cons.1 hc with rfl | hc
      · exact List.mem_cons_self
      · exact List.mem_cons_of_mem d (ih hx c hc)

end key

/-! ### Reading a value -/

section value
variable {x b t u : List Char} {v : Variant}

lemma readQuoted_escaped (hx : IsEscaped x = true) (u : List Char) :
    readQuoted (x ++ '"' :: u) = some (x, u) := by
  induction x using IsEscaped.induct with
  | case1 => rfl
  | case2 c x ih =>
    have hrest := ih hx
    rw [List.cons_append, List.cons_append, readQuoted, hrest]
    rfl
  | case3 x hnil hpair => rw [IsEscaped.eq_3 x hnil hpair] at hx; cases hx

/-- Only escaped pairs are read as a string. -/
lemma isEscaped_of_readQuoted (h : readQuoted t = some (b, u)) : IsEscaped b = true := by
  induction t using readQuoted.induct generalizing b with
  | case1 t =>
    obtain ⟨rfl, -⟩ := Prod.mk.inj (Option.some.inj h)
    rfl
  | case2 c t ih =>
    obtain ⟨y, hy, hyu⟩ := Option.map_eq_some_iff.1 h
    obtain ⟨rfl, rfl⟩ := Prod.mk.inj hyu
    have hescaped : IsEscaped y.1 = true := ih hy
    exact hescaped
  | case3 t hquote hescape => rw [readQuoted.eq_3 t hquote hescape] at h; cases h

lemma isEscaped_of_readValue {x : List Char} (h : readValue t = some (.string x, u)) :
    IsEscaped x = true := by
  unfold readValue at h
  split_ifs at h
  · cases h
  · cases h
  · cases h
  · cases h
  · obtain ⟨y, hy, hyu⟩ := Option.map_eq_some_iff.1 h
    obtain rfl := Variant.string.inj (Prod.mk.inj hyu).1
    exact isEscaped_of_readQuoted hy

lemma drop_showVariant_line (l t : List Char) : readNewline ((l ++ '\n' :: t).drop l.length) = t := by
  rw [List.drop_left' rfl]
  rfl

/-- A value on a line of its own is read back. -/
lemma readValue_show (hok : VariantOk v) (hreturns : Returns v) (t : List Char) :
    readValue (showVariant v ++ '\n' :: t) = some (v, t) := by
  cases v with
  | long x =>
    have hread := strtol_showLong hok.1 hok.2 t
    have hne : (showLong x).length ≠ 0 := by
      unfold showLong minusIf
      split_ifs <;> simp
    unfold readValue
    rw [showVariant, hread, if_pos hne, drop_showVariant_line]
  | float x =>
    have hread : ∀ y, (strtol (showFloat y ++ '\n' :: t)).2 = 0 →
        strtof (showFloat y ++ '\n' :: t) = (y, (showFloat y).length) → (showFloat y).length ≠ 0 →
          readValue (showVariant (.float y) ++ '\n' :: t) = some (.float y, t) := by
      intro y hlong hfloat hne
      unfold readValue
      rw [showVariant, hlong, hfloat, if_neg (not_not.2 rfl), if_pos hne, drop_showVariant_line]
    cases x with
    | nan neg =>
      exact hread _ (strtol_special t neg).2 (strtof_special t neg).2 (by cases neg <;> decide)
    | inf neg =>
      exact hread _ (strtol_special t neg).1 (strtof_special t neg).1 (by cases neg <;> decide)
    | finite neg mant exp => exact hreturns.elim
  | bool x =>
    cases x <;> simp [readValue, showVariant, readNewline, strtol, strtof, isSpace, sign, unsignedFloat,
      startsNoCase, decimal, mantissa]
  | string x =>
    have hquote : showVariant (.string x) ++ '\n' :: t = '"' :: (x ++ '"' :: '\n' :: t) := by
      simp [showVariant]
    rw [hquote, readValue_quote, readQuoted_escaped hreturns]
    rfl

/-- Whatever the value is, nothing with an `=` is left of its line. -/
lemma readValue_line (hok : VariantOk v) (hstring : ∀ x, v = .string x → IsEscaped x = true)
    (t : List Char) : ∃ v' r, readValue (showVariant v ++ '\n' :: t) = some (v', r ++ t) ∧
      Returns v' ∧ '=' ∉ r := by
  by_cases hreturns : Returns v
  · exact ⟨v, [], readValue_show hok hreturns t, hreturns, List.not_mem_nil⟩
  · cases v with
    | long x => exact absurd trivial hreturns
    | bool x => exact absurd trivial hreturns
    | string x => exact absurd (hstring x rfl) hreturns
    | float x =>
      cases x with
      | nan neg => exact absurd trivial hreturns
      | inf neg => exact absurd trivial hreturns
      | finite neg mant exp =>
        obtain ⟨d, b, hshow, hd, hb⟩ := showFloat_finite neg mant exp
        have hline := strtol_line neg hd b t
        have hrest := drop_line neg (d :: b) ('\n' :: t)
        have hne : (minusIf neg ((d :: b).takeWhile Char.isDigit)).length ≠ 0 := by
          unfold minusIf
          split_ifs <;> simp [hd]
        unfold readValue
        rw [showVariant, hshow, hline, if_pos hne, hrest]
        cases hleft : (d :: b).dropWhile Char.isDigit with
        | nil => exact ⟨_, [], rfl, trivial, List.not_mem_nil⟩
        | cons c l =>
          have hchars : ∀ c' ∈ c :: l, isNumberChar c' = true := fun c' hc' =>
            hb c' ((List.dropWhile_suffix _).subset (hleft ▸ hc'))
          have hnot : ∀ c', isNumberChar c' = false → c' ∉ c :: l := fun c' hfalse hc' =>
            Bool.false_ne_true (hfalse.symm.trans (hchars c' hc'))
          have hret : c ≠ '\r' := fun h => hnot '\r' (by decide) (h ▸ List.mem_cons_self)
          have hnew : c ≠ '\n' := fun h => hnot '\n' (by decide) (h ▸ List.mem_cons_self)
          have hkept : readNewline (c :: l ++ '\n' :: t) = (c :: l ++ ['\n']) ++ t := by
            simp [readNewline, hret, hnew]
          have hsep : '=' ∉ c :: l ++ ['\n'] := by
            rw [List.mem_append, not_or]
            exact ⟨hnot '=' (by decide), by decide⟩
          rw [hkept]
          exact ⟨_, _, rfl, trivial, hsep⟩

/-- A value does not start with white space. -/
lemma showVariant_head (v : Variant) : ∃ c l, showVariant v = c :: l ∧ isWS c = false := by
  have hnumber : ∀ neg (l : List Char), l ≠ [] → (∀ c ∈ l, isNumberChar c = true) →
      ∃ c l', minusIf neg l = c :: l' ∧ isWS c = false := by
    intro neg l hne hl
    obtain ⟨c, l', hcons⟩ := List.exists_cons_of_ne_nil (l := minusIf neg l) (by
      unfold minusIf
      split_ifs
      · exact List.cons_ne_nil _ _
      · exact hne)
    have hc := isNumberChar_minusIf hl c (hcons ▸ List.mem_cons_self)
    refine ⟨c, l', hcons, decide_eq_false fun hws => ?_⟩
    fin_cases hws <;> exact absurd hc (by decide)
  cases v with
  | long x => exact hnumber _ _ Nat.toDigits_ne_nil isNumberChar_digits
  | bool x => cases x <;> exact ⟨_, _, rfl, by decide⟩
  | string x => exact ⟨_, _, rfl, by decide⟩
  | float x =>
    cases x with
    | nan neg => cases neg <;> exact ⟨_, _, rfl, by decide⟩
    | inf neg => cases neg <;> exact ⟨_, _, rfl, by decide⟩
    | finite neg mant exp =>
      obtain ⟨d, b, hshow, -, hb⟩ := showFloat_finite neg mant exp
      rw [showVariant, hshow]
      exact hnumber neg (d :: b) (List.cons_ne_nil d b) hb

end value

/-! ### Reading entries -/

section entries
variable {a t : List Char} {e : List Char × Value} {v : Variant}

lemma skipWS_of_head {c : Char} (hc : isWS c = false) (l : List Char) : skipWS (c :: l) = c :: l :=
  List.dropWhile_cons_of_neg (by simp [hc])

/-- An entry on its line, behind what was left of the lines before. -/
lemma readEntry_line (ha : '=' ∉ a) (v : Variant) (t : List Char) :
    readEntry (a ++ '=' :: ' ' :: (showVariant v ++ '\n' :: t)) =
      (readValue (showVariant v ++ '\n' :: t)).map
        fun x => ((trimWS (skipWS a), ⟨false, x.1⟩), x.2) := by
  have hkey := readKey_append_sep (a := skipWS a) (b := ' ' :: (showVariant v ++ '\n' :: t))
    fun h => ha (mem_of_mem_skipWS h)
  obtain ⟨c, l, hshow, hc⟩ := showVariant_head v
  have hvalue : skipWS (' ' :: (showVariant v ++ '\n' :: t)) = showVariant v ++ '\n' :: t := by
    rw [hshow, List.cons_append]
    exact (List.dropWhile_cons_of_pos (by decide)).trans (skipWS_of_head hc _)
  unfold readEntry
  rw [skipWS_append_sep, hkey, Option.bind_some, hvalue]

lemma showEntry_eq (he : e.2.isDefault = false) (t : List Char) :
    showEntry e ++ t = (e.1 ++ [' ']) ++ '=' :: ' ' :: (showVariant e.2.var ++ '\n' :: t) := by
  simp [showEntry, he]

lemma KeyOk.trim {k : List Char} (hk : KeyOk k) (hnul : '\x00' ∉ k) :
    trimWS (skipWS (k ++ [' '])) = k := by
  have hws : ∀ c ∈ k, c ∉ [' ', '\r', '\n'] → isWS c = false := by
    intro c hc hnot
    have hne : c ≠ '\x00' := fun h => hnul (h ▸ hc)
    simp only [List.mem_cons, List.not_mem_nil, or_false, not_or] at hnot
    simp [isWS, hnot, hne]
  obtain ⟨c, l, rfl⟩ := List.exists_cons_of_ne_nil hk.ne_nil
  have hhead := hws c List.mem_cons_self (hk.head c rfl)
  have hskip : skipWS (c :: l ++ [' ']) = c :: l ++ [' '] := skipWS_of_head hhead _
  obtain ⟨d, l', hrev⟩ := List.exists_cons_of_ne_nil (List.reverse_ne_nil_iff.2 hk.ne_nil)
  have hlast : (c :: l).getLast? = some d := by
    rw [← List.head?_reverse, hrev]
    rfl
  have hd := hws d (List.mem_of_getLast? hlast) (hk.last d hlast)
  have hkept : (d :: l').dropWhile isWS = d :: l' := skipWS_of_head hd l'
  have hspace : (' ' :: (c :: l).reverse).dropWhile isWS = (c :: l).reverse := by
    rw [List.dropWhile_cons_of_pos (by decide), hrev, hkept]
  rw [hskip, trimWS, List.reverse_append]
  exact (congrArg List.reverse hspace).trans (List.reverse_reverse _)

lemma readEntry_show (hk : KeyOk e.1) (hnul : '\x00' ∉ e.1) (hdefault : e.2.isDefault = false)
    (hok : VariantOk e.2.var) (hreturns : Returns e.2.var) (t : List Char) :
    readEntry (showEntry e ++ t) = some (e, t) := by
  have hsep : '=' ∉ e.1 ++ [' '] := by simp [hk.no_sep]
  rw [showEntry_eq hdefault, readEntry_line hsep, readValue_show hok hreturns, hk.trim hnul]
  obtain ⟨k, d, v⟩ := e
  obtain rfl : d = false := hdefault
  rfl

/-- A text of entries that all come back. -/
lemma readEntries_textOf {l : List (List Char × Value)} (hl : ∀ e ∈ l, KeyOk e.1 ∧ '\x00' ∉ e.1 ∧
    e.2.isDefault = false ∧ VariantOk e.2.var ∧ Returns e.2.var) :
    readEntries (textOf l) = (l, []) ∧ ¬ Stalls (textOf l) := by
  induction l with
  | nil =>
    have hnone : readEntry [] = none := rfl
    exact ⟨readEntries_none hnone, not_stalls_of_readKey rfl⟩
  | cons e l ih =>
    obtain ⟨hk, hnul, hdefault, hok, hreturns⟩ := hl e List.mem_cons_self
    obtain ⟨hread, hstalls⟩ := ih fun e' he' => hl e' (List.mem_cons_of_mem e he')
    have hentry := readEntry_show hk hnul hdefault hok hreturns (textOf l)
    have htext : textOf (e :: l) = showEntry e ++ textOf l := List.flatMap_cons
    rw [htext]
    refine ⟨?_, not_stalls_of_readEntry hentry hstalls⟩
    rw [readEntries_some hentry, hread]

/-- Whatever the numbers are, only values come out of a text of entries that come back. -/
lemma readEntries_returns {l : List (List Char × Value)} (hl : ∀ e ∈ l, '=' ∉ e.1 ∧
    e.2.isDefault = false ∧ VariantOk e.2.var ∧ ∀ x, e.2.var = .string x → IsEscaped x = true)
    (ha : '=' ∉ a) : ∀ e ∈ (readEntries (a ++ textOf l)).1, Returns e.2.var := by
  induction l generalizing a with
  | nil =>
    have htext : a ++ textOf [] = a := List.append_nil a
    have hnone : readEntry a = none := by
      rw [readEntry, readKey_eq_none fun h => ha (mem_of_mem_skipWS h)]
      rfl
    rw [htext, readEntries_none hnone]
    exact fun e he => absurd he List.not_mem_nil
  | cons e l ih =>
    obtain ⟨hsep, hdefault, hok, hstring⟩ := hl e List.mem_cons_self
    obtain ⟨v, r, hvalue, hreturns, hr⟩ := readValue_line hok hstring (textOf l)
    have htext : a ++ textOf (e :: l) = (a ++ (e.1 ++ [' '])) ++
        '=' :: ' ' :: (showVariant e.2.var ++ '\n' :: textOf l) := by
      rw [List.append_assoc, ← showEntry_eq hdefault]
      rfl
    have hentry := readEntry_line (a := a ++ (e.1 ++ [' '])) (by simp [ha, hsep]) e.2.var (textOf l)
    rw [hvalue] at hentry
    rw [htext, readEntries_some hentry]
    intro e' he'
    rcases List.mem_cons.1 he' with rfl | he'
    · exact hreturns
    · exact ih (fun e'' he'' => hl e'' (List.mem_cons_of_mem e he'')) hr e' he'

lemma forall_readEntries {P : List Char × Value → Prop}
    (hP : ∀ t' e u, t' <:+ t → readEntry t' = some (e, u) → P e) : ∀ e ∈ (readEntries t).1, P e := by
  induction hn : t.length using Nat.strong_induction_on generalizing t with
  | _ n ih =>
    cases hentry : readEntry t with
    | none =>
      rw [readEntries_none hentry]
      exact fun e he => absurd he List.not_mem_nil
    | some x =>
      rw [readEntries_some hentry]
      intro e he
      rcases List.mem_cons.1 he with rfl | he
      · exact hP t _ _ List.suffix_rfl hentry
      · exact ih _ (hn ▸ readEntry_lt hentry)
          (fun t' e u ht' => hP t' e u (ht'.trans (readEntry_suffix hentry))) rfl e he

/-- The characters of the keys are from the text. -/
lemma mem_of_readEntries {c : Char} (he : e ∈ (readEntries t).1) (hc : c ∈ e.1) : c ∈ t := by
  revert c
  refine forall_readEntries (P := fun e => ∀ {c : Char}, c ∈ e.1 → c ∈ t) (fun t' e u ht' h c hc => ?_) e he
  obtain ⟨w, hk, -⟩ := readEntry_parts h
  exact ht'.subset (mem_of_mem_skipWS (mem_of_readKey hk c hc))

lemma isEscaped_of_readEntries {x : List Char} (he : e ∈ (readEntries t).1)
    (hvar : e.2.var = .string x) : IsEscaped x = true := by
  refine forall_readEntries (P := fun e => ∀ x, e.2.var = .string x → IsEscaped x = true)
    (fun t' e u _ h x hvar => ?_) e he x hvar
  obtain ⟨w, -, hv⟩ := readEntry_parts h
  exact isEscaped_of_readValue (hvar ▸ hv)

end entries

/-! ### The text has no NUL -/

section nul
variable {v : Variant}

lemma nul_notMem_showVariant (hok : VariantOk v) : '\x00' ∉ showVariant v := by
  have hnumber : ∀ neg (l : List Char), (∀ c ∈ l, isNumberChar c = true) → '\x00' ∉ minusIf neg l :=
    fun neg l hl h => absurd (isNumberChar_minusIf hl _ h) (by decide)
  cases v with
  | long x => exact hnumber _ _ isNumberChar_digits
  | bool x => cases x <;> decide
  | string x =>
    intro h
    rw [showVariant, List.mem_append, List.mem_cons] at h
    rcases h with (h | h) | h
    · exact absurd h (by decide)
    · exact absurd (hok _ h).1 (by decide)
    · exact absurd h (by decide)
  | float x =>
    cases x with
    | nan neg => cases neg <;> decide
    | inf neg => cases neg <;> decide
    | finite neg mant exp =>
      obtain ⟨d, b, hshow, -, hb⟩ := showFloat_finite neg mant exp
      rw [showVariant, hshow]
      exact hnumber neg (d :: b) hb

lemma cStr_textOf {l : List (List Char × Value)}
    (hl : ∀ e ∈ l, '\x00' ∉ e.1 ∧ VariantOk e.2.var) : cStr (textOf l) = textOf l := by
  refine List.takeWhile_eq_self_iff.2 fun c hc => decide_eq_true fun hnul => ?_
  obtain ⟨e, he, hc⟩ := List.mem_flatMap.1 hc
  obtain ⟨hkey, hok⟩ := hl e he
  subst hnul
  unfold showEntry at hc
  split_ifs at hc
  · cases hc
  · have hvar := nul_notMem_showVariant hok
    simp [hkey, hvar] at hc

end nul

/-! ### The round trip -/

section roundTrip
variable {hash : List Char → UInt64} {m : Values}

/-- A new `Config` that parses the saved text holds the entries of `m` that are not defaults. -/
def RoundTrips (hash : List Char → UInt64) (m : Values) : Prop :=
  ∃ n m', ∀ fuel ≥ n, ∃ text m₀, save fuel m = .ok text ∧ Map.ofCapacity hash 0 = .ok m₀ ∧
    parse hash fuel m₀ text = .ok m' ∧ m'.entries = m.entries.filter fun e => e.2.isDefault = false

lemma not_stalls_of_parse {str : List Char} {m' : Values} {fuel : ℕ}
    (hshort : (cStr str).length < 2 ^ 32) (hfuel : (cStr str).length + 1 < fuel)
    (hparse : parse hash fuel m str = .ok m') : ¬ Stalls (cStr str) := by
  intro hstalls
  obtain ⟨⟨p, s⟩, hrun, -⟩ := Run.bind_eq_ok.1 hparse
  have hmeets := grammar_meets hshort hfuel
  rw [reading_grammar_hang hstalls] at hmeets
  exact nomatch hrun.symm.trans hmeets.of_hang

lemma ofCapacity_entries {m₀ : Values} (hempty : Map.ofCapacity hash 0 = .ok m₀) :
    m₀.Tidy hash ∧ m₀.entries = 0 := by
  obtain ⟨htidy, hbyte⟩ := Map.ofCapacity_ok hempty
  exact ⟨htidy, Map.entries_eq_zero fun i c hlive => hlive.1 (hbyte i c)⟩

/-- One run of the round trip. -/
lemma RoundTrips.run (hm : m.Tidy hash) (h : RoundTrips hash m) (b : ℕ) : ∃ fuel > b, ∃ m₀ m',
    Map.ofCapacity hash 0 = .ok m₀ ∧ parse hash fuel m₀ (textOf (saved m)) = .ok m' ∧
      m'.entries = saved m := by
  obtain ⟨n, m', h⟩ := h
  have hfuel : m.buckets.length < max n (max (b + 1) (m.buckets.length + 1)) :=
    (le_max_right _ _).trans (le_max_right n _)
  obtain ⟨text, m₀, hsave, hempty, hparse, hentries⟩ := h _ (le_max_left _ _)
  obtain rfl := Except.ok.inj ((save_eq hm hfuel).symm.trans hsave)
  exact ⟨_, (le_max_left (b + 1) _).trans (le_max_right n _), m₀, m', hempty, hparse,
    hentries.trans (saved_eq_entries hm).symm⟩

/-- It brings every entry out of the text. -/
lemma RoundTrips.mem_readEntries (hm : m.Tidy hash)
    (hshort : (cStr (textOf (saved m))).length < 2 ^ 32) (h : RoundTrips hash m) :
    ∀ e ∈ saved m, e ∈ (readEntries (cStr (textOf (saved m)))).1 := by
  obtain ⟨fuel, hfuel, m₀, m', hempty, hparse, hentries⟩ :=
    h.run hm ((cStr (textOf (saved m))).length + 1)
  obtain ⟨hm₀, hnone⟩ := ofCapacity_entries hempty
  have hstalls := not_stalls_of_parse hshort hfuel hparse
  intro e he
  have hmem : e ∈ m'.entries := hentries ▸ Multiset.mem_coe.2 he
  obtain ⟨p, -, ⟨-, -, -, hparse'⟩ | ⟨-, -, hparse'⟩⟩ := parse_eq hash m₀ hshort hstalls hfuel
  · rcases Map.mem_of_insertAll hm₀ (hparse'.symm.trans hparse) e hmem with hmem | hmem
    · exact hmem
    · exact absurd (hnone ▸ hmem) (Multiset.notMem_zero e)
  · obtain rfl := Except.ok.inj (hparse'.symm.trans hparse)
    exact absurd (hnone ▸ hmem) (Multiset.notMem_zero e)

variable (hm : m.Reachable hash) (hkeys : ∀ e ∈ saved m, KeyOk e.1)
  (hvars : ∀ e ∈ saved m, VariantOk e.2.var) (hshort : (textOf (saved m)).length < 2 ^ 32)

lemma cStr_length_le (str : List Char) : (cStr str).length ≤ str.length :=
  (List.takeWhile_prefix _).length_le

include hm hkeys hvars hshort

lemma RoundTrips.returns (h : RoundTrips hash m) :
    ∀ e ∈ saved m, '\x00' ∉ e.1 ∧ Returns e.2.var := by
  have hread := h.mem_readEntries hm.tidy ((cStr_length_le _).trans_lt hshort)
  have hnul : ∀ e ∈ saved m, '\x00' ∉ e.1 := by
    intro e he hc
    have hmem := List.mem_takeWhile_imp (mem_of_readEntries (hread e he) hc)
    exact absurd rfl (of_decide_eq_true hmem)
  have hstring : ∀ e ∈ saved m, ∀ x, e.2.var = .string x → IsEscaped x = true :=
    fun e he x hvar => isEscaped_of_readEntries (hread e he) hvar
  rw [cStr_textOf fun e he => ⟨hnul e he, hvars e he⟩] at hread
  have hreturns := readEntries_returns (a := []) (fun e he => ⟨(hkeys e he).no_sep,
    isDefault_of_mem_saved he, hvars e he, hstring e he⟩) List.not_mem_nil
  exact fun e he => ⟨hnul e he, hreturns e (hread e he)⟩

omit hm in
/-- Values that come back make the parser insert the saved entries. -/
lemma parse_saved (hreturns : ∀ e ∈ saved m, '\x00' ∉ e.1 ∧ Returns e.2.var) (m₀ : Values)
    {fuel : ℕ} (hfuel : (textOf (saved m)).length + 1 < fuel) :
    parse hash fuel m₀ (textOf (saved m)) = m₀.insertAll hash fuel (saved m) := by
  have hcstr := cStr_textOf fun e he => ⟨(hreturns e he).1, hvars e he⟩
  obtain ⟨hread, hstalls⟩ := readEntries_textOf fun e he => ⟨hkeys e he, (hreturns e he).1,
    isDefault_of_mem_saved he, hvars e he, (hreturns e he).2⟩
  have hshort' : (cStr (textOf (saved m))).length < 2 ^ 32 := hcstr.symm ▸ hshort
  have hparse := parse_eq hash m₀ hshort' (hcstr.symm ▸ hstalls) (hcstr.symm ▸ hfuel)
  have hwell : WellFormed (textOf (saved m)) := by
    rw [WellFormed, hread]
    rfl
  rw [hcstr, hread] at hparse
  obtain ⟨p, -, ⟨-, -, -, h⟩ | ⟨hnot, -⟩⟩ := hparse
  · exact h
  · exact absurd hwell hnot

/-- Saving and parsing gives the entries back exactly when no key has a NUL, every value comes
back from its own text, and an empty table takes every entry in turn as a new one. -/
theorem roundTrips_iff : RoundTrips hash m ↔ (∀ e ∈ saved m, '\x00' ∉ e.1 ∧ Returns e.2.var) ∧
    ∀ m₀, Map.ofCapacity hash 0 = .ok m₀ → Map.Gathers hash m₀ (saved m) := by
  constructor
  · intro h
    have hreturns := h.returns hm hkeys hvars hshort
    refine ⟨hreturns, fun m₀ hempty => ?_⟩
    obtain ⟨fuel, hfuel, m₀', m', hempty', hparse, hentries⟩ :=
      h.run hm.tidy ((textOf (saved m)).length + 1)
    obtain rfl := Except.ok.inj (hempty.symm.trans hempty')
    obtain ⟨hm₀, hnone⟩ := ofCapacity_entries hempty
    rw [parse_saved hkeys hvars hshort hreturns m₀ hfuel] at hparse
    apply (Map.insertAll_card hm₀ hparse).2
    rw [hentries, hnone, Multiset.card_zero, Multiset.coe_card, Nat.add_zero]
  · rintro ⟨hreturns, hgathers⟩
    have hempty : Map.ofCapacity hash 0 =
        .ok (⟨0, [fun _ => 0, fun _ => 0], List.replicate 32 ([], default)⟩ : Values) := rfl
    obtain ⟨hm₀, hnone⟩ := ofCapacity_entries hempty
    obtain ⟨n, m', hinsert, hentries⟩ := (Map.insertAll_gathers_iff hm₀).2 (hgathers _ hempty)
    refine ⟨max n (max ((textOf (saved m)).length + 2) (m.buckets.length + 1)), m',
      fun fuel hfuel => ⟨textOf (saved m), _, ?_, hempty, ?_, ?_⟩⟩
    · exact save_eq hm.tidy (((le_max_right _ _).trans (le_max_right n _)).trans hfuel)
    · rw [parse_saved hkeys hvars hshort hreturns _
        (((le_max_left _ _).trans (le_max_right n _)).trans hfuel)]
      exact hinsert fuel ((le_max_left n _).trans hfuel)
    · rw [hentries, hnone, add_zero]
      exact saved_eq_entries hm.tidy

omit hm hkeys hvars hshort

/-- The map of a new `Config`. -/
def blank : Values := ⟨0, [fun _ => 0, fun _ => 0], List.replicate 32 ([], default)⟩

/-- A config with the one entry `x`, in the first slot of group `1`. -/
def single (v : Variant) : Values := (blank.put 1 0 1 (['x'], ⟨false, v⟩)).withCount 1

lemma blank_insert (v : Variant) :
    blank.insert (fun _ => 257) 2 ['x'] ⟨false, v⟩ = .ok (single v, none) := rfl

lemma single_reachable (v : Variant) : (single v).Reachable fun _ => 257 := by
  have hempty : Map.ofCapacity (fun _ => 257) 0 = .ok blank := rfl
  have hcall : blank.apply (fun _ => 257) 2 (.insert ['x'] ⟨false, v⟩) = .ok (single v, none) :=
    blank_insert v
  exact .call (.empty hempty) 2 _ hcall

lemma saved_single (v : Variant) : saved (single v) = [(['x'], ⟨false, v⟩)] := by
  have hlive : (single v).liveIndices = [16] := by
    have hsame : (single v).liveIndices = (single (.bool true)).liveIndices := rfl
    rw [hsame]
    decide +kernel
  rw [saved, Map.listed, hlive]
  rfl

lemma keyOk_x : KeyOk ['x'] := ⟨by decide, by decide, by simp, by simp⟩

end roundTrip

/-- `x = 1` comes back. -/
theorem roundTrips_iff_example : RoundTrips (fun _ => 257) (single (.long 1)) := by
  have hsaved := saved_single (.long 1)
  have hkeys : ∀ e ∈ saved (single (.long 1)), KeyOk e.1 := by
    simp [hsaved, keyOk_x]
  have hvars : ∀ e ∈ saved (single (.long 1)), VariantOk e.2.var := by
    simp [hsaved, VariantOk, longMin, longMax]
  refine (roundTrips_iff (single_reachable _) hkeys hvars ?_).2 ⟨?_, fun m₀ hempty => ?_⟩
  · rw [hsaved]
    decide +kernel
  · simp [hsaved, Returns]
  · obtain rfl : blank = m₀ := Except.ok.inj hempty
    have hload : blank.loadFactor = false := by decide +kernel
    have haccepts : Map.Accepts (fun _ => 257) blank ['x'] := by
      refine ⟨fun h => absurd (hload.symm.trans h) nofun, fun fuel m₁ hresize => ?_⟩
      obtain rfl : blank = m₁ := by
        unfold Map.checkResize at hresize
        rw [hload] at hresize
        exact Except.ok.inj hresize
      refine ⟨?_, ⟨0, by decide, 0, rfl⟩, by decide⟩
      rintro ⟨i, c, w, hat, -⟩
      exact hat.1.1 ((Map.ofCapacity_ok hempty).2 i c)
    rw [hsaved]
    exact .cons haccepts 2 (blank_insert _) (.nil _)

/-- `x = "a"` is saved and never parsed. -/
theorem plain_string_not_returned : ¬ ∀ (hash : List Char → UInt64) (m : Values), m.Reachable hash →
    (∀ e ∈ saved m, KeyOk e.1) → (∀ e ∈ saved m, VariantOk e.2.var) → RoundTrips hash m := by
  intro h
  have hsaved := saved_single (.string ['a'])
  have hkeys : ∀ e ∈ saved (single (.string ['a'])), KeyOk e.1 := by
    simp [hsaved, keyOk_x]
  have hvars : ∀ e ∈ saved (single (.string ['a'])), VariantOk e.2.var := by
    simp [hsaved, VariantOk, IsPrintable]
  have hshort : (textOf (saved (single (.string ['a'])))).length < 2 ^ 32 := by
    rw [hsaved]
    decide +kernel
  have hreturns := (h _ _ (single_reachable _) hkeys hvars).returns (single_reachable _) hkeys hvars
    hshort (['x'], ⟨false, .string ['a']⟩) (by rw [hsaved]; exact List.mem_singleton_self _)
  exact Bool.false_ne_true hreturns.2

end CoreCommon.Config
