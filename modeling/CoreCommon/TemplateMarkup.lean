import CoreCommon.TemplateMeaning

/-! What escaped arguments can do to the markup of the text written: nothing. -/
namespace CoreCommon.Template

/-! ### Markup -/

def IsMarkup (c : UInt8) : Prop := c = byte '<' ∨ c = byte '>' ∨ c = byte '"' ∨ c = byte '\''

instance (c : UInt8) : Decidable (IsMarkup c) := inferInstanceAs (Decidable (_ ∨ _ ∨ _ ∨ _))

/-- The bytes of a text that open and close tags and attribute values, in order. -/
def markup (text : List UInt8) : List UInt8 := text.filter IsMarkup

lemma markup_append (l l' : List UInt8) : markup (l ++ l') = markup l ++ markup l' :=
  List.filter_append l l'

lemma markup_flatMap {α : Type} (l : List α) (f : α → List UInt8) :
    markup (l.flatMap f) = l.flatMap fun x => markup (f x) := by
  induction l with
  | nil => rfl
  | cons x l ih => rw [List.flatMap_cons, markup_append, ih, List.flatMap_cons]

lemma flatMap_forall₂ {α β γ : Type} {R : α → β → Prop} {f : α → List γ} {f' : β → List γ}
    {l : List α} {l' : List β} (h : List.Forall₂ R l l') (hf : ∀ x y, R x y → f x = f' y) :
    l.flatMap f = l'.flatMap f' := by
  induction h with
  | nil => rfl
  | cons hxy _ ih => rw [List.flatMap_cons, List.flatMap_cons, hf _ _ hxy, ih]

lemma markup_escape (c : UInt8) : markup (escape c) = [] := by
  unfold escape escaped
  split_ifs with hlt hgt hamp hquot hapos
  · rfl
  · rfl
  · rfl
  · rfl
  · rfl
  · have hplain : ¬ IsMarkup c := fun h => h.elim hlt fun h => h.elim hgt fun h => h.elim hquot hapos
    rw [Option.getD_none, markup, List.filter_singleton, decide_eq_false hplain]
    rfl

lemma markup_escaped (text : List UInt8) : markup (text.flatMap escape) = [] := by
  rw [markup_flatMap, List.flatMap_eq_nil_iff]
  exact fun c _ => markup_escape c

mutual

/-- The arguments make the same choices, and agree in the markup of what is put in raw. -/
def Alike : Template → TemplateArgs → TemplateArgs → Prop
  | .mk _ _ _ _ _ subs, args, args' => AlikeAll subs args args'

def AlikeAll : List Substitution → TemplateArgs → TemplateArgs → Prop
  | [], _, _ => True
  | sub :: subs, args, args' => AlikeOne sub args args' ∧ AlikeAll subs args args'

def AlikeOne : Substitution → TemplateArgs → TemplateArgs → Prop
  | .block idx _ insertion inverted loop, args, args' =>
    if loop then List.Forall₂ (fun arg arg' => Alike insertion arg arg')
      (args.loopArgs.getD idx []) (args'.loopArgs.getD idx [])
    else (args.condArgs.getD idx 0 = 0 ↔ args'.condArgs.getD idx 0 = 0) ∧
      (¬ (inverted ^^ decide (args.condArgs.getD idx 0 = 0)) → Alike insertion args args')
  | .arg idx _ noescape, args, args' =>
    noescape → markup (args.subArgs.getD idx []) = markup (args'.subArgs.getD idx [])

end

mutual

lemma markup_render (template : Template) {args args' : TemplateArgs}
    (h : template.Alike args args') :
    markup (template.render args) = markup (template.render args') := by
  cases template with
  | mk str skip maxArgs maxCond maxLoop subs => exact markup_renderAll str subs 0 h

lemma markup_renderAll (str : List UInt8) (subs : List Substitution) (ptr : ℕ)
    {args args' : TemplateArgs} (h : AlikeAll subs args args') :
    markup (renderAll str subs ptr args) = markup (renderAll str subs ptr args') := by
  cases subs with
  | nil => rfl
  | cons sub subs =>
    rw [renderAll, renderAll]
    simp only [markup_append]
    rw [markup_renderOne sub h.1, markup_renderAll str subs sub.offset h.2]

lemma markup_renderOne (sub : Substitution) {args args' : TemplateArgs}
    (h : AlikeOne sub args args') :
    markup (renderOne sub args) = markup (renderOne sub args') := by
  cases sub with
  | arg idx offset noescape =>
    rw [renderOne, renderOne]
    cases noescape with
    | true => exact h rfl
    | false => simp only [Bool.false_eq_true, if_false, markup_escaped]
  | block idx offset insertion inverted loop =>
    rw [AlikeOne] at h
    rw [renderOne, renderOne]
    by_cases hloop : loop = true
    · simp only [if_pos hloop] at h ⊢
      rw [markup_flatMap, markup_flatMap]
      exact flatMap_forall₂ h fun arg arg' harg => markup_render insertion harg
    · simp only [if_neg hloop] at h ⊢
      obtain ⟨hcond, hbody⟩ := h
      have hdecide : decide (args.condArgs.getD idx 0 = 0) =
          decide (args'.condArgs.getD idx 0 = 0) := decide_eq_decide.2 hcond
      rw [← hdecide]
      split_ifs with hskip
      · rfl
      · exact markup_render insertion (hbody hskip)

end

/-- What a reader of the document makes of a text with the five references. -/
def unescape : List UInt8 → List UInt8
  | 38 :: 108 :: 116 :: 59 :: rest => byte '<' :: unescape rest
  | 38 :: 103 :: 116 :: 59 :: rest => byte '>' :: unescape rest
  | 38 :: 97 :: 109 :: 112 :: 59 :: rest => byte '&' :: unescape rest
  | 38 :: 113 :: 117 :: 111 :: 116 :: 59 :: rest => byte '"' :: unescape rest
  | 38 :: 35 :: 51 :: 57 :: 59 :: rest => byte '\'' :: unescape rest
  | c :: rest => c :: unescape rest
  | [] => []

lemma unescape_escape (c : UInt8) (rest : List UInt8) :
    unescape (escape c ++ rest) = c :: unescape rest := by
  unfold escape escaped
  split_ifs with hlt hgt hamp hquot hapos
  · subst hlt; rfl
  · subst hgt; rfl
  · subst hamp; rfl
  · subst hquot; rfl
  · subst hapos; rfl
  · have hc : c ≠ 38 := hamp
    rw [Option.getD_none, List.singleton_append]
    exact unescape.eq_6 c rest (fun _ h _ => hc h) (fun _ h _ => hc h) (fun _ h _ => hc h)
      (fun _ h _ => hc h) (fun _ h _ => hc h)

lemma unescape_flatMap (text : List UInt8) : unescape (text.flatMap escape) = text := by
  induction text with
  | nil => rfl
  | cons c text ih => rw [List.flatMap_cons, unescape_escape, ih]

/-- Whatever the argument and wherever there is room for it: an escaped substitution writes a
text behind the cursor that has no markup and that is read back as the argument, and it writes
nothing else. -/
theorem escaped_reads_back {idx offset : ℕ} {args : TemplateArgs} {arg : List UInt8}
    (harg : args.subArgs[idx]? = some arg) : ∃ text, unescape text = arg ∧ markup text = [] ∧
      ∀ written free, text.length ≤ free.length →
        substituteOne (.arg idx offset false) (Out.split written free) args =
          .ok (Out.split (written ++ text.map some) (free.drop text.length)) := by
  have hidx : idx < args.subArgs.length := (List.getElem?_eq_some_iff.1 harg).1
  have hwrites := substituteOne_writes (.arg idx offset false) args trivial hidx
  have hrender : renderOne (.arg idx offset false) args = arg.flatMap escape := by
    rw [renderOne, if_neg Bool.false_ne_true, (get_eq harg []).2]
  rw [hrender] at hwrites
  exact ⟨arg.flatMap escape, unescape_flatMap arg, markup_escaped arg, hwrites⟩

/-- A tag as an argument. -/
theorem escaped_reads_back_tag : ∃ text, unescape text = bytes "<b>" ∧ markup text = [] ∧
    ∀ written free, text.length ≤ free.length →
      substituteOne (.arg 0 0 false) (Out.split written free) (.mk [] [] [bytes "<b>"]) =
        .ok (Out.split (written ++ text.map some) (free.drop text.length)) :=
  escaped_reads_back rfl

end CoreCommon.Template
