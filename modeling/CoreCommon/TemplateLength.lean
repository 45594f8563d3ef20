import CoreCommon.Template

/-! The text that a template stands for, and the agreement of the length pass and the writing
pass on it. -/
namespace CoreCommon.Template

/-! ### Meaning -/

def escape (c : UInt8) : List UInt8 := (escaped c).getD [c]

mutual

/-- The text with all substitutions made. -/
def render : Template → TemplateArgs → List UInt8
  | .mk str _ _ _ _ subs, args => renderAll str subs 0 args

def renderAll (str : List UInt8) : List Substitution → ℕ → TemplateArgs → List UInt8
  | [], ptr, _ => str.drop ptr
  | sub :: subs, ptr, args =>
    (str.drop ptr).take (sub.offset - ptr) ++ renderOne sub args ++ renderAll str subs sub.offset args

def renderOne : Substitution → TemplateArgs → List UInt8
  | .block idx _ insertion inverted loop, args =>
    if loop then (args.loopArgs.getD idx []).flatMap fun arg => render insertion arg
    else if inverted ^^ decide (args.condArgs.getD idx 0 = 0) then [] else render insertion args
  | .arg idx _ noescape, args =>
    if noescape then args.subArgs.getD idx [] else (args.subArgs.getD idx []).flatMap escape

end

mutual

/-- The arguments have every index that the template uses. -/
def Supplies : Template → TemplateArgs → Prop
  | .mk _ _ _ _ _ subs, args => SuppliesAll subs args

def SuppliesAll : List Substitution → TemplateArgs → Prop
  | [], _ => True
  | sub :: subs, args => SuppliesOne sub args ∧ SuppliesAll subs args

def SuppliesOne : Substitution → TemplateArgs → Prop
  | .block idx _ insertion inverted loop, args =>
    if loop then ∃ vector, args.loopArgs[idx]? = some vector ∧ ∀ arg ∈ vector, Supplies insertion arg
    else ∃ cond, args.condArgs[idx]? = some cond ∧
      (inverted = decide (cond = 0) → Supplies insertion args)
  | .arg idx _ _, args => idx < args.subArgs.length

end

mutual

/-- The offsets go forward inside the text. -/
def Ordered : Template → Prop
  | .mk str _ _ _ _ subs => OrderedAll str.length subs 0

def OrderedAll (len : ℕ) : List Substitution → ℕ → Prop
  | [], ptr => ptr ≤ len
  | sub :: subs, ptr => ptr ≤ sub.offset ∧ OrderedOne sub ∧ OrderedAll len subs sub.offset

def OrderedOne : Substitution → Prop
  | .block _ _ insertion _ _ => Ordered insertion
  | .arg _ _ _ => True

end

/-! ### Parsed templates are ordered -/

section parsing
variable {len ptr : ℕ} {subs : List Substitution}

lemma OrderedAll.le (h : OrderedAll len subs ptr) : ptr ≤ len := by
  induction subs generalizing ptr with
  | nil => exact h
  | cons sub subs ih => exact h.1.trans (ih h.2.2)

lemma OrderedAll.mono {len' : ℕ} (h : OrderedAll len subs ptr) (hlen : len ≤ len') :
    OrderedAll len' subs ptr := by
  induction subs generalizing ptr with
  | nil => exact le_trans h hlen
  | cons sub subs ih => exact ⟨h.1, h.2.1, ih h.2.2⟩

lemma OrderedAll.push {sub : Substitution} (h : OrderedAll len subs ptr) (hoffset : sub.offset = len)
    (hsub : OrderedOne sub) : OrderedAll len (subs ++ [sub]) ptr := by
  induction subs generalizing ptr with
  | nil => exact ⟨hoffset ▸ h, hsub, hoffset.le⟩
  | cons first subs ih => exact ⟨h.1, h.2.1, ih h.2.2⟩

lemma Ordered.write {template : Template} (h : template.Ordered) (c : UInt8) :
    (template.write c).Ordered := by
  obtain ⟨str, skip, maxArgs, maxCond, maxLoop, subs⟩ := template
  exact OrderedAll.mono h (by simp)

lemma Ordered.withSkip {template : Template} (h : template.Ordered) (skip : ℕ) :
    (template.withSkip skip).Ordered := by
  obtain ⟨⟩ := template
  exact h

lemma Ordered.pushArg {template : Template} (h : template.Ordered) (c : UInt8) (noescape : Bool) :
    (template.pushArg c noescape).Ordered := by
  obtain ⟨str, skip, maxArgs, maxCond, maxLoop, subs⟩ := template
  exact OrderedAll.push h rfl trivial

lemma Ordered.pushBlock {template insertion : Template} (h : template.Ordered)
    (hinsertion : insertion.Ordered) (c : UInt8) (inverted loop : Bool) :
    (template.pushBlock c inverted loop insertion).Ordered := by
  obtain ⟨str, skip, maxArgs, maxCond, maxLoop, subs⟩ := template
  obtain ⟨⟩ := insertion
  exact OrderedAll.push h rfl hinsertion

lemma scan_ordered {fuel pos : ℕ} {prev : Option UInt8} {data : List UInt8}
    {template template' : Template} (h : template.Ordered)
    (hrun : scan fuel pos prev data template = .ok template') : template'.Ordered := by
  induction fuel generalizing pos prev data template template' with
  | zero => cases hrun
  | succ fuel ih =>
    cases data with
    | nil =>
      cases hrun
      exact h
    | cons c rest =>
      unfold scan at hrun
      split_ifs at hrun with hend hprev hpercent
      · exact ih (h.write _) hrun
      · cases hrun
        exact h.withSkip _
      · cases rest with
        | nil => cases hrun
        | cons d rest =>
          dsimp only at hrun
          by_cases hescape : d = byte '%'
          · rw [if_pos hescape] at hrun
            exact ih (h.write _) hrun
          rw [if_neg hescape] at hrun
          by_cases hcond : d = byte '!'
          · rw [if_pos hcond] at hrun
            split at hrun
            · cases hrun
            · obtain ⟨insertion, hinsertion, hrun⟩ := Run.bind_eq_ok.1 hrun
              have hempty : empty.Ordered := le_refl 0
              exact ih (h.pushBlock (ih hempty hinsertion) _ _ _) hrun
          · rw [if_neg hcond] at hrun
            split at hrun
            · cases hrun
            · exact ih (h.pushArg _ _) hrun
      · exact ih (h.write _) hrun

end parsing

/-! ### Writing -/

/-- The first cells are written, up to the cursor. -/
def Out.split (written free : List (Option UInt8)) : Out := ⟨written ++ free, written.length⟩

/-- With enough room the call writes the text at the cursor and nothing else. -/
def Writes (f : Out → Run Out) (text : List UInt8) : Prop :=
  ∀ written free, text.length ≤ free.length →
    f (Out.split written free) =
      .ok (Out.split (written ++ text.map some) (free.drop text.length))

section writing
variable {f g : Out → Run Out} {text text' : List UInt8}

lemma Writes.nil : Writes .ok [] := by
  intro written free _
  rw [List.map_nil, List.append_nil]
  rfl

lemma Writes.bind (hf : Writes f text) (hg : Writes g text') :
    Writes (fun out => f out >>= g) (text ++ text') := by
  intro written free hroom
  rw [List.length_append] at hroom ⊢
  dsimp only
  rw [hf written free (by omega), Run.bind_ok, hg _ _ (by rw [List.length_drop]; omega),
    List.map_append, List.append_assoc, List.drop_drop]

lemma Writes.foldlM {α : Type} {f : Out → α → Run Out} {text : α → List UInt8} {l : List α}
    (hf : ∀ x ∈ l, Writes (fun out => f out x) (text x)) :
    Writes (fun out => l.foldlM f out) (l.flatMap text) := by
  induction l with
  | nil => exact Writes.nil
  | cons x l ih =>
    simp only [List.foldlM_cons, List.flatMap_cons]
    exact (hf x List.mem_cons_self).bind (ih fun y hy => hf y (List.mem_cons_of_mem x hy))

lemma put_writes (c : UInt8) : Writes (fun out => out.put c) [c] := by
  intro written free hroom
  cases free with
  | nil => simp at hroom
  | cons cell free => simp [Out.put, Out.split]

lemma memcpy_writes (text : List UInt8) : Writes (fun out => out.memcpy text) text := by
  have h : Writes (fun out => out.memcpy text) (text.flatMap fun c => [c]) :=
    Writes.foldlM fun c _ => put_writes c
  rwa [List.flatMap_singleton'] at h

lemma putEscaped_writes (c : UInt8) : Writes (fun out => out.putEscaped c) (escape c) := by
  unfold Out.putEscaped escape
  cases escaped c with
  | none => exact put_writes c
  | some text => exact memcpy_writes text

end writing

/-! ### Both passes -/

lemma escapedLength_eq (c : UInt8) : escapedLength c = (escape c).length := by
  unfold escapedLength escape escaped
  by_cases hquote : c = byte '"'
  · subst hquote
    rfl
  · simp only [hquote, if_false]
    split_ifs <;> rfl

lemma foldl_escapedLength (text : List UInt8) (len : ℕ) :
    text.foldl (fun len c => len + escapedLength c) len = len + (text.flatMap escape).length := by
  induction text generalizing len with
  | nil => rfl
  | cons c text ih =>
    rw [List.foldl_cons, ih, List.flatMap_cons, List.length_append, escapedLength_eq, Nat.add_assoc]

lemma get_eq {α : Type} {l : List α} {idx : ℕ} {x : α} (h : l[idx]? = some x) (d : α) :
    TemplateArgs.get l idx = .ok x ∧ l.getD idx d = x := by
  rw [TemplateArgs.get, List.getD_eq_getElem?_getD, h]
  exact ⟨rfl, rfl⟩

lemma foldlM_length {α : Type} {f : ℕ → α → Run ℕ} {text : α → List UInt8} {l : List α}
    (hf : ∀ x ∈ l, ∀ len, f len x = .ok (len + (text x).length)) (len : ℕ) :
    l.foldlM f len = .ok (len + (l.flatMap text).length) := by
  induction l generalizing len with
  | nil => rfl
  | cons x l ih =>
    rw [List.foldlM_cons, hf x List.mem_cons_self, Run.bind_ok,
      ih fun y hy => hf y (List.mem_cons_of_mem x hy), List.flatMap_cons, List.length_append,
      Nat.add_assoc]

lemma xor_cond {inverted : Bool} {cond : ℤ} (h : ¬ (inverted ^^ decide (cond = 0)) = true) :
    inverted = decide (cond = 0) := by
  cases inverted <;> cases hc : decide (cond = 0) <;> simp_all

mutual

/-- The length pass counts the bytes of the text. -/
lemma length_eq (template : Template) (args : TemplateArgs) (horder : template.Ordered)
    (hargs : template.Supplies args) (len : ℕ) :
    template.length len args = .ok (len + (template.render args).length) := by
  cases template with
  | mk str skip maxArgs maxCond maxLoop subs =>
    obtain ⟨n, hn, hlen⟩ := lengthAll_eq str subs 0 args horder hargs (len + str.length)
    rw [length, hn, render]
    congr 1
    omega

lemma lengthAll_eq (str : List UInt8) (subs : List Substitution) (ptr : ℕ) (args : TemplateArgs)
    (horder : OrderedAll str.length subs ptr) (hargs : SuppliesAll subs args) (len : ℕ) :
    ∃ n, lengthAll subs len args = .ok n ∧
      n + (str.length - ptr) = len + (renderAll str subs ptr args).length := by
  cases subs with
  | nil => exact ⟨len, rfl, by rw [renderAll, List.length_drop]⟩
  | cons sub subs =>
    obtain ⟨hle, hsub, hrest⟩ := horder
    have hstr := hrest.le
    obtain ⟨n, hn, hlen⟩ := lengthAll_eq str subs sub.offset args hrest hargs.2
      (len + (renderOne sub args).length)
    refine ⟨n, ?_, ?_⟩
    · rw [lengthAll, lengthOne_eq sub args hsub hargs.1, Run.bind_ok, hn]
    · rw [renderAll, List.length_append, List.length_append, List.length_take, List.length_drop]
      omega

lemma lengthOne_eq (sub : Substitution) (args : TemplateArgs) (horder : OrderedOne sub)
    (hargs : SuppliesOne sub args) (len : ℕ) :
    lengthOne sub len args = .ok (len + (renderOne sub args).length) := by
  cases sub with
  | arg idx offset noescape =>
    obtain ⟨hget, hgetD⟩ := get_eq (List.getElem?_eq_getElem hargs) []
    rw [lengthOne, hget, Run.bind_ok, renderOne, hgetD, foldl_escapedLength]
    split_ifs <;> rfl
  | block idx offset insertion inverted loop =>
    rw [SuppliesOne] at hargs
    rw [lengthOne, renderOne]
    by_cases hloop : loop = true
    · simp only [if_pos hloop] at hargs ⊢
      obtain ⟨vector, hvector, hall⟩ := hargs
      obtain ⟨hget, hgetD⟩ := get_eq hvector []
      rw [hget, Run.bind_ok, hgetD]
      exact foldlM_length (fun arg harg => length_eq insertion arg horder (hall arg harg)) len
    · simp only [if_neg hloop] at hargs ⊢
      obtain ⟨cond, hcond, htaken⟩ := hargs
      obtain ⟨hget, hgetD⟩ := get_eq hcond 0
      rw [hget, Run.bind_ok, hgetD]
      split_ifs with hskip
      · rfl
      · exact length_eq insertion args horder (htaken (xor_cond hskip)) len

end

lemma slice_eq {str : List UInt8} {start stop : ℕ} (hle : start ≤ stop) (hstop : stop ≤ str.length) :
    slice str start stop = .ok ((str.drop start).take (stop - start)) :=
  if_pos ⟨hle, hstop⟩

mutual

/-- The writing pass writes the text. -/
lemma substitute_writes (template : Template) (args : TemplateArgs) (horder : template.Ordered)
    (hargs : template.Supplies args) :
    Writes (fun out => template.substitute out args) (template.render args) := by
  cases template with
  | mk str skip maxArgs maxCond maxLoop subs =>
    simp only [substitute, render]
    exact substituteAll_writes str subs 0 args horder hargs

lemma substituteAll_writes (str : List UInt8) (subs : List Substitution) (ptr : ℕ)
    (args : TemplateArgs) (horder : OrderedAll str.length subs ptr) (hargs : SuppliesAll subs args) :
    Writes (fun out => substituteAll str subs ptr out args) (renderAll str subs ptr args) := by
  cases subs with
  | nil =>
    have hslice := slice_eq horder (le_refl str.length)
    rw [List.take_of_length_le (List.length_drop).le] at hslice
    simp only [substituteAll, renderAll, hslice, Run.bind_ok]
    exact memcpy_writes _
  | cons sub subs =>
    obtain ⟨hle, hsub, hrest⟩ := horder
    simp only [substituteAll, renderAll, slice_eq hle hrest.le, Run.bind_ok, List.append_assoc]
    exact (memcpy_writes _).bind ((substituteOne_writes sub args hsub hargs.1).bind
      (substituteAll_writes str subs sub.offset args hrest hargs.2))

lemma substituteOne_writes (sub : Substitution) (args : TemplateArgs) (horder : OrderedOne sub)
    (hargs : SuppliesOne sub args) :
    Writes (fun out => substituteOne sub out args) (renderOne sub args) := by
  cases sub with
  | arg idx offset noescape =>
    obtain ⟨hget, hgetD⟩ := get_eq (List.getElem?_eq_getElem hargs) []
    simp only [substituteOne, renderOne, hget, hgetD, Run.bind_ok]
    split_ifs
    · exact memcpy_writes _
    · exact Writes.foldlM fun c _ => putEscaped_writes c
  | block idx offset insertion inverted loop =>
    rw [SuppliesOne] at hargs
    simp only [substituteOne, renderOne]
    by_cases hloop : loop = true
    · simp only [if_pos hloop] at hargs ⊢
      obtain ⟨vector, hvector, hall⟩ := hargs
      obtain ⟨hget, hgetD⟩ := get_eq hvector []
      simp only [hget, hgetD, Run.bind_ok]
      exact Writes.foldlM fun arg harg => substitute_writes insertion arg horder (hall arg harg)
    · simp only [if_neg hloop] at hargs ⊢
      obtain ⟨cond, hcond, htaken⟩ := hargs
      obtain ⟨hget, hgetD⟩ := get_eq hcond 0
      simp only [hget, hgetD, Run.bind_ok]
      split_ifs with hskip
      · exact Writes.nil
      · exact substitute_writes insertion args horder (htaken (xor_cond hskip))

end

/-- For a parsed template and arguments with every index that it uses: into memory with room for
`n` more bytes the writing pass writes exactly the `n` bytes that the length pass counts, and
`do_template_va` sets all the memory that it asks for and no more. -/
theorem passes_agree {fuel : ℕ} {data : List UInt8} {template : Template} {args : TemplateArgs}
    (hnew : new fuel data = .ok template) (hargs : template.Supplies args) : ∃ n,
    (∀ len, template.length len args = .ok (len + n)) ∧
    (∀ out : Out, out.pos + n ≤ out.cells.length → ∃ out', template.substitute out args = .ok out' ∧
      out'.pos = out.pos + n ∧ out'.cells.length = out.cells.length) ∧
    ∃ text : List UInt8, text.length = n ∧
      doTemplate template args = .ok ((text ++ [0]).map some) := by
  have hempty : empty.Ordered := le_refl 0
  have horder : template.Ordered := scan_ordered hempty hnew
  have hlength := length_eq template args horder hargs
  have hwrites := substitute_writes template args horder hargs
  refine ⟨(template.render args).length, hlength, fun out hroom => ?_, template.render args, rfl, ?_⟩
  · obtain ⟨cells, pos⟩ := out
    dsimp only at hroom
    have hsplit : (⟨cells, pos⟩ : Out) = Out.split (cells.take pos) (cells.drop pos) := by
      rw [Out.split, List.take_append_drop, List.length_take, Nat.min_eq_left (by omega)]
    have hrun := hwrites (cells.take pos) (cells.drop pos) (by rw [List.length_drop]; omega)
    rw [← hsplit] at hrun
    refine ⟨_, hrun, ?_, ?_⟩
    · simp only [Out.split, List.length_append, List.length_map, List.length_take]
      omega
    · simp only [Out.split, List.length_append, List.length_map, List.length_take, List.length_drop]
      omega
  · have hrun := hwrites [] (List.replicate ((template.render args).length + 1) none)
      (by rw [List.length_replicate]; omega)
    unfold doTemplate
    rw [hlength, Run.bind_ok, Nat.zero_add]
    have hstart : (⟨List.replicate ((template.render args).length + 1) none, 0⟩ : Out) =
      Out.split [] (List.replicate ((template.render args).length + 1) none) := rfl
    dsimp only at hrun
    rw [hstart, hrun, Run.bind_ok]
    simp [Out.split]

/-- `%0%!*0%0!%` with a loop of two rounds. -/
theorem passes_agree_example :
    let template : Template := .mk [] 0 1 0 1
      [.arg 0 0 false, .block 0 0 (.mk [] 4 1 0 0 [.arg 0 0 false]) false true]
    let args : TemplateArgs := .mk [] [[.mk [] [] [bytes "<"], .mk [] [] [bytes "b"]]] [bytes "a"]
    new 20 (bytes "%0%!*0%0!%") = .ok template ∧ ∃ n,
      (∀ len, template.length len args = .ok (len + n)) ∧
      (∀ out : Out, out.pos + n ≤ out.cells.length → ∃ out', template.substitute out args = .ok out' ∧
        out'.pos = out.pos + n ∧ out'.cells.length = out.cells.length) ∧
      ∃ text : List UInt8, text.length = n ∧
        doTemplate template args = .ok ((text ++ [0]).map some) := by
  intro template args
  have hnew : new 20 (bytes "%0%!*0%0!%") = .ok template := rfl
  have hargs : template.Supplies args := by
    simp [template, args, Supplies, SuppliesAll, SuppliesOne, TemplateArgs.loopArgs,
      TemplateArgs.subArgs]
  exact ⟨hnew, passes_agree hnew hargs⟩

end CoreCommon.Template
