import CoreCommon.TemplateCounts
import CoreCommon.TemplateLength

/-! What a template text stands for, and that the parsed template writes it. The writing pass
frees the vector of a loop that it has written, so it may reach no vector twice. -/
namespace CoreCommon

namespace TemplateText
open Template (byte escape)

/-- The text with its constructs replaced by what they stand for. -/
def text : TemplateText → TemplateArgs → List UInt8
  | nil, _ => []
  | literal c rest, args => c :: rest.text args
  | percent rest, args => byte '%' :: rest.text args
  | bangPercent rest, args => byte '!' :: byte '%' :: rest.text args
  | arg i noescape rest, args =>
    (if noescape then args.subArgs.getD i [] else (args.subArgs.getD i []).flatMap escape) ++
      rest.text args
  | block .condition i body rest, args =>
    (if args.condArgs.getD i 0 = 0 then [] else body.text args) ++ rest.text args
  | block .inverted i body rest, args =>
    (if args.condArgs.getD i 0 = 0 then body.text args else []) ++ rest.text args
  | block .loop i body rest, args =>
    ((args.loopArgs.getD i []).flatMap fun arg => body.text arg) ++ rest.text args

/-- The vectors of `args` whose loops are reached, in this order. -/
def loops : TemplateText → TemplateArgs → List ℕ
  | nil, _ => []
  | literal _ rest, args => rest.loops args
  | percent rest, args => rest.loops args
  | bangPercent rest, args => rest.loops args
  | arg _ _ rest, args => rest.loops args
  | block .condition i body rest, args =>
    (if args.condArgs.getD i 0 = 0 then [] else body.loops args) ++ rest.loops args
  | block .inverted i body rest, args =>
    (if args.condArgs.getD i 0 = 0 then body.loops args else []) ++ rest.loops args
  | block .loop i _ rest, args => i.val :: rest.loops args

/-- No round of a loop reaches a vector of its own arguments twice. -/
def RoundsOnce : TemplateText → TemplateArgs → Prop
  | nil, _ => True
  | literal _ rest, args => rest.RoundsOnce args
  | percent rest, args => rest.RoundsOnce args
  | bangPercent rest, args => rest.RoundsOnce args
  | arg _ _ rest, args => rest.RoundsOnce args
  | block .condition i body rest, args =>
    (args.condArgs.getD i 0 ≠ 0 → body.RoundsOnce args) ∧ rest.RoundsOnce args
  | block .inverted i body rest, args =>
    (args.condArgs.getD i 0 = 0 → body.RoundsOnce args) ∧ rest.RoundsOnce args
  | block .loop i body rest, args =>
    (∀ arg ∈ args.loopArgs.getD i [], (body.loops arg).Nodup ∧ body.RoundsOnce arg) ∧
      rest.RoundsOnce args

end TemplateText

namespace Template

/-! ### The writing pass with its frees -/

mutual

/-- `template_substitute`: the new `*out`, and the indices of the vectors freed so far. -/
def substituteFreeing : Template → Out → TemplateArgs → List ℕ → Run (Out × List ℕ)
  | .mk str _ _ _ _ subs, out, args, freed => substituteFreeingAll str subs 0 out args freed

def substituteFreeingAll (str : List UInt8) : List Substitution → ℕ → Out → TemplateArgs →
    List ℕ → Run (Out × List ℕ)
  | [], ptr, out, _, freed => do
    let rest ← slice str ptr str.length
    let out ← out.memcpy rest
    .ok (out, freed)
  | sub :: subs, ptr, out, args, freed => do
    let before ← slice str ptr sub.offset
    let out ← out.memcpy before
    let (out, freed) ← substituteFreeingOne sub out args freed
    substituteFreeingAll str subs sub.offset out args freed

def substituteFreeingOne : Substitution → Out → TemplateArgs → List ℕ → Run (Out × List ℕ)
  | .block idx _ insertion inverted loop, out, args, freed =>
    if loop then
      -- a freed vector may not be read
      if idx ∈ freed then .error .undefined
      else do
        let vector ← TemplateArgs.get args.loopArgs idx
        let out ← vector.foldlM (fun out arg => do
          let (out, _) ← substituteFreeing insertion out arg []
          .ok out) out
        .ok (out, freed ++ [idx])
    else do
      let cond ← TemplateArgs.get args.condArgs idx
      if inverted ^^ decide (cond = 0) then .ok (out, freed)
      else substituteFreeing insertion out args freed
  | .arg idx _ noescape, out, args, freed => do
    let arg ← TemplateArgs.get args.subArgs idx
    let out ← if noescape then out.memcpy arg else arg.foldlM Out.putEscaped out
    .ok (out, freed)

end

mutual

/-- The vectors of `args` whose loops are reached. -/
def reached : Template → TemplateArgs → List ℕ
  | .mk _ _ _ _ _ subs, args => reachedAll subs args

def reachedAll : List Substitution → TemplateArgs → List ℕ
  | [], _ => []
  | sub :: subs, args => reachedOne sub args ++ reachedAll subs args

def reachedOne : Substitution → TemplateArgs → List ℕ
  | .block idx _ insertion inverted loop, args =>
    if loop then [idx]
    else if inverted ^^ decide (args.condArgs.getD idx 0 = 0) then [] else reached insertion args
  | .arg _ _ _, _ => []

end

mutual

/-- No round of a loop reaches a vector of its own arguments twice. -/
def RoundsOnce : Template → TemplateArgs → Prop
  | .mk _ _ _ _ _ subs, args => RoundsOnceAll subs args

def RoundsOnceAll : List Substitution → TemplateArgs → Prop
  | [], _ => True
  | sub :: subs, args => RoundsOnceOne sub args ∧ RoundsOnceAll subs args

def RoundsOnceOne : Substitution → TemplateArgs → Prop
  | .block idx _ insertion inverted loop, args =>
    if loop then ∀ arg ∈ args.loopArgs.getD idx [],
      (reached insertion arg).Nodup ∧ RoundsOnce insertion arg
    else ¬ (inverted ^^ decide (args.condArgs.getD idx 0 = 0)) → RoundsOnce insertion args
  | .arg _ _ _, _ => True

end

/-- The call does what `g` does and frees `l`, unless a freed vector is read. -/
def Frees (f : Out → List ℕ → Run (Out × List ℕ)) (g : Out → Run Out) (rounds : Prop)
    (l : List ℕ) : Prop :=
  ∀ out freed r, freed.Nodup → (f out freed = .ok r ↔
    rounds ∧ (freed ++ l).Nodup ∧ ∃ out', g out = .ok out' ∧ r = (out', freed ++ l))

section frees
variable {f f' : Out → List ℕ → Run (Out × List ℕ)} {g g' : Out → Run Out} {rounds rounds' : Prop}
  {l l' : List ℕ}

lemma Frees.keep (g : Out → Run Out) :
    Frees (fun out freed => g out >>= fun out => .ok (out, freed)) g True [] := by
  intro out freed r hfreed
  simp only [Run.bind_eq_ok, List.append_nil, hfreed, true_and, Except.ok.injEq]
  exact exists_congr fun out' => and_congr_right fun _ => eq_comm

lemma Frees.bind (hf : Frees f g rounds l) (hf' : Frees f' g' rounds' l') :
    Frees (fun out freed => f out freed >>= fun r => f' r.1 r.2) (fun out => g out >>= g')
      (rounds ∧ rounds') (l ++ l') := by
  intro out freed r hfreed
  simp only [Run.bind_eq_ok, ← List.append_assoc]
  constructor
  · rintro ⟨r₁, hr₁, hr⟩
    obtain ⟨hrounds, hnodup, out₁, hout₁, rfl⟩ := (hf out freed r₁ hfreed).1 hr₁
    obtain ⟨hrounds', hnodup', out', hout', rfl⟩ := (hf' _ _ r hnodup).1 hr
    exact ⟨⟨hrounds, hrounds'⟩, hnodup', out', ⟨out₁, hout₁, hout'⟩, rfl⟩
  · rintro ⟨⟨hrounds, hrounds'⟩, hnodup', out', ⟨out₁, hout₁, hout'⟩, rfl⟩
    have hnodup : (freed ++ l).Nodup := hnodup'.of_append_left
    exact ⟨_, (hf out freed _ hfreed).2 ⟨hrounds, hnodup, out₁, hout₁, rfl⟩,
      (hf' _ _ _ hnodup).2 ⟨hrounds', hnodup', out', hout', rfl⟩⟩

lemma Frees.congr (hf : Frees f g rounds l) (h : ∀ out freed, f' out freed = f out freed)
    (hg : ∀ out, g' out = g out) (hrounds : rounds' ↔ rounds) (hl : l' = l) :
    Frees f' g' rounds' l' := by
  intro out freed r hfreed
  rw [h, hg, hrounds, hl]
  exact hf out freed r hfreed

end frees

/-- Rounds that each go as without frees, under a condition on the argument. -/
lemma foldlM_guard {α β : Type} {f g : β → α → Run β} {p : α → Prop} {vector : List α}
    (h : ∀ x ∈ vector, ∀ out out', f out x = .ok out' ↔ p x ∧ g out x = .ok out') (out out' : β) :
    vector.foldlM f out = .ok out' ↔ (∀ x ∈ vector, p x) ∧ vector.foldlM g out = .ok out' := by
  induction vector generalizing out with
  | nil => simp
  | cons x vector ih =>
    have ih := ih fun y hy => h y (List.mem_cons_of_mem x hy)
    simp only [List.foldlM_cons, Run.bind_eq_ok, h x List.mem_cons_self, ih, List.forall_mem_cons]
    constructor
    · rintro ⟨out₁, ⟨hx, hout₁⟩, hall, hout'⟩
      exact ⟨⟨hx, hall⟩, out₁, hout₁, hout'⟩
    · rintro ⟨⟨hx, hall⟩, out₁, hout₁, hout'⟩
      exact ⟨out₁, ⟨hx, hout₁⟩, hall, hout'⟩

/-- A loop reads its vector, which no one may have freed, and frees it. -/
lemma loop_frees {f : Out → TemplateArgs → List ℕ → Run (Out × List ℕ)}
    {g : Out → TemplateArgs → Run Out} {rounds : TemplateArgs → Prop} {l : TemplateArgs → List ℕ}
    (h : ∀ arg, Frees (fun out freed => f out arg freed) (fun out => g out arg) (rounds arg) (l arg))
    (args : TemplateArgs) (idx : ℕ) :
    Frees (fun out freed =>
      if idx ∈ freed then .error .undefined
      else do
        let vector ← TemplateArgs.get args.loopArgs idx
        let out ← vector.foldlM (fun out arg => do
          let (out, _) ← f out arg []
          .ok out) out
        .ok (out, freed ++ [idx]))
      (fun out => do
        let vector ← TemplateArgs.get args.loopArgs idx
        vector.foldlM (fun out arg => g out arg) out)
      (∀ arg ∈ args.loopArgs.getD idx [], (l arg).Nodup ∧ rounds arg) [idx] := by
  intro out freed r hfreed
  have hnodup : (freed ++ [idx]).Nodup ↔ idx ∉ freed := by
    rw [List.nodup_append_comm, List.singleton_append, List.nodup_cons]
    exact and_iff_left hfreed
  dsimp only
  rw [hnodup]
  by_cases hidx : idx ∈ freed
  · simp [hidx]
  · rw [if_neg hidx]
    cases hvector : args.loopArgs[idx]? with
    | none => simp [TemplateArgs.get, hvector]
    | some vector =>
      obtain ⟨hget, hgetD⟩ := get_eq hvector []
      have hround : ∀ arg ∈ vector, ∀ out out',
          (f out arg [] >>= fun r => Except.ok r.1) = .ok out' ↔
            ((l arg).Nodup ∧ rounds arg) ∧ g out arg = .ok out' := by
        intro arg _ out out'
        simp only [Run.bind_eq_ok, h arg out [] _ List.nodup_nil, List.nil_append]
        constructor
        · rintro ⟨r, ⟨hrounds, hl, out₁, hout₁, rfl⟩, hr⟩
          cases hr
          exact ⟨⟨hl, hrounds⟩, hout₁⟩
        · rintro ⟨⟨hl, hrounds⟩, hout'⟩
          exact ⟨_, ⟨hrounds, hl, out', hout', rfl⟩, rfl⟩
      simp only [hget, hgetD, Run.bind_ok, Run.bind_eq_ok, foldlM_guard hround, hidx,
        not_false_iff, true_and, Except.ok.injEq]
      constructor
      · rintro ⟨out', ⟨hall, hout'⟩, rfl⟩
        exact ⟨hall, out', hout', rfl⟩
      · rintro ⟨hall, out', hout', rfl⟩
        exact ⟨out', ⟨hall, hout'⟩, rfl⟩

mutual

/-- With its frees the writing pass writes the same, as long as no vector is reached twice. -/
lemma substitute_frees (template : Template) (args : TemplateArgs) :
    Frees (fun out freed => template.substituteFreeing out args freed)
      (fun out => template.substitute out args) (template.RoundsOnce args)
      (template.reached args) := by
  cases template with
  | mk str skip maxArgs maxCond maxLoop subs =>
    simp only [substituteFreeing, substitute, RoundsOnce, reached]
    exact substituteAll_frees str subs 0 args

lemma substituteAll_frees (str : List UInt8) (subs : List Substitution) (ptr : ℕ)
    (args : TemplateArgs) : Frees (fun out freed => substituteFreeingAll str subs ptr out args freed)
      (fun out => substituteAll str subs ptr out args) (RoundsOnceAll subs args)
      (reachedAll subs args) := by
  cases subs with
  | nil =>
    simp only [substituteFreeingAll, substituteAll, RoundsOnceAll, reachedAll]
    refine (Frees.keep fun out => slice str ptr str.length >>= out.memcpy).congr
      (fun out freed => ?_) (fun _ => rfl) Iff.rfl rfl
    cases slice str ptr str.length <;> rfl
  | cons sub subs =>
    have hbefore := Frees.keep fun out => slice str ptr sub.offset >>= out.memcpy
    refine ((hbefore.bind (substituteOne_frees sub args)).bind
      (substituteAll_frees str subs sub.offset args)).congr
        (fun out freed => ?_) (fun out => ?_) ?_ ?_
    · rw [substituteFreeingAll]
      cases slice str ptr sub.offset with
      | error e => rfl
      | ok before =>
        simp only [Run.bind_ok]
        cases out.memcpy before <;> rfl
    · rw [substituteAll]
      cases slice str ptr sub.offset with
      | error e => rfl
      | ok before =>
        simp only [Run.bind_ok]
        cases out.memcpy before <;> rfl
    · rw [RoundsOnceAll, true_and]
    · rw [reachedAll, List.nil_append]

lemma substituteOne_frees (sub : Substitution) (args : TemplateArgs) :
    Frees (fun out freed => substituteFreeingOne sub out args freed)
      (fun out => substituteOne sub out args) (RoundsOnceOne sub args) (reachedOne sub args) := by
  cases sub with
  | arg idx offset noescape =>
    simp only [substituteFreeingOne, substituteOne, RoundsOnceOne, reachedOne]
    refine (Frees.keep fun out => TemplateArgs.get args.subArgs idx >>= fun arg =>
      if noescape then out.memcpy arg else arg.foldlM Out.putEscaped out).congr
        (fun out freed => ?_) (fun _ => rfl) Iff.rfl rfl
    cases TemplateArgs.get args.subArgs idx with
    | error e => rfl
    | ok arg => cases noescape <;> rfl
  | block idx offset insertion inverted loop =>
    simp only [substituteFreeingOne, substituteOne, RoundsOnceOne, reachedOne]
    by_cases hloop : loop = true
    · simp only [if_pos hloop]
      exact loop_frees (fun arg => substitute_frees insertion arg) args idx
    · simp only [if_neg hloop]
      intro out freed r hfreed
      cases hcond : args.condArgs[idx]? with
      | none => simp [TemplateArgs.get, hcond]
      | some cond =>
        obtain ⟨hget, hgetD⟩ := get_eq hcond 0
        simp only [hget, hgetD, Run.bind_ok]
        cases inverted ^^ decide (cond = 0) with
        | true =>
          simp only [if_true, not_true, false_imp_iff]
          simpa using Frees.keep .ok out freed r hfreed
        | false =>
          simp only [Bool.false_eq_true, if_false, not_false_iff, true_imp_iff]
          exact substitute_frees insertion args out freed r hfreed

end

/-! ### What the parser makes of a text -/

/-- A text closed by `!%` ends its template with its length. -/
def close (closed : Bool) (skip : ℕ) (template : Template) : Template :=
  if closed then template.withSkip skip else template

open TemplateText (digit mark)

section compiling
variable {closed : Bool}

end compiling

section meaning
variable {str : List UInt8} {subs : List Substitution} {ptr : ℕ}

lemma renderAll_write (h : OrderedAll str.length subs ptr) (args : TemplateArgs) (c : UInt8) :
    renderAll (str ++ [c]) subs ptr args = renderAll str subs ptr args ++ [c] := by
  induction subs generalizing ptr with
  | nil => exact List.drop_append_of_le_length h
  | cons sub subs ih =>
    obtain ⟨hle, -, hrest⟩ := h
    have hstr := hrest.le
    rw [renderAll, renderAll, ih hrest, List.drop_append_of_le_length (hle.trans hstr),
      List.take_append_of_le_length (by rw [List.length_drop]; omega)]
    simp only [List.append_assoc]

lemma renderAll_push (h : OrderedAll str.length subs ptr) (args : TemplateArgs) (sub : Substitution)
    (hoffset : sub.offset = str.length) :
    renderAll str (subs ++ [sub]) ptr args = renderAll str subs ptr args ++ renderOne sub args := by
  induction subs generalizing ptr with
  | nil =>
    rw [List.nil_append, renderAll, renderAll, renderAll, hoffset, List.drop_length, List.append_nil,
      List.take_of_length_le (by rw [List.length_drop])]
  | cons sub' subs ih =>
    rw [List.cons_append, renderAll, renderAll, ih h.2.2]
    simp only [List.append_assoc]

lemma reachedAll_push (args : TemplateArgs) (sub : Substitution) :
    reachedAll (subs ++ [sub]) args = reachedAll subs args ++ reachedOne sub args := by
  induction subs with
  | nil => simp [reachedAll]
  | cons sub' subs ih => rw [List.cons_append, reachedAll, reachedAll, ih, List.append_assoc]

lemma roundsOnceAll_push (args : TemplateArgs) (sub : Substitution) :
    RoundsOnceAll (subs ++ [sub]) args ↔ RoundsOnceAll subs args ∧ RoundsOnceOne sub args := by
  induction subs with
  | nil => simp [RoundsOnceAll]
  | cons sub' subs ih => rw [List.cons_append, RoundsOnceAll, RoundsOnceAll, ih, and_assoc]

lemma suppliesAll_push (args : TemplateArgs) (sub : Substitution) :
    SuppliesAll (subs ++ [sub]) args ↔ SuppliesAll subs args ∧ SuppliesOne sub args := by
  induction subs with
  | nil => simp [SuppliesAll]
  | cons sub' subs ih => rw [List.cons_append, SuppliesAll, SuppliesAll, ih, and_assoc]

end meaning

/-- What `template'` has more than `template`, given the arguments. -/
structure Adds (template template' : Template) (args : TemplateArgs) (text : List UInt8)
    (loops : List ℕ) (rounds supplied : Prop) : Prop where
  ordered : template'.Ordered
  render_eq : template'.render args = template.render args ++ text
  reached_eq : template'.reached args = template.reached args ++ loops
  rounds_iff : template'.RoundsOnce args ↔ template.RoundsOnce args ∧ rounds
  supplies_iff : template'.Supplies args ↔ template.Supplies args ∧ supplied

section adds
variable {template template₁ template' : Template} {args : TemplateArgs} {text text' : List UInt8}
  {loops loops' : List ℕ} {rounds rounds' supplied supplied' : Prop}

lemma Adds.refl (h : template.Ordered) : Adds template template args [] [] True True :=
  ⟨h, (List.append_nil _).symm, (List.append_nil _).symm, (and_iff_left trivial).symm,
    (and_iff_left trivial).symm⟩

lemma Adds.trans (h : Adds template template₁ args text loops rounds supplied)
    (h' : Adds template₁ template' args text' loops' rounds' supplied') :
    Adds template template' args (text ++ text') (loops ++ loops') (rounds ∧ rounds')
      (supplied ∧ supplied') where
  ordered := h'.ordered
  render_eq := by rw [h'.render_eq, h.render_eq, List.append_assoc]
  reached_eq := by rw [h'.reached_eq, h.reached_eq, List.append_assoc]
  rounds_iff := by rw [h'.rounds_iff, h.rounds_iff, and_assoc]
  supplies_iff := by rw [h'.supplies_iff, h.supplies_iff, and_assoc]

lemma Adds.congr (h : Adds template template' args text loops rounds supplied)
    (htext : text' = text) (hloops : loops' = loops) (hrounds : rounds' ↔ rounds)
    (hsupplied : supplied' ↔ supplied) :
    Adds template template' args text' loops' rounds' supplied' := by
  rwa [htext, hloops, hrounds, hsupplied]

lemma Adds.write (h : template.Ordered) (args : TemplateArgs) (c : UInt8) :
    Adds template (template.write c) args [c] [] True True := by
  have hordered := h.write c
  cases template with
  | mk str skip maxArgs maxCond maxLoop subs =>
    exact ⟨hordered, renderAll_write h args c, (List.append_nil _).symm, (and_iff_left trivial).symm,
      (and_iff_left trivial).symm⟩

lemma Adds.push {str : List UInt8} {subs : List Substitution} (h : OrderedAll str.length subs 0)
    (args : TemplateArgs) (sub : Substitution) (hoffset : sub.offset = str.length)
    (hsub : OrderedOne sub)
    (skip maxArgs maxCond maxLoop maxArgs' maxCond' maxLoop' : ℕ) :
    Adds (.mk str skip maxArgs maxCond maxLoop subs)
      (.mk str skip maxArgs' maxCond' maxLoop' (subs ++ [sub])) args (renderOne sub args)
        (reachedOne sub args) (RoundsOnceOne sub args) (SuppliesOne sub args) where
  ordered := OrderedAll.push h hoffset hsub
  render_eq := renderAll_push h args sub hoffset
  reached_eq := reachedAll_push args sub
  rounds_iff := roundsOnceAll_push args sub
  supplies_iff := suppliesAll_push args sub

lemma Adds.pushArg (h : template.Ordered) (args : TemplateArgs) (i : Fin 10) (noescape : Bool) :
    Adds template (template.pushArg (digit i) noescape) args
      (if noescape then args.subArgs.getD i [] else (args.subArgs.getD i []).flatMap escape) []
        True (i < args.subArgs.length) := by
  cases template with
  | mk str skip maxArgs maxCond maxLoop subs =>
    have hpush := Adds.push h args (.arg i str.length noescape) rfl trivial skip maxArgs
      maxCond maxLoop
    rw [Template.pushArg, index_digit]
    simpa only [renderOne, reachedOne, RoundsOnceOne, SuppliesOne] using hpush _ _ _

lemma Adds.pushBlock (h : template.Ordered) (args : TemplateArgs) {insertion : Template}
    (hinsertion : insertion.Ordered) (i : Fin 10) (inverted loop : Bool) :
    let sub : Substitution := .block i 0 insertion inverted loop
    Adds template (template.pushBlock (digit i) inverted loop insertion) args
      (renderOne sub args) (reachedOne sub args) (RoundsOnceOne sub args) (SuppliesOne sub args) := by
  cases template with
  | mk str skip maxArgs maxCond maxLoop subs =>
    cases insertion with
    | mk insStr insSkip insArgs insCond insLoop insSubs =>
      have hpush := Adds.push h args (.block i str.length
        (.mk insStr insSkip insArgs insCond insLoop insSubs) inverted loop) rfl hinsertion skip
          maxArgs maxCond maxLoop
      rw [Template.pushBlock, index_digit]
      simpa only [renderOne, reachedOne, RoundsOnceOne, SuppliesOne] using hpush _ _ _

end adds

lemma get_ok {α : Type} {l : List α} {idx : ℕ} {x : α} (h : TemplateArgs.get l idx = .ok x) :
    l[idx]? = some x := by
  unfold TemplateArgs.get at h
  cases hx : l[idx]? with
  | none =>
    rw [hx] at h
    cases h
  | some y =>
    rw [hx] at h
    cases h
    rfl

/-- A loop that returns has returned from each of its rounds. -/
lemma foldlM_round {α β : Type} {f : β → α → Run β} {vector : List α} {x y : β}
    (h : vector.foldlM f x = .ok y) : ∀ arg ∈ vector, ∃ x y, f x arg = .ok y := by
  induction vector generalizing x with
  | nil => exact nofun
  | cons arg vector ih =>
    rw [List.foldlM_cons] at h
    obtain ⟨x₁, hx₁, h⟩ := Run.bind_eq_ok.1 h
    exact List.forall_mem_cons.2 ⟨⟨x, x₁, hx₁⟩, ih h⟩

mutual

lemma supplies_of_length (template : Template) (args : TemplateArgs) {len n : ℕ}
    (h : template.length len args = .ok n) : template.Supplies args := by
  cases template with
  | mk str skip maxArgs maxCond maxLoop subs =>
    rw [length] at h
    exact suppliesAll_of_length subs args h

lemma suppliesAll_of_length (subs : List Substitution) (args : TemplateArgs) {len n : ℕ}
    (h : lengthAll subs len args = .ok n) : SuppliesAll subs args := by
  cases subs with
  | nil => trivial
  | cons sub subs =>
    rw [lengthAll] at h
    obtain ⟨len₁, hsub, h⟩ := Run.bind_eq_ok.1 h
    exact ⟨suppliesOne_of_length sub args hsub, suppliesAll_of_length subs args h⟩

lemma suppliesOne_of_length (sub : Substitution) (args : TemplateArgs) {len n : ℕ}
    (h : lengthOne sub len args = .ok n) : SuppliesOne sub args := by
  cases sub with
  | arg idx offset noescape =>
    rw [lengthOne] at h
    obtain ⟨arg, harg, -⟩ := Run.bind_eq_ok.1 h
    exact (List.getElem?_eq_some_iff.1 (get_ok harg)).1
  | block idx offset insertion inverted loop =>
    rw [lengthOne] at h
    rw [SuppliesOne]
    split_ifs at h ⊢ with hloop
    · obtain ⟨vector, hvector, h⟩ := Run.bind_eq_ok.1 h
      refine ⟨vector, get_ok hvector, fun arg harg => ?_⟩
      obtain ⟨len', n', hround⟩ := foldlM_round h arg harg
      exact supplies_of_length insertion arg hround
    · obtain ⟨cond, hcond, h⟩ := Run.bind_eq_ok.1 h
      refine ⟨cond, get_ok hcond, fun htaken => ?_⟩
      rw [htaken, Bool.xor_self, if_neg Bool.false_ne_true] at h
      exact supplies_of_length insertion args h

end

end Template
end CoreCommon
