import CoreCommon.Template

/-! The argument counts of a parsed template, against the constructs in its text. -/
namespace CoreCommon

/-- `%!i`, `%!!i` and `%!*i`. -/
inductive BlockKind
  | condition
  | inverted
  | loop
  deriving DecidableEq, Repr

/-- A well-formed template text as its author means it: literals, the escapes `%%` and `!!%`,
substitutions, and blocks closed by `!%`. -/
inductive TemplateText
  | nil
  | literal (c : UInt8) (rest : TemplateText)
  | percent (rest : TemplateText)
  | bangPercent (rest : TemplateText)
  | arg (i : Fin 10) (noescape : Bool) (rest : TemplateText)
  | block (kind : BlockKind) (i : Fin 10) (body rest : TemplateText)

namespace TemplateText
open Template (byte)

def digit (i : Fin 10) : UInt8 := UInt8.ofNat (48 + i)

def mark : BlockKind → List UInt8
  | .condition => []
  | .inverted => [byte '!']
  | .loop => [byte '*']

/-- The text itself. -/
def data : TemplateText → List UInt8
  | nil => []
  | literal c rest => c :: rest.data
  | percent rest => byte '%' :: byte '%' :: rest.data
  | bangPercent rest => byte '!' :: byte '!' :: byte '%' :: rest.data
  | arg i noescape rest =>
    byte '%' :: ((if noescape then [byte '#'] else []) ++ digit i :: rest.data)
  | block kind i body rest =>
    byte '%' :: byte '!' :: (mark kind ++ digit i :: (body.data ++
      byte '!' :: byte '%' :: rest.data))

/-- What follows a literal `!`: a `%` would make it a closing `!%`, and a closing `!%` would
become an escape. -/
def Plain (closed : Bool) : TemplateText → Prop
  | nil => closed = false
  | literal _ _ => True
  | bangPercent _ => True
  | _ => False

/-- `%` and `!` are literals only where they mean nothing else. -/
def Valid (closed : Bool) : TemplateText → Prop
  | nil => True
  | literal c rest => c ≠ byte '%' ∧ (c = byte '!' → rest.Plain closed) ∧ rest.Valid closed
  | percent rest => rest.Valid closed
  | bangPercent rest => rest.Valid closed
  | arg _ _ rest => rest.Valid closed
  | block _ _ body rest => body.Valid true ∧ rest.Valid closed

/-! ### Counts -/

/-- One more than the largest index of a substitution, or 0. -/
def argCount : TemplateText → ℕ
  | nil => 0
  | literal _ rest => rest.argCount
  | percent rest => rest.argCount
  | bangPercent rest => rest.argCount
  | arg i _ rest => max (i + 1) rest.argCount
  | block _ _ body rest => max body.argCount rest.argCount

/-- One more than the largest index of a block that satisfies `p`, or 0. -/
def blockCount (p : BlockKind → Bool) : TemplateText → ℕ
  | nil => 0
  | literal _ rest => rest.blockCount p
  | percent rest => rest.blockCount p
  | bangPercent rest => rest.blockCount p
  | arg _ _ rest => rest.blockCount p
  | block kind i body rest =>
    max (if p kind then i + 1 else 0) (max (body.blockCount p) (rest.blockCount p))

def condCount (t : TemplateText) : ℕ := t.blockCount fun kind => kind ≠ .loop

def loopCount (t : TemplateText) : ℕ := t.blockCount fun kind => kind = .loop

/-- Every loop, at any depth, with an index below the loop count `seen` of what stands before it
at its depth has an index below `n`. -/
def LoopsBelow (n seen : ℕ) : TemplateText → Prop
  | nil => True
  | literal _ rest => rest.LoopsBelow n seen
  | percent rest => rest.LoopsBelow n seen
  | bangPercent rest => rest.LoopsBelow n seen
  | arg _ _ rest => rest.LoopsBelow n seen
  | block kind i body rest => (kind = .loop → (i : ℕ) < seen → (i : ℕ) < n) ∧ body.LoopsBelow n 0 ∧
    rest.LoopsBelow n (max seen (max (if kind = .loop then i + 1 else 0) body.loopCount))

/-- One more than the largest index of a loop that is below the loop count before it: what the
code takes for the index of a condition. -/
def spill (seen : ℕ) : TemplateText → ℕ
  | nil => 0
  | literal _ rest => rest.spill seen
  | percent rest => rest.spill seen
  | bangPercent rest => rest.spill seen
  | arg _ _ rest => rest.spill seen
  | block kind i body rest =>
    max (if kind = .loop ∧ (i : ℕ) < seen then i + 1 else 0) (max (body.spill 0)
      (rest.spill (max seen (max (if kind = .loop then i + 1 else 0) body.loopCount))))

lemma spill_le_iff {n seen : ℕ} (t : TemplateText) : t.spill seen ≤ n ↔ t.LoopsBelow n seen := by
  induction t generalizing seen with
  | nil => exact iff_of_true (Nat.zero_le n) trivial
  | literal c rest ih => exact ih
  | percent rest ih => exact ih
  | bangPercent rest ih => exact ih
  | arg i noescape rest ih => exact ih
  | block kind i body rest ihb ihr =>
    rw [spill, LoopsBelow, max_le_iff, max_le_iff, ihb, ihr]
    refine and_congr ?_ Iff.rfl
    split_ifs with h
    · exact ⟨fun hle _ _ => hle, fun hlt => hlt h.1 h.2⟩
    · exact iff_of_true (Nat.zero_le n) fun hkind hlt => absurd ⟨hkind, hlt⟩ h

end TemplateText

namespace Template

def maxArgs : Template → ℕ
  | .mk _ _ maxArgs _ _ _ => maxArgs

def maxCond : Template → ℕ
  | .mk _ _ _ maxCond _ _ => maxCond

def maxLoop : Template → ℕ
  | .mk _ _ _ _ maxLoop _ => maxLoop

/-- The types that `do_template_va` reads its arguments as. -/
inductive VaArg
  | int
  | vector
  | string
  deriving DecidableEq, Repr

/-- The arguments `do_template_va` reads, in order. -/
def vaArgs (template : Template) : List VaArg :=
  List.replicate template.maxCond .int ++ List.replicate template.maxLoop .vector ++
    List.replicate template.maxArgs .string

/-- The counts of the parsed template are those of the text, and so are the arguments read. -/
structure Counts (template : Template) (t : TemplateText) : Prop where
  maxArgs_eq : template.maxArgs = t.argCount
  maxCond_eq : template.maxCond = t.condCount
  maxLoop_eq : template.maxLoop = t.loopCount
  vaArgs_eq : template.vaArgs = List.replicate t.condCount .int ++
    List.replicate t.loopCount .vector ++ List.replicate t.argCount .string

/-! ### Parsing a text -/

open TemplateText (digit mark)

lemma index_digit (i : Fin 10) : index (digit i) = i := by
  revert i
  decide

lemma digit_ne (i : Fin 10) : digit i ≠ byte '%' ∧ digit i ≠ byte '!' ∧ digit i ≠ byte '*' ∧
    digit i ≠ byte '#' := by
  revert i
  decide

/-- What scanning `t` makes of the counts. -/
structure Grows (template : Template) (t : TemplateText) (template' : Template) : Prop where
  maxArgs_eq : template'.maxArgs = max template.maxArgs t.argCount
  maxCond_eq : template'.maxCond = max template.maxCond (max t.condCount (t.spill template.maxLoop))
  maxLoop_eq : template'.maxLoop = max template.maxLoop t.loopCount

lemma Grows.of_eq {template template₁ template' : Template} {t t' : TemplateText}
    (h : Grows template₁ t template') (hargs : template₁.maxArgs = template.maxArgs)
    (hcond : template₁.maxCond = template.maxCond) (hloop : template₁.maxLoop = template.maxLoop)
    (ht : t'.argCount = t.argCount ∧ t'.condCount = t.condCount ∧ t'.loopCount = t.loopCount ∧
      t'.spill template.maxLoop = t.spill template.maxLoop) : Grows template t' template' := by
  refine ⟨?_, ?_, ?_⟩
  · rw [h.maxArgs_eq, hargs, ht.1]
  · rw [h.maxCond_eq, hcond, hloop, ht.2.1, ht.2.2.2]
  · rw [h.maxLoop_eq, hloop, ht.2.2.1]

lemma Grows.refl (template : Template) : Grows template .nil template := by
  refine ⟨?_, ?_, ?_⟩ <;> simp [TemplateText.argCount, TemplateText.condCount,
    TemplateText.loopCount, TemplateText.blockCount, TemplateText.spill]

lemma write_counts (template : Template) (c : UInt8) :
    (template.write c).maxArgs = template.maxArgs ∧
      (template.write c).maxCond = template.maxCond ∧
        (template.write c).maxLoop = template.maxLoop := by
  obtain ⟨⟩ := template
  exact ⟨rfl, rfl, rfl⟩

lemma withSkip_counts (template : Template) (n : ℕ) :
    (template.withSkip n).maxArgs = template.maxArgs ∧
      (template.withSkip n).maxCond = template.maxCond ∧
        (template.withSkip n).maxLoop = template.maxLoop ∧ (template.withSkip n).skip = n := by
  obtain ⟨⟩ := template
  exact ⟨rfl, rfl, rfl, rfl⟩

lemma Grows.arg {template template' : Template} {t : TemplateText} {i : Fin 10} {noescape : Bool}
    (h : Grows (template.pushArg (digit i) noescape) t template') :
    Grows template (.arg i noescape t) template' := by
  have hi : (i : ℕ) < 10 := i.2
  obtain ⟨str, skip, args, cond, loop, subs⟩ := template
  refine ⟨?_, h.maxCond_eq, h.maxLoop_eq⟩
  rw [h.maxArgs_eq]
  simp only [pushArg, maxArgs, index_digit, TemplateText.argCount, Nat.reducePow]
  split_ifs <;> omega

/-- A loop below the loop count goes on to the branch for conditions. -/
lemma pushBlock_counts (template insertion : Template) (i : Fin 10) (inverted loop : Bool) :
    (template.pushBlock (digit i) inverted loop insertion).maxArgs =
        max insertion.maxArgs template.maxArgs ∧
      (template.pushBlock (digit i) inverted loop insertion).maxCond = max insertion.maxCond
        (max template.maxCond (if loop ∧ template.maxLoop ≤ i then 0 else i + 1)) ∧
      (template.pushBlock (digit i) inverted loop insertion).maxLoop =
        max insertion.maxLoop (max template.maxLoop (if loop then i + 1 else 0)) := by
  have hi : (i : ℕ) < 10 := i.2
  have hnext : ((i : ℕ) + 1) % 2 ^ 64 = i + 1 := Nat.mod_eq_of_lt (by omega)
  obtain ⟨str, skip, args, cond, loops, subs⟩ := template
  obtain ⟨insStr, insSkip, insArgs, insCond, insLoop, insSubs⟩ := insertion
  have hpair : (if loop = true ∧ (i : ℕ) ≥ loops then (cond, (i : ℕ) + 1)
      else if (i : ℕ) ≥ cond then ((i : ℕ) + 1, loops) else (cond, loops)) =
      (max cond (if loop = true ∧ loops ≤ i then 0 else i + 1),
        max loops (if loop = true then i + 1 else 0)) := by
    by_cases hfirst : loop = true ∧ loops ≤ i
    · rw [if_pos hfirst, if_pos hfirst, if_pos hfirst.1]
      exact Prod.ext (by dsimp only; omega) (by dsimp only; omega)
    · rw [if_neg hfirst, if_neg hfirst]
      cases loop with
      | true =>
        have hlt : (i : ℕ) < loops := by simpa using hfirst
        rw [if_pos rfl]
        split_ifs <;> exact Prod.ext (by dsimp only; omega) (by dsimp only; omega)
      | false =>
        rw [if_neg Bool.false_ne_true]
        split_ifs <;> exact Prod.ext (by dsimp only; omega) (by dsimp only; omega)
  rw [pushBlock]
  simp only [index_digit, hnext, hpair]
  exact ⟨rfl, rfl, rfl⟩

lemma Grows.block {template insertion template' : Template} {body t : TemplateText} {i : Fin 10}
    {kind : BlockKind} (hbody : Grows empty body insertion)
    (h : Grows (template.pushBlock (digit i) (kind = .inverted) (kind = .loop) insertion) t
      template') : Grows template (.block kind i body t) template' := by
  obtain ⟨hargs, hcond, hloop⟩ :=
    pushBlock_counts template insertion i (kind = .inverted) (kind = .loop)
  obtain ⟨hbargs, hbcond, hbloop⟩ := hbody
  have hempty : empty.maxArgs = 0 ∧ empty.maxCond = 0 ∧ empty.maxLoop = 0 := ⟨rfl, rfl, rfl⟩
  rw [hempty.1, Nat.zero_max] at hbargs
  rw [hempty.2.1, hempty.2.2, Nat.zero_max] at hbcond
  rw [hempty.2.2, Nat.zero_max] at hbloop
  -- the loop count that the rest is scanned with
  have hseen :
      max insertion.maxLoop (max template.maxLoop (if kind = .loop then (i : ℕ) + 1 else 0)) =
      max template.maxLoop (max (if kind = .loop then i + 1 else 0) body.loopCount) := by
    rw [hbloop]
    ac_rfl
  simp only [decide_eq_true_eq] at hloop hcond
  rw [hseen] at hloop
  refine ⟨?_, ?_, ?_⟩
  · rw [h.maxArgs_eq, hargs, hbargs, TemplateText.argCount]
    ac_rfl
  · rw [h.maxCond_eq, hcond, hbcond, hloop]
    have hraised : (if kind = .loop ∧ template.maxLoop ≤ (i : ℕ) then 0 else (i : ℕ) + 1) =
        max (if kind ≠ .loop then (i : ℕ) + 1 else 0)
          (if kind = .loop ∧ (i : ℕ) < template.maxLoop then (i : ℕ) + 1 else 0) := by
      by_cases hkind : kind = .loop
      · simp only [hkind, true_and, ne_eq, not_true, if_false]
        split_ifs <;> omega
      · simp [hkind]
    simp only [hraised, TemplateText.condCount, TemplateText.blockCount, TemplateText.spill,
      decide_eq_true_eq]
    ac_rfl
  · rw [h.maxLoop_eq, hloop]
    simp only [TemplateText.loopCount, TemplateText.blockCount, decide_eq_true_eq]
    ac_rfl

/-- What ends a text: nothing, or a closing `!%` and anything. -/
def tail (closed : Bool) (more : List UInt8) : List UInt8 :=
  if closed then byte '!' :: byte '%' :: more else []

section scanning
variable {fuel pos : ℕ} {prev : Option UInt8} {rest more : List UInt8} {template : Template}
  {closed : Bool}

lemma scan_literal {c : UInt8} (hc : c ≠ byte '%')
    (hbang : c = byte '!' → rest.head? ≠ some (byte '%')) :
    scan (fuel + 1) pos prev (c :: rest) template =
      scan fuel (pos + 1) (some c) rest (template.write c) := by
  conv_lhs => unfold scan
  rw [if_neg fun h => hbang h.1 h.2, if_neg hc]

lemma scan_bang : scan (fuel + 1) pos (some (byte '!')) (byte '!' :: byte '%' :: rest) template =
    scan fuel (pos + 2) (some (byte '%')) rest (template.write (byte '%')) := by
  rw [scan, if_pos ⟨rfl, rfl⟩, if_pos rfl]
  rfl

lemma scan_close (hprev : prev ≠ some (byte '!')) :
    scan (fuel + 1) pos prev (byte '!' :: byte '%' :: rest) template =
      .ok (template.withSkip (pos + 2)) := by
  rw [scan, if_pos ⟨rfl, rfl⟩, if_neg hprev]

lemma percent_ne_bang : byte '%' ≠ byte '!' := by decide

lemma scan_percent : scan (fuel + 1) pos prev (byte '%' :: byte '%' :: rest) template =
    scan fuel (pos + 2) (some (byte '%')) rest (template.write (byte '%')) := by
  rw [scan, if_neg fun h => percent_ne_bang h.1, if_pos rfl]
  exact if_pos rfl

lemma scan_arg (i : Fin 10) (noescape : Bool) : scan (fuel + 1) pos prev
    (byte '%' :: ((if noescape then [byte '#'] else []) ++ digit i :: rest)) template =
      scan fuel (pos + if noescape then 3 else 2) (some (digit i)) rest
        (template.pushArg (digit i) noescape) := by
  obtain ⟨hpercent, hbang, -, hhash⟩ := digit_ne i
  cases noescape with
  | true =>
    simp only [if_true, List.cons_append, List.nil_append]
    rw [scan, if_neg fun h => percent_ne_bang h.1, if_pos rfl]
    rfl
  | false =>
    simp only [Bool.false_eq_true, if_false, List.nil_append]
    rw [scan, if_neg fun h => percent_ne_bang h.1, if_pos rfl]
    simp only [hpercent, hbang, hhash, if_false, decide_false]

lemma scan_block (kind : BlockKind) (i : Fin 10) : scan (fuel + 1) pos prev
    (byte '%' :: byte '!' :: (mark kind ++ digit i :: rest)) template =
      (scan fuel 0 none rest empty >>= fun insertion =>
        scan fuel (pos + 3 + (mark kind).length + insertion.skip) (digit i :: rest)[insertion.skip]?
          (rest.drop insertion.skip)
            (template.pushBlock (digit i) (kind = .inverted) (kind = .loop) insertion)) := by
  obtain ⟨hpercent, hbang, hstar, -⟩ := digit_ne i
  rw [scan, if_neg fun h => percent_ne_bang h.1, if_pos rfl]
  cases kind with
  | condition =>
    rw [mark, List.nil_append]
    dsimp only
    rw [if_neg percent_ne_bang.symm, if_pos rfl]
    simp only [List.head?_cons, Option.some.injEq, hbang, hstar, decide_false, or_self, if_false,
      List.drop_zero]
    rfl
  | inverted => rfl
  | loop => rfl

/-- A literal `!` is followed by no `%`. -/
lemma head_ne_percent {t : TemplateText} (h : t.Plain closed) (ht : t.Valid closed) :
    (t.data ++ tail closed more).head? ≠ some (byte '%') := by
  cases t with
  | nil =>
    have hclosed : closed = false := h
    subst hclosed
    exact nofun
  | literal c rest => exact fun hc => ht.1 (Option.some.inj hc)
  | bangPercent rest => exact fun hc => percent_ne_bang (Option.some.inj hc).symm
  | percent | arg | block => exact h.elim

/-- Scanning the text, up to its closing `!%` or to the end, makes of the counts what it should. -/
def Scans (closed : Bool) (t : TemplateText) : Prop :=
  ∀ (fuel pos : ℕ) (prev : Option UInt8) (more : List UInt8) (template : Template),
    (prev = some (byte '!') → t.Plain closed) → (t.data ++ tail closed more).length < fuel →
      ∃ template', scan fuel pos prev (t.data ++ tail closed more) template = .ok template' ∧
        Grows template t template' ∧ (closed = true → template'.skip = pos + t.data.length + 2)

lemma scans_nil : Scans closed .nil := by
  intro fuel pos prev more template hprev hfuel
  obtain ⟨fuel, rfl⟩ := Nat.exists_eq_succ_of_ne_zero (Nat.ne_zero_of_lt hfuel)
  cases closed with
  | true =>
    have hopen : prev ≠ some (byte '!') := fun h => nomatch hprev h
    obtain ⟨hargs, hcond, hloop, hskip⟩ := withSkip_counts template (pos + 2)
    exact ⟨_, scan_close hopen, (Grows.refl _).of_eq hargs hcond hloop ⟨rfl, rfl, rfl, rfl⟩,
      fun _ => hskip⟩
  | false =>
    exact ⟨template, by rw [scan.eq_def]; rfl, Grows.refl template, nofun⟩

lemma scans_literal {c : UInt8} {t : TemplateText} (hc : c ≠ byte '%')
    (hbang : c = byte '!' → t.Plain closed) (ht : t.Valid closed) (ih : Scans closed t) :
    Scans closed (.literal c t) := by
  intro fuel pos prev more template hprev hfuel
  obtain ⟨fuel, rfl⟩ := Nat.exists_eq_succ_of_ne_zero (Nat.ne_zero_of_lt hfuel)
  obtain ⟨template', hrun, hgrows, hskip⟩ := ih fuel (pos + 1) (some c) more (template.write c)
    (fun h => hbang (Option.some.inj h)) (Nat.lt_of_succ_lt_succ hfuel)
  obtain ⟨hargs, hcond, hloop⟩ := write_counts template c
  refine ⟨template', ?_, hgrows.of_eq hargs hcond hloop ⟨rfl, rfl, rfl, rfl⟩, fun h => ?_⟩
  · rw [TemplateText.data, List.cons_append,
      scan_literal hc fun h => head_ne_percent (hbang h) ht, hrun]
  · rw [hskip h, TemplateText.data, List.length_cons]
    omega

lemma scans_percent {t : TemplateText} (ih : Scans closed t) : Scans closed (.percent t) := by
  intro fuel pos prev more template hprev hfuel
  obtain ⟨fuel, rfl⟩ := Nat.exists_eq_succ_of_ne_zero (Nat.ne_zero_of_lt hfuel)
  obtain ⟨template', hrun, hgrows, hskip⟩ := ih fuel (pos + 2) (some (byte '%')) more
    (template.write (byte '%')) (fun h => absurd (Option.some.inj h) percent_ne_bang)
    (Nat.lt_of_succ_lt (Nat.lt_of_succ_lt_succ hfuel))
  obtain ⟨hargs, hcond, hloop⟩ := write_counts template (byte '%')
  refine ⟨template', ?_, hgrows.of_eq hargs hcond hloop ⟨rfl, rfl, rfl, rfl⟩, fun h => ?_⟩
  · rw [TemplateText.data, List.cons_append, List.cons_append, scan_percent, hrun]
  · rw [hskip h, TemplateText.data, List.length_cons, List.length_cons]
    omega

lemma scans_bangPercent {t : TemplateText} (ih : Scans closed t) :
    Scans closed (.bangPercent t) := by
  intro fuel pos prev more template hprev hfuel
  have hlen : (TemplateText.data (.bangPercent t) ++ tail closed more).length =
      (t.data ++ tail closed more).length + 3 := rfl
  obtain ⟨fuel, rfl⟩ := Nat.exists_eq_add_of_le (show 2 ≤ fuel by omega)
  rw [Nat.add_comm 2]
  obtain ⟨template', hrun, hgrows, hskip⟩ := ih fuel (pos + 3) (some (byte '%')) more
    ((template.write (byte '!')).write (byte '%'))
    (fun h => absurd (Option.some.inj h) percent_ne_bang) (by omega)
  obtain ⟨hargs₁, hcond₁, hloop₁⟩ := write_counts template (byte '!')
  obtain ⟨hargs₂, hcond₂, hloop₂⟩ := write_counts (template.write (byte '!')) (byte '%')
  refine ⟨template', ?_, hgrows.of_eq (hargs₂.trans hargs₁) (hcond₂.trans hcond₁)
    (hloop₂.trans hloop₁) ⟨rfl, rfl, rfl, rfl⟩, fun h => ?_⟩
  · have hnext : (byte '!' :: byte '%' :: (t.data ++ tail closed more)).head? ≠
        some (byte '%') := fun h => percent_ne_bang (Option.some.inj h).symm
    rw [TemplateText.data, List.cons_append, List.cons_append, List.cons_append,
      scan_literal percent_ne_bang.symm fun _ => hnext, scan_bang, hrun]
  · rw [hskip h, TemplateText.data, List.length_cons, List.length_cons, List.length_cons]
    omega

lemma scans_arg (i : Fin 10) (noescape : Bool) {t : TemplateText} (ih : Scans closed t) :
    Scans closed (.arg i noescape t) := by
  intro fuel pos prev more template hprev hfuel
  have hlen : (TemplateText.data (.arg i noescape t)).length =
      (if noescape then 3 else 2) + t.data.length := by
    cases noescape
    · exact Nat.add_comm _ 2
    · exact Nat.add_comm _ 3
  rw [List.length_append, hlen] at hfuel
  obtain ⟨fuel, rfl⟩ := Nat.exists_eq_succ_of_ne_zero (Nat.ne_zero_of_lt hfuel)
  have hfuel' : (t.data ++ tail closed more).length < fuel := by
    rw [List.length_append]
    split_ifs at hfuel <;> omega
  obtain ⟨template', hrun, hgrows, hskip⟩ := ih fuel (pos + if noescape then 3 else 2)
    (some (digit i)) more (template.pushArg (digit i) noescape)
    (fun h => absurd (Option.some.inj h) (digit_ne i).2.1) hfuel'
  refine ⟨template', ?_, hgrows.arg, fun h => ?_⟩
  · rw [TemplateText.data, List.cons_append, List.append_assoc, List.cons_append, scan_arg, hrun]
  · rw [hskip h, hlen, Nat.add_assoc pos]

/-- The body ends at its own closing `!%`, and the rest is scanned from there. -/
lemma scans_block (kind : BlockKind) (i : Fin 10) {body t : TemplateText} (ihb : Scans true body)
    (ih : Scans closed t) : Scans closed (.block kind i body t) := by
  intro fuel pos prev more template hprev hfuel
  have hdata : TemplateText.data (.block kind i body t) ++ tail closed more =
      byte '%' :: byte '!' :: (mark kind ++ digit i ::
        (body.data ++ tail true (t.data ++ tail closed more))) := by
    simp [TemplateText.data, tail]
  have hlen : (TemplateText.data (.block kind i body t)).length =
      (mark kind).length + body.data.length + t.data.length + 5 := by
    simp only [TemplateText.data, List.length_cons, List.length_append]
    omega
  have hclose : (tail true (t.data ++ tail closed more)).length =
      t.data.length + (tail closed more).length + 2 := by
    simp [tail]
  rw [List.length_append, hlen] at hfuel
  obtain ⟨fuel, rfl⟩ := Nat.exists_eq_succ_of_ne_zero (Nat.ne_zero_of_lt hfuel)
  obtain ⟨insertion, hinsertion, hgrows, hskip⟩ := ihb fuel 0 none (t.data ++ tail closed more)
    empty nofun (by rw [List.length_append, hclose]; omega)
  have hskip := hskip rfl
  rw [Nat.zero_add] at hskip
  -- past the closing `!%` the rest of the text is left
  have hdrop : (body.data ++ tail true (t.data ++ tail closed more)).drop insertion.skip =
      t.data ++ tail closed more := by
    rw [hskip, List.drop_append, List.drop_of_length_le (by omega), Nat.add_sub_cancel_left]
    rfl
  have hget : (digit i :: (body.data ++ tail true (t.data ++ tail closed more)))[
      insertion.skip]? = some (byte '%') := by
    rw [hskip, List.getElem?_cons_succ, List.getElem?_append_right (by omega),
      Nat.add_sub_cancel_left]
    rfl
  obtain ⟨template', hrun, hgrows', hskip'⟩ := ih fuel
    (pos + 3 + (mark kind).length + insertion.skip) (some (byte '%')) more
    (template.pushBlock (digit i) (kind = .inverted) (kind = .loop) insertion)
    (fun h => absurd (Option.some.inj h) percent_ne_bang) (by rw [List.length_append]; omega)
  refine ⟨template', ?_, hgrows.block hgrows', fun h => ?_⟩
  · rw [hdata, scan_block, hinsertion, Run.bind_ok, hdrop, hget, hrun]
  · rw [hskip' h, hlen, hskip]
    omega

lemma scan_text {t : TemplateText} (ht : t.Valid closed) : Scans closed t := by
  induction t generalizing closed with
  | nil => exact scans_nil
  | literal c rest ih => exact scans_literal ht.1 ht.2.1 ht.2.2 (ih ht.2.2)
  | percent rest ih => exact scans_percent (ih ht)
  | bangPercent rest ih => exact scans_bangPercent (ih ht)
  | arg i noescape rest ih => exact scans_arg i noescape (ih ht)
  | block kind i body rest ihb ihr => exact scans_block kind i (ihb ht.1) (ihr ht.2)

/-- The code's counts are the text's, except that loops may have raised that of conditions. -/
lemma new_grows {t : TemplateText} (ht : t.Valid false) (hfuel : t.data.length < fuel) :
    ∃ template, new fuel t.data = .ok template ∧ template.maxArgs = t.argCount ∧
      template.maxCond = max t.condCount (t.spill 0) ∧ template.maxLoop = t.loopCount := by
  have hend : t.data ++ tail false [] = t.data := List.append_nil _
  obtain ⟨template, hrun, hgrows, -⟩ := scan_text ht fuel 0 none [] empty nofun (by rwa [hend])
  rw [hend] at hrun
  refine ⟨template, hrun, ?_, ?_, ?_⟩
  · exact hgrows.maxArgs_eq.trans (Nat.zero_max _)
  · exact hgrows.maxCond_eq.trans (Nat.zero_max _)
  · exact hgrows.maxLoop_eq.trans (Nat.zero_max _)

end scanning

/-- For every well-formed text: parsing ends, and finds its counts if and only if every loop
with an index below the loop count before it at its depth has an index below the text's count
of conditions. -/
theorem new_counts_iff {t : TemplateText} (ht : t.Valid false) {fuel : ℕ}
    (hfuel : t.data.length < fuel) : ∃ template, new fuel t.data = .ok template ∧
      (template.Counts t ↔ t.LoopsBelow t.condCount 0) := by
  obtain ⟨template, hrun, hargs, hcond, hloop⟩ := new_grows ht hfuel
  refine ⟨template, hrun, ?_⟩
  rw [← TemplateText.spill_le_iff]
  constructor
  · intro h
    have := h.maxCond_eq
    omega
  · intro h
    have hcond : template.maxCond = t.condCount := hcond.trans (max_eq_left h)
    exact ⟨hargs, hcond, hloop, by rw [vaArgs, hargs, hcond, hloop]⟩

/-- A loop with a condition of the same index in it, twice. -/
theorem new_counts_iff_nested :
    let t : TemplateText := .block .loop 0 (.block .condition 0 .nil .nil)
      (.block .loop 0 (.literal 97 .nil) .nil)
    t.data = bytes "%!*0%!0!%!%%!*0a!%" ∧ ∃ template, new 19 t.data = .ok template ∧
      (template.Counts t ↔ t.LoopsBelow t.condCount 0) := by
  intro t
  have ht : t.Valid false := ⟨⟨trivial, trivial⟩, ⟨by decide, nofun, trivial⟩, trivial⟩
  exact ⟨by decide, new_counts_iff ht (by decide)⟩

/-- Two loops over the same vector: the template wants a condition that its text has not. -/
theorem repeated_loop_wants_condition :
    let t : TemplateText := .block .loop 0 .nil (.block .loop 0 .nil .nil)
    t.data = bytes "%!*0!%%!*0!%" ∧ t.Valid false ∧ ∃ template, new 13 t.data = .ok template ∧
      template.maxCond = 1 ∧ t.condCount = 0 ∧ template.vaArgs = [.int, .vector] ∧
        ¬ template.Counts t := by
  intro t
  refine ⟨by decide, ⟨trivial, trivial, trivial⟩, _, rfl, rfl, rfl, rfl, fun h => ?_⟩
  exact absurd h.maxCond_eq (by decide)

end Template
end CoreCommon
