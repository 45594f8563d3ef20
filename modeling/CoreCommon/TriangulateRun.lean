import CoreCommon.FunnelTame

/-! The loops of `triangulate_monotone` run the funnel, and its triangles tile the polygon exactly
when its runs are tame. -/
namespace CoreCommon.Triangulate

/-! ### The body of the loop -/

section body
variable {p : ℕ → Point} {left : Bool} {o v : ℕ} {stack : List ℕ}

@[simp] lemma deref_zero (v : ℕ) (l : List ℕ) : deref (v :: l) 0 = .ok v := rfl

lemma deref_append (l : List ℕ) (v : ℕ) (r : List ℕ) {i : ℕ} (hi : i = l.length) :
    deref (l ++ v :: r) i = .ok v := by
  simp [deref, hi]

lemma deref_of_drop {l r : List ℕ} {i v : ℕ} (h : l.drop i = v :: r) : deref l i = .ok v := by
  have hget := congrArg List.head? h
  rw [List.head?_drop, List.head?_cons] at hget
  rw [deref, hget]

lemma cuts_iff (a b c : ℕ) :
    cuts left ((p b - p a).determinant (p c - p a)) = true ↔ side p left a b c < 0 := by
  cases left <;> simp [cuts, side, area]

lemma cuts_opposite_iff (k v o : ℕ) :
    cuts left ((p v - p k).determinant (p v - p o)) = true ↔ 0 < side p left k v o := by
  have harea : (p v - p k).determinant (p v - p o) = -area p k v o := by
    simp only [area, Point.determinant, Point.sub_x, Point.sub_y]
    ring
  rw [harea]
  cases left <;> simp [cuts, side]

lemma cutEars_eq (p : ℕ → Point) (left : Bool) (v b : ℕ) (rest r : List ℕ)
    (elements : List (ℕ × ℕ × ℕ)) :
    cutEars p left rest.length ((b :: rest).reverse ++ v :: r) (b :: rest).length elements =
      .ok ((ears p left v (b :: rest)).2.reverse ++ v :: r, (ears p left v (b :: rest)).2.length,
        elements ++ (ears p left v (b :: rest)).1.map Tile.triangle,
        (ears p left v (b :: rest)).2.length - 1) := by
  induction rest generalizing b elements with
  | nil => simp [cutEars, ears]
  | cons a rest ih =>
    have hchain : (b :: a :: rest).reverse ++ v :: r = rest.reverse ++ a :: b :: v :: r := by simp
    have hv : deref (rest.reverse ++ a :: b :: v :: r) (b :: a :: rest).length = .ok v := by
      simpa using deref_append (rest.reverse ++ [a, b]) v r (i := rest.length + 2) (by simp)
    have hb : deref (rest.reverse ++ a :: b :: v :: r) (rest.length + 1) = .ok b := by
      simpa using deref_append (rest.reverse ++ [a]) b (v :: r) (i := rest.length + 1) (by simp)
    have ha : deref (rest.reverse ++ a :: b :: v :: r) rest.length = .ok a :=
      deref_append rest.reverse a (b :: v :: r) (by simp)
    have herase : (rest.reverse ++ a :: b :: v :: r).eraseIdx (rest.length + 1) =
        (a :: rest).reverse ++ v :: r := by
      rw [List.eraseIdx_append_of_length_le (by simp)]
      simp
    rw [hchain, List.length_cons, cutEars]
    simp only [hv, hb, ha, Run.bind_ok, cuts_iff, ears]
    split_ifs with hcut
    · rw [herase]
      simpa [Tile.triangle] using ih a (elements ++ [(v, b, a)])
    · simp

lemma stepSame_eq (hs : stack ≠ []) (r others : List ℕ) (otherIter : ℕ) (switched : Bool)
    (elements : List (ℕ × ℕ × ℕ)) :
    stepSame p ⟨stack.reverse ++ v :: r, stack.length, o :: others, otherIter, left, switched,
      elements⟩ =
      .ok ⟨(push p left o v stack).2.reverse ++ r, (push p left o v stack).2.length - 1,
        o :: others, otherIter, left, switched,
        elements ++ (push p left o v stack).1.map Tile.triangle⟩ := by
  obtain ⟨b, rest, rfl⟩ := List.exists_cons_of_ne_nil hs
  have hne := ears_ne_nil p left v hs
  have hcut := cutEars_eq p left v b rest r elements
  simp only [stepSame, List.length_cons, Nat.add_sub_cancel] at hcut ⊢
  rw [hcut, Run.bind_ok]
  rcases hears : ears p left v (b :: rest) with ⟨cut, kept⟩
  rw [hears] at hne
  rcases kept with _ | ⟨k, _ | ⟨k', kept⟩⟩
  · exact absurd rfl hne
  · have hv : deref (k :: v :: r) 1 = .ok v := rfl
    simp only [push, hears, List.reverse_singleton, List.cons_append, List.nil_append,
      List.length_singleton, Nat.sub_self, if_true, deref_zero, Run.bind_ok, hv,
      cuts_opposite_iff, List.tail_cons]
    split_ifs
    · simp [Tile.triangle]
    · simp
  · have hpush : push p left o v (b :: rest) = (cut, v :: k :: k' :: kept) := by
      rw [push, hears]
    rw [hpush, if_neg (by simp)]
    simp

/-- The loop from the vertex after position `i` on. -/
lemma fanOther_from (v : ℕ) {other run r : List ℕ} {i a : ℕ} (h : other.drop i = a :: run ++ r)
    (elements : List (ℕ × ℕ × ℕ)) :
    (List.range' (i + 1) run.length).foldlM (fun elements i => do
      let b ← deref other i
      let a ← deref other (i - 1)
      (.ok (elements ++ [(b, v, a)]) : Run (List (ℕ × ℕ × ℕ)))) elements =
      .ok (elements ++ (spokes left v (a :: run)).map Tile.triangle) := by
  induction run generalizing i a elements with
  | nil => simp [spokes, pure, Except.pure]
  | cons b run ih =>
    have hdrop : other.drop (i + 1) = b :: run ++ r := by
      simpa [List.tail_drop] using congrArg List.tail h
    rw [List.length_cons, List.range'_succ, List.foldlM_cons]
    simp only [deref_of_drop h, deref_of_drop hdrop, Nat.add_sub_cancel, Run.bind_ok]
    rw [ih hdrop]
    simp [spokes, Tile.triangle]

lemma fanOther_eq (left : Bool) (v : ℕ) (run r : List ℕ) (elements : List (ℕ × ℕ × ℕ)) :
    fanOther (run ++ r) v (run.length - 1) elements =
      .ok (elements ++ (spokes left v run).map Tile.triangle) := by
  cases run with
  | nil => simp [fanOther, spokes, pure, Except.pure]
  | cons a run => exact fanOther_from v (r := r) (i := 0) rfl elements

section switched
variable {pre run r : List ℕ} {otherIter : ℕ} (hpre : pre = [o] ∧ o ≠ v ∨ pre = [] ∧ o = v)
  (hiter : 1 ≤ otherIter) (hrun : min otherIter ((run ++ r).length - 1) = run.length)
  (hne : ∀ k ∈ run, k ≠ v) (hr : run = [] → r.head? = some v) (hr' : r ≠ [])
include hpre hiter hrun hne hr hr'

/-- The first vertex after a change of chains, above the stack on the other one and, when the stack
reaches the top, all of it but the top. -/
lemma stepSwitched_eq (left : Bool) (rest : List ℕ) (chain : Bool)
    (elements : List (ℕ × ℕ × ℕ)) :
    stepSwitched ⟨pre ++ v :: rest, pre.length, run ++ r, otherIter, chain, true, elements⟩ =
      .ok ⟨v :: rest, 0, (run ++ r).drop (otherIter - 1), 1, chain, false,
        elements ++ (fan left o v run).map Tile.triangle⟩ := by
  obtain ⟨k, others, hk⟩ := List.exists_cons_of_ne_nil (show run ++ r ≠ [] by simp [hr'])
  have hdrop : (if otherIter > 1 then (run ++ r).drop (otherIter - 1) else run ++ r) =
      (run ++ r).drop (otherIter - 1) := by
    split_ifs with h
    · rfl
    · rw [show otherIter - 1 = 0 by omega, List.drop_zero]
  have hone : (if otherIter > 1 then 1 else otherIter) = 1 := by split_ifs <;> omega
  have hback : deref (run ++ r) 0 = .ok k := by rw [hk, deref_zero]
  have hlink : (if v ≠ o ∧ k ≠ v then elements ++ [(o, v, k)] else elements) ++
      (spokes left v run).map Tile.triangle =
      elements ++ (fan left o v run).map Tile.triangle := by
    cases run with
    | nil =>
      obtain rfl : k = v := by simpa [show r = k :: others from hk] using hr rfl
      simp [fan, spokes]
    | cons k' run =>
      obtain rfl : k' = k := (List.cons.inj hk).1
      have hkv := hne k' List.mem_cons_self
      by_cases hov : o = v
      · simp [fan, hov]
      · simp [fan, hov, Ne.symm hov, hkv, Tile.triangle]
  rcases hpre with ⟨rfl, hov⟩ | ⟨rfl, rfl⟩
  · have hv : deref (o :: v :: rest) 1 = .ok v := rfl
    simp only [List.cons_append, List.nil_append, List.length_singleton, stepSwitched, hv,
      deref_zero, if_pos hov.symm, hback, hrun, fanOther_eq left, hdrop, hone, Run.bind_ok,
      List.tail_cons]
    rw [← hlink]
    simp [hov.symm]
  · simp only [List.nil_append, List.length_nil, stepSwitched, deref_zero, hrun, fanOther_eq left,
      hdrop, hone, Run.bind_ok, if_neg (not_not.2 (Eq.refl o))]
    rw [← hlink]
    simp

lemma step_switched (left : Bool) (rest : List ℕ) (chain : Bool) (elements : List (ℕ × ℕ × ℕ)) :
    step p ⟨pre ++ v :: rest, pre.length, run ++ r, otherIter, chain, true, elements⟩ =
      .ok ⟨v :: rest, 1, (run ++ r).drop (otherIter - 1), 1, chain, false,
        elements ++ (fan left o v run).map Tile.triangle⟩ := by
  have hlen : ¬ (pre.length > 1 ∨ (¬ true = true ∧ pre.length ≠ 0)) := by
    rcases hpre with ⟨rfl, -⟩ | ⟨rfl, -⟩ <;> simp
  rw [step, if_neg hlen, if_pos rfl,
    stepSwitched_eq hpre hiter hrun hne hr hr' left rest chain elements]
  rfl

end switched

end body

/-! ### The loops -/

section loops
variable {p : ℕ → Point} {top : ℕ} {left : Bool} {o v : ℕ} {pre stack : List ℕ}
  {above : List (Bool × ℕ)}

/-- The locals while the loops are at a vertex of the chain of the one before. -/
def sweeping (top : ℕ) (left : Bool) (pre stack : List ℕ) (above : List (Bool × ℕ))
    (elements : List (ℕ × ℕ × ℕ)) : State :=
  ⟨stack.reverse ++ (onChain left above ++ [top]), stack.length,
    pre ++ (onChain (!left) above ++ [top]), pre.length, left, false, elements⟩

/-- What the loops go on to from there. -/
def goOn (p : ℕ → Point) (fuel rounds inner : ℕ) (st : State) : Run (List (ℕ × ℕ × ℕ)) := do
  let st ← innerLoop p inner st
  outerLoop p fuel rounds (swap st)

lemma goOn_step {fuel rounds inner : ℕ} {st st' : State} (h : goesOn p st = true)
    (hstep : step p st = .ok st') :
    goOn p fuel rounds (inner + 1) st = goOn p fuel rounds inner st' := by
  simp [goOn, innerLoop, h, hstep]

lemma goOn_swap {fuel rounds inner : ℕ} {st : State} (h : goesOn p st = false)
    (hends : st.iter ≠ st.chain.length ∨ st.otherIter ≠ st.other.length) :
    goOn p fuel (rounds + 1) (inner + 1) st = goOn p fuel rounds fuel (swap st) := by
  have hloop : innerLoop p (inner + 1) st = .ok st := by simp [innerLoop, h]
  have hends' : (swap st).iter ≠ (swap st).chain.length ∨
      (swap st).otherIter ≠ (swap st).other.length := hends.symm
  rw [goOn, hloop, Run.bind_ok, outerLoop, if_pos hends']
  rfl

lemma goOn_done {fuel rounds inner : ℕ} {st : State} (h : goesOn p st = false)
    (hchain : st.iter = st.chain.length) (hother : st.otherIter = st.other.length) :
    goOn p fuel (rounds + 1) (inner + 1) st = .ok st.elements := by
  have hloop : innerLoop p (inner + 1) st = .ok st := by simp [innerLoop, h]
  have hends : ¬ ((swap st).iter ≠ (swap st).chain.length ∨
      (swap st).otherIter ≠ (swap st).other.length) := by simp [swap, hchain, hother]
  rw [goOn, hloop, Run.bind_ok, outerLoop, if_neg hends]
  rfl

/-- At the end of its chain an iterator stops. -/
lemma goesOn_end {l other : List ℕ} {iter otherIter : ℕ} (hi : iter = l.length)
    (chain switched : Bool) (elements : List (ℕ × ℕ × ℕ)) :
    goesOn p ⟨l, iter, other, otherIter, chain, switched, elements⟩ = false := by
  simp [goesOn, hi]

/-- At the end of the other chain it does not. -/
lemma goesOn_alone {l r other : List ℕ} {v iter otherIter : ℕ} (hi : iter = l.length)
    (hj : otherIter = other.length) (chain switched : Bool) (elements : List (ℕ × ℕ × ℕ)) :
    goesOn p ⟨l ++ v :: r, iter, other, otherIter, chain, switched, elements⟩ = true := by
  simp [goesOn, hi, hj]

lemma goesOn_eq {l r l' r' : List ℕ} {v w iter otherIter : ℕ} (hi : iter = l.length)
    (hj : otherIter = l'.length) (chain switched : Bool) (elements : List (ℕ × ℕ × ℕ)) :
    goesOn p ⟨l ++ v :: r, iter, l' ++ w :: r', otherIter, chain, switched, elements⟩ =
      atMost p v w := by
  simp [goesOn, hi, hj]

/-- The next vertex of a chain is the top or still to come. -/
lemma exists_next (top : ℕ) (left : Bool) (above : List (Bool × ℕ)) :
    ∃ w r, onChain left above ++ [top] = w :: r ∧ w ∈ above.map Prod.snd ++ [top] := by
  obtain ⟨w, r, h⟩ := List.exists_cons_of_ne_nil (show onChain left above ++ [top] ≠ [] by simp)
  exact ⟨w, r, h, mem_of_onChain (h ▸ List.mem_cons_self)⟩

lemma atMost_of_next (h : (v :: (above.map Prod.snd ++ [top])).Pairwise (Below p)) {w : ℕ}
    (hw : w ∈ above.map Prod.snd ++ [top]) : atMost p v w = true :=
  atMost_iff.2 ((List.pairwise_cons.1 h).1 w hw).asymm

lemma not_atMost_of_next (h : (v :: (above.map Prod.snd ++ [top])).Pairwise (Below p)) {w : ℕ}
    (hw : w ∈ above.map Prod.snd ++ [top]) : atMost p w v = false := by
  rw [Bool.eq_false_iff, ne_eq, atMost_iff, not_not]
  exact (List.pairwise_cons.1 h).1 w hw

/-- A vertex on the chain of the stack. -/
lemma step_same (p : ℕ → Point) (left : Bool) (o v : ℕ) (hs : stack ≠ []) (others : List ℕ)
    (otherIter : ℕ) (r : List ℕ) (elements : List (ℕ × ℕ × ℕ)) :
    step p ⟨stack.reverse ++ v :: r, stack.length, o :: others, otherIter, left, false, elements⟩ =
      .ok ⟨(push p left o v stack).2.reverse ++ r, (push p left o v stack).2.length,
        o :: others, otherIter, left, false,
        elements ++ (push p left o v stack).1.map Tile.triangle⟩ := by
  obtain ⟨rest, hrest, -, -⟩ := push_stack p left o v stack
  have hlen : stack.length ≠ 0 := by simpa using hs
  rw [step, if_pos (.inr ⟨by simp, hlen⟩), stepSame_eq hs]
  simp [hrest]

/-- The other chain has the vertex opposite to the stack at its back, or is yet to reach it. -/
def Back (p : ℕ → Point) (top : ℕ) (left : Bool) (o : ℕ) (pre stack : List ℕ)
    (above : List (Bool × ℕ)) : Prop :=
  pre = [o] ∧ Ascends p top (o :: stack) above ∨ pre = [] ∧ Awaited top left o above

lemma Back.exists_others (h : Back p top left o pre stack above) :
    ∃ others, pre ++ (onChain (!left) above ++ [top]) = o :: others := by
  rcases h with ⟨rfl, -⟩ | ⟨rfl, ho⟩
  · exact ⟨_, rfl⟩
  · exact List.head?_eq_some_iff.1 ho

/-- Of the next vertex of the other chain. -/
lemma Back.opposite (h : Back p top left o pre stack above)
    (hv : (onChain (!left) above ++ [top]).head? = some v) :
    pre = [o] ∧ o ≠ v ∨ pre = [] ∧ o = v := by
  rcases h with ⟨hpre, hasc⟩ | ⟨hpre, ho⟩
  · have hmem : v ∈ onChain (!left) above ++ [top] := List.mem_of_mem_head? hv
    exact .inl ⟨hpre, (hasc.seen o List.mem_cons_self v (mem_of_onChain hmem)).ne⟩
  · exact .inr ⟨hpre, Option.some_inj.1 (ho.symm.trans hv)⟩

lemma Back.push (h : Back p top left o pre stack ((left, v) :: above)) :
    Back p top left o pre (push p left o v stack).2 above := by
  refine h.imp (And.imp_right fun hasc => ?_) (And.imp_right Awaited.push)
  refine hasc.next.of_seen (List.forall_mem_cons.2 ⟨by simp, ?_⟩)
  exact push_seen fun s hs => List.mem_cons_of_mem _ hs

/-- The top, which both chains still have. -/
lemma goOn_top (hs : stack ≠ []) (h : Ascends p top stack [])
    (hback : Back p top left o pre stack []) (fuel rounds inner : ℕ)
    (elements : List (ℕ × ℕ × ℕ)) :
    goOn p (fuel + 2) (rounds + 2) (inner + 2) (sweeping top left pre stack [] elements) =
      .ok (elements ++ (tiles p top left o stack []).map Tile.triangle) := by
  obtain ⟨others, hothers⟩ := hback.exists_others
  obtain ⟨rest, hrest, hsuf, -⟩ := push_stack p left o top stack
  have hgoes : goesOn p (sweeping top left pre stack [] elements) = true := by
    rw [sweeping, onChain_nil, onChain_nil, List.nil_append,
      goesOn_eq List.length_reverse.symm rfl, atMost_iff]
    exact Below.irrefl top
  have hne : ∀ k ∈ rest.reverse, k ≠ top := fun k hk =>
    (h.below_top (hsuf.subset (List.mem_reverse.1 hk))).ne
  set cut := elements ++ (push p left o top stack).1.map Tile.triangle with hcut
  -- the chain of the stack takes the top
  have hfirst : step p (sweeping top left pre stack [] elements) =
      .ok ⟨rest.reverse ++ [top], rest.length + 1, pre ++ [top], pre.length, left, false, cut⟩ := by
    have hstep := step_same p left o top hs others pre.length [] elements
    rw [← hothers, hrest] at hstep
    simpa [sweeping] using hstep
  -- and so does the other chain
  have hsecond : step p ⟨pre ++ [top], pre.length, rest.reverse ++ [top], rest.length + 1, !left,
      true, cut⟩ =
      .ok ⟨[top], 1, [top], 1, !left, false,
        cut ++ (fan left o top rest.reverse).map Tile.triangle⟩ := by
    rw [step_switched (hback.opposite rfl) (Nat.le_add_left 1 _) (by simp) hne (fun _ => rfl)
      (List.cons_ne_nil _ _) left, Nat.add_sub_cancel, List.drop_left' List.length_reverse]
  have hdone : goesOn p ⟨[top], 1, [top], 1, !left, false,
      cut ++ (fan left o top rest.reverse).map Tile.triangle⟩ = false := goesOn_end rfl _ _ _
  rw [goOn_step hgoes hfirst, goOn_swap (goesOn_end (by simp) _ _ _) (.inr (by simp)), swap,
    goOn_step (goesOn_alone rfl (by simp) _ _ _) hsecond, goOn_done hdone rfl rfl, tiles, hrest,
    List.tail_cons, List.map_append, ← List.append_assoc]

lemma goOn_same (hs : stack ≠ []) (h : Ascends p top stack ((left, v) :: above))
    (hback : Back p top left o pre stack ((left, v) :: above)) (fuel rounds inner : ℕ)
    (elements : List (ℕ × ℕ × ℕ)) :
    goOn p fuel rounds (inner + 1) (sweeping top left pre stack ((left, v) :: above) elements) =
      goOn p fuel rounds inner (sweeping top left pre (push p left o v stack).2 above
        (elements ++ (push p left o v stack).1.map Tile.triangle)) := by
  obtain ⟨others, hothers⟩ := hback.exists_others
  obtain ⟨w, r, hnext, hw⟩ := exists_next top (!left) above
  have hgoes : goesOn p (sweeping top left pre stack ((left, v) :: above) elements) = true := by
    rw [sweeping, onChain_same, onChain_other (by simp), hnext, List.cons_append,
      goesOn_eq List.length_reverse.symm rfl]
    exact atMost_of_next h.above hw
  have hstep : step p (sweeping top left pre stack ((left, v) :: above) elements) =
      .ok (sweeping top left pre (push p left o v stack).2 above
        (elements ++ (push p left o v stack).1.map Tile.triangle)) := by
    rw [sweeping, hothers, onChain_same, List.cons_append, step_same p left o v hs, ← hothers,
      onChain_other (by simp)]
    rfl
  exact goOn_step hgoes hstep

/-- The next vertex is on the other chain, so that the loops change to it. -/
lemma goOn_switch {s : ℕ} {rest : List ℕ}
    (h : Ascends p top (s :: rest) ((!left, v) :: above))
    (hback : Back p top left o pre (s :: rest) ((!left, v) :: above)) (fuel rounds inner : ℕ)
    (elements : List (ℕ × ℕ × ℕ)) :
    goOn p (fuel + 1) (rounds + 1) (inner + 1)
        (sweeping top left pre (s :: rest) ((!left, v) :: above) elements) =
      goOn p (fuel + 1) rounds fuel (sweeping top (!left) [s] [v] above
        (elements ++ (fan left o v (s :: rest).reverse).map Tile.triangle)) := by
  obtain ⟨w, r, hnext, hw⟩ := exists_next top left above
  have hchain : onChain left ((!left, v) :: above) = onChain left above :=
    onChain_other (by simp) v above
  have hswap : goesOn p (sweeping top left pre (s :: rest) ((!left, v) :: above) elements) =
      false := by
    rw [sweeping, onChain_same, hchain, hnext, List.cons_append,
      goesOn_eq List.length_reverse.symm rfl]
    exact not_atMost_of_next h.above hw
  have hstack : ∀ k ∈ (s :: rest).reverse, k ≠ v := fun k hk =>
    (h.below_head (List.mem_reverse.1 hk)).ne
  have hstate : swap (sweeping top left pre (s :: rest) ((!left, v) :: above) elements) =
      ⟨pre ++ v :: (onChain (!left) above ++ [top]), pre.length,
        (s :: rest).reverse ++ (onChain left above ++ [top]), (s :: rest).length, !left, true,
        elements⟩ := by
    rw [sweeping, onChain_same, hchain]
    rfl
  have hgoes : goesOn p (swap (sweeping top left pre (s :: rest) ((!left, v) :: above) elements)) =
      true := by
    rw [hstate, hnext, goesOn_eq rfl List.length_reverse.symm]
    exact atMost_of_next h.above hw
  have hstep : step p (swap (sweeping top left pre (s :: rest) ((!left, v) :: above) elements)) =
      .ok (sweeping top (!left) [s] [v] above
        (elements ++ (fan left o v (s :: rest).reverse).map Tile.triangle)) := by
    rw [hstate, step_switched (hback.opposite (by simp)) (by simp) (by simp) hstack (by simp)
      (by simp) left]
    simp [sweeping]
  rw [goOn_swap hswap (.inl (by simp [sweeping])), goOn_step hgoes hstep]

/-- The loops run the funnel. -/
lemma goOn_eq {fuel rounds inner : ℕ} (hs : stack ≠ []) (h : Ascends p top stack above)
    (hback : Back p top left o pre stack above) (hinner : above.length + 2 ≤ inner)
    (hfuel : above.length + 3 ≤ fuel) (hrounds : above.length + 3 ≤ rounds)
    (elements : List (ℕ × ℕ × ℕ)) :
    goOn p fuel rounds inner (sweeping top left pre stack above elements) =
      .ok (elements ++ (tiles p top left o stack above).map Tile.triangle) := by
  fun_induction tiles p top left o stack above generalizing pre rounds inner elements with
  | case1 left o stack =>
    obtain ⟨fuel, rfl⟩ : ∃ n, fuel = n + 2 := ⟨fuel - 2, by simp at hfuel; omega⟩
    obtain ⟨rounds, rfl⟩ : ∃ n, rounds = n + 2 := ⟨rounds - 2, by simp at hrounds; omega⟩
    obtain ⟨inner, rfl⟩ : ∃ n, inner = n + 2 := ⟨inner - 2, by simp at hinner; omega⟩
    exact goOn_top hs h hback fuel rounds inner elements
  | case2 o stack left v above ih =>
    obtain ⟨inner, rfl⟩ : ∃ n, inner = n + 1 := ⟨inner - 1, by omega⟩
    obtain ⟨rest, hrest, -, -⟩ := push_stack p left o v stack
    simp only [List.length_cons] at hinner hfuel hrounds
    rw [goOn_same hs h hback, List.map_append, ← List.append_assoc]
    exact ih (hrest ▸ List.cons_ne_nil _ _) (h.next.of_seen (push_seen fun s hs => hs)) hback.push
      (by omega) (by omega) (by omega) _
  | case3 left o stack chain v above hne ih =>
    obtain rfl : chain = !left := by cases chain <;> cases left <;> simp_all
    obtain ⟨inner, rfl⟩ : ∃ n, inner = n + 1 := ⟨inner - 1, by omega⟩
    obtain ⟨rounds, rfl⟩ : ∃ n, rounds = n + 1 := ⟨rounds - 1, by omega⟩
    obtain ⟨fuel, rfl⟩ : ∃ n, fuel = n + 1 := ⟨fuel - 1, by omega⟩
    obtain ⟨s, rest, rfl⟩ := List.exists_cons_of_ne_nil hs
    have hasc : Ascends p top [s, v] above := h.switch List.mem_cons_self
    simp only [List.length_cons] at hinner hfuel hrounds
    rw [List.headD_cons] at ih ⊢
    rw [goOn_switch h hback, List.map_append, ← List.append_assoc]
    exact ih (List.cons_ne_nil _ _) (hasc.of_seen (by simp)) (.inl ⟨rfl, hasc⟩) (by omega)
      (by omega) (by omega) _

end loops
end CoreCommon.Triangulate
