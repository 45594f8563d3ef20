import CoreCommon.Funnel

/-! Where the triangles of the funnel lie inside the polygon: on the tame runs, which keep the stack
what is left of the run past its leading edges. -/
namespace CoreCommon.Triangulate

def Tile.Inside (p : ℕ → Point) (t : Tile) : Prop := 0 ≤ t.signed p

/-! ### Runs -/

section runs
variable {p : ℕ → Point} {left : Bool} {o v : ℕ}

lemma peel_ne_nil {run : List ℕ} (h : run ≠ []) : peel p left o run ≠ [] := by
  fun_induction peel p left o run with
  | case1 a b run hfaces ih => exact ih (List.cons_ne_nil _ _)
  | case2 => exact List.cons_ne_nil _ _
  | case3 => exact h

lemma peel_getLastD (d : ℕ) (run : List ℕ) :
    (peel p left o run).getLastD d = run.getLastD d := by
  fun_induction peel p left o run with
  | case1 a b run hfaces ih => exact ih
  | case2 => rfl
  | case3 => rfl

lemma peel_stuck {run rest : List ℕ} {a b : ℕ} (h : peel p left o run = a :: b :: rest) :
    ¬ 0 < side p left a b o := by
  fun_induction peel p left o run with
  | case1 a' b' run hfaces ih => exact ih h
  | case2 a' b' run hfaces =>
    obtain ⟨rfl, rfl, rfl⟩ : a' = a ∧ b' = b ∧ run = rest := by simpa using h
    exact hfaces
  | case3 run hrun => exact absurd h (hrun a b rest)

lemma peel_append (v : ℕ) {run : List ℕ} (h : run ≠ []) :
    peel p left o (run ++ [v]) = peel p left o (peel p left o run ++ [v]) := by
  fun_induction peel p left o run with
  | case1 a b run hfaces ih =>
    rw [← ih (List.cons_ne_nil _ _)]
    exact if_pos hfaces
  | case2 => rfl
  | case3 => rfl

/-- A vertex more leaves the edges before it as they are, but when it takes the one vertex left. -/
lemma peel_append_cases (p : ℕ → Point) (left : Bool) (o v : ℕ) {run : List ℕ} (h : run ≠ []) :
    (∃ k, peel p left o run = [k] ∧
      peel p left o (run ++ [v]) = if 0 < side p left k v o then [v] else [k, v]) ∨
    (∃ a b rest, peel p left o run = a :: b :: rest) ∧
      peel p left o (run ++ [v]) = peel p left o run ++ [v] := by
  rw [peel_append v h]
  rcases hpeel : peel p left o run with _ | ⟨a, _ | ⟨b, rest⟩⟩
  · exact absurd hpeel (peel_ne_nil h)
  · exact .inl ⟨a, rfl, rfl⟩
  · exact .inr ⟨⟨a, b, rest, rfl⟩, if_neg (peel_stuck hpeel)⟩

lemma convex_append (p : ℕ → Point) (left : Bool) (run : List ℕ) (a b c : ℕ) :
    Convex p left (run ++ [a, b, c]) ↔ Convex p left (run ++ [a, b]) ∧ 0 ≤ side p left a b c := by
  induction run with
  | nil => simp [Convex]
  | cons x run ih =>
    rcases run with _ | ⟨y, _ | ⟨z, run⟩⟩
    · simp only [List.nil_append, List.cons_append, Convex] at ih ⊢
      tauto
    · simp only [List.nil_append, List.cons_append, Convex] at ih ⊢
      tauto
    · simp only [List.cons_append, Convex] at ih ⊢
      rw [ih, and_assoc]

/-- On a convex stack a vertex cuts no ears when the run stays convex. -/
lemma ears_of_convex {stack : List ℕ} (h : Convex p left (stack.reverse ++ [v])) :
    ears p left v stack = ([], stack) := by
  rcases stack with _ | ⟨b, _ | ⟨a, stack⟩⟩
  · rfl
  · rfl
  · have hturn : 0 ≤ side p left a b v := by
      refine ((convex_append p left stack.reverse a b v).1 ?_).2
      simpa using h
    exact if_neg (not_lt.2 hturn)

/-- An ear lies outside, so that without one the run stays convex. -/
lemma convex_of_ears {stack : List ℕ} (h : Convex p left stack.reverse)
    (hin : ∀ t ∈ (ears p left v stack).1, t.Inside p) : Convex p left (stack.reverse ++ [v]) := by
  rcases stack with _ | ⟨b, _ | ⟨a, stack⟩⟩
  · trivial
  · trivial
  · have hturn : 0 ≤ side p left a b v := by
      by_contra hneg
      have hcut : (⟨!left, v, b, a⟩ : Tile) ∈ (ears p left v (b :: a :: stack)).1 := by
        rw [ears, if_pos (not_le.1 hneg)]
        exact List.mem_cons_self
      have hear : 0 ≤ side p (!left) v b a := hin _ hcut
      rw [side_not, side_swap, side_rotate, neg_neg] at hear
      exact hneg hear
    simpa using (convex_append p left stack.reverse a b v).2 ⟨by simpa using h, hturn⟩

lemma convex_peel_append (v : ℕ) {run : List ℕ} (h : run ≠ []) :
    Convex p left (peel p left o (run ++ [v])) ↔ Convex p left (peel p left o run ++ [v]) := by
  rcases peel_append_cases p left o v h with ⟨k, hk, happ⟩ | ⟨-, happ⟩
  · rw [happ, hk]
    split_ifs <;> simp [Convex]
  · rw [happ]

lemma convex_of_append {run : List ℕ} (h : Convex p left (run ++ [v])) : Convex p left run := by
  rcases List.eq_nil_or_concat run with rfl | ⟨run, b, rfl⟩
  · trivial
  · rcases List.eq_nil_or_concat run with rfl | ⟨run, a, rfl⟩
    · trivial
    · have hlast := convex_append p left run a b v
      simp only [List.concat_eq_append, List.append_assoc, List.cons_append, List.nil_append]
        at h hlast ⊢
      exact (hlast.1 h).1

lemma RunsTame.convex {top : ℕ} {run : List ℕ} (hrun : run ≠ []) {above : List (Bool × ℕ)}
    (h : RunsTame p top left o run above) : Convex p left (peel p left o run) := by
  induction above generalizing run with
  | nil => exact RunTame.convex h
  | cons w above ih =>
    rw [RunsTame] at h
    split_ifs at h with heq
    · exact convex_of_append ((convex_peel_append w.2 hrun).1 (ih (by simp) h))
    · exact h.1.convex

end runs

/-! ### One vertex -/

section vertex
variable {p : ℕ → Point} {left : Bool} {o v : ℕ} {stack run : List ℕ}

lemma ears_sub_push {t : Tile} (h : t ∈ (ears p left v stack).1) :
    t ∈ (push p left o v stack).1 := by
  unfold push
  split
  next cut k hk =>
    rw [hk] at h
    split_ifs
    · exact List.mem_append_left _ h
    · exact h
  next cut rest _ hrest =>
    rw [hrest] at h
    exact h

/-- While the run stays convex, the stack is what is left of it past its leading edges. -/
lemma push_of_convex (hrun : run ≠ []) (hs : stack.reverse = peel p left o run)
    (h : Convex p left (stack.reverse ++ [v])) :
    (push p left o v stack).2.reverse = peel p left o (run ++ [v]) ∧
      ∀ t ∈ (push p left o v stack).1, t.Inside p := by
  have hears := ears_of_convex h
  rcases peel_append_cases p left o v hrun with
    ⟨k, hk, happ⟩ | ⟨⟨a, b, rest, hrest⟩, happ⟩
  · obtain rfl : stack = [k] := by simpa [hk] using hs
    rw [happ]
    simp only [push, hears]
    split_ifs with hfaces
    · exact ⟨rfl, fun t ht => by obtain rfl := List.mem_singleton.1 ht; exact hfaces.le⟩
    · exact ⟨rfl, fun t ht => absurd ht List.not_mem_nil⟩
  · have hpush : push p left o v stack = ([], v :: stack) := by
      unfold push
      rw [hears]
      split
      next k hk =>
        obtain ⟨rfl, rfl⟩ := Prod.mk.inj hk
        rw [hrest] at hs
        simp at hs
      next cut rest' _ heq =>
        obtain ⟨rfl, rfl⟩ := Prod.mk.inj heq
        rfl
    rw [hpush, happ, ← hs]
    exact ⟨List.reverse_cons, fun t ht => absurd ht List.not_mem_nil⟩

/-- Under the last vertex the stack is the run that is left, or too short to matter. -/
lemma push_tail_chain (hrun : run ≠ []) (hs : stack.reverse = peel p left o run)
    (h : Convex p left (stack.reverse ++ [v])) (r : ℕ → ℕ → Prop) :
    (push p left o v stack).2.tail.reverse.IsChain r ↔ (peel p left o run).IsChain r := by
  obtain ⟨rest, hrest, -, -⟩ := push_stack p left o v stack
  have hpush := (push_of_convex hrun hs h).1
  rw [hrest, List.reverse_cons] at hpush
  rw [hrest, List.tail_cons]
  rcases peel_append_cases p left o v hrun with ⟨k, hk, happ⟩ | ⟨-, happ⟩
  · rw [happ] at hpush
    rw [hk]
    split_ifs at hpush
    · obtain rfl : rest = [] := by simpa using hpush
      simp
    · rw [List.append_cancel_right (show rest.reverse ++ [v] = [k] ++ [v] from hpush)]
  · rw [List.append_cancel_right (hpush.trans happ)]

lemma convex_of_faces {run : List ℕ} (h : Convex p left run)
    (hfaces : run.IsChain fun a b => 0 ≤ side p left a b v) : Convex p left (run ++ [v]) := by
  rcases List.eq_nil_or_concat run with rfl | ⟨run, b, rfl⟩
  · trivial
  · rcases List.eq_nil_or_concat run with rfl | ⟨run, a, rfl⟩
    · trivial
    · simp only [List.concat_eq_append, List.append_assoc, List.cons_append, List.nil_append]
        at h hfaces ⊢
      exact (convex_append p left run a b v).2 ⟨h, (List.isChain_append_cons_cons.1 hfaces).2.1⟩

lemma spokes_inside (k : ℕ) (run : List ℕ) : (∀ t ∈ spokes left v (k :: run), t.Inside p) ↔
    (k :: run).IsChain fun a b => 0 ≤ side p left a b v := by
  induction run generalizing k with
  | nil => simp [spokes]
  | cons b run ih =>
    rw [spokes, List.forall_mem_cons, ih, List.isChain_cons_cons, Tile.Inside, Tile.signed,
      side_rotate]

/-- Past the edge that leads to it, what a vertex opposite to a run sees of it lies inside when the
run faces it. -/
lemma fan_inside (hlink : o ≠ v → ∀ k ∈ run, 0 ≤ side p (!left) o v k) :
    (∀ t ∈ fan left o v run, t.Inside p) ↔ run.IsChain fun a b => 0 ≤ side p left a b v := by
  cases run with
  | nil => simp [fan]
  | cons k run =>
    rw [fan, List.forall_mem_append, spokes_inside]
    refine and_iff_right fun t ht => ?_
    split_ifs at ht with heq
    · exact absurd ht List.not_mem_nil
    · obtain rfl := List.mem_singleton.1 ht
      exact hlink heq k List.mem_cons_self

end vertex

/-! ### The whole sweep -/

/-- What `Simple` says of the two sides between their ends. -/
def Apart (p : ℕ → Point) (path : Bool → List ℕ) : Prop :=
  ∀ left a b w, [a, b] <:+: path left → w ∈ path (!left) → Below p a w → Below p w b →
    0 < side p left a b w

lemma MonotonePolygon.Simple.toApart {p : ℕ → Point} {poly : MonotonePolygon} (h : poly.Simple p) :
    Apart p poly.path := by
  rintro left a b w ⟨before, after, heq⟩ hw
  have hpath : poly.path left = before ++ a :: b :: after := by simpa using heq.symm
  exact List.isChain_iff_forall_rel_of_append_cons_cons.1 (h.apart left) hpath w hw

/-- The stack among the two sides of a polygon, which what is to come continues. -/
structure Enclosed (p : ℕ → Point) (path : Bool → List ℕ) (top : ℕ) (left : Bool) (o : ℕ)
    (stack : List ℕ) (above : List (Bool × ℕ)) : Prop where
  nonempty : stack ≠ []
  ascends : Ascends p top stack above
  inside : ∀ s ∈ stack, s ∈ path left
  own : stack.headD o :: (onChain left above ++ [top]) <:+ path left
  other : onChain (!left) above ++ [top] <:+ path (!left)

/-- The vertex opposite to the stack comes before it, on the edge to what its chain has above. -/
structure Opposite (p : ℕ → Point) (path : Bool → List ℕ) (top : ℕ) (left : Bool) (o : ℕ)
    (stack : List ℕ) (above : List (Bool × ℕ)) : Prop where
  edge : o :: (onChain (!left) above ++ [top]) <:+ path (!left)
  below : ∀ s ∈ stack, Below p o s

/-- The vertex opposite to the stack is yet to come. -/
def Awaited (top : ℕ) (left : Bool) (o : ℕ) (above : List (Bool × ℕ)) : Prop :=
  (onChain (!left) above ++ [top]).head? = some o

section sweep
variable {p : ℕ → Point} {path : Bool → List ℕ} {top : ℕ} {left : Bool} {o v : ℕ}
  {stack run : List ℕ} {above : List (Bool × ℕ)}

lemma mem_of_onChain {w : ℕ} (h : w ∈ onChain left above ++ [top]) :
    w ∈ above.map Prod.snd ++ [top] := by
  rcases List.mem_append.1 h with h | h
  · exact List.mem_append_left _ ((List.filter_sublist.map Prod.snd).subset h)
  · exact List.mem_append_right _ h

lemma Enclosed.push (h : Enclosed p path top left o stack ((left, v) :: above)) :
    Enclosed p path top left o (push p left o v stack).2 above := by
  obtain ⟨rest, hrest, hsuf, -⟩ := push_stack p left o v stack
  have hown := (List.suffix_cons _ _).trans h.own
  rw [onChain_same] at hown
  have hother := h.other
  rw [onChain_other (by simp)] at hother
  refine ⟨hrest ▸ List.cons_ne_nil _ _, h.ascends.next.of_seen (push_seen fun s hs => hs),
    fun s hs => ?_, ?_, hother⟩
  · rcases List.mem_cons.1 (push_seen (fun s hs => hs) s hs) with rfl | hs
    · exact hown.subset List.mem_cons_self
    · exact h.inside s hs
  · rw [hrest]
    exact hown

lemma Opposite.push (h : Enclosed p path top left o stack ((left, v) :: above))
    (ho : Opposite p path top left o stack ((left, v) :: above)) :
    Opposite p path top left o (push p left o v stack).2 above := by
  have hedge := ho.edge
  rw [onChain_other (by simp)] at hedge
  refine ⟨hedge, fun s hs => ?_⟩
  rcases List.mem_cons.1 (push_seen (fun s hs => hs) s hs) with rfl | hs
  · have hlast := headD_mem_of_ne_nil o h.nonempty
    exact (ho.below _ hlast).trans (h.ascends.below_head hlast)
  · exact ho.below s hs

lemma Awaited.push (ho : Awaited top left o ((left, v) :: above)) : Awaited top left o above := by
  rwa [Awaited, onChain_other (by simp)] at ho

lemma Enclosed.switch (h : Enclosed p path top left o stack ((!left, v) :: above)) :
    Enclosed p path top (!left) (stack.headD o) [v] above := by
  have hother := h.other
  rw [onChain_same] at hother
  have hown := (List.suffix_cons _ _).trans h.own
  rw [onChain_other (by simp)] at hown
  refine ⟨List.cons_ne_nil _ _, h.ascends.next.of_seen fun s hs => ?_, fun s hs => ?_, hother, ?_⟩
  · exact List.mem_singleton.1 hs ▸ List.mem_cons_self
  · exact List.mem_singleton.1 hs ▸ hother.subset List.mem_cons_self
  · rwa [Bool.not_not]

lemma Enclosed.opposite_switch (h : Enclosed p path top left o stack ((!left, v) :: above)) :
    Opposite p path top (!left) (stack.headD o) [v] above := by
  have hown := h.own
  rw [onChain_other (by simp)] at hown
  refine ⟨by rwa [Bool.not_not], fun s hs => ?_⟩
  rw [List.mem_singleton.1 hs]
  exact h.ascends.below_head (headD_mem_of_ne_nil o h.nonempty)

/-- The edge of the other chain at the height of the stack faces it. -/
lemma Enclosed.link (hapart : Apart p path) (h : Enclosed p path top left o stack above)
    (ho : Opposite p path top left o stack above)
    (hv : (onChain (!left) above ++ [top]).head? = some v) {k : ℕ} (hk : k ∈ stack) :
    0 < side p (!left) o v k := by
  obtain ⟨rest, hrest⟩ := List.head?_eq_some_iff.1 hv
  have hedge := ho.edge
  rw [hrest] at hedge
  refine hapart (!left) o v k ?_ ?_ (ho.below k hk) ?_
  · exact (List.prefix_append [o, v] rest).isInfix.trans hedge.isInfix
  · rw [Bool.not_not]
    exact h.inside k hk
  · have hmem : v ∈ onChain (!left) above ++ [top] := hrest ▸ List.mem_cons_self
    exact h.ascends.seen k hk v (mem_of_onChain hmem)

lemma Enclosed.link_inside (hapart : Apart p path) (h : Enclosed p path top left o stack above)
    (ho : Awaited top left o above ∨ Opposite p path top left o stack above)
    (hv : (onChain (!left) above ++ [top]).head? = some v) (hne : o ≠ v) :
    ∀ k ∈ stack, 0 ≤ side p (!left) o v k := by
  rcases ho with ho | ho
  · exact absurd (Option.some_inj.1 (ho.symm.trans hv)) hne
  · exact fun k hk => (h.link hapart ho hv hk).le

/-- The triangles lie inside exactly when the runs are tame. -/
lemma tiles_inside (hapart : Apart p path) (h : Enclosed p path top left o stack above)
    (ho : Awaited top left o above ∨ Opposite p path top left o stack above) (hrun : run ≠ [])
    (hs : stack.reverse = peel p left o run) (hconv : Convex p left stack.reverse) :
    (∀ t ∈ tiles p top left o stack above, t.Inside p) ↔ RunsTame p top left o run above := by
  fun_induction tiles p top left o stack above generalizing run with
  | case1 left o stack =>
    obtain ⟨rest, hrest, hsuf, -⟩ := push_stack p left o top stack
    have hlink : o ≠ top → ∀ k ∈ (push p left o top stack).2.tail.reverse,
        0 ≤ side p (!left) o top k := by
      intro hne k hk
      rw [hrest, List.tail_cons, List.mem_reverse] at hk
      exact h.link_inside hapart ho rfl hne k (hsuf.subset hk)
    rw [List.forall_mem_append, fan_inside hlink, RunsTame]
    constructor
    · rintro ⟨hpush, hfan⟩
      have hkept := convex_of_ears hconv fun t ht => hpush t (ears_sub_push ht)
      exact ⟨hs ▸ hconv, (push_tail_chain hrun hs hkept _).1 hfan⟩
    · intro htame
      have hkept : Convex p left (stack.reverse ++ [top]) :=
        convex_of_faces hconv (by rw [hs]; exact htame.faces)
      exact ⟨(push_of_convex hrun hs hkept).2, (push_tail_chain hrun hs hkept _).2 htame.faces⟩
  | case2 o stack left v above ih =>
    have hnext (hkept : Convex p left (stack.reverse ++ [v])) :=
      have hpeel := (push_of_convex hrun hs hkept).1
      ih h.push (ho.imp Awaited.push (Opposite.push h)) (by simp) hpeel
        (by rw [hpeel, convex_peel_append v hrun, ← hs]; exact hkept)
    rw [List.forall_mem_append, RunsTame, if_pos rfl]
    constructor
    · rintro ⟨hpush, htiles⟩
      exact (hnext (convex_of_ears hconv fun t ht => hpush t (ears_sub_push ht))).1 htiles
    · intro htame
      have hkept : Convex p left (stack.reverse ++ [v]) := by
        rw [hs, ← convex_peel_append v hrun]
        exact htame.convex (by simp)
      exact ⟨(push_of_convex hrun hs hkept).2, (hnext hkept).2 htame⟩
  | case3 left o stack chain v above hne ih =>
    obtain rfl : chain = !left := by cases chain <;> cases left <;> simp_all
    have hlink : o ≠ v → ∀ k ∈ stack.reverse, 0 ≤ side p (!left) o v k := by
      intro hne k hk
      exact h.link_inside hapart ho (by simp) hne k (List.mem_reverse.1 hk)
    have hlast : run.getLastD o = stack.headD o := by
      rw [← peel_getLastD o, ← hs, List.getLastD_eq_getLast?, List.getLast?_reverse,
        List.headD_eq_head?_getD]
    rw [List.forall_mem_append, fan_inside hlink, RunsTame, if_neg hne, hlast,
      ih h.switch (.inr h.opposite_switch) (List.cons_ne_nil v []) rfl trivial, hs]
    exact and_congr_left fun _ => ⟨fun hfaces => ⟨hs ▸ hconv, hfaces⟩, RunTame.faces⟩

/-! ### A triangle that is not flat -/

/-- A stack that a vertex has taken whole lost its last vertex to a triangle with an area. -/
lemma push_collapsed (hstack : stack ≠ []) (h : (push p left o v stack).2 = [v]) :
    ∃ t ∈ (push p left o v stack).1, 0 < t.signed p := by
  have hne := ears_ne_nil p left v hstack
  unfold push at h ⊢
  split at h
  next cut k hk =>
    split_ifs at h ⊢ with hfaces
    · exact ⟨_, List.mem_append_right _ (List.mem_singleton_self _), hfaces⟩
    · exact absurd h (by simp)
  next cut rest _ hrest =>
    obtain rfl : rest = [] := by simpa using h
    exact absurd (congrArg Prod.snd hrest) hne

lemma push_single {k : ℕ} (h : 0 < side p left k v o) :
    ∃ t ∈ (push p left o v [k]).1, 0 < t.signed p := by
  simp only [push, ears, if_pos h]
  exact ⟨_, List.mem_append_right _ (List.mem_singleton_self _), h⟩

lemma tiles_area_pos (hapart : Apart p path) (h : Enclosed p path top left o stack above)
    (ho : Opposite p path top left o stack above) :
    ∃ t ∈ tiles p top left o stack above, 0 < t.signed p := by
  fun_induction tiles p top left o stack above with
  | case1 left o stack =>
    obtain ⟨rest, hrest, hsuf, -⟩ := push_stack p left o top stack
    rcases hk : rest.reverse with _ | ⟨k, run⟩
    · obtain rfl : rest = [] := by simpa using hk
      obtain ⟨t, ht, hpos⟩ := push_collapsed h.nonempty hrest
      exact ⟨t, List.mem_append_left _ ht, hpos⟩
    · have hmem : k ∈ stack := hsuf.subset (List.mem_reverse.1 (hk ▸ List.mem_cons_self))
      have hne : o ≠ top := ((ho.below k hmem).trans (h.ascends.below_top hmem)).ne
      refine ⟨⟨!left, o, top, k⟩, List.mem_append_right _ ?_, h.link hapart ho rfl hmem⟩
      rw [hrest, List.tail_cons, hk, fan, if_neg hne]
      exact List.mem_append_left _ (List.mem_singleton_self _)
  | case2 o stack left v above ih =>
    obtain ⟨t, ht, hpos⟩ := ih h.push (ho.push h)
    exact ⟨t, List.mem_append_right _ ht, hpos⟩
  | case3 left o stack chain v above hne ih =>
    obtain rfl : chain = !left := by cases chain <;> cases left <;> simp_all
    obtain ⟨t, ht, hpos⟩ := ih h.switch h.opposite_switch
    exact ⟨t, List.mem_append_right _ ht, hpos⟩

lemma tiles_area_pos_first (hapart : Apart p path) (h : Enclosed p path top left o stack above)
    (ho : onChain (!left) above ≠ []) :
    ∃ t ∈ tiles p top left o stack above, 0 < t.signed p := by
  fun_induction tiles p top left o stack above with
  | case1 left o stack => exact absurd rfl ho
  | case2 o stack left v above ih =>
    rw [onChain_other (by simp)] at ho
    obtain ⟨t, ht, hpos⟩ := ih h.push ho
    exact ⟨t, List.mem_append_right _ ht, hpos⟩
  | case3 left o stack chain v above hne ih =>
    obtain rfl : chain = !left := by cases chain <;> cases left <;> simp_all
    obtain ⟨t, ht, hpos⟩ := tiles_area_pos hapart h.switch h.opposite_switch
    exact ⟨t, List.mem_append_right _ ht, hpos⟩

/-- The areas add up exactly when every triangle lies inside. -/
lemma areas_eq_iff {ts : List Tile} (hpos : ∃ t ∈ ts, 0 < t.signed p) :
    (ts.map fun t => |t.signed p|).sum = |signedArea p ts| ↔ ∀ t ∈ ts, t.Inside p := by
  obtain ⟨t, ht, hlt⟩ := hpos
  have hiff := Walk.sum_abs_eq_abs_sum_iff ⟨t.signed p, List.mem_map_of_mem ht, hlt⟩
  rwa [List.map_map, List.forall_mem_map] at hiff

end sweep
end CoreCommon.Triangulate
