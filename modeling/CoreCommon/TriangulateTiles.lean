import CoreCommon.TriangulateRun

/-! The sweep of a simple polygon, and when `triangulate_monotone` tiles it. -/
namespace CoreCommon.Triangulate
open MonotonePolygon

/-! ### Merging the chains -/

section merge
variable {α : Type} {le : α → α → Bool} {q : α → Bool}

/-- What a predicate picks from one of two lists alone keeps its order when they are merged. -/
lemma filter_merge {xs ys : List α} (h : (∀ x ∈ xs, ¬ q x) ∨ ∀ y ∈ ys, ¬ q y) :
    (xs.merge ys le).filter q = xs.filter q ++ ys.filter q := by
  induction xs generalizing ys with
  | nil => simp
  | cons x xs ihx =>
    induction ys with
    | nil => simp
    | cons y ys ihy =>
      rw [List.cons_merge_cons]
      split_ifs with hle
      · have hrest := ihx (h.imp_left fun h' => (List.forall_mem_cons.1 h').2)
        by_cases hq : q x
        · rw [List.filter_cons_of_pos hq, List.filter_cons_of_pos hq, hrest, List.cons_append]
        · rw [List.filter_cons_of_neg hq, List.filter_cons_of_neg hq, hrest]
      · have hrest := ihy (h.imp_right fun h' => (List.forall_mem_cons.1 h').2)
        by_cases hq : q y
        · have hnone : (x :: xs).filter q = [] := by
            rcases h with h | h
            · exact List.filter_eq_nil_iff.2 h
            · exact absurd hq (h y List.mem_cons_self)
          rw [List.filter_cons_of_pos hq, List.filter_cons_of_pos hq, hrest, hnone, List.nil_append,
            List.nil_append]
        · rw [List.filter_cons_of_neg hq, List.filter_cons_of_neg hq, hrest]

end merge

section order
variable {p : ℕ → Point} {v w : ℕ}

lemma Below.point_ne (h : Below p v w) : p v ≠ p w := by
  rcases h with hlt | ⟨-, hlt⟩
  · exact fun heq => hlt.ne (congrArg Point.y heq)
  · exact fun heq => hlt.ne (congrArg Point.x heq)

lemma below_of_atMost (h : atMost p v w = true) (hne : p v ≠ p w) : Below p v w := by
  rw [atMost, decide_eq_true_eq] at h
  rcases h with hlt | ⟨heq, hle⟩
  · exact .inl hlt
  · refine .inr ⟨heq, lt_of_le_of_ne hle fun hx => hne ?_⟩
    cases hv : p v
    cases hw : p w
    simp_all

lemma atMost_trans (u v w : ℕ) (h : atMost p u v = true) (h' : atMost p v w = true) :
    atMost p u w = true := by
  rw [atMost, decide_eq_true_eq] at h h' ⊢
  rcases h with hlt | ⟨heq, hle⟩ <;> rcases h' with hlt' | ⟨heq', hle'⟩
  · exact .inl (hlt.trans hlt')
  · exact .inl (heq' ▸ hlt)
  · exact .inl (heq ▸ hlt')
  · exact .inr ⟨heq.trans heq', hle.trans hle'⟩

lemma atMost_total (v w : ℕ) : (atMost p v w || atMost p w v) = true := by
  rw [Bool.or_eq_true, atMost_iff, atMost_iff]
  by_cases h : Below p w v
  · exact .inr h.asymm
  · exact .inl h

end order

/-! ### The shape of a polygon -/

/-- The polygon of the given inner vertices, from the bottom up. -/
def shaped (top bottom : ℕ) (ls rs : List ℕ) : MonotonePolygon :=
  ⟨top :: (ls.reverse ++ [bottom]), top :: rs.reverse⟩

section shape
variable {p : ℕ → Point} {top bottom : ℕ} {ls rs : List ℕ}

lemma exists_shaped {poly : MonotonePolygon} (h : poly.Simple p) :
    ∃ top bottom ls rs, poly = shaped top bottom ls rs := by
  obtain ⟨left, right⟩ := poly
  obtain ⟨top, hleft, hright⟩ := h.top
  obtain ⟨ls, rfl⟩ := List.head?_eq_some_iff.1 hleft
  obtain ⟨rs, rfl⟩ := List.head?_eq_some_iff.1 hright
  rcases List.eq_nil_or_concat ls with rfl | ⟨ls, bottom, rfl⟩
  · exact absurd (h.bottom top rfl top List.mem_cons_self) (Below.irrefl top)
  · exact ⟨top, bottom, ls.reverse, rs.reverse, by simp [shaped]⟩

lemma getLast?_left (ls : List ℕ) : (top :: (ls ++ [bottom])).getLast? = some bottom := by
  rw [← List.cons_append, List.getLast?_concat]

@[simp] lemma path_left : (shaped top bottom ls rs).path true = bottom :: (ls ++ [top]) := by
  simp [path, shaped]

@[simp] lemma path_right : (shaped top bottom ls rs).path false = bottom :: (rs ++ [top]) := by
  simp [path, shaped, getLast?_left]

lemma size_shaped : (shaped top bottom ls rs).size = ls.length + rs.length + 2 := by
  simp [MonotonePolygon.size, shaped]
  omega

/-- The sweep above the bottom. -/
def above (p : ℕ → Point) (ls rs : List ℕ) : List (Bool × ℕ) :=
  (ls.map (true, ·)).merge (rs.map (false, ·)) fun v w => atMost p v.2 w.2

lemma above_perm : ((above p ls rs).map Prod.snd).Perm (ls ++ rs) := by
  have hperm : (above p ls rs).Perm (ls.map (true, ·) ++ rs.map (false, ·)) :=
    List.merge_perm_append _
  simpa [Function.comp_def] using hperm.map Prod.snd

lemma length_above : (above p ls rs).length = ls.length + rs.length := by simp [above]

lemma onChain_above : onChain true (above p ls rs) = ls ∧ onChain false (above p ls rs) = rs := by
  constructor
  · rw [onChain, above, filter_merge (.inr (by simp))]
    simp [List.filter_map, Function.comp_def]
  · rw [onChain, above, filter_merge (.inl (by simp))]
    simp [List.filter_map, Function.comp_def]

section simple
variable (h : (shaped top bottom ls rs).Simple p)
include h

lemma sorted_left : (bottom :: (ls ++ [top])).Pairwise (Below p) := by
  have hdesc := h.left_descends
  rw [← List.pairwise_reverse] at hdesc
  simpa [shaped] using hdesc

lemma sorted_right : (rs ++ [top]).Pairwise (Below p) := by
  have hdesc := h.right_descends
  rw [← List.pairwise_reverse] at hdesc
  simpa [shaped] using hdesc

lemma bottom_below {w : ℕ} (hw : w ∈ rs ++ [top]) : Below p bottom w := by
  refine h.bottom bottom (getLast?_left _) w ?_
  simpa [shaped, or_comm] using hw

lemma sweep_shaped : sweep p (shaped top bottom ls rs) = (true, bottom) :: above p ls rs := by
  have hsweep : sweep p (shaped top bottom ls rs) =
      ((true, bottom) :: ls.map (true, ·)).merge (rs.map (false, ·))
        fun v w => atMost p v.2 w.2 := by simp [sweep, shaped]
  rw [hsweep]
  cases rs with
  | nil => simp [above]
  | cons r rs =>
    rw [List.map_cons, List.cons_merge_cons_pos]
    · rfl
    · exact atMost_iff.2 (bottom_below h List.mem_cons_self).asymm

/-- No two vertices above the bottom are one point. -/
lemma above_distinct : ((above p ls rs).map Prod.snd).Pairwise fun v w => p v ≠ p w := by
  rw [above_perm.pairwise_iff fun hne => hne.symm, List.pairwise_append]
  refine ⟨?_, ?_, fun v hv w hw => ?_⟩
  · exact (((sorted_left h).of_cons).sublist (List.sublist_append_left _ _)).imp Below.point_ne
  · exact ((sorted_right h).sublist (List.sublist_append_left _ _)).imp Below.point_ne
  · exact h.distinct v (by simp [shaped, hv]) w (by simp [shaped, hw])

lemma above_sorted : ((above p ls rs).map Prod.snd).Pairwise (Below p) := by
  have hle : (above p ls rs).Pairwise fun v w => atMost p v.2 w.2 = true := by
    refine List.pairwise_merge (fun u v w => atMost_trans u.2 v.2 w.2)
      (fun v w => atMost_total v.2 w.2) _ _ ?_ ?_
    · rw [List.pairwise_map]
      exact (((sorted_left h).of_cons).sublist (List.sublist_append_left _ _)).imp
        fun hb => atMost_iff.2 hb.asymm
    · rw [List.pairwise_map]
      exact ((sorted_right h).sublist (List.sublist_append_left _ _)).imp
        fun hb => atMost_iff.2 hb.asymm
  exact ((List.pairwise_map.2 hle).and (above_distinct h)).imp fun hv => below_of_atMost hv.1 hv.2

lemma ascends_above : Ascends p top [bottom] (above p ls rs) := by
  have hmem {v : ℕ} (hv : v ∈ (above p ls rs).map Prod.snd) : v ∈ ls ∨ v ∈ rs :=
    List.mem_append.1 (above_perm.mem_iff.1 hv)
  have hbottom := List.pairwise_cons.1 (sorted_left h)
  refine ⟨fun s hs v hv => ?_,
    List.pairwise_append.2 ⟨above_sorted h, by simp, fun v hv w hw => ?_⟩⟩
  · obtain rfl := List.mem_singleton.1 hs
    rcases List.mem_append.1 hv with hv | hv
    · rcases hmem hv with hv | hv
      · exact hbottom.1 v (List.mem_append_left _ hv)
      · exact bottom_below h (List.mem_append_left _ hv)
    · exact hbottom.1 v (List.mem_append_right _ hv)
  · rcases hmem hv with hv | hv
    · exact (List.pairwise_append.1 hbottom.2).2.2 v hv w hw
    · exact (List.pairwise_append.1 (sorted_right h)).2.2 v hv w hw

lemma enclosed_above (o : ℕ) :
    Enclosed p (shaped top bottom ls rs).path top true o [bottom] (above p ls rs) where
  nonempty := List.cons_ne_nil _ _
  ascends := ascends_above h
  inside s hs := by simp [List.mem_singleton.1 hs]
  own := by simp [onChain_above]
  other := by simp [onChain_above, List.suffix_cons]

/-- Without a vertex between the ends of the right chain the first vertex above the bottom sees both
of them. -/
lemma tiles_area_pos_alone (hrs : rs = []) :
    ∃ t ∈ tiles p top true top [bottom] (above p ls rs), 0 < t.signed p := by
  subst hrs
  have hsize := h.size_ge
  rw [size_shaped] at hsize
  obtain ⟨v, ls, rfl⟩ := List.exists_cons_of_ne_nil (show ls ≠ [] by rintro rfl; simp at hsize)
  have hsorted := sorted_left h
  have hside : 0 < side p true bottom v top := by
    have hfalse : 0 < side p false bottom top v := by
      refine h.toApart false bottom top v ?_ ?_ ?_ ?_
      · simp
      · simp
      · exact (List.pairwise_cons.1 hsorted).1 v (by simp)
      · exact (List.pairwise_cons.1 hsorted.of_cons).1 top (by simp)
    rwa [← Bool.not_true, side_not, ← side_swap, ← side_rotate] at hfalse
  obtain ⟨t, ht, hpos⟩ := push_single hside
  have habove : above p (v :: ls) [] = (true, v) :: above p ls [] := by simp [above]
  rw [habove, tiles, if_pos rfl]
  exact ⟨t, List.mem_append_left _ ht, hpos⟩

end simple
end shape

/-! ### The triangles over the polygon -/

/-- The triangle is over the given vertices. -/
def Tile.Over (vs : List ℕ) (t : Tile) : Prop := t.a ∈ vs ∧ t.b ∈ vs ∧ t.c ∈ vs

section vertices
variable {p : ℕ → Point} {left : Bool} {top o v : ℕ} {stack vs : List ℕ}

lemma ears_over (p : ℕ → Point) (left : Bool) (hv : v ∈ vs) (hs : ∀ s ∈ stack, s ∈ vs) :
    ∀ t ∈ (ears p left v stack).1, t.Over vs := by
  fun_induction ears p left v stack with
  | case1 b a stack hneg ih =>
    have hs' := List.forall_mem_cons.1 hs
    exact List.forall_mem_cons.2 ⟨⟨hv, hs'.1, hs'.2 a List.mem_cons_self⟩, ih hs'.2⟩
  | case2 => simp
  | case3 => simp

lemma push_over (ho : o ∈ vs) (hv : v ∈ vs) (hs : ∀ s ∈ stack, s ∈ vs) :
    ∀ t ∈ (push p left o v stack).1, t.Over vs := by
  have hears := ears_over p left hv hs
  have hsuf := ears_suffix p left v stack
  unfold push
  split
  next cut k hk =>
    rw [hk] at hears hsuf
    split_ifs
    · refine List.forall_mem_append.2 ⟨hears, List.forall_mem_singleton.2 ⟨?_, hv, ho⟩⟩
      exact hs k (hsuf.subset List.mem_cons_self)
    · exact hears
  next cut rest _ hrest =>
    rw [hrest] at hears
    exact hears

lemma fan_over {run : List ℕ} (ho : o ∈ vs) (hv : v ∈ vs) (hs : ∀ s ∈ run, s ∈ vs) :
    ∀ t ∈ fan left o v run, t.Over vs := by
  have hspokes (k : ℕ) (run : List ℕ) (hrun : ∀ s ∈ k :: run, s ∈ vs) :
      ∀ t ∈ spokes left v (k :: run), t.Over vs := by
    induction run generalizing k with
    | nil => simp [spokes]
    | cons b run ih =>
      obtain ⟨hk, hrun⟩ := List.forall_mem_cons.1 hrun
      exact List.forall_mem_cons.2 ⟨⟨hrun b List.mem_cons_self, hv, hk⟩, ih b hrun⟩
  cases run with
  | nil => simp [fan]
  | cons k run =>
    refine List.forall_mem_append.2 ⟨?_, hspokes k run hs⟩
    split_ifs
    · simp
    · exact List.forall_mem_singleton.2 ⟨ho, hv, hs k List.mem_cons_self⟩

lemma tiles_over {above : List (Bool × ℕ)} (htop : top ∈ vs) (ho : o ∈ vs)
    (hs : ∀ s ∈ stack, s ∈ vs) (habove : ∀ v ∈ above, v.2 ∈ vs) :
    ∀ t ∈ tiles p top left o stack above, t.Over vs := by
  fun_induction tiles p top left o stack above with
  | case1 left o stack =>
    obtain ⟨rest, hrest, hsuf, -⟩ := push_stack p left o top stack
    refine List.forall_mem_append.2 ⟨push_over ho htop hs, fan_over ho htop fun s hmem => ?_⟩
    rw [hrest, List.tail_cons, List.mem_reverse] at hmem
    exact hs s (hsuf.subset hmem)
  | case2 o stack left v above ih =>
    obtain ⟨hv, habove⟩ := List.forall_mem_cons.1 habove
    refine List.forall_mem_append.2 ⟨push_over ho hv hs, ih ho (fun s hmem => ?_) habove⟩
    rcases List.mem_cons.1 (push_seen (fun s hs => hs) s hmem) with rfl | hmem
    · exact hv
    · exact hs s hmem
  | case3 left o stack chain v above hne ih =>
    obtain ⟨hv, habove⟩ := List.forall_mem_cons.1 habove
    refine List.forall_mem_append.2 ⟨fan_over ho hv fun s hmem => hs s (List.mem_reverse.1 hmem),
      ih ?_ (by simpa using hv) habove⟩
    exact (List.forall_mem_cons.2 ⟨ho, hs⟩) _ (headD_mem o stack)

end vertices

/-! ### The tiling -/

section tiling
variable {p : ℕ → Point} {top bottom o : ℕ} {ls rs : List ℕ}

lemma abs_signed (t : Tile) : |t.signed p| = |area p t.a t.b t.c| := by
  rw [Tile.signed, side]
  split_ifs
  · rfl
  · exact abs_neg _

/-- From the empty stack the loops run the funnel over all vertices above the bottom. -/
lemma triangulate_shaped (h : (shaped top bottom ls rs).Simple p)
    (ho : (rs ++ [top]).head? = some o) {fuel : ℕ} (hf : ls.length + rs.length + 4 ≤ fuel) :
    triangulateMonotone p fuel (shaped top bottom ls rs) =
      .ok ((tiles p top true o [bottom] (above p ls rs)).map Tile.triangle) := by
  obtain ⟨fuel, rfl⟩ : ∃ n, fuel = n + 1 := ⟨fuel - 1, by omega⟩
  obtain ⟨others, hothers⟩ := List.head?_eq_some_iff.1 ho
  have hstart : triangulateMonotone p (fuel + 1) (shaped top bottom ls rs) =
      goOn p (fuel + 1) fuel (fuel + 1)
        ⟨bottom :: (ls ++ [top]), 0, o :: others, 0, true, false, []⟩ := by
    rw [triangulateMonotone, outerLoop, if_pos (.inl (by simp [shaped])), goOn, ← hothers]
    simp [shaped]
  have hgoes : goesOn p
      ⟨bottom :: (ls ++ [top]), 0, o :: others, 0, true, false, []⟩ = true := by
    have hbelow := bottom_below h (w := o) (hothers ▸ List.mem_cons_self)
    simpa [goesOn, atMost_iff] using hbelow.asymm
  have hstep : step p ⟨bottom :: (ls ++ [top]), 0, o :: others, 0, true, false, []⟩ =
      .ok (sweeping top true [] [bottom] (above p ls rs) []) := by
    simp [step, sweeping, onChain_above, hothers]
  have hawaited : Awaited top true o (above p ls rs) := by
    rwa [Awaited, Bool.not_true, onChain_above.2]
  rw [hstart, goOn_step hgoes hstep, goOn_eq (List.cons_ne_nil _ _) (ascends_above h)
    (.inr ⟨rfl, hawaited⟩) (by rw [length_above]; omega) (by rw [length_above]; omega)
    (by rw [length_above]; omega), List.nil_append]

lemma signedArea_shaped (ho : (rs ++ [top]).head? = some o) :
    signedArea p (tiles p top true o [bottom] (above p ls rs)) =
      -Walk.total (cross p) (shaped top bottom ls rs).boundary := by
  obtain ⟨others, hothers⟩ := List.head?_eq_some_iff.1 ho
  have hboundary : (shaped top bottom ls rs).boundary =
      (bottom :: ls ++ [top]).reverse ++ o :: others := by
    simp [boundary, shaped, ← hothers]
  have hleft := Walk.total_reverse (cross_swap (p := p)) (o :: bottom :: ls ++ [top])
  have hself : cross p o o = 0 := by
    have hswap := cross_swap (p := p) o o
    linarith
  rw [tiles_area _ _ (List.cons_ne_nil _ _), Bool.not_true, onChain_above.1, onChain_above.2,
    hboundary, Walk.total_append]
  simp only [along, if_true, List.reverse_cons, List.reverse_nil, List.nil_append,
    List.cons_append, List.append_assoc, List.reverse_append, Walk.total_cons_cons, hothers]
    at hleft ⊢
  linarith

/-- As many triangles as a triangulation has are over the polygon's vertices in any case. -/
lemma tiles_iff_fills (h : (shaped top bottom ls rs).Simple p) (ho : (rs ++ [top]).head? = some o) :
    Tiles p (shaped top bottom ls rs)
        ((tiles p top true o [bottom] (above p ls rs)).map Tile.triangle) ↔
      ((tiles p top true o [bottom] (above p ls rs)).map fun t => |t.signed p|).sum =
        |Walk.total (cross p) (shaped top bottom ls rs).boundary| := by
  set ts := tiles p top true o [bottom] (above p ls rs) with hts
  have hawaited : Awaited top true o (above p ls rs) := by
    rwa [Awaited, Bool.not_true, onChain_above.2]
  have hsum : ((ts.map Tile.triangle).map fun t => |area p t.1 t.2.1 t.2.2|).sum =
      (ts.map fun t => |t.signed p|).sum := by
    rw [List.map_map]
    exact congrArg List.sum (List.map_congr_left fun t _ => (abs_signed t).symm)
  refine ⟨fun htiles => hsum ▸ htiles.fills, fun hfills => ⟨?_, ?_, hsum.trans hfills⟩⟩
  · have hlen := tiles_length_first (ascends_above h) (List.cons_ne_nil _ _) hawaited
    rw [length_above, List.length_singleton, ← hts] at hlen
    rw [List.length_map, size_shaped]
    omega
  · have hover : ∀ t ∈ ts, t.Over (shaped top bottom ls rs).boundary := by
      refine tiles_over (by simp [boundary, shaped]) ?_ (by simp [boundary, shaped]) fun v hv => ?_
      · have hmem : o ∈ rs ++ [top] := List.mem_of_mem_head? ho
        rcases List.mem_append.1 hmem with hmem | hmem
        · simp [boundary, shaped, hmem]
        · simp [boundary, shaped, List.mem_singleton.1 hmem]
      · have hmem : v.2 ∈ ls ++ rs := above_perm.mem_iff.1 (List.mem_map_of_mem hv)
        rcases List.mem_append.1 hmem with hmem | hmem <;> simp [boundary, shaped, hmem]
    exact List.forall_mem_map.2 hover

/-- The triangles tile the polygon exactly when its runs are tame. -/
theorem triangulate_tiles_iff {poly : MonotonePolygon} (h : poly.Simple p) {fuel : ℕ}
    (hf : poly.size + 2 ≤ fuel) : ∃ triangles, triangulateMonotone p fuel poly = .ok triangles ∧
      (Tiles p poly triangles ↔ Tame p poly) := by
  obtain ⟨top, bottom, ls, rs, rfl⟩ := exists_shaped h
  obtain ⟨o, others, hothers⟩ := List.exists_cons_of_ne_nil (show rs ++ [top] ≠ [] by simp)
  have ho : (rs ++ [top]).head? = some o := by rw [hothers, List.head?_cons]
  have hawaited : Awaited top true o (above p ls rs) := by
    rwa [Awaited, Bool.not_true, onChain_above.2]
  have hlast : (shaped top bottom ls rs).right.getLast? = some o := by
    rw [← List.head?_reverse]
    simpa [shaped] using ho
  rw [size_shaped] at hf
  have henclosed := enclosed_above h o
  -- the runs are those of the funnel
  have htame : Tame p (shaped top bottom ls rs) ↔
      RunsTame p top true o [bottom] (above p ls rs) := by
    refine ⟨fun ht => ht top o bottom _ rfl hlast (sweep_shaped h),
      fun hruns top' o' bottom' above' htop ho' hsweep => ?_⟩
    obtain rfl : top = top' := Option.some_inj.1 htop
    obtain rfl : o = o' := Option.some_inj.1 (hlast.symm.trans ho')
    obtain ⟨hbottom, rfl⟩ := List.cons.inj ((sweep_shaped h).symm.trans hsweep)
    obtain rfl : bottom = bottom' := (Prod.mk.inj hbottom).2
    exact hruns
  have hinside := tiles_inside h.toApart henclosed (.inl hawaited) (List.cons_ne_nil bottom []) rfl
    trivial
  have hpos : ∃ t ∈ tiles p top true o [bottom] (above p ls rs), 0 < t.signed p := by
    by_cases hrs : rs = []
    · obtain rfl : top = o := by simpa [hrs] using ho
      exact tiles_area_pos_alone h hrs
    · exact tiles_area_pos_first h.toApart henclosed (by rwa [Bool.not_true, onChain_above.2])
  have hareas := areas_eq_iff hpos
  rw [signedArea_shaped ho, abs_neg] at hareas
  refine ⟨_, triangulate_shaped h ho (by omega), ?_⟩
  rw [tiles_iff_fills h ho, hareas, hinside, htame]

end tiling

/-- A polygon whose chains each turn back once. -/
def zigzagPoint (i : ℕ) : Point :=
  [⟨2, 4⟩, ⟨1, 2⟩, ⟨1, 1⟩, ⟨0, 1⟩, ⟨2, 0⟩, ⟨-2, 0⟩].getD i ⟨0, 0⟩

def zigzag : MonotonePolygon := ⟨[0, 2, 4, 5], [0, 1, 3]⟩

lemma zigzag_simple : zigzag.Simple zigzagPoint where
  size_ge := by decide
  top := ⟨0, rfl, rfl⟩
  left_descends := by decide
  right_descends := by decide
  bottom := by decide
  distinct := by decide
  apart := by decide +kernel

lemma zigzag_tame : Tame zigzagPoint zigzag := by
  intro top o bottom above htop ho hsweep
  have hs : sweep zigzagPoint zigzag =
      [(true, 5), (true, 4), (false, 3), (true, 2), (false, 1)] := by
    norm_num [sweep, zigzag, List.cons_merge_cons, atMost, zigzagPoint]
  obtain ⟨hbottom, rfl⟩ := List.cons.inj (hs.symm.trans hsweep)
  obtain rfl : 5 = bottom := (Prod.mk.inj hbottom).2
  obtain rfl : 0 = top := Option.some_inj.1 htop
  obtain rfl : 3 = o := Option.some_inj.1 ho
  decide +kernel

theorem triangulate_tiles_iff_zigzag :
    ∃ triangles, triangulateMonotone zigzagPoint 8 zigzag = .ok triangles ∧
      Tiles zigzagPoint zigzag triangles := by
  obtain ⟨triangles, hrun, htiles⟩ :=
    triangulate_tiles_iff zigzag_simple (le_refl (zigzag.size + 2))
  exact ⟨triangles, hrun, htiles.2 zigzag_tame⟩

/-- Points of a dart: the left chain turns back below the top. -/
def dartPoint (i : ℕ) : Point := [⟨0, 2⟩, ⟨0, 1⟩, ⟨1, 0⟩, ⟨-1, 0⟩].getD i ⟨0, 0⟩

def dart : MonotonePolygon := ⟨[0, 1, 2, 3], [0]⟩

/-- The ear test has the sign of the other chain: the vertex that turns back is cut off as an ear,
outside the polygon. -/
theorem dart_covered_twice :
    dart.Simple dartPoint ∧
      triangulateMonotone dartPoint 6 dart = .ok [(3, 2, 0), (0, 1, 2)] ∧
        ¬ Tiles dartPoint dart [(3, 2, 0), (0, 1, 2)] := by
  refine ⟨⟨by decide, ⟨0, rfl, rfl⟩, by decide, by decide, by decide, by decide,
    by decide +kernel⟩, by decide +kernel, fun h => ?_⟩
  have hfills := h.fills
  revert hfills
  decide +kernel

end CoreCommon.Triangulate
