import CoreCommon.Triangulate

/-! Triangulation by a funnel, on the vertices in the order of the sweep: a stack of the vertices on
one chain that still lack triangles, and the last vertex of the other chain. -/
namespace CoreCommon.Triangulate
open Walk

/-- A triangle with the chain on whose inside it should lie, seen from the edge `a b`. -/
structure Tile where
  left : Bool
  a : ℕ
  b : ℕ
  c : ℕ

/-- The vertices of the chain. -/
def onChain (left : Bool) (above : List (Bool × ℕ)) : List ℕ :=
  (above.filter fun v => v.1 = left).map Prod.snd

def Tile.triangle (t : Tile) : ℕ × ℕ × ℕ := (t.a, t.b, t.c)

section funnel
variable (p : ℕ → Point)

def Tile.signed (t : Tile) : ℚ := side p t.left t.a t.b t.c

/-- The triangles that a vertex cuts from the stack, and what is left of it. -/
def ears (left : Bool) (v : ℕ) : List ℕ → List Tile × List ℕ
  | b :: a :: stack =>
    if side p left a b v < 0 then
      (⟨!left, v, b, a⟩ :: (ears left v (a :: stack)).1, (ears left v (a :: stack)).2)
    else ([], b :: a :: stack)
  | stack => ([], stack)

def push (left : Bool) (o v : ℕ) (stack : List ℕ) : List Tile × List ℕ :=
  match ears p left v stack with
  | (cut, [k]) => if 0 < side p left k v o then (cut ++ [⟨left, k, v, o⟩], [v]) else (cut, [v, k])
  | (cut, rest) => (cut, v :: rest)

/-- The triangles of a vertex with the edges of a run. -/
def spokes (left : Bool) (v : ℕ) : List ℕ → List Tile
  | a :: b :: run => ⟨left, b, v, a⟩ :: spokes left v (b :: run)
  | _ => []

/-- Those of a vertex opposite to the run, also with the edge that leads to it. -/
def fan (left : Bool) (o v : ℕ) : List ℕ → List Tile
  | [] => []
  | k :: run => (if o = v then [] else [⟨!left, o, v, k⟩]) ++ spokes left v (k :: run)

def tiles (top : ℕ) (left : Bool) (o : ℕ) (stack : List ℕ) : List (Bool × ℕ) → List Tile
  | [] =>
    (push p left o top stack).1 ++ fan left o top (push p left o top stack).2.tail.reverse
  | (chain, v) :: above =>
    if chain = left then
      (push p left o v stack).1 ++ tiles top left o (push p left o v stack).2 above
    else fan left o v stack.reverse ++ tiles top chain (stack.headD o) [v] above

/-- What has been seen is below what is to come, and that ascends to the top. -/
structure Ascends (top : ℕ) (seen : List ℕ) (above : List (Bool × ℕ)) : Prop where
  seen : ∀ s ∈ seen, ∀ v ∈ above.map Prod.snd ++ [top], Below p s v
  above : (above.map Prod.snd ++ [top]).Pairwise (Below p)

end funnel

section order
variable {p : ℕ → Point} {top v w : ℕ} {seen : List ℕ} {above : List (Bool × ℕ)} {chain : Bool}

lemma Below.irrefl (v : ℕ) : ¬ Below p v v := by simp [Below]

lemma Below.ne (h : Below p v w) : v ≠ w := fun heq => irrefl w (heq ▸ h)

lemma Below.asymm (h : Below p v w) : ¬ Below p w v := by
  rintro (hlt | ⟨heq, hlt⟩) <;> rcases h with hlt' | ⟨heq', hlt'⟩ <;> linarith

lemma Below.trans {u : ℕ} (h : Below p u v) (h' : Below p v w) : Below p u w := by
  rcases h with hlt | ⟨heq, hlt⟩ <;> rcases h' with hlt' | ⟨heq', hlt'⟩
  · exact .inl (hlt.trans hlt')
  · exact .inl (heq' ▸ hlt)
  · exact .inl (heq ▸ hlt')
  · exact .inr ⟨heq.trans heq', hlt.trans hlt'⟩

lemma atMost_iff : atMost p v w = true ↔ ¬ Below p w v := by
  simp only [atMost, Below, decide_eq_true_eq]
  constructor
  · rintro (hlt | ⟨heq, hle⟩) (hlt' | ⟨heq', hlt'⟩) <;> linarith
  · intro h
    rcases lt_trichotomy (p v).y (p w).y with hlt | heq | hlt
    · exact .inl hlt
    · exact .inr ⟨heq, not_lt.1 fun hlt => h (.inr ⟨heq.symm, hlt⟩)⟩
    · exact absurd (.inl hlt) h

lemma Ascends.of_seen (h : Ascends p top seen above) {seen' : List ℕ}
    (hs : ∀ s ∈ seen', s ∈ seen) : Ascends p top seen' above :=
  ⟨fun s hmem => h.seen s (hs s hmem), h.above⟩

lemma Ascends.next (h : Ascends p top seen ((chain, v) :: above)) :
    Ascends p top (v :: seen) above := by
  obtain ⟨hv, habove⟩ := List.pairwise_cons.1 h.above
  refine ⟨fun s hs w hw => ?_, habove⟩
  rcases List.mem_cons.1 hs with rfl | hs
  · exact hv w hw
  · exact h.seen s hs w (List.mem_cons_of_mem _ hw)

lemma Ascends.below_head (h : Ascends p top seen ((chain, v) :: above)) {s : ℕ} (hs : s ∈ seen) :
    Below p s v := h.seen s hs v List.mem_cons_self

lemma Ascends.below_top (h : Ascends p top seen above) {s : ℕ} (hs : s ∈ seen) : Below p s top :=
  h.seen s hs top (List.mem_append_right _ (List.mem_singleton_self _))

@[simp] lemma onChain_nil (left : Bool) : onChain left [] = [] := rfl

@[simp] lemma onChain_same (left : Bool) (v : ℕ) (above : List (Bool × ℕ)) :
    onChain left ((left, v) :: above) = v :: onChain left above := by simp [onChain]

lemma onChain_other {left chain : Bool} (hne : chain ≠ left) (v : ℕ) (above : List (Bool × ℕ)) :
    onChain left ((chain, v) :: above) = onChain left above := by simp [onChain, hne]

end order

/-! ### The stack -/

section stack
variable {p : ℕ → Point} {left : Bool} {o v : ℕ}

lemma ears_suffix (p : ℕ → Point) (left : Bool) (v : ℕ) (stack : List ℕ) :
    (ears p left v stack).2 <:+ stack := by
  fun_induction ears p left v stack with
  | case1 b a stack hneg ih => exact ih.trans (List.suffix_cons b (a :: stack))
  | case2 => exact List.suffix_refl _
  | case3 => exact List.suffix_refl _

lemma ears_ne_nil (p : ℕ → Point) (left : Bool) (v : ℕ) {stack : List ℕ} (hs : stack ≠ []) :
    (ears p left v stack).2 ≠ [] := by
  fun_induction ears p left v stack with
  | case1 b a stack hneg ih => exact ih (List.cons_ne_nil _ _)
  | case2 => exact List.cons_ne_nil _ _
  | case3 => exact hs

lemma ears_length (p : ℕ → Point) (left : Bool) (v : ℕ) (stack : List ℕ) :
    (ears p left v stack).1.length + (ears p left v stack).2.length = stack.length := by
  fun_induction ears p left v stack with
  | case1 b a stack hneg ih => simp only [List.length_cons] at ih ⊢; omega
  | case2 => simp
  | case3 => simp

/-- The pushed vertex is on the stack, over some of what was there. -/
lemma push_stack (p : ℕ → Point) (left : Bool) (o v : ℕ) (stack : List ℕ) :
    ∃ rest, (push p left o v stack).2 = v :: rest ∧ rest <:+ stack ∧
      (push p left o v stack).1.length + rest.length = stack.length := by
  have hlen := ears_length p left v stack
  have hsuf := ears_suffix p left v stack
  unfold push
  split
  next cut k hk =>
    rw [hk] at hlen hsuf
    split_ifs
    · exact ⟨[], rfl, List.nil_suffix, by simpa using hlen⟩
    · exact ⟨[k], rfl, hsuf, hlen⟩
  next cut rest _ hrest =>
    rw [hrest] at hlen hsuf
    exact ⟨rest, rfl, hsuf, hlen⟩

lemma spokes_length (v : ℕ) (run : List ℕ) : (spokes left v run).length = run.length - 1 := by
  fun_induction spokes left v run with
  | case1 a b run ih => simp [ih]
  | case2 run h =>
    rcases run with _ | ⟨a, _ | ⟨b, run⟩⟩
    · rfl
    · rfl
    · exact absurd rfl (h a b run)

lemma fan_length (hne : o ≠ v) (run : List ℕ) : (fan left o v run).length = run.length := by
  cases run with
  | nil => rfl
  | cons k run => simp [fan, hne, spokes_length]

lemma fan_self_length (v : ℕ) (run : List ℕ) : (fan left v v run).length = run.length - 1 := by
  cases run with
  | nil => rfl
  | cons k run => simp [fan, spokes_length]

/-- A vertex opposite to itself cuts nothing but ears. -/
lemma side_self (left : Bool) (a b : ℕ) : side p left a b b = 0 := by
  simp only [side, area, Point.determinant]
  split_ifs <;> ring

lemma push_self (p : ℕ → Point) (left : Bool) (v : ℕ) {stack : List ℕ} (hs : stack ≠ []) :
    ∃ rest, (push p left v v stack).2 = v :: rest ∧ rest ≠ [] := by
  have hne := ears_ne_nil p left v hs
  unfold push
  split
  next cut k hk =>
    rw [if_neg (by rw [side_self]; exact lt_irrefl 0)]
    exact ⟨[k], rfl, List.cons_ne_nil _ _⟩
  next cut rest _ hrest => exact ⟨rest, rfl, by simpa [hrest] using hne⟩

end stack

/-! ### How many triangles -/

section count
variable {p : ℕ → Point} {top o : ℕ} {left : Bool} {stack : List ℕ} {above : List (Bool × ℕ)}

lemma push_seen {v : ℕ} {seen : List ℕ} (hs : ∀ s ∈ stack, s ∈ seen) :
    ∀ s ∈ (push p left o v stack).2, s ∈ v :: seen := by
  obtain ⟨rest, hrest, hsuf, -⟩ := push_stack p left o v stack
  intro s hmem
  rw [hrest] at hmem
  rcases List.mem_cons.1 hmem with rfl | hmem
  · exact List.mem_cons_self
  · exact List.mem_cons_of_mem _ (hs s (hsuf.subset hmem))

lemma headD_mem (o : ℕ) (stack : List ℕ) : stack.headD o ∈ o :: stack := by cases stack <;> simp

lemma headD_mem_of_ne_nil (o : ℕ) (hs : stack ≠ []) : stack.headD o ∈ stack := by
  cases stack with
  | nil => exact absurd rfl hs
  | cons => exact List.mem_cons_self

/-- The last vertex of a run is opposite to the vertex after it. -/
lemma Ascends.switch {chain : Bool} {v s : ℕ} {seen : List ℕ}
    (h : Ascends p top seen ((chain, v) :: above)) (hs : s ∈ seen) : Ascends p top [s, v] above :=
  h.next.of_seen fun u hu => by
    rcases List.mem_pair.1 hu with rfl | rfl
    · exact List.mem_cons_of_mem _ hs
    · exact List.mem_cons_self

/-- A vertex opposite to the stack and seen before it. -/
lemma tiles_length (left : Bool) (h : Ascends p top (o :: stack) above) :
    (tiles p top left o stack above).length = stack.length + above.length := by
  fun_induction tiles p top left o stack above with
  | case1 left o stack =>
    obtain ⟨rest, hrest, -, hlen⟩ := push_stack p left o top stack
    simp only [hrest, List.tail_cons, List.length_append, List.length_nil,
      fan_length (h.below_top List.mem_cons_self).ne, List.length_reverse]
    omega
  | case2 o stack left v above ih =>
    obtain ⟨rest, hrest, -, hlen⟩ := push_stack p left o v stack
    have hseen : Ascends p top (o :: (push p left o v stack).2) above := by
      refine h.next.of_seen fun s hs => ?_
      rcases List.mem_cons.1 hs with rfl | hs
      · exact List.mem_cons_of_mem _ List.mem_cons_self
      · exact push_seen (fun s hs => List.mem_cons_of_mem _ hs) s hs
    have htiles := ih hseen
    simp only [hrest, List.length_cons, List.length_append] at htiles ⊢
    omega
  | case3 left o stack chain v above hne ih =>
    have htiles := ih (h.switch (headD_mem o stack))
    simp only [List.length_append, fan_length (h.below_head List.mem_cons_self).ne, htiles,
      List.length_reverse, List.length_cons, List.length_nil]
    omega

/-- The lowest vertex of the other chain opposite to the stack, before it is reached. -/
lemma tiles_length_first (h : Ascends p top stack above) (hs : stack ≠ [])
    (ho : (onChain (!left) above ++ [top]).head? = some o) :
    (tiles p top left o stack above).length + 1 = stack.length + above.length := by
  fun_induction tiles p top left o stack above with
  | case1 left o stack =>
    obtain rfl : top = o := by simpa using ho
    obtain ⟨rest, hrest, -, hlen⟩ := push_stack p left top top stack
    obtain ⟨rest', hrest', hne⟩ := push_self p left top hs
    obtain rfl : rest = rest' := by simpa [hrest] using hrest'
    have hpos := List.length_pos_iff.2 hne
    simp only [hrest, List.tail_cons, List.length_append, List.length_nil, fan_self_length,
      List.length_reverse]
    omega
  | case2 o stack left v above ih =>
    obtain ⟨rest, hrest, -, hlen⟩ := push_stack p left o v stack
    have htiles := ih (h.next.of_seen (push_seen fun s hs => hs))
      (by rw [hrest]; exact List.cons_ne_nil _ _)
      (by rwa [onChain_other (by simp)] at ho)
    simp only [hrest, List.length_cons, List.length_append] at htiles ⊢
    omega
  | case3 left o stack chain v above hne ih =>
    obtain rfl : chain = !left := by cases chain <;> cases left <;> simp_all
    obtain rfl : v = o := by simpa using ho
    have htiles := tiles_length (!left) (h.switch (headD_mem_of_ne_nil v hs))
    have hpos := List.length_pos_iff.2 hs
    simp only [List.length_append, fan_self_length, htiles, List.length_reverse, List.length_cons,
      List.length_nil]
    omega

end count

/-! ### The area of the triangles -/

section area
variable {p : ℕ → Point} {left : Bool}

lemma cross_swap (a b : ℕ) : cross p b a = -cross p a b := by
  simp only [cross, Point.determinant]
  ring

lemma area_eq_around (a b c : ℕ) : area p a b c = around (cross p) a b c := by
  simp only [area, around, cross, Point.determinant, Point.sub_x, Point.sub_y]
  ring

lemma side_not (a b c : ℕ) : side p (!left) a b c = -side p left a b c := by
  cases left <;> simp [side]

lemma side_rotate (a b c : ℕ) : side p left b c a = side p left a b c := by
  simp only [side, area_eq_around, around_rotate]

lemma side_swap (a b c : ℕ) : side p left b a c = -side p left a b c := by
  simp only [side, area_eq_around, around_swap cross_swap a b c]
  split_ifs <;> rfl

/-- The weight of a walk along the given chain. -/
def along (p : ℕ → Point) (left : Bool) (walk : List ℕ) : ℚ :=
  if left then total (cross p) walk else -total (cross p) walk

lemma along_not (walk : List ℕ) : along p (!left) walk = -along p left walk := by
  cases left <;> simp [along]

lemma along_append (p : ℕ → Point) (left : Bool) (l : List ℕ) (a : ℕ) (l' : List ℕ) :
    along p left (l ++ a :: l') = along p left (l ++ [a]) + along p left (a :: l') := by
  simp only [along, total_append l a l']
  split_ifs <;> ring

lemma along_cons_cons (p : ℕ → Point) (left : Bool) (a b : ℕ) (l : List ℕ) :
    along p left (a :: b :: l) = along p left [a, b] + along p left (b :: l) :=
  along_append p left [a] b l

@[simp] lemma along_singleton (a : ℕ) : along p left [a] = 0 := by simp [along]

lemma along_swap (p : ℕ → Point) (left : Bool) (a b : ℕ) :
    along p left [b, a] = -along p left [a, b] := by
  simp only [along, total_cons_cons, total_singleton, add_zero, cross_swap a b]
  split_ifs <;> rfl

lemma along_self (a : ℕ) : along p left [a, a] = 0 := by
  have hswap := along_swap p left a a
  linarith

lemma side_eq_along (a b c : ℕ) :
    side p left a b c = along p left [a, b] + along p left [b, c] - along p left [a, c] := by
  simp only [side, along, area_eq_around, around, total_cons_cons, total_singleton, add_zero,
    cross_swap a c]
  split_ifs <;> ring

/-- The area of triangles, each counted as it lies. -/
def signedArea (p : ℕ → Point) (tiles : List Tile) : ℚ := (tiles.map (Tile.signed p)).sum

@[simp] lemma signedArea_nil : signedArea p [] = 0 := rfl

@[simp] lemma signedArea_cons (t : Tile) (ts : List Tile) :
    signedArea p (t :: ts) = t.signed p + signedArea p ts := rfl

@[simp] lemma signedArea_append (ts us : List Tile) :
    signedArea p (ts ++ us) = signedArea p ts + signedArea p us := by
  simp [signedArea]

/-- Ears are what lies between the run and what is left of it. -/
lemma ears_area (p : ℕ → Point) (left : Bool) (o v : ℕ) (stack : List ℕ) :
    signedArea p (ears p left v stack).1 =
      along p left (o :: stack.reverse ++ [v]) -
        along p left (o :: (ears p left v stack).2.reverse ++ [v]) := by
  fun_induction ears p left v stack with
  | case1 b a stack hneg ih =>
    have hwalk (l : List ℕ) : along p left (o :: stack.reverse ++ a :: l) =
        along p left (o :: stack.reverse ++ [a]) + along p left (a :: l) :=
      along_append p left (o :: stack.reverse) a l
    simp only [List.cons_append, List.reverse_cons, List.append_assoc, List.nil_append]
      at hwalk ih ⊢
    rw [signedArea_cons, ih, hwalk [v], hwalk [b, v], along_cons_cons p left a b, Tile.signed,
      side_not, side_swap, side_rotate, side_eq_along]
    ring
  | case2 => simp
  | case3 => simp

lemma push_area (o v : ℕ) (stack : List ℕ) :
    signedArea p (push p left o v stack).1 =
      along p left (o :: stack.reverse ++ [v]) -
        along p left (o :: (push p left o v stack).2.reverse) := by
  have hears := ears_area p left o v stack
  unfold push
  split
  next cut k hk =>
    rw [hk] at hears
    split_ifs
    · rw [signedArea_append, hears, signedArea_cons, signedArea_nil, Tile.signed, side_eq_along,
        along_swap p left o v, along_swap p left o k]
      simp only [List.reverse_singleton, List.cons_append, List.nil_append]
      rw [along_cons_cons p left o k [v]]
      ring
    · exact hears
  next cut rest _ hrest =>
    rw [hrest] at hears
    rw [hears, List.reverse_cons]
    rfl

/-- The triangles of a vertex fill what is between it, the run and the vertex before the run. -/
lemma spokes_area (v k : ℕ) (run : List ℕ) :
    signedArea p (spokes left v (k :: run)) =
      along p left (k :: run ++ [v]) - along p left [k, v] := by
  induction run generalizing k with
  | nil => simp [spokes]
  | cons b run ih =>
    simp only [spokes, signedArea_cons, ih, Tile.signed, List.cons_append]
    rw [along_cons_cons p left k b (run ++ [v]), side_rotate, side_eq_along]
    ring

lemma fan_area (o v : ℕ) (run : List ℕ) :
    signedArea p (fan left o v run) = along p left (o :: run ++ [v]) - along p left [o, v] := by
  cases run with
  | nil => simp [fan]
  | cons k run =>
    have hlink : signedArea p (if o = v then [] else [⟨!left, o, v, k⟩]) =
        along p left [o, k] + along p left [k, v] - along p left [o, v] := by
      have hside : side p (!left) o v k = side p left o k v := by
        rw [side_not, ← side_swap, ← side_rotate]
      split_ifs with heq
      · subst heq
        rw [along_swap p left o k, along_self]
        simp
      · simp [Tile.signed, hside, side_eq_along]
    simp only [fan, signedArea_append, hlink, spokes_area, List.cons_append]
    rw [along_cons_cons p left o k (run ++ [v])]
    ring

/-- The triangles fill what is between the chains, the stack for a part of its chain. -/
lemma tiles_area (top : ℕ) (o : ℕ) {stack : List ℕ} (hs : stack ≠ [])
    (above : List (Bool × ℕ)) :
    signedArea p (tiles p top left o stack above) =
      along p left (o :: stack.reverse ++ onChain left above ++ [top]) -
        along p left (o :: onChain (!left) above ++ [top]) := by
  fun_induction tiles p top left o stack above with
  | case1 left o stack =>
    obtain ⟨rest, hrest, -, -⟩ := push_stack p left o top stack
    simp only [signedArea_append, push_area, fan_area, hrest, List.reverse_cons, List.tail_cons,
      onChain_nil, List.append_nil, List.cons_append, List.nil_append]
    ring
  | case2 o stack left v above ih =>
    obtain ⟨rest, hrest, -, -⟩ := push_stack p left o v stack
    have htiles := ih (by rw [hrest]; exact List.cons_ne_nil _ _)
    have hrun := along_append p left (o :: stack.reverse) v
      (onChain left above ++ [top])
    have hkept := along_append p left (o :: rest.reverse) v
      (onChain left above ++ [top])
    rw [onChain_same, onChain_other (by simp)]
    simp only [hrest, List.reverse_cons, List.cons_append, List.append_assoc, List.nil_append]
      at htiles hrun hkept ⊢
    simp only [signedArea_append, push_area, htiles, hrest, List.reverse_cons, List.cons_append]
    linarith
  | case3 left o stack chain v above hne ih =>
    obtain rfl : chain = !left := by cases chain <;> cases left <;> simp_all
    obtain ⟨last, stack, rfl⟩ := List.exists_cons_of_ne_nil hs
    have htiles := ih (List.cons_ne_nil _ _)
    have hrun := along_append p left (o :: stack.reverse) last
      (onChain left above ++ [top])
    have hfan := along_append p left (o :: stack.reverse) last [v]
    have hother := along_cons_cons p left o v (onChain (!left) above ++ [top])
    have hnext := along_cons_cons p left last v (onChain (!left) above ++ [top])
    rw [onChain_same, onChain_other hne]
    simp only [List.reverse_cons, List.reverse_nil, List.cons_append, List.append_assoc,
      List.nil_append, Bool.not_not, along_not, List.headD_cons] at htiles hrun hfan hother hnext ⊢
    simp only [signedArea_append, fan_area, htiles, List.cons_append, List.append_assoc,
      List.nil_append]
    linarith

end area
end CoreCommon.Triangulate
