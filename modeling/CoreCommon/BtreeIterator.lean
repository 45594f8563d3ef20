import CoreCommon.BtreeMemory

/-! Iterators over the tree and over the subtree below a node. -/
namespace CoreCommon.Btree
open AvlTree
variable {K V : Type}

structure Iterator where
  begin : Option ℕ
  stop : Option ℕ
  current : Option ℕ
  deriving DecidableEq

namespace Heap

/-- `while (current->left) current = current->left;` for the child on side `d`. -/
def outermost (d : Bool) : ℕ → Heap K V → ℕ → Run ℕ
  | 0, _, _ => .error .diverges
  | fuel + 1, s, a => do
    let n ← s.node a
    match n.child d with
    | some b => s.outermost d fuel b
    | none => .ok a

/-- `while (current->parent!=end && current->parent->right==current) current = current->parent;`
for the child on side `d`. -/
def climb (d : Bool) (stop : Option ℕ) : ℕ → Heap K V → ℕ → Run ℕ
  | 0, _, _ => .error .diverges
  | fuel + 1, s, a => do
    let n ← s.node a
    if n.parent = stop then .ok a
    else do
      let q ← deref n.parent
      let nq ← s.node q
      if nq.child d = some a then s.climb d stop fuel q else .ok a

/-- The node after `a` in the direction of side `d`. -/
def move (d : Bool) (fuel : ℕ) (s : Heap K V) (stop : Option ℕ) (a : ℕ) : Run (Option ℕ) := do
  let n ← s.node a
  match n.child d with
  | some b => do
    let b ← s.outermost (!d) fuel b
    .ok (some b)
  | none => do
    let b ← s.climb d stop fuel a
    let nb ← s.node b
    .ok nb.parent

/-- `operator++` -/
def next (fuel : ℕ) (s : Heap K V) (it : Iterator) : Run Iterator :=
  if it.current = it.stop then .ok it
  else do
    let current ← s.move true fuel it.stop (← deref it.current)
    .ok { it with current }

/-- `operator--` -/
def prev (fuel : ℕ) (s : Heap K V) (it : Iterator) : Run Iterator :=
  if it.current = it.stop then do
    let a ← s.outermost true fuel (← deref it.begin)
    .ok { it with current := some a }
  else do
    let current ← s.move false fuel it.stop (← deref it.current)
    .ok { it with current }

/-- `operator+` -/
def plus (fuel : ℕ) (s : Heap K V) (it : Iterator) : ℕ → Run Iterator
  | 0 => .ok it
  | i + 1 => do
    let it ← s.next fuel it
    s.plus fuel it i

/-- `operator-` -/
def minus (fuel : ℕ) (s : Heap K V) (it : Iterator) : ℕ → Run Iterator
  | 0 => .ok it
  | i + 1 => do
    let it ← s.prev fuel it
    s.minus fuel it i

/-- `Root::begin` -/
def rootBegin (fuel : ℕ) (s : Heap K V) : Run Iterator :=
  match s.ptr with
  | some top => do
    let a ← s.outermost false fuel top
    .ok ⟨s.ptr, none, some a⟩
  | none => .ok ⟨none, none, none⟩

/-- `Root::end` -/
def rootEnd (s : Heap K V) : Iterator := ⟨s.ptr, none, none⟩

/-- `Root::iter_ref` -/
def rootIterRef (s : Heap K V) (ref : Option ℕ) : Iterator := ⟨s.ptr, none, ref⟩

/-- `Node::begin` -/
def nodeBegin (fuel : ℕ) (s : Heap K V) (a : ℕ) : Run Iterator := do
  let n ← s.node a
  let b ← s.outermost false fuel a
  .ok ⟨some a, n.parent, some b⟩

/-- `Node::end` -/
def nodeEnd (s : Heap K V) (a : ℕ) : Run Iterator := do
  let n ← s.node a
  .ok ⟨some a, n.parent, n.parent⟩

/-- `Node::iter_ref` -/
def nodeIterRef (s : Heap K V) (a : ℕ) (ref : Option ℕ) : Run Iterator := do
  let n ← s.node a
  .ok ⟨some a, n.parent, ref⟩

end Heap

variable {s : Heap K V} {c c' : List (Frame (ℕ × K × V))} {t u : Tree K V} {a : ℕ} {d : Bool}
  {fuel : ℕ} {q : Option ℕ} {b : Bool}

/-! ### Directions -/

/-- The list as it is met in the direction of side `d`. -/
def going {α : Type} (d : Bool) (l : List α) : List α := if d then l else l.reverse

/-- The labels around the hole on side `d`, from the nearest. -/
def ahead (d : Bool) (c : List (Frame (ℕ × K × V))) : List (ℕ × K × V) :=
  if d then after c else (before c).reverse

lemma ahead_cons (f : Frame (ℕ × K × V)) (c : List (Frame (ℕ × K × V))) :
    ahead d (f :: c) = (if f.d = d then [] else f.label :: going d f.sibling.inorder) ++ ahead d c := by
  obtain ⟨side, e, h, t⟩ := f
  cases d <;> cases side <;> simp [ahead, before, after, going]

lemma going_inorder_branch {e : ℕ × K × V} {h : ℤ} :
    going d (branch d e h t u).inorder = going d u.inorder ++ e :: going d t.inorder := by
  cases d <;> simp [branch, inorder, going]

/-- The loop down the left links ends at the first node, that down the right ones at the last. -/
lemma outermost_ok (ht : Owns s t q b) (ha : addr t = some a) (hfuel : t.inorder.length ≤ fuel) :
    ∃ e, s.outermost (!d) fuel a = .ok e.1 ∧ (going d t.inorder).head? = some e := by
  induction t using branch_induction d generalizing a q b fuel with
  | nil => cases ha
  | branch e h t u _ ih =>
    obtain rfl : e.1 = a := Option.some.inj (addr_branch.symm.trans ha)
    have hlen : (branch d e h t u).inorder.length = t.inorder.length + u.inorder.length + 1 := by
      cases d <;> simp [branch, inorder] <;> omega
    obtain ⟨fuel, rfl⟩ : ∃ m, fuel = m + 1 := ⟨fuel - 1, by omega⟩
    obtain ⟨hcell, -, hu⟩ := owns_branch.1 ht
    rw [Heap.outermost, Heap.node_eq hcell, Run.bind_ok, Node.of_child_not, going_inorder_branch]
    cases hau : addr u with
    | none =>
      obtain rfl := addr_eq_none.1 hau
      exact ⟨e, rfl, by cases d <;> rfl⟩
    | some a' =>
      obtain ⟨e', hrun, hhead⟩ := ih hu hau (show _ ≤ fuel by omega)
      exact ⟨e', hrun, by rw [List.head?_append, hhead]; rfl⟩

/-- The parent of a node in a subtree is not the parent of the subtree. -/
lemma Zip.upper_ne {f : Frame (ℕ × K × V)} (hz : Zip s (f :: c' ++ c) t) :
    upper (f :: c' ++ c) ≠ upper c := by
  intro heq
  cases c with
  | nil => cases heq
  | cons g c =>
    have hfg : f.label.1 = g.label.1 := Option.some.inj heq
    have hnd := (List.nodup_append.1 hz.nodup).2.1
    rw [List.cons_append, addrsUp_cons, hfg] at hnd
    refine (List.nodup_cons.1 hnd).1 (List.mem_append_right _ ?_)
    rw [addrsUp_append, addrsUp_cons]
    exact List.mem_append_right _ List.mem_cons_self

/-- The loop up stops below the next node in the direction of side `d`, or at the end. -/
lemma Zip.climb_ok (hz : Zip s (c' ++ c) t) (ha : addr t = some a) (hfuel : c'.length < fuel) :
    ∃ a' n, s.climb d (upper c) fuel a = .ok a' ∧ s.cell a' = some n ∧
      n.parent = ((ahead d c').head?.map Prod.fst).or (upper c) := by
  induction c' generalizing t a fuel with
  | nil =>
    obtain ⟨fuel, rfl⟩ : ∃ m, fuel = m + 1 := ⟨fuel - 1, by omega⟩
    obtain ⟨n, hn, hparent, -⟩ := hz.down.top ha
    refine ⟨a, n, ?_, hn, by rw [hparent]; cases d <;> rfl⟩
    have hstop : n.parent = upper c := hparent
    rw [Heap.climb, Heap.node_eq hn, Run.bind_ok, if_pos hstop]
  | cons f c' ih =>
    rw [List.length_cons] at hfuel
    obtain ⟨fuel, rfl⟩ : ∃ m, fuel = m + 1 := ⟨fuel - 1, by omega⟩
    obtain ⟨n, hn, hparent, -⟩ := hz.down.top ha
    have hstop : n.parent ≠ upper c := by
      rw [hparent]
      exact hz.upper_ne
    have hup : Zip s (c' ++ c) (f.fill t) := zip_fill.1 hz
    have hparent : n.parent = some f.label.1 := hparent
    rw [Heap.climb, Heap.node_eq hn, Run.bind_ok, if_neg hstop, hparent, deref_some, Run.bind_ok, Heap.node_eq hz.up.1, Run.bind_ok, ha, ahead_cons]
    by_cases hd : f.d = d
    · obtain ⟨a', n', hrun, hn', hparent'⟩ := ih hup addr_branch (show _ < fuel by omega)
      refine ⟨a', n', ?_, hn', by rw [if_pos hd, List.nil_append, hparent']⟩
      rw [if_pos (by rw [← hd]; exact Node.of_child), hrun]
    · have hsib := hz.sibling_ne ha
      refine ⟨a, n, ?_, hn, by rw [if_neg hd, hparent]; rfl⟩
      obtain rfl : d = !f.d := Bool.eq_not_of_ne (Ne.symm hd)
      rw [Node.of_child_not, if_neg hsib]

/-! ### One step -/

lemma Zip.move_ok {e : ℕ × K × V} {h : ℤ} (hz : Zip s (c' ++ c) (branch d e h t u))
    (hfuel : (plug c' (branch d e h t u)).inorder.length ≤ fuel) :
    s.move d fuel (upper c) e.1 =
      .ok (((going d t.inorder ++ ahead d c').head?.map Prod.fst).or (upper c)) := by
  have hlen := length_le_plug c' (branch d e h t u)
  have hbranch : (branch d e h t u).inorder.length = t.inorder.length + u.inorder.length + 1 := by
    cases d <;> simp [branch, inorder] <;> omega
  obtain ⟨hcell, ht, -⟩ := owns_branch.1 hz.down
  rw [Heap.move, Heap.node_eq hcell, Run.bind_ok, Node.of_child]
  cases hat : addr t with
  | none =>
    obtain rfl := addr_eq_none.1 hat
    obtain ⟨a', n, hrun, hn, hparent⟩ :=
      hz.climb_ok (d := d) addr_branch (show c'.length < fuel by omega)
    dsimp only
    rw [hrun, Run.bind_ok, Heap.node_eq hn, Run.bind_ok, hparent]
    cases d <;> rfl
  | some a =>
    obtain ⟨e', hrun, hhead⟩ := outermost_ok (d := d) ht hat (show _ ≤ fuel by omega)
    dsimp only
    rw [hrun, Run.bind_ok, List.head?_append, hhead]
    rfl

/-- The iterator of the subtree at index `i`, at its end from the number of nodes on. -/
def position (c : List (Frame (ℕ × K × V))) (t : Tree K V) (i : ℕ) : Iterator :=
  ⟨addr t, upper c, (addrs t)[i]?.or (upper c)⟩

lemma Zip.position_ne {i : ℕ} (hz : Zip s c t) (hi : i < (addrs t).length) :
    (position c t i).current = some (addrs t)[i] ∧ some (addrs t)[i] ≠ upper c := by
  refine ⟨by rw [position, List.getElem?_eq_getElem hi]; rfl, fun heq => ?_⟩
  cases c with
  | nil => cases heq
  | cons f c =>
    have hmem : f.label.1 ∈ addrsUp (f :: c) := by
      rw [addrsUp_cons]
      exact List.mem_cons_self
    exact (List.nodup_append.1 hz.nodup).2.2 _ (List.getElem_mem hi) _ hmem (Option.some.inj heq)

lemma position_stop {i : ℕ} (hi : (addrs t).length ≤ i) :
    position c t i = ⟨addr t, upper c, upper c⟩ := by
  rw [position, List.getElem?_eq_none hi]
  rfl

lemma Zip.move_at {e : ℕ × K × V} {i : ℕ} (hz : Zip s c t) (hfuel : t.inorder.length ≤ fuel)
    (he : t.inorder[i]? = some e) :
    s.move true fuel (upper c) e.1 = .ok ((addrs t)[i + 1]?.or (upper c)) ∧
      ∀ j, j + 1 = i → s.move false fuel (upper c) e.1 = .ok ((addrs t)[j]?.or (upper c)) := by
  obtain ⟨c', h, l, r, rfl, hi⟩ := exists_focus_at he
  have hz' : Zip s (c' ++ c) (.node e h l r) := zip_append.2 hz
  have horder : (plug c' (.node e h l r)).inorder =
      (before c' ++ l.inorder) ++ e :: (r.inorder ++ after c') := by
    rw [inorder_plug, inorder]
    simp
  have hlen : (before c' ++ l.inorder).length = i := by rw [List.length_append, hi]
  constructor
  · rw [Zip.move_ok (d := true) (t := r) (u := l) hz' hfuel, addrs, List.getElem?_map, horder,
      List.getElem?_append_right (by omega), hlen, Nat.add_sub_cancel_left, List.getElem?_cons_succ,
      List.head?_eq_getElem?]
    rfl
  · intro j hj
    have hback : going false l.inorder ++ ahead false c' = (before c' ++ l.inorder).reverse := by
      simp [going, ahead]
    rw [Zip.move_ok (d := false) (t := l) (u := r) hz' hfuel, addrs, List.getElem?_map, horder,
      List.getElem?_append_left (by omega), hback, List.head?_reverse, List.getLast?_eq_getElem?, hlen,
      show i - 1 = j by omega]

lemma Zip.next_position {i : ℕ} (hz : Zip s c t) (hfuel : t.inorder.length ≤ fuel)
    (hi : i < (addrs t).length) : s.next fuel (position c t i) = .ok (position c t (i + 1)) := by
  obtain ⟨hcurrent, hne⟩ := hz.position_ne hi
  have hstop : (position c t i).stop = upper c := rfl
  have hi' : i < t.inorder.length := by rwa [addrs, List.length_map] at hi
  have hmove := (hz.move_at hfuel (List.getElem?_eq_getElem hi')).1
  have haddr : (addrs t)[i] = t.inorder[i].1 := by simp [addrs]
  rw [Heap.next, hcurrent, hstop, if_neg hne, deref_some, Run.bind_ok, haddr, hmove, Run.bind_ok]
  rfl

lemma next_stop {i : ℕ} (hi : (addrs t).length ≤ i) :
    s.next fuel (position c t i) = .ok (position c t i) := by
  rw [position_stop hi]
  exact if_pos rfl

lemma Zip.prev_position {i : ℕ} (hz : Zip s c t) (hfuel : t.inorder.length ≤ fuel)
    (hi : i < (addrs t).length) : s.prev fuel (position c t (i + 1)) = .ok (position c t i) := by
  rcases Nat.lt_or_ge (i + 1) (addrs t).length with hlt | hge
  · obtain ⟨hcurrent, hne⟩ := hz.position_ne hlt
    have hstop : (position c t (i + 1)).stop = upper c := rfl
    have hi' : i + 1 < t.inorder.length := by rwa [addrs, List.length_map] at hlt
    have hmove := (hz.move_at hfuel (List.getElem?_eq_getElem hi')).2 i rfl
    have haddr : (addrs t)[i + 1] = t.inorder[i + 1].1 := by simp [addrs]
    rw [Heap.prev, hcurrent, hstop, if_neg hne, deref_some, Run.bind_ok, haddr, hmove, Run.bind_ok]
    rfl
  · -- from the end to the last node
    cases hat : addr t with
    | none =>
      obtain rfl := addr_eq_none.1 hat
      cases hi
    | some a =>
      obtain ⟨e, hrun, hlast⟩ := outermost_ok (d := false) hz.down hat hfuel
      have he : (addrs t)[i]? = some e.1 := by
        rw [show i = (addrs t).length - 1 by omega, ← List.getLast?_eq_getElem?, addrs,
          List.getLast?_map, ← List.head?_reverse]
        exact congrArg (Option.map Prod.fst) hlast
      rw [position_stop hge, Heap.prev, if_pos rfl, hat, deref_some, Run.bind_ok,
        show true = !false from rfl, hrun, Run.bind_ok, position, he, hat]
      rfl

/-! ### Runs -/

lemma Zip.plus_position (hz : Zip s c t) (hfuel : t.inorder.length ≤ fuel) (i j : ℕ) :
    s.plus fuel (position c t i) j = .ok (position c t (i + j)) := by
  induction j generalizing i with
  | zero => rfl
  | succ j ih =>
    rw [Heap.plus]
    rcases Nat.lt_or_ge i (addrs t).length with hlt | hge
    · rw [hz.next_position hfuel hlt, Run.bind_ok, ih, Nat.add_right_comm, Nat.add_assoc]
    · rw [next_stop hge, Run.bind_ok, ih, position_stop (show _ ≤ i + j by omega),
        position_stop (show _ ≤ i + (j + 1) by omega)]

lemma Zip.minus_position (hz : Zip s c t) (hfuel : t.inorder.length ≤ fuel) (i j : ℕ)
    (hi : i + j ≤ (addrs t).length) :
    s.minus fuel (position c t (i + j)) j = .ok (position c t i) := by
  induction j generalizing i with
  | zero => rfl
  | succ j ih =>
    rw [Heap.minus, ← Nat.add_assoc, hz.prev_position hfuel (show i + j < _ by omega), Run.bind_ok,
      ih i (by omega)]

/-- The iterators from `b` to `e` meet the nodes of the tree in order, in both directions. -/
structure Traverses (fuel : ℕ) (s : Heap K V) (t : Tree K V) (b e : Iterator) : Prop where
  nodup : (addrs t).Nodup
  forward : ∀ i, ∀ hi : i < (addrs t).length,
    ∃ it, s.plus fuel b i = .ok it ∧ it.current = some (addrs t)[i] ∧ it.current ≠ e.current
  stops : ∀ i ≥ (addrs t).length, s.plus fuel b i = .ok e
  backward : ∀ i ≤ (addrs t).length, s.minus fuel e ((addrs t).length - i) = s.plus fuel b i
  prev_next : ∀ i < (addrs t).length, ∀ it, s.plus fuel b i = .ok it →
    (s.next fuel it >>= s.prev fuel) = .ok it
  next_prev : ∀ i ≤ (addrs t).length, 0 < i → ∀ it, s.plus fuel b i = .ok it →
    (s.prev fuel it >>= s.next fuel) = .ok it

lemma Zip.traverses (hz : Zip s c t) (hfuel : t.inorder.length ≤ fuel) :
    Traverses fuel s t (position c t 0) ⟨addr t, upper c, upper c⟩ := by
  have hplus : ∀ i, s.plus fuel (position c t 0) i = .ok (position c t i) := fun i => by
    rw [hz.plus_position hfuel, Nat.zero_add]
  refine ⟨(List.nodup_append.1 hz.nodup).1, fun i hi => ?_, fun i hi => ?_, fun i hi => ?_,
    fun i hi it hit => ?_, fun i hi hpos it hit => ?_⟩
  · obtain ⟨hcurrent, hne⟩ := hz.position_ne hi
    exact ⟨_, hplus i, hcurrent, by rwa [hcurrent]⟩
  · rw [hplus, position_stop hi]
  · have hminus := hz.minus_position hfuel i ((addrs t).length - i) (by omega)
    rwa [show i + ((addrs t).length - i) = (addrs t).length by omega,
      position_stop (Nat.le_refl _), ← hplus i] at hminus
  · obtain rfl := Except.ok.inj ((hplus i).symm.trans hit)
    rw [hz.next_position hfuel hi, Run.bind_ok, hz.prev_position hfuel hi]
  · obtain rfl := Except.ok.inj ((hplus i).symm.trans hit)
    obtain ⟨j, rfl⟩ : ∃ j, i = j + 1 := ⟨i - 1, by omega⟩
    rw [hz.prev_position hfuel hi, Run.bind_ok, hz.next_position hfuel hi]

lemma Zip.begin_ok (hz : Zip s c t) (hfuel : t.inorder.length ≤ fuel) (ha : addr t = some a) :
    ∃ e, s.outermost false fuel a = .ok e ∧ position c t 0 = ⟨some a, upper c, some e⟩ := by
  obtain ⟨e, hrun, hhead⟩ := outermost_ok (d := true) hz.down ha hfuel
  have hfirst : (addrs t)[0]? = some e.1 := by
    rw [← List.head?_eq_getElem?, addrs, List.head?_map]
    exact congrArg (Option.map Prod.fst) hhead
  exact ⟨e.1, hrun, by rw [position, hfirst, ha]; rfl⟩

/-- Iterators over a non-empty tree and over the subtree of any of its nodes go through the nodes
there in order, in both directions. -/
theorem iterators_traverse (hz : Zip s [] t) (hne : t ≠ .nil) (hfuel : t.inorder.length ≤ fuel) :
    (∃ b, s.rootBegin fuel = .ok b ∧ Traverses fuel s t b s.rootEnd ∧
      ∀ i, ∀ hi : i < (addrs t).length, s.plus fuel b i = .ok (s.rootIterRef (some (addrs t)[i]))) ∧
    ∀ c u a, plug c u = t → addr u = some a →
      ∃ b e, s.nodeBegin fuel a = .ok b ∧ s.nodeEnd a = .ok e ∧ Traverses fuel s u b e ∧
        ∀ i, ∀ hi : i < (addrs u).length, s.plus fuel b i = s.nodeIterRef a (some (addrs u)[i]) := by
  constructor
  · cases ha : addr t with
    | none => exact absurd (addr_eq_none.1 ha) hne
    | some a =>
      have hptr : s.ptr = addr t := hz.up
      obtain ⟨e, hrun, hfirst⟩ := hz.begin_ok hfuel ha
      refine ⟨position [] t 0, ?_, ?_, fun i hi => ?_⟩
      · rw [Heap.rootBegin, hptr, ha]
        dsimp only
        rw [hrun, Run.bind_ok, hfirst]
        rfl
      · rw [Heap.rootEnd, hptr]
        exact hz.traverses hfuel
      · rw [hz.plus_position hfuel, Nat.zero_add, Heap.rootIterRef, hptr, position,
          List.getElem?_eq_getElem hi]
        rfl
  · rintro c u a rfl ha
    have hz' : Zip s c u := zip_plug.1 hz
    have hlen := length_le_plug c u
    have hfuel' : u.inorder.length ≤ fuel := by omega
    obtain ⟨n, hn, hparent, -⟩ := hz'.down.top ha
    obtain ⟨e, hrun, hfirst⟩ := hz'.begin_ok hfuel' ha
    refine ⟨position c u 0, ⟨addr u, upper c, upper c⟩, ?_, ?_, hz'.traverses hfuel', fun i hi => ?_⟩
    · rw [Heap.nodeBegin, Heap.node_eq hn, Run.bind_ok, hrun, Run.bind_ok, hfirst, hparent]
    · rw [Heap.nodeEnd, Heap.node_eq hn, Run.bind_ok, hparent, ha]
    · rw [hz'.plus_position hfuel', Nat.zero_add, Heap.nodeIterRef, Heap.node_eq hn, Run.bind_ok,
        hparent, position, List.getElem?_eq_getElem hi, ha]
      rfl

theorem iterators_traverse_example :
    (∃ b, pairHeap.rootBegin 2 = .ok b ∧ Traverses 2 pairHeap pairTree b pairHeap.rootEnd ∧
      ∀ i, ∀ hi : i < (addrs pairTree).length,
        pairHeap.plus 2 b i = .ok (pairHeap.rootIterRef (some (addrs pairTree)[i]))) ∧
    ∀ c u a, plug c u = pairTree → addr u = some a →
      ∃ b e, pairHeap.nodeBegin 2 a = .ok b ∧ pairHeap.nodeEnd a = .ok e ∧
        Traverses 2 pairHeap u b e ∧ ∀ i, ∀ hi : i < (addrs u).length,
          pairHeap.plus 2 b i = pairHeap.nodeIterRef a (some (addrs u)[i]) :=
  iterators_traverse pairHeap_zip (fun h => by cases h) (by decide)

end CoreCommon.Btree
