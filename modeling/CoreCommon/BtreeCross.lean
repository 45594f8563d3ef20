import CoreCommon.BtreeSwap

/-! The crossing event of the sweep in `triangulate`, which reverses the edges that meet. -/
namespace CoreCommon.Btree
open AvlTree
variable {K V : Type}

/-- `operator[]` of a vector. -/
def at_ (l : List ℕ) (i : ℕ) : Run ℕ :=
  match l[i]? with
  | some a => .ok a
  | none => .error .undefined

namespace Heap

/-- `std::swap` of `v`. -/
def swapValues (s : Heap K V) (a b : ℕ) : Run (Heap K V) := do
  let n ← s.node a
  let m ← s.node b
  let s ← s.modify a fun x => { x with v := m.v }
  s.modify b fun x => { x with v := n.v }

/-- A pass of the loop over `off`. -/
def crossPair (fuel : ℕ) (intersecting : List ℕ) (s : Heap K V) (off : ℕ) : Run (Heap K V) := do
  let ioff := intersecting.length - 1 - off
  let a ← at_ intersecting off
  let b ← at_ intersecting ioff
  let s ← s.swapPositions fuel a b
  s.swapValues a b

/-- The loop over `off`, which the source runs where `intersecting` is not empty. -/
def crossEdges (fuel : ℕ) (s : Heap K V) (intersecting : List ℕ) : Run (Heap K V) :=
  (List.range ((intersecting.length - 1) / 2 + 1)).foldlM (crossPair fuel intersecting) s

end Heap

/-- The nodes `e` and `f` trade places, and the places keep their values. -/
def cross (e f x : ℕ × K × V) : ℕ × K × V :=
  if x.1 = e.1 then (f.1, f.2.1, x.2.2) else if x.1 = f.1 then (e.1, e.2.1, x.2.2) else x

/-- The places of the nodes in the list hold them in reverse, each place with its value; the other
places are as they were. -/
structure Reverses (t : Tree K V) (l : List (ℕ × K × V)) (g : ℕ × K × V → ℕ × K × V) : Prop where
  listed : l.map g = List.zipWith (fun y x => (y.1, y.2.1, x.2.2)) l.reverse l
  other : ∀ x ∈ t.inorder, x ∉ l → g x = x

section crossing
variable {s s' : Heap K V} {t : Tree K V} {a : ℕ} {e f x : ℕ × K × V} {l : List (ℕ × K × V)}
  {fuel : ℕ}

/-! ### One pair -/

/-- The values of `e` and `f` exchanged. -/
def exchangeValues (e f x : ℕ × K × V) : ℕ × K × V :=
  if x.1 = e.1 then (x.1, x.2.1, f.2.2) else if x.1 = f.1 then (x.1, x.2.1, e.2.2) else x

lemma swapValues_ok (hz : Zip s [] t) (he : e ∈ t.inorder) (hf : f ∈ t.inorder) (hne : e.1 ≠ f.1) :
    ∃ s', s.swapValues e.1 f.1 = .ok s' ∧ Zip s' [] (t.map (exchangeValues e f)) ∧
      Local (addrs t) s s' := by
  have hemem : e.1 ∈ addrs t := List.mem_map_of_mem he
  have hfmem : f.1 ∈ addrs t := List.mem_map_of_mem hf
  obtain ⟨n, hn⟩ := Heap.exists_cell (hz.data_ne hemem)
  obtain ⟨m, hm⟩ := Heap.exists_cell (hz.data_ne hfmem)
  have hnv : n.v = e.2.2 := congrArg Prod.snd (Option.some.inj
    ((Heap.data_eq hn).symm.trans (hz.down.data he)))
  have hmv : m.v = f.2.2 := congrArg Prod.snd (Option.some.inj
    ((Heap.data_eq hm).symm.trans (hz.down.data hf)))
  have hm' : (s.withNode e.1 { n with v := m.v }).cell f.1 = some m :=
    (Heap.cell_withNode_of_ne hne.symm).trans hm
  generalize hs' : (s.withNode e.1 { n with v := m.v }).withNode f.1 { m with v := n.v } = s'
  have hrun : s.swapValues e.1 f.1 = .ok s' := by
    rw [Heap.swapValues, Heap.node_eq hn, Run.bind_ok, Heap.node_eq hm, Run.bind_ok,
      Heap.modify_eq hn, Run.bind_ok, Heap.modify_eq hm', hs']
  have hcell : ∀ y, s'.cell y = if y = f.1 then some { m with v := n.v } else
      if y = e.1 then some { n with v := m.v } else s.cell y := by
    intro y
    rw [← hs', Heap.cell_withNode, Heap.cell_withNode]
  have hcontent : s'.content = s.content := by
    funext l
    cases l with
    | top => rw [← hs']; rfl
    | child d y =>
      rw [Heap.content, Heap.content, hcell]
      split_ifs with hyf hye
      · rw [hyf, hm]; cases d <;> rfl
      · rw [hye, hn]; cases d <;> rfl
      · rfl
  have hinfo : s'.info = s.info := by
    funext y
    rw [Heap.info, Heap.info, hcell]
    split_ifs with hyf hye
    · rw [hyf, hm]; rfl
    · rw [hye, hn]; rfl
    · rfl
  refine ⟨s', hrun, hz.moved (g := id) Function.injective_id (fun l _ => ?_) (fun y _ => ?_) ?_,
    by rw [← hs']; rfl, fun y hy => ?_⟩
  · cases l <;> simp [hcontent, Slot.map]
  · simp [hinfo]
  · intro x hx
    have hdata := hz.down.data hx
    rw [id, Heap.data, hcell]
    unfold exchangeValues
    by_cases hxe : x.1 = e.1
    · rw [hxe, Heap.data_eq hn] at hdata
      rw [if_pos hxe, hxe, if_neg hne, if_pos rfl, ← Option.some.inj hdata, Option.map_some, hmv]
      exact ⟨rfl, rfl⟩
    · by_cases hxf : x.1 = f.1
      · rw [hxf, Heap.data_eq hm] at hdata
        rw [if_neg hxe, if_pos hxf, hxf, if_pos rfl, ← Option.some.inj hdata, Option.map_some, hnv]
        exact ⟨rfl, rfl⟩
      · rw [if_neg hxe, if_neg hxf, if_neg hxf, if_neg hxe]
        exact ⟨rfl, hdata⟩
  · rw [hcell, if_neg (ne_of_mem_of_not_mem hfmem hy).symm,
      if_neg (ne_of_mem_of_not_mem hemem hy).symm]

/-- The nodes of a tree differ in their addresses. -/
lemma Zip.label_ext (hz : Zip s [] t) (he : e ∈ t.inorder) (hf : f ∈ t.inorder) (h : e.1 = f.1) :
    e = f := by
  have hdata := hz.down.data he
  rw [h, hz.down.data hf] at hdata
  exact Prod.ext h (Option.some.inj hdata).symm

lemma mem_addrs_map {g : ℕ × K × V → ℕ × K × V} (h : ∀ x ∈ t.inorder, (g x).1 ∈ addrs t) {y : ℕ}
    (hy : y ∈ addrs (t.map g)) : y ∈ addrs t := by
  rw [addrs, inorder_map, List.map_map] at hy
  obtain ⟨x, hx, rfl⟩ := List.mem_map.1 hy
  exact h x hx

/-- The nodes trade places with their values, then the values trade back. -/
lemma exchangeValues_exchange (hne : e.1 ≠ f.1) (hx : x = e ∨ x = f ∨ x.1 ≠ e.1 ∧ x.1 ≠ f.1) :
    exchangeValues e f (exchange e f x) = cross e f x := by
  unfold exchange exchangeValues cross
  rcases hx with rfl | rfl | ⟨hxe, hxf⟩
  · rw [if_pos rfl, if_pos rfl, if_neg hne.symm, if_pos rfl]
  · rw [if_neg hne.symm, if_pos rfl, if_pos rfl, if_neg hne.symm, if_pos rfl]
  · rw [if_neg hxe, if_neg hxf, if_neg hxe, if_neg hxf, if_neg hxe, if_neg hxf]

lemma crossPair_ok (hz : Zip s [] t) (he : e ∈ t.inorder) (hf : f ∈ t.inorder) (hne : e.1 ≠ f.1)
    (fuel : ℕ) : ∃ s' s'', s.swapPositions fuel e.1 f.1 = .ok s' ∧ s'.swapValues e.1 f.1 = .ok s'' ∧
      Zip s'' [] (t.map (cross e f)) ∧ Local (addrs t) s s'' := by
  obtain ⟨s₁, hrun₁, hswapped⟩ := swapPositions_swapped hz (List.mem_map_of_mem he)
    (List.mem_map_of_mem hf) hne fuel
  have hz₁ := hswapped.zip hz he hf
  have hmem : ∀ x ∈ t.inorder, exchange e f x ∈ (t.map (exchange e f)).inorder := by
    intro x hx
    rw [inorder_map]
    exact List.mem_map_of_mem hx
  have hf₁ := hmem e he
  have he₁ := hmem f hf
  rw [exchange, if_pos rfl] at hf₁
  rw [exchange, if_neg hne.symm, if_pos rfl] at he₁
  obtain ⟨s₂, hrun₂, hz₂, hlocal₂⟩ := swapValues_ok hz₁ he₁ hf₁ hne
  have hcross : t.map (exchangeValues e f ∘ exchange e f) = t.map (cross e f) := by
    refine map_congr fun x hx => exchangeValues_exchange hne ?_
    by_cases hxe : x.1 = e.1
    · exact .inl (hz.label_ext hx he hxe)
    · by_cases hxf : x.1 = f.1
      · exact .inr (.inl (hz.label_ext hx hf hxf))
      · exact .inr (.inr ⟨hxe, hxf⟩)
  rw [map_map, hcross] at hz₂
  refine ⟨s₁, s₂, hrun₁, hrun₂, hz₂, hswapped.frame.trans (hlocal₂.mono fun y hy => ?_)⟩
  refine mem_addrs_map (fun x hx => ?_) hy
  rw [(exchange_label hz.down he hf rfl hx).1]
  exact transpose_mem (List.mem_map_of_mem he) (List.mem_map_of_mem hf) (List.mem_map_of_mem hx)

/-! ### The loop -/

/-- The first `j` pairs of the list, from its ends, trade places. -/
def crossed (l : List (ℕ × K × V)) : ℕ → ℕ × K × V → ℕ × K × V
  | 0, x => x
  | j + 1, x =>
    match l[j]?, l[l.length - 1 - j]? with
    | some e, some f => cross e f (crossed l j x)
    | _, _ => crossed l j x

lemma getElem_fst_ne (hnd : (l.map Prod.fst).Nodup) {i j : ℕ} (hi : i < l.length) (hj : j < l.length)
    (hij : i ≠ j) : l[i].1 ≠ l[j].1 := by
  have hpairwise := List.pairwise_iff_getElem.1 (List.pairwise_map.1 hnd)
  rcases Nat.lt_or_gt_of_ne hij with hlt | hgt
  · exact hpairwise i j hi hj hlt
  · exact (hpairwise j i hj hi hgt).symm

lemma cross_of_ne (hxe : x.1 ≠ e.1) (hxf : x.1 ≠ f.1) : cross e f x = x := by
  rw [cross, if_neg hxe, if_neg hxf]

lemma crossed_succ {j : ℕ} (hj : j < l.length) (hj' : l.length - 1 - j < l.length) :
    crossed l (j + 1) x = cross l[j] l[l.length - 1 - j] (crossed l j x) := by
  rw [crossed, List.getElem?_eq_getElem hj, List.getElem?_eq_getElem hj']

lemma crossed_listed (hnd : (l.map Prod.fst).Nodup) {i j : ℕ} (hj : 2 * j ≤ l.length)
    (hi : i < l.length) (hi' : l.length - 1 - i < l.length) :
    crossed l j l[i] = if i < j ∨ l.length - 1 - i < j then
      (l[l.length - 1 - i].1, l[l.length - 1 - i].2.1, l[i].2.2) else l[i] := by
  induction j with
  | zero => simp [crossed]
  | succ j ih =>
    rw [crossed_succ (by omega) (by omega), ih (by omega)]
    have hfar : j ≠ l.length - 1 - j := by omega
    by_cases hdone : i < j ∨ l.length - 1 - i < j
    · rw [if_pos hdone, if_pos (by omega)]
      exact cross_of_ne (getElem_fst_ne hnd hi' (by omega) (by omega))
        (getElem_fst_ne hnd hi' (by omega) (by omega))
    · rw [if_neg hdone]
      by_cases hij : i = j
      · subst hij
        rw [if_pos (by omega), cross, if_pos rfl]
      · by_cases hij' : i = l.length - 1 - j
        · have hji : l.length - 1 - i = j := by omega
          have hne := getElem_fst_ne hnd hi (show j < l.length by omega) hij
          rw [if_pos (by omega), cross, if_neg hne, if_pos (by simp only [hij'])]
          simp only [hji]
        · rw [if_neg (by omega)]
          exact cross_of_ne (getElem_fst_ne hnd hi (by omega) hij)
            (getElem_fst_ne hnd hi (by omega) hij')

lemma crossed_other (hx : x.1 ∉ l.map Prod.fst) {j : ℕ} (hj : j ≤ l.length) : crossed l j x = x := by
  have hne : ∀ i (hi : i < l.length), x.1 ≠ l[i].1 := fun i hi heq =>
    hx (List.mem_map.2 ⟨l[i], List.getElem_mem hi, heq.symm⟩)
  induction j with
  | zero => rfl
  | succ j ih =>
    rw [crossed_succ (by omega) (by omega), ih (by omega)]
    exact cross_of_ne (hne _ _) (hne _ _)

lemma crossed_mem (hl : ∀ x ∈ l, x ∈ t.inorder) {j : ℕ} (hj : j ≤ l.length) :
    ∀ x ∈ t.inorder, (crossed l j x).1 ∈ addrs t := by
  intro x hx
  induction j with
  | zero => exact List.mem_map_of_mem hx
  | succ j ih =>
    have hmem : ∀ i (hi : i < l.length), l[i].1 ∈ addrs t := fun i hi =>
      List.mem_map_of_mem (hl _ (List.getElem_mem hi))
    rw [crossed_succ (by omega) (by omega), cross]
    split_ifs
    · exact hmem _ _
    · exact hmem _ _
    · exact ih (by omega)

/-- The nodes of the list that have not been reached are in their places. -/
lemma mem_crossed (hl : ∀ x ∈ l, x ∈ t.inorder) (hnd : (l.map Prod.fst).Nodup) {i j : ℕ}
    (hj : 2 * j ≤ l.length) (hi : i < l.length) (hleft : ¬(i < j ∨ l.length - 1 - i < j)) :
    l[i] ∈ (t.map (crossed l j)).inorder := by
  rw [inorder_map]
  refine List.mem_map.2 ⟨l[i], hl _ (List.getElem_mem hi), ?_⟩
  rw [crossed_listed hnd hj hi (by omega), if_neg hleft]

lemma at_map {i : ℕ} (hi : i < l.length) : at_ (l.map Prod.fst) i = .ok l[i].1 := by
  rw [at_, List.getElem?_map, List.getElem?_eq_getElem hi]
  rfl

lemma crossPairs_ok (hz : Zip s [] t) (hl : ∀ x ∈ l, x ∈ t.inorder) (hnd : (l.map Prod.fst).Nodup)
    (fuel : ℕ) {j : ℕ} (hj : 2 * j ≤ l.length) :
    ∃ s', (List.range j).foldlM (Heap.crossPair fuel (l.map Prod.fst)) s = .ok s' ∧
      Zip s' [] (t.map (crossed l j)) ∧ Local (addrs t) s s' := by
  induction j with
  | zero =>
    have hsame : t.map (crossed l 0) = t := map_eq_self fun x _ => rfl
    exact ⟨s, rfl, by rwa [hsame], rfl, fun _ _ => rfl⟩
  | succ j ih =>
    obtain ⟨s₁, hrun₁, hz₁, hlocal₁⟩ := ih (by omega)
    have hj₁ : j < l.length := by omega
    have hj₂ : l.length - 1 - j < l.length := by omega
    have hmem := mem_crossed hl hnd (show 2 * j ≤ l.length by omega) hj₁ (by omega)
    have hmem' := mem_crossed hl hnd (show 2 * j ≤ l.length by omega) hj₂ (by omega)
    obtain ⟨s₂, s₃, hrun₂, hrun₃, hz₃, hlocal₃⟩ := crossPair_ok hz₁ hmem hmem'
      (getElem_fst_ne hnd hj₁ hj₂ (by omega)) fuel
    refine ⟨s₃, ?_, ?_, hlocal₁.trans (hlocal₃.mono fun y hy => ?_)⟩
    · rw [List.range_succ, List.foldlM_append, hrun₁, Run.bind_ok, List.foldlM_cons, Heap.crossPair,
        List.length_map, at_map hj₁, Run.bind_ok, at_map hj₂, Run.bind_ok, hrun₂, Run.bind_ok, hrun₃]
      rfl
    · rw [map_map] at hz₃
      have hstep : crossed l (j + 1) = cross l[j] l[l.length - 1 - j] ∘ crossed l j :=
        funext fun x => crossed_succ hj₁ hj₂
      rwa [hstep]
    · exact mem_addrs_map (crossed_mem hl (by omega)) hy

/-! ### A node with itself -/

lemma destroy_cell (h : s.destroy fuel (some a) = .ok s') : s'.cell a = none := by
  cases fuel with
  | zero => cases h
  | succ fuel =>
    obtain ⟨n, -, h⟩ := Run.bind_eq_ok.1 h
    obtain ⟨s₁, -, h⟩ := Run.bind_eq_ok.1 h
    obtain ⟨s₂, -, h⟩ := Run.bind_eq_ok.1 h
    rw [← Except.ok.inj h]
    exact Function.update_self _ _ _

lemma withNode_self {n : Node K V} (hn : s.cell a = some n) : s.withNode a n = s := by
  rw [Heap.withNode, ← hn, Function.update_eq_self]

lemma swapLinks_self {n : Node K V} (hn : s.cell a = some n) : s.swapLinks a a = .ok s := by
  rw [Heap.swapLinks, Heap.node_eq hn, Run.bind_ok, Run.bind_ok, Heap.modify_eq hn, Run.bind_ok,
    withNode_self hn, Heap.modify_eq hn, withNode_self hn]

/-- The second `reset` deletes the node that the first has stored. -/
lemma swapPositions_self (hz : Zip s [] t) (ha : a ∈ addrs t) (fuel : ℕ) :
    s.swapPositions fuel a a ≠ .ok s' := by
  intro hrun
  obtain ⟨l, hl⟩ := hz.hangs ha
  obtain ⟨s₁, hrun₁, h₁⟩ := Heap.store_rewired (hz.has hl.owner) none
  obtain ⟨s₂, hrun₂, h₂⟩ := Heap.store_rewired (h₁.has.2 (hz.has hl.owner)) none
  have h₀₂ := h₁.trans h₂
  obtain ⟨n, hn⟩ := Heap.exists_cell (s := s₂) (a := a) (h₀₂.data_eq ▸ hz.data_ne ha)
  have hparent : n.parent ≠ some a := by
    obtain ⟨i, hi⟩ := info_hangs hl
    rw [← h₁.info_eq, ← h₂.info_eq, Heap.info_eq hn] at hi
    have howner : n.parent = l.owner := congrArg Prod.fst (Option.some.inj hi)
    rw [howner]
    exact hz.owner_ne ha hl
  have hnone : s₂.content l = none := by
    rw [h₂.content_eq, Function.update_self]
  obtain ⟨s₃, hrun₃, h₃⟩ := Heap.assign_rewired fuel (h₀₂.has.2 (hz.has hl.owner)) hnone
    (some a)
  rw [Heap.swapPositions, hl.parentPtr, Run.bind_ok, Run.bind_ok, hrun₁, Run.bind_ok, hrun₂,
    Run.bind_ok, Heap.node_eq hn, Run.bind_ok, Run.bind_ok, if_neg hparent, if_neg hparent] at hrun
  dsimp only at hrun
  rw [swapLinks_self hn, Run.bind_ok, hrun₃, Run.bind_ok] at hrun
  obtain ⟨s₄, hrun₄, hrun⟩ := Run.bind_eq_ok.1 hrun
  rw [Heap.assign, Heap.load_eq ((h₀₂.trans h₃).has.2 (hz.has hl.owner)), h₃.content_eq,
    Function.update_self, Run.bind_ok] at hrun₄
  obtain ⟨s₅, -, hdestroy⟩ := Run.bind_eq_ok.1 hrun₄
  have hgone := destroy_cell hdestroy
  obtain ⟨s₆, hadopt, -⟩ := Run.bind_eq_ok.1 hrun
  obtain ⟨p, hp, -⟩ := Run.bind_eq_ok.1 hadopt
  obtain ⟨m, hm, -⟩ := Run.bind_eq_ok.1 hp
  rw [Heap.node, hgone] at hm
  cases hm

/-- The event leaves a well-linked tree in which the nodes of the list stand in reverse. -/
def EventReverses (fuel : ℕ) (s : Heap K V) (t : Tree K V) (l : List (ℕ × K × V)) : Prop :=
  ∃ s' g, s.crossEdges fuel (l.map Prod.fst) = .ok s' ∧ Zip s' [] (t.map g) ∧ Reverses t l g ∧
    Local (addrs t) s s'

lemma reverses_crossed (hz : Zip s [] t) (hl : ∀ x ∈ l, x ∈ t.inorder)
    (hnd : (l.map Prod.fst).Nodup) {j : ℕ} (hj : l.length = 2 * j) : Reverses t l (crossed l j) := by
  constructor
  · refine List.ext_getElem (by simp) fun i hi hi' => ?_
    rw [List.length_map] at hi
    rw [List.getElem_map, List.getElem_zipWith, List.getElem_reverse,
      crossed_listed hnd (by omega) hi (by omega), if_pos (by omega)]
  · intro x hx hnot
    refine crossed_other (fun hmem => ?_) (by omega)
    obtain ⟨y, hy, heq⟩ := List.mem_map.1 hmem
    exact hnot (hz.label_ext (hl y hy) hx heq ▸ hy)

/-- With an odd number of edges the middle one is swapped with itself, and deleted. -/
theorem cross_edges_iff (hz : Zip s [] t) (hl : ∀ x ∈ l, x ∈ t.inorder)
    (hnd : (l.map Prod.fst).Nodup) (hlength : 2 ≤ l.length) :
    EventReverses fuel s t l ↔ Even l.length := by
  constructor
  · rintro ⟨s', g, hrun, -⟩
    by_contra hodd
    obtain ⟨j, hj⟩ := Nat.not_even_iff_odd.1 hodd
    have hrounds : (l.length - 1) / 2 + 1 = j + 1 := by omega
    obtain ⟨s₁, hrun₁, hz₁, -⟩ := crossPairs_ok hz hl hnd fuel (show 2 * j ≤ l.length by omega)
    rw [Heap.crossEdges, List.length_map, hrounds, List.range_succ, List.foldlM_append, hrun₁,
      Run.bind_ok, List.foldlM_cons, Heap.crossPair, List.length_map,
      show l.length - 1 - j = j by omega, at_map (by omega), Run.bind_ok, Run.bind_ok] at hrun
    obtain ⟨s₂, hpair, -⟩ := Run.bind_eq_ok.1 hrun
    obtain ⟨s₃, hself, -⟩ := Run.bind_eq_ok.1 hpair
    have hmem := mem_crossed hl hnd (show 2 * j ≤ l.length by omega) (show j < l.length by omega)
      (by omega)
    exact swapPositions_self hz₁ (List.mem_map_of_mem hmem) fuel hself
  · rintro ⟨j, hj⟩
    have hrounds : (l.length - 1) / 2 + 1 = j := by omega
    obtain ⟨s', hrun, hz', hlocal⟩ := crossPairs_ok hz hl hnd fuel (show 2 * j ≤ l.length by omega)
    refine ⟨s', crossed l j, ?_, hz', reverses_crossed hz hl hnd (by omega), hlocal⟩
    rw [Heap.crossEdges, List.length_map, hrounds, hrun]

end crossing

/-- Two edges that meet. -/
theorem cross_edges_iff_example : EventReverses 0 pairHeap pairTree [(0, 5, 50), (1, 6, 60)] :=
  (cross_edges_iff pairHeap_zip (by decide) (by decide) (by decide)).2 (by decide)

/-- A node with two children. -/
def tripleHeap : Heap ℕ ℕ :=
  ⟨some 1, 3, fun y => if y = 0 then some ⟨some 1, false, 0, 5, 50, none, none⟩
    else if y = 1 then some ⟨none, true, 0, 6, 60, some 0, some 2⟩
    else if y = 2 then some ⟨some 1, false, 0, 7, 70, none, none⟩ else none⟩

def tripleTree : Tree ℕ ℕ :=
  .node (1, 6, 60) 0 (.node (0, 5, 50) 0 .nil .nil) (.node (2, 7, 70) 0 .nil .nil)

lemma tripleHeap_zip : Zip tripleHeap [] tripleTree :=
  ⟨⟨rfl, ⟨rfl, trivial, trivial⟩, rfl, trivial, trivial⟩, rfl, by decide⟩

/-- Three edges that meet in one point. -/
theorem middle_edge_deleted : ¬∀ (fuel : ℕ) (s : Heap ℕ ℕ) (t : Tree ℕ ℕ) (l : List (ℕ × ℕ × ℕ)),
    Zip s [] t → (∀ x ∈ l, x ∈ t.inorder) → (l.map Prod.fst).Nodup → 2 ≤ l.length →
    EventReverses fuel s t l := by
  intro h
  obtain ⟨s', g, hrun, -⟩ := h 4 tripleHeap tripleTree [(0, 5, 50), (1, 6, 60), (2, 7, 70)]
    tripleHeap_zip (by decide) (by decide) (by decide)
  have hfail : (tripleHeap.crossEdges 4 [0, 1, 2]).map (fun _ => ()) = .error .undefined := by decide
  have hok := congrArg (Except.map fun _ => ()) hrun
  exact absurd (hfail.symm.trans hok) (by simp [Except.map])

end CoreCommon.Btree
