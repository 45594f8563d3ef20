import CoreCommon.BtreeView

/-! Two nodes of a tree trade places. -/
namespace CoreCommon.Btree
open AvlTree
variable {K V : Type}

namespace Heap

/-- `std::swap` of `left`, `right`, `parent`, `root` and `h_diff`. -/
def swapLinks (s : Heap K V) (a b : ℕ) : Run (Heap K V) := do
  let n ← s.node a
  let m ← s.node b
  let s ← s.modify a fun _ => { m with x := n.x, v := n.v }
  s.modify b fun _ => { n with x := m.x, v := m.v }

/-- The link of the node `b` on the side on which the link `l` is in the node `a`. -/
def across (l : Slot) (a b : ℕ) : Slot := if l = .child false a then .child false b else .child true b

/-- `if (p) p->parent = a;` for both children of `a`. -/
def adoptChildren (s : Heap K V) (a : ℕ) : Run (Heap K V) := do
  let s ← s.adopt (← s.load (.child true a)) (some a)
  s.adopt (← s.load (.child false a)) (some a)

/-- `Node::swap_positions`; `reset` deletes what the pointer owned. -/
def swapPositions (fuel : ℕ) (s : Heap K V) (a b : ℕ) : Run (Heap K V) := do
  let pptr ← s.parentPtr a
  let opptr ← s.parentPtr b
  let s ← s.store pptr none
  let s ← s.store opptr none
  let n ← s.node a
  let m ← s.node b
  let (pptr, opptr) :=
    if n.parent = some b then (across pptr b a, opptr)
    else if m.parent = some a then (pptr, across opptr a b)
    else (pptr, opptr)
  let s ← s.swapLinks a b
  let s ← s.assign fuel pptr (some b)
  let s ← s.assign fuel opptr (some a)
  let s ← s.adoptChildren a
  s.adoptChildren b

end Heap

/-- The places of `a` and `b` exchanged. -/
def transpose (a b y : ℕ) : ℕ := if y = a then b else if y = b then a else y

/-- The labels `e` and `f` exchanged, told apart by their addresses. -/
def exchange (e f x : ℕ × K × V) : ℕ × K × V := if x.1 = e.1 then f else if x.1 = f.1 then e else x

section swapping
variable {s s' : Heap K V} {t : Tree K V} {a b y z : ℕ} {e f : ℕ × K × V} {l l' pptr opptr : Slot}
  {fuel : ℕ} {q : Option ℕ} {root : Bool}

@[simp] lemma transpose_left : transpose a b a = b := if_pos rfl

@[simp] lemma transpose_right : transpose a b b = a := by
  by_cases h : b = a
  · rw [transpose, if_pos h, h]
  · rw [transpose, if_neg h, if_pos rfl]

lemma transpose_of_ne (ha : y ≠ a) (hb : y ≠ b) : transpose a b y = y := by
  rw [transpose, if_neg ha, if_neg hb]

lemma transpose_transpose : transpose a b (transpose a b y) = y := by
  by_cases ha : y = a
  · rw [ha, transpose_left, transpose_right]
  · by_cases hb : y = b
    · rw [hb, transpose_right, transpose_left]
    · rw [transpose_of_ne ha hb, transpose_of_ne ha hb]

lemma transpose_injective : Function.Injective (transpose a b) := fun y z h => by
  rw [← transpose_transpose (a := a) (b := b) (y := y), h, transpose_transpose]

lemma map_transpose_map : (l.map (transpose a b)).map (transpose a b) = l := by
  cases l with
  | top => rfl
  | child d y => exact congrArg (Slot.child d) transpose_transpose

lemma map_transpose_inj : l.map (transpose a b) = l'.map (transpose a b) ↔ l = l' := by
  refine ⟨fun h => ?_, fun h => by rw [h]⟩
  rw [← map_transpose_map (a := a) (b := b) (l := l), h, map_transpose_map]

lemma map_transpose_of_ne (ha : l.owner ≠ some a) (hb : l.owner ≠ some b) :
    l.map (transpose a b) = l := by
  cases l with
  | top => rfl
  | child d y =>
    have hy : transpose a b y = y :=
      transpose_of_ne (fun h => ha (congrArg some h)) fun h => hb (congrArg some h)
    exact congrArg (Slot.child d) hy

lemma addr_map {g : ℕ → ℕ} {label : ℕ × K × V → ℕ × K × V}
    (h : ∀ x ∈ t.inorder, (label x).1 = g x.1) : addr (t.map label) = (addr t).map g := by
  cases t with
  | nil => rfl
  | node e d l r => exact congrArg some (h e (by simp [inorder]))

/-- A tree whose nodes have moved. -/
lemma Owns.moved {g : ℕ → ℕ} {label : ℕ × K × V → ℕ × K × V} (ht : Owns s t q root)
    (hcontent : ∀ y ∈ addrs t, ∀ d,
      s'.content (.child d (g y)) = (s.content (.child d y)).map g)
    (hinfo : ∀ y ∈ addrs t, s'.info (g y) = (s.info y).map fun i => (i.1.map g, i.2))
    (hlabel : ∀ x ∈ t.inorder, (label x).1 = g x.1 ∧ s'.data (g x.1) = some (label x).2) :
    Owns s' (t.map label) (q.map g) root := by
  induction t generalizing q root with
  | nil => trivial
  | node e h l r ihl ihr =>
    simp only [addrs_node, List.mem_append, List.mem_cons, inorder] at hcontent hinfo hlabel
    obtain ⟨hcell, hl, hr⟩ := ht
    have he := hlabel e (.inr (.inl rfl))
    obtain ⟨n, hn⟩ := Heap.exists_cell (s := s') (a := g e.1) (by rw [he.2]; simp)
    have hleft := hcontent e.1 (.inr (.inl rfl)) false
    have hright := hcontent e.1 (.inr (.inl rfl)) true
    have htop := hinfo e.1 (.inr (.inl rfl))
    have hdata := he.2
    rw [Heap.content_child hn, Heap.content_child hcell] at hleft hright
    rw [Heap.info_eq hn, Heap.info_eq hcell] at htop
    rw [Heap.data_eq hn] at hdata
    refine ⟨?_, ?_, ?_⟩
    · rw [he.1, hn]
      rw [addr_map fun x hx => (hlabel x (.inl hx)).1, addr_map fun x hx => (hlabel x (.inr (.inr hx))).1]
      obtain ⟨parent, root', hDiff, x, v, left, right⟩ := n
      obtain ⟨rfl, rfl, rfl⟩ : parent = q.map g ∧ root' = root ∧ hDiff = h := by simpa using htop
      obtain rfl : left = (addr l).map g := hleft
      obtain rfl : right = (addr r).map g := hright
      rw [← Option.some.inj hdata]
    · rw [he.1]
      exact ihl hl (fun y hy => hcontent y (.inl hy)) (fun y hy => hinfo y (.inl hy))
        fun x hx => hlabel x (.inl hx)
    · rw [he.1]
      exact ihr hr (fun y hy => hcontent y (.inr (.inr hy))) (fun y hy => hinfo y (.inr (.inr hy)))
        fun x hx => hlabel x (.inr (.inr hx))

lemma Owns.data (ht : Owns s t q root) {x : ℕ × K × V} (hx : x ∈ t.inorder) :
    s.data x.1 = some x.2 := by
  induction t generalizing q root with
  | nil => cases hx
  | node e h l r ihl ihr =>
    rcases List.mem_append.1 hx with hx | hx
    · exact ihl ht.2.1 hx
    · rcases List.mem_cons.1 hx with rfl | hx
      · exact Heap.data_eq ht.1
      · exact ihr ht.2.2 hx

lemma Zip.moved {g : ℕ → ℕ} {label : ℕ × K × V → ℕ × K × V} (hz : Zip s [] t)
    (hg : Function.Injective g)
    (hcontent : ∀ l, (∀ q, l.owner = some q → q ∈ addrs t) →
      s'.content (l.map g) = (s.content l).map g)
    (hinfo : ∀ y ∈ addrs t, s'.info (g y) = (s.info y).map fun i => (i.1.map g, i.2))
    (hlabel : ∀ x ∈ t.inorder, (label x).1 = g x.1 ∧ s'.data (g x.1) = some (label x).2) :
    Zip s' [] (t.map label) := by
  have haddrs : addrs (t.map label) = (addrs t).map g := by
    rw [addrs, addrs, inorder_map, List.map_map, List.map_map]
    exact List.map_congr_left fun x hx => (hlabel x hx).1
  refine ⟨?_, ?_, ?_⟩
  · exact hz.down.moved (fun y hy d => hcontent (.child d y) fun q hq => Option.some.inj hq ▸ hy)
      hinfo hlabel
  · have htop := hcontent .top fun q hq => by cases hq
    have hptr : s.content .top = addr t := hz.up
    rw [addr_map fun x hx => (hlabel x hx).1, ← hptr]
    exact htop
  · have hnd := hz.nodup
    rw [show addrsUp ([] : List (Frame (ℕ × K × V))) = [] from rfl, List.append_nil] at hnd ⊢
    rw [haddrs]
    exact hnd.map hg

/-! ### The steps -/

lemma swapLinks_rewired (hab : a ≠ b) (ha : s.data a ≠ none) (hb : s.data b ≠ none) :
    ∃ s', s.swapLinks a b = .ok s' ∧ Rewired s s' (fun l => s.content (l.map (transpose a b)))
      fun y => s.info (transpose a b y) := by
  obtain ⟨n, hn⟩ := Heap.exists_cell ha
  obtain ⟨m, hm⟩ := Heap.exists_cell hb
  have hm' : (s.withNode a { m with x := n.x, v := n.v }).cell b = some m :=
    (Heap.cell_withNode_of_ne hab.symm).trans hm
  refine ⟨(s.withNode a { m with x := n.x, v := n.v }).withNode b { n with x := m.x, v := m.v },
    ?_, ?_, ?_, ?_, rfl⟩
  · rw [Heap.swapLinks, Heap.node_eq hn, Run.bind_ok, Heap.node_eq hm, Run.bind_ok,
      Heap.modify_eq hn, Run.bind_ok, Heap.modify_eq hm']
  · funext l
    cases l with
    | top => rfl
    | child d y =>
      simp only [Heap.content, Heap.cell_withNode, Slot.map, transpose]
      by_cases hyb : y = b
      · subst hyb
        rw [if_pos rfl, if_neg hab.symm, if_pos rfl, hn]
        cases d <;> rfl
      · by_cases hya : y = a
        · subst hya
          rw [if_neg hyb, if_pos rfl, if_pos rfl, hm]
          cases d <;> rfl
        · rw [if_neg hyb, if_neg hya, if_neg hya, if_neg hyb]
  · funext y
    simp only [Heap.info, Heap.cell_withNode, transpose]
    by_cases hyb : y = b
    · subst hyb
      rw [if_pos rfl, if_neg hab.symm, if_pos rfl, hn]
      rfl
    · by_cases hya : y = a
      · subst hya
        rw [if_neg hyb, if_pos rfl, if_pos rfl, hm]
        rfl
      · rw [if_neg hyb, if_neg hya, if_neg hya, if_neg hyb]
  · funext y
    simp only [Heap.data, Heap.cell_withNode]
    by_cases hyb : y = b
    · rw [if_pos hyb, hyb, hm]
      rfl
    · by_cases hya : y = a
      · rw [if_neg hyb, if_pos hya, hya, hn]
        rfl
      · rw [if_neg hyb, if_neg hya]

/-- The node is a child of `a`. -/
def IsChild (s : Heap K V) (a y : ℕ) : Prop :=
  s.content (.child false a) = some y ∨ s.content (.child true a) = some y

instance (s : Heap K V) (a y : ℕ) : Decidable (IsChild s a y) := instDecidableOr

lemma isChild_iff : IsChild s a y ↔ ∃ d, s.content (.child d a) = some y := by
  simp [IsChild]

lemma adoptChildren_rewired (ha : s.data a ≠ none) (hchild : ∀ y, IsChild s a y → s.data y ≠ none) :
    ∃ s', s.adoptChildren a = .ok s' ∧ Rewired s s' s.content fun y =>
      if IsChild s a y then (s.info y).map fun i => (some a, i.2) else s.info y := by
  obtain ⟨s₁, hrun₁, h₁⟩ := Heap.adopt_rewired (fun y hy => hchild y (.inr hy)) (some a)
  have hleft : ∀ y, s₁.content (.child false a) = some y → s₁.data y ≠ none := by
    intro y hy
    rw [h₁.content_eq] at hy
    rw [h₁.data_eq]
    exact hchild y (.inl hy)
  obtain ⟨s₂, hrun₂, h₂⟩ := Heap.adopt_rewired hleft (some a)
  have h := h₁.trans h₂
  refine ⟨s₂, ?_, h.content_eq.trans h₁.content_eq, h.info_eq.trans ?_, h.data_eq, h.fresh_eq⟩
  · rw [Heap.adoptChildren, Heap.load_eq (l := .child true a) ha, Run.bind_ok, hrun₁, Run.bind_ok,
      Heap.load_eq (l := .child false a) (h₁.has.2 ha), Run.bind_ok, hrun₂]
  · funext y
    rw [h₁.content_eq, h₁.info_eq]
    unfold adopted
    by_cases hl : s.content (.child false a) = some y
    · have hy : IsChild s a y := .inl hl
      rw [if_pos hl, if_pos hy]
      split_ifs
      · rw [Option.map_map]
        rfl
      · rfl
    · rw [if_neg hl]
      by_cases hr : s.content (.child true a) = some y
      · have hy : IsChild s a y := .inr hr
        rw [if_pos hr, if_pos hy]
      · have hy : ¬IsChild s a y := not_or.2 ⟨hl, hr⟩
        rw [if_neg hr, if_neg hy]

lemma Zip.data_ne (hz : Zip s [] t) (ha : a ∈ addrs t) : s.data a ≠ none := by
  obtain ⟨l, hl⟩ := hz.hangs ha
  obtain ⟨n, hn, -⟩ := hl.parent
  rw [Heap.data_eq hn]
  exact Option.some_ne_none _

lemma Zip.has (hz : Zip s [] t) (hl : ∀ q, l.owner = some q → q ∈ addrs t) : s.Has l := by
  cases l with
  | top => trivial
  | child d q => exact hz.data_ne (hl q rfl)

lemma across_eq (h : l.owner = some a) : Heap.across l a b = l.map (transpose a b) := by
  cases l with
  | top => cases h
  | child d q =>
    obtain rfl := Option.some.inj h
    cases d <;> simp [Heap.across, Slot.map]

lemma transpose_comm : transpose a b = transpose b a := by
  funext y
  unfold transpose
  split_ifs with ha hb <;> simp_all

/-- A link inside one of the two nodes goes to the other. -/
lemma redirect_eq (hz : Zip s [] t) (ha : a ∈ addrs t) (hb : b ∈ addrs t) (hp : Hangs s t a pptr)
    (ho : Hangs s t b opptr) :
    (if pptr.owner = some b then (Heap.across pptr b a, opptr)
      else if opptr.owner = some a then (pptr, Heap.across opptr a b) else (pptr, opptr)) =
    (pptr.map (transpose a b), opptr.map (transpose a b)) := by
  have hpa := hz.owner_ne ha hp
  have hob := hz.owner_ne hb ho
  by_cases hpb : pptr.owner = some b
  · rw [if_pos hpb, across_eq hpb, transpose_comm (a := b),
      map_transpose_of_ne (hz.owner_ne_of_owner ha hp ho hpb) hob]
  · rw [if_neg hpb, map_transpose_of_ne hpa hpb]
    by_cases hoa : opptr.owner = some a
    · rw [if_pos hoa, across_eq hoa]
    · rw [if_neg hoa, map_transpose_of_ne hoa hob]

lemma transpose_mem (ha : a ∈ addrs t) (hb : b ∈ addrs t) (hy : y ∈ addrs t) :
    transpose a b y ∈ addrs t := by
  unfold transpose
  split_ifs
  · exact hb
  · exact ha
  · exact hy

lemma map_transpose_owner (ha : a ∈ addrs t) (hb : b ∈ addrs t)
    (hl : ∀ q, l.owner = some q → q ∈ addrs t) :
    ∀ q, (l.map (transpose a b)).owner = some q → q ∈ addrs t := by
  intro q hq
  cases l with
  | top => cases hq
  | child d y =>
    obtain rfl := Option.some.inj hq
    exact transpose_mem ha hb (hl y rfl)

/-- What `swap_positions` does, field by field. -/
structure Swapped (s s' : Heap K V) (t : Tree K V) (a b : ℕ) : Prop where
  content : ∀ l, (∀ q, l.owner = some q → q ∈ addrs t) →
    s'.content (l.map (transpose a b)) = (s.content l).map (transpose a b)
  info : ∀ y ∈ addrs t, s'.info (transpose a b y) =
    (s.info y).map fun i => (i.1.map (transpose a b), i.2)
  data : s'.data = s.data
  frame : Local (addrs t) s s'

/-- The links after the four writes that exchange the owners. -/
lemma links_ok (hz : Zip s [] t) (ha : a ∈ addrs t) (hb : b ∈ addrs t) (hab : a ≠ b)
    (hp : Hangs s t a pptr) (ho : Hangs s t b opptr) (fuel : ℕ) :
    ∃ s₁ s₂ s₃ s₄ s₅, s.store pptr none = .ok s₁ ∧ s₁.store opptr none = .ok s₂ ∧
      Rewired s s₂ s₂.content s.info ∧ s₂.swapLinks a b = .ok s₃ ∧
      s₃.assign fuel (pptr.map (transpose a b)) (some b) = .ok s₄ ∧
      s₄.assign fuel (opptr.map (transpose a b)) (some a) = .ok s₅ ∧
      Rewired s s₅ s₅.content (fun y => s.info (transpose a b y)) ∧
      ∀ l, s₅.content (l.map (transpose a b)) =
        if l = opptr then some a else if l = pptr then some b else s.content l := by
  have hne : opptr ≠ pptr := by
    rintro rfl
    exact hab (Option.some.inj (hp.content.symm.trans ho.content))
  obtain ⟨s₁, hrun₁, h₁⟩ := Heap.store_rewired (hz.has hp.owner) none
  obtain ⟨s₂, hrun₂, h₂⟩ := Heap.store_rewired (h₁.has.2 (hz.has ho.owner)) none
  have h₀₂ := h₁.trans h₂
  have hdata : ∀ y ∈ addrs t, s₂.data y ≠ none := fun y hy => by
    rw [h₀₂.data_eq]
    exact hz.data_ne hy
  obtain ⟨s₃, hrun₃, h₃⟩ := swapLinks_rewired hab (hdata a ha) (hdata b hb)
  have hcontent₂ : s₂.content = Function.update (Function.update s.content pptr none) opptr none := by
    rw [h₂.content_eq, h₁.content_eq]
  have hhas : ∀ l : Slot, (∀ q, l.owner = some q → q ∈ addrs t) →
      s.Has (l.map (transpose a b)) := fun l hl => hz.has (map_transpose_owner ha hb hl)
  have hnone₃ : s₃.content (pptr.map (transpose a b)) = none := by
    rw [h₃.content_eq]
    dsimp only
    rw [map_transpose_map, hcontent₂, Function.update_of_ne hne.symm, Function.update_self]
  obtain ⟨s₄, hrun₄, h₄⟩ := Heap.assign_rewired fuel
    ((h₀₂.trans h₃).has.2 (hhas pptr hp.owner)) hnone₃ (some b)
  have hnone₄ : s₄.content (opptr.map (transpose a b)) = none := by
    rw [h₄.content_eq, Function.update_of_ne (fun h => hne (map_transpose_inj.1 h)), h₃.content_eq]
    dsimp only
    rw [map_transpose_map, hcontent₂, Function.update_self]
  have h₀₄ := (h₀₂.trans h₃).trans h₄
  obtain ⟨s₅, hrun₅, h₅⟩ := Heap.assign_rewired fuel (h₀₄.has.2 (hhas opptr ho.owner)) hnone₄
    (some a)
  have h₀₅ := h₀₄.trans h₅
  refine ⟨s₁, s₂, s₃, s₄, s₅, hrun₁, hrun₂, ⟨rfl, h₀₂.info_eq.trans h₁.info_eq, h₀₂.data_eq,
    h₀₂.fresh_eq⟩, hrun₃, hrun₄, hrun₅, ⟨rfl, ?_, h₀₅.data_eq, h₀₅.fresh_eq⟩, fun l => ?_⟩
  · rw [h₅.info_eq, h₄.info_eq, h₃.info_eq, h₂.info_eq, h₁.info_eq]
  · rw [h₅.content_eq, Function.update_apply, h₄.content_eq, Function.update_apply, h₃.content_eq]
    dsimp only
    rw [map_transpose_map, hcontent₂]
    simp only [map_transpose_inj, Function.update_apply]
    split_ifs <;> rfl

lemma content_swapped (hz : Zip s [] t) (hp : Hangs s t a pptr) (ho : Hangs s t b opptr)
    (hl : ∀ q, l.owner = some q → q ∈ addrs t) :
    (if l = opptr then some a else if l = pptr then some b else s.content l) =
      (s.content l).map (transpose a b) := by
  split_ifs with hlo hlp
  · rw [hlo, ho.content, Option.map_some, transpose_right]
  · rw [hlp, hp.content, Option.map_some, transpose_left]
  · cases hc : s.content l with
    | none => rfl
    | some z =>
      have hza : z ≠ a := by
        rintro rfl
        exact hlp (hz.eq_of_content hp _ hl hc)
      have hzb : z ≠ b := by
        rintro rfl
        exact hlo (hz.eq_of_content ho _ hl hc)
      rw [Option.map_some, transpose_of_ne hza hzb]

lemma info_hangs (h : Hangs s t a l) : ∃ i, s.info a = some (l.owner, i) := by
  obtain ⟨n, hn, hparent⟩ := h.parent
  exact ⟨(n.root, n.hDiff), by rw [Heap.info_eq hn, hparent]⟩

lemma Hangs.isChild (h : Hangs s t y l) (hl : l.owner = some a) : IsChild s a y := by
  cases l with
  | top => cases hl
  | child d q =>
    obtain rfl := Option.some.inj hl
    exact isChild_iff.2 ⟨d, h.content⟩

lemma Zip.owner_of_isChild (hz : Zip s [] t) (ha : a ∈ addrs t) (h : Hangs s t y l)
    (hchild : IsChild s a y) : l.owner = some a := by
  obtain ⟨d, hd⟩ := isChild_iff.1 hchild
  have heq := hz.eq_of_content h (.child d a) (fun q hq => Option.some.inj hq ▸ ha) hd
  rw [← heq]
  rfl

/-- The parents after the children have been adopted. -/
lemma info_swapped (hz : Zip s [] t) (ha : a ∈ addrs t) (hb : b ∈ addrs t) (hy : y ∈ addrs t) :
    (if IsChild s a y then (s.info y).map fun i => (some b, i.2)
      else if IsChild s b y then (s.info y).map fun i => (some a, i.2) else s.info y) =
    (s.info y).map fun i => (i.1.map (transpose a b), i.2) := by
  obtain ⟨l, hl⟩ := hz.hangs hy
  obtain ⟨i, hi⟩ := info_hangs hl
  rw [hi]
  split_ifs with hca hcb
  · simp [hz.owner_of_isChild ha hl hca]
  · simp [hz.owner_of_isChild hb hl hcb]
  · have howner : l.owner.map (transpose a b) = l.owner := by
      cases hq : l.owner with
      | none => rfl
      | some q =>
        have hqa : q ≠ a := by
          rintro rfl
          exact hca (hl.isChild hq)
        have hqb : q ≠ b := by
          rintro rfl
          exact hcb (hl.isChild hq)
        rw [Option.map_some, transpose_of_ne hqa hqb]
    rw [Option.map_some, howner]

/-- Where a child of the other node was is now a child of this one. -/
lemma isChild_moved {s₅ : Heap K V} (ha : a ∈ addrs t)
    (hcontent : ∀ l, (∀ q, l.owner = some q → q ∈ addrs t) →
      s₅.content (l.map (transpose z b)) = (s.content l).map (transpose z b)) :
    IsChild s₅ (transpose z b a) (transpose z b y) ↔ IsChild s a y := by
  have hchild : ∀ d, s₅.content (.child d (transpose z b a)) = some (transpose z b y) ↔
      s.content (.child d a) = some y := by
    intro d
    have h := hcontent (.child d a) fun q hq => Option.some.inj hq ▸ ha
    rw [show Slot.child d (transpose z b a) = (Slot.child d a).map (transpose z b) from rfl, h,
      ← Option.map_some (f := transpose z b)]
    exact (Option.map_injective transpose_injective).eq_iff
  exact or_congr (hchild false) (hchild true)

lemma swapPositions_swapped (hz : Zip s [] t) (ha : a ∈ addrs t) (hb : b ∈ addrs t) (hab : a ≠ b)
    (fuel : ℕ) : ∃ s', s.swapPositions fuel a b = .ok s' ∧ Swapped s s' t a b := by
  obtain ⟨pptr, hp⟩ := hz.hangs ha
  obtain ⟨opptr, ho⟩ := hz.hangs hb
  obtain ⟨s₁, s₂, s₃, s₄, s₅, hrun₁, hrun₂, h₂, hrun₃, hrun₄, hrun₅, h₅, hlinks⟩ :=
    links_ok hz ha hb hab hp ho fuel
  have hcontent : ∀ l, (∀ q, l.owner = some q → q ∈ addrs t) →
      s₅.content (l.map (transpose a b)) = (s.content l).map (transpose a b) := fun l hl =>
    (hlinks l).trans (content_swapped hz hp ho hl)
  have hdata : ∀ y ∈ addrs t, s₅.data y ≠ none := fun y hy => by
    rw [h₅.data_eq]
    exact hz.data_ne hy
  have hchild : ∀ z ∈ addrs t, ∀ y, IsChild s₅ z y → y ∈ addrs t := by
    intro z hz' y hy
    have hmoved := isChild_moved (y := transpose a b y) (transpose_mem ha hb hz') hcontent
    rw [transpose_transpose, transpose_transpose] at hmoved
    obtain ⟨d, hd⟩ := isChild_iff.1 (hmoved.1 hy)
    have hmem := (hz.hangs_of_content (l := .child d (transpose a b z))
      (fun q hq => Option.some.inj hq ▸ transpose_mem ha hb hz') hd).1
    rw [← transpose_transpose (a := a) (b := b) (y := y)]
    exact transpose_mem ha hb hmem
  obtain ⟨s₆, hrun₆, h₆⟩ := adoptChildren_rewired (hdata a ha) fun y hy => hdata y (hchild a ha y hy)
  have hdata₆ : ∀ y ∈ addrs t, s₆.data y ≠ none := fun y hy => by
    rw [h₆.data_eq]
    exact hdata y hy
  have hchild₆ : ∀ z y, IsChild s₆ z y ↔ IsChild s₅ z y := by
    intro z y
    unfold IsChild
    rw [h₆.content_eq]
  obtain ⟨s₇, hrun₇, h₇⟩ := adoptChildren_rewired (hdata₆ b hb) fun y hy =>
    hdata₆ y (hchild b hb y ((hchild₆ b y).1 hy))
  refine ⟨s₇, ?_, fun l hl => ?_, fun y hy => ?_, ?_, ?_, fun y hy => ?_⟩
  · obtain ⟨n, hn⟩ := Heap.exists_cell (s := s₂) (a := a) (h₂.data_eq ▸ hz.data_ne ha)
    obtain ⟨m, hm⟩ := Heap.exists_cell (s := s₂) (a := b) (h₂.data_eq ▸ hz.data_ne hb)
    have hparent : n.parent = pptr.owner ∧ m.parent = opptr.owner := by
      obtain ⟨i, hi⟩ := info_hangs hp
      obtain ⟨j, hj⟩ := info_hangs ho
      rw [← h₂.info_eq, Heap.info_eq hn] at hi
      rw [← h₂.info_eq, Heap.info_eq hm] at hj
      exact ⟨congrArg Prod.fst (Option.some.inj hi), congrArg Prod.fst (Option.some.inj hj)⟩
    rw [Heap.swapPositions, hp.parentPtr, Run.bind_ok, ho.parentPtr, Run.bind_ok, hrun₁, Run.bind_ok,
      hrun₂, Run.bind_ok, Heap.node_eq hn, Run.bind_ok, Heap.node_eq hm, Run.bind_ok, hparent.1,
      hparent.2, redirect_eq hz ha hb hp ho]
    dsimp only
    rw [hrun₃, Run.bind_ok, hrun₄, Run.bind_ok, hrun₅, Run.bind_ok, hrun₆, Run.bind_ok, hrun₇]
  · rw [h₇.content_eq, h₆.content_eq]
    exact hcontent l hl
  · have hca : IsChild s₆ b (transpose a b y) ↔ IsChild s a y := by
      have h := isChild_moved (y := y) ha hcontent
      rw [transpose_left] at h
      exact (hchild₆ _ _).trans h
    have hcb : IsChild s₅ a (transpose a b y) ↔ IsChild s b y := by
      have h := isChild_moved (y := y) hb hcontent
      rwa [transpose_right] at h
    rw [← info_swapped hz ha hb hy, h₇.info_eq, h₆.info_eq, h₅.info_eq]
    dsimp only
    simp only [hca, hcb, transpose_transpose]
    split_ifs
    · rw [Option.map_map]
      rfl
    · rfl
    · rfl
    · rfl
  · rw [h₇.data_eq, h₆.data_eq, h₅.data_eq]
  · rw [h₇.fresh_eq, h₆.fresh_eq, h₅.fresh_eq]
  · have hya : y ≠ a := ne_of_mem_of_not_mem ha hy |>.symm
    have hyb : y ≠ b := ne_of_mem_of_not_mem hb hy |>.symm
    refine Heap.cell_ext (fun d => ?_) ?_ ?_
    · have h := hlinks (.child d y)
      rw [show (Slot.child d y).map (transpose a b) = .child d y from
        congrArg (Slot.child d) (transpose_of_ne hya hyb), if_neg, if_neg] at h
      · rw [h₇.content_eq, h₆.content_eq, h]
      · rintro rfl
        exact hy (hp.owner y rfl)
      · rintro rfl
        exact hy (ho.owner y rfl)
    · have hca : ¬IsChild s₆ b y := fun h => hy (hchild b hb y ((hchild₆ b y).1 h))
      have hcb : ¬IsChild s₅ a y := fun h => hy (hchild a ha y h)
      rw [h₇.info_eq, h₆.info_eq, h₅.info_eq]
      dsimp only
      rw [if_neg hca, if_neg hcb, transpose_of_ne hya hyb]
    · rw [h₇.data_eq, h₆.data_eq, h₅.data_eq]

lemma exchange_label (ht : Owns s t none true) (he : e ∈ t.inorder) (hf : f ∈ t.inorder)
    (hdata : s'.data = s.data) {x : ℕ × K × V} (hx : x ∈ t.inorder) :
    (exchange e f x).1 = transpose e.1 f.1 x.1 ∧
      s'.data (transpose e.1 f.1 x.1) = some (exchange e f x).2 := by
  rw [hdata]
  unfold exchange transpose
  split_ifs
  · exact ⟨rfl, ht.data hf⟩
  · exact ⟨rfl, ht.data he⟩
  · exact ⟨rfl, ht.data hx⟩

lemma Swapped.zip (h : Swapped s s' t e.1 f.1) (hz : Zip s [] t) (he : e ∈ t.inorder)
    (hf : f ∈ t.inorder) : Zip s' [] (t.map (exchange e f)) :=
  hz.moved transpose_injective h.content h.info fun _ hx => exchange_label hz.down he hf h.data hx

/-- In a well-linked tree of any shape, two nodes trade places with their keys and values; shape
and balance factors stay, and so do all other nodes. -/
theorem swap_positions_ok (hz : Zip s [] t) (he : e ∈ t.inorder) (hf : f ∈ t.inorder)
    (hne : e.1 ≠ f.1) (fuel : ℕ) :
    ∃ s', s.swapPositions fuel e.1 f.1 = .ok s' ∧ Zip s' [] (t.map (exchange e f)) ∧
      Local (addrs t) s s' := by
  have hswap := swapPositions_swapped hz (List.mem_map_of_mem he) (List.mem_map_of_mem hf) hne fuel
  obtain ⟨s', hrun, hswapped⟩ := hswap
  exact ⟨s', hrun, hswapped.zip hz he hf, hswapped.frame⟩

end swapping

/-- A node and its right child. -/
theorem swap_positions_ok_example : ∃ s', pairHeap.swapPositions 0 0 1 = .ok s' ∧
    Zip s' [] (.node (1, 6, 60) 1 .nil (.node (0, 5, 50) 0 .nil .nil)) ∧ Local [0, 1] pairHeap s' :=
  swap_positions_ok (e := (0, 5, 50)) (f := (1, 6, 60)) pairHeap_zip (by decide) (by decide)
    (by decide) 0

end CoreCommon.Btree
