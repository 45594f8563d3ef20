import CoreCommon.Btree

/-! Trees laid out in memory, with the focus at any node, and what a rotation does to them. -/
namespace CoreCommon.Btree
open AvlTree
variable {K V : Type}

/-- A tree of nodes: address, key and value. -/
abbrev Tree (K V : Type) := AvlTree (ℕ × K × V)

def addr : Tree K V → Option ℕ
  | .nil => none
  | .node e _ _ _ => some e.1

def addrs (t : Tree K V) : List ℕ := t.inorder.map Prod.fst

def addrsUp (c : List (Frame (ℕ × K × V))) : List ℕ := (labelsUp c).map Prod.fst

/-- The node with the given children on side `d` and on the other side. -/
def Node.of (d : Bool) (q : Option ℕ) (b : Bool) (e : ℕ × K × V) (h : ℤ) (p p' : Option ℕ) :
    Node K V :=
  if d then ⟨q, b, h, e.2.1, e.2.2, p', p⟩ else ⟨q, b, h, e.2.1, e.2.2, p, p'⟩

/-- The tree is in memory, below parent `q`; `b` tells whether its top links to the root. -/
def Owns (s : Heap K V) : Tree K V → Option ℕ → Bool → Prop
  | .nil, _, _ => True
  | .node e h l r, q, b => s.cell e.1 = some ⟨q, b, h, e.2.1, e.2.2, addr l, addr r⟩ ∧
      Owns s l (some e.1) false ∧ Owns s r (some e.1) false

/-- The parent of what is in the hole. -/
def upper : List (Frame (ℕ × K × V)) → Option ℕ
  | [] => none
  | f :: _ => some f.label.1

/-- What surrounds the hole is in memory, and `p` is the pointer in the hole. -/
def OwnsUp (s : Heap K V) : List (Frame (ℕ × K × V)) → Option ℕ → Prop
  | [], p => s.ptr = p
  | f :: c, p =>
    s.cell f.label.1 =
      some (Node.of f.d (upper c) c.isEmpty f.label f.lean p (addr f.sibling)) ∧
    Owns s f.sibling (some f.label.1) false ∧ OwnsUp s c (some f.label.1)

/-- The memory holds the whole tree, seen from the hole that `t` is in. -/
structure Zip (s : Heap K V) (c : List (Frame (ℕ × K × V))) (t : Tree K V) : Prop where
  down : Owns s t (upper c) c.isEmpty
  up : OwnsUp s c (addr t)
  nodup : (addrs t ++ addrsUp c).Nodup

/-- The link that holds the pointer in the hole. -/
def slotOf : List (Frame (ℕ × K × V)) → Slot
  | [] => .top
  | f :: _ => .child f.d f.label.1

/-- The memory with another pointer in the hole. -/
def Heap.point (s : Heap K V) : List (Frame (ℕ × K × V)) → Option ℕ → Heap K V
  | [], p => s.withPtr p
  | f :: c, p => s.withNode f.label.1
      (Node.of f.d (upper c) c.isEmpty f.label f.lean p (addr f.sibling))

/-- Only cells of the list differ. -/
structure Local (l : List ℕ) (s s' : Heap K V) : Prop where
  fresh_eq : s'.fresh = s.fresh
  cell_eq : ∀ y ∉ l, s'.cell y = s.cell y

/-! ### Nodes -/

namespace Node
variable {d : Bool} {q : Option ℕ} {b : Bool} {e : ℕ × K × V} {h : ℤ} {p p' : Option ℕ}

@[simp] lemma of_parent : (Node.of d q b e h p p').parent = q := by cases d <;> rfl

@[simp] lemma of_root : (Node.of d q b e h p p').root = b := by cases d <;> rfl

@[simp] lemma of_hDiff : (Node.of d q b e h p p').hDiff = h := by cases d <;> rfl

@[simp] lemma of_x : (Node.of d q b e h p p').x = e.2.1 := by cases d <;> rfl

@[simp] lemma of_child : (Node.of d q b e h p p').child d = p := by cases d <;> rfl

@[simp] lemma of_child_not : (Node.of d q b e h p p').child (!d) = p' := by cases d <;> rfl

lemma of_left : (Node.of d q b e h p p').left = if d then p' else p := by cases d <;> rfl

lemma of_right : (Node.of d q b e h p p').right = if d then p else p' := by cases d <;> rfl

@[simp] lemma of_setChild (r : Option ℕ) :
    (Node.of d q b e h p p').setChild d r = Node.of d q b e h r p' := by cases d <;> rfl

@[simp] lemma of_setChild_not (r : Option ℕ) :
    (Node.of d q b e h p p').setChild (!d) r = Node.of d q b e h p r := by cases d <;> rfl

@[simp] lemma of_setParent (r : Option ℕ) :
    (Node.of d q b e h p p').setParent r = Node.of d r b e h p p' := by cases d <;> rfl

@[simp] lemma of_setRoot (r : Bool) :
    (Node.of d q b e h p p').setRoot r = Node.of d q r e h p p' := by cases d <;> rfl

@[simp] lemma of_setHDiff (r : ℤ) :
    (Node.of d q b e h p p').setHDiff r = Node.of d q b e r p p' := by cases d <;> rfl

end Node

/-! ### Memory -/

namespace Heap
variable {s : Heap K V} {a : ℕ} {n : Node K V}

@[simp] lemma cell_withNode (y : ℕ) :
    (s.withNode a n).cell y = if y = a then some n else s.cell y := Function.update_apply _ _ _ _

lemma cell_withNode_self : (s.withNode a n).cell a = some n := (cell_withNode a).trans (if_pos rfl)

lemma cell_withNode_of_ne {y : ℕ} (hy : y ≠ a) : (s.withNode a n).cell y = s.cell y :=
  (cell_withNode y).trans (if_neg hy)

@[simp] lemma fresh_withNode : (s.withNode a n).fresh = s.fresh := rfl

@[simp] lemma ptr_withNode : (s.withNode a n).ptr = s.ptr := rfl

lemma node_eq (h : s.cell a = some n) : s.node a = .ok n := by
  unfold node
  rw [h]

lemma node_withNode (y : ℕ) : (s.withNode a n).node y = if y = a then .ok n else s.node y := by
  unfold node
  rw [cell_withNode]
  split_ifs <;> rfl

lemma load_child (d : Bool) : s.load (.child d a) = s.node a >>= fun n => .ok (n.child d) := rfl

lemma store_child (d : Bool) (p : Option ℕ) :
    s.store (.child d a) p = s.modify a (Node.setChild d p) := rfl

lemma modify_eq (h : s.cell a = some n) (f : Node K V → Node K V) :
    s.modify a f = .ok (s.withNode a (f n)) := by
  unfold modify
  rw [node_eq h, Run.bind_ok]

lemma withNode_withNode (n' : Node K V) : (s.withNode a n).withNode a n' = s.withNode a n' :=
  congrArg (Heap.mk s.ptr s.fresh) (Function.update_idem _ _ _)

lemma modify_withNode (f : Node K V → Node K V) :
    (s.withNode a n).modify a f = .ok (s.withNode a (f n)) := by
  rw [modify_eq cell_withNode_self, withNode_withNode]

lemma load_child_eq (h : s.cell a = some n) (d : Bool) :
    s.load (.child d a) = .ok (n.child d) := by
  unfold load
  dsimp only
  rw [node_eq h, Run.bind_ok]

lemma store_child_eq (h : s.cell a = some n) (d : Bool) (p : Option ℕ) :
    s.store (.child d a) p = .ok (s.withNode a (n.setChild d p)) := modify_eq h _

lemma destroy_none (fuel : ℕ) : s.destroy fuel none = .ok s := by
  cases fuel <;> rfl

/-- Assignment to an empty link deletes nothing. -/
lemma assign_child_eq (fuel : ℕ) (h : s.cell a = some n) {d : Bool} (hnone : n.child d = none)
    (p : Option ℕ) : s.assign fuel (.child d a) p = .ok (s.withNode a (n.setChild d p)) := by
  unfold assign
  rw [load_child_eq h, Run.bind_ok, store_child_eq h, Run.bind_ok, hnone, destroy_none]

end Heap

@[simp] lemma deref_some (a : ℕ) : deref (some a) = .ok a := rfl

/-! ### Trees in memory -/

section layout
variable {s s' : Heap K V} {c : List (Frame (ℕ × K × V))} {t u : Tree K V} {e : ℕ × K × V}
  {h : ℤ} {d : Bool} {p q : Option ℕ} {b : Bool}

@[simp] lemma addr_branch : addr (branch d e h t u) = some e.1 := by cases d <;> rfl

lemma owns_branch : Owns s (branch d e h t u) q b ↔
    s.cell e.1 = some (Node.of d q b e h (addr t) (addr u)) ∧
      Owns s t (some e.1) false ∧ Owns s u (some e.1) false := by
  cases d
  · rfl
  · simp only [branch, Owns, Node.of, if_true]
    tauto

lemma addrs_node {l r : Tree K V} : addrs (.node e h l r) = addrs l ++ e.1 :: addrs r := by
  simp [addrs, inorder]

lemma addrs_branch_perm : (addrs (branch d e h t u)).Perm (e.1 :: (addrs t ++ addrs u)) := by
  cases d
  · exact addrs_node ▸ List.perm_middle
  · exact addrs_node ▸ List.perm_middle.trans (List.Perm.cons _ List.perm_append_comm)

@[simp] lemma mem_addrs_branch {y : ℕ} :
    y ∈ addrs (branch d e h t u) ↔ y = e.1 ∨ y ∈ addrs t ∨ y ∈ addrs u := by
  rw [addrs_branch_perm.mem_iff, List.mem_cons, List.mem_append]

lemma nodup_addrs_branch : (addrs (branch d e h t u)).Nodup ↔ (e.1 ∉ addrs t ∧ e.1 ∉ addrs u) ∧
    (addrs t).Nodup ∧ (addrs u).Nodup ∧ ∀ x ∈ addrs t, ∀ y ∈ addrs u, x ≠ y := by
  rw [addrs_branch_perm.nodup_iff, List.nodup_cons, List.mem_append, not_or, List.nodup_append]

lemma addrsUp_cons (f : Frame (ℕ × K × V)) (c : List (Frame (ℕ × K × V))) :
    addrsUp (f :: c) = f.label.1 :: (addrs f.sibling ++ addrsUp c) := by
  simp [addrsUp, labelsUp, addrs]

lemma addrsUp_append (c' c : List (Frame (ℕ × K × V))) :
    addrsUp (c' ++ c) = addrsUp c' ++ addrsUp c := by
  induction c' with
  | nil => rfl
  | cons f c' ih => rw [List.cons_append, addrsUp_cons, addrsUp_cons, ih]; simp

lemma addr_eq_none : addr t = none ↔ t = .nil := by
  cases t with
  | nil => exact ⟨fun _ => rfl, fun _ => rfl⟩
  | node e h l r => exact ⟨nofun, nofun⟩

lemma mem_addrs_of_addr {a : ℕ} (ha : addr t = some a) : a ∈ addrs t := by
  cases t with
  | nil => cases ha
  | node e h l r =>
    cases ha
    rw [addrs_node]
    exact List.mem_append_right _ List.mem_cons_self

lemma Owns.frame (ht : Owns s t q b) (hcell : ∀ y ∈ addrs t, s'.cell y = s.cell y) :
    Owns s' t q b := by
  induction t generalizing q b with
  | nil => trivial
  | node e h l r ihl ihr =>
    simp only [addrs_node, List.mem_append, List.mem_cons] at hcell
    exact ⟨(hcell _ (.inr (.inl rfl))).trans ht.1, ihl ht.2.1 fun y hy => hcell y (.inl hy),
      ihr ht.2.2 fun y hy => hcell y (.inr (.inr hy))⟩

lemma OwnsUp.frame (hc : OwnsUp s c p) (hptr : s'.ptr = s.ptr)
    (hcell : ∀ y ∈ addrsUp c, s'.cell y = s.cell y) : OwnsUp s' c p := by
  induction c generalizing p with
  | nil => exact hptr.trans hc
  | cons f c ih =>
    simp only [addrsUp_cons, List.mem_cons, List.mem_append] at hcell
    exact ⟨(hcell _ (.inl rfl)).trans hc.1,
      hc.2.1.frame fun y hy => hcell y (.inr (.inl hy)),
      ih hc.2.2 fun y hy => hcell y (.inr (.inr hy))⟩

/-- Another parent for the top of the tree. -/
lemma Owns.hang (ht : Owns s t q b) (hnd : (addrs t).Nodup) {q' : Option ℕ} {b' : Bool}
    (htop : ∀ a n, addr t = some a → s.cell a = some n →
      s'.cell a = some ((n.setParent q').setRoot b'))
    (hcell : ∀ y ∈ addrs t, addr t ≠ some y → s'.cell y = s.cell y) : Owns s' t q' b' := by
  cases t with
  | nil => trivial
  | node e h l r =>
    rw [addrs_node] at hnd
    simp only [addrs_node, List.mem_append, List.mem_cons] at hcell
    simp only [List.nodup_append, List.nodup_cons, List.mem_cons, ne_eq, forall_eq_or_imp] at hnd
    refine ⟨htop _ _ rfl ht.1, ht.2.1.frame fun y hy => hcell y (.inl hy) fun heq => ?_,
      ht.2.2.frame fun y hy => hcell y (.inr (.inr hy)) fun heq => ?_⟩
    · exact (hnd.2.2 y hy).1 (Option.some.inj heq).symm
    · exact hnd.2.1.1 (Option.some.inj heq ▸ hy)

lemma Owns.adopt_ok (ht : Owns s t q b) (hnd : (addrs t).Nodup) (q' : Option ℕ) :
    ∃ s', s.adopt (addr t) q' = .ok s' ∧ Owns s' t q' b ∧ s'.ptr = s.ptr ∧
      Local (addrs t) s s' := by
  cases t with
  | nil => exact ⟨s, rfl, trivial, rfl, rfl, fun _ _ => rfl⟩
  | node e h l r =>
    refine ⟨_, Heap.modify_eq ht.1 _, ht.hang hnd ?_ ?_, rfl, rfl, fun y hy => ?_⟩
    · rintro _ n ⟨⟩ hn
      rw [Heap.cell_withNode, if_pos rfl, ← Option.some.inj (ht.1.symm.trans hn)]
      rfl
    · exact fun y _ hne => Heap.cell_withNode_of_ne fun h => hne (congrArg some h.symm)
    · exact Heap.cell_withNode_of_ne (ne_of_mem_of_not_mem (mem_addrs_of_addr rfl) hy).symm

/-- The focus moves up, or down. -/
lemma zip_fill {f : Frame (ℕ × K × V)} : Zip s (f :: c) t ↔ Zip s c (f.fill t) := by
  have hperm : (addrs t ++ addrsUp (f :: c)).Perm (addrs (f.fill t) ++ addrsUp c) := by
    have := (inorder_append_labelsUp_perm f c t).map Prod.fst
    rwa [List.map_append, List.map_append] at this
  constructor
  · rintro ⟨ht, ⟨hf, hsib, hc⟩, hnd⟩
    exact ⟨owns_branch.2 ⟨hf, ht, hsib⟩, by rwa [Frame.fill, addr_branch], hperm.nodup_iff.1 hnd⟩
  · rintro ⟨ht, hc, hnd⟩
    obtain ⟨hf, ht, hsib⟩ := owns_branch.1 ht
    rw [Frame.fill, addr_branch] at hc
    exact ⟨ht, ⟨hf, hsib, hc⟩, hperm.nodup_iff.2 hnd⟩

lemma zip_append {c' : List (Frame (ℕ × K × V))} : Zip s (c' ++ c) t ↔ Zip s c (plug c' t) := by
  induction c' generalizing t with
  | nil => rfl
  | cons f c' ih => exact zip_fill.trans ih

lemma zip_plug : Zip s [] (plug c t) ↔ Zip s c t := by
  rw [← zip_append, List.append_nil]

/-! ### The link above -/

@[simp] lemma fresh_point : (s.point c p).fresh = s.fresh := by cases c <;> rfl

lemma cell_point {y : ℕ} (hy : y ∉ addrsUp c) : (s.point c p).cell y = s.cell y := by
  cases c with
  | nil => rfl
  | cons f c =>
    rw [addrsUp_cons, List.mem_cons, not_or] at hy
    exact Heap.cell_withNode_of_ne hy.1

lemma point_point (p q : Option ℕ) : (s.point c p).point c q = s.point c q := by
  cases c with
  | nil => rfl
  | cons f c => exact Heap.withNode_withNode _

lemma OwnsUp.point (hc : OwnsUp s c q) (hnd : (addrsUp c).Nodup) : OwnsUp (s.point c p) c p := by
  cases c with
  | nil => rfl
  | cons f c =>
    rw [addrsUp_cons, List.nodup_cons, List.mem_append, not_or] at hnd
    have hcell : ∀ y, y ≠ f.label.1 → (s.point (f :: c) p).cell y = s.cell y := fun y hy =>
      Heap.cell_withNode_of_ne hy
    exact ⟨Heap.cell_withNode_self,
      hc.2.1.frame fun y hy => hcell y (ne_of_mem_of_not_mem hy hnd.1.1),
      hc.2.2.frame rfl fun y hy => hcell y (ne_of_mem_of_not_mem hy hnd.1.2)⟩

lemma OwnsUp.withNode (hc : OwnsUp s c p) {a : ℕ} (ha : a ∉ addrsUp c) (n : Node K V) :
    OwnsUp (s.withNode a n) c p :=
  hc.frame rfl fun _ hy => Heap.cell_withNode_of_ne (ne_of_mem_of_not_mem hy ha)

lemma OwnsUp.load_slot (hc : OwnsUp s c p) : s.load (slotOf c) = .ok p := by
  cases c with
  | nil => exact congrArg Except.ok hc
  | cons f c => exact (Heap.load_child_eq hc.1 _).trans (congrArg Except.ok Node.of_child)

lemma OwnsUp.store_slot (hc : OwnsUp s c q) (p : Option ℕ) :
    s.store (slotOf c) p = .ok (s.point c p) := by
  cases c with
  | nil => rfl
  | cons f c =>
    exact (Heap.store_child_eq hc.1 _ _).trans
      (congrArg (fun n => Except.ok (s.withNode f.label.1 n)) (Node.of_setChild p))

lemma Zip.sibling_ne {f : Frame (ℕ × K × V)} (hz : Zip s (f :: c) t) {a : ℕ}
    (ha : addr t = some a) : addr f.sibling ≠ some a := by
  intro heq
  have hnd := hz.nodup
  rw [addrsUp_cons, List.nodup_append] at hnd
  exact hnd.2.2 a (mem_addrs_of_addr ha) a
    (List.mem_cons_of_mem _ (List.mem_append_left _ (mem_addrs_of_addr heq))) rfl

lemma Owns.top {a : ℕ} (ht : Owns s t q b) (ha : addr t = some a) :
    ∃ n, s.cell a = some n ∧ n.parent = q ∧ n.root = b := by
  cases t with
  | nil => cases ha
  | node e h l r =>
    cases ha
    exact ⟨_, ht.1, rfl, rfl⟩

lemma Zip.parentPtr_ok (hz : Zip s c t) {a : ℕ} (ha : addr t = some a) :
    s.parentPtr a = .ok (slotOf c) := by
  obtain ⟨n, hn, hparent, hroot⟩ := hz.down.top ha
  unfold Heap.parentPtr
  rw [Heap.node_eq hn, Run.bind_ok, hparent]
  cases c with
  | nil => exact if_pos hroot
  | cons f c =>
    have hsib := hz.sibling_ne ha
    dsimp only [upper]
    rw [Heap.node_eq hz.up.1, Run.bind_ok, Node.of_left, ha, slotOf]
    cases f.d <;> simp [hsib]

lemma Zip.isRight_ok (hz : Zip s c t) {a : ℕ} (ha : addr t = some a) :
    s.isRight a = .ok (sideOf c) := by
  obtain ⟨n, hn, hparent, -⟩ := hz.down.top ha
  unfold Heap.isRight
  rw [Heap.node_eq hn, Run.bind_ok, hparent]
  cases c with
  | nil => rfl
  | cons f c =>
    have hsib := hz.sibling_ne ha
    dsimp only [upper]
    rw [Heap.node_eq hz.up.1, Run.bind_ok, Node.of_right, ha, sideOf]
    cases f.d <;> simp [hsib]

/-! ### Rotations -/

/-- The links after a rotation. -/
lemma Zip.lift_ok {a p : ℕ × K × V} {h hp : ℤ} {t u w : Tree K V}
    (hz : Zip s c (branch d a h (branch d p hp t u) w)) :
    ∃ s', s.lift d a.1 = .ok (s', p.1) ∧ Zip s' c (branch d p hp t (branch d a h u w)) ∧
      Local (a.1 :: p.1 :: (addrs u ++ addrsUp c)) s s' := by
  have hptr := hz.parentPtr_ok addr_branch
  obtain ⟨hdown, hc, hnd⟩ := hz
  obtain ⟨ha, hdown, hw⟩ := owns_branch.1 hdown
  obtain ⟨hcell, ht, hu⟩ := owns_branch.1 hdown
  rw [addr_branch] at ha hc
  have hnd' : (addrs (branch d p hp t (branch d a h u w)) ++ addrsUp c).Nodup := by
    rwa [addrs, inorder_rotate d a p h hp h hp t u w]
  simp only [List.nodup_append, nodup_addrs_branch, mem_addrs_branch, not_or] at hnd
  obtain ⟨⟨⟨⟨hap, hat, hau⟩, haw⟩, ⟨⟨hpt, hpu⟩, hnt, hnu, htu⟩, hnw, hrest⟩, hnc, hup⟩ := hnd
  have hpa : ¬ p.1 = a.1 := Ne.symm hap
  have hac : a.1 ∉ addrsUp c := fun hmem => hup _ (.inl rfl) _ hmem rfl
  have hpc : p.1 ∉ addrsUp c := fun hmem => hup _ (.inr (.inl (.inl rfl))) _ hmem rfl
  -- until the child on side `d` is in its parent's place
  have hslot : ∀ q, OwnsUp (s.point c q) c q := fun q => hc.point hnc
  have hA : ∀ q, (s.point c q).node a.1 = _ := fun q =>
    Heap.node_eq ((cell_point hac).trans ha)
  have hP : ∀ q, (s.point c q).node p.1 = _ := fun q =>
    Heap.node_eq ((cell_point hpc).trans hcell)
  have hload : ∀ q, (s.point c q).load (slotOf c) = .ok q := fun q => (hslot q).load_slot
  have hload' : ∀ q n, ((s.point c q).withNode a.1 n).load (slotOf c) = .ok q := fun q n =>
    ((hslot q).withNode hac n).load_slot
  have hstore : ∀ q q', (s.point c q).store (slotOf c) q' = .ok (s.point c q') := fun q q' =>
    ((hslot q).store_slot q').trans (congrArg Except.ok (point_point _ _))
  generalize hrun : s.lift d a.1 = run
  simp only [Heap.lift, hptr, Run.bind_ok, hc.store_slot, Heap.swap, hload, hload', hstore,
    Heap.load_child, Heap.store_child, Heap.modify, Heap.node_withNode, hA, hP, Node.of_child,
    Node.of_child_not, Node.of_setChild, Node.of_setChild_not, deref_some, hap, hpa, if_true,
    if_false] at hrun
  -- the subtree that changes parents
  set s₁ := ((((s.point c (some p.1)).withNode a.1 _).withNode a.1 _).withNode p.1 _) with hs₁
  have hcell₁ : ∀ y, y ≠ a.1 → y ≠ p.1 → s₁.cell y = (s.point c (some p.1)).cell y := by
    intro y hya hyp
    simp only [hs₁, Heap.cell_withNode, hya, hyp, if_false]
  have hu₁ : Owns s₁ u (some p.1) false := hu.frame fun y hy => by
    rw [hcell₁ y (ne_of_mem_of_not_mem hy hau) (ne_of_mem_of_not_mem hy hpu)]
    exact cell_point fun hmem => hup y (.inr (.inl (.inr (.inr hy)))) y hmem rfl
  obtain ⟨s₂, hadopt, hu₂, hptr₂, hlocal⟩ := hu₁.adopt_ok hnu (some a.1)
  have ha₁ : s₁.cell a.1 = some (Node.of d (upper c) c.isEmpty a h (addr u) (addr w)) := by
    simp only [hs₁, Heap.cell_withNode, hap, if_true, if_false]
  have hp₁ : s₁.cell p.1 = some (Node.of d (some a.1) false p hp (addr t) none) := by
    simp only [hs₁, Heap.cell_withNode, if_true]
  have ha₂ := Heap.node_eq ((hlocal.cell_eq _ hau).trans ha₁)
  have hp₂ := Heap.node_eq ((hlocal.cell_eq _ hpu).trans hp₁)
  -- the parents and the root of the two nodes
  simp only [hadopt, Run.bind_ok, Heap.node_withNode, ha₂, hp₂, hpa, hap, if_true, if_false,
    Node.of_setParent, Node.of_setRoot, Node.of_setChild_not, Node.of_parent,
    Node.of_root] at hrun
  subst hrun
  refine ⟨_, rfl, ?_⟩
  generalize hs₃ : (((((s₂.withNode _ _).withNode _ _).withNode _ _).withNode _ _).withNode a.1 _) =
    s₃
  have ha₃ : s₃.cell a.1 = some (Node.of d (some p.1) false a h (addr u) (addr w)) := by
    simp only [← hs₃, Heap.cell_withNode, if_true]
  have hp₃ : s₃.cell p.1 =
      some (Node.of d (upper c) c.isEmpty p hp (addr t) (addr (branch d a h u w))) := by
    simp only [← hs₃, Heap.cell_withNode, hpa, if_true, if_false, addr_branch]
  have hcell₃ : ∀ y, y ≠ a.1 → y ≠ p.1 → s₃.cell y = s₂.cell y := by
    intro y hya hyp
    simp only [← hs₃, Heap.cell_withNode, hya, hyp, if_false]
  have hpoint : ∀ y, y ≠ a.1 → y ≠ p.1 → y ∉ addrs u →
      s₃.cell y = (s.point c (some p.1)).cell y := fun y hya hyp hyu =>
    (hcell₃ y hya hyp).trans ((hlocal.cell_eq y hyu).trans (hcell₁ y hya hyp))
  have hother : ∀ y, y ≠ a.1 → y ≠ p.1 → y ∉ addrs u → y ∉ addrsUp c →
      s₃.cell y = s.cell y := fun y hya hyp hyu hyc =>
    (hpoint y hya hyp hyu).trans (cell_point hyc)
  refine ⟨⟨owns_branch.2 ⟨hp₃, ht.frame fun y hy => ?_, owns_branch.2 ⟨ha₃,
    hu₂.frame fun y hy => ?_, hw.frame fun y hy => ?_⟩⟩, ?_, hnd'⟩, ?_, fun y hy => ?_⟩
  · exact hother y (ne_of_mem_of_not_mem hy hat) (ne_of_mem_of_not_mem hy hpt)
      (fun hyu => htu y hy y hyu rfl) fun hyc => hup y (.inr (.inl (.inr (.inl hy)))) y hyc rfl
  · exact hcell₃ y (ne_of_mem_of_not_mem hy hau) (ne_of_mem_of_not_mem hy hpu)
  · exact hother y (ne_of_mem_of_not_mem hy haw) (fun heq => hrest _ (.inl rfl) y hy heq.symm)
      (fun hyu => hrest y (.inr (.inr hyu)) y hy rfl) fun hyc => hup y (.inr (.inr hy)) y hyc rfl
  · rw [addr_branch]
    refine (hslot (some p.1)).frame ?_ fun y hy => hpoint y (ne_of_mem_of_not_mem hy hac)
      (ne_of_mem_of_not_mem hy hpc) fun hyu => hup y (.inr (.inl (.inr (.inr hyu)))) y hy rfl
    rw [← hs₃]
    exact hptr₂
  · rw [← hs₃]
    exact hlocal.fresh_eq.trans fresh_point
  · simp only [List.mem_cons, List.mem_append, not_or] at hy
    exact hother y hy.1 hy.2.1 hy.2.2.1 hy.2.2.2

/-- Another balance factor for the node in the focus. -/
lemma Zip.setHDiff_ok {a : ℕ × K × V} (hz : Zip s c (branch d a h t u)) (h' : ℤ) :
    ∃ s', s.modify a.1 (Node.setHDiff h') = .ok s' ∧ Zip s' c (branch d a h' t u) ∧
      Local [a.1] s s' := by
  obtain ⟨hdown, hc, hnd⟩ := hz
  obtain ⟨ha, ht, hu⟩ := owns_branch.1 hdown
  have hsame : addrs (branch d a h' t u) = addrs (branch d a h t u) := by cases d <;> rfl
  have hnd' := hnd
  rw [List.nodup_append, nodup_addrs_branch] at hnd
  obtain ⟨⟨⟨hat, hau⟩, -⟩, -, hup⟩ := hnd
  have hcell : ∀ y, y ≠ a.1 → (s.withNode a.1 (Node.of d (upper c) c.isEmpty a h' (addr t)
      (addr u))).cell y = s.cell y := fun y hy => Heap.cell_withNode_of_ne hy
  refine ⟨_, (Heap.modify_eq ha _).trans (by rw [Node.of_setHDiff]), ⟨owns_branch.2
    ⟨Heap.cell_withNode_self, ht.frame fun y hy => ?_, hu.frame fun y hy => ?_⟩,
    ?_, hsame ▸ hnd'⟩, rfl, fun y hy => ?_⟩
  · exact hcell y (ne_of_mem_of_not_mem hy hat)
  · exact hcell y (ne_of_mem_of_not_mem hy hau)
  · rw [addr_branch] at hc ⊢
    exact hc.withNode (fun hmem => hup _ (mem_addrs_branch.2 (.inl rfl)) _ hmem rfl) _
  · exact hcell y fun heq => hy (List.mem_singleton.2 heq)

lemma Local.mono {l l' : List ℕ} (hlocal : Local l s s') (hsub : ∀ y ∈ l, y ∈ l') :
    Local l' s s' := ⟨hlocal.fresh_eq, fun y hy => hlocal.cell_eq y fun h => hy (hsub y h)⟩

lemma Local.trans {l : List ℕ} {s₁ : Heap K V} (h₁ : Local l s s₁) (h₂ : Local l s₁ s') :
    Local l s s' :=
  ⟨h₂.fresh_eq.trans h₁.fresh_eq, fun y hy => (h₂.cell_eq y hy).trans (h₁.cell_eq y hy)⟩

lemma Zip.node_ok {a : ℕ × K × V} (hz : Zip s c (branch d a h t u)) :
    s.node a.1 = .ok (Node.of d (upper c) c.isEmpty a h (addr t) (addr u)) :=
  Heap.node_eq (owns_branch.1 hz.down).1

end layout

/-! ### A tree of two nodes -/

def pairHeap : Heap ℕ ℕ :=
  ⟨some 0, 2, fun y => if y = 0 then some ⟨none, true, 1, 5, 50, none, some 1⟩
    else if y = 1 then some ⟨some 0, false, 0, 6, 60, none, none⟩ else none⟩

def pairTree : Tree ℕ ℕ := .node (0, 5, 50) 1 .nil (.node (1, 6, 60) 0 .nil .nil)

lemma pairHeap_zip : Zip pairHeap [] pairTree :=
  ⟨⟨rfl, trivial, rfl, trivial, trivial⟩, rfl, by decide⟩

end CoreCommon.Btree
